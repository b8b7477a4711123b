import Anoncoin.Lib.Runs
import Anoncoin.AddrOperations

/-!
`Check_` of the address manager over whole runs. It holds, and no assertion fails, as long as
no call changes the port of a stored address, for the port is part of the key from which the
positions in the tables are computed.
-/

set_option autoImplicit false

namespace Anoncoin
open Lib

/-- What `Check_` asks of the times of an entry. -/
def CAddrInfo.Timed (info : CAddrInfo) : Prop :=
  0 ≤ info.nLastTry.toInt ∧ 0 ≤ info.nLastSuccess.toInt ∧
    (info.fInTried = true → info.nLastSuccess ≠ 0)

namespace CAddrMan

/-- What `Check_` looks at in the tables. -/
structure Check (H : AddrHashes) (m : CAddrMan) : Prop where
  size : m.nTried+m.nNew = m.vRandom.length
  nTried : m.nTried = m.mapInfo.entries.countP fun e => e.2.fInTried
  nNew : m.nNew = m.mapInfo.entries.countP fun e => !e.2.fInTried
  refs : ∀ nId info, m.mapInfo.lookup nId = some info → info.nRefCount = occurrences m.vvNew nId
  zero : ∀ nId info, m.mapInfo.lookup nId = some info → (info.nRefCount = 0 ↔ info.fInTried = true)
  most : ∀ nId info, m.mapInfo.lookup nId = some info →
    info.nRefCount ≤ ADDRMAN_NEW_BUCKETS_PER_ADDRESS
  tried : ∀ s nId, m.vvTried s = some nId ↔
    ∃ info, m.mapInfo.lookup nId = some info ∧ info.fInTried = true ∧
      H.triedSlot m.nKey info.toCService = s
  new : ∀ s nId, m.vvNew s = some nId →
    ∃ info, m.mapInfo.lookup nId = some info ∧ info.fInTried = false ∧
      H.getBucketPosition m.nKey info.toCService true s.1 = s.2
  addr : ∀ nId info, m.mapInfo.lookup nId = some info →
    m.mapAddr.lookup info.toCNetAddr = some nId
  random : ∀ nId info, m.mapInfo.lookup nId = some info →
    ∃ i : Nat, info.nRandomPos = (i : Int) ∧ m.vRandom[i]? = some nId

/-- `mapAddr` and `vRandom` are exact inverses of what the entries say. -/
structure Inverse (m : CAddrMan) : Prop where
  addr : ∀ a nId, m.mapAddr.lookup a = some nId ↔
    ∃ info, m.mapInfo.lookup nId = some info ∧ info.toCNetAddr = a
  random : ∀ i nId : Nat, m.vRandom[i]? = some nId ↔
    ∃ info, m.mapInfo.lookup nId = some info ∧ info.nRandomPos = (i : Int)

section Check
variable {H : AddrHashes} {m : CAddrMan}

theorem total_countP (m : CAddrMan) (q : Place → Bool) :
    (m.total fun p => if q p then 1 else 0) = m.mapInfo.entries.countP fun e => q e.2.place := by
  unfold total
  induction m.mapInfo.entries with
  | nil => rfl
  | cons e rest ih =>
    rw [List.map_cons,List.sum_cons,ih,List.countP_cons]
    cases hq : q e.2.place with
    | true =>
      simp [hq]
      omega
    | false => simp [hq]

theorem total_new (m : CAddrMan) :
    m.total Place.new = m.mapInfo.entries.countP fun e => !e.2.fInTried := by
  rw [show (fun e : Σ _ : Nat, CAddrInfo => !e.2.fInTried) = fun e => !e.2.place.fInTried from rfl,
    ← total_countP m fun p => !p.fInTried]
  congr 1
  funext p
  cases hf : p.fInTried with
  | true => simp [Place.new,hf]
  | false => simp [Place.new,hf]

/-- Between operations the invariant is what `Check_` looks at. -/
theorem Sound.check (h : m.Sound H [] 0 0) : m.Check H := by
  have hnew := h.counted.new
  have htried := h.counted.tried
  have hsize := h.named.size
  have hboth : m.total Place.new+m.total Place.tried = m.total fun _ => 1 := by
    unfold total
    rw [← List.sum_map_add]
    congr 2
    funext e
    cases hf : e.2.fInTried with
    | true => simp [Place.new,Place.tried,CAddrInfo.place,hf]
    | false => simp [Place.new,Place.tried,CAddrInfo.place,hf]
  have hplace : ∀ {nId info}, m.mapInfo.lookup nId = some info → m.places nId = some info.place :=
    places_of_lookup
  refine ⟨by omega,?_,?_,?_,?_,?_,?_,?_,fun nId info hl => (h.named.addr _ nId).mpr ⟨info,hl,rfl⟩,
    fun nId info hl => h.named.position hl⟩
  · rw [Int.add_zero] at htried
    exact htried.trans (total_countP m fun p => p.fInTried)
  · rw [Int.add_zero] at hnew
    exact hnew.trans (total_new m)
  · intro nId info hl
    exact h.slotted.refs nId _ (hplace hl)
  · intro nId info hl
    refine ⟨fun href => ?_,fun ht => h.slotted.tried_noRefs (hplace hl) ht⟩
    cases hf : info.fInTried with
    | true => rfl
    | false => exact absurd href (h.settled nId _ (hplace hl) (by simp) hf)
  · intro nId info hl
    exact h.slotted.most nId _ (hplace hl)
  · intro s nId
    rw [h.slotted.tried]
    constructor
    · rintro ⟨p,hp,hf,hs⟩
      obtain ⟨info,hl,rfl⟩ := lookup_of_places hp
      exact ⟨info,hl,hf,hs⟩
    · rintro ⟨info,hl,hf,hs⟩
      exact ⟨info.place,hplace hl,hf,hs⟩
  · intro s nId hs
    obtain ⟨p,hp,hf,hpos⟩ := h.slotted.new s nId hs
    obtain ⟨info,hl,rfl⟩ := lookup_of_places hp
    exact ⟨info,hl,hf,hpos⟩

end Check

section Lasting
variable {H : AddrHashes} {P : Nat → CAddrInfo → Prop} {nKey : Uint256} {m m' : CAddrMan} {nId : Nat}
  {info : CAddrInfo}

/-- A property of entries that has nothing to do with their slots and positions, and that
leaving the tried table does not break. -/
structure Lasting (P : Nat → CAddrInfo → Prop) : Prop where
  random : ∀ nId info n, P nId info → P nId { info with nRandomPos := n }
  refs : ∀ nId info n, P nId info → P nId { info with nRefCount := n }
  untried : ∀ nId info, P nId info → P nId { info with fInTried := false }

/-- The manager has this key, and all of its entries have the property. -/
structure Every (P : Nat → CAddrInfo → Prop) (nKey : Uint256) (m : CAddrMan) : Prop where
  nKey : m.nKey = nKey
  entries : ∀ nId info, m.mapInfo.lookup nId = some info → P nId info

theorem Every.setInfo (h : m.Every P nKey) (nId : Nat) {info : CAddrInfo} (hp : P nId info) :
    (m.setInfo nId info).Every P nKey := by
  refine ⟨h.nKey,fun j x hx => ?_⟩
  rw [lookup_setInfo] at hx
  split at hx
  · next hj =>
    rw [hj,← Option.some.inj hx]
    exact hp
  · exact h.entries j x hx

/-- Nothing but the entries and the key matters. -/
theorem Every.congr (h : m.Every P nKey) (hkey : m'.nKey = m.nKey) (hinfo : m'.mapInfo = m.mapInfo) :
    m'.Every P nKey := by
  refine ⟨hkey.trans h.nKey,fun j x hx => ?_⟩
  rw [hinfo] at hx
  exact h.entries j x hx

theorem Every.swapRandom (hP : Lasting P) (h : m.Every P nKey) {i j : Int}
    (hrun : m.swapRandom i j = some m') : m'.Every P nKey := by
  unfold CAddrMan.swapRandom at hrun
  split at hrun
  · rw [← Option.some.inj hrun]
    exact h
  · simp only [Option.bind_eq_bind,Option.bind_eq_some_iff] at hrun
    obtain ⟨-,-,nId1,-,nId2,-,info1,hl₁,-,-,info2,hl₂,hm'⟩ := hrun
    have h₁ := h.setInfo nId1 (hP.random nId1 info1 j (h.entries nId1 info1 hl₁))
    have h₂ := h₁.setInfo nId2 (hP.random nId2 info2 i (h₁.entries nId2 info2 hl₂))
    rw [← Option.some.inj hm']
    exact h₂.congr rfl rfl

theorem Every.delete (hP : Lasting P) (h : m.Every P nKey) (hrun : m.delete nId = some m') :
    m'.Every P nKey := by
  unfold CAddrMan.delete at hrun
  simp only [Option.bind_eq_bind,Option.bind_eq_some_iff] at hrun
  obtain ⟨info,-,-,-,-,-,m₁,hswap,hm'⟩ := hrun
  have h₁ := h.swapRandom hP hswap
  rw [← Option.some.inj hm']
  refine ⟨h₁.nKey,fun j x hx => ?_⟩
  by_cases hj : j = nId
  · subst hj
    simp at hx
  · exact h₁.entries j x (by simpa [hj] using hx)

theorem Every.clearNew (hP : Lasting P) (h : m.Every P nKey) {s : NewSlot}
    (hrun : m.clearNew H s = some m') : m'.Every P nKey := by
  unfold CAddrMan.clearNew at hrun
  split at hrun
  · rw [← Option.some.inj hrun]
    exact h
  · simp only [Option.bind_eq_bind,Option.bind_eq_some_iff] at hrun
    obtain ⟨info,hl,-,-,hrun⟩ := hrun
    have h₁ := h.setInfo _ (hP.refs _ _ (info.nRefCount-1) (h.entries _ info hl))
    split at hrun
    · refine Every.delete hP ?_ hrun
      rw [checkAndDeleteB32Hash_eq]
      exact h₁.congr rfl rfl
    · rw [← Option.some.inj hrun]
      exact h₁.congr rfl rfl

theorem Every.evict (hP : Lasting P) (h : m.Every P nKey) {s : TriedSlot}
    (hrun : m.evict H s = some m') : m'.Every P nKey := by
  unfold CAddrMan.evict at hrun
  split at hrun
  · rw [← Option.some.inj hrun]
    exact h
  · simp only [Option.bind_eq_bind,Option.bind_eq_some_iff] at hrun
    obtain ⟨info,hl,m₁,hclear,-,-,info₁,hl₁,hm'⟩ := hrun
    have h₀ := h.setInfo _ (hP.untried _ _ (h.entries _ info hl))
    have h₁ : m₁.Every P nKey := by
      refine Every.clearNew hP ?_ hclear
      exact h₀.congr rfl rfl
    rw [← Option.some.inj hm']
    exact (h₁.setInfo _ (hP.refs _ _ 1 (h₁.entries _ info₁ hl₁))).congr rfl rfl

theorem Every.makeTried (hP : Lasting P) (h : m.Every P nKey)
    (htry : ∀ info, P nId info → P nId { info with fInTried := true })
    (hrun : m.makeTried H nId = some m') : m'.Every P nKey := by
  unfold CAddrMan.makeTried at hrun
  simp only [Option.bind_eq_bind,Option.bind_eq_some_iff] at hrun
  obtain ⟨info,hl,-,-,m₁,hevict,-,-,info₁,hl₁,hm'⟩ := hrun
  have h₁ : m₁.Every P nKey := by
    refine Every.evict hP ?_ hevict
    exact (h.setInfo _ (hP.refs _ _ _ (h.entries _ info hl))).congr rfl rfl
  rw [← Option.some.inj hm']
  exact (h₁.setInfo _ (htry _ (h₁.entries _ info₁ hl₁))).congr rfl rfl

theorem Every.insertNew (hP : Lasting P) (h : m.Every P nKey) {source : CNetAddr} {nNow : Int}
    (hrun : m.insertNew H nId source nNow = some m') : m'.Every P nKey := by
  unfold CAddrMan.insertNew at hrun
  simp only [Option.bind_eq_bind] at hrun
  obtain ⟨info,hl,hrun⟩ := Option.bind_eq_some_iff.mp hrun
  have hdone : ∀ fInsert : Bool, (if fInsert then (do
      let m₁ ← m.clearNew H (H.newSlot m.nKey info.toCService source)
      let info₁ ← m₁.mapInfo.lookup nId
      pure ((m₁.setInfo nId { info₁ with nRefCount := info₁.nRefCount+1 }).setNew
        (H.newSlot m.nKey info.toCService source) (some nId)))
      else if info.nRefCount = 0 then m.delete nId else pure m) = some m' → m'.Every P nKey := by
    intro fInsert hrun
    split at hrun
    · obtain ⟨m₁,hclear,hrun⟩ := Option.bind_eq_some_iff.mp hrun
      obtain ⟨info₁,hl₁,hm'⟩ := Option.bind_eq_some_iff.mp hrun
      have h₁ := h.clearNew hP hclear
      rw [← Option.some.inj hm']
      exact (h₁.setInfo _ (hP.refs _ _ _ (h₁.entries _ info₁ hl₁))).congr rfl rfl
    · split at hrun
      · exact h.delete hP hrun
      · rw [← Option.some.inj hrun]
        exact h
  split at hrun
  · rw [← Option.some.inj hrun]
    exact h
  · split at hrun
    · exact hdone true hrun
    · obtain ⟨infoExisting,-,hrun⟩ := Option.bind_eq_some_iff.mp hrun
      exact hdone _ hrun

theorem Every.getAddrFrom (hP : Lasting P) (h : m.Every P nKey) {nNodes : Nat} {nNow : Int}
    {rnd : Nat → Nat} {vAddr : List CAddress} {n left : Nat} {r : List CAddress × CAddrMan}
    (hrun : m.getAddrFrom nNodes nNow rnd vAddr n left = some r) : r.2.Every P nKey := by
  induction left generalizing m vAddr n with
  | zero =>
    rw [← Option.some.inj hrun]
    exact h
  | succ left ih =>
    rw [CAddrMan.getAddrFrom] at hrun
    split at hrun
    · rw [← Option.some.inj hrun]
      exact h
    · simp only [Option.bind_eq_bind,Option.bind_eq_some_iff] at hrun
      obtain ⟨m₁,hswap,-,-,ai,-,hrest⟩ := hrun
      exact ih (h.swapRandom hP hswap) hrest

end Lasting

/-- The calls that leave the ports of the stored addresses as they are. The port of an I2P
destination is no part of its key. -/
def KeepsPort (m : CAddrMan) : AddrOp → Prop
  | .add addrIn source _ _ _ => addrIn.withGarlic.toCNetAddr = source → ∀ nId info,
      m.find addrIn.withGarlic.toCNetAddr = some (nId,info) →
        info.port = addrIn.port ∨ info.isNativeI2P = true
  | .good addr _ => ∀ nId info, m.find addr.toCNetAddr = some (nId,info) →
      info.port = addr.port ∨ info.isNativeI2P = true
  | .attempt .. | .connected .. | .select .. | .getAddr .. => True

/-- The calls with a time of the clock. -/
def Timely : AddrOp → Prop
  | .good _ nTime => 0 < nTime.toInt
  | .attempt _ nTime => 0 ≤ nTime.toInt
  | .add .. | .connected .. | .select .. | .getAddr .. => True

section Step
variable {H : AddrHashes} {m m' : CAddrMan} {op : AddrOp} {nKey : Uint256}

/-- No assertion fails, and the invariant is kept. -/
theorem Sound.step (h : m.Sound H [] 0 0) (hop : m.KeepsPort op) :
    ∃ m', m.step H op = some m' ∧ m'.Sound H [] 0 0 := by
  cases op with
  | add addrIn source nTimePenalty nNow rnd =>
    obtain ⟨r,hrun,hr⟩ := h.add_ addrIn source nTimePenalty nNow rnd hop
    exact ⟨r.2,by rw [CAddrMan.step,hrun]; rfl,hr⟩
  | good addr nTime => exact h.good_ addr nTime hop
  | attempt addr nTime => exact ⟨_,rfl,h.attempt_ addr nTime⟩
  | connected addr nTime => exact ⟨_,rfl,h.connected_ addr nTime⟩
  | select fTried tried new =>
    obtain ⟨r,hrun⟩ := h.select_ fTried tried new
    exact ⟨m,by rw [CAddrMan.step,hrun]; rfl,h⟩
  | getAddr nNow rnd =>
    obtain ⟨r,hrun,hr⟩ := h.getAddr_ nNow rnd
    exact ⟨r.2,by rw [CAddrMan.step,hrun]; rfl,hr⟩

theorem lasting_timed (nId : Nat) :
    Lasting fun j info => info.Timed ∧ (j = nId → info.nLastSuccess ≠ 0) := by
  refine ⟨fun _ _ _ h => h,fun _ _ _ h => h,fun j info h => ⟨⟨h.1.1,h.1.2.1,?_⟩,h.2⟩⟩
  intro hf
  contradiction

theorem lasting_times : Lasting fun _ info => info.Timed :=
  ⟨fun _ _ _ h => h,fun _ _ _ h => h,fun _ _ h => ⟨h.1,h.2.1,fun hf => by contradiction⟩⟩

theorem Every.find {P : Nat → CAddrInfo → Prop} (h : m.Every P nKey) {addr : CNetAddr} {nId : Nat}
    {info : CAddrInfo} (hfind : m.find addr = some (nId,info)) : P nId info := by
  unfold CAddrMan.find at hfind
  obtain ⟨j,-,hrest⟩ := Option.bind_eq_some_iff.mp hfind
  obtain ⟨x,hl,hpair⟩ := Option.bind_eq_some_iff.mp hrest
  simp only [Option.pure_def,Option.some.injEq,Prod.mk.injEq] at hpair
  obtain ⟨rfl,rfl⟩ := hpair
  exact h.entries j x hl

theorem Every.good_ (h : m.Every (fun _ info => info.Timed) nKey) {addr : CAddress} {nTime : Uint64}
    (hpos : 0 < nTime.toInt) (hrun : m.good_ H addr nTime = some m') :
    m'.Every (fun _ info => info.Timed) nKey := by
  have hne : nTime ≠ 0 := by
    rintro rfl
    simp at hpos
  unfold CAddrMan.good_ at hrun
  split at hrun
  · rw [← Option.some.inj hrun]
    exact h
  · next nId info hfind =>
    simp only [Option.bind_eq_bind,Option.bind_eq_some_iff] at hrun
    obtain ⟨-,-,hrun⟩ := hrun
    have h₁ : ∀ info' : CAddrInfo, info'.nLastTry = nTime → info'.nLastSuccess = nTime →
        (m.setInfo nId info').Every
          (fun j x => x.Timed ∧ (j = nId → x.nLastSuccess ≠ 0)) nKey := by
      intro info' htry hsuccess
      refine ⟨h.nKey,fun j x hx => ?_⟩
      rw [lookup_setInfo] at hx
      split at hx
      · rw [← Option.some.inj hx]
        refine ⟨⟨?_,?_,fun _ => ?_⟩,fun _ => ?_⟩
        · rw [htry]
          exact hpos.le
        · rw [hsuccess]
          exact hpos.le
        · rw [hsuccess]
          exact hne
        · rw [hsuccess]
          exact hne
      · next hj => exact ⟨h.entries j x hx,fun he => absurd he hj⟩
    have hweak : ∀ {m' : CAddrMan}, m'.Every
        (fun j x => x.Timed ∧ (j = nId → x.nLastSuccess ≠ 0)) nKey →
          m'.Every (fun _ x => x.Timed) nKey := by
      intro m' h'
      exact ⟨h'.nKey,fun j x hx => (h'.entries j x hx).1⟩
    split at hrun
    · rw [← Option.some.inj hrun]
      exact hweak (h₁ _ rfl rfl)
    · split at hrun
      · refine hweak (Every.makeTried (lasting_timed nId) (h₁ _ rfl rfl) ?_ hrun)
        intro x hx
        exact ⟨⟨hx.1.1,hx.1.2.1,fun _ => hx.2 rfl⟩,hx.2⟩
      · rw [← Option.some.inj hrun]
        exact hweak (h₁ _ rfl rfl)

theorem refresh_times (info : CAddrInfo) (addr : CAddress) (source : CNetAddr)
    (nTimePenalty nNow : Int) (h : info.Timed) :
    (refresh info addr source nTimePenalty nNow).Timed := by
  unfold refresh
  dsimp only
  split_ifs <;> exact h

theorem Every.create (h : m.Every (fun _ info => info.Timed) nKey) {addr : CAddress}
    {garlic : addr.isNativeI2P = true → addr.isI2P = true} {source : CNetAddr} {r : Nat × CAddrMan}
    (hrun : m.create H addr garlic source = some r) :
    r.2.Every (fun _ info => info.Timed) nKey := by
  have hnew : CAddrInfo.Timed ⟨addr,source,0,0,0,0,false,m.vRandom.length,garlic⟩ :=
    ⟨le_refl 0,le_refl 0,fun hf => by contradiction⟩
  have h₁ := h.setInfo m.nIdCount hnew
  unfold CAddrMan.create at hrun
  dsimp only at hrun
  split at hrun
  · simp only [Option.bind_eq_bind,Option.bind_eq_some_iff] at hrun
    obtain ⟨-,-,hr⟩ := hrun
    rw [← Option.some.inj hr]
    unfold indexHash
    dsimp only
    split
    · exact h₁.congr rfl rfl
    · exact h₁.congr rfl rfl
  · rw [← Option.some.inj hrun]
    exact h₁.congr rfl rfl

theorem Every.add_ (h : m.Every (fun _ info => info.Timed) nKey) {addrIn : CAddress}
    {source : CNetAddr} {nTimePenalty nNow : Int} {rnd : Nat} {r : Bool × CAddrMan}
    (hrun : m.add_ H addrIn source nTimePenalty nNow rnd = some r) :
    r.2.Every (fun _ info => info.Timed) nKey := by
  unfold CAddrMan.add_ at hrun
  dsimp only at hrun
  split at hrun
  · rw [← Option.some.inj hrun]
    exact h
  · split at hrun
    · next nId info hfind =>
      have h₁ := h.setInfo nId
        (refresh_times info addrIn.withGarlic source nTimePenalty nNow (h.find hfind))
      split at hrun
      · simp only [Option.bind_eq_bind,Option.bind_eq_some_iff] at hrun
        obtain ⟨m₁,hinsert,hr⟩ := hrun
        rw [← Option.some.inj hr]
        exact h₁.insertNew lasting_times hinsert
      · rw [← Option.some.inj hrun]
        exact h₁
    · simp only [Option.bind_eq_bind,Option.bind_eq_some_iff] at hrun
      obtain ⟨⟨nId,m₁⟩,hcreate,info,hl,m₂,hinsert,hr⟩ := hrun
      have h₁ := h.create hcreate
      rw [← Option.some.inj hr]
      have hlate : CAddrInfo.Timed { info with
          nTime := BitVec.ofInt 32 (max 0 (info.nTime.toNat-nTimePenalty)) } :=
        h₁.entries nId info hl
      refine Every.insertNew lasting_times ?_ hinsert
      exact (h₁.setInfo nId hlate).congr rfl rfl

theorem Every.step (h : m.Every (fun _ info => info.Timed) nKey) (hop : Timely op)
    (hrun : m.step H op = some m') : m'.Every (fun _ info => info.Timed) nKey := by
  cases op with
  | add addrIn source nTimePenalty nNow rnd =>
    obtain ⟨r,hadd,hr⟩ := Option.map_eq_some_iff.mp hrun
    rw [← hr]
    exact h.add_ hadd
  | good addr nTime => exact h.good_ hop hrun
  | attempt addr nTime =>
    rw [← Option.some.inj hrun]
    unfold attempt_
    split
    · exact h
    · next nId info hfind =>
      have hinfo : info.Timed := h.find hfind
      have hnew : CAddrInfo.Timed { info with nLastTry := nTime, nAttempts := info.nAttempts+1 } :=
        ⟨hop,hinfo.2⟩
      split
      · exact h
      · exact h.setInfo nId hnew
  | connected addr nTime =>
    rw [← Option.some.inj hrun]
    unfold connected_
    split
    · exact h
    · next nId info hfind =>
      have hinfo : info.Timed := h.find hfind
      have hnew : CAddrInfo.Timed { info with nTime := BitVec.ofInt 32 nTime } := hinfo
      split
      · exact h
      · split
        · exact h.setInfo nId hnew
        · exact h
  | select fTried tried new =>
    obtain ⟨r,-,hr⟩ := Option.map_eq_some_iff.mp hrun
    rw [← hr]
    exact h
  | getAddr nNow rnd =>
    obtain ⟨r,hget,hr⟩ := Option.map_eq_some_iff.mp hrun
    rw [← hr]
    exact h.getAddrFrom lasting_times hget

theorem empty_sound (H : AddrHashes) (nKey : Uint256) : (empty nKey).Sound H [] 0 0 := by
  have hnone : ∀ j, (empty nKey).mapInfo.lookup j = none := fun j => AList.lookup_empty j
  have hplace : ∀ j, (empty nKey).places j = none := fun j => places_none (hnone j)
  refine ⟨⟨?_,?_,?_,?_,rfl⟩,⟨?_,?_,?_,?_⟩,⟨rfl,rfl⟩,?_⟩
  · intro a j
    simp only [hnone]
    simp [empty]
  · intro i j
    simp only [hnone]
    simp [empty]
  · intro j x hx
    simp [hnone] at hx
  · intro j x hx
    simp [hnone] at hx
  · intro s j
    simp only [hplace]
    simp [empty]
  · intro s j hs
    simp [empty] at hs
  · intro j p hp
    simp [hplace] at hp
  · intro j p hp
    simp [hplace] at hp
  · intro j p hp
    simp [hplace] at hp

end Step

/-- In every run that leaves the ports alone no assertion fails and `Check_` is satisfied, the
conditions on the times and on the key if the times are those of a clock. -/
theorem check_of_ports_kept (H : AddrHashes) (nKey : Uint256) :
    (∀ m, ReachableBy (fun m op m' => m.step H op = some m') KeepsPort (empty nKey) m →
      m.Check H ∧ m.Inverse ∧ ∀ op, m.KeepsPort op → m.step H op ≠ none) ∧
    ∀ m, ReachableBy (fun m op m' => m.step H op = some m')
        (fun m op => m.KeepsPort op ∧ Timely op) (empty nKey) m →
      m.nKey = nKey ∧ ∀ nId info, m.mapInfo.lookup nId = some info → info.Timed := by
  constructor
  · intro m hm
    have hsound : m.Sound H [] 0 0 := by
      refine hm.invariant (fun m => m.Sound H [] 0 0) (empty_sound H nKey) ?_
      intro s op s' hs hop hstep
      obtain ⟨t,hrun,ht⟩ := hs.step hop
      rw [hrun] at hstep
      rw [← Option.some.inj hstep]
      exact ht
    refine ⟨hsound.check,⟨hsound.named.addr,hsound.named.random⟩,fun op hop hnone => ?_⟩
    obtain ⟨t,hrun,-⟩ := hsound.step hop
    rw [hrun] at hnone
    contradiction
  · intro m hm
    have hempty : (empty nKey).Every (fun _ info => info.Timed) nKey := by
      refine ⟨rfl,fun j x hx => ?_⟩
      rw [show (empty nKey).mapInfo.lookup j = none from AList.lookup_empty j] at hx
      contradiction
    have hevery : m.Every (fun _ info => info.Timed) nKey :=
      hm.invariant (fun m => m.Every (fun _ info => info.Timed) nKey) hempty
        fun s op s' hs hop hstep => hs.step hop.2 hstep
    exact ⟨hevery.nKey,hevery.entries⟩

section Moved

/-- An address of the internet. -/
def openAddr : CNetAddr :=
  ⟨[0,0,0,0,0,0,0,0,0,0,0xff,0xff,8,8,8,8],List.replicate I2P_DESTINATION_STORE 0,rfl,
    CNetAddr.noDestination_length⟩

/-- A hash that is the last byte of what is hashed. -/
def lastByte : AddrHashes :=
  ⟨fun ss => BitVec.ofNat 256 (ss.getLastD 0).toNat,fun ss => BitVec.ofNat 256 (ss.getLastD 0).toNat⟩

/-- The address is announced by itself, with another port the second time. -/
def movedCalls : List AddrOp :=
  [.add ⟨⟨openAddr,1⟩,0,5⟩ openAddr 0 10 0,.add ⟨⟨openAddr,2⟩,0,0⟩ openAddr 0 10 0]

theorem movedCalls_run : (runAdmitted (fun m op => m.step lastByte op) (fun _ _ => True) (empty 0)
    movedCalls).map (fun m => (m.nKey,m.vvNew (0,1),(m.mapInfo.lookup 0).map fun info =>
      decide (lastByte.getBucketPosition 0 info.toCService true 0 = 1))) =
    some (0,some 0,some false) := by
  decide +kernel

/-- `Check_` does not survive a change of the port: the slot stays where the old port put it. -/
theorem moved_port_breaks_check : ¬∀ (H : AddrHashes) (nKey : Uint256) (m : CAddrMan),
    ReachableBy (fun m op m' => m.step H op = some m') (fun _ _ => True) (empty nKey) m →
      m.Check H := by
  intro h
  obtain ⟨m,hrun,hm⟩ := Option.map_eq_some_iff.mp movedCalls_run
  simp only [Prod.mk.injEq] at hm
  obtain ⟨hkey,hslot,hlast⟩ := hm
  have hreached : ReachableBy (fun m op m' => m.step lastByte op = some m') (fun _ _ => True)
      (empty 0) m :=
    ReachableBy.of_run .init hrun
  obtain ⟨info,hl,-,hpos⟩ := (h lastByte 0 m hreached).new (0,1) 0 hslot
  rw [hkey] at hpos
  rw [hl,Option.map_some,Option.some.injEq,decide_eq_false_iff_not] at hlast
  exact hlast hpos

end Moved

end CAddrMan

end Anoncoin
