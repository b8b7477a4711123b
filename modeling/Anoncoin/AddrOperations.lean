import Anoncoin.AddrInvariant

/-!
What the operations of the address manager keep of its invariant: `MakeTried`, `Good_`,
`Create`, `Add_`, `Attempt_`, `Connected_`, `Select_` and `GetAddr_`.
-/

set_option autoImplicit false

namespace Anoncoin
open Lib

namespace CAddrMan

section MakeTried
variable {H : AddrHashes} {m m' : CAddrMan} {pending : List Nat} {dNew dTried : Int} {nId : Nat}
  {info : CAddrInfo}

/-- What is left of the entries after a slot of the tried table is emptied. -/
structure Evicted (m m' : CAddrMan) (s : TriedSlot) : Prop where
  nKey : m'.nKey = m.nKey
  vvTried : m'.vvTried = Function.update m.vvTried s none
  kept : ∀ j p, m.places j = some p → p.fInTried = false → p.nRefCount = 0 →
    (m'.mapInfo.lookup j).map CAddrInfo.strip = (m.mapInfo.lookup j).map CAddrInfo.strip

/-- The tried entry in the way becomes a new one without slots. -/
theorem Sound.untry (h : m.Sound H pending dNew dTried) (hl : m.mapInfo.lookup nId = some info)
    {s : TriedSlot} (hs : m.vvTried s = some nId) :
    Sound H { (m.setInfo nId { info with fInTried := false }).setTried s none with
      nTried := m.nTried-1 } (nId :: pending) (dNew+1) dTried := by
  have hp := places_of_lookup hl
  obtain ⟨p,hp',ht,-⟩ := (h.slotted.tried s nId).mp hs
  rw [hp] at hp'
  obtain rfl := Option.some.inj hp'
  have hnew : info.place.new = 0 := if_pos ht
  have htried : info.place.tried = 1 := if_pos ht
  refine h.setEntry hl { info with fInTried := false } rfl rfl (h.slotted.untry hp hs) ?_ ?_
    (by simp +contextual) (by simp)
  · rw [hnew]
    show m.nNew+(dNew+1) = m.nNew+dNew-0+1
    omega
  · rw [htried]
    show m.nTried-1+dTried = m.nTried+dTried-1+0
    omega

/-- A new entry without slots gets its first one. -/
theorem Sound.firstSlot (h : m.Sound H (nId :: pending) (dNew+1) dTried)
    (hl : m.mapInfo.lookup nId = some info) (hf : info.fInTried = false)
    (href : info.nRefCount = 0) {s : NewSlot} (hs : m.vvNew s = none)
    (hpos : H.getBucketPosition m.nKey info.toCService true s.1 = s.2) :
    Sound H { (m.setInfo nId { info with nRefCount := 1 }).setNew s (some nId) with
      nNew := m.nNew+1 } pending dNew dTried := by
  have hslotted := h.slotted.slot (places_of_lookup hl) hs hf hpos
    (by rw [show info.place.nRefCount = 0 from href]; decide)
  rw [show info.place.nRefCount = 0 from href] at hslotted
  have hnew : info.place.new = 1 := if_neg (by simp [CAddrInfo.place,hf])
  have hnew' : ({ info with nRefCount := 1 } : CAddrInfo).place.new = 1 := hnew
  refine h.setEntry hl { info with nRefCount := 1 } rfl rfl hslotted ?_ ?_ (by simp +contextual)
    (by simp)
  · rw [hnew,hnew']
    omega
  · rw [show ({ info with nRefCount := 1 } : CAddrInfo).place.tried = info.place.tried from rfl]
    show m.nTried+dTried = _
    omega

theorem Sound.evict (h : m.Sound H pending dNew dTried) (s : TriedSlot) :
    ∃ m', m.evict H s = some m' ∧ m'.Sound H pending dNew dTried ∧ Evicted m m' s := by
  cases hs : m.vvTried s with
  | none =>
    refine ⟨m,by simp [CAddrMan.evict,hs],h,rfl,?_,fun _ _ _ _ _ => rfl⟩
    rw [← hs,Function.update_eq_self]
  | some nIdEvict =>
    obtain ⟨p,hp,ht,hslot⟩ := (h.slotted.tried s nIdEvict).mp hs
    obtain ⟨infoOld,hl,rfl⟩ := lookup_of_places hp
    have hzero : infoOld.nRefCount = 0 := h.slotted.tried_noRefs hp ht
    have h₁ := h.untry hl hs
    obtain ⟨m₁,hm₁⟩ : ∃ x : CAddrMan, x = { (m.setInfo nIdEvict { infoOld with
      fInTried := false }).setTried s none with nTried := m.nTried-1 } := ⟨_,rfl⟩
    rw [← hm₁] at h₁
    have hlookup₁ : ∀ j, m₁.mapInfo.lookup j =
        if j = nIdEvict then some { infoOld with fInTried := false } else m.mapInfo.lookup j := by
      rw [hm₁]
      exact lookup_setInfo m nIdEvict { infoOld with fInTried := false }
    have hself : m₁.mapInfo.lookup nIdEvict = some { infoOld with fInTried := false } :=
      (hlookup₁ nIdEvict).trans (if_pos rfl)
    have hkey₁ : m₁.nKey = m.nKey := by rw [hm₁]; rfl
    have htried₁ : m₁.vvTried = Function.update m.vvTried s none := by rw [hm₁]; rfl
    have hne := h₁.slotted.noRefs (places_of_lookup hself) hzero
    obtain ⟨m₂,hclear,h₂,hc⟩ := h₁.clearNew (H.newSlot m.nKey infoOld.toCService infoOld.source)
    obtain ⟨info₂,hl₂,hstrip⟩ : ∃ info₂, m₂.mapInfo.lookup nIdEvict = some info₂ ∧
        info₂.strip = CAddrInfo.strip { infoOld with fInTried := false } := by
      have hkept := hc.kept nIdEvict (hne _)
      rw [hself,Option.map_some] at hkept
      exact Option.map_eq_some_iff.mp hkept
    have hplace := CAddrInfo.place_of_strip hstrip
    have hempty : m₂.vvNew (H.newSlot m.nKey infoOld.toCService infoOld.source) = none := by
      rw [hc.vvNew,Function.update_self]
    have hservice : info₂.toCService = infoOld.toCService := congrArg Place.service hplace
    have h₃ := h₂.firstSlot hl₂ (congrArg Place.fInTried hplace)
      ((congrArg Place.nRefCount hplace).trans hzero) hempty (by rw [hc.nKey,hkey₁,hservice]; rfl)
    refine ⟨_,?_,h₃,?_⟩
    · have hrun : m.evict H s = (do
          let m₂ ← m₁.clearNew H (H.newSlot m.nKey infoOld.toCService infoOld.source)
          guard (m₂.vvNew (H.newSlot m.nKey infoOld.toCService infoOld.source) = none)
          let info₂ ← m₂.mapInfo.lookup nIdEvict
          pure { (m₂.setInfo nIdEvict { info₂ with nRefCount := 1 }).setNew
            (H.newSlot m.nKey infoOld.toCService infoOld.source) (some nIdEvict) with
            nNew := m₂.nNew+1 }) := by
        unfold CAddrMan.evict
        rw [hm₁,hs]
        dsimp only
        rw [hl]
        rfl
      rw [hrun,hclear]
      simp only [Option.bind_eq_bind,Option.bind_some]
      rw [guard,if_pos hempty,hl₂]
      rfl
    · refine ⟨?_,?_,?_⟩
      · exact hc.nKey.trans hkey₁
      · exact hc.vvTried.trans htried₁
      · intro j p hpj hfj hrefj
        have hj : j ≠ nIdEvict := by
          rintro rfl
          rw [hp] at hpj
          rw [← Option.some.inj hpj,ht] at hfj
          contradiction
        have hp₁ : m₁.places j = m.places j := by
          rw [CAddrMan.places,CAddrMan.places,hlookup₁ j,if_neg hj]
        have hkept := hc.kept j (h₁.slotted.noRefs (hp₁.trans hpj) hrefj _)
        rw [hlookup₁ j,if_neg hj] at hkept
        rw [← hkept]
        exact congrArg _ ((lookup_setInfo m₂ nIdEvict { info₂ with nRefCount := 1 } j).trans
          (if_neg hj))

/-- The entry leaves the new table, which is counted ahead. -/
theorem Sound.release (h : m.Sound H pending dNew dTried) (hl : m.mapInfo.lookup nId = some info)
    {r : (NewSlot → Option Nat) × Int}
    (hr : releaseNew H m.nKey info.toCService nId m.vvNew info.nRefCount = r) :
    r.2 = 0 ∧ Sound H { m.setInfo nId { info with nRefCount := 0 } with
      vvNew := r.1, nNew := m.nNew-1 } (nId :: pending) (dNew+1) dTried := by
  have hreleased := h.slotted.released (places_of_lookup hl)
  rw [show releaseNew H m.nKey info.place.service nId m.vvNew info.place.nRefCount = r from hr]
    at hreleased
  obtain ⟨hslotted,hzero⟩ := hreleased
  rw [hzero] at hslotted
  refine ⟨hzero,h.setEntry hl { info with nRefCount := 0 } rfl rfl hslotted ?_ ?_
    (by simp +contextual) (by simp)⟩
  · show m.nNew-1+(dNew+1) = m.nNew+dNew-info.place.new+info.place.new
    omega
  · show m.nTried+dTried = m.nTried+dTried-info.place.tried+info.place.tried
    omega

/-- An entry without slots becomes a tried one. -/
theorem Sound.tryOut (h : m.Sound H (nId :: pending) (dNew+1) dTried)
    (hl : m.mapInfo.lookup nId = some info) (hf : info.fInTried = false) (href : info.nRefCount = 0)
    (hs : m.vvTried (H.triedSlot m.nKey info.toCService) = none) :
    Sound H { (m.setInfo nId { info with fInTried := true }).setTried
      (H.triedSlot m.nKey info.toCService) (some nId) with nTried := m.nTried+1 }
      pending dNew dTried := by
  have hnew : info.place.new = 1 := if_neg (by simp [CAddrInfo.place,hf])
  have htried : info.place.tried = 0 := if_neg (by simp [CAddrInfo.place,hf])
  refine h.setEntry hl { info with fInTried := true } rfl rfl
    (h.slotted.tryOut (places_of_lookup hl) hf href hs) ?_ ?_ (by simp +contextual) (by simp)
  · rw [hnew]
    show m.nNew+dNew = m.nNew+(dNew+1)-1+0
    omega
  · rw [htried]
    show m.nTried+1+dTried = m.nTried+dTried-0+1
    omega

theorem Sound.makeTried (h : m.Sound H pending dNew dTried) (hl : m.mapInfo.lookup nId = some info)
    (hf : info.fInTried = false) :
    ∃ m', m.makeTried H nId = some m' ∧ m'.Sound H pending dNew dTried ∧ m'.nKey = m.nKey := by
  obtain ⟨⟨vvNew,nRefCount⟩,hr⟩ :
    ∃ r, releaseNew H m.nKey info.toCService nId m.vvNew info.nRefCount = r := ⟨_,rfl⟩
  obtain ⟨hzero,h₁⟩ := h.release hl hr
  dsimp only at hzero h₁
  subst hzero
  obtain ⟨m₁,hm₁⟩ : ∃ x : CAddrMan, x = { m.setInfo nId { info with nRefCount := 0 } with
    vvNew := vvNew, nNew := m.nNew-1 } := ⟨_,rfl⟩
  have hkey₁ : m₁.nKey = m.nKey := by rw [hm₁]; rfl
  have hself : m₁.mapInfo.lookup nId = some { info with nRefCount := 0 } := by
    rw [hm₁]
    exact (lookup_setInfo m nId _ nId).trans (if_pos rfl)
  rw [← hm₁] at h₁
  obtain ⟨m₂,hevict,h₂,he⟩ := h₁.evict (H.triedSlot m.nKey info.toCService)
  obtain ⟨info₂,hl₂,hstrip⟩ : ∃ info₂, m₂.mapInfo.lookup nId = some info₂ ∧
      info₂.strip = CAddrInfo.strip { info with nRefCount := 0 } := by
    have hkept := he.kept nId _ (places_of_lookup hself) hf rfl
    rw [hself,Option.map_some] at hkept
    exact Option.map_eq_some_iff.mp hkept
  have hplace := CAddrInfo.place_of_strip hstrip
  have hservice : info₂.toCService = info.toCService := congrArg Place.service hplace
  have hempty : m₂.vvTried (H.triedSlot m.nKey info.toCService) = none := by
    rw [he.vvTried,Function.update_self]
  have hkey₂ : m₂.nKey = m.nKey := he.nKey.trans hkey₁
  have h₃ := h₂.tryOut hl₂ ((congrArg Place.fInTried hplace).trans hf)
    (congrArg Place.nRefCount hplace) (by rw [hkey₂,hservice]; exact hempty)
  rw [hkey₂,hservice] at h₃
  refine ⟨_,?_,h₃,hkey₂⟩
  · have hrun : m.makeTried H nId = (do
        guard ((0 : Int) = 0)
        let m₂ ← m₁.evict H (H.triedSlot m.nKey info.toCService)
        guard (m₂.vvTried (H.triedSlot m.nKey info.toCService) = none)
        let info₂ ← m₂.mapInfo.lookup nId
        pure { (m₂.setInfo nId { info₂ with fInTried := true }).setTried
          (H.triedSlot m.nKey info.toCService) (some nId) with nTried := m₂.nTried+1 }) := by
      unfold CAddrMan.makeTried
      rw [hm₁,hl]
      simp only [Option.bind_eq_bind,Option.bind_some,hr]
      rfl
    rw [hrun,hevict]
    simp only [Option.bind_eq_bind,Option.bind_some]
    rw [guard,if_pos trivial,guard,if_pos hempty,hl₂]
    rfl

end MakeTried

section Touch
variable {H : AddrHashes} {m m' : CAddrMan} {pending : List Nat} {dNew dTried : Int} {nId : Nat}
  {info : CAddrInfo}

theorem Named.find (h : m.Named) {addr : CNetAddr} (hfind : m.find addr = some (nId,info)) :
    m.mapInfo.lookup nId = some info ∧ info.toCNetAddr = addr := by
  unfold CAddrMan.find at hfind
  obtain ⟨j,haddr,hrest⟩ := Option.bind_eq_some_iff.mp hfind
  obtain ⟨x,hl,hpair⟩ := Option.bind_eq_some_iff.mp hrest
  simp only [Option.pure_def,Option.some.injEq,Prod.mk.injEq] at hpair
  obtain ⟨rfl,rfl⟩ := hpair
  obtain ⟨y,hy,hya⟩ := (h.addr addr j).mp haddr
  rw [hl] at hy
  rw [← Option.some.inj hy] at hya
  exact ⟨hl,hya⟩

/-- What `Find` does not find is not there. -/
theorem Named.find_none (h : m.Named) {addr : CNetAddr} (hfind : m.find addr = none) :
    m.mapAddr.lookup addr = none := by
  cases ha : m.mapAddr.lookup addr with
  | none => rfl
  | some j =>
    obtain ⟨x,hx,-⟩ := (h.addr addr j).mp ha
    simp [CAddrMan.find,ha,hx] at hfind

/-- An entry is changed in nothing that says where it belongs. -/
theorem Sound.touch (h : m.Sound H pending dNew dTried) (hl : m.mapInfo.lookup nId = some info)
    (info' : CAddrInfo) (haddr : info'.toCNetAddr = info.toCNetAddr)
    (hkey : info'.toCService.getKey = info.toCService.getKey)
    (hpos : info'.nRandomPos = info.nRandomPos) (hf : info'.fInTried = info.fInTried)
    (href : info'.nRefCount = info.nRefCount) :
    Sound H (m.setInfo nId info') pending dNew dTried := by
  have hp := places_of_lookup hl
  have hrefs := h.slotted.refs nId _ hp
  have hslotted : Slotted H m.nKey (Function.update m.places nId (some info'.place)) m.vvTried
      m.vvNew :=
    h.slotted.revise hp hf hkey haddr (fun s j hs => .inl hs) (fun j _ => rfl) (href.trans hrefs)
      (href.trans_le (h.slotted.most nId _ hp))
  refine h.setSlots hl info' haddr hpos hf hslotted (by simp +contextual) ?_
  by_cases hin : nId ∈ pending
  · exact .inl hin
  · cases ht : info.fInTried with
    | true => exact .inr (.inl (hf.trans ht))
    | false =>
      rw [href]
      exact .inr (.inr (h.settled nId _ hp hin ht))

/-- The port is no part of the key of an I2P destination. -/
theorem getKey_congr {s t : CService} (haddr : s.toCNetAddr = t.toCNetAddr)
    (hport : t.port = s.port ∨ t.isNativeI2P = true) : s.getKey = t.getKey := by
  unfold CService.getKey
  rw [haddr]
  rcases hport with hport | hnative
  · rw [hport]
  · rw [if_pos hnative,if_pos hnative]

/-- `Good_` of an address whose port is on record. -/
theorem Sound.good_ (h : m.Sound H pending dNew dTried) (addr : CAddress) (nTime : Uint64)
    (hport : ∀ nId info, m.find addr.toCNetAddr = some (nId,info) →
      info.port = addr.port ∨ info.isNativeI2P = true) :
    ∃ m', m.good_ H addr nTime = some m' ∧ m'.Sound H pending dNew dTried := by
  cases hfind : m.find addr.toCNetAddr with
  | none => exact ⟨m,by rw [CAddrMan.good_,hfind],h⟩
  | some found =>
    obtain ⟨nId,info⟩ := found
    obtain ⟨hl,haddr⟩ := h.named.find hfind
    have hguard : info.toCService ≠ addr.toCService → info.port ≠ addr.port := by
      intro hne hport
      apply hne
      calc info.toCService = ⟨info.toCNetAddr,info.port⟩ := rfl
        _ = ⟨addr.toCNetAddr,addr.port⟩ := by rw [haddr,hport]
        _ = addr.toCService := rfl
    obtain ⟨info',hinfo'⟩ : ∃ x : CAddrInfo, x = { info with
      port := addr.port
      nServices := addr.nServices
      nLastSuccess := nTime
      nLastTry := nTime
      nAttempts := 0 } := ⟨_,rfl⟩
    have haddr' : info'.toCNetAddr = info.toCNetAddr := by rw [hinfo']
    have hset : Sound H (m.setInfo nId info') pending dNew dTried := by
      refine h.touch hl info' haddr' (getKey_congr haddr' ?_) ?_ ?_ ?_
      · rw [hinfo']
        exact hport nId info hfind
      · rw [hinfo']
      · rw [hinfo']
      · rw [hinfo']
    obtain ⟨found,hrun⟩ : ∃ found : Bool, m.good_ H addr nTime =
        if info'.fInTried then some (m.setInfo nId info')
        else if found then (m.setInfo nId info').makeTried H nId
        else some (m.setInfo nId info') := by
      refine ⟨(List.finRange ADDRMAN_NEW_BUCKET_COUNT).any fun nB => (m.setInfo nId info').vvNew
        (nB,H.getBucketPosition m.nKey info'.toCService true nB) == some nId,?_⟩
      rw [CAddrMan.good_,hfind]
      dsimp only
      rw [guard,if_pos hguard,hinfo']
      rfl
    rw [hrun]
    split
    · exact ⟨_,rfl,hset⟩
    · next hf =>
      split
      · obtain ⟨m',hmake,h',-⟩ := hset.makeTried
          ((lookup_setInfo m nId info' nId).trans (if_pos rfl)) (by simpa using hf)
        exact ⟨m',hmake,h'⟩
      · exact ⟨_,rfl,hset⟩

end Touch

section Add
variable {H : AddrHashes} {m m' : CAddrMan} {pending : List Nat} {dNew dTried : Int} {nId : Nat}
  {info : CAddrInfo}

/-- A pending entry that has slots need not be pending. -/
theorem Sound.settle (h : m.Sound H (nId :: pending) dNew dTried)
    (hl : m.mapInfo.lookup nId = some info) (href : info.nRefCount ≠ 0) :
    m.Sound H pending dNew dTried := by
  refine ⟨h.named,h.slotted,h.counted,?_⟩
  intro j p hp hj
  by_cases hid : j = nId
  · subst hid
    rw [places_of_lookup hl] at hp
    rw [← Option.some.inj hp]
    exact fun _ => href
  · exact h.settled j p hp (by simp [hid,hj])

/-- One more slot for a new entry. -/
theorem Sound.addSlot (h : m.Sound H (nId :: pending) dNew dTried)
    (hl : m.mapInfo.lookup nId = some info) (hf : info.fInTried = false)
    (hroom : info.nRefCount < ADDRMAN_NEW_BUCKETS_PER_ADDRESS) {s : NewSlot}
    (hs : m.vvNew s = none) (hpos : H.getBucketPosition m.nKey info.toCService true s.1 = s.2) :
    Sound H ((m.setInfo nId { info with nRefCount := info.nRefCount+1 }).setNew s (some nId))
      pending dNew dTried := by
  have hrefs := h.slotted.refs nId _ (places_of_lookup hl)
  refine h.setSlots hl { info with nRefCount := info.nRefCount+1 } rfl rfl rfl
    (h.slotted.slot (places_of_lookup hl) hs hf hpos hroom) (by simp +contextual) ?_
  refine .inr (.inr ?_)
  have hnonneg : 0 ≤ info.nRefCount := by
    rw [show info.nRefCount = info.place.nRefCount from rfl,hrefs]
    omega
  show info.nRefCount+1 ≠ 0
  omega

/-- A new entry takes a slot, whatever was there. -/
theorem Sound.takeSlot (h : m.Sound H (nId :: pending) dNew dTried)
    (hl : m.mapInfo.lookup nId = some info) (hf : info.fInTried = false)
    (hroom : info.nRefCount < ADDRMAN_NEW_BUCKETS_PER_ADDRESS) {s : NewSlot}
    (hs : m.vvNew s ≠ some nId) (hpos : H.getBucketPosition m.nKey info.toCService true s.1 = s.2) :
    ∃ m', (do
        let m ← m.clearNew H s
        let info ← m.mapInfo.lookup nId
        pure ((m.setInfo nId { info with nRefCount := info.nRefCount+1 }).setNew s (some nId))) =
          some m' ∧ m'.Sound H pending dNew dTried := by
  obtain ⟨m₁,hclear,h₁,hc⟩ := h.clearNew s
  obtain ⟨info₁,hl₁,hstrip⟩ : ∃ info₁, m₁.mapInfo.lookup nId = some info₁ ∧
      info₁.strip = info.strip := by
    have hkept := hc.kept nId hs
    rw [hl,Option.map_some] at hkept
    exact Option.map_eq_some_iff.mp hkept
  have hplace := CAddrInfo.place_of_strip hstrip
  have hservice : info₁.toCService = info.toCService := congrArg Place.service hplace
  refine ⟨_,by rw [hclear,Option.bind_eq_bind,Option.bind_some,hl₁]; rfl,?_⟩
  · refine h₁.addSlot hl₁ ((congrArg Place.fInTried hplace).trans hf)
      ((congrArg Place.nRefCount hplace).trans_lt hroom) ?_ ?_
    · rw [hc.vvNew,Function.update_self]
    · rw [hc.nKey,hservice]
      exact hpos

/-- The end of `Add_`. -/
theorem Sound.insertNew (h : m.Sound H (nId :: pending) dNew dTried)
    (hl : m.mapInfo.lookup nId = some info) (hf : info.fInTried = false)
    (hroom : info.nRefCount < ADDRMAN_NEW_BUCKETS_PER_ADDRESS) (source : CNetAddr) (nNow : Int) :
    ∃ m', m.insertNew H nId source nNow = some m' ∧ m'.Sound H pending dNew dTried := by
  obtain ⟨slot,hslot⟩ : ∃ s, s = H.newSlot m.nKey info.toCService source := ⟨_,rfl⟩
  have hpos : H.getBucketPosition m.nKey info.toCService true slot.1 = slot.2 := by
    rw [hslot]
    rfl
  cases hv : m.vvNew slot with
  | none =>
    have hne : m.vvNew slot ≠ some nId := by simp [hv]
    obtain ⟨m',hrun,h'⟩ := h.takeSlot hl hf hroom hne hpos
    refine ⟨m',?_,h'⟩
    rw [← hrun,CAddrMan.insertNew,hl]
    simp only [Option.bind_eq_bind,Option.bind_some,← hslot]
    rw [if_neg hne,hv]
    rfl
  | some nIdExisting =>
    by_cases hid : nIdExisting = nId
    · subst hid
      have href : info.nRefCount ≠ 0 := by
        have hrefs := h.slotted.refs nIdExisting _ (places_of_lookup hl)
        have hone := occurrences_pos hv
        rw [show info.nRefCount = info.place.nRefCount from rfl,hrefs]
        omega
      refine ⟨m,?_,h.settle hl href⟩
      rw [CAddrMan.insertNew,hl]
      simp only [Option.bind_eq_bind,Option.bind_some,← hslot]
      rw [if_pos hv]
      rfl
    · have hne : m.vvNew slot ≠ some nId := by simp [hv,hid]
      obtain ⟨p,hp,-⟩ := h.slotted.new slot nIdExisting hv
      obtain ⟨infoExisting,hexisting,-⟩ := lookup_of_places hp
      have hrun : m.insertNew H nId source nNow =
          if infoExisting.isTerrible nNow ||
            decide (1 < infoExisting.nRefCount ∧ info.nRefCount = 0) then (do
            let m ← m.clearNew H slot
            let info ← m.mapInfo.lookup nId
            pure ((m.setInfo nId { info with nRefCount := info.nRefCount+1 }).setNew slot (some nId)))
          else if info.nRefCount = 0 then m.delete nId else some m := by
        rw [CAddrMan.insertNew,hl]
        simp only [Option.bind_eq_bind,Option.bind_some,← hslot]
        rw [if_neg hne,hv]
        simp only [hexisting,Option.bind_some]
        rfl
      rw [hrun]
      split
      · exact h.takeSlot hl hf hroom hne hpos
      · split
        · next href =>
          obtain ⟨m',hdelete,h',-⟩ := h.delete hl hf href
          exact ⟨m',hdelete,h'⟩
        · next href => exact ⟨m,rfl,h.settle hl href⟩

/-- An entry under the next id, at the end of the random order. -/
def insertEntry (m : CAddrMan) (info : CAddrInfo) : CAddrMan :=
  { m with
    nIdCount := m.nIdCount+1
    mapInfo := m.mapInfo.insert m.nIdCount info
    mapAddr := m.mapAddr.insert info.toCNetAddr m.nIdCount
    vRandom := m.vRandom ++ [m.nIdCount] }

theorem lookup_insertEntry (m : CAddrMan) (info : CAddrInfo) (j : Nat) :
    (m.insertEntry info).mapInfo.lookup j =
      if j = m.nIdCount then some info else m.mapInfo.lookup j :=
  lookup_setInfo m m.nIdCount info j

theorem places_insertEntry (m : CAddrMan) (info : CAddrInfo) :
    (m.insertEntry info).places = Function.update m.places m.nIdCount (some info.place) :=
  places_setInfo m m.nIdCount info

theorem Named.lookup_next (h : m.Named) : m.mapInfo.lookup m.nIdCount = none := by
  cases hl : m.mapInfo.lookup m.nIdCount with
  | none => rfl
  | some x => exact absurd (h.fresh _ x hl) (Nat.lt_irrefl _)

theorem Named.insertEntry (h : m.Named) (info : CAddrInfo)
    (hnone : m.mapAddr.lookup info.toCNetAddr = none) (hpos : info.nRandomPos = m.vRandom.length) :
    (m.insertEntry info).Named := by
  have hnew := h.lookup_next
  have hlookup := lookup_insertEntry m info
  refine ⟨?_,?_,?_,?_,?_⟩
  · intro a j
    rw [show (m.insertEntry info).mapAddr = m.mapAddr.insert info.toCNetAddr m.nIdCount from rfl]
    simp only [hlookup]
    by_cases ha : a = info.toCNetAddr
    · subst ha
      rw [AList.lookup_insert]
      by_cases hj : j = m.nIdCount
      · simp [hj]
      · simp only [if_neg hj,← h.addr,hnone]
        simp [Ne.symm hj]
    · rw [AList.lookup_insert_ne ha,h.addr]
      by_cases hj : j = m.nIdCount
      · subst hj
        simp [hnew,Ne.symm ha]
      · simp [hj]
  · intro i j
    rw [show (m.insertEntry info).vRandom = m.vRandom ++ [m.nIdCount] from rfl]
    simp only [hlookup,List.getElem?_append]
    by_cases hi : i < m.vRandom.length
    · rw [if_pos hi,h.random]
      by_cases hj : j = m.nIdCount
      · subst hj
        simp only [hnew,if_true,Option.some.injEq,exists_eq_left',hpos]
        simp only [reduceCtorEq,false_and,exists_false,false_iff]
        omega
      · simp [hj]
    · rw [if_neg hi]
      by_cases hj : j = m.nIdCount
      · subst hj
        simp only [if_true,Option.some.injEq,exists_eq_left',hpos]
        by_cases hz : i = m.vRandom.length
        · simp [hz]
        · rw [List.getElem?_eq_none (by simp only [List.length_singleton]; omega)]
          simp only [reduceCtorEq,false_iff]
          omega
      · rw [if_neg hj,← h.random,List.getElem?_eq_none (Nat.le_of_not_lt hi)]
        simp only [List.getElem?_singleton]
        split
        · simp [Ne.symm hj]
        · rfl
  · intro j x hx
    simp only [hlookup] at hx
    split at hx
    · rw [← Option.some.inj hx,hpos]
      exact Int.natCast_nonneg _
    · exact h.placed j x hx
  · intro j x hx
    simp only [hlookup] at hx
    split at hx
    · next hj =>
      rw [hj]
      exact Nat.lt_succ_self _
    · exact Nat.lt_succ_of_lt (h.fresh j x hx)
  · have htotal := total_setInfo_new hnew info fun _ => 1
    have hsize := h.size
    refine Eq.trans ?_ htotal.symm
    rw [show (m.insertEntry info).vRandom = m.vRandom ++ [m.nIdCount] from rfl,List.length_append,
      List.length_singleton]
    omega

theorem native_of_routable {a : CNetAddr} (h : a.isRoutable = true) (hi : a.isI2P = true) :
    a.isNativeI2P = true := by
  simp only [CNetAddr.isRoutable,Bool.and_eq_true] at h
  rw [CNetAddr.isValid,if_pos hi] at h
  exact h.1

/-- What `Create` adds. -/
structure Created (m m' : CAddrMan) (info : CAddrInfo) : Prop where
  nKey : m'.nKey = m.nKey
  vvNew : m'.vvNew = m.vvNew
  lookup : ∀ j, m'.mapInfo.lookup j = if j = m.nIdCount then some info else m.mapInfo.lookup j

/-- A new entry without slots is not counted yet. -/
theorem Sound.insertEntry (h : m.Sound H pending dNew dTried) (info : CAddrInfo)
    (hf : info.fInTried = false) (href : info.nRefCount = 0)
    (hnone : m.mapAddr.lookup info.toCNetAddr = none) (hpos : info.nRandomPos = m.vRandom.length) :
    (m.insertEntry info).Sound H (m.nIdCount :: pending) (dNew+1) dTried := by
  have hnew := h.named.lookup_next
  refine ⟨h.named.insertEntry info hnone hpos,?_,⟨?_,?_⟩,?_⟩
  · rw [places_insertEntry]
    exact h.slotted.insertFresh (places_none hnew) (show info.place.fInTried = false from hf) href
  · have htotal := total_setInfo_new hnew info Place.new
    have hone : info.place.new = 1 := if_neg (by simp [CAddrInfo.place,hf])
    have hold := h.counted.new
    refine Eq.trans ?_ htotal.symm
    show m.nNew+(dNew+1) = _
    omega
  · have htotal := total_setInfo_new hnew info Place.tried
    have hzero : info.place.tried = 0 := if_neg (by simp [CAddrInfo.place,hf])
    have hold := h.counted.tried
    refine Eq.trans ?_ htotal.symm
    show m.nTried+dTried = _
    omega
  · intro j p hp hj
    rw [places_insertEntry] at hp
    rw [List.mem_cons,not_or] at hj
    rw [Function.update_of_ne hj.1] at hp
    exact h.settled j p hp hj.2

/-- `Create` of an address that is not there yet. -/
theorem Sound.create (h : m.Sound H pending dNew dTried) (addr : CAddress)
    (garlic : addr.isNativeI2P = true → addr.isI2P = true) (source : CNetAddr)
    (hroutable : addr.isRoutable = true) (hnone : m.mapAddr.lookup addr.toCNetAddr = none) :
    ∃ m', m.create H addr garlic source = some (m.nIdCount,m') ∧
      m'.Sound H (m.nIdCount :: pending) (dNew+1) dTried ∧
      Created m m' ⟨addr,source,0,0,0,0,false,m.vRandom.length,garlic⟩ := by
  obtain ⟨info,hinfo⟩ : ∃ x : CAddrInfo, x = ⟨addr,source,0,0,0,0,false,m.vRandom.length,garlic⟩ :=
    ⟨_,rfl⟩
  rw [← hinfo]
  have haddr : info.toCNetAddr = addr.toCNetAddr := by rw [hinfo]
  have h₁ := h.insertEntry info (by rw [hinfo]) (by rw [hinfo]) (by rw [haddr]; exact hnone)
    (by rw [hinfo])
  have hrun : m.create H addr garlic source = if addr.isI2P then (do
      guard addr.isNativeI2P
      pure (m.nIdCount,(m.insertEntry info).indexHash H addr.toCNetAddr m.nIdCount))
      else some (m.nIdCount,m.insertEntry info) := by
    rw [hinfo]
    rfl
  by_cases hi : addr.isI2P = true
  · rw [if_pos hi,guard,if_pos (native_of_routable hroutable hi),indexHash_eq] at hrun
    exact ⟨_,hrun,h₁.setHashes _,rfl,rfl,lookup_insertEntry m info⟩
  · rw [if_neg hi] at hrun
    exact ⟨_,hrun,h₁,rfl,rfl,lookup_insertEntry m info⟩

theorem Sound.mono (h : m.Sound H pending dNew dTried) (nId : Nat) :
    m.Sound H (nId :: pending) dNew dTried :=
  ⟨h.named,h.slotted,h.counted,fun j p hp hj =>
    h.settled j p hp fun hin => hj (List.mem_cons_of_mem nId hin)⟩

theorem Sound.countNew (h : m.Sound H pending (dNew+1) dTried) :
    Sound H { m with nNew := m.nNew+1 } pending dNew dTried := by
  have hnew := h.counted.new
  refine ⟨⟨h.named.addr,h.named.random,h.named.placed,h.named.fresh,h.named.size⟩,h.slotted,
    ⟨?_,h.counted.tried⟩,h.settled⟩
  rw [show m.nNew+1+dNew = m.nNew+(dNew+1) by ring]
  exact hnew

/-- What `Add_` changes in a record says nothing about its place, if it keeps the port. -/
theorem refresh_keeps (info : CAddrInfo) (addr : CAddress) (source : CNetAddr)
    (nTimePenalty nNow : Int) :
    (refresh info addr source nTimePenalty nNow).toCNetAddr = info.toCNetAddr ∧
      (refresh info addr source nTimePenalty nNow).nRandomPos = info.nRandomPos ∧
      (refresh info addr source nTimePenalty nNow).fInTried = info.fInTried ∧
      (refresh info addr source nTimePenalty nNow).nRefCount = info.nRefCount ∧
      (addr.toCNetAddr ≠ source → (refresh info addr source nTimePenalty nNow).port = info.port) ∧
      (addr.toCNetAddr = source → (refresh info addr source nTimePenalty nNow).port = addr.port) := by
  unfold refresh
  dsimp only
  by_cases hs : addr.toCNetAddr = source
  · rw [if_pos hs]
    refine ⟨?_,?_,?_,?_,fun hne => absurd hs hne,fun _ => rfl⟩
    all_goals
      split_ifs <;> rfl
  · rw [if_neg hs]
    refine ⟨?_,?_,?_,?_,fun _ => ?_,fun he => absurd he hs⟩
    all_goals
      split_ifs <;> rfl

/-- `Add_` of an address that is there already. -/
theorem Sound.addFound (h : m.Sound H [] dNew dTried) (hl : m.mapInfo.lookup nId = some info)
    (addr : CAddress) (source : CNetAddr) (nTimePenalty nNow : Int) (rnd : Nat)
    (hport : addr.toCNetAddr = source → info.port = addr.port ∨ info.isNativeI2P = true) :
    ∃ m', (if wantsMore (refresh info addr source nTimePenalty nNow) addr rnd then
        (m.setInfo nId (refresh info addr source nTimePenalty nNow)).insertNew H nId source nNow
        else some (m.setInfo nId (refresh info addr source nTimePenalty nNow))) = some m' ∧
      m'.Sound H [] dNew dTried := by
  obtain ⟨haddr,hpos,hf,href,hsame,hown⟩ := refresh_keeps info addr source nTimePenalty nNow
  generalize refresh info addr source nTimePenalty nNow = info' at *
  have hkey : info'.toCService.getKey = info.toCService.getKey := by
    refine getKey_congr haddr ?_
    by_cases hs : addr.toCNetAddr = source
    · rw [hown hs]
      exact hport hs
    · exact .inl (hsame hs).symm
  have h₁ := h.touch hl info' haddr hkey hpos hf href
  have hself : (m.setInfo nId info').mapInfo.lookup nId = some info' :=
    (lookup_setInfo m nId info' nId).trans (if_pos rfl)
  split
  · next hmore =>
    simp only [wantsMore,Bool.and_eq_true,Bool.not_eq_true',decide_eq_false_iff_not] at hmore
    have hf' := hmore.1.1.2
    have hmost := h₁.slotted.most nId _ (places_of_lookup hself)
    have hroom : info'.nRefCount < ADDRMAN_NEW_BUCKETS_PER_ADDRESS :=
      lt_of_le_of_ne hmost hmore.1.2
    exact (h₁.mono nId).insertNew hself hf' hroom source nNow
  · exact ⟨_,rfl,h₁⟩

/-- `Add_` of an address that is not there. -/
theorem Sound.addUnknown (h : m.Sound H [] dNew dTried) (addr : CAddress)
    (garlic : addr.isNativeI2P = true → addr.isI2P = true) (source : CNetAddr)
    (nTimePenalty nNow : Int) (hroutable : addr.isRoutable = true)
    (hnone : m.mapAddr.lookup addr.toCNetAddr = none) :
    ∃ m', (do
        let (nId,m) ← m.create H addr garlic source
        let info ← m.mapInfo.lookup nId
        let m := m.setInfo nId
          { info with nTime := BitVec.ofInt 32 (max 0 (info.nTime.toNat-nTimePenalty)) }
        let m ← { m with nNew := m.nNew+1 }.insertNew H nId source nNow
        pure (true,m)) = some (true,m') ∧ m'.Sound H [] dNew dTried := by
  obtain ⟨m₁,hcreate,h₁,hc⟩ := h.create addr garlic source hroutable hnone
  have hl₁ := (hc.lookup m.nIdCount).trans (if_pos rfl)
  obtain ⟨late,hlate⟩ : ∃ x : CAddrInfo, x = { (⟨addr,source,0,0,0,0,false,m.vRandom.length,garlic⟩ :
    CAddrInfo) with nTime := BitVec.ofInt 32 (max 0 (addr.nTime.toNat-nTimePenalty)) } := ⟨_,rfl⟩
  have hservice : late.toCService = addr.toCService := by rw [hlate]
  have haddr : late.toCNetAddr = addr.toCNetAddr := by rw [hlate]
  have h₂ := h₁.touch hl₁ late haddr (by rw [hservice]) (by rw [hlate]) (by rw [hlate]) (by rw [hlate])
  have hself : (m₁.setInfo m.nIdCount late).mapInfo.lookup m.nIdCount = some late :=
    (lookup_setInfo m₁ m.nIdCount late m.nIdCount).trans (if_pos rfl)
  have hrefs : late.nRefCount = 0 := by rw [hlate]
  obtain ⟨m',hinsert,h'⟩ := h₂.countNew.insertNew hself (by rw [hlate])
    (by rw [hrefs]; decide) source nNow
  refine ⟨m',?_,h'⟩
  rw [hcreate]
  simp only [Option.bind_eq_bind,Option.bind_some,hl₁]
  rw [← hlate,hinsert]
  rfl

theorem Sound.add_ (h : m.Sound H [] dNew dTried) (addrIn : CAddress) (source : CNetAddr)
    (nTimePenalty nNow : Int) (rnd : Nat)
    (hport : addrIn.withGarlic.toCNetAddr = source → ∀ nId info,
      m.find addrIn.withGarlic.toCNetAddr = some (nId,info) →
        info.port = addrIn.port ∨ info.isNativeI2P = true) :
    ∃ r, m.add_ H addrIn source nTimePenalty nNow rnd = some r ∧ r.2.Sound H [] dNew dTried := by
  rw [CAddrMan.add_]
  dsimp only
  by_cases hroutable : addrIn.withGarlic.isRoutable = true
  · rw [if_neg (by simp [hroutable])]
    cases hfind : m.find addrIn.withGarlic.toCNetAddr with
    | none =>
      obtain ⟨m',hrun,h'⟩ := h.addUnknown addrIn.withGarlic addrIn.withGarlic_garlic source
        nTimePenalty nNow hroutable (h.named.find_none hfind)
      exact ⟨(true,m'),hrun,h'⟩
    | some found =>
      obtain ⟨nId,info⟩ := found
      obtain ⟨hl,-⟩ := h.named.find hfind
      obtain ⟨m',hrun,h'⟩ := h.addFound hl addrIn.withGarlic source nTimePenalty nNow rnd
        fun hs => hport hs nId info hfind
      refine ⟨(false,m'),?_,h'⟩
      dsimp only
      split
      · next hmore =>
        rw [if_pos hmore] at hrun
        rw [hrun]
        rfl
      · next hmore =>
        rw [if_neg hmore] at hrun
        rw [Option.some.inj hrun]
        rfl
  · rw [if_pos (by simpa using hroutable)]
    exact ⟨(false,m),rfl,h⟩

end Add

section Others
variable {H : AddrHashes} {m m' : CAddrMan} {pending : List Nat} {dNew dTried : Int} {nId : Nat}
  {info : CAddrInfo}

theorem Sound.attempt_ (h : m.Sound H pending dNew dTried) (addr : CService) (nTime : Uint64) :
    (m.attempt_ addr nTime).Sound H pending dNew dTried := by
  rw [CAddrMan.attempt_]
  cases hfind : m.find addr.toCNetAddr with
  | none => exact h
  | some found =>
    obtain ⟨nId,info⟩ := found
    obtain ⟨hl,-⟩ := h.named.find hfind
    dsimp only
    split
    · exact h
    · exact h.touch hl _ rfl rfl rfl rfl rfl

theorem Sound.connected_ (h : m.Sound H pending dNew dTried) (addr : CService) (nTime : Int) :
    (m.connected_ addr nTime).Sound H pending dNew dTried := by
  rw [CAddrMan.connected_]
  cases hfind : m.find addr.toCNetAddr with
  | none => exact h
  | some found =>
    obtain ⟨nId,info⟩ := found
    obtain ⟨hl,-⟩ := h.named.find hfind
    dsimp only
    split
    · exact h
    · split
      · exact h.touch hl _ rfl rfl rfl rfl rfl
      · exact h

/-- Every id in a table has an entry, so that the search of `Select_` does not fail. -/
theorem selectFrom_total {σ : Type} {table : σ → Option Nat}
    (hentry : ∀ s nId, table s = some nId → ∃ info, m.mapInfo.lookup nId = some info)
    (choices : List (σ × Bool)) : ∃ r, m.selectFrom table choices = some r := by
  induction choices with
  | nil => exact ⟨none,rfl⟩
  | cons choice rest ih =>
    obtain ⟨slot,taken⟩ := choice
    rw [selectFrom]
    cases hs : table slot with
    | none => exact ih
    | some nId =>
      obtain ⟨info,hl⟩ := hentry slot nId hs
      dsimp only
      rw [hl]
      dsimp only
      split
      · exact ⟨some info,rfl⟩
      · exact ih

theorem Sound.select_ (h : m.Sound H pending dNew dTried) (fTried : Bool)
    (tried : List (TriedSlot × Bool)) (new : List (NewSlot × Bool)) :
    ∃ r, m.select_ fTried tried new = some r := by
  rw [CAddrMan.select_]
  split
  · exact ⟨none,rfl⟩
  · split
    · refine selectFrom_total (fun s nId hs => ?_) tried
      obtain ⟨p,hp,-⟩ := (h.slotted.tried s nId).mp hs
      obtain ⟨info,hl,-⟩ := lookup_of_places hp
      exact ⟨info,hl⟩
    · refine selectFrom_total (fun s nId hs => ?_) new
      obtain ⟨p,hp,-⟩ := h.slotted.new s nId hs
      obtain ⟨info,hl,-⟩ := lookup_of_places hp
      exact ⟨info,hl⟩

theorem Reordered.trans {m₁ m₂ m₃ : CAddrMan} (h : Reordered m₁ m₂) (h' : Reordered m₂ m₃) :
    Reordered m₁ m₃ := by
  refine ⟨?_,fun j => (h'.same j).trans (h.same j),fun f => (h'.total f).trans (h.total f),
    h'.length.trans h.length⟩
  rw [h'.rest,h.rest]

/-- The loop of `GetAddr_` only shuffles. -/
theorem Named.getAddrFrom (h : m.Named) (nNodes : Nat) (nNow : Int) (rnd : Nat → Nat)
    (vAddr : List CAddress) (n left : Nat) (hleft : n+left = m.vRandom.length) :
    ∃ r, m.getAddrFrom nNodes nNow rnd vAddr n left = some r ∧ r.2.Named ∧ Reordered m r.2 := by
  induction left generalizing m vAddr n with
  | zero => exact ⟨(vAddr,m),rfl,h,.refl m⟩
  | succ left ih =>
    rw [CAddrMan.getAddrFrom]
    split
    · exact ⟨(vAddr,m),rfl,h,.refl m⟩
    · have hpos : rnd n%(m.vRandom.length-n)+n < m.vRandom.length := by
        have hlt := Nat.mod_lt (rnd n) (show 0 < m.vRandom.length-n by omega)
        omega
      obtain ⟨m₁,hswap,hn₁,hr₁,-⟩ :=
        h.swapRandom (show n < m.vRandom.length by omega) hpos
      have hlen : n < m₁.vRandom.length := by
        rw [hr₁.length]
        omega
      obtain ⟨ai,hai,-⟩ := hn₁.lookup_of_random hlen
      obtain ⟨r,hrun,hn,hr⟩ := ih hn₁
        (if !ai.isTerrible nNow && !ai.isRFC1918 then vAddr ++ [ai.toCAddress] else vAddr) (n+1)
        (by rw [hr₁.length]; omega)
      refine ⟨r,?_,hn,hr₁.trans hr⟩
      dsimp only
      rw [hswap]
      simp only [Option.bind_eq_bind,Option.bind_some,List.getElem?_eq_getElem hlen,hai]
      exact hrun

theorem Sound.getAddr_ (h : m.Sound H pending dNew dTried) (nNow : Int) (rnd : Nat → Nat) :
    ∃ r, m.getAddr_ nNow rnd = some r ∧ r.2.Sound H pending dNew dTried := by
  obtain ⟨r,hrun,hn,hr⟩ := h.named.getAddrFrom
    (min ADDRMAN_GETADDR_MAX (ADDRMAN_GETADDR_MAX_PCT*m.vRandom.length/100)) nNow rnd [] 0
    m.vRandom.length (Nat.zero_add _)
  exact ⟨r,hrun,h.reorder hr hn⟩

end Others

end CAddrMan

end Anoncoin
