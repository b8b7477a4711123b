import Anoncoin.Base32
import Anoncoin.AddrRoundTrip

/-!
The index of I2P destinations: what `LookupB32addr` and `CopyDestinationStats` return when it is
exact, and which calls keep it so.
-/

set_option autoImplicit false

namespace Anoncoin
open Lib

/-- What `CopyDestinationStats` returns for an entry; the texts of the two addresses are made
from the addresses. -/
structure CDestinationStats where
  address : CService
  fInTried : Bool
  uPort : Uint16
  nServices : Uint64
  nAttempts : Uint32
  nLastTry : Uint64
  nSuccessTime : Uint64
  source : CNetAddr
  sBase64 : List UInt8
  deriving DecidableEq, Repr

def CAddrInfo.stats (info : CAddrInfo) : CDestinationStats :=
  ⟨info.toCService,info.fInTried,info.port,info.nServices,info.nAttempts,info.nLastTry,
    info.nLastSuccess,info.source,info.getI2pDestination⟩

/-- The text `.b32.i2p`. -/
def b32Suffix : List UInt8 := [46,98,51,50,46,105,50,112]

def isValidI2pB32 (b32Address : List UInt8) : Bool :=
  b32Address.length == 60 && b32Address.drop (b32Address.length-8) == b32Suffix

def b32AddressFromDestination (H : AddrHashes) (destination : List UInt8) : List UInt8 :=
  (encodeBase32 (littleEndian 32 (H.getI2pDestinationHash destination).toNat) ++ b32Suffix).filter
    fun c => c ≠ 61

namespace CAddrMan

/-- `LookupB32addr`; the conversion of the decoded bytes to a hash throws when they are not 32.
The flag that it takes for validity is the one that `DecodeBase32` sets for an invalid text. -/
def lookupB32addr (m : CAddrMan) (sB32addr : List UInt8) : Option (Option CAddrInfo) :=
  if isValidI2pB32 sB32addr then do
    let (vchHash,fValid) := decodeBase32 (sB32addr.take (sB32addr.length-8))
    guard (vchHash.length = 32)
    let uintHash : Uint256 := BitVec.ofNat 256 (fromLittleEndian vchHash)
    if fValid then
      match m.mapI2pHashes.lookup uintHash with
      | none => some none
      | some nId => some (m.mapInfo.lookup nId)
    else some none
  else some none

/-- `CopyDestinationStats`, with its assertion. -/
def copyDestinationStats (m : CAddrMan) : Option (List CDestinationStats) := do
  let vStats := (m.mapI2pHashes.keys.mergeSort fun a b => a ≤ b).filterMap fun b32hash => do
    let nId ← m.mapI2pHashes.lookup b32hash
    let info ← m.mapInfo.lookup nId
    pure info.stats
  guard (m.mapI2pHashes.keys.length = vStats.length)
  pure vStats

section Lookup
variable {H : AddrHashes} {m : CAddrMan} {nId : Nat} {info : CAddrInfo}

theorem b32Address_eq (H : AddrHashes) (destination : List UInt8) :
    ∃ digits, b32AddressFromDestination H destination = digits ++ b32Suffix ∧ digits.length = 52 ∧
      decodeBase32 digits = (littleEndian 32 (H.getI2pDestinationHash destination).toNat,true) := by
  obtain ⟨digits,k,hspells,hk,-,hfilter,hread,hvalid⟩ :=
    codec32.read_unpadded (littleEndian 32 (H.getI2pDestinationHash destination).toNat)
  have hlen := hspells.length
  rw [List.length_map,littleEndian_length] at hlen
  obtain rfl : k = 4 := by omega
  refine ⟨digits.map pbase32,?_,by rw [List.length_map]; omega,Prod.ext hread ?_⟩
  · rw [b32AddressFromDestination,List.filter_append]
    exact congrArg₂ _ hfilter rfl
  · exact Bool.eq_true_of_not_eq_false fun hfalse => absurd (hvalid.mp hfalse) (by decide)

/-- With an exact index every stored destination is found under its address. -/
theorem HashesExact.lookupB32addr (h : m.HashesExact H) (hl : m.mapInfo.lookup nId = some info)
    (hi : info.isI2P = true) :
    m.lookupB32addr (b32AddressFromDestination H info.getI2pDestination) = some (some info) := by
  obtain ⟨digits,haddr,hlen,hread⟩ := b32Address_eq H info.getI2pDestination
  have hall : (digits ++ b32Suffix).length = 60 := by
    rw [List.length_append,hlen]
    rfl
  have hvalid : isValidI2pB32 (digits ++ b32Suffix) = true := by
    rw [isValidI2pB32,hall,List.drop_left' hlen]
    rfl
  have hhash : (BitVec.ofNat 256 (fromLittleEndian (littleEndian 32
      (H.getI2pDestinationHash info.getI2pDestination).toNat)) : Uint256) =
      H.getI2pDestinationHash info.getI2pDestination := by
    rw [fromLittleEndian_littleEndian (H.getI2pDestinationHash info.getI2pDestination).isLt,
      BitVec.ofNat_toNat,BitVec.setWidth_eq]
  have hfound := (h (H.getI2pDestinationHash info.getI2pDestination) nId).mpr ⟨info,hl,hi,rfl⟩
  rw [haddr,CAddrMan.lookupB32addr,if_pos hvalid,hall,List.take_left' hlen,hread]
  dsimp only
  rw [hhash,hfound,littleEndian_length,guard,if_pos rfl]
  exact congrArg some hl

/-- With an exact index the assertion of `CopyDestinationStats` holds. -/
theorem HashesExact.copyDestinationStats (h : m.HashesExact H) : m.copyDestinationStats ≠ none := by
  have hall : ∀ b32hash ∈ m.mapI2pHashes.keys.mergeSort fun a b => decide (a ≤ b),
      (do
        let nId ← m.mapI2pHashes.lookup b32hash
        let info ← m.mapInfo.lookup nId
        pure info.stats : Option CDestinationStats).isSome = true := by
    intro b32hash hmem
    rw [(List.mergeSort_perm _ _).mem_iff] at hmem
    obtain ⟨j,hj⟩ := Option.isSome_iff_exists.mp (AList.lookup_isSome.mpr (AList.mem_keys.mpr hmem))
    obtain ⟨x,hx,-⟩ := (h b32hash j).mp hj
    rw [hj,Option.bind_eq_bind,Option.bind_some,hx]
    rfl
  rw [CAddrMan.copyDestinationStats,List.length_filterMap_eq_countP,List.countP_eq_length.mpr hall,
    List.length_mergeSort,guard,if_pos rfl]
  exact Option.some_ne_none _

end Lookup

/-- What keeps the index exact between the operations: ids are not used twice, and every entry
that is not tried, but for the pending ones, has references. -/
structure Tracked (H : AddrHashes) (m : CAddrMan) (pending : List Nat) : Prop where
  fresh : ∀ nId info, m.mapInfo.lookup nId = some info → nId < m.nIdCount
  slots : ∀ s nId, m.vvNew s = some nId → nId < m.nIdCount
  settled : ∀ nId info, m.mapInfo.lookup nId = some info → nId ∉ pending → info.fInTried = false →
    0 < info.nRefCount
  index : m.HashesExact H

section Tracked
variable {H : AddrHashes} {m m' : CAddrMan} {pending : List Nat} {nId : Nat} {info : CAddrInfo}

/-- Only the addresses, the tables and the references matter. -/
theorem Tracked.congr (h : Tracked H m pending) (hcount : m.nIdCount ≤ m'.nIdCount)
    (hslots : m'.vvNew = m.vvNew) (hmap : m'.mapI2pHashes = m.mapI2pHashes)
    (hsame : ∀ j, (m'.mapInfo.lookup j).map CAddrInfo.strip =
      (m.mapInfo.lookup j).map CAddrInfo.strip) : Tracked H m' pending := by
  have hback : ∀ {j x}, m'.mapInfo.lookup j = some x →
      ∃ y, m.mapInfo.lookup j = some y ∧ y.strip = x.strip := by
    intro j x hx
    have hj := (hsame j).symm
    rw [hx,Option.map_some] at hj
    exact Option.map_eq_some_iff.mp hj
  refine ⟨?_,?_,?_,?_⟩
  · intro j x hx
    obtain ⟨y,hy,-⟩ := hback hx
    exact (h.fresh j y hy).trans_le hcount
  · rw [hslots]
    exact fun s j hs => (h.slots s j hs).trans_le hcount
  · intro j x hx hj hf
    obtain ⟨y,hy,hstrip⟩ := hback hx
    have htried := CAddrInfo.fInTried_of_strip hstrip
    rw [← CAddrInfo.nRefCount_of_strip hstrip]
    exact h.settled j y hy hj (htried.trans hf)
  · refine h.index.congr hmap fun j => ?_
    have hj := congrArg (Option.map fun x => x.toCNetAddr) (hsame j)
    rw [Option.map_map,Option.map_map] at hj
    exact hj

theorem Tracked.reorder (h : Tracked H m pending) (hr : Reordered m m') : Tracked H m' pending :=
  h.congr (by rw [hr.rest]) hr.vvNew (by rw [hr.rest]) hr.same

theorem not_mem_cons (j : Nat) (hj : j ≠ nId) (hin : j ∉ pending) : j ∉ nId :: pending := by
  simp [hj,hin]

theorem not_mem_of_cons (j : Nat) (_ : j ≠ nId) (hin : j ∉ nId :: pending) : j ∉ pending := by
  simp only [List.mem_cons,not_or] at hin
  exact hin.2

/-- One entry is written. -/
theorem Tracked.setInfo (h : Tracked H m pending) (hl : m.mapInfo.lookup nId = some info)
    (info' : CAddrInfo) (haddr : info'.toCNetAddr = info.toCNetAddr) {pending' : List Nat}
    (hpending : ∀ j, j ≠ nId → j ∉ pending' → j ∉ pending)
    (hsettled : nId ∉ pending' → info'.fInTried = false → 0 < info'.nRefCount) :
    Tracked H (m.setInfo nId info') pending' := by
  refine ⟨?_,h.slots,?_,h.index.setInfo hl info' haddr⟩
  · intro j x hx
    rw [lookup_setInfo] at hx
    split at hx
    · next hj => exact hj ▸ h.fresh nId info hl
    · exact h.fresh j x hx
  · intro j x hx hj hf
    rw [lookup_setInfo] at hx
    split at hx
    · next hid =>
      subst hid
      rw [← Option.some.inj hx] at hf ⊢
      exact hsettled hj hf
    · next hid => exact h.settled j x hx (hpending j hid hj) hf

/-- A slot is filled or emptied. -/
theorem Tracked.setNew (h : Tracked H m pending) (s : NewSlot) (v : Option Nat)
    (hv : ∀ j, v = some j → j < m.nIdCount) : Tracked H (m.setNew s v) pending := by
  refine ⟨h.fresh,fun t j ht => ?_,h.settled,h.index.congr rfl fun _ => rfl⟩
  have hupdate : Function.update m.vvNew s v t = some j := ht
  by_cases hts : t = s
  · rw [hts,Function.update_self] at hupdate
    exact hv j hupdate
  · rw [Function.update_of_ne hts] at hupdate
    exact h.slots t j hupdate

/-- What is left after `Delete`. -/
structure Deleted (m m' : CAddrMan) (nId : Nat) : Prop where
  nIdCount : m'.nIdCount = m.nIdCount
  vvNew : m'.vvNew = m.vvNew
  mapI2pHashes : m'.mapI2pHashes = m.mapI2pHashes
  same : ∀ j, (m'.mapInfo.lookup j).map CAddrInfo.strip =
    if j = nId then none else (m.mapInfo.lookup j).map CAddrInfo.strip

theorem deleted_of_delete (hrun : m.delete nId = some m') : Deleted m m' nId := by
  unfold CAddrMan.delete at hrun
  simp only [Option.bind_eq_bind,Option.bind_eq_some_iff] at hrun
  obtain ⟨info,-,-,-,-,-,m₁,hswap,hm'⟩ := hrun
  have hr := Reordered.of_swapRandom hswap
  rw [← Option.some.inj hm']
  refine ⟨?_,hr.vvNew,?_,fun j => ?_⟩
  · show m₁.nIdCount = m.nIdCount
    rw [hr.rest]
  · show m₁.mapI2pHashes = m.mapI2pHashes
    rw [hr.rest]
  · rw [← hr.same j]
    by_cases hj : j = nId
    · subst hj
      simp
    · simp [hj]

/-- An entry goes together with its hash. -/
theorem Tracked.forget (h : Tracked H m (nId :: pending)) (hl : m.mapInfo.lookup nId = some info)
    (hcount : m'.nIdCount = m.nIdCount) (hslots : m'.vvNew = m.vvNew)
    (hmap : m'.mapI2pHashes = (m.checkAndDeleteB32Hash H nId info).mapI2pHashes)
    (hsame : ∀ j, (m'.mapInfo.lookup j).map CAddrInfo.strip =
      if j = nId then none else (m.mapInfo.lookup j).map CAddrInfo.strip) :
    Tracked H m' pending := by
  have hback : ∀ {j x}, m'.mapInfo.lookup j = some x →
      j ≠ nId ∧ ∃ y, m.mapInfo.lookup j = some y ∧ y.strip = x.strip := by
    intro j x hx
    have hj := (hsame j).symm
    rw [hx,Option.map_some] at hj
    split at hj
    · contradiction
    · next hid => exact ⟨hid,Option.map_eq_some_iff.mp hj⟩
  refine ⟨?_,?_,?_,h.index.forget hl hmap hsame⟩
  · intro j x hx
    obtain ⟨-,y,hy,-⟩ := hback hx
    rw [hcount]
    exact h.fresh j y hy
  · rw [hslots,hcount]
    exact h.slots
  · intro j x hx hj hf
    obtain ⟨hid,y,hy,hstrip⟩ := hback hx
    have htried := CAddrInfo.fInTried_of_strip hstrip
    rw [← CAddrInfo.nRefCount_of_strip hstrip]
    exact h.settled j y hy (by simp [hid,hj]) (htried.trans hf)

theorem of_guard {p : Prop} [Decidable p] {u : Unit} (h : (guard p : Option Unit) = some u) : p := by
  by_contra hp
  rw [guard,if_neg hp] at h
  contradiction

theorem Tracked.clearNew (h : Tracked H m pending) {s : NewSlot} (hrun : m.clearNew H s = some m') :
    Tracked H m' pending ∧ m'.nIdCount = m.nIdCount ∧
      ∀ j, m.vvNew s ≠ some j → (m'.mapInfo.lookup j).map CAddrInfo.strip =
        (m.mapInfo.lookup j).map CAddrInfo.strip := by
  unfold CAddrMan.clearNew at hrun
  split at hrun
  · rw [← Option.some.inj hrun]
    exact ⟨h,rfl,fun _ _ => rfl⟩
  · next nIdDelete hs =>
    simp only [Option.bind_eq_bind,Option.bind_eq_some_iff] at hrun
    obtain ⟨info,hl,u,hguard,hrun⟩ := hrun
    have hpos := of_guard hguard
    obtain ⟨less,hless⟩ : ∃ x, x = { info with nRefCount := info.nRefCount-1 } := ⟨_,rfl⟩
    have hcount : less.nRefCount = info.nRefCount-1 := by rw [hless]
    have haddr : less.toCNetAddr = info.toCNetAddr := by rw [hless]
    have hrest : (if less.nRefCount = 0 then
        (((m.setInfo nIdDelete less).setNew s none).checkAndDeleteB32Hash H nIdDelete less).delete
          nIdDelete
        else some ((m.setInfo nIdDelete less).setNew s none)) = some m' := by
      rw [hless]
      exact hrun
    have hkept : ∀ j, m.vvNew s ≠ some j →
        ((m.setInfo nIdDelete less).mapInfo.lookup j).map CAddrInfo.strip =
          (m.mapInfo.lookup j).map CAddrInfo.strip := by
      intro j hj
      have hid : j ≠ nIdDelete := fun he => hj (he ▸ hs)
      rw [lookup_setInfo,if_neg hid]
    split at hrest
    · have h₁ : Tracked H ((m.setInfo nIdDelete less).setNew s none) (nIdDelete :: pending) := by
        refine (h.setInfo hl less haddr not_mem_of_cons (by simp)).setNew s none ?_
        intro j hj
        contradiction
      have hself : ((m.setInfo nIdDelete less).setNew s none).mapInfo.lookup nIdDelete = some less :=
        (lookup_setInfo m nIdDelete less nIdDelete).trans (if_pos rfl)
      rw [checkAndDeleteB32Hash_eq] at hrest
      have hdeleted := deleted_of_delete hrest
      refine ⟨h₁.forget hself hdeleted.nIdCount hdeleted.vvNew hdeleted.mapI2pHashes hdeleted.same,
        hdeleted.nIdCount,fun j hj => ?_⟩
      have hid : j ≠ nIdDelete := fun he => hj (he ▸ hs)
      exact ((hdeleted.same j).trans (if_neg hid)).trans (hkept j hj)
    · rw [← Option.some.inj hrest]
      refine ⟨(h.setInfo hl less haddr (fun j _ hj => hj) fun _ _ => by omega).setNew s none ?_,rfl,hkept⟩
      intro j hj
      contradiction

/-- The eviction of a tried entry. -/
theorem Tracked.evict (h : Tracked H m pending) {s : TriedSlot} (hrun : m.evict H s = some m') :
    Tracked H m' pending := by
  unfold CAddrMan.evict at hrun
  split at hrun
  · rw [← Option.some.inj hrun]
    exact h
  · next nIdEvict hs =>
    simp only [Option.bind_eq_bind,Option.bind_eq_some_iff] at hrun
    obtain ⟨info,hl,m₁,hclear,-,-,info₁,hl₁,hm'⟩ := hrun
    have h₀ := h.setInfo hl { info with fInTried := false } rfl
      not_mem_of_cons (by simp)
    have h₁ : Tracked H m₁ (nIdEvict :: pending) := by
      refine (Tracked.clearNew ?_ hclear).1
      exact ⟨h₀.fresh,h₀.slots,h₀.settled,h₀.index.congr rfl fun _ => rfl⟩
    have h₂ := h₁.setInfo hl₁ { info₁ with nRefCount := 1 } rfl
      not_mem_cons
      fun _ _ => Int.one_pos
    rw [← Option.some.inj hm']
    have h₃ := h₂.setNew (H.newSlot m.nKey info.toCService info.source) (some nIdEvict) ?_
    · exact ⟨h₃.fresh,h₃.slots,h₃.settled,h₃.index.congr rfl fun _ => rfl⟩
    · intro j hj
      rw [← Option.some.inj hj]
      exact h₁.fresh nIdEvict info₁ hl₁

/-- The loop over the buckets only empties slots. -/
theorem releaseNew_sub (nKey : Uint256) (service : CService) (vvNew : NewSlot → Option Nat) (n : Int)
    {s : NewSlot} {j : Nat} (hs : (releaseNew H nKey service nId vvNew n).1 s = some j) :
    vvNew s = some j := by
  rw [Slotted.releaseNew_eq,release_table] at hs
  split at hs
  · exact absurd hs (Option.some_ne_none _).symm
  · exact hs

theorem Tracked.makeTried (h : Tracked H m pending) (hrun : m.makeTried H nId = some m') :
    Tracked H m' pending := by
  unfold CAddrMan.makeTried at hrun
  simp only [Option.bind_eq_bind,Option.bind_eq_some_iff] at hrun
  obtain ⟨info,hl,hrun⟩ := hrun
  obtain ⟨r,hr⟩ : ∃ r, releaseNew H m.nKey info.toCService nId m.vvNew info.nRefCount = r := ⟨_,rfl⟩
  rw [hr] at hrun
  obtain ⟨-,-,m₁,hevict,-,-,info₁,hl₁,hm'⟩ := hrun
  have hslots : ∀ s j, r.1 s = some j → j < m.nIdCount := by
    intro s j hs
    rw [← hr] at hs
    exact h.slots s j (releaseNew_sub _ _ _ _ hs)
  have h₁ : Tracked H m₁ (nId :: pending) := by
    refine Tracked.evict ?_ hevict
    have h₀ := h.setInfo hl { info with nRefCount := r.2 } rfl
      not_mem_of_cons (by simp)
    exact ⟨h₀.fresh,hslots,h₀.settled,h₀.index.congr rfl fun _ => rfl⟩
  have h₂ := h₁.setInfo hl₁ { info₁ with fInTried := true } rfl
    not_mem_cons
    fun _ hf => Bool.noConfusion hf
  rw [← Option.some.inj hm']
  exact ⟨h₂.fresh,h₂.slots,h₂.settled,h₂.index.congr rfl fun _ => rfl⟩

/-- A found entry is written with the same address, table and references. -/
theorem Tracked.touch (h : Tracked H m pending) (hl : m.mapInfo.lookup nId = some info)
    (info' : CAddrInfo) (haddr : info'.toCNetAddr = info.toCNetAddr)
    (hf : info'.fInTried = info.fInTried) (href : info'.nRefCount = info.nRefCount) :
    Tracked H (m.setInfo nId info') pending := by
  refine h.setInfo hl info' haddr (fun j _ hj => hj) fun hj hf' => ?_
  rw [href]
  exact h.settled nId info hl hj (hf.symm.trans hf')

theorem lookup_of_find {addr : CNetAddr} (hfind : m.find addr = some (nId,info)) :
    m.mapInfo.lookup nId = some info := by
  unfold find at hfind
  simp only [Option.bind_eq_bind,Option.bind_eq_some_iff] at hfind
  obtain ⟨i,-,x,hx,he⟩ := hfind
  obtain ⟨rfl,rfl⟩ := Prod.mk.inj (Option.some.inj he)
  exact hx

theorem Tracked.good_ (h : Tracked H m pending) {addr : CAddress} {nTime : Uint64}
    (hrun : m.good_ H addr nTime = some m') : Tracked H m' pending := by
  unfold CAddrMan.good_ at hrun
  split at hrun
  · rw [← Option.some.inj hrun]
    exact h
  · next nId info hfind =>
    have h₁ := h.touch (lookup_of_find hfind) { info with
      port := addr.port
      nServices := addr.nServices
      nLastSuccess := nTime
      nLastTry := nTime
      nAttempts := 0 } rfl rfl rfl
    simp only [Option.bind_eq_bind,Option.bind_eq_some_iff] at hrun
    obtain ⟨-,-,hrun⟩ := hrun
    split at hrun
    · rw [← Option.some.inj hrun]
      exact h₁
    · split at hrun
      · exact h₁.makeTried hrun
      · rw [← Option.some.inj hrun]
        exact h₁

/-- The slot for an address from a source is taken by an entry that stays there when the address
has no slot yet. -/
def Refuses (H : AddrHashes) (m : CAddrMan) (service : CService) (source : CNetAddr) (nNow : Int) :
    Prop :=
  ∃ nIdExisting infoExisting, m.vvNew (H.newSlot m.nKey service source) = some nIdExisting ∧
    m.mapInfo.lookup nIdExisting = some infoExisting ∧ infoExisting.isTerrible nNow = false ∧
    infoExisting.nRefCount ≤ 1

/-- An entry with references is pending no longer. -/
theorem Tracked.settle (h : Tracked H m (nId :: pending)) (hl : m.mapInfo.lookup nId = some info)
    (href : 0 < info.nRefCount) : Tracked H m pending := by
  refine ⟨h.fresh,h.slots,fun j x hx hj hf => ?_,h.index⟩
  by_cases hid : j = nId
  · subst hid
    rw [hl] at hx
    rw [← Option.some.inj hx]
    exact href
  · exact h.settled j x hx (by simp [hid,hj]) hf

/-- The end of `Add_` for an entry that is not refused. -/
theorem Tracked.insertNew (h : Tracked H m (nId :: pending)) (hl : m.mapInfo.lookup nId = some info)
    {source : CNetAddr} {nNow : Int} (href : 0 ≤ info.nRefCount)
    (hfirst : info.nRefCount = 0 → m.vvNew (H.newSlot m.nKey info.toCService source) ≠ some nId ∧
      ¬Refuses H m info.toCService source nNow)
    (hrun : m.insertNew H nId source nNow = some m') : Tracked H m' pending := by
  unfold CAddrMan.insertNew at hrun
  rw [hl] at hrun
  simp only [Option.bind_eq_bind,Option.bind_some] at hrun
  have hkeep : info.nRefCount ≠ 0 → Tracked H m pending := fun hne => h.settle hl (by omega)
  have hdone : m.vvNew (H.newSlot m.nKey info.toCService source) ≠ some nId → ∀ fInsert : Bool,
      (fInsert = false → info.nRefCount ≠ 0) → (if fInsert then (do
        let m₁ ← m.clearNew H (H.newSlot m.nKey info.toCService source)
        let info₁ ← m₁.mapInfo.lookup nId
        pure ((m₁.setInfo nId { info₁ with nRefCount := info₁.nRefCount+1 }).setNew
          (H.newSlot m.nKey info.toCService source) (some nId)))
        else if info.nRefCount = 0 then m.delete nId else pure m) = some m' →
      Tracked H m' pending := by
    intro hother fInsert hflag hrun
    split at hrun
    · obtain ⟨m₁,hclear,hrun⟩ := Option.bind_eq_some_iff.mp hrun
      obtain ⟨info₁,hl₁,hm'⟩ := Option.bind_eq_some_iff.mp hrun
      obtain ⟨h₁,hcount,hkept⟩ := h.clearNew hclear
      have hsame := hkept nId hother
      rw [hl,hl₁,Option.map_some,Option.map_some,Option.some.injEq] at hsame
      have hrefs := CAddrInfo.nRefCount_of_strip hsame
      rw [← Option.some.inj hm']
      refine (h₁.setInfo hl₁ { info₁ with nRefCount := info₁.nRefCount+1 } rfl not_mem_cons
        fun _ _ => ?_).setNew _ _ ?_
      · show 0 < info₁.nRefCount+1
        omega
      · intro j hj
        rw [← Option.some.inj hj]
        exact h₁.fresh nId info₁ hl₁
    · next hno =>
      have hne := hflag (by simpa using hno)
      rw [if_neg hne] at hrun
      rw [← Option.some.inj hrun]
      exact hkeep hne
  split at hrun
  · next hself =>
    rw [← Option.some.inj hrun]
    exact hkeep fun hzero => (hfirst hzero).1 hself
  · next hother =>
    split at hrun
    · exact hdone hother true (fun hf => Bool.noConfusion hf) hrun
    · next nIdExisting hs =>
      obtain ⟨infoExisting,hle,hrun⟩ := Option.bind_eq_some_iff.mp hrun
      refine hdone hother _ (fun hno hzero => (hfirst hzero).2 ⟨nIdExisting,infoExisting,hs,hle,?_⟩) hrun
      rw [Bool.or_eq_false_iff,decide_eq_false_iff_not] at hno
      exact ⟨hno.1,by omega⟩

/-- The end of `Add_` for a first slot that is refused. -/
theorem insertNew_refused (hl : m.mapInfo.lookup nId = some info) (href : info.nRefCount = 0)
    {source : CNetAddr} {nNow : Int}
    (hother : m.vvNew (H.newSlot m.nKey info.toCService source) ≠ some nId)
    (hrefuses : Refuses H m info.toCService source nNow) :
    m.insertNew H nId source nNow = m.delete nId := by
  obtain ⟨nIdExisting,infoExisting,hs,hle,hterrible,hone⟩ := hrefuses
  have hno : (infoExisting.isTerrible nNow ||
      decide (1 < infoExisting.nRefCount ∧ info.nRefCount = 0)) = false := by
    rw [hterrible,Bool.false_or,decide_eq_false_iff_not]
    omega
  unfold CAddrMan.insertNew
  rw [hl]
  simp only [Option.bind_eq_bind,Option.bind_some]
  rw [if_neg hother,hs]
  simp only [hle,Option.bind_some,Option.pure_def,hno]
  rw [if_neg (by decide),if_pos href]

theorem Tracked.mono (h : Tracked H m pending) (nId : Nat) : Tracked H m (nId :: pending) :=
  ⟨h.fresh,h.slots,fun j x hx hj => h.settled j x hx fun hin => hj (.tail _ hin),h.index⟩

/-- `Add_` of an address that is there. -/
theorem Tracked.addFound (h : Tracked H m []) (hl : m.mapInfo.lookup nId = some info)
    {addr : CAddress} {source : CNetAddr} {nTimePenalty nNow : Int} {rnd : Nat}
    (hwants : wantsMore (refresh info addr source nTimePenalty nNow) addr rnd = true)
    (hrun : (m.setInfo nId (refresh info addr source nTimePenalty nNow)).insertNew H nId source nNow =
      some m') : Tracked H m' [] := by
  obtain ⟨haddr,-,hf,href,-⟩ := refresh_keeps info addr source nTimePenalty nNow
  generalize refresh info addr source nTimePenalty nNow = info' at hwants hrun haddr hf href
  have h₁ := h.touch hl info' haddr hf href
  have hself : (m.setInfo nId info').mapInfo.lookup nId = some info' :=
    (lookup_setInfo m nId info' nId).trans (if_pos rfl)
  have huntried : info'.fInTried = false := by
    simp only [wantsMore,Bool.and_eq_true,Bool.not_eq_true'] at hwants
    exact hwants.1.1.2
  have hpos := h₁.settled nId info' hself (by simp) huntried
  exact (h₁.mono nId).insertNew hself hpos.le (fun hzero => absurd hzero hpos.ne') hrun

theorem create_eq {addr : CAddress} {garlic : addr.isNativeI2P = true → addr.isI2P = true}
    {source : CNetAddr} (hrun : m.create H addr garlic source = some (nId,m')) :
    nId = m.nIdCount ∧ m' = indexLoaded H
      (m.insertEntry ⟨addr,source,0,0,0,0,false,m.vRandom.length,garlic⟩) addr.toCNetAddr nId := by
  unfold CAddrMan.create at hrun
  unfold indexLoaded
  split at hrun
  · next hi =>
    simp only [Option.bind_eq_bind,Option.bind_eq_some_iff] at hrun
    obtain ⟨-,-,hr⟩ := hrun
    obtain ⟨rfl,rfl⟩ := Prod.mk.inj (Option.some.inj hr)
    rw [if_pos hi]
    exact ⟨rfl,rfl⟩
  · next hi =>
    obtain ⟨rfl,rfl⟩ := Prod.mk.inj (Option.some.inj hrun)
    rw [if_neg hi]
    exact ⟨rfl,rfl⟩

/-- A hash that is there is not written again. -/
theorem HashesExact.indexLoaded_same (h : m.HashesExact H) {addr : CNetAddr}
    (hstale : addr.isI2P = true → ¬m.HashFree H addr) (hmap : m'.mapI2pHashes = m.mapI2pHashes) :
    (m'.indexLoaded H addr nId).mapI2pHashes = m.mapI2pHashes := by
  unfold indexLoaded
  split
  · next hi =>
    have hthere : (m.mapI2pHashes.lookup (H.getI2pDestinationHash addr.getI2pDestination)).isSome = true := by
      unfold HashFree at hstale
      have hsome := hstale hi
      push Not at hsome
      obtain ⟨j,x,hx,hxi,hhash⟩ := hsome
      rw [(h _ j).mpr ⟨x,hx,hxi,hhash⟩]
      rfl
    rw [indexHash,hmap,if_pos hthere,hmap]
  · exact hmap

/-- `Add_` of an address that is not there. -/
theorem Tracked.addUnknown (h : Tracked H m []) {addr : CAddress}
    {garlic : addr.isNativeI2P = true → addr.isI2P = true} {source : CNetAddr} {nNow : Int}
    (hadmits : addr.isI2P = true →
      (m.HashFree H addr.toCNetAddr ↔ ¬Refuses H m addr.toCService source nNow)) {m₁ : CAddrMan}
    (hcreate : m.create H addr garlic source = some (nId,m₁)) (info' : CAddrInfo)
    (hservice : info'.toCService = addr.toCService) (href : info'.nRefCount = 0)
    (hrun : CAddrMan.insertNew H { m₁.setInfo nId info' with nNew := m₁.nNew+1 } nId source nNow =
      some m') : Tracked H m' [] := by
  obtain ⟨rfl,hm₁⟩ := create_eq hcreate
  generalize hinfo : (⟨addr,source,0,0,0,0,false,m.vRandom.length,garlic⟩ : CAddrInfo) = info at hm₁
  have haddr : info.toCNetAddr = addr.toCNetAddr := by rw [← hinfo]
  have haddr' : info'.toCNetAddr = info.toCNetAddr := by rw [haddr,hservice]
  have hnone : m.mapInfo.lookup m.nIdCount = none := by
    cases hx : m.mapInfo.lookup m.nIdCount with
    | none => rfl
    | some x => exact absurd (h.fresh _ x hx) (lt_irrefl _)
  have hcore : m₁.nIdCount = m.nIdCount+1 ∧ m₁.vvNew = m.vvNew ∧ m₁.nKey = m.nKey ∧
      ∀ j, m₁.mapInfo.lookup j = if j = m.nIdCount then some info else m.mapInfo.lookup j := by
    rw [hm₁,indexLoaded_eq]
    exact ⟨rfl,rfl,rfl,lookup_insertEntry m info⟩
  obtain ⟨hcount,hvv,hkey,hlook⟩ := hcore
  obtain ⟨m₂,hm₂⟩ : ∃ x : CAddrMan, x = { m₁.setInfo m.nIdCount info' with nNew := m₁.nNew+1 } :=
    ⟨_,rfl⟩
  have hlook₂ : ∀ j, m₂.mapInfo.lookup j =
      if j = m.nIdCount then some info' else m.mapInfo.lookup j := by
    intro j
    rw [hm₂]
    refine (lookup_setInfo m₁ m.nIdCount info' j).trans ?_
    by_cases hj : j = m.nIdCount
    · rw [if_pos hj,if_pos hj]
    · rw [if_neg hj,if_neg hj,hlook,if_neg hj]
  have hkey₂ : m₂.nKey = m.nKey := by rw [hm₂]; exact hkey
  have hvv₂ : m₂.vvNew = m.vvNew := by rw [hm₂]; exact hvv
  have hself : m₂.mapInfo.lookup m.nIdCount = some info' := by rw [hlook₂,if_pos rfl]
  have hother : m₂.vvNew (H.newSlot m₂.nKey info'.toCService source) ≠ some m.nIdCount := by
    intro hs
    rw [hvv₂] at hs
    exact absurd (h.slots _ _ hs) (lt_irrefl _)
  have hsame : Refuses H m₂ info'.toCService source nNow ↔ Refuses H m addr.toCService source nNow := by
    unfold Refuses
    rw [hvv₂,hkey₂,hservice]
    refine exists_congr fun j => exists_congr fun x => and_congr_right fun hs => ?_
    rw [hlook₂,if_neg (h.slots _ _ hs).ne]
  rw [← hm₂] at hrun
  by_cases hrefuses : Refuses H m addr.toCService source nNow
  · rw [insertNew_refused hself href hother (hsame.mpr hrefuses)] at hrun
    have hdeleted := deleted_of_delete hrun
    have hmap : m₂.mapI2pHashes = m.mapI2pHashes := by
      rw [hm₂]
      show m₁.mapI2pHashes = m.mapI2pHashes
      rw [hm₁]
      refine h.index.indexLoaded_same ?_ rfl
      exact fun hi hfree => (hadmits hi).mp hfree hrefuses
    refine h.congr ?_ (hdeleted.vvNew.trans hvv₂) (hdeleted.mapI2pHashes.trans hmap) fun j => ?_
    · rw [hdeleted.nIdCount,hm₂]
      exact (Nat.le_succ _).trans hcount.ge
    · rw [hdeleted.same,hlook₂]
      by_cases hj : j = m.nIdCount
      · rw [if_pos hj,hj,hnone]
        rfl
      · rw [if_neg hj,if_neg hj]
  · have hindex : m₁.HashesExact H := by
      have hfree : info.isI2P = true → m.HashFree H info.toCNetAddr := by
        intro hi
        rw [haddr] at hi ⊢
        exact (hadmits hi).mpr hrefuses
      have hinsert : HashesExact H (if info.isI2P then
          (m.insertEntry info).indexHash H info.toCNetAddr m.nIdCount else m.insertEntry info) :=
        h.index.insert hnone hfree rfl (lookup_insertEntry m info)
      rw [haddr] at hinsert
      rw [hm₁]
      exact hinsert
    have h₁ : Tracked H m₁ [m.nIdCount] := by
      refine ⟨?_,?_,?_,hindex⟩
      · intro j x hx
        rw [hlook] at hx
        rw [hcount]
        split at hx
        · next hj => omega
        · exact (h.fresh j x hx).trans (Nat.lt_succ_self _)
      · intro s j hs
        rw [hvv] at hs
        rw [hcount]
        exact (h.slots s j hs).trans (Nat.lt_succ_self _)
      · intro j x hx hj
        rw [hlook,if_neg (by simpa using hj)] at hx
        exact h.settled j x hx (by simp)
    have h₂ : Tracked H m₂ [m.nIdCount] := by
      have hset : Tracked H (m₁.setInfo m.nIdCount info') [m.nIdCount] :=
        h₁.setInfo ((hlook _).trans (if_pos rfl)) info' haddr' (fun j _ hj => hj) (by simp)
      rw [hm₂]
      exact hset.congr (le_refl _) rfl rfl fun _ => rfl
    exact h₂.insertNew hself href.ge (fun _ => ⟨hother,fun hr => hrefuses (hsame.mp hr)⟩) hrun

/-- The calls that keep the index exact: an I2P destination that is not there yet is refused a
slot if and only if its hash is there. -/
def KeepsIndex (H : AddrHashes) (m : CAddrMan) : AddrOp → Prop
  | .add addrIn source _ nNow _ => addrIn.withGarlic.isRoutable = true →
      addrIn.withGarlic.isI2P = true → m.find addrIn.withGarlic.toCNetAddr = none →
        (m.HashFree H addrIn.withGarlic.toCNetAddr ↔
          ¬Refuses H m addrIn.withGarlic.toCService source nNow)
  | .good .. | .attempt .. | .connected .. | .select .. | .getAddr .. => True

theorem Tracked.add_ (h : Tracked H m []) {addrIn : CAddress} {source : CNetAddr}
    {nTimePenalty nNow : Int} {rnd : Nat} {r : Bool × CAddrMan}
    (hop : m.KeepsIndex H (.add addrIn source nTimePenalty nNow rnd))
    (hrun : m.add_ H addrIn source nTimePenalty nNow rnd = some r) : Tracked H r.2 [] := by
  unfold CAddrMan.add_ at hrun
  dsimp only at hrun
  split at hrun
  · rw [← Option.some.inj hrun]
    exact h
  · next hroutable =>
    rw [Bool.not_eq_true,Bool.not_eq_false'] at hroutable
    split at hrun
    · next nId info hfind =>
      have hl := lookup_of_find hfind
      split at hrun
      · next hwants =>
        simp only [Option.bind_eq_bind,Option.bind_eq_some_iff] at hrun
        obtain ⟨m₁,hinsert,hr⟩ := hrun
        rw [← Option.some.inj hr]
        exact h.addFound hl hwants hinsert
      · obtain ⟨haddr,-,hf,href,-⟩ := refresh_keeps info addrIn.withGarlic source nTimePenalty nNow
        rw [← Option.some.inj hrun]
        exact h.touch hl _ haddr hf href
    · next hfind =>
      simp only [Option.bind_eq_bind,Option.bind_eq_some_iff] at hrun
      obtain ⟨⟨nId,m₁⟩,hcreate,info,hl,m₂,hinsert,hr⟩ := hrun
      rw [← Option.some.inj hr]
      have hinfo : info.toCService = addrIn.withGarlic.toCService ∧ info.nRefCount = 0 := by
        obtain ⟨rfl,hm₁⟩ := create_eq hcreate
        rw [hm₁,indexLoaded_eq] at hl
        have hself := (lookup_insertEntry m _ m.nIdCount).symm.trans hl
        rw [if_pos rfl,Option.some.injEq] at hself
        rw [← hself]
        exact ⟨rfl,rfl⟩
      exact h.addUnknown (fun hi => hop hroutable hi hfind) hcreate { info with
        nTime := BitVec.ofInt 32 (max 0 (info.nTime.toNat-nTimePenalty)) } hinfo.1 hinfo.2 hinsert

theorem Tracked.getAddrFrom (h : Tracked H m pending) {nNodes : Nat} {nNow : Int} {rnd : Nat → Nat}
    {vAddr : List CAddress} {n left : Nat} {r : List CAddress × CAddrMan}
    (hrun : m.getAddrFrom nNodes nNow rnd vAddr n left = some r) : Tracked H r.2 pending := by
  induction left generalizing m vAddr n with
  | zero =>
    rw [← Option.some.inj hrun]
    exact h
  | succ left ih =>
    rw [CAddrMan.getAddrFrom] at hrun
    split at hrun
    · rw [← Option.some.inj hrun]
      exact h
    · simp only [Option.bind_eq_bind,Option.bind_eq_some_iff] at hrun
      obtain ⟨m₁,hswap,-,-,ai,-,hrest⟩ := hrun
      exact ih (h.reorder (.of_swapRandom hswap)) hrest

/-- What every call preserves. -/
theorem Tracked.step (h : Tracked H m []) {op : AddrOp} (hop : m.KeepsIndex H op)
    (hrun : m.step H op = some m') : Tracked H m' [] := by
  cases op with
  | add addrIn source nTimePenalty nNow rnd =>
    obtain ⟨r,hadd,hr⟩ := Option.map_eq_some_iff.mp hrun
    rw [← hr]
    exact h.add_ hop hadd
  | good addr nTime => exact h.good_ hrun
  | attempt addr nTime =>
    rw [← Option.some.inj hrun]
    unfold attempt_
    split
    · exact h
    · next nId info hfind =>
      split
      · exact h
      · exact h.touch (lookup_of_find hfind) _ rfl rfl rfl
  | connected addr nTime =>
    rw [← Option.some.inj hrun]
    unfold connected_
    split
    · exact h
    · next nId info hfind =>
      split
      · exact h
      · split
        · exact h.touch (lookup_of_find hfind) _ rfl rfl rfl
        · exact h
  | select fTried tried new =>
    obtain ⟨r,-,hr⟩ := Option.map_eq_some_iff.mp hrun
    rw [← hr]
    exact h
  | getAddr nNow rnd =>
    obtain ⟨r,hget,hr⟩ := Option.map_eq_some_iff.mp hrun
    rw [← hr]
    exact h.getAddrFrom hget

end Tracked

end CAddrMan

end Anoncoin
