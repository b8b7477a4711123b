import Anoncoin.AddrManCodec
import Anoncoin.AddrManCheck
import Anoncoin.AddrIndex

/-!
peers.dat read back: what `Unserialize` makes of what `Serialize` wrote, for a manager that
satisfies `Check_`.
-/

set_option autoImplicit false

namespace Anoncoin
open Lib

section Records

theorem CNetAddr.reads_unserialize (a : CNetAddr) : Reads CNetAddr.unserialize a.serialize a := by
  have hip : Reads (take .endOfData 16 : Reader ReadFailure (List UInt8)) a.ip a.ip := by
    have htake := Reads.take (e := ReadFailure.endOfData) a.ip
    rwa [a.ip_length] at htake
  have hdest : Reads (take .endOfData I2P_DESTINATION_STORE : Reader ReadFailure (List UInt8))
      a.i2pDest a.i2pDest := by
    have htake := Reads.take (e := ReadFailure.endOfData) a.i2pDest
    rwa [a.dest_length] at htake
  refine hip.bind (hdest.map ?_)
  rw [dif_pos ⟨a.ip_length,a.dest_length⟩]
  exact Reads.pure a

theorem reads_byte (x : Nat) (h : x < 256) : Reads (readUint 1) [UInt8.ofNat x] x := by
  have hread := reads_readUint (n := 1) (x := x) (by omega)
  simpa [littleEndian] using hread

theorem CService.reads_unserialize (s : CService) : Reads CService.unserialize s.serialize s := by
  have hport := s.port.isLt
  refine s.toCNetAddr.reads_unserialize.bind ?_
  refine (reads_byte (s.port.toNat/256) (by omega)).bind ((reads_byte (s.port.toNat%256) (by omega)).map ?_)
  have heq : BitVec.ofNat 16 (256*(s.port.toNat/256)+s.port.toNat%256) = s.port := by
    rw [Nat.div_add_mod,BitVec.ofNat_toNat,BitVec.setWidth_eq]
  rw [heq]
  exact Reads.pure s

theorem reads_bits {w : Nat} (n : Nat) (h : w = 8*n) (x : BitVec w) :
    Reads (readUint n) (littleEndian n x.toNat) x.toNat := by
  refine reads_readUint ?_
  calc x.toNat < 2^w := x.isLt
    _ = 256^n := by rw [h,pow_mul]; rfl

theorem CAddress.reads_unserialize (nVersion : Uint32) (a : CAddress) :
    Reads CAddress.unserialize (a.serialize nVersion) a := by
  refine (reads_bits 4 rfl nVersion).bind ((reads_bits 4 rfl a.nTime).bind
    ((reads_bits 8 rfl a.nServices).bind (a.toCService.reads_unserialize.map ?_)))
  rw [BitVec.ofNat_toNat,BitVec.setWidth_eq,BitVec.ofNat_toNat,BitVec.setWidth_eq]
  exact Reads.pure a

theorem AddrRecord.reads_unserialize (nVersion : Uint32) (r : AddrRecord) :
    Reads AddrRecord.unserialize (r.serialize nVersion) r := by
  refine (r.addr.reads_unserialize nVersion).bind (r.source.reads_unserialize.bind
    ((reads_bits 8 rfl r.nLastSuccess).bind ((reads_bits 4 rfl r.nAttempts).map ?_)))
  rw [BitVec.ofNat_toNat,BitVec.setWidth_eq,BitVec.ofNat_toNat,BitVec.setWidth_eq]
  exact Reads.pure r

end Records

namespace CAddrMan

section Order
variable {m : CAddrMan} {nId : Nat} {info : CAddrInfo}

/-- The entries that are written as new ones, and those that are written as tried ones. -/
def newInfos (m : CAddrMan) : List (Nat × CAddrInfo) :=
  m.infosInOrder.filter fun e => e.2.nRefCount ≠ 0

def triedInfos (m : CAddrMan) : List (Nat × CAddrInfo) :=
  m.infosInOrder.filter fun e => e.2.fInTried

theorem mem_infosInOrder : (nId,info) ∈ m.infosInOrder ↔ m.mapInfo.lookup nId = some info := by
  unfold infosInOrder
  rw [List.mem_filterMap]
  constructor
  · rintro ⟨j,-,hj⟩
    obtain ⟨x,hx,he⟩ := Option.map_eq_some_iff.mp hj
    obtain ⟨rfl,rfl⟩ := Prod.mk.inj he
    exact hx
  · intro hl
    refine ⟨nId,?_,by rw [hl]; rfl⟩
    rw [(List.mergeSort_perm _ _).mem_iff]
    exact AList.mem_keys.mp (AList.lookup_isSome.mp (by rw [hl]; rfl))

theorem map_infosInOrder (m : CAddrMan) :
    m.infosInOrder.map Prod.fst = m.mapInfo.keys.mergeSort fun a b => a ≤ b := by
  unfold infosInOrder
  rw [List.map_filterMap]
  have hall : ∀ nId ∈ m.mapInfo.keys.mergeSort fun a b => decide (a ≤ b),
      ((m.mapInfo.lookup nId).map fun info => (nId,info)).map Prod.fst = some nId := by
    intro nId hmem
    rw [(List.mergeSort_perm _ _).mem_iff] at hmem
    obtain ⟨x,hx⟩ := Option.isSome_iff_exists.mp (AList.lookup_isSome.mpr (AList.mem_keys.mpr hmem))
    rw [hx]
    rfl
  rw [List.filterMap_congr hall]
  exact List.filterMap_some

theorem infosInOrder_nodup (m : CAddrMan) : (m.infosInOrder.map Prod.fst).Nodup := by
  rw [map_infosInOrder]
  exact (List.mergeSort_perm _ _).nodup_iff.mpr (AList.keys_nodup _)

/-- They are the entries of the map, each of them once. -/
theorem infosInOrder_perm (m : CAddrMan) :
    m.infosInOrder.Perm (m.mapInfo.entries.map fun e => (e.1,e.2)) := by
  have hnodup := (infosInOrder_nodup m).of_map
  have hentries : (m.mapInfo.entries.map fun e => (e.1,e.2)).Nodup := by
    refine List.Nodup.of_map Prod.fst ?_
    rw [List.map_map]
    exact AList.keys_nodup m.mapInfo
  rw [List.perm_ext_iff_of_nodup hnodup hentries]
  rintro ⟨j,x⟩
  rw [mem_infosInOrder,List.mem_map]
  constructor
  · intro hl
    exact ⟨⟨j,x⟩,AList.mem_lookup_iff.mp hl,rfl⟩
  · rintro ⟨⟨i,y⟩,hmem,he⟩
    obtain ⟨rfl,rfl⟩ := Prod.mk.inj he
    exact AList.mem_lookup_iff.mpr hmem

theorem countP_infosInOrder (m : CAddrMan) (p : CAddrInfo → Bool) :
    (m.infosInOrder.filter fun e => p e.2).length = m.mapInfo.entries.countP fun e => p e.2 := by
  rw [← List.countP_eq_length_filter,(infosInOrder_perm m).countP_eq,List.countP_map]
  rfl

end Order

section File
variable {H : AddrHashes} {m : CAddrMan} {nId : Nat} {info : CAddrInfo}

theorem writeInfos_eq (nVersion : Uint32) (meant : CAddrInfo → Bool) (nCount : Int)
    (l : List (Nat × CAddrInfo)) (nIds : Nat)
    (h : (nIds+(l.filter fun e => meant e.2).length : Int) ≤ nCount) :
    writeInfos nVersion meant nCount l nIds =
      some ((l.filter fun e => meant e.2).flatMap fun e => e.2.record.serialize nVersion) := by
  induction l generalizing nIds with
  | nil => rfl
  | cons e rest ih =>
    obtain ⟨j,x⟩ := e
    rw [writeInfos]
    by_cases hx : meant x = true
    · rw [List.filter_cons_of_pos (by exact hx),List.length_cons] at h
      rw [List.filter_cons_of_pos (by exact hx),if_pos hx,guard,if_pos (by omega),
        ih (nIds+1) (by push_cast; omega)]
      rfl
    · rw [List.filter_cons_of_neg (by exact hx)] at h
      rw [List.filter_cons_of_neg (by exact hx),if_neg hx,ih nIds h]

theorem Check.length_newInfos (h : m.Check H) : (m.newInfos.length : Int) = m.nNew := by
  rw [h.nNew,newInfos,countP_infosInOrder m fun info => decide (info.nRefCount ≠ 0)]
  congr 1
  refine List.countP_congr fun e he => ?_
  have hzero := h.zero e.1 e.2 (AList.mem_lookup_iff.mpr he)
  cases hf : e.2.fInTried with
  | true => simp [hzero.mpr hf]
  | false => simp [hzero,hf]

theorem Check.length_triedInfos (h : m.Check H) : (m.triedInfos.length : Int) = m.nTried := by
  rw [h.nTried,triedInfos,countP_infosInOrder m fun info => info.fInTried]

/-- A list of ids that all stand in a table is no longer than the table. -/
theorem length_le_slots {σ : Type} [Fintype σ] (table : σ → Option Nat) {l : List Nat}
    (hnodup : l.Nodup) (h : ∀ nId ∈ l, ∃ s, table s = some nId) : l.length ≤ Fintype.card σ := by
  classical
  have hsub : l.toFinset ⊆ Finset.univ.image fun s => (table s).getD 0 := by
    intro nId hmem
    obtain ⟨s,hs⟩ := h nId (List.mem_toFinset.mp hmem)
    rw [Finset.mem_image]
    exact ⟨s,Finset.mem_univ s,by rw [hs]; rfl⟩
  calc l.length = l.toFinset.card := (List.toFinset_card_of_nodup hnodup).symm
    _ ≤ (Finset.univ.image fun s => (table s).getD 0).card := Finset.card_le_card hsub
    _ ≤ Fintype.card σ := Finset.card_image_le

theorem Check.slot_of_new (h : m.Check H) (hl : m.mapInfo.lookup nId = some info)
    (href : info.nRefCount ≠ 0) : ∃ s, m.vvNew s = some nId := by
  by_contra hnone
  push Not at hnone
  have hrefs := h.refs nId info hl
  rw [occurrences_eq_zero_iff.mpr hnone] at hrefs
  exact href hrefs

theorem Check.nNew_le (h : m.Check H) : m.nNew ≤ 65536 := by
  have hle := length_le_slots m.vvNew (l := m.newInfos.map Prod.fst) ?_ ?_
  · rw [List.length_map] at hle
    have hcard : Fintype.card NewSlot = 65536 := by
      rw [Fintype.card_prod,Fintype.card_fin,Fintype.card_fin]
      rfl
    have hlen := h.length_newInfos
    omega
  · exact (infosInOrder_nodup m).sublist (List.filter_sublist.map _)
  · intro nId hmem
    obtain ⟨e,he,rfl⟩ := List.mem_map.mp hmem
    obtain ⟨hmem,href⟩ := List.mem_filter.mp he
    exact h.slot_of_new (mem_infosInOrder.mp hmem) (by simpa using href)

theorem Check.nTried_le (h : m.Check H) : m.nTried ≤ 65536 := by
  have hle := length_le_slots m.vvTried (l := m.triedInfos.map Prod.fst) ?_ ?_
  · rw [List.length_map] at hle
    have hcard : Fintype.card TriedSlot = 16384 := by
      rw [Fintype.card_prod,Fintype.card_fin,Fintype.card_fin]
      rfl
    have hlen := h.length_triedInfos
    omega
  · exact (infosInOrder_nodup m).sublist (List.filter_sublist.map _)
  · intro nId hmem
    obtain ⟨e,he,rfl⟩ := List.mem_map.mp hmem
    obtain ⟨hmem,ht⟩ := List.mem_filter.mp he
    exact ⟨_,(h.tried _ _).mpr ⟨e.2,mem_infosInOrder.mp hmem,ht,rfl⟩⟩

/-- What `Serialize` writes, as `Unserialize` reads it. -/
def fileOf (m : CAddrMan) : PeersFile where
  nVersion := 1
  nKey := m.nKey
  nNew := m.nNew
  nTried := m.nTried
  nUBuckets := ADDRMAN_NEW_BUCKET_COUNT
  new := m.newInfos.map fun e => e.2.record
  tried := m.triedInfos.map fun e => e.2.record
  buckets := (List.finRange ADDRMAN_NEW_BUCKET_COUNT).map fun bucket =>
    (m.bucketIds bucket).map fun nId => (unkId nId m.infosInOrder 0 : Int)

theorem unkId_le (nId : Nat) (l : List (Nat × CAddrInfo)) (nIds : Nat) :
    unkId nId l nIds ≤ nIds+(l.filter fun e => e.2.nRefCount ≠ 0).length := by
  induction l generalizing nIds with
  | nil => simp [unkId]
  | cons e rest ih =>
    obtain ⟨j,x⟩ := e
    rw [unkId]
    split
    · omega
    · by_cases hx : x.nRefCount ≠ 0
      · rw [if_pos hx,List.filter_cons_of_pos (by simpa using hx),List.length_cons]
        have hrest := ih (nIds+1)
        omega
      · rw [if_neg hx,List.filter_cons_of_neg (by simpa using hx)]
        exact ih nIds

theorem reads_infos (nVersion : Uint32) (l : List (Nat × CAddrInfo)) :
    Reads (readMany AddrRecord.unserialize l.length)
      (l.flatMap fun e => e.2.record.serialize nVersion) (l.map fun e => e.2.record) :=
  Reads.readMany_map fun e _ => e.2.record.reads_unserialize nVersion

theorem Check.reads_bucket (h : m.Check H) (bucket : Fin ADDRMAN_NEW_BUCKET_COUNT) :
    Reads readBucket (m.writeBucket bucket)
      ((m.bucketIds bucket).map fun nId => (unkId nId m.infosInOrder 0 : Int)) := by
  have hsize : (m.bucketIds bucket).length ≤ 64 := by
    refine (List.length_filterMap_le _ _).trans ?_
    rw [List.length_finRange]
    exact le_refl 64
  refine (reads_readInt ⟨by omega,by omega⟩).bind ?_
  rw [Int.toNat_natCast]
  refine Reads.readMany_map fun nId _ => ?_
  have hle := unkId_le nId m.infosInOrder 0
  have hlen := h.length_newInfos
  have hbound := h.nNew_le
  rw [newInfos] at hlen
  exact reads_readInt ⟨by omega,by omega⟩

theorem Check.reads_buckets (h : m.Check H) (l : List (Fin ADDRMAN_NEW_BUCKET_COUNT)) :
    Reads (readMany readBucket l.length) (l.flatMap m.writeBucket) (l.map fun bucket =>
      (m.bucketIds bucket).map fun nId => (unkId nId m.infosInOrder 0 : Int)) :=
  Reads.readMany_map fun bucket _ => h.reads_bucket bucket

/-- `Unserialize` reads back what `Serialize` wrote. -/
theorem Check.reads_serialize (h : m.Check H) (nVersion : Uint32) :
    ∃ bytes, m.serialize nVersion = some bytes ∧ Reads readPeers bytes m.fileOf := by
  have hnew := h.length_newInfos
  have htried := h.length_triedInfos
  have hnewle := h.nNew_le
  have htriedle := h.nTried_le
  have hrun : m.serialize nVersion = some (littleEndian 1 1 ++ (littleEndian 1 32 ++
      (littleEndian 32 m.nKey.toNat ++ (writeInt 4 m.nNew ++ (writeInt 4 m.nTried ++
      (littleEndian 4 (ADDRMAN_NEW_BUCKET_COUNT ^^^ 2^30) ++
      ((m.newInfos.flatMap fun e => e.2.record.serialize nVersion) ++
      ((m.triedInfos.flatMap fun e => e.2.record.serialize nVersion) ++
      (List.finRange ADDRMAN_NEW_BUCKET_COUNT).flatMap m.writeBucket)))))))) := by
    rw [serialize,writeInfos_eq nVersion (fun info => info.nRefCount ≠ 0) m.nNew m.infosInOrder 0
      (by rw [newInfos] at hnew; omega),
      writeInfos_eq nVersion (fun info => info.fInTried) m.nTried m.infosInOrder 0
      (by rw [triedInfos] at htried; omega)]
    rfl
  refine ⟨_,hrun,?_⟩
  refine ((reads_readUint (by decide)).adaptExcept _).bind
    (((reads_readUint (by decide)).adaptExcept _).bind ?_)
  rw [if_neg (by decide)]
  refine Reads.adaptExcept _ ?_
  refine (reads_bits 32 rfl m.nKey).bind ((reads_readInt ⟨by omega,by omega⟩).bind
    ((reads_readInt ⟨by omega,by omega⟩).bind ((reads_readUint (by decide)).bind ?_)))
  have hbuckets : (if (1 : Nat) ≠ 0 then BitVec.ofNat 32 (ADDRMAN_NEW_BUCKET_COUNT ^^^ 2^30) ^^^ (1 <<< 30)
      else BitVec.ofNat 32 (ADDRMAN_NEW_BUCKET_COUNT ^^^ 2^30) : Uint32).toInt =
      ADDRMAN_NEW_BUCKET_COUNT := by
    decide
  have hread := h.reads_buckets (List.finRange ADDRMAN_NEW_BUCKET_COUNT)
  rw [List.length_finRange] at hread
  dsimp only
  rw [hbuckets,show m.nNew.toNat = m.newInfos.length by omega,
    show m.nTried.toNat = m.triedInfos.length by omega,Int.toNat_natCast]
  refine (reads_infos nVersion m.newInfos).bind ((reads_infos nVersion m.triedInfos).bind
    (Reads.map hread ?_))
  rw [BitVec.ofNat_toNat,BitVec.setWidth_eq]
  exact Reads.pure _

end File

section Reloaded
variable {nDefaultPort : Uint16} {x : CAddrInfo}

theorem withGarlic_of_garlic {a : CAddress} (h : a.isNativeI2P = true → a.isI2P = true) :
    a.withGarlic = a := by
  have hsame : a.toCNetAddr.checkAndSetGarlicCat.1 = a.toCNetAddr := by
    rw [CNetAddr.checkAndSetGarlicCat,if_neg]
    intro hc
    simp only [Bool.and_eq_true,Bool.not_eq_true'] at hc
    rw [h hc.1] at hc
    exact absurd hc.2 (by decide)
  unfold CAddress.withGarlic
  rw [hsame]

theorem readAddress_garlic (x : CAddrInfo) :
    (readAddress x.record).isNativeI2P = true → (readAddress x.record).isI2P = true := x.garlic

/-- An entry of the new table is read back with its port put right. -/
theorem newAddress_eq (nDefaultPort : Uint16) (x : CAddrInfo) : newAddress nDefaultPort x.record =
    { x.toCAddress with
      nServices := x.nServices &&& 0xFF
      port := portOf nDefaultPort x.toCAddress } := by
  unfold newAddress
  rw [withGarlic_of_garlic (readAddress_garlic x)]
  rfl

/-- The entry that is made of a record, at its position in the random order. -/
def newInfo (nDefaultPort : Uint16) (x : CAddrInfo) (n : Nat) : CAddrInfo :=
  ⟨newAddress nDefaultPort x.record,x.source,0,x.nLastSuccess,x.nAttempts,0,false,n,
    newAddress_garlic nDefaultPort x.record⟩

def triedInfo (x : CAddrInfo) (n : Nat) : CAddrInfo :=
  ⟨readAddress x.record,x.source,0,x.nLastSuccess,x.nAttempts,0,true,n,readAddress_garlic x⟩

def reloaded (nDefaultPort : Uint16) (x : CAddrInfo) (n : Nat) : CAddrInfo :=
  if x.fInTried then triedInfo x n else newInfo nDefaultPort x n

theorem newInfo_addr (x : CAddrInfo) (n : Nat) :
    (newInfo nDefaultPort x n).toCNetAddr = x.toCNetAddr := by
  show (newAddress nDefaultPort x.record).toCNetAddr = x.toCNetAddr
  rw [newAddress_eq]

theorem reloaded_addr (x : CAddrInfo) (n : Nat) :
    (reloaded nDefaultPort x n).toCNetAddr = x.toCNetAddr := by
  unfold reloaded
  split
  · rfl
  · exact newInfo_addr x n

theorem reloaded_fInTried (x : CAddrInfo) (n : Nat) :
    (reloaded nDefaultPort x n).fInTried = x.fInTried := by
  unfold reloaded
  split
  · next h => exact h.symm
  · next h => exact (by simpa using h : x.fInTried = false).symm

theorem reloaded_source (x : CAddrInfo) (n : Nat) :
    (reloaded nDefaultPort x n).source = x.source ∧
      (reloaded nDefaultPort x n).nLastSuccess = x.nLastSuccess ∧
      (reloaded nDefaultPort x n).nAttempts = x.nAttempts ∧
      (reloaded nDefaultPort x n).nLastTry = 0 := by
  unfold reloaded
  split <;> exact ⟨rfl,rfl,rfl,rfl⟩

/-- The key of an entry is read back as it was, if its port need not be put right. -/
def PortKept (nDefaultPort : Uint16) (x : CAddrInfo) : Prop :=
  x.fInTried = false → x.isNativeI2P = true ∨ portOf nDefaultPort x.toCAddress = x.port

theorem reloaded_getKey (h : PortKept nDefaultPort x) (n : Nat) :
    (reloaded nDefaultPort x n).toCService.getKey = x.toCService.getKey := by
  refine getKey_congr (reloaded_addr x n) ?_
  unfold reloaded
  split
  · exact .inl rfl
  · next hf =>
    rcases h (by simpa using hf) with hnative | hport
    · exact .inr hnative
    · refine .inl ?_
      show x.port = (newAddress nDefaultPort x.record).port
      rw [newAddress_eq]
      exact hport.symm

end Reloaded

section Loading
variable {H : AddrHashes} {nDefaultPort : Uint16} {f : PeersFile} {done : List CAddrInfo}
  {m : CAddrMan} {x : CAddrInfo}

/-- No two I2P destinations have the same hash. -/
def DistinctHashes (H : AddrHashes) (l : List CAddrInfo) : Prop :=
  l.Pairwise fun x y => x.isI2P = true → y.isI2P = true →
    H.getI2pDestinationHash x.getI2pDestination ≠ H.getI2pDestinationHash y.getI2pDestination

/-- The manager after these entries have been read: no slot of the new table is filled yet. -/
structure Loading (H : AddrHashes) (nDefaultPort : Uint16) (f : PeersFile) (done : List CAddrInfo)
    (m : CAddrMan) : Prop where
  sound : Sound H { m with nIdCount := done.length } (List.range done.length)
    (done.countP (fun x => !x.fInTried)-f.nNew) (done.countP (fun x => x.fInTried)-f.nTried)
  lookup : ∀ j, m.mapInfo.lookup j = done[j]?.map fun x => reloaded nDefaultPort x j
  random : m.vRandom.length = done.length
  nKey : m.nKey = f.nKey
  nNew : m.nNew = f.nNew
  nTried : m.nTried = f.nTried
  vvNew : ∀ s, m.vvNew s = none
  index : DistinctHashes H done → m.HashesExact H

theorem Sound.weaken {pending pending' : List Nat} {dNew dTried : Int}
    (h : m.Sound H pending dNew dTried) (hsub : pending ⊆ pending') :
    m.Sound H pending' dNew dTried :=
  ⟨h.named,h.slotted,h.counted,fun j p hp hj => h.settled j p hp fun hin => hj (hsub hin)⟩

theorem Loading.entry (h : Loading H nDefaultPort f done m) {j : Nat} {info : CAddrInfo}
    (hl : m.mapInfo.lookup j = some info) :
    ∃ x, done[j]? = some x ∧ reloaded nDefaultPort x j = info := by
  rw [h.lookup j] at hl
  exact Option.map_eq_some_iff.mp hl

/-- An address that has not been read yet is not there. -/
theorem Loading.unknown (h : Loading H nDefaultPort f done m)
    (hfresh : ∀ y ∈ done, y.toCNetAddr ≠ x.toCNetAddr) : m.mapAddr.lookup x.toCNetAddr = none := by
  cases ha : m.mapAddr.lookup x.toCNetAddr with
  | none => rfl
  | some j =>
    obtain ⟨info,hl,haddr⟩ := (h.sound.named.addr x.toCNetAddr j).mp ha
    obtain ⟨y,hy,rfl⟩ := h.entry hl
    rw [reloaded_addr] at haddr
    exact absurd haddr (hfresh y (List.mem_of_getElem? hy))

/-- The next entry is indexed. -/
theorem Loading.indexNext (h : Loading H nDefaultPort f done m) {info : CAddrInfo}
    (haddr : info.toCNetAddr = x.toCNetAddr) {m' : CAddrMan}
    (hmap : m'.mapI2pHashes = m.mapI2pHashes)
    (hlookup : ∀ j, m'.mapInfo.lookup j = if j = done.length then some info else m.mapInfo.lookup j)
    (hdistinct : DistinctHashes H (done ++ [x])) :
    (m'.indexLoaded H x.toCNetAddr done.length).HashesExact H := by
  obtain ⟨hdone,-,hnext⟩ := List.pairwise_append.mp hdistinct
  have hnone : m.mapInfo.lookup done.length = none := by
    rw [h.lookup,List.getElem?_eq_none (le_refl _)]
    rfl
  have hindexed := (h.index hdone).insert hnone ?_ hmap hlookup
  · rw [haddr] at hindexed
    exact hindexed
  · intro hi j y hy hyi heq
    obtain ⟨z,hz,rfl⟩ := h.entry hy
    rw [reloaded_addr] at hyi heq
    rw [haddr] at hi heq
    exact hnext z (List.mem_of_getElem? hz) x (by simp) hyi hi heq

theorem lookup_snoc (h : ∀ j, m.mapInfo.lookup j = done[j]?.map fun y => reloaded nDefaultPort y j)
    (j : Nat) : (if j = done.length then some (reloaded nDefaultPort x done.length)
      else m.mapInfo.lookup j) = (done ++ [x])[j]?.map fun y => reloaded nDefaultPort y j := by
  by_cases hj : j = done.length
  · subst hj
    simp
  · rw [if_neg hj,h j]
    by_cases hlt : j < done.length
    · rw [List.getElem?_append_left hlt]
    · rw [List.getElem?_eq_none (by omega),List.getElem?_eq_none (by simp; omega)]

/-- The index is all that the hash of a destination changes. -/
theorem indexLoaded_eq (m : CAddrMan) (addr : CNetAddr) (nId : Nat) : m.indexLoaded H addr nId =
    { m with mapI2pHashes := (m.indexLoaded H addr nId).mapI2pHashes } := by
  unfold indexLoaded
  split
  · exact indexHash_eq m addr nId
  · rfl

theorem countP_snoc_new (hx : x.fInTried = false) :
    (done ++ [x]).countP (fun y => !y.fInTried) = done.countP (fun y => !y.fInTried)+1 := by
  simp [hx]

theorem countP_snoc_tried_of_new (hx : x.fInTried = false) :
    (done ++ [x]).countP (fun y => y.fInTried) = done.countP fun y => y.fInTried := by
  simp [hx]

theorem countP_snoc_tried (hx : x.fInTried = true) :
    (done ++ [x]).countP (fun y => y.fInTried) = done.countP (fun y => y.fInTried)+1 := by
  simp [hx]

theorem countP_snoc_new_of_tried (hx : x.fInTried = true) :
    (done ++ [x]).countP (fun y => !y.fInTried) = done.countP fun y => !y.fInTried := by
  simp [hx]

theorem range_subset_snoc {n : Nat} : List.range n ⊆ List.range (n+1) :=
  List.range_subset.mpr (Nat.le_succ n)

theorem range_snoc {n : Nat} : n :: List.range n ⊆ List.range (n+1) := by
  intro j hj
  rw [List.mem_range]
  rcases List.mem_cons.mp hj with rfl | hj
  · exact Nat.lt_succ_self _
  · exact Nat.lt_succ_of_lt (List.mem_range.mp hj)

theorem Sound.offsets {pending : List Nat} {dNew dTried dNew' dTried' : Int}
    (h : m.Sound H pending dNew dTried) (hnew : dNew = dNew') (htried : dTried = dTried') :
    m.Sound H pending dNew' dTried' := hnew ▸ htried ▸ h

theorem Loading.loadNew (h : Loading H nDefaultPort f done m) (hversion : f.nVersion = 1)
    (hbuckets : f.nUBuckets = ADDRMAN_NEW_BUCKET_COUNT) (hx : x.fInTried = false)
    (hfresh : ∀ y ∈ done, y.toCNetAddr ≠ x.toCNetAddr) :
    Loading H nDefaultPort f (done ++ [x]) (m.loadNew H nDefaultPort f x.record done.length) := by
  have hrun : m.loadNew H nDefaultPort f x.record done.length =
      indexLoaded H { m with
        mapInfo := m.mapInfo.insert done.length (newInfo nDefaultPort x done.length)
        mapAddr := m.mapAddr.insert (newInfo nDefaultPort x done.length).toCNetAddr done.length
        vRandom := m.vRandom ++ [done.length] } x.toCNetAddr done.length := by
    have haddr : (newAddress nDefaultPort x.record).toCNetAddr = x.toCNetAddr :=
      newInfo_addr x done.length
    unfold CAddrMan.loadNew
    dsimp only
    rw [if_neg (by simp [hversion,hbuckets]),h.random,haddr,newInfo_addr]
    rfl
  have hsound := h.sound.insertEntry (newInfo nDefaultPort x done.length) rfl rfl
    (by rw [newInfo_addr]; exact h.unknown hfresh) (by rw [← h.random]; rfl)
  have hreloaded : reloaded nDefaultPort x done.length = newInfo nDefaultPort x done.length :=
    if_neg (by simp [hx])
  have hindex : DistinctHashes H (done ++ [x]) → HashesExact H (indexLoaded H { m with
      mapInfo := m.mapInfo.insert done.length (newInfo nDefaultPort x done.length)
      mapAddr := m.mapAddr.insert (newInfo nDefaultPort x done.length).toCNetAddr done.length
      vRandom := m.vRandom ++ [done.length] } x.toCNetAddr done.length) :=
    h.indexNext (newInfo_addr x done.length) rfl
      (lookup_insertEntry { m with nIdCount := done.length } (newInfo nDefaultPort x done.length))
  rw [hrun]
  rw [indexLoaded_eq] at hindex ⊢
  refine ⟨?_,?_,?_,h.nKey,h.nNew,h.nTried,h.vvNew,fun hdistinct => (hindex hdistinct).congr rfl
    fun _ => rfl⟩
  · rw [List.length_append,List.length_singleton,countP_snoc_new hx,countP_snoc_tried_of_new hx]
    exact ((hsound.setHashes _).weaken range_snoc).offsets (by push_cast; ring) rfl
  · intro j
    rw [← lookup_snoc h.lookup,hreloaded]
    exact lookup_insertEntry { m with nIdCount := done.length } _ j
  · simp [h.random]

/-- A tried entry is inserted at its place. -/
theorem Sound.insertTried {pending : List Nat} {dNew dTried : Int}
    (h : m.Sound H pending dNew dTried) (info : CAddrInfo) (hf : info.fInTried = true)
    (href : info.nRefCount = 0) (hnone : m.mapAddr.lookup info.toCNetAddr = none)
    (hpos : info.nRandomPos = m.vRandom.length)
    (hs : m.vvTried (H.triedSlot m.nKey info.toCService) = none) :
    Sound H ((m.insertEntry info).setTried (H.triedSlot m.nKey info.toCService) (some m.nIdCount))
      pending dNew (dTried+1) := by
  have hnew := h.named.lookup_next
  have hnamed := h.named.insertEntry info hnone hpos
  have hplaces := places_insertEntry m info
  refine ⟨⟨hnamed.addr,hnamed.random,hnamed.placed,hnamed.fresh,hnamed.size⟩,?_,⟨?_,?_⟩,?_⟩
  · have hfresh := h.slotted.insertFresh (q := { info.place with fInTried := false })
      (places_none hnew) rfl href
    have htried := hfresh.tryOut (Function.update_self _ _ _) rfl href hs
    rw [Function.update_idem] at htried
    have hplace : { info.place with fInTried := true } = info.place := by
      rw [← show info.place.fInTried = true from hf]
    rw [show ({ ({ info.place with fInTried := false } : Place) with fInTried := true } : Place) =
      info.place from hplace,← hplaces] at htried
    exact htried
  · have htotal := total_setInfo_new hnew info Place.new
    have hzero : info.place.new = 0 := if_pos hf
    have hold := h.counted.new
    refine Eq.trans ?_ htotal.symm
    show m.nNew+dNew = _
    omega
  · have htotal := total_setInfo_new hnew info Place.tried
    have hone : info.place.tried = 1 := if_pos hf
    have hold := h.counted.tried
    refine Eq.trans ?_ htotal.symm
    show m.nTried+(dTried+1) = _
    omega
  · intro j p hp hj
    have hp' : Function.update m.places m.nIdCount (some info.place) j = some p := hplaces ▸ hp
    by_cases hid : j = m.nIdCount
    · rw [hid,Function.update_self] at hp'
      rw [← Option.some.inj hp',show info.place.fInTried = true from hf]
      intro hcontra
      contradiction
    · rw [Function.update_of_ne hid] at hp'
      exact h.settled j p hp' hj

theorem Sound.setCount {pending : List Nat} {dNew dTried : Int} {n : Nat}
    (h : m.Sound H pending dNew dTried) (hn : m.nIdCount = n) :
    Sound H { m with nIdCount := n } pending dNew dTried := by
  subst hn
  exact h

theorem Loading.loadTried (h : Loading H nDefaultPort f done m) (hcount : m.nIdCount = done.length)
    (hx : x.fInTried = true) (hfresh : ∀ y ∈ done, y.toCNetAddr ≠ x.toCNetAddr)
    (hs : m.vvTried (H.triedSlot m.nKey x.toCService) = none) :
    ∃ m', loadTried H (m,0) x.record = some (m',0) ∧ Loading H nDefaultPort f (done ++ [x]) m' ∧
      m'.nIdCount = done.length+1 ∧
      m'.vvTried = Function.update m.vvTried (H.triedSlot m.nKey x.toCService) (some done.length) := by
  have hrun : CAddrMan.loadTried H (m,0) x.record = some (indexLoaded H
      ((m.insertEntry (triedInfo x done.length)).setTried (H.triedSlot m.nKey x.toCService)
        (some done.length)) (readAddress x.record).withGarlic.toCNetAddr done.length,0) := by
    have hslot : m.vvTried (H.triedSlot m.nKey (readAddress x.record).toCService) = none := hs
    unfold CAddrMan.loadTried
    dsimp only
    rw [dif_pos (readAddress_garlic x),if_pos hslot,h.random,← hcount]
    rfl
  have hghost : ({ m with nIdCount := done.length } : CAddrMan) = m := by rw [← hcount]
  have hsound := h.sound
  rw [hghost] at hsound
  have hinsert := hsound.insertTried (triedInfo x done.length) rfl rfl (h.unknown hfresh)
    (by rw [h.random]; rfl) hs
  have hreloaded : reloaded nDefaultPort x done.length = triedInfo x done.length := if_pos hx
  have hgarlic : (readAddress x.record).withGarlic.toCNetAddr = x.toCNetAddr := by
    rw [withGarlic_of_garlic (readAddress_garlic x)]
    rfl
  have hlookup : ∀ j, (m.insertEntry (triedInfo x done.length)).mapInfo.lookup j =
      if j = done.length then some (triedInfo x done.length) else m.mapInfo.lookup j := by
    intro j
    rw [lookup_insertEntry,hcount]
  have hindex : DistinctHashes H (done ++ [x]) → HashesExact H (indexLoaded H
      ((m.insertEntry (triedInfo x done.length)).setTried (H.triedSlot m.nKey x.toCService)
        (some done.length)) x.toCNetAddr done.length) :=
    h.indexNext (show (triedInfo x done.length).toCNetAddr = x.toCNetAddr from rfl) rfl hlookup
  rw [hgarlic,indexLoaded_eq] at hrun
  rw [indexLoaded_eq] at hindex
  refine ⟨_,hrun,⟨?_,?_,?_,h.nKey,h.nNew,h.nTried,h.vvNew,hindex⟩,?_,rfl⟩
  · rw [List.length_append,List.length_singleton,countP_snoc_new_of_tried hx,countP_snoc_tried hx]
    rw [hcount] at hinsert
    refine Sound.setCount ?_ ?_
    · exact ((hinsert.setHashes _).weaken range_subset_snoc).offsets rfl (by push_cast; ring)
    · exact congrArg (·+1) hcount
  · intro j
    rw [← lookup_snoc h.lookup,hreloaded]
    exact hlookup j
  · rw [List.length_append,List.length_singleton,← h.random]
    exact List.length_append.trans rfl
  · show m.nIdCount+1 = done.length+1
    rw [hcount]

theorem fresh_of_nodup {l : List CAddrInfo}
    (h : ((done ++ x :: l).map fun y => y.toCNetAddr).Nodup) :
    ∀ y ∈ done, y.toCNetAddr ≠ x.toCNetAddr := by
  intro y hy heq
  rw [List.map_append,List.map_cons] at h
  exact (List.nodup_append.mp h).2.2 y.toCNetAddr (List.mem_map.mpr ⟨y,hy,rfl⟩) x.toCNetAddr
    (by simp) heq

/-- The new entries are read one after the other. -/
theorem Loading.foldNew (h : Loading H nDefaultPort f done m) (hversion : f.nVersion = 1)
    (hbuckets : f.nUBuckets = ADDRMAN_NEW_BUCKET_COUNT) (l : List CAddrInfo)
    (hl : ∀ x ∈ l, x.fInTried = false)
    (hnodup : ((done ++ l).map fun y => y.toCNetAddr).Nodup) :
    Loading H nDefaultPort f (done ++ l) (((l.map CAddrInfo.record).zipIdx done.length).foldl
      (fun m e => m.loadNew H nDefaultPort f e.1 e.2) m) := by
  induction l generalizing done m with
  | nil =>
    rw [List.append_nil]
    exact h
  | cons x rest ih =>
    have hstep := h.loadNew hversion hbuckets (hl x (by simp)) (fresh_of_nodup hnodup)
    have hrest := ih hstep (fun y hy => hl y (by simp [hy])) (by simpa using hnodup)
    simp only [List.append_assoc,List.singleton_append,List.length_append,List.length_singleton]
      at hrest
    exact hrest

/-- The tried entries find their places free. -/
theorem Loading.foldTried (h : Loading H nDefaultPort f done m) (hcount : m.nIdCount = done.length)
    (l : List CAddrInfo) (hl : ∀ x ∈ l, x.fInTried = true)
    (hnodup : ((done ++ l).map fun y => y.toCNetAddr).Nodup)
    (hslots : (l.map fun x => H.triedSlot m.nKey x.toCService).Nodup)
    (hfree : ∀ x ∈ l, m.vvTried (H.triedSlot m.nKey x.toCService) = none) :
    ∃ m', (l.map CAddrInfo.record).foldlM (CAddrMan.loadTried H) (m,0) = some (m',0) ∧
      Loading H nDefaultPort f (done ++ l) m' ∧ m'.nIdCount = (done ++ l).length := by
  induction l generalizing done m with
  | nil =>
    rw [List.append_nil]
    exact ⟨m,rfl,h,hcount⟩
  | cons x rest ih =>
    obtain ⟨m₁,hrun,h₁,hcount₁,hvv⟩ := h.loadTried hcount (hl x (by simp)) (fresh_of_nodup hnodup)
      (hfree x (by simp))
    have hkey : m₁.nKey = m.nKey := h₁.nKey.trans h.nKey.symm
    rw [List.map_cons,List.nodup_cons] at hslots
    have hrestFree : ∀ y ∈ rest, m₁.vvTried (H.triedSlot m₁.nKey y.toCService) = none := by
      intro y hy
      have hne : H.triedSlot m.nKey y.toCService ≠ H.triedSlot m.nKey x.toCService := by
        intro heq
        exact hslots.1 (List.mem_map.mpr ⟨y,hy,heq⟩)
      rw [hkey,hvv,Function.update_of_ne hne]
      exact hfree y (by simp [hy])
    obtain ⟨m',hrest,h',hcount'⟩ := ih h₁ (by simpa using hcount₁) (fun y hy => hl y (by simp [hy]))
      (by simpa using hnodup) (by rw [hkey]; exact hslots.2) hrestFree
    refine ⟨m',?_,by simpa using h',by simpa using hcount'⟩
    rw [List.map_cons,List.foldlM_cons,hrun]
    exact hrest

theorem Loading.triedFree (h : Loading H nDefaultPort f done m)
    (hl : ∀ x ∈ done, x.fInTried = false) (s : TriedSlot) : m.vvTried s = none := by
  cases hs : m.vvTried s with
  | none => rfl
  | some j =>
    obtain ⟨p,hp,hf,-⟩ := (h.sound.slotted.tried s j).mp hs
    obtain ⟨info,hlookup,rfl⟩ := lookup_of_places hp
    obtain ⟨x,hx,rfl⟩ := h.entry hlookup
    rw [show (reloaded nDefaultPort x j).place.fInTried = (reloaded nDefaultPort x j).fInTried from rfl,
      reloaded_fInTried,hl x (List.mem_of_getElem? hx)] at hf
    contradiction

end Loading

end CAddrMan

end Anoncoin
