import Anoncoin.AddrIndexRuns
import Anoncoin.Base64

/-!
The names of I2P destinations (netbase.cpp, addrman.cpp): how a name is made from a destination,
and which names `LookupB32addr` finds.
-/

set_option autoImplicit false

namespace Anoncoin
open Lib

section Names

/-- `find_first_of` for one sign. -/
def findFirstOf (c : UInt8) (s : List UInt8) (pos : Nat) : Option Nat :=
  if c ∈ s.drop pos then some (pos+(s.drop pos).idxOf c) else none

theorem findFirstOf_eq_some {c : UInt8} {s : List UInt8} {pos found : Nat}
    (h : findFirstOf c s pos = some found) :
    ∃ before after, s.drop pos = before ++ c :: after ∧ c ∉ before ∧ found = pos+before.length := by
  unfold findFirstOf at h
  split at h
  · rename_i hmem
    obtain ⟨before,after,hs,hnot⟩ := List.eq_append_cons_of_mem hmem
    refine ⟨before,after,hs,hnot,?_⟩
    rw [hs,List.idxOf_append_of_notMem hnot,List.idxOf_cons_self] at h
    exact (Option.some.inj h).symm
  · contradiction

theorem findFirstOf_lt {c : UInt8} {s : List UInt8} {pos found : Nat}
    (h : findFirstOf c s pos = some found) : found < s.length := by
  obtain ⟨before,after,hs,-,rfl⟩ := findFirstOf_eq_some h
  have hlen := congrArg List.length hs
  simp only [List.length_drop,List.length_append,List.length_cons] at hlen
  omega

/-- The loop that erases a sign. It goes on one position before, and behind position 0 nothing is
found any more. -/
def eraseSign (c : UInt8) (pos : Nat) (s : List UInt8) : List UInt8 :=
  match _h : findFirstOf c s pos with
  | none => s
  | some 0 => s.eraseIdx 0
  | some (found+1) => eraseSign c found (s.eraseIdx (found+1))
  termination_by s.length
  decreasing_by
    have := findFirstOf_lt _h
    rw [List.length_eraseIdx_of_lt this]
    omega

/-- The loop that puts one sign in the place of another one. -/
def replaceSign (old new : UInt8) (s : List UInt8) : List UInt8 :=
  s.map fun c => if c = old then new else c

/-- `SHA256` writes 32 bytes. -/
structure Sha256 where
  digest : List UInt8 → List UInt8
  length_digest : ∀ bytes, (digest bytes).length = 32

/-- What is hashed: `-` and `~` stand for `+` and `/`. -/
def rawDest (destination : List UInt8) : List UInt8 :=
  (decodeBase64 (replaceSign 126 47 (replaceSign 45 43 destination))).1

def getI2pDestinationHash (sha256 : Sha256) (destination : List UInt8) : Uint256 :=
  BitVec.ofNat 256 (fromLittleEndian (sha256.digest (rawDest destination)))

def AddrHashes.withSha256 (H : AddrHashes) (sha256 : Sha256) : AddrHashes :=
  { H with getI2pDestinationHash := Anoncoin.getI2pDestinationHash sha256 }

def CNetAddr.toB32String (H : AddrHashes) (a : CNetAddr) : List UInt8 :=
  b32AddressFromDestination H a.getI2pDestination

/-- There is no result when the lookup throws. -/
def CAddrMan.getI2pBase64Destination (m : CAddrMan) (sB32addr : List UInt8) : Option (List UInt8) :=
  (m.lookupB32addr sB32addr).map fun paddr =>
    match paddr with
    | some info => if info.isI2P then info.getI2pDestination else []
    | none => []

theorem findFirstOf_split {c : UInt8} {s : List UInt8} {pos found : Nat} (hpos : c ∉ s.take pos)
    (h : findFirstOf c s pos = some found) :
    ∃ front after, s = front ++ c :: after ∧ c ∉ front ∧ found = front.length := by
  obtain ⟨before,after,hs,hnot,rfl⟩ := findFirstOf_eq_some h
  have hle : pos ≤ s.length := by
    have := congrArg List.length hs
    simp only [List.length_drop,List.length_append,List.length_cons] at this
    omega
  refine ⟨s.take pos ++ before,after,?_,by simp [hpos,hnot],by simp [hle]⟩
  rw [List.append_assoc,← hs,List.take_append_drop]

/-- In a text that starts with another sign the loop erases every one. -/
theorem eraseSign_eq {c : UInt8} {pos : Nat} {s : List UInt8} (hhead : s.head? ≠ some c)
    (hpos : c ∉ s.take pos) : eraseSign c pos s = s.filter fun x => x ≠ c := by
  induction hn : s.length using Nat.strong_induction_on generalizing s pos with
  | _ n ih =>
    subst hn
    unfold eraseSign
    split
    · rename_i hfound
      have hdrop : c ∉ s.drop pos := by
        intro hmem
        rw [findFirstOf,if_pos hmem] at hfound
        contradiction
      have hnone : c ∉ s := by
        rw [← List.take_append_drop pos s,List.mem_append]
        exact fun hmem => hmem.elim hpos hdrop
      rw [List.filter_eq_self.mpr]
      intro x hx
      simpa using fun heq : x = c => hnone (heq ▸ hx)
    · rename_i hfound
      obtain ⟨front,after,rfl,-,hlen⟩ := findFirstOf_split hpos hfound
      rw [List.length_eq_zero_iff.mp hlen.symm] at hhead
      exact absurd rfl hhead
    · rename_i found hfound
      obtain ⟨front,after,rfl,hnone,hlen : found+1 = _⟩ := findFirstOf_split hpos hfound
      have herase : (front ++ c :: after).eraseIdx (found+1) = front ++ after := by
        rw [List.eraseIdx_append_of_length_le (by omega),hlen,Nat.sub_self,List.eraseIdx_cons_zero]
      rw [herase,ih _ (by simp) _ _ rfl]
      · rw [List.filter_append,List.filter_append,List.filter_cons_of_neg (by simp)]
      · cases front with
        | nil => simp at hlen
        | cons a front => exact hhead
      · rw [List.take_append_of_le_length (by omega)]
        exact fun hmem => hnone (List.mem_of_mem_take hmem)

/-- The loop over the name gives the name without its padding. -/
theorem b32AddressFromDestination_eq (H : AddrHashes) (destination : List UInt8) :
    eraseSign 61 0 (encodeBase32 (littleEndian 32 (H.getI2pDestinationHash destination).toNat) ++
      b32Suffix) = b32AddressFromDestination H destination := by
  obtain ⟨digits,k,hspells,-,htext,-⟩ :=
    codec32.read_unpadded (littleEndian 32 (H.getI2pDestinationHash destination).toNat)
  have hlen := hspells.length
  rw [List.length_map,littleEndian_length] at hlen
  refine eraseSign_eq ?_ (by simp)
  cases digits with
  | nil =>
    rw [List.length_nil] at hlen
    omega
  | cons d digits =>
    have hfirst : pbase32 d ≠ 61 :=
      Alphabet.write_ne_pad (A := alphabet32) (hspells.digits_lt d List.mem_cons_self)
    rw [htext]
    exact fun h => hfirst (Option.some.inj h)

theorem littleEndian_hash (sha256 : Sha256) (destination : List UInt8) :
    littleEndian 32 (getI2pDestinationHash sha256 destination).toNat =
      sha256.digest (rawDest destination) := by
  have hlen := sha256.length_digest (rawDest destination)
  have hlt := fromLittleEndian_lt (sha256.digest (rawDest destination))
  have hback := littleEndian_fromLittleEndian (sha256.digest (rawDest destination))
  rw [hlen] at hlt hback
  rw [getI2pDestinationHash,BitVec.toNat_ofNat,Nat.mod_eq_of_lt (hlt.trans_eq (by norm_num)),hback]

/-- With an exact index every stored destination is found by its name, and every name is 52 signs,
from which the hash is read, and the suffix. -/
theorem i2p_names_resolve (H : AddrHashes) (sha256 : Sha256) (m : CAddrMan)
    (h : m.HashesExact (H.withSha256 sha256)) :
    (∀ nId info, m.mapInfo.lookup nId = some info → info.isI2P = true →
      m.getI2pBase64Destination (info.toB32String (H.withSha256 sha256)) =
        some info.getI2pDestination) ∧
    ∀ destination, ∃ digits,
      b32AddressFromDestination (H.withSha256 sha256) destination = digits ++ b32Suffix ∧
      (digits ++ b32Suffix).length = 60 ∧ digits.length = 52 ∧
      (decodeBase32 digits).1 = sha256.digest (rawDest destination) := by
  constructor
  · intro nId info hl hi
    rw [CAddrMan.getI2pBase64Destination,CNetAddr.toB32String,h.lookupB32addr hl hi]
    simp [hi]
  · intro destination
    obtain ⟨digits,hname,hlen,hread⟩ :=
      CAddrMan.b32Address_eq (H.withSha256 sha256) destination
    refine ⟨digits,hname,by rw [List.length_append,hlen]; rfl,hlen,?_⟩
    rw [hread]
    exact littleEndian_hash sha256 destination

/-- The digest of the only destination below. -/
def garlicSha256 : Sha256 :=
  ⟨fun _ =>
    [132,206,162,69,48,57,208,87,24,184,81,127,231,1,8,16,142,224,103,189,15,173,210,12,111,214,79,
      23,85,86,161,82],
    fun _ => rfl⟩

def garlicInfo : CAddrInfo :=
  ⟨⟨⟨CAddrMan.garlicAddr,0⟩,0,5⟩,CAddrMan.openAddr,0,0,0,0,false,0,fun _ => by decide⟩

/-- A manager with one destination. -/
def garlicMan (H : AddrHashes) : CAddrMan :=
  { CAddrMan.empty 0 with
    mapInfo := (∅ : AList fun _ : Nat => CAddrInfo).insert 0 garlicInfo
    mapI2pHashes := (∅ : AList fun _ : Uint256 => Nat).insert
      (H.getI2pDestinationHash garlicInfo.getI2pDestination) 0 }

theorem garlicMan_exact (H : AddrHashes) : (garlicMan H).HashesExact H := by
  intro b32hash nId
  have hnone : ∀ j ≠ 0, (garlicMan H).mapInfo.lookup j = none := fun j hj =>
    (AList.lookup_insert_ne hj).trans (AList.lookup_empty j)
  have hone : (garlicMan H).mapInfo.lookup 0 = some garlicInfo := AList.lookup_insert _
  by_cases hhash : b32hash = H.getI2pDestinationHash garlicInfo.getI2pDestination
  · subst hhash
    have hindex : (garlicMan H).mapI2pHashes.lookup
        (H.getI2pDestinationHash garlicInfo.getI2pDestination) = some 0 := AList.lookup_insert _
    rw [hindex]
    constructor
    · intro hid
      obtain rfl := Option.some.inj hid
      exact ⟨garlicInfo,hone,by decide,rfl⟩
    · intro ⟨info,hl,_⟩
      by_contra hne
      rw [hnone nId fun hzero => hne (congrArg some hzero.symm)] at hl
      contradiction
  · have hindex : (garlicMan H).mapI2pHashes.lookup b32hash = none :=
      (AList.lookup_insert_ne hhash).trans (AList.lookup_empty b32hash)
    rw [hindex]
    constructor
    · intro hid
      contradiction
    · intro ⟨info,hl,_,hsame⟩
      by_cases hzero : nId = 0
      · subst hzero
        rw [← Option.some.inj (hone.symm.trans hl)] at hsame
        exact absurd hsame.symm hhash
      · rw [hnone nId hzero] at hl
        contradiction

theorem i2p_names_resolve_garlic :
    (garlicMan (CAddrMan.firstBytes.withSha256 garlicSha256)).getI2pBase64Destination
      (CAddrMan.garlicAddr.toB32String (CAddrMan.firstBytes.withSha256 garlicSha256)) =
        some CAddrMan.garlicAddr.getI2pDestination :=
  (i2p_names_resolve CAddrMan.firstBytes garlicSha256 _ (garlicMan_exact _)).1 0 garlicInfo
    (AList.lookup_insert _) (by decide)

end Names

section Lookup

/-- The bits of the last sign that do not belong to the hash. -/
def spareBits (sB32addr : List UInt8) : Nat := (decode32Table (sB32addr.getD 51 0)).getD 0%16

/-- The hash that the first 52 signs stand for. -/
def hashOfName (sB32addr : List UInt8) : Uint256 :=
  BitVec.ofNat 256 (fromLittleEndian (decodeBase32 (sB32addr.take 52)).1)

/-- The lookup returns, and what it returns is an entry with this name. -/
def CAddrMan.NamedOnly (H : AddrHashes) (m : CAddrMan) (sB32addr : List UInt8) : Prop :=
  ∃ r, m.lookupB32addr sB32addr = some r ∧
    ∀ info, r = some info → sB32addr.map lowerCase = info.toB32String H

/-- A text that is no name by its form; or one of 52 signs of base 32, without spare bits if
there is an entry for its hash, which has this hash. -/
def CAddrMan.WellNamed (H : AddrHashes) (m : CAddrMan) (sB32addr : List UInt8) : Prop :=
  isValidI2pB32 sB32addr = false ∨
    (∀ c ∈ sB32addr.take 52, (decode32Table c).isSome = true) ∧
      ∀ nId info, m.mapI2pHashes.lookup (hashOfName sB32addr) = some nId →
        m.mapInfo.lookup nId = some info → spareBits sB32addr = 0 ∧
          H.getI2pDestinationHash info.getI2pDestination = hashOfName sB32addr

variable {H : AddrHashes} {m : CAddrMan} {sB32addr : List UInt8}

theorem isValidI2pB32_iff : isValidI2pB32 sB32addr = true ↔
    sB32addr.length = 60 ∧ sB32addr = sB32addr.take 52 ++ b32Suffix := by
  unfold isValidI2pB32
  rw [Bool.and_eq_true,beq_iff_eq,beq_iff_eq]
  constructor
  · rintro ⟨hlen,hdrop⟩
    rw [hlen] at hdrop
    exact ⟨hlen,by rw [← hdrop,List.take_append_drop]⟩
  · rintro ⟨hlen,hs⟩
    refine ⟨hlen,?_⟩
    rw [hlen,hs,List.drop_left' (by simp [hlen])]

/-- The spare bits are the low bits of the last digit. -/
theorem spareBits_eq {v : Nat} {words : List Nat} (hlen : sB32addr.length = 60)
    (hall : ∀ c ∈ sB32addr.take 52, (decode32Table c).isSome = true)
    (hspells : Spells 5 8 (alphabet32.lead (sB32addr.take 52)) words 4 v) :
    v = spareBits sB32addr := by
  have hlast : sB32addr.take 52 = sB32addr.take 51 ++ [sB32addr[51]] :=
    (List.take_append_getElem (by omega)).symm
  rw [hlast] at hall hspells
  obtain ⟨hfront,hc⟩ := List.forall_mem_append.mp hall
  obtain ⟨d,hd⟩ := Option.isSome_iff_exists.mp (hc _ List.mem_cons_self)
  have hlead : alphabet32.lead [sB32addr[51]] = [d] := by simp [Alphabet.lead,alphabet32,hd]
  rw [(Alphabet.lead_append_all (A := alphabet32) hfront).1,hlead] at hspells
  have hvalue := hspells.value
  have hlt := hspells.spare
  rw [radixValue_append,radixValue_singleton,List.length_singleton,Nat.pow_one] at hvalue
  rw [spareBits,List.getD_eq_getElem?_getD,List.getElem?_eq_getElem (by omega),Option.getD_some,hd,
    Option.getD_some]
  omega

/-- 52 signs of base 32 say 32 bytes and have four spare bits. -/
theorem decoded_name (hlen : sB32addr.length = 60)
    (hall : ∀ c ∈ sB32addr.take 52, (decode32Table c).isSome = true) :
    Spells 5 8 (alphabet32.lead (sB32addr.take 52))
        ((decodeBase32 (sB32addr.take 52)).1.map UInt8.toNat) 4 (spareBits sB32addr) ∧
      (decodeBase32 (sB32addr.take 52)).1.length = 32 ∧
      (decodeBase32 (sB32addr.take 52)).2 = true := by
  have hdigits := Alphabet.lead_length_eq (A := alphabet32).mpr hall
  have hrest := (Alphabet.lead_append_all (A := alphabet32) (t := []) hall).2
  rw [List.append_nil] at hrest
  rw [List.length_take,hlen] at hdigits
  cases codec32.decodes (sB32addr.take 52) with
  | @intro k v hspells hk hinvalid =>
    have hsize := hspells.length
    rw [hdigits,List.length_map] at hsize
    obtain rfl : k = 4 := by omega
    refine ⟨spareBits_eq hlen hall hspells ▸ hspells,by omega,?_⟩
    refine Bool.eq_true_of_not_eq_false fun hfalse => ?_
    have hpadded := (hinvalid.mp hfalse).2.2.1
    rw [hrest] at hpadded
    exact absurd hpadded (by decide)

/-- With another sign among them they say fewer bytes. -/
theorem short_name (hlen : sB32addr.length = 60)
    (hall : ¬∀ c ∈ sB32addr.take 52, (decode32Table c).isSome = true) :
    (decodeBase32 (sB32addr.take 52)).1.length ≠ 32 := by
  have hle := alphabet32.lead_length_le (sB32addr.take 52)
  have hne := (not_congr (Alphabet.lead_length_eq (A := alphabet32))).mpr hall
  cases codec32.decodes (sB32addr.take 52) with
  | intro hspells hk =>
    have hsize := hspells.length
    rw [List.length_map] at hsize
    simp only [List.length_take,hlen] at hle hne
    omega

theorem lookupB32addr_eq (m : CAddrMan) (hvalid : isValidI2pB32 sB32addr = true) :
    m.lookupB32addr sB32addr =
      if (sB32addr.take 52).all (fun c => (decode32Table c).isSome) then
        some ((m.mapI2pHashes.lookup (hashOfName sB32addr)).bind m.mapInfo.lookup)
      else none := by
  have hlen := (isValidI2pB32_iff.mp hvalid).1
  rw [CAddrMan.lookupB32addr,if_pos hvalid,hlen]
  by_cases hall : ∀ c ∈ sB32addr.take 52, (decode32Table c).isSome = true
  · obtain ⟨-,hsize,hinvalid⟩ := decoded_name hlen hall
    rw [if_pos (List.all_eq_true.mpr hall),hashOfName]
    simp only [Nat.reduceSub,hsize,hinvalid,guard,if_true,pure_bind]
    cases m.mapI2pHashes.lookup (BitVec.ofNat 256 (fromLittleEndian
      (decodeBase32 (sB32addr.take 52)).1)) with
    | none => rfl
    | some nId => rfl
  · rw [if_neg fun h => hall (List.all_eq_true.mp h)]
    simp [guard,short_name hlen hall]

/-- In lower case such a text is the name of a destination exactly when its spare bits are zero and
it has the hash. -/
theorem lowerCase_eq_name_iff (hvalid : isValidI2pB32 sB32addr = true)
    (hall : ∀ c ∈ sB32addr.take 52, (decode32Table c).isSome = true) (destination : List UInt8) :
    sB32addr.map lowerCase = b32AddressFromDestination H destination ↔
      spareBits sB32addr = 0 ∧ H.getI2pDestinationHash destination = hashOfName sB32addr := by
  obtain ⟨hlen,hsplit⟩ := isValidI2pB32_iff.mp hvalid
  obtain ⟨hspells,hsize,-⟩ := decoded_name hlen hall
  obtain ⟨digits,k,hspells',hk,-,hfilter,-⟩ :=
    codec32.read_unpadded (littleEndian 32 (H.getI2pDestinationHash destination).toNat)
  obtain rfl : k = 4 := by
    have := hspells'.length
    rw [List.length_map,littleEndian_length] at this
    omega
  have hname : b32AddressFromDestination H destination = digits.map pbase32 ++ b32Suffix := by
    rw [b32AddressFromDestination,List.filter_append]
    exact congrArg₂ _ hfilter rfl
  have hlower : sB32addr.map lowerCase =
      (alphabet32.lead (sB32addr.take 52)).map pbase32 ++ b32Suffix := by
    have hrest := (Alphabet.lead_append_all (A := alphabet32) (t := []) hall).2
    have hmap := Alphabet.map_canonical (A := alphabet32) (sB32addr.take 52)
    rw [List.append_nil] at hrest
    rw [hrest,funext canonical32] at hmap
    rw [hsplit,List.map_append,← hsplit,hmap]
    exact congrArg (· ++ b32Suffix) (List.append_nil _)
  rw [hname,hlower,List.append_left_inj]
  constructor
  · intro heq
    rw [Alphabet.map_write_inj (A := alphabet32) hspells.digits_lt hspells'.digits_lt heq] at hspells
    obtain ⟨hbytes,-,hspare⟩ := hspells.words_unique hspells' (by decide) (by decide)
    refine ⟨hspare,?_⟩
    rw [hashOfName,List.map_injective_iff.mpr (fun a b => UInt8.toNat_inj.mp) hbytes,
      fromLittleEndian_littleEndian (H.getI2pDestinationHash destination).isLt,BitVec.ofNat_toNat,
      BitVec.setWidth_eq]
  · rintro ⟨hspare,hhash⟩
    rw [hspare] at hspells
    have hback := littleEndian_fromLittleEndian (decodeBase32 (sB32addr.take 52)).1
    have hlt := fromLittleEndian_lt (decodeBase32 (sB32addr.take 52)).1
    rw [hsize] at hback hlt
    rw [hhash,hashOfName,BitVec.toNat_ofNat,Nat.mod_eq_of_lt (hlt.trans_eq (by norm_num)),
      hback] at hspells'
    rw [(hspells.digits_unique hspells' (by decide) (by decide)).1]

/-- Exactly then the lookup is robust. -/
theorem namedOnly_iff (H : AddrHashes) (m : CAddrMan) (sB32addr : List UInt8) :
    m.NamedOnly H sB32addr ↔ m.WellNamed H sB32addr := by
  unfold CAddrMan.NamedOnly CAddrMan.WellNamed
  cases hvalid : isValidI2pB32 sB32addr with
  | false =>
    rw [CAddrMan.lookupB32addr,if_neg (by simp [hvalid])]
    simp
  | true =>
    rw [lookupB32addr_eq m hvalid]
    by_cases hall : ∀ c ∈ sB32addr.take 52, (decode32Table c).isSome = true
    · simp only [if_pos (List.all_eq_true.mpr hall),Option.some.injEq,exists_eq_left',Option.bind_eq_some_iff,
        CNetAddr.toB32String,lowerCase_eq_name_iff hvalid hall,forall_exists_index,and_imp,
        Bool.true_eq_false,false_or]
      exact ⟨fun h => ⟨hall,fun nId info => h info nId⟩,fun h info nId => h.2 nId info⟩
    · simp [hall]

/-- The name of the destination with another last sign. -/
def otherName : List UInt8 :=
  (CAddrMan.garlicAddr.toB32String (CAddrMan.firstBytes.withSha256 garlicSha256)).set 51 98

/-- A foreign sign makes the lookup throw, and a name with spare bits finds the destination. -/
theorem lookup_not_robust :
    (CAddrMan.empty 0).lookupB32addr (List.replicate 52 33 ++ b32Suffix) = none ∧
    (garlicMan (CAddrMan.firstBytes.withSha256 garlicSha256)).lookupB32addr otherName =
      some (some garlicInfo) ∧
    otherName.map lowerCase ≠ garlicInfo.toB32String (CAddrMan.firstBytes.withSha256 garlicSha256) ∧
    ¬∀ (H : AddrHashes) (m : CAddrMan) (sB32addr : List UInt8), m.NamedOnly H sB32addr := by
  have hthrows : (CAddrMan.empty 0).lookupB32addr (List.replicate 52 33 ++ b32Suffix) = none := by
    decide +kernel
  refine ⟨hthrows,by decide +kernel,by decide +kernel,fun h => ?_⟩
  obtain ⟨r,hr,-⟩ := h CAddrMan.firstBytes (CAddrMan.empty 0) (List.replicate 52 33 ++ b32Suffix)
  rw [hthrows] at hr
  contradiction

end Lookup

end Anoncoin
