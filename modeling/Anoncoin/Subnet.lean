import Mathlib.Data.List.Basic
import Mathlib.Tactic.IntervalCases
import Anoncoin.Lib.Text
import Anoncoin.NetAddr

/-!
Subnets (netbase.cpp): how `CSubNet` reads a network with the length of its prefix or a netmask,
and which addresses it matches. The resolver is a parameter.
-/

set_option autoImplicit false

namespace Anoncoin
open Lib

/-- `ParseInt32` (util.cpp). -/
def parseInt32 (str : List Char) : Option Int :=
  let (n,rest) := strtol str
  if rest.isEmpty ∧ -2^31 ≤ n ∧ n < 2^31 then some n else none

/-- The text before the last slash, and the text after it. -/
def splitAtSlash : List Char → Option (List Char × List Char)
  | [] => none
  | c :: rest =>
      match splitAtSlash rest with
      | some (address,netmask) => some (c :: address,netmask)
      | none => if c = '/' then some ([],rest) else none

structure CSubNet where
  network : CNetAddr
  netmask : List UInt8
  valid : Bool
  deriving DecidableEq, Repr

namespace CSubNet

/-- `netmask[n>>3] &= ~(1<<(n&7))`. -/
def clearBit (netmask : List UInt8) (n : Nat) : List UInt8 :=
  netmask.modify (n/8) fun byte => byte &&& ~~~(1 <<< UInt8.ofNat (n%8))

/-- The loop that clears the bits from `n` to 127. -/
def clearFrom (netmask : List UInt8) (n : Nat) : List UInt8 :=
  (List.range' n (128-n)).foldl clearBit netmask

/-- The loop that copies the last bytes of a netmask in address form. -/
def copyMask (netmask : List UInt8) (mask : CNetAddr) (asize : Nat) : List UInt8 :=
  (List.range asize).foldl (fun netmask x => netmask.set (15-x) (mask.getByte x)) netmask

/-- Where the address starts, in bits. -/
def noffset (network : CNetAddr) : Nat := if network.isIPv4 then 12*8 else 0

/-- The constructor from a string; `lookupHost` gives the first address that `LookupHost` finds. -/
def ofString (lookupHost : List Char → Bool → Option CNetAddr) (strSubnet : List Char)
    (fAllowLookup : Bool) : CSubNet :=
  let netmask := List.replicate 16 255
  match lookupHost ((splitAtSlash strSubnet).elim strSubnet Prod.fst) fAllowLookup with
  | none => ⟨.unset,netmask,false⟩
  | some network =>
      match (splitAtSlash strSubnet).map Prod.snd with
      | none => ⟨network,netmask,true⟩
      | some strNetmask =>
          match parseInt32 strNetmask with
          | some n =>
              if 0 ≤ n ∧ n ≤ 128-noffset network then
                ⟨network,clearFrom netmask (n+noffset network).toNat,true⟩
              else ⟨network,netmask,false⟩
          | none =>
              match lookupHost strNetmask false with
              | some mask => ⟨network,copyMask netmask mask (if network.isIPv4 then 4 else 16),true⟩
              | none => ⟨network,netmask,false⟩

/-- `Match`. -/
def matchAddr (s : CSubNet) (addr : CNetAddr) : Bool :=
  s.valid && addr.isValid && (List.range 16).all fun x =>
    addr.getByte x &&& s.netmask.getD (15-x) 0 == s.network.getByte x

end CSubNet

namespace CNetAddr

/-- The byte at a position of the address, in network order. -/
def byteAt (a : CNetAddr) (j : Nat) : UInt8 := a.ip.getD j 0

/-- The bit at a position of the 128 bits, in network order. -/
def bitAt (a : CNetAddr) (k : Nat) : Bool := (a.byteAt (k/8)).toNat.testBit (7-k%8)

/-- The addresses have their first `n` bits in common; those of IPv4 addresses are counted from
the start of the four bytes. -/
def SamePrefix (n : Nat) (a b : CNetAddr) : Prop :=
  ∀ k < n, a.bitAt (CSubNet.noffset a+k) = b.bitAt (CSubNet.noffset b+k)

end CNetAddr

/-- The subnet is valid, and among the valid addresses of the family it matches those with the
prefix. -/
def CSubNet.PrefixMatching (s : CSubNet) (a : CNetAddr) (n : Nat) : Prop :=
  s.valid = true ∧ ∀ b : CNetAddr, b.isValid = true → b.isIPv4 = a.isIPv4 →
    (s.matchAddr b = true ↔ CNetAddr.SamePrefix n a b)

section Mask
open CSubNet

theorem testBit_clear (byte : UInt8) {r i : Nat} (hr : r < 8) (hi : i < 8) :
    (byte &&& ~~~(1 <<< UInt8.ofNat r)).toNat.testBit i = (byte.toNat.testBit i && decide (i ≠ r)) := by
  have hone : (~~~(1 <<< UInt8.ofNat r) : UInt8).toNat.testBit i = decide (i ≠ r) := by
    interval_cases r <;> interval_cases i <;> rfl
  rw [UInt8.toNat_and,Nat.testBit_and,hone]

theorem testBit_clearBit (netmask : List UInt8) (n j : Nat) {i : Nat} (hi : i < 8) :
    ((clearBit netmask n).getD j 0).toNat.testBit i =
      ((netmask.getD j 0).toNat.testBit i && decide (8*j+i ≠ n)) := by
  unfold clearBit
  rw [List.getD_eq_getElem?_getD,List.getD_eq_getElem?_getD,List.getElem?_modify]
  cases netmask[j]? with
  | none => simp
  | some byte =>
    simp only [Option.map_eq_map,Option.map_some,Option.getD_some]
    by_cases hj : n/8 = j
    · rw [if_pos hj,testBit_clear byte (Nat.mod_lt n (by decide)) hi]
      congr 1
      apply decide_eq_decide.mpr
      omega
    · have hne : 8*j+i ≠ n := by omega
      rw [if_neg hj,decide_eq_true hne,Bool.and_true]

/-- The loop clears the bits it visits and no others. -/
theorem testBit_foldl_clearBit (l : List Nat) (netmask : List UInt8) (j : Nat) {i : Nat}
    (hi : i < 8) : ((l.foldl clearBit netmask).getD j 0).toNat.testBit i =
      ((netmask.getD j 0).toNat.testBit i && decide (8*j+i ∉ l)) := by
  induction l generalizing netmask with
  | nil => simp
  | cons n l ih =>
    rw [List.foldl_cons,ih,testBit_clearBit netmask n j hi,Bool.and_assoc]
    congr 1
    simp [List.mem_cons,Bool.decide_and,not_or]

/-- In each byte the bits are counted from the low end. -/
theorem testBit_mask (n : Nat) {j i : Nat} (hj : j < 16) (hi : i < 8) :
    ((clearFrom (List.replicate 16 255) n).getD j 0).toNat.testBit i = decide (8*j+i < n) := by
  have hones : ((List.replicate 16 (255 : UInt8)).getD j 0).toNat.testBit i = true := by
    rw [List.getD_eq_getElem?_getD,List.getElem?_replicate,if_pos hj]
    interval_cases i <;> rfl
  unfold clearFrom
  rw [testBit_foldl_clearBit _ _ j hi,hones,Bool.true_and]
  apply decide_eq_decide.mpr
  rw [List.mem_range'_1]
  omega

end Mask

section Bits
variable {a b : CNetAddr}

theorem byte_eq_iff {x y : UInt8} :
    x = y ↔ ∀ i < 8, x.toNat.testBit i = y.toNat.testBit i := by
  constructor
  · rintro rfl i -
    rfl
  · intro h
    apply UInt8.toNat_inj.mp
    apply Nat.eq_of_testBit_eq
    intro i
    by_cases hi : i < 8
    · exact h i hi
    · have hx : x.toNat < 2^i := x.toNat_lt.trans_le (Nat.pow_le_pow_right (by decide) (by omega))
      have hy : y.toNat < 2^i := y.toNat_lt.trans_le (Nat.pow_le_pow_right (by decide) (by omega))
      rw [Nat.testBit_lt_two_pow hx,Nat.testBit_lt_two_pow hy]

/-- What `Match` tests, bit by bit. -/
theorem matchAddr_iff {n : Nat} (hb : b.isValid = true) :
    CSubNet.matchAddr ⟨a,CSubNet.clearFrom (List.replicate 16 255) n,true⟩ b = true ↔
      ∀ j < 16, ∀ i < 8, (a.byteAt j).toNat.testBit i =
        ((b.byteAt j).toNat.testBit i && decide (8*j+i < n)) := by
  unfold CSubNet.matchAddr
  simp only [hb,Bool.true_and,List.all_eq_true,List.mem_range,beq_iff_eq]
  constructor
  · intro h j hj i hi
    have hbyte := h (15-j) (by omega)
    rw [show 15-(15-j) = j by omega] at hbyte
    unfold CNetAddr.getByte at hbyte
    rw [show 15-(15-j) = j by omega] at hbyte
    have hbit := byte_eq_iff.mp hbyte i hi
    rw [UInt8.toNat_and,Nat.testBit_and,testBit_mask n hj hi] at hbit
    exact hbit.symm
  · intro h x hx
    apply byte_eq_iff.mpr
    intro i hi
    rw [UInt8.toNat_and,Nat.testBit_and,testBit_mask n (by omega) hi]
    exact (h (15-x) (by omega) i hi).symm

/-- The addresses have their first bytes in common. -/
def CNetAddr.AgreeBelow (q : Nat) (a b : CNetAddr) : Prop := ∀ j < q, a.byteAt j = b.byteAt j

/-- A mask that ends within byte `q` keeps the low bits of that byte, and wants zero bytes after
it. -/
theorem matchAddr_bytes {q r : Nat} (hq : q < 16) (hr : r < 8) (hb : b.isValid = true) :
    CSubNet.matchAddr ⟨a,CSubNet.clearFrom (List.replicate 16 255) (8*q+r),true⟩ b = true ↔
      a.AgreeBelow q b ∧ (a.byteAt q).toNat = (b.byteAt q).toNat%2^r ∧
        ∀ j, q < j → j < 16 → a.byteAt j = 0 := by
  rw [matchAddr_iff hb]
  constructor
  · intro h
    refine ⟨fun j hj => byte_eq_iff.mpr fun i hi => ?_,?_,fun j hj hj' => byte_eq_iff.mpr fun i hi => ?_⟩
    · rw [h j (by omega) i hi,decide_eq_true (by omega),Bool.and_true]
    · apply Nat.eq_of_testBit_eq
      intro i
      rw [Nat.testBit_mod_two_pow]
      by_cases hi : i < 8
      · rw [h q hq i hi,Bool.and_comm]
        congr 1
        apply decide_eq_decide.mpr
        omega
      · have hlt : (a.byteAt q).toNat < 2^i :=
          (a.byteAt q).toNat_lt.trans_le (Nat.pow_le_pow_right (by decide) (by omega))
        rw [Nat.testBit_lt_two_pow hlt,decide_eq_false (by omega),Bool.false_and]
    · rw [h j hj' i hi,decide_eq_false (by omega),Bool.and_false]
      simp
  · rintro ⟨hbelow,hat,habove⟩ j hj i hi
    rcases Nat.lt_trichotomy j q with hlt | rfl | hgt
    · rw [hbelow j hlt,decide_eq_true (by omega),Bool.and_true]
    · rw [hat,Nat.testBit_mod_two_pow,Bool.and_comm]
      congr 1
      apply decide_eq_decide.mpr
      omega
    · rw [habove j hgt hj,decide_eq_false (by omega),Bool.and_false]
      simp

/-- A prefix that ends within byte `q` fixes the high bits of that byte. -/
theorem bits_eq_iff {q r : Nat} (hr : r < 8) :
    (∀ k < 8*q+r, a.bitAt k = b.bitAt k) ↔
      a.AgreeBelow q b ∧ (a.byteAt q).toNat/2^(8-r) = (b.byteAt q).toNat/2^(8-r) := by
  unfold CNetAddr.bitAt
  constructor
  · intro h
    refine ⟨fun j hj => byte_eq_iff.mpr fun i hi => ?_,Nat.eq_of_testBit_eq fun i => ?_⟩
    · have hbit := h (8*j+(7-i)) (by omega)
      rwa [show (8*j+(7-i))/8 = j by omega,show 7-(8*j+(7-i))%8 = i by omega] at hbit
    · rw [Nat.testBit_div_two_pow,Nat.testBit_div_two_pow]
      by_cases hi : i < r
      · have hbit := h (8*q+(r-1-i)) (by omega)
        rwa [show (8*q+(r-1-i))/8 = q by omega,
          show 7-(8*q+(r-1-i))%8 = i+(8-r) by omega] at hbit
      · have hpow : 2^8 ≤ 2^(i+(8-r)) := Nat.pow_le_pow_right (by decide) (by omega)
        rw [Nat.testBit_lt_two_pow ((a.byteAt q).toNat_lt.trans_le hpow),
          Nat.testBit_lt_two_pow ((b.byteAt q).toNat_lt.trans_le hpow)]
  · rintro ⟨hbelow,hat⟩ k hk
    by_cases hlow : k/8 < q
    · rw [hbelow _ hlow]
    · have hkq : k/8 = q := by omega
      have hbit := congrArg (fun x => Nat.testBit x (7-k%8-(8-r))) hat
      simp only [Nat.testBit_div_two_pow] at hbit
      rwa [show 7-k%8-(8-r)+(8-r) = 7-k%8 by omega,← hkq] at hbit

/-- Two neighbours have the same high bits, and not both have given low bits. -/
theorem exists_neighbours {r x : Nat} (hr : 0 < r) (hr' : r < 8) (hx : x < 256) :
    ∃ v, v+1 < 256 ∧ v/2^(8-r) = x/2^(8-r) ∧ (v+1)/2^(8-r) = x/2^(8-r) ∧
      v%2^r ≠ (v+1)%2^r := by
  refine ⟨x/2^(8-r)*2^(8-r),?_⟩
  interval_cases r <;> simp only [Nat.reduceSub,Nat.reducePow] <;> omega

/-- The high bit does not count among the low bits. -/
theorem exists_low {r x : Nat} (hr : 0 < r) (hr' : r < 8) (hx : x < 2^r) :
    ∃ v < 256, v%2^r = x ∧ v/2^(8-r) ≠ x/2^(8-r) := by
  refine ⟨(x+128)%256,?_⟩
  interval_cases r <;> simp only [Nat.reduceSub,Nat.reducePow] at * <;> omega

/-- Two bytes tell the two readings of a prefix apart, so that one that is missing does not
hide the difference. -/
theorem exists_distinguishing {r x : Nat} (hr : r < 8) (hx : x < 256) {tail : Prop}
    (h : ¬(r = 0 ∧ x = 0 ∧ tail)) (e : Nat) :
    ∃ v < 256, v ≠ e ∧ ¬((x = v%2^r ∧ tail) ↔ x/2^(8-r) = v/2^(8-r)) := by
  by_cases hzero : r = 0
  · subst hzero
    have hnot : ¬(x = 0 ∧ tail) := fun h' => h ⟨rfl,h'⟩
    obtain ⟨v,hv,hne⟩ : ∃ v < 256, v ≠ e := by
      by_cases he : e = 0
      · exact ⟨1,by decide,by omega⟩
      · exact ⟨0,by decide,by omega⟩
    refine ⟨v,hv,hne,fun hiff => hnot ?_⟩
    have hmatch := hiff.mpr (by omega)
    exact ⟨by omega,hmatch.2⟩
  · have hpos : 0 < r := Nat.pos_of_ne_zero hzero
    obtain ⟨v,hv,hhigh,hhigh',hlow⟩ := exists_neighbours hpos hr hx
    by_cases hmatch : x < 2^r ∧ tail
    · obtain ⟨w,hw,hwlow,hwhigh⟩ := exists_low hpos hr hmatch.1
      have hwrong : ¬((x = w%2^r ∧ tail) ↔ x/2^(8-r) = w/2^(8-r)) := fun hiff =>
        hwhigh (hiff.mp ⟨hwlow.symm,hmatch.2⟩).symm
      by_cases hwe : w = e
      · by_cases hvlow : v%2^r = x
        · refine ⟨v+1,hv,fun he => hwhigh ?_,fun hiff => hlow ?_⟩
          · rw [hwe,← he,hhigh']
          · rw [hvlow]
            exact (hiff.mpr hhigh'.symm).1
        · refine ⟨v,by omega,fun he => hwhigh ?_,fun hiff => hvlow ?_⟩
          · rw [hwe,← he,hhigh]
          · exact (hiff.mpr hhigh.symm).1.symm
      · exact ⟨w,hw,hwe,hwrong⟩
    · have hnever : ∀ v, ¬(x = v%2^r ∧ tail) := fun v h' =>
        hmatch ⟨h'.1 ▸ Nat.mod_lt v (Nat.two_pow_pos r),h'.2⟩
      by_cases hve : v = e
      · exact ⟨v+1,hv,by omega,fun hiff => hnever _ (hiff.mpr hhigh'.symm)⟩
      · exact ⟨v,by omega,hve,fun hiff => hnever _ (hiff.mpr hhigh.symm)⟩

end Bits

section Valid
variable {a b : CNetAddr}

theorem startsWith_iff {pch : List UInt8} (h : pch.length ≤ 16) :
    a.startsWith pch = true ↔ ∀ j < pch.length, a.byteAt j = pch.getD j 0 := by
  unfold CNetAddr.startsWith CNetAddr.byteAt
  rw [beq_iff_eq]
  constructor
  · intro heq j hj
    rw [← heq]
    simp only [List.getD_eq_getElem?_getD,List.getElem?_take,if_pos hj]
  · intro hall
    apply List.ext_getElem?
    intro j
    by_cases hj : j < pch.length
    · have hbyte := hall j hj
      have hlen : j < a.ip.length := by rw [a.ip_length]; omega
      rw [List.getElem?_take,if_pos hj]
      simp only [List.getD_eq_getElem?_getD,List.getElem?_eq_getElem hlen,
        List.getElem?_eq_getElem hj,Option.getD_some] at hbyte ⊢
      rw [hbyte]
    · rw [List.getElem?_eq_none (by simp; omega),List.getElem?_eq_none (by omega)]

theorem isIPv4_iff : a.isIPv4 = true ↔ ∀ j < 12, a.byteAt j = pchIPv4.getD j 0 :=
  startsWith_iff (by decide)

/-- The ranges without valid addresses that an address with a destination is not in anyway. -/
structure Excluded (a : CNetAddr) : Prop where
  shifted : ¬∀ j < 9, a.byteAt j = (pchIPv4.drop 3).getD j 0
  documentation : ¬∀ j < 4, a.byteAt j = [0x20,0x01,0x0D,0xB8].getD j 0

theorem isRFC3849_iff :
    a.isRFC3849 = true ↔ ∀ j < 4, a.byteAt j = [0x20,0x01,0x0D,0xB8].getD j 0 := by
  unfold CNetAddr.isRFC3849
  simp only [Bool.and_eq_true,beq_iff_eq]
  constructor
  · rintro ⟨⟨⟨h0,h1⟩,h2⟩,h3⟩ j hj
    interval_cases j
    · exact h0
    · exact h1
    · exact h2
    · exact h3
  · intro h
    exact ⟨⟨⟨h 0 (by decide),h 1 (by decide)⟩,h 2 (by decide)⟩,h 3 (by decide)⟩

theorem isI2P_byte (h : a.isI2P = true) : a.byteAt 0 = 0xFD :=
  (startsWith_iff (by decide)).mp h 0 (by decide)

theorem excluded_of_isValid (h : a.isValid = true) : Excluded a := by
  unfold CNetAddr.isValid at h
  by_cases hi2p : a.isI2P = true
  · have hbyte := isI2P_byte hi2p
    constructor
    · intro hall
      rw [hall 0 (by decide)] at hbyte
      exact absurd hbyte (by decide)
    · intro hall
      rw [hall 0 (by decide)] at hbyte
      exact absurd hbyte (by decide)
  · rw [if_neg hi2p] at h
    constructor
    · intro hall
      have hs : a.startsWith (pchIPv4.drop 3) = true := (startsWith_iff (by decide)).mpr hall
      rw [if_pos hs] at h
      contradiction
    · intro hall
      rw [if_pos (isRFC3849_iff.mpr hall)] at h
      split_ifs at h

/-- The last bytes that an IPv4 address may not have, and no address may have as its last with
zeros before it. -/
theorem isValid_of_excluded (h : Excluded a) (hnative : a.isNativeI2P = true)
    (hzero : ¬(a.byteAt 14 = 0 ∧ a.byteAt 15 = 0))
    (hones : ¬(a.byteAt 14 = 0xff ∧ a.byteAt 15 = 0xff)) : a.isValid = true := by
  have hshifted : ¬a.startsWith (pchIPv4.drop 3) = true := fun hs =>
    h.shifted ((startsWith_iff (by decide)).mp hs)
  have hdoc : ¬a.isRFC3849 = true := fun hs => h.documentation (isRFC3849_iff.mp hs)
  have hall : ¬(a.ip == List.replicate 16 0) = true := by
    intro hs
    rw [beq_iff_eq] at hs
    apply hzero
    unfold CNetAddr.byteAt
    rw [hs]
    decide
  have hlast : ∀ x : UInt8, a.ip.drop 12 = [x,x,x,x] → a.byteAt 14 = x ∧ a.byteAt 15 = x := by
    intro x hx
    have h14 : (a.ip.drop 12)[2]? = some x := by rw [hx]; rfl
    have h15 : (a.ip.drop 12)[3]? = some x := by rw [hx]; rfl
    rw [List.getElem?_drop] at h14 h15
    unfold CNetAddr.byteAt
    rw [List.getD_eq_getElem?_getD,List.getD_eq_getElem?_getD,h14,h15]
    exact ⟨rfl,rfl⟩
  unfold CNetAddr.isValid
  rw [if_neg hshifted,if_neg hall,if_neg hdoc,hnative]
  have hend : ¬(a.isIPv4 && (a.ip.drop 12 == [0xff,0xff,0xff,0xff] ||
      a.ip.drop 12 == [0,0,0,0])) = true := by
    simp only [Bool.and_eq_true,Bool.or_eq_true,beq_iff_eq]
    rintro ⟨-,hff | h00⟩
    · exact hones (hlast _ hff)
    · exact hzero (hlast _ h00)
  rw [if_neg hend]
  split <;> rfl

/-- The address with the same first bytes, a given byte after them, and then ones; it has a
destination, for when it is the address of one. -/
def CNetAddr.fill (a : CNetAddr) (q : Nat) (hq : q < 16) (v : UInt8) : CNetAddr where
  ip := a.ip.take q ++ v :: List.replicate (15-q) 1
  i2pDest := 1 :: (List.replicate 511 0 ++ [65,65,65,65])
  ip_length := by
    rw [List.length_append,List.length_take,List.length_cons,List.length_replicate,a.ip_length]
    omega
  dest_length := by
    rw [List.length_cons,List.length_append,List.length_replicate]
    rfl

theorem fill_native {q : Nat} {hq : q < 16} {v : UInt8} : (a.fill q hq v).isNativeI2P = true := by
  unfold CNetAddr.isNativeI2P CNetAddr.fill
  have hdrop : (1 :: (List.replicate 511 (0 : UInt8) ++ [65,65,65,65])).drop
      (I2P_DESTINATION_STORE-4) = [65,65,65,65] := by
    rw [show I2P_DESTINATION_STORE-4 = 511+1 from rfl,List.drop_succ_cons,
      List.drop_left' List.length_replicate]
  simp only [hdrop]
  decide

theorem byteAt_fill {q : Nat} {hq : q < 16} {v : UInt8} {j : Nat} (hj : j < 16) :
    (a.fill q hq v).byteAt j = if j < q then a.byteAt j else if j = q then v else 1 := by
  have hlen : (a.ip.take q).length = q := by
    rw [List.length_take,a.ip_length]
    omega
  unfold CNetAddr.byteAt CNetAddr.fill
  rw [List.getD_eq_getElem?_getD,List.getD_eq_getElem?_getD]
  split
  · rename_i hlt
    rw [List.getElem?_append_left (by omega),List.getElem?_take,if_pos hlt]
  · rename_i hge
    rw [List.getElem?_append_right (by omega),hlen]
    split
    · rename_i heq
      subst heq
      rw [Nat.sub_self]
      rfl
    · rename_i hne
      obtain ⟨d,hd⟩ : ∃ d, j-q = d+1 := ⟨j-q-1,by omega⟩
      rw [hd,List.getElem?_cons_succ,List.getElem?_replicate,if_pos (by omega)]
      rfl

/-- The one byte that, at the end of the kept bytes, may lead into a range without valid
addresses or into the other family. -/
def CNetAddr.missing (a : CNetAddr) (q : Nat) : UInt8 :=
  if q = 3 then 0xB8
  else if q = 8 ∨ q = 11 then 0xff
  else if a.byteAt 14 = 0xff then 0xff
  else 0

/-- A range that ends with another byte than one: the filled address is in it only if the kept
bytes reach its end, or lack just the last byte. -/
theorem fill_pattern {q : Nat} {hq : q < 16} {v : UInt8} {pattern : Nat → UInt8} {last : Nat}
    (hlast : last < 16) (hne : pattern last ≠ 1)
    (h : ∀ j < last+1, (a.fill q hq v).byteAt j = pattern j) :
    (last < q ∧ ∀ j < last+1, a.byteAt j = pattern j) ∨ (q = last ∧ v = pattern last) := by
  have hend := h last (by omega)
  rw [byteAt_fill hlast] at hend
  rcases Nat.lt_trichotomy last q with hlt | heq | hgt
  · left
    refine ⟨hlt,fun j hj => ?_⟩
    have hbyte := h j hj
    rwa [byteAt_fill (by omega),if_pos (by omega)] at hbyte
  · right
    rw [if_neg (by omega),if_pos heq] at hend
    exact ⟨heq.symm,hend⟩
  · rw [if_neg (by omega),if_neg (by omega)] at hend
    exact absurd hend.symm hne

/-- Where some valid address of the family has the kept bytes, there is one for each byte that may
follow, but for one. -/
theorem fill_valid {q : Nat} (hq : q < 16) (hipv4 : a.isIPv4 = true → 12 ≤ q)
    (hb : b.isValid = true) (hagree : a.AgreeBelow q b) {v : UInt8} (hv : v ≠ a.missing q) :
    (a.fill q hq v).isValid = true ∧ (a.fill q hq v).isIPv4 = a.isIPv4 := by
  obtain ⟨hshifted,hdoc⟩ := excluded_of_isValid hb
  have hexcluded : Excluded (a.fill q hq v) := by
    constructor
    · intro hall
      rcases fill_pattern (by decide) (by decide) hall with ⟨hlt,hbytes⟩ | ⟨rfl,rfl⟩
      · exact hshifted fun j hj => (hagree j (by omega)).symm.trans (hbytes j hj)
      · exact hv rfl
    · intro hall
      rcases fill_pattern (by decide) (by decide) hall with ⟨hlt,hbytes⟩ | ⟨rfl,rfl⟩
      · exact hdoc fun j hj => (hagree j (by omega)).symm.trans (hbytes j hj)
      · exact hv rfl
  have hend : ∀ x : UInt8, x = 0 ∨ x = 0xff →
      ¬((a.fill q hq v).byteAt 14 = x ∧ (a.fill q hq v).byteAt 15 = x) := by
    rintro x hx ⟨h14,h15⟩
    rw [byteAt_fill (by decide)] at h14 h15
    by_cases hlast : q = 15
    · subst hlast
      rw [if_pos (by decide)] at h14
      rw [if_neg (by decide),if_pos rfl] at h15
      apply hv
      rw [h15,CNetAddr.missing,h14]
      rcases hx with rfl | rfl <;> decide
    · rw [if_neg (by omega),if_neg (by omega)] at h15
      rcases hx with rfl | rfl <;> exact absurd h15 (by decide)
  refine ⟨isValid_of_excluded hexcluded fill_native (hend 0 (.inl rfl)) (hend 0xff (.inr rfl)),?_⟩
  rw [Bool.eq_iff_iff,isIPv4_iff]
  constructor
  · intro hall
    rcases fill_pattern (by decide) (by decide) hall with ⟨-,hbytes⟩ | ⟨rfl,rfl⟩
    · exact isIPv4_iff.mpr hbytes
    · exact absurd rfl hv
  · intro ha j hj
    rw [byteAt_fill (by omega),if_pos (by have := hipv4 ha; omega)]
    exact isIPv4_iff.mp ha j hj

end Valid

section Prefix
variable {a b : CNetAddr} {n : Nat}

theorem samePrefix_iff (h : b.isIPv4 = a.isIPv4) :
    CNetAddr.SamePrefix n a b ↔ ∀ k < CSubNet.noffset a+n, a.bitAt k = b.bitAt k := by
  have hoffset : CSubNet.noffset b = CSubNet.noffset a := by
    unfold CSubNet.noffset
    rw [h]
  unfold CNetAddr.SamePrefix
  rw [hoffset]
  constructor
  · intro hall k hk
    by_cases hlow : k < CSubNet.noffset a
    · unfold CSubNet.noffset at hlow
      split at hlow
      · rename_i ha
        unfold CNetAddr.bitAt
        rw [isIPv4_iff.mp ha (k/8) (by omega),isIPv4_iff.mp (h.trans ha) (k/8) (by omega)]
      · omega
    · have hbit := hall (k-CSubNet.noffset a) (by omega)
      rwa [show CSubNet.noffset a+(k-CSubNet.noffset a) = k by omega] at hbit
  · intro hall k hk
    exact hall _ (by omega)

/-- The length is a number of whole bytes, and the address is zero from there on. -/
def CNetAddr.Aligned (a : CNetAddr) (n : Nat) : Prop :=
  n%8 = 0 ∧ ∀ k, CSubNet.noffset a+n ≤ k → k < 128 → a.bitAt k = false

/-- Valid addresses of the family have the whole bytes of the prefix. -/
def CNetAddr.Inhabited (a : CNetAddr) (n : Nat) : Prop :=
  ∃ b : CNetAddr, b.isValid = true ∧ b.isIPv4 = a.isIPv4 ∧ CNetAddr.SamePrefix (8*(n/8)) a b

theorem noffset_cases (a : CNetAddr) :
    (a.isIPv4 = true ∧ CSubNet.noffset a = 8*12) ∨ (a.isIPv4 = false ∧ CSubNet.noffset a = 8*0) := by
  unfold CSubNet.noffset
  cases a.isIPv4 <;> simp

/-- Prefixes of whole bytes. -/
theorem samePrefix_bytes (h : b.isIPv4 = a.isIPv4) :
    CNetAddr.SamePrefix (8*(n/8)) a b ↔ a.AgreeBelow ((CSubNet.noffset a+n)/8) b := by
  have hoffset : CSubNet.noffset a+8*(n/8) = 8*((CSubNet.noffset a+n)/8)+0 := by
    rcases noffset_cases a with ⟨-,ho⟩ | ⟨-,ho⟩ <;> omega
  rw [samePrefix_iff h,hoffset,bits_eq_iff (by decide)]
  refine ⟨And.left,fun hagree => ⟨hagree,?_⟩⟩
  have ha := (a.byteAt ((CSubNet.noffset a+n)/8)).toNat_lt
  have hb := (b.byteAt ((CSubNet.noffset a+n)/8)).toNat_lt
  rw [Nat.div_eq_of_lt ha,Nat.div_eq_of_lt hb]

/-- Both readings of a prefix fix its whole bytes. -/
theorem agreeBelow_of_match {m : Nat} (hm : m ≤ 128) (hb : b.isValid = true)
    (h : CSubNet.matchAddr ⟨a,CSubNet.clearFrom (List.replicate 16 255) m,true⟩ b = true) :
    a.AgreeBelow (m/8) b := by
  intro j hj
  apply byte_eq_iff.mpr
  intro i hi
  rw [(matchAddr_iff hb).mp h j (by omega) i hi,decide_eq_true (by omega),Bool.and_true]

theorem aligned_bytes (h : a.Aligned n) {j : Nat} (hj : CSubNet.noffset a+n ≤ 8*j) (hj' : j < 16) :
    a.byteAt j = 0 := by
  apply byte_eq_iff.mpr
  intro i hi
  have hbit := h.2 (8*j+(7-i)) (by omega) (by omega)
  unfold CNetAddr.bitAt at hbit
  rw [show (8*j+(7-i))/8 = j by omega,show 7-(8*j+(7-i))%8 = i by omega] at hbit
  rw [hbit]
  simp

/-- With zeros after whole bytes the two readings agree. -/
theorem matchAddr_of_aligned (h : a.Aligned n) (hn : CSubNet.noffset a+n ≤ 128)
    (hb : b.isValid = true) :
    CSubNet.matchAddr ⟨a,CSubNet.clearFrom (List.replicate 16 255) (CSubNet.noffset a+n),true⟩ b =
      true ↔ a.AgreeBelow ((CSubNet.noffset a+n)/8) b := by
  refine ⟨agreeBelow_of_match hn hb,fun hagree => (matchAddr_iff hb).mpr fun j hj i hi => ?_⟩
  have hwhole : (CSubNet.noffset a+n)%8 = 0 := by
    have hmod := h.1
    rcases noffset_cases a with ⟨-,ho⟩ | ⟨-,ho⟩ <;> omega
  by_cases hlow : j < (CSubNet.noffset a+n)/8
  · rw [hagree j hlow,decide_eq_true (by omega),Bool.and_true]
  · rw [aligned_bytes h (by omega) hj,decide_eq_false (by omega),Bool.and_false]
    simp

theorem aligned_of_bytes (hn : n%8 = 0)
    (h : ∀ j, (CSubNet.noffset a+n)/8 ≤ j → j < 16 → a.byteAt j = 0) : a.Aligned n := by
  refine ⟨hn,fun k hk hk' => ?_⟩
  unfold CNetAddr.bitAt
  rw [h (k/8) (by omega) (by omega)]
  simp

/-- A subnet of a given length matches by prefix exactly if the length is a number of whole bytes
and the address is zero after them, or no valid address could match. -/
theorem clearFrom_prefixMatching_iff (a : CNetAddr) (n : Nat) (hn : CSubNet.noffset a+n ≤ 128) :
    CSubNet.PrefixMatching
        ⟨a,CSubNet.clearFrom (List.replicate 16 255) (CSubNet.noffset a+n),true⟩ a n ↔
      a.Aligned n ∨ ¬a.Inhabited n := by
  constructor
  · rintro ⟨-,hall⟩
    by_contra hnot
    obtain ⟨hmisaligned,hinhabited⟩ := not_or.mp hnot
    obtain ⟨b,hb,hfamily,hsame⟩ := not_not.mp hinhabited
    have hagree := (samePrefix_bytes hfamily).mp hsame
    have hmod : (CSubNet.noffset a+n)%8 = n%8 := by
      rcases noffset_cases a with ⟨-,ho⟩ | ⟨-,ho⟩ <;> omega
    have hq : (CSubNet.noffset a+n)/8 < 16 := by
      by_contra hfull
      exact hmisaligned (aligned_of_bytes (by omega) fun j hj hj' => by omega)
    have hipv4 : a.isIPv4 = true → 12 ≤ (CSubNet.noffset a+n)/8 := by
      intro ha
      rcases noffset_cases a with ⟨-,ho⟩ | ⟨hno,-⟩
      · omega
      · rw [ha] at hno
        contradiction
    have hsum : CSubNet.noffset a+n = 8*((CSubNet.noffset a+n)/8)+n%8 := by omega
    generalize hqdef : (CSubNet.noffset a+n)/8 = q at *
    have hread : ¬(n%8 = 0 ∧ (a.byteAt q).toNat = 0 ∧ ∀ j, q < j → j < 16 → a.byteAt j = 0) := by
      rintro ⟨hzero,hbyte,htail⟩
      refine hmisaligned (aligned_of_bytes hzero fun j hj hj' => ?_)
      rw [hqdef] at hj
      rcases hj.eq_or_lt with rfl | hlt
      · exact UInt8.toNat_inj.mp hbyte
      · exact htail j hlt hj'
    obtain ⟨v,hv,hne,hdiffers⟩ := exists_distinguishing (Nat.mod_lt n (by decide))
      (a.byteAt q).toNat_lt hread (a.missing q).toNat
    have hbyte : (UInt8.ofNat v).toNat = v := by
      rw [UInt8.toNat_ofNat']
      exact Nat.mod_eq_of_lt hv
    have hvne : UInt8.ofNat v ≠ a.missing q := by
      intro he
      rw [← he,hbyte] at hne
      exact hne rfl
    obtain ⟨hvalid,hsamefamily⟩ := fill_valid hq hipv4 hb hagree hvne
    have hkept : a.AgreeBelow q (a.fill q hq (UInt8.ofNat v)) := by
      intro j hj
      rw [byteAt_fill (by omega),if_pos hj]
    have hat : ((a.fill q hq (UInt8.ofNat v)).byteAt q).toNat = v := by
      rw [byteAt_fill hq,if_neg (by omega),if_pos rfl,hbyte]
    apply hdiffers
    have hiff := hall _ hvalid hsamefamily
    rw [samePrefix_iff hsamefamily,hsum,bits_eq_iff (Nat.mod_lt n (by decide)),
      matchAddr_bytes hq (Nat.mod_lt n (by decide)) hvalid,hat] at hiff
    constructor
    · intro hmatch
      exact (hiff.mp ⟨hkept,hmatch⟩).2
    · intro hhigh
      exact (hiff.mpr ⟨hkept,hhigh⟩).2
  · intro hcases
    refine ⟨rfl,fun b hb hfamily => ?_⟩
    rcases hcases with haligned | hnone
    · have hwhole : n = 8*(n/8) := by
        have hmod := haligned.1
        omega
      rw [matchAddr_of_aligned haligned hn hb,← samePrefix_bytes hfamily,← hwhole]
    · constructor
      · intro hmatch
        exact absurd ⟨b,hb,hfamily,
          (samePrefix_bytes hfamily).mpr (agreeBelow_of_match hn hb hmatch)⟩ hnone
      · intro hsame
        exact absurd ⟨b,hb,hfamily,fun k hk => hsame k (by omega)⟩ hnone

end Prefix

section Text

/-- A number has no slash. -/
theorem slash_not_mem {str : List Char} {n : Int} (h : parseInt32 str = some n) : '/' ∉ str := by
  intro hmem
  unfold parseInt32 at h
  simp only at h
  split_ifs at h with hcond
  have hrest : (strtol str).2 = [] := List.isEmpty_iff.mp hcond.1
  rcases strtol_rest str with hall | hdigits
  · rw [← hall,hrest] at hmem
    exact List.not_mem_nil hmem
  · rw [hrest] at hdigits
    rcases mem_dropWhile_or (p := isSpace) hmem with hspace | hmem
    · exact absurd hspace (by decide)
    · rcases readSign_mem hmem with hminus | hplus | hmem
      · exact absurd hminus (by decide)
      · exact absurd hplus (by decide)
      · rcases mem_dropWhile_or (p := Char.isDigit) hmem with hdigit | hmem
        · exact absurd hdigit (by decide)
        · rw [← hdigits] at hmem
          exact List.not_mem_nil hmem

theorem splitAtSlash_eq_none {str : List Char} (h : '/' ∉ str) : splitAtSlash str = none := by
  induction str with
  | nil => rfl
  | cons c rest ih =>
    obtain ⟨hne,hrest⟩ := not_or.mp (mt List.mem_cons.mpr h)
    rw [splitAtSlash,ih hrest,if_neg fun hc => hne hc.symm]

theorem splitAtSlash_append (address : List Char) {netmask : List Char} (h : '/' ∉ netmask) :
    splitAtSlash (address ++ '/' :: netmask) = some (address,netmask) := by
  induction address with
  | nil =>
    rw [List.nil_append,splitAtSlash,splitAtSlash_eq_none h,if_pos rfl]
  | cons c rest ih =>
    rw [List.cons_append,splitAtSlash,ih]

/-- `CSubNet("a/n")`, for every text of the address and of the number: it matches by prefix
exactly if the number is one of whole bytes and the address is zero after them, or no valid
address could match. -/
theorem ofString_prefixMatching_iff {lookupHost : List Char → Bool → Option CNetAddr}
    {strAddress strLength : List Char} {fAllowLookup : Bool} {a : CNetAddr} {n : Nat}
    (ha : lookupHost strAddress fAllowLookup = some a) (hn : parseInt32 strLength = some (n : Int))
    (hrange : n ≤ 128-CSubNet.noffset a) :
    (CSubNet.ofString lookupHost (strAddress ++ '/' :: strLength) fAllowLookup).PrefixMatching a n ↔
      a.Aligned n ∨ ¬a.Inhabited n := by
  have hoffset : CSubNet.noffset a ≤ 128 := by
    rcases noffset_cases a with ⟨-,ho⟩ | ⟨-,ho⟩ <;> omega
  have hsubnet : CSubNet.ofString lookupHost (strAddress ++ '/' :: strLength) fAllowLookup =
      ⟨a,CSubNet.clearFrom (List.replicate 16 255) (CSubNet.noffset a+n),true⟩ := by
    unfold CSubNet.ofString
    rw [splitAtSlash_append strAddress (slash_not_mem hn)]
    simp only [Option.elim_some,Option.map_some,ha,hn]
    have haccepts : 0 ≤ (n : Int) ∧ (n : Int) ≤ 128-CSubNet.noffset a := by omega
    rw [if_pos haccepts,show ((n : Int)+CSubNet.noffset a).toNat = CSubNet.noffset a+n by omega]
  rw [hsubnet]
  exact clearFrom_prefixMatching_iff a n (by omega)

end Text

/-- An IPv4 address. -/
def ipv4 (a b c d : UInt8) : CNetAddr where
  ip := pchIPv4 ++ [a,b,c,d]
  i2pDest := List.replicate I2P_DESTINATION_STORE 0
  ip_length := rfl
  dest_length := CNetAddr.noDestination_length

/-- What the resolver says about two numeric addresses. -/
def numericHost (name : List Char) (_ : Bool) : Option CNetAddr :=
  if name = "1.2.3.0".toList then some (ipv4 1 2 3 0)
  else if name = "172.16.0.0".toList then some (ipv4 172 16 0 0)
  else none

theorem slash24_prefixMatching :
    (CSubNet.ofString numericHost "1.2.3.0/24".toList false).PrefixMatching (ipv4 1 2 3 0) 24 := by
  refine (@ofString_prefixMatching_iff numericHost "1.2.3.0".toList "24".toList false (ipv4 1 2 3 0)
    24 (by decide +kernel) (by decide +kernel) (by decide +kernel)).mpr (.inl ⟨by decide,?_⟩)
  intro k hk hk'
  have hlow : 120 ≤ k := hk
  interval_cases k <;> decide +kernel

/-- A subnet with a length that is not one of whole bytes does not match its own network. -/
theorem slash12_matches_nothing : ¬∀ (lookupHost : List Char → Bool → Option CNetAddr)
    (strAddress strLength : List Char) (fAllowLookup : Bool) (a : CNetAddr) (n : Nat),
    lookupHost strAddress fAllowLookup = some a → parseInt32 strLength = some (n : Int) →
    n ≤ 128-CSubNet.noffset a →
    (CSubNet.ofString lookupHost (strAddress ++ '/' :: strLength) fAllowLookup).PrefixMatching
      a n := by
  intro h
  obtain ⟨-,hmatch⟩ := h numericHost "172.16.0.0".toList "12".toList false (ipv4 172 16 0 0) 12
    (by decide +kernel) (by decide +kernel) (by decide +kernel)
  have hself := (hmatch (ipv4 172 16 0 0) (by decide +kernel) rfl).mpr fun k _ => rfl
  exact absurd hself (by decide +kernel)

end Anoncoin
