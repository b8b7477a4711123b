import Mathlib.Data.Nat.Size
import Mathlib.Data.Nat.Bitwise
import Anoncoin.BlockIndex

/-!
`GetCompact` (uint256.cpp) and what `SetCompact` reads back from it: the number with all
but its leading bytes cleared.
-/

set_option autoImplicit false

namespace Anoncoin

/-- Mantissa and size of the compact form, before the bit for the sign is looked at. -/
def leadingBytes (x : Nat) : Nat × Nat :=
  let nSize := (Nat.size x+7)/8
  (if nSize ≤ 3 then x <<< (8*(3-nSize)) else x >>> (8*(nSize-3)),nSize)

/-- The bit 0x00800000 denotes the sign: where it is set, the mantissa gives up a byte. -/
def compactParts (x : Nat) : Nat × Nat :=
  let (nCompact,nSize) := leadingBytes x
  if nCompact &&& 0x00800000 ≠ 0 then (nCompact >>> 8,nSize+1) else (nCompact,nSize)

/-- `uint256::GetCompact`. -/
def getCompact (x : Uint256) : Uint32 :=
  let (nCompact,nSize) := compactParts x.toNat
  BitVec.ofNat 32 (nCompact ||| nSize <<< 24)

/-- The number that a mantissa and a size stand for. -/
def expand (nCompact nSize : Nat) : Nat :=
  if nSize ≤ 3 then nCompact >>> (8*(3-nSize)) else nCompact <<< (8*(nSize-3))

theorem leadingBytes_lt (x : Nat) : (leadingBytes x).1 < 2^24 := by
  have hx : x < 2^Nat.size x := Nat.lt_size_self x
  unfold leadingBytes
  simp only
  split
  · rename_i hsize
    have hpow : 2^Nat.size x ≤ 2^(8*((Nat.size x+7)/8)) :=
      Nat.pow_le_pow_right (by decide) (by omega)
    rw [Nat.shiftLeft_eq]
    calc x*2^(8*(3-(Nat.size x+7)/8))
        < 2^(8*((Nat.size x+7)/8))*2^(8*(3-(Nat.size x+7)/8)) :=
          Nat.mul_lt_mul_of_pos_right (by omega) (Nat.two_pow_pos _)
      _ = 2^24 := by rw [← pow_add]; congr 1; omega
  · rename_i hsize
    have hpow : 2^Nat.size x ≤ 2^(24+8*((Nat.size x+7)/8-3)) :=
      Nat.pow_le_pow_right (by decide) (by omega)
    rw [Nat.shiftRight_eq_div_pow]
    refine Nat.div_lt_of_lt_mul ?_
    rw [← pow_add,Nat.add_comm]
    omega

/-- A number other than zero has its first byte in the mantissa. -/
theorem le_leadingBytes {x : Nat} (h : 0 < x) : 2^16 ≤ (leadingBytes x).1 := by
  have hsize : 0 < Nat.size x := Nat.size_pos.mpr h
  have hx : 2^(Nat.size x-1) ≤ x := Nat.lt_size.mp (by omega)
  unfold leadingBytes
  simp only
  split
  · rename_i hle
    rw [Nat.shiftLeft_eq]
    calc 2^16 ≤ 2^(Nat.size x-1+8*(3-(Nat.size x+7)/8)) :=
          Nat.pow_le_pow_right (by decide) (by omega)
      _ = 2^(Nat.size x-1)*2^(8*(3-(Nat.size x+7)/8)) := by rw [pow_add]
      _ ≤ x*2^(8*(3-(Nat.size x+7)/8)) := Nat.mul_le_mul_right _ hx
  · rename_i hle
    rw [Nat.shiftRight_eq_div_pow,Nat.le_div_iff_mul_le (Nat.two_pow_pos _),← pow_add]
    refine Nat.le_trans (Nat.pow_le_pow_right (by decide) ?_) hx
    omega

theorem testBit_sign (m : Nat) : m &&& 0x00800000 ≠ 0 ↔ m.testBit 23 = true := by
  rw [show 0x00800000 = 2^23 from rfl,Nat.and_two_pow]
  cases m.testBit 23 <;> simp

theorem sign_clear {m : Nat} (hm : m < 2^24) : ¬m &&& 0x00800000 ≠ 0 ↔ m < 2^23 := by
  rw [testBit_sign,Nat.testBit_eq_decide_div_mod_eq,decide_eq_true_iff]
  omega

/-- What the compact form keeps of a number: mantissa and size are in range, the mantissa
has a leading byte, and the number they stand for is the number rounded down. -/
structure Rounded (x m e : Nat) : Prop where
  mantissa : m < 2^23
  size : e ≤ Nat.size x/8+2
  leading : 0 < x → 2^15 ≤ m
  exact : e ≤ 3 → expand m e = x
  lower : 3 < e → m*2^(8*(e-3)) ≤ x
  upper : 3 < e → x < (m+1)*2^(8*(e-3))

theorem div_mul_le_lt (x k : Nat) : x/2^k*2^k ≤ x ∧ x < (x/2^k+1)*2^k := by
  have hpos := Nat.two_pow_pos k
  refine ⟨Nat.div_mul_le_self x (2^k),?_⟩
  have h := Nat.lt_div_mul_add (a := x) hpos
  rw [Nat.add_mul,Nat.one_mul]
  exact h

theorem compactParts_eq (x : Nat) : compactParts x =
    if (leadingBytes x).1 &&& 0x00800000 ≠ 0 then ((leadingBytes x).1 >>> 8,(leadingBytes x).2+1)
    else ((leadingBytes x).1,(leadingBytes x).2) := rfl

theorem rounded_compactParts (x : Nat) : Rounded x (compactParts x).1 (compactParts x).2 := by
  have hlt := leadingBytes_lt x
  have hle : 0 < x → 2^16 ≤ (leadingBytes x).1 := le_leadingBytes
  have hsize : (leadingBytes x).2 = (Nat.size x+7)/8 := rfl
  have hshort : (leadingBytes x).2 ≤ 3 → (leadingBytes x).1 = x <<< (8*(3-(leadingBytes x).2)) :=
    fun h => if_pos h
  have hlong : ¬(leadingBytes x).2 ≤ 3 →
      (leadingBytes x).1 = x >>> (8*((leadingBytes x).2-3)) := fun h => if_neg h
  rw [compactParts_eq]
  generalize (leadingBytes x).1 = m at *
  generalize (leadingBytes x).2 = s at *
  split
  · rename_i hsign
    have hmod : m >>> 8 = m/2^8 := Nat.shiftRight_eq_div_pow m 8
    have hbig : ¬m < 2^23 := fun h => (sign_clear hlt).mpr h hsign
    have hdiv : 3 < s+1 → m >>> 8 = x/2^(8*(s+1-3)) := by
      intro hs
      have hm : m = x >>> (8*(s-3)) := by
        by_cases hle : s ≤ 3
        · rw [hshort hle,show s = 3 by omega,Nat.shiftLeft_zero,Nat.shiftRight_zero]
        · exact hlong hle
      rw [hm,← Nat.shiftRight_add,Nat.shiftRight_eq_div_pow]
      congr 2
      omega
    refine ⟨by simp only; omega,by simp only; omega,fun _ => by simp only; omega,fun he => ?_,
      fun he => ?_,fun he => ?_⟩
    · have hs : s ≤ 3 := by simp only at he; omega
      unfold expand
      rw [if_pos he,hshort hs]
      simp only
      rw [← Nat.shiftRight_add,show 8+8*(3-(s+1)) = 8*(3-s) by omega,Nat.shiftLeft_shiftRight]
    · rw [hdiv he]
      exact (div_mul_le_lt x _).1
    · rw [hdiv he]
      exact (div_mul_le_lt x _).2
  · rename_i hsign
    have hm : m < 2^23 := (sign_clear hlt).mp hsign
    refine ⟨hm,by simp only; omega,fun hx => ?_,fun he => ?_,fun he => ?_,fun he => ?_⟩
    · have := hle hx
      simp only
      omega
    · unfold expand
      rw [if_pos he,hshort he]
      simp only
      rw [Nat.shiftLeft_shiftRight]
    · rw [hlong (by simp only at he; omega),Nat.shiftRight_eq_div_pow]
      exact (div_mul_le_lt x _).1
    · rw [hlong (by simp only at he; omega),Nat.shiftRight_eq_div_pow]
      exact (div_mul_le_lt x _).2

theorem compact_toNat {m e : Nat} (hm : m < 2^23) (he : e < 2^8) :
    (BitVec.ofNat 32 (m ||| e <<< 24)).toNat = e*2^24+m := by
  rw [BitVec.toNat_ofNat,Nat.lor_comm,← Nat.shiftLeft_add_eq_or_of_lt (by omega),Nat.shiftLeft_eq]
  exact Nat.mod_eq_of_lt (by omega)

theorem sign_of_parts {m e : Nat} (hm : m < 2^23) : (e*2^24+m) &&& 2^23 = 0 := by
  rw [Nat.and_two_pow,Nat.testBit_eq_decide_div_mod_eq]
  have : decide ((e*2^24+m)/2^23%2 = 1) = false := decide_eq_false (by omega)
  rw [this]
  rfl

/-- `SetCompact` of a mantissa without the bit for the sign, and a size. -/
theorem setCompact_parts {m e : Nat} (hm : m < 2^23) (he : e < 2^8)
    (hfits : 3 < e → m*2^(8*(e-3)) < 2^256) :
    (setCompact (BitVec.ofNat 32 (m ||| e <<< 24))).fNegative = false ∧
    (setCompact (BitVec.ofNat 32 (m ||| e <<< 24))).fOverflow = false ∧
    (setCompact (BitVec.ofNat 32 (m ||| e <<< 24))).target.toNat = expand m e := by
  have hnat := compact_toNat hm he
  generalize BitVec.ofNat 32 (m ||| e <<< 24) = nCompact at *
  have hsize : (nCompact >>> 24).toNat = e := by
    rw [BitVec.toNat_ushiftRight,hnat,Nat.shiftRight_eq_div_pow]
    omega
  have hword : (nCompact &&& 0x007fffff).toNat = m := by
    rw [BitVec.toNat_and,hnat,show (0x007fffff : Uint32).toNat = 2^23-1 from rfl,
      Nat.and_two_pow_sub_one_eq_mod]
    omega
  have hsign : nCompact &&& 0x00800000 = 0 := by
    apply BitVec.eq_of_toNat_eq
    rw [BitVec.toNat_and,hnat]
    exact sign_of_parts hm
  have hlarge : ∀ k ≤ 256, k ≤ 8*(e-3) → m < 2^(256-k) := by
    intro k hk256 hk
    by_cases h3 : 3 < e
    · have hpow : 2^k ≤ 2^(8*(e-3)) := Nat.pow_le_pow_right (by decide) hk
      have hmul : m*2^k < 2^(256-k)*2^k := by
        rw [← pow_add,show 256-k+k = 256 by omega]
        exact Nat.lt_of_le_of_lt (Nat.mul_le_mul_left m hpow) (hfits h3)
      exact Nat.lt_of_mul_lt_mul_right hmul
    · rw [show k = 0 by omega]
      omega
  unfold setCompact expand
  simp only [hsize,hsign]
  refine ⟨by simp,?_,?_⟩
  · by_cases h3 : e ≤ 3
    · have h34 : ¬34 < e := by omega
      have h33 : ¬33 < e := by omega
      have h32 : ¬32 < e := by omega
      simp [h34,h33,h32]
    · have hne : nCompact &&& 0x007fffff ≠ 0 → 0 < m := by
        intro hne
        refine Nat.pos_of_ne_zero fun hzero => hne (BitVec.eq_of_toNat_eq ?_)
        rw [hword,hzero]
        rfl
      rw [if_neg h3,hword,Bool.eq_false_iff]
      intro hover
      simp only [Bool.and_eq_true,Bool.or_eq_true,decide_eq_true_eq,bne_iff_ne] at hover
      have hpos := hne hover.1
      rcases hover.2 with (h34 | ⟨hm8,h33⟩) | ⟨hm16,h32⟩
      · have := hlarge 256 (by omega) (by omega)
        omega
      · have := hlarge 248 (by omega) (by omega)
        omega
      · have := hlarge 240 (by omega) (by omega)
        omega
  · by_cases h3 : e ≤ 3
    · rw [if_pos h3,if_pos h3,if_pos h3,BitVec.toNat_setWidth,BitVec.toNat_ushiftRight,hword]
      refine Nat.mod_eq_of_lt (Nat.lt_of_le_of_lt (Nat.shiftRight_le m _) ?_)
      omega
    · rw [if_neg h3,if_neg h3,if_neg h3,BitVec.toNat_shiftLeft,BitVec.toNat_setWidth,hword,
        Nat.mod_eq_of_lt (show m < 2^256 by omega),Nat.shiftLeft_eq]
      exact Nat.mod_eq_of_lt (hfits (by omega))

/-- What the compact form of a number decodes to. -/
def compacted (x : Uint256) : Uint256 := (setCompact (getCompact x)).target

theorem rounded_getCompact (x : Uint256) : ∃ m e, Rounded x.toNat m e ∧
    (compacted x).toNat = expand m e ∧ (setCompact (getCompact x)).fNegative = false ∧
    (setCompact (getCompact x)).fOverflow = false := by
  have hr := rounded_compactParts x.toNat
  have hx := x.isLt
  have hsize : Nat.size x.toNat ≤ 256 := Nat.size_le.mpr hx
  have he := hr.size
  obtain ⟨hneg,hover,htarget⟩ := setCompact_parts hr.mantissa (by omega)
    (fun h3 => Nat.lt_of_le_of_lt (hr.lower h3) hx)
  exact ⟨_,_,hr,htarget,hneg,hover⟩

theorem getCompact_nonnegative (x : Uint256) : (setCompact (getCompact x)).fNegative = false := by
  obtain ⟨m,e,-,-,hneg,-⟩ := rounded_getCompact x
  exact hneg

theorem getCompact_fits (x : Uint256) : (setCompact (getCompact x)).fOverflow = false := by
  obtain ⟨m,e,-,-,-,hover⟩ := rounded_getCompact x
  exact hover

theorem Rounded.expand_le {x m e : Nat} (h : Rounded x m e) : expand m e ≤ x := by
  by_cases he : e ≤ 3
  · exact Nat.le_of_eq (h.exact he)
  · unfold expand
    rw [if_neg he,Nat.shiftLeft_eq]
    exact h.lower (by omega)

theorem Rounded.expand_pos {x m e : Nat} (h : Rounded x m e) (hx : 0 < x) : 0 < expand m e := by
  by_cases he : e ≤ 3
  · rw [h.exact he]
    exact hx
  · unfold expand
    rw [if_neg he,Nat.shiftLeft_eq]
    have := h.leading hx
    exact Nat.mul_pos (by omega) (Nat.two_pow_pos _)

theorem compacted_le (x : Uint256) : (compacted x).toNat ≤ x.toNat := by
  obtain ⟨m,e,hr,heq,-,-⟩ := rounded_getCompact x
  rw [heq]
  exact hr.expand_le

theorem compacted_eq_zero (x : Uint256) : compacted x = 0 ↔ x = 0 := by
  constructor
  · intro h
    obtain ⟨m,e,hr,heq,-,-⟩ := rounded_getCompact x
    rw [h] at heq
    refine BitVec.eq_of_toNat_eq (Nat.eq_zero_of_not_pos fun hpos => ?_)
    have := hr.expand_pos hpos
    rw [← heq] at this
    exact absurd this (by decide)
  · rintro rfl
    have := compacted_le 0
    exact BitVec.eq_of_toNat_eq (Nat.le_zero.mp this)

theorem Rounded.pos {x m e : Nat} (h : Rounded x m e) (he : 3 < e) : 0 < x := by
  have hsize := h.size
  exact Nat.size_pos.mp (by omega)

/-- Which numbers are rounded down to at most a bound with a leading byte of its own. -/
theorem Rounded.expand_le_iff {x m e M k : Nat} (h : Rounded x m e) (hM : M < 2^23)
    (hM' : 2^15 ≤ M) : expand m e ≤ M*2^(8*(k+1)) ↔ x < (M+1)*2^(8*(k+1)) := by
  have hbound : 2^23 ≤ M*2^8 := by omega
  have hsplit : 2^(8*(k+1)) = 2^8*2^(8*k) := by rw [← pow_add]; congr 1; omega
  have hone : 1 ≤ 2^(8*k) := Nat.one_le_two_pow
  rcases Nat.lt_trichotomy e (k+4) with hlt | heq | hgt
  · have hx : x < M*2^(8*(k+1)) := by
      by_cases he : e ≤ 3
      · have hm : x ≤ m := by
          rw [← h.exact he]
          unfold expand
          rw [if_pos he]
          exact Nat.shiftRight_le m _
        have hm' := h.mantissa
        calc x < 2^23 := by omega
          _ ≤ M*2^8*1 := by omega
          _ ≤ M*2^8*2^(8*k) := Nat.mul_le_mul_left _ hone
          _ = M*2^(8*(k+1)) := by rw [hsplit,Nat.mul_assoc]
      · have hupper := h.upper (by omega)
        have hpow : 2^(8*(e-3)) ≤ 2^(8*k) := Nat.pow_le_pow_right (by decide) (by omega)
        calc x < (m+1)*2^(8*(e-3)) := hupper
          _ ≤ 2^23*2^(8*k) := Nat.mul_le_mul h.mantissa hpow
          _ ≤ M*2^8*2^(8*k) := Nat.mul_le_mul_right _ hbound
          _ = M*2^(8*(k+1)) := by rw [hsplit,Nat.mul_assoc]
    have hle := h.expand_le
    have hmul : M*2^(8*(k+1)) ≤ (M+1)*2^(8*(k+1)) := Nat.mul_le_mul_right _ (Nat.le_succ M)
    exact ⟨fun _ => by omega,fun _ => by omega⟩
  · have hlower := h.lower (by omega)
    have hupper := h.upper (by omega)
    unfold expand
    rw [if_neg (by omega),Nat.shiftLeft_eq]
    rw [heq,show k+4-3 = k+1 by omega] at hlower hupper ⊢
    constructor
    · intro hle
      have hmM : m ≤ M := Nat.le_of_mul_le_mul_right hle (Nat.two_pow_pos _)
      exact Nat.lt_of_lt_of_le hupper (Nat.mul_le_mul_right _ (by omega))
    · intro hlt
      have hmM : m < M+1 := Nat.lt_of_mul_lt_mul_right (Nat.lt_of_le_of_lt hlower hlt)
      exact Nat.mul_le_mul_right _ (by omega)
  · have hlead := h.leading (h.pos (by omega))
    have hpow : 2^8*2^(8*(k+1)) ≤ 2^(8*(e-3)) := by
      rw [← pow_add]
      exact Nat.pow_le_pow_right (by decide) (by omega)
    have hbig : (M+1)*2^(8*(k+1)) ≤ m*2^(8*(e-3)) :=
      calc (M+1)*2^(8*(k+1)) ≤ 2^15*2^8*2^(8*(k+1)) := Nat.mul_le_mul_right _ (by omega)
        _ = 2^15*(2^8*2^(8*(k+1))) := Nat.mul_assoc _ _ _
        _ ≤ m*2^(8*(e-3)) := Nat.mul_le_mul hlead hpow
    have hlower := h.lower (by omega)
    have hpos : M*2^(8*(k+1)) < (M+1)*2^(8*(k+1)) :=
      Nat.mul_lt_mul_of_pos_right (Nat.lt_succ_self M) (Nat.two_pow_pos _)
    unfold expand
    rw [if_neg (by omega),Nat.shiftLeft_eq]
    exact ⟨fun _ => by omega,fun _ => by omega⟩

end Anoncoin
