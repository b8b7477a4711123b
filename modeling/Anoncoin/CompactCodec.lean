import Anoncoin.BaseUint
import Anoncoin.Compact
import Anoncoin.Lib.Rounding

/-!
`SetCompact` and `GetCompact` on the limbs of a `uint256` (uint256.cpp), assertions included,
and the numbers that the compact form keeps.
-/

set_option autoImplicit false

namespace Anoncoin
open Lib

/-- Numbers with a mantissa of 23 bits and whole zero bytes below it. -/
def Representable (t : Nat) : Prop := ∃ M k, M < 2^23 ∧ t = M*2^(8*k)

/-- The number that is left of `x` in compact form. -/
def rounding (x : Nat) : Nat := expand (compactParts x).1 (compactParts x).2

theorem representable_expand {m : Nat} (hm : m < 2^23) (e : Nat) : Representable (expand m e) := by
  unfold expand
  split
  · exact ⟨m >>> (8*(3-e)),0,Nat.lt_of_le_of_lt (Nat.shiftRight_le m _) hm,by simp⟩
  · exact ⟨m,e-3,hm,Nat.shiftLeft_eq m _⟩

/-- A representable number with fewer zero bytes than were cleared has too few bits to be in
the way. -/
theorem Rounded.greatest {x m e t : Nat} (h : Rounded x m e) (ht : Representable t)
    (hle : t ≤ x) : t ≤ expand m e := by
  obtain ⟨M,k,hM,rfl⟩ := ht
  by_cases he : e ≤ 3
  · rw [h.exact he]
    exact hle
  · have hlead := h.leading (h.pos (by omega))
    have hupper := h.upper (by omega)
    unfold expand
    rw [if_neg he,Nat.shiftLeft_eq]
    by_cases hk : e-3 ≤ k
    · have hsplit : M*2^(8*k) = M*2^(8*(k-(e-3)))*2^(8*(e-3)) := by
        rw [Nat.mul_assoc,← pow_add]
        congr 2
        omega
      rw [hsplit] at hle ⊢
      have hlt := Nat.lt_of_mul_lt_mul_right (Nat.lt_of_le_of_lt hle hupper)
      exact Nat.mul_le_mul_right _ (by omega)
    · calc M*2^(8*k) ≤ 2^23*2^(8*(e-4)) :=
            Nat.mul_le_mul (Nat.le_of_lt hM) (Nat.pow_le_pow_right (by decide) (by omega))
        _ = 2^15*2^(8*(e-3)) := by
            rw [← pow_add,← pow_add]
            congr 1
            omega
        _ ≤ m*2^(8*(e-3)) := Nat.mul_le_mul_right _ hlead

theorem roundsDown_rounding : RoundsDown Representable rounding where
  output x := representable_expand (rounded_compactParts x).mantissa _
  le x := (rounded_compactParts x).expand_le
  greatest x _ ht hle := (rounded_compactParts x).greatest ht hle

/-- Only bits below the leading byte and the 15 bits after it are cleared. -/
theorem Rounded.testBit {x m e i : Nat} (h : Rounded x m e) (hi : Nat.size x ≤ i+16) :
    (expand m e).testBit i = x.testBit i := by
  by_cases he : e ≤ 3
  · rw [h.exact he]
  · have hlead := h.leading (h.pos (by omega))
    have hlower := h.lower (by omega)
    have hupper := h.upper (by omega)
    have hm : m = x/2^(8*(e-3)) :=
      (Nat.div_eq_of_lt_le hlower hupper).symm
    have hsize : 15+8*(e-3) < Nat.size x := by
      refine Nat.lt_size.mpr (Nat.le_trans ?_ hlower)
      rw [pow_add]
      exact Nat.mul_le_mul_right _ hlead
    unfold expand
    rw [if_neg he,Nat.testBit_shiftLeft,hm,Nat.testBit_div_two_pow,decide_eq_true (by omega),
      Nat.sub_add_cancel (by omega),Bool.true_and]

/-- Mantissa and size as one product; with the leading byte in its place, it determines both. -/
theorem compactParts_scaled (x : Nat) :
    (compactParts x).1*2^(8*(compactParts x).2) = rounding x*2^24 := by
  have hshort : (compactParts x).2 ≤ 3 →
      (compactParts x).1 = x*2^(8*(3-(compactParts x).2)) := by
    have hle : (leadingBytes x).2 ≤ 3 →
      (leadingBytes x).1 = x <<< (8*(3-(leadingBytes x).2)) := fun h => if_pos h
    rw [compactParts_eq]
    generalize (leadingBytes x).1 = m at *
    generalize (leadingBytes x).2 = s at *
    split
    · intro hs
      simp only at hs ⊢
      rw [hle (by omega),Nat.shiftLeft_eq,Nat.shiftRight_eq_div_pow,
        show 8*(3-s) = 8*(3-(s+1))+8 by omega,pow_add,← Nat.mul_assoc]
      exact Nat.mul_div_cancel _ (by decide)
    · intro hs
      rw [hle hs,Nat.shiftLeft_eq]
  have hr := rounded_compactParts x
  unfold rounding
  by_cases he : (compactParts x).2 ≤ 3
  · rw [hr.exact he,hshort he,Nat.mul_assoc,← pow_add]
    congr 2
    omega
  · unfold expand
    rw [if_neg he,Nat.shiftLeft_eq,Nat.mul_assoc,← pow_add]
    congr 2
    omega

theorem scaled_unique {m m' e e' : Nat} (hm : 2^15 ≤ m ∧ m < 2^23) (hm' : 2^15 ≤ m' ∧ m' < 2^23)
    (h : m*2^(8*e) = m'*2^(8*e')) : m = m' ∧ e = e' := by
  have hnot : ∀ {a b i j : Nat}, 2^15 ≤ b → a < 2^23 → a*2^(8*i) = b*2^(8*j) → ¬i < j := by
    intro a b i j hb ha heq hij
    have hsplit : b*2^(8*j) = b*2^(8*(j-i))*2^(8*i) := by
      rw [Nat.mul_assoc,← pow_add]
      congr 2
      omega
    rw [hsplit] at heq
    have hab := Nat.eq_of_mul_eq_mul_right (Nat.two_pow_pos _) heq
    have hpow : 2^8 ≤ 2^(8*(j-i)) := Nat.pow_le_pow_right (by decide) (by omega)
    have hmul : 2^15*2^8 ≤ b*2^(8*(j-i)) := Nat.mul_le_mul hb hpow
    omega
  have he : e = e' := by
    have h₁ := hnot hm'.1 hm.2 h
    have h₂ := hnot hm.1 hm'.2 h.symm
    omega
  rw [he] at h
  exact ⟨Nat.eq_of_mul_eq_mul_right (Nat.two_pow_pos _) h,he⟩

/-- What is left in compact form has the compact form that it came from. -/
theorem compactParts_rounding (x : Nat) : compactParts (rounding x) = compactParts x := by
  rcases Nat.eq_zero_or_pos x with rfl | hx
  · decide
  · have hr := rounded_compactParts x
    have hr' := rounded_compactParts (rounding x)
    have hpos : 0 < rounding x := hr.expand_pos hx
    have hscaled := compactParts_scaled (rounding x)
    rw [roundsDown_rounding.idempotent,← compactParts_scaled x] at hscaled
    obtain ⟨hm,he⟩ := scaled_unique ⟨hr'.leading hpos,hr'.mantissa⟩ ⟨hr.leading hx,hr.mantissa⟩
      hscaled
    exact Prod.ext hm he

/-- What `SetCompact` sets. -/
structure SetResult where
  target : BaseUint 8
  fNegative : Bool
  fOverflow : Bool

namespace BaseUint

/-- `uint256::SetCompact`. -/
def setCompact (nCompact : Uint32) : SetResult :=
  let nSize := (nCompact >>> 24).toNat
  let nWord := nCompact &&& 0x007fffff
  let nWord := if nSize ≤ 3 then nWord >>> (8*(3-nSize)) else nWord
  { target := if nSize ≤ 3 then ofUint64 (nWord.setWidth 64)
      else (ofUint64 (nWord.setWidth 64)).shiftLeft (8*(nSize-3))
    fNegative := nWord != 0 && nCompact &&& 0x00800000 != 0
    fOverflow := nWord != 0 && (decide (34 < nSize) ||
      (decide (0xff < nWord.toNat) && decide (33 < nSize)) ||
      (decide (0xffff < nWord.toNat) && decide (32 < nSize))) }

/-- The mantissa of `GetCompact`, before the bit for the sign is looked at. -/
def leadingWord (a : BaseUint 8) (nSize : Nat) : Uint32 :=
  if nSize ≤ 3 then (a.getLow64 <<< (8*(3-nSize))).setWidth 32
  else (a.shiftRight (8*(nSize-3))).getLow64.setWidth 32

/-- The bit 0x00800000 denotes the sign: where it is set, the mantissa gives up a byte. -/
def compactForm (a : BaseUint 8) : Uint32 × Nat :=
  let nSize := (a.bits+7)/8
  let nCompact := a.leadingWord nSize
  if nCompact &&& 0x00800000 ≠ 0 then (nCompact >>> 8,nSize+1) else (nCompact,nSize)

/-- `uint256::GetCompact`; `none` is an assertion that fails. -/
def getCompact (a : BaseUint 8) (fNegative : Bool) : Option Uint32 :=
  let (nCompact,nSize) := a.compactForm
  if nCompact &&& ~~~0x007fffff ≠ 0 then none
  else if ¬nSize < 256 then none
  else
    let nCompact := nCompact ||| BitVec.ofNat 32 nSize <<< 24
    some (nCompact ||| if fNegative && nCompact &&& 0x007fffff != 0 then 0x00800000 else 0)

/-- The limbs as one bit vector. -/
def toUint256 (a : BaseUint 8) : Uint256 := BitVec.ofNat 256 a.value

theorem toNat_toUint256 (a : BaseUint 8) : a.toUint256.toNat = a.value := by
  rw [toUint256,BitVec.toNat_ofNat]
  exact Nat.mod_eq_of_lt a.value_lt

theorem getLow64_toNat (a : BaseUint 8) : a.getLow64.toNat = a.value%2^64 := by
  apply Nat.eq_of_testBit_eq
  intro p
  rw [Nat.testBit_mod_two_pow,testBit_value,BitVec.testBit_toNat,getLow64,BitVec.getLsbD_or,
    BitVec.getLsbD_shiftLeft,BitVec.getLsbD_setWidth,BitVec.getLsbD_setWidth]
  by_cases hlow : p < 32
  · have h64 : p < 64 := by omega
    simp [hlow,h64,Nat.div_eq_of_lt hlow,Nat.mod_eq_of_lt hlow]
  · by_cases h64 : p < 64
    · rw [show p/32 = 1 by omega,show p%32 = p-32 by omega,BitVec.getLsbD_of_ge (a.limb 0) p (by omega)]
      simp [hlow,h64]
      omega
    · rw [BitVec.getLsbD_of_ge (a.limb 0) p (by omega)]
      simp [h64]

theorem leadingWord_toNat (a : BaseUint 8) :
    (a.leadingWord ((Nat.size a.value+7)/8)).toNat = (leadingBytes a.value).1 := by
  have hlt := leadingBytes_lt a.value
  unfold leadingWord
  unfold leadingBytes at hlt ⊢
  simp only at hlt ⊢
  split
  · rename_i hsize
    rw [if_pos hsize,Nat.shiftLeft_eq] at hlt
    have hvalue : a.value ≤ a.value*2^(8*(3-(Nat.size a.value+7)/8)) :=
      Nat.le_mul_of_pos_right _ (Nat.two_pow_pos _)
    rw [BitVec.toNat_setWidth,BitVec.toNat_shiftLeft,getLow64_toNat,Nat.shiftLeft_eq,
      Nat.mod_eq_of_lt (show a.value < 2^64 by omega),Nat.shiftLeft_eq,
      Nat.mod_eq_of_lt (show _ < 2^64 by omega),Nat.mod_eq_of_lt (by omega)]
  · rename_i hsize
    rw [if_neg hsize,Nat.shiftRight_eq_div_pow] at hlt
    rw [BitVec.toNat_setWidth,getLow64_toNat,value_shiftRight,Nat.shiftRight_eq_div_pow,
      Nat.mod_eq_of_lt (show _ < 2^64 by omega),Nat.mod_eq_of_lt (by omega)]

theorem compactForm_eq (a : BaseUint 8) : a.compactForm.1.toNat = (compactParts a.value).1 ∧
    a.compactForm.2 = (compactParts a.value).2 := by
  have hword := a.leadingWord_toNat
  have hsign : ∀ {c : Uint32}, c &&& 0x00800000 ≠ 0 ↔ c.toNat &&& 0x00800000 ≠ 0 := by
    intro c
    rw [ne_eq,← BitVec.toNat_inj,BitVec.toNat_and]
    rfl
  rw [compactParts_eq]
  unfold compactForm
  simp only [bits_eq,hsign,hword]
  split
  · exact ⟨by rw [BitVec.toNat_ushiftRight,hword],rfl⟩
  · exact ⟨hword,rfl⟩

/-- No assertion of `GetCompact` fails, and the sign is set on a number other than zero only. -/
theorem getCompact_toNat (a : BaseUint 8) (fNegative : Bool) :
    ∃ c, a.getCompact fNegative = some c ∧ c.toNat = (compactParts a.value).2*2^24+
      (if fNegative = true ∧ (compactParts a.value).1 ≠ 0 then 2^23 else 0)+
      (compactParts a.value).1 := by
  obtain ⟨hform,hsize⟩ := a.compactForm_eq
  have hr := rounded_compactParts a.value
  have hm := hr.mantissa
  have he := hr.size
  have hbits : Nat.size a.value ≤ 256 := Nat.size_le.mpr a.value_lt
  unfold getCompact
  rw [show a.compactForm = (a.compactForm.1,a.compactForm.2) from rfl]
  simp only
  rw [hsize]
  generalize a.compactForm.1 = c at *
  generalize (compactParts a.value).1 = m at *
  generalize (compactParts a.value).2 = e at *
  have hclear : c &&& ~~~0x007fffff = 0 := by
    apply BitVec.eq_of_toNat_eq
    rw [BitVec.toNat_and,hform,show (~~~0x007fffff : Uint32).toNat = 511 <<< 23 from rfl]
    apply Nat.eq_of_testBit_eq
    intro p
    rw [Nat.testBit_and,Nat.testBit_shiftLeft]
    by_cases hp : 23 ≤ p
    · rw [Nat.testBit_lt_two_pow (Nat.lt_of_lt_of_le hm (Nat.pow_le_pow_right (by decide) hp))]
      simp
    · simp [hp]
  have hsplit : (c ||| BitVec.ofNat 32 e <<< 24).toNat = 2^24*e ||| m := by
    rw [BitVec.toNat_or,BitVec.toNat_shiftLeft,BitVec.toNat_ofNat,hform,
      Nat.mod_eq_of_lt (show e < 2^32 by omega),Nat.shiftLeft_eq,
      Nat.mod_eq_of_lt (show e*2^24 < 2^32 by omega),Nat.lor_comm,Nat.mul_comm]
  have hsum : 2^24*e+m = 2^24*e ||| m := Nat.two_pow_add_eq_or_of_lt (by omega) e
  rw [if_neg (not_not.mpr hclear),if_neg (by omega)]
  generalize c ||| BitVec.ofNat 32 e <<< 24 = nCompact at *
  have hword : (nCompact &&& 0x007fffff != 0) = true ↔ m ≠ 0 := by
    rw [bne_iff_ne,ne_eq,← BitVec.toNat_inj,BitVec.toNat_and,hsplit,
      show (0x007fffff : Uint32).toNat = 2^23-1 from rfl,Nat.and_two_pow_sub_one_eq_mod,← hsum]
    have : (2^24*e+m)%2^23 = m := by omega
    rw [this]
    rfl
  refine ⟨_,rfl,?_⟩
  rw [BitVec.toNat_or,hsplit]
  simp only [Bool.and_eq_true,hword]
  split
  · have hlow : m ||| 2^23 = 2^23+m := by
      rw [Nat.lor_comm]
      exact (Nat.two_pow_add_eq_or_of_lt hm 1).symm
    rw [show (0x00800000 : Uint32).toNat = 2^23 from rfl,Nat.lor_assoc,hlow,
      ← Nat.two_pow_add_eq_or_of_lt (by omega)]
    omega
  · rw [show (0 : Uint32).toNat = 0 from rfl,Nat.or_zero,← hsum]
    omega

/-- Without a sign, the compact form is the one that the limbs as one bit vector have. -/
theorem getCompact_eq (a : BaseUint 8) :
    a.getCompact false = some (Anoncoin.getCompact a.toUint256) := by
  obtain ⟨c,hc,hnat⟩ := a.getCompact_toNat false
  have hr := rounded_compactParts a.value
  have hbits : Nat.size a.value ≤ 256 := Nat.size_le.mpr a.value_lt
  have he := hr.size
  rw [hc]
  congr 1
  apply BitVec.eq_of_toNat_eq
  have hform : Anoncoin.getCompact a.toUint256 = BitVec.ofNat 32
      ((compactParts a.toUint256.toNat).1 ||| (compactParts a.toUint256.toNat).2 <<< 24) := rfl
  rw [hform,toNat_toUint256,compact_toNat hr.mantissa (by omega),hnat,if_neg (by simp),
    Nat.add_zero]

section Decoding

theorem size_toNat (c : Uint32) : (c >>> 24).toNat = c.toNat/2^24 := by
  rw [BitVec.toNat_ushiftRight,Nat.shiftRight_eq_div_pow]

theorem word_toNat (c : Uint32) : (c &&& 0x007fffff).toNat = c.toNat%2^23 := by
  rw [BitVec.toNat_and,show (0x007fffff : Uint32).toNat = 2^23-1 from rfl,
    Nat.and_two_pow_sub_one_eq_mod]

theorem sign_iff (c : Uint32) : c &&& 0x00800000 ≠ 0 ↔ c.toNat/2^23%2 = 1 := by
  rw [ne_eq,← BitVec.toNat_inj,BitVec.toNat_and]
  change ¬c.toNat &&& 0x00800000 = 0 ↔ _
  rw [← ne_eq,testBit_sign,Nat.testBit_eq_decide_div_mod_eq,decide_eq_true_iff]

/-- The word after the shift of small sizes. -/
theorem shiftedWord_toNat (c : Uint32) :
    (if (c >>> 24).toNat ≤ 3 then (c &&& 0x007fffff) >>> (8*(3-(c >>> 24).toNat))
      else c &&& 0x007fffff).toNat = if c.toNat/2^24 ≤ 3 then
        (c.toNat%2^23) >>> (8*(3-c.toNat/2^24)) else c.toNat%2^23 := by
  rw [size_toNat]
  split
  · rw [BitVec.toNat_ushiftRight,word_toNat]
  · exact word_toNat c

theorem setCompact_value (c : Uint32) :
    (setCompact c).target.value = expand (c.toNat%2^23) (c.toNat/2^24)%2^256 := by
  have hm : c.toNat%2^23 < 2^23 := Nat.mod_lt _ (by decide)
  have hword := shiftedWord_toNat c
  unfold setCompact expand
  simp only
  rw [size_toNat] at hword ⊢
  split
  · rename_i he
    rw [if_pos he,if_pos he] at hword
    have hsmall := Nat.lt_of_le_of_lt (Nat.shiftRight_le (c.toNat%2^23) (8*(3-c.toNat/2^24))) hm
    rw [value_ofUint64,BitVec.toNat_setWidth,hword,
      Nat.mod_eq_of_lt (Nat.lt_trans hsmall (show 2^23 < 2^64 by decide)),
      Nat.mod_eq_of_lt (Nat.lt_trans hsmall (by decide))]
  · rename_i he
    rw [if_neg he,if_neg he] at hword
    rw [value_shiftLeft,value_ofUint64,BitVec.toNat_setWidth,hword,Nat.shiftLeft_eq,
      Nat.mod_eq_of_lt (show c.toNat%2^23 < 2^64 by omega)]

/-- The limbs are those of the number that the model of the headers computes with. -/
theorem setCompact_eq (c : Uint32) : (setCompact c).target.toUint256 = (Anoncoin.setCompact c).target ∧
    (setCompact c).fNegative = (Anoncoin.setCompact c).fNegative ∧
    (setCompact c).fOverflow = (Anoncoin.setCompact c).fOverflow := by
  refine ⟨BitVec.eq_of_toNat_eq ?_,rfl,rfl⟩
  have hm : c.toNat%2^23 < 2^23 := Nat.mod_lt _ (by decide)
  have hword := shiftedWord_toNat c
  rw [toNat_toUint256,setCompact_value]
  unfold Anoncoin.setCompact expand
  simp only
  rw [size_toNat] at hword ⊢
  split
  · rename_i he
    rw [if_pos he,if_pos he] at hword
    rw [BitVec.toNat_setWidth,hword]
  · rename_i he
    rw [if_neg he,if_neg he] at hword
    rw [BitVec.toNat_shiftLeft,BitVec.toNat_setWidth,hword,
      Nat.mod_eq_of_lt (show c.toNat%2^23 < 2^256 by omega)]

theorem fits_iff {m e : Nat} (hm : m < 2^23) (hpos : 0 < m) (he : 3 < e) :
    m*2^(8*(e-3)) < 2^256 ↔ ¬(34 < e ∨ (0xff < m ∧ 33 < e) ∨ (0xffff < m ∧ 32 < e)) := by
  rcases Nat.lt_or_ge e 33 with hlt | hge
  · have hpow : 2^(8*(e-3)) ≤ 2^(8*29) := Nat.pow_le_pow_right (by decide) (by omega)
    have hmul : m*2^(8*(e-3)) ≤ 2^23*2^(8*29) := Nat.mul_le_mul (Nat.le_of_lt hm) hpow
    have hbound : 2^23*2^(8*29) < 2^256 := by decide
    constructor
    · omega
    · omega
  · rcases Nat.lt_or_ge 34 e with hgt | hle
    · have hpow : 2^256 ≤ 2^(8*(e-3)) := Nat.pow_le_pow_right (by decide) (by omega)
      have hmul : 1*2^256 ≤ m*2^(8*(e-3)) := Nat.mul_le_mul hpos hpow
      constructor
      · omega
      · omega
    · obtain rfl | rfl : e = 33 ∨ e = 34 := by omega
      · constructor <;> omega
      · constructor <;> omega

/-- The flag for overflow is exact. -/
theorem setCompact_fits (c : Uint32) : (setCompact c).fOverflow = false ↔
    expand (c.toNat%2^23) (c.toNat/2^24) < 2^256 := by
  have hm : c.toNat%2^23 < 2^23 := Nat.mod_lt _ (by decide)
  have hword := shiftedWord_toNat c
  unfold setCompact expand
  simp only
  generalize (if (c >>> 24).toNat ≤ 3 then (c &&& 0x007fffff) >>> (8*(3-(c >>> 24).toNat))
      else c &&& 0x007fffff) = nWord at *
  have hzero : nWord ≠ 0 ↔ 0 < nWord.toNat := by
    rw [ne_eq,← BitVec.toNat_inj]
    exact Nat.pos_iff_ne_zero.symm
  rw [size_toNat,Bool.eq_false_iff]
  simp only [ne_eq,Bool.and_eq_true,Bool.or_eq_true,bne_iff_ne,decide_eq_true_eq]
  rw [← ne_eq,hzero,hword]
  generalize c.toNat%2^23 = m at *
  generalize c.toNat/2^24 = e at *
  by_cases he : e ≤ 3
  · rw [if_pos he,if_pos he]
    have hsmall := Nat.lt_of_le_of_lt (Nat.shiftRight_le m (8*(3-e))) hm
    have hlt : m >>> (8*(3-e)) < 2^256 := Nat.lt_trans hsmall (by decide)
    constructor
    · exact fun _ => hlt
    · omega
  · rw [if_neg he,if_neg he,Nat.shiftLeft_eq]
    rcases Nat.eq_zero_or_pos m with rfl | hpos
    · simp
    · rw [fits_iff hm hpos (by omega)]
      constructor
      · intro h hover
        exact h ⟨hpos,by omega⟩
      · intro h hover
        exact h (by omega)

theorem setCompact_negative (c : Uint32) : (setCompact c).fNegative = true ↔
    expand (c.toNat%2^23) (min (c.toNat/2^24) 3) ≠ 0 ∧ c.toNat/2^23%2 = 1 := by
  have hword := shiftedWord_toNat c
  unfold setCompact expand
  simp only
  generalize (if (c >>> 24).toNat ≤ 3 then (c &&& 0x007fffff) >>> (8*(3-(c >>> 24).toNat))
      else c &&& 0x007fffff) = nWord at *
  rw [Bool.and_eq_true,bne_iff_ne,bne_iff_ne,sign_iff,ne_eq,← BitVec.toNat_inj,hword,
    if_pos (Nat.min_le_right _ 3)]
  by_cases he : c.toNat/2^24 ≤ 3
  · rw [if_pos he,Nat.min_eq_left he]
    rfl
  · rw [if_neg he,Nat.min_eq_right (by omega)]
    rfl

end Decoding

/-- The limbs that `SetCompact` makes of the compact form of `x`. -/
def reencode (x : BaseUint 8) : Option SetResult := (x.getCompact false).map setCompact

/-- Reading back: the number rounded down, without sign or overflow. -/
theorem reencode_eq (x : BaseUint 8) : ∃ s, x.reencode = some s ∧
    s.target.value = rounding x.value ∧ s.fNegative = false ∧ s.fOverflow = false := by
  obtain ⟨c,hc,hnat⟩ := x.getCompact_toNat false
  have hr := rounded_compactParts x.value
  have hm := hr.mantissa
  have hround : expand (c.toNat%2^23) (c.toNat/2^24) = rounding x.value := by
    unfold rounding
    rw [if_neg (by simp)] at hnat
    congr 1 <;> omega
  have hle := roundsDown_rounding.le x.value
  have hlt : rounding x.value < 2^256 := Nat.lt_of_le_of_lt hle x.value_lt
  refine ⟨setCompact c,by rw [reencode,hc]; rfl,?_,?_,?_⟩
  · rw [setCompact_value,hround,Nat.mod_eq_of_lt hlt]
  · rw [Bool.eq_false_iff]
    intro hneg
    have hsign := ((setCompact_negative c).mp hneg).2
    rw [if_neg (by simp)] at hnat
    omega
  · rw [setCompact_fits,hround]
    exact hlt

/-- A compact form, signed or not, is what the number and the sign that it decodes to have. -/
theorem getCompact_setCompact {x : BaseUint 8} {fNegative : Bool} {c : Uint32}
    (h : x.getCompact fNegative = some c) :
    (setCompact c).target.getCompact (setCompact c).fNegative = some c := by
  obtain ⟨c₁,hc₁,hnat⟩ := x.getCompact_toNat fNegative
  rw [h] at hc₁
  obtain rfl := Option.some.inj hc₁
  have hr := rounded_compactParts x.value
  have hm := hr.mantissa
  have hmantissa : c.toNat%2^23 = (compactParts x.value).1 := by
    split at hnat <;> omega
  have hsize : c.toNat/2^24 = (compactParts x.value).2 := by
    split at hnat <;> omega
  have hlt : rounding x.value < 2^256 :=
    Nat.lt_of_le_of_lt (roundsDown_rounding.le x.value) x.value_lt
  have htarget : (setCompact c).target.value = rounding x.value := by
    rw [setCompact_value,hmantissa,hsize]
    exact Nat.mod_eq_of_lt hlt
  have hsign : (setCompact c).fNegative = true ↔
      fNegative = true ∧ (compactParts x.value).1 ≠ 0 := by
    have hword : (compactParts x.value).1 ≠ 0 →
        expand (compactParts x.value).1 (min (compactParts x.value).2 3) ≠ 0 := by
      intro hne
      by_cases he : (compactParts x.value).2 ≤ 3
      · rw [Nat.min_eq_left he,hr.exact he]
        intro hzero
        rw [hzero] at hne
        exact hne (by decide)
      · rw [Nat.min_eq_right (by omega)]
        exact hne
    rw [setCompact_negative,hmantissa,hsize]
    split at hnat
    · rename_i h
      exact ⟨fun _ => h,fun _ => ⟨hword h.2,by omega⟩⟩
    · rename_i h
      exact ⟨fun hneg => by omega,fun hneg => absurd hneg h⟩
  obtain ⟨c₂,hc₂,hnat₂⟩ := (setCompact c).target.getCompact_toNat (setCompact c).fNegative
  rw [hc₂]
  congr 1
  apply BitVec.eq_of_toNat_eq
  rw [hnat₂,hnat,htarget,compactParts_rounding]
  simp only [hsign,and_assoc,and_self]

/-- Decoding a number that fits and encoding it again loses nothing. -/
theorem reencode_decoded {c : Uint32} (h : (setCompact c).fOverflow = false) :
    ∃ s, (setCompact c).target.reencode = some s ∧ s.target = (setCompact c).target := by
  obtain ⟨s,hs,hvalue,-,-⟩ := (setCompact c).target.reencode_eq
  refine ⟨s,hs,value_inj ?_⟩
  have hm : c.toNat%2^23 < 2^23 := Nat.mod_lt _ (by decide)
  rw [hvalue,setCompact_value,Nat.mod_eq_of_lt ((setCompact_fits c).mp h)]
  exact roundsDown_rounding.fixes (representable_expand hm _)

/-- The compact encoding of difficulty: no assertion fails, a number comes back rounded down to
its leading bits with both flags clear, rounding is monotone and idempotent, a compact form has
itself as the compact form of what it decodes to, and a decoded target comes back as it is. -/
theorem compact_codec :
    (∀ (x : BaseUint 8) (fNegative : Bool), x.getCompact fNegative ≠ none) ∧
    (∀ (x : BaseUint 8) (s : SetResult), x.reencode = some s →
      s.target.value ≤ x.value ∧
      (∀ i, x.bits ≤ i+16 → s.target.value.testBit i = x.value.testBit i) ∧
      s.fNegative = false ∧ s.fOverflow = false) ∧
    (∀ (x y : BaseUint 8) (s t : SetResult), x.reencode = some s → y.reencode = some t →
      x.value ≤ y.value → s.target.value ≤ t.target.value) ∧
    (∀ (x : BaseUint 8) (s t : SetResult), x.reencode = some s → s.target.reencode = some t →
      t.target = s.target) ∧
    (∀ (x : BaseUint 8) (fNegative : Bool) (c : Uint32), x.getCompact fNegative = some c →
      (setCompact c).target.getCompact (setCompact c).fNegative = some c) ∧
    (∀ (c : Uint32) (t : SetResult), (setCompact c).target.value ≠ 0 →
      (setCompact c).fNegative = false → (setCompact c).fOverflow = false →
      (setCompact c).target.reencode = some t → t.target = (setCompact c).target) := by
  have hvalue : ∀ {x : BaseUint 8} {s : SetResult}, x.reencode = some s →
      s.target.value = rounding x.value ∧ s.fNegative = false ∧ s.fOverflow = false := by
    intro x s hs
    obtain ⟨s',hs',h⟩ := x.reencode_eq
    rw [hs] at hs'
    obtain rfl := Option.some.inj hs'
    exact h
  refine ⟨?_,?_,?_,?_,fun x fNegative c => getCompact_setCompact,?_⟩
  · intro x fNegative
    obtain ⟨c,hc,-⟩ := x.getCompact_toNat fNegative
    rw [hc]
    exact Option.some_ne_none c
  · intro x s hs
    obtain ⟨hs,hneg,hover⟩ := hvalue hs
    refine ⟨by rw [hs]; exact roundsDown_rounding.le x.value,?_,hneg,hover⟩
    intro i hi
    rw [bits_eq] at hi
    rw [hs]
    exact (rounded_compactParts x.value).testBit hi
  · intro x y s t hs ht hle
    rw [(hvalue hs).1,(hvalue ht).1]
    exact roundsDown_rounding.monotone hle
  · intro x s t hs ht
    apply value_inj
    rw [(hvalue ht).1,(hvalue hs).1]
    exact roundsDown_rounding.idempotent x.value
  · intro c t _ _ hfits ht
    obtain ⟨t',ht',h⟩ := reencode_decoded hfits
    rw [ht] at ht'
    obtain rfl := Option.some.inj ht'
    exact h

example : (ofUint64 0xc0de000000 : BaseUint 8).getCompact false = some 0x0600c0de := by decide

end BaseUint

end Anoncoin
