import Anoncoin.CompactCodec

/-!
The work of a block (`GetWorkProof` and `GetBlockProof` of consensus.cpp), with the division
that `base_uint` performs.
-/

set_option autoImplicit false

namespace Anoncoin
open Lib

namespace BaseUint

/-- `GetWorkProof`: 2^256 does not fit, so that ~t/(t+1)+1 is computed in place of 2^256/(t+1). -/
def getWorkProof (uintTarget : BaseUint 8) : Except String (BaseUint 8) :=
  if !uintTarget.isNull then do
    let quotient ← uintTarget.complement.divide (uintTarget.add (ofUint64 1))
    pure (quotient.add (ofUint64 1))
  else pure (ofUint64 0)

def getBlockProof (nBits : Uint32) : Except String (BaseUint 8) :=
  let bnTarget := setCompact nBits
  if !bnTarget.fNegative && !bnTarget.fOverflow then getWorkProof bnTarget.target
  else pure (ofUint64 0)

/-- A target is a number other than zero, read without a sign and without overflow. -/
structure Legal (s : SetResult) : Prop where
  nonzero : s.target.value ≠ 0
  nonnegative : s.fNegative = false
  fits : s.fOverflow = false

theorem getWorkProof_zero {t : BaseUint 8} (h : t.value = 0) :
    t.getWorkProof = .ok (ofUint64 0) := by
  unfold getWorkProof
  rw [(isNull_iff t).mpr h]
  rfl

/-- The complement is the dividend less one divisor, so that the quotient is one too small. -/
theorem getWorkProof_value {t : BaseUint 8} (h : t.value ≠ 0) (hmax : t.value+1 < 2^256) :
    ∃ proof, t.getWorkProof = .ok proof ∧ proof.value = 2^256/(t.value+1) := by
  have hnull : t.isNull = false := by
    rw [Bool.eq_false_iff]
    exact fun hz => h ((isNull_iff t).mp hz)
  have hone : (ofUint64 1 : BaseUint 8).value = 1 := value_ofUint64 1
  have hnext : (t.add (ofUint64 1)).value = t.value+1 := by
    rw [value_add,hone]
    exact Nat.mod_eq_of_lt hmax
  have hcomplement := t.value_complement
  obtain ⟨q,hq,hvalue⟩ := t.complement.divide_value (b := t.add (ofUint64 1)) (by omega)
  have hquotient : q.value+1 = 2^256/(t.value+1) := by
    rw [hvalue,hnext,← Nat.add_div_right _ (Nat.succ_pos t.value)]
    congr 1
  have hsmall : 2^256/(t.value+1) < 2^256 :=
    Nat.div_lt_self (Nat.two_pow_pos 256) (by omega)
  refine ⟨q.add (ofUint64 1),?_,?_⟩
  · unfold getWorkProof
    rw [hnull,hq]
    rfl
  · rw [value_add,hone,hquotient]
    exact Nat.mod_eq_of_lt hsmall

namespace Legal
variable {nBits : Uint32}

/-- Nothing is shifted out of a legal target. -/
theorem value (h : Legal (setCompact nBits)) :
    (setCompact nBits).target.value = expand (nBits.toNat%2^23) (nBits.toNat/2^24) := by
  rw [setCompact_value]
  exact Nat.mod_eq_of_lt ((setCompact_fits nBits).mp h.fits)

/-- The greatest number of 256 bits has more bits set than a mantissa. -/
theorem lt_max (h : Legal (setCompact nBits)) : (setCompact nBits).target.value+1 < 2^256 := by
  have hlt := (setCompact nBits).target.value_lt
  obtain ⟨M,k,hM,heq⟩ := representable_expand (Nat.mod_lt nBits.toNat (by decide : 0 < 2^23))
    (nBits.toNat/2^24)
  rw [← h.value] at heq
  cases k with
  | zero => omega
  | succ k =>
    have heven : M*2^(8*(k+1)) = 2*(M*2^(8*k+7)) := by
      rw [show 8*(k+1) = 8*k+7+1 by omega,pow_succ]
      ring
    omega

theorem getBlockProof (h : Legal (setCompact nBits)) : ∃ proof,
    BaseUint.getBlockProof nBits = .ok proof ∧
      proof.value = 2^256/((setCompact nBits).target.value+1) := by
  obtain ⟨proof,hproof,hvalue⟩ := getWorkProof_value h.nonzero h.lt_max
  refine ⟨proof,?_,hvalue⟩
  unfold BaseUint.getBlockProof
  simp only [h.nonnegative,h.fits]
  exact hproof

end Legal

theorem getBlockProof_illegal {nBits : Uint32} (h : ¬Legal (setCompact nBits)) :
    getBlockProof nBits = .ok (ofUint64 0) := by
  unfold getBlockProof
  simp only
  split
  · rename_i hflags
    rw [Bool.and_eq_true,Bool.not_eq_true',Bool.not_eq_true'] at hflags
    exact getWorkProof_zero (Classical.byContradiction fun hne => h ⟨hne,hflags.1,hflags.2⟩)
  · rfl

/-- The chain work that the model of the block tree counts is the one that the limbs give. -/
theorem getBlockProof_eq (nBits : Uint32) : ∃ proof, getBlockProof nBits = .ok proof ∧
    proof.toUint256 = Anoncoin.getBlockProof nBits := by
  obtain ⟨htarget,hneg,hover⟩ := setCompact_eq nBits
  have hnat := congrArg BitVec.toNat htarget
  rw [toNat_toUint256] at hnat
  unfold Anoncoin.getBlockProof Anoncoin.getWorkProof
  simp only [← hneg,← hover]
  by_cases h : Legal (setCompact nBits)
  · obtain ⟨proof,hproof,hvalue⟩ := h.getBlockProof
    have hlt := h.lt_max
    have hne : (Anoncoin.setCompact nBits).target ≠ 0 := by
      intro hzero
      rw [hzero] at hnat
      exact h.nonzero hnat
    have hquotient : (2^256-1-(setCompact nBits).target.value)/
        ((setCompact nBits).target.value+1)+1 = 2^256/((setCompact nBits).target.value+1) := by
      rw [← Nat.add_div_right _ (Nat.succ_pos _)]
      congr 1
      omega
    refine ⟨proof,hproof,BitVec.eq_of_toNat_eq ?_⟩
    rw [h.nonnegative,h.fits,toNat_toUint256,if_pos hne]
    simp only [Bool.not_false,Bool.and_self,if_true]
    rw [BitVec.toNat_add,BitVec.toNat_udiv,BitVec.toNat_not,BitVec.toNat_add,← hnat]
    change _ = ((2^256-1-(setCompact nBits).target.value)/
      (((setCompact nBits).target.value+1)%2^256)+1)%2^256
    rw [Nat.mod_eq_of_lt hlt,hquotient,← hvalue]
    exact (Nat.mod_eq_of_lt proof.value_lt).symm
  · refine ⟨_,getBlockProof_illegal h,?_⟩
    split
    · rename_i hflags
      rw [Bool.and_eq_true,Bool.not_eq_true',Bool.not_eq_true'] at hflags
      have hzero : (Anoncoin.setCompact nBits).target = 0 := by
        apply BitVec.eq_of_toNat_eq
        rw [← hnat]
        exact Classical.byContradiction fun hne => h ⟨hne,hflags.1,hflags.2⟩
      rw [hzero]
      rfl
    · rfl

/-- The work of a block, for every encoded target: no division by zero, 2^256/(t+1) for a legal
target t and zero for any other, at least one for a legal target, and less for a greater one. -/
theorem getBlockProof_exact :
    (∀ nBits, ∃ proof, getBlockProof nBits = .ok proof ∧
      (Legal (setCompact nBits) →
        (setCompact nBits).target.value = expand (nBits.toNat%2^23) (nBits.toNat/2^24) ∧
        proof.value = 2^256/((setCompact nBits).target.value+1) ∧ 1 ≤ proof.value) ∧
      (¬Legal (setCompact nBits) → proof.value = 0)) ∧
    (∀ nBits nBits' proof proof', Legal (setCompact nBits) → Legal (setCompact nBits') →
      getBlockProof nBits = .ok proof → getBlockProof nBits' = .ok proof' →
      (setCompact nBits).target.value ≤ (setCompact nBits').target.value →
      proof'.value ≤ proof.value) := by
  constructor
  · intro nBits
    by_cases h : Legal (setCompact nBits)
    · obtain ⟨proof,hproof,hvalue⟩ := h.getBlockProof
      have hlt := h.lt_max
      refine ⟨proof,hproof,fun _ => ⟨h.value,hvalue,?_⟩,fun hnot => absurd h hnot⟩
      rw [hvalue]
      exact Nat.div_pos (by omega) (Nat.succ_pos _)
    · exact ⟨_,getBlockProof_illegal h,fun hlegal => absurd hlegal h,
        fun _ => value_ofUint64 0⟩
  · intro nBits nBits' proof proof' h h' hproof hproof' hle
    obtain ⟨p,hp,hvalue⟩ := h.getBlockProof
    obtain ⟨p',hp',hvalue'⟩ := h'.getBlockProof
    rw [hproof] at hp
    rw [hproof'] at hp'
    obtain rfl := Except.ok.inj hp
    obtain rfl := Except.ok.inj hp'
    rw [hvalue,hvalue']
    exact Nat.div_le_div_left (by omega) (Nat.succ_pos _)

example : (getBlockProof 0x1d00ffff).toOption.map value = some 0x100010001 := by decide +kernel

end BaseUint

end Anoncoin
