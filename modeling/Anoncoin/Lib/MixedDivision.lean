import Mathlib.Algebra.Order.Ring.Int
import Mathlib.Algebra.Order.Group.Unbundled.Int

/-!
The quotient of a signed number by an unsigned one where the language converts the dividend:
its value modulo `m` is divided, and the result is read as a signed number again.
-/

set_option autoImplicit false

namespace Anoncoin.Lib

def mixedQuotient (m : Nat) (a : Int) (n : Nat) : Int := (a%m/n).bmod m

section MixedQuotient
variable {m n : Nat} {a b : Int}

theorem mixedQuotient_one (m : Nat) (a : Int) : mixedQuotient m a 1 = a.bmod m := by
  unfold mixedQuotient
  rw [Nat.cast_one,Int.ediv_one,Int.emod_bmod]

theorem mixedQuotient_of_nonneg (h : 0 ≤ a) (ha : 2*a < m) : mixedQuotient m a n = a/n := by
  have hle : a/(n : Int) ≤ a := Int.ediv_le_self n h
  have hpos : 0 ≤ a/(n : Int) := Int.ediv_nonneg h (Int.natCast_nonneg n)
  unfold mixedQuotient
  rw [Int.emod_eq_of_lt h (by omega)]
  exact Int.bmod_eq_of_le (by omega) (by omega)

/-- A negative dividend counts as one from the upper half. -/
theorem mixedQuotient_of_neg (h : a < 0) (ha : -a ≤ m) (hn : 2 ≤ n) :
    mixedQuotient m a n = (m+a)/n := by
  have hmod : a%(m : Int) = m+a := by
    rw [← Int.add_emod_left]
    exact Int.emod_eq_of_lt (by omega) (by omega)
  have hpos : 0 ≤ ((m : Int)+a)/n := Int.ediv_nonneg (by omega) (Int.natCast_nonneg n)
  have hmul : ((m : Int)+a)/n*n ≤ m+a := Int.ediv_mul_le _ (by omega)
  have hhalf : ((m : Int)+a)/n*2 ≤ (m+a)/n*n := Int.mul_le_mul_of_nonneg_left (by omega) hpos
  unfold mixedQuotient
  rw [hmod]
  exact Int.bmod_eq_of_le (by omega) (by omega)

/-- It is the signed quotient for the dividends that are not negative, for the divisor 1, and
where both quotients are zero. -/
theorem mixedQuotient_eq_tdiv_iff (hn : 0 < n) (hl : -(m : Int) < 2*a) (hu : 2*a < m) :
    mixedQuotient m a n = a.tdiv n ↔ 0 ≤ a ∨ n = 1 ∨ m+a < n := by
  by_cases ha : 0 ≤ a
  · simp [mixedQuotient_of_nonneg ha hu,Int.tdiv_eq_ediv_of_nonneg ha,ha]
  · by_cases hone : n = 1
    · have hself : a.bmod m = a := Int.bmod_eq_of_le (by omega) (by omega)
      rw [hone,mixedQuotient_one,hself]
      simp
    · have hsigned : a.tdiv n = -(-a/n) := by
        rw [← Int.neg_neg (a.tdiv n),← Int.neg_tdiv,Int.tdiv_eq_ediv_of_nonneg (by omega)]
      rw [mixedQuotient_of_neg (by omega) (by omega) (by omega),hsigned]
      constructor
      · intro heq
        have hpos : 0 ≤ -a/(n : Int) := Int.ediv_nonneg (by omega) (Int.natCast_nonneg n)
        have hzero : ((m : Int)+a)/n < 1 := by omega
        have hlt := (Int.ediv_lt_iff_lt_mul (by omega)).mp hzero
        omega
      · intro h
        rw [Int.ediv_eq_zero_of_lt (by omega) (by omega),
          Int.ediv_eq_zero_of_lt (a := -a) (by omega) (by omega),Int.neg_zero]

/-- The order of the dividends is kept unless a negative one counts as positive. -/
theorem mixedQuotient_le_iff (hn : 0 < n) (hab : a ≤ b) (hl : -(m : Int) < 2*a)
    (hu : 2*b < m) (hgap : 2*b ≤ m+a) : mixedQuotient m a n ≤ mixedQuotient m b n ↔
      0 ≤ a ∨ b < 0 ∨ n = 1 ∨ m+a < n := by
  by_cases ha : 0 ≤ a
  · rw [mixedQuotient_of_nonneg ha (by omega),mixedQuotient_of_nonneg (by omega) (by omega)]
    exact iff_of_true (Int.ediv_le_ediv (by omega) hab) (.inl ha)
  · by_cases hone : n = 1
    · have hself : a.bmod m = a := Int.bmod_eq_of_le (by omega) (by omega)
      have hself' : b.bmod m = b := Int.bmod_eq_of_le (by omega) (by omega)
      rw [hone,mixedQuotient_one,mixedQuotient_one,hself,hself']
      simp [hab]
    · rw [mixedQuotient_of_neg (a := a) (by omega) (by omega) (by omega)]
      by_cases hb : b < 0
      · rw [mixedQuotient_of_neg hb (by omega) (by omega)]
        exact iff_of_true (Int.ediv_le_ediv (by omega) (by omega)) (.inr (.inl hb))
      · rw [mixedQuotient_of_nonneg (by omega) (by omega)]
        constructor
        · intro hle
          by_contra hcond
          -- the quotients of two numbers that are a divisor apart differ
          have hone' : 1 ≤ ((m : Int)+a)/n := (Int.le_ediv_iff_mul_le (by omega)).mpr (by omega)
          have hnb : 1*(n : Int) ≤ b := (Int.le_ediv_iff_mul_le (by omega)).mp (by omega)
          have hnext : (b+n)/(n : Int) ≤ (m+a)/n := Int.ediv_le_ediv (by omega) (by omega)
          rw [Int.add_ediv_of_dvd_right (Int.dvd_refl _),Int.ediv_self (by omega)] at hnext
          omega
        · intro hcond
          have hpos : 0 ≤ b/(n : Int) := Int.ediv_nonneg (by omega) (Int.natCast_nonneg n)
          rw [Int.ediv_eq_zero_of_lt (by omega) (by omega)]
          exact hpos

end MixedQuotient

end Anoncoin.Lib
