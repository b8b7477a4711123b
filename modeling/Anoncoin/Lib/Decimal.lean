import Mathlib.Algebra.Order.Ring.Rat
import Mathlib.Data.List.Induction
import Mathlib.Tactic.FieldSimp
import Mathlib.Tactic.Ring
import Anoncoin.Lib.Text

/-!
Numerals in base ten, with digits behind a point, and what they stand for.
-/

set_option autoImplicit false

namespace Anoncoin.Lib

/-- The number of a string of digits. -/
abbrev digitsValue (digits : List Char) : Nat := Nat.ofDigitChars 10 digits 0

theorem digitsValue_append (a b : List Char) :
    digitsValue (a ++ b) = digitsValue a*10^b.length+digitsValue b := by
  rw [digitsValue,Nat.ofDigitChars_append,Nat.ofDigitChars_eq_ofDigitChars_zero,Nat.mul_comm]

theorem digitsValue_singleton (c : Char) : digitsValue [c] = c.toNat-48 := by
  simp [digitsValue,Nat.ofDigitChars_cons]

theorem digitsValue_lt {digits : List Char} (h : ∀ c ∈ digits, c.isDigit = true) :
    digitsValue digits < 10^digits.length := by
  induction digits using List.reverseRecOn with
  | nil => simp [digitsValue]
  | append_singleton digits c ih =>
    have hdigits := ih fun d hd => h d (by simp [hd])
    have hc := isDigit_bounds (h c (by simp))
    rw [digitsValue_append,digitsValue_singleton,List.length_append,List.length_singleton,
      pow_succ]
    omega

/-- The number in at least `k` digits. -/
def padded (k n : Nat) : List Char :=
  List.replicate (k-(Nat.toDigits 10 n).length) '0' ++ Nat.toDigits 10 n

theorem digitsValue_padded (k n : Nat) : digitsValue (padded k n) = n := by
  unfold padded
  rw [digitsValue_append,digitsValue,Nat.ofDigitChars_replicate_zero,digitsValue,
    Nat.ofDigitChars_ten_toDigits,Nat.mul_zero,Nat.zero_mul,Nat.zero_add]

theorem isDigit_of_mem_padded {k n : Nat} {c : Char} (h : c ∈ padded k n) :
    c.isDigit = true := by
  rcases List.mem_append.mp h with hzero | hdigit
  · rw [List.eq_of_mem_replicate hzero]
    rfl
  · exact Nat.isDigit_of_mem_toDigits (by decide) (by decide) hdigit

theorem length_padded {k n : Nat} (hk : 0 < k) (h : n < 10^k) : (padded k n).length = k := by
  have hle := (Nat.length_toDigits_le_iff (by decide) hk).mpr h
  unfold padded
  rw [List.length_append,List.length_replicate]
  omega

/-- A numeral with a point: the digits before it and those behind it. -/
structure Numeral where
  whole : List Char
  units : List Char
  whole_digits : ∀ c ∈ whole, c.isDigit = true
  units_digits : ∀ c ∈ units, c.isDigit = true

namespace Numeral

def value (x : Numeral) : ℚ :=
  digitsValue x.whole+digitsValue x.units/10^x.units.length

/-- The value in units of the last of `k` places. -/
def scaled (x : Numeral) (k : Nat) : Nat :=
  digitsValue x.whole*10^k+digitsValue x.units*10^(k-x.units.length)

theorem value_mul {x : Numeral} {k : Nat} (h : x.units.length ≤ k) :
    x.value*10^k = x.scaled k := by
  obtain ⟨j,rfl⟩ := Nat.exists_eq_add_of_le h
  unfold value scaled
  rw [Nat.add_sub_cancel_left]
  push_cast
  field_simp
  ring

end Numeral

end Anoncoin.Lib
