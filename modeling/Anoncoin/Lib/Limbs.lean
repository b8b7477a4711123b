import Mathlib.Data.Nat.Size
import Mathlib.Data.Nat.Bitwise
import Mathlib.Data.BitVec
import Mathlib.Tactic.Ring

/-!
Unsigned numbers in limbs of `w` bits, the least significant limb first, and long division
by shifting and subtracting.
-/

set_option autoImplicit false

namespace Anoncoin.Lib

section Limbs
variable {w : Nat}

/-- The number that the limbs stand for. -/
def limbsValue : List (BitVec w) → Nat
  | [] => 0
  | x :: xs => x.toNat+2^w*limbsValue xs

@[simp] theorem limbsValue_nil : limbsValue ([] : List (BitVec w)) = 0 := rfl

@[simp] theorem limbsValue_cons (x : BitVec w) (xs : List (BitVec w)) :
    limbsValue (x :: xs) = x.toNat+2^w*limbsValue xs := rfl

theorem limbsValue_append (xs ys : List (BitVec w)) :
    limbsValue (xs ++ ys) = limbsValue xs+2^(w*xs.length)*limbsValue ys := by
  induction xs with
  | nil => simp
  | cons x xs ih =>
    simp only [List.cons_append,limbsValue_cons,ih,List.length_cons]
    rw [Nat.mul_add w,Nat.mul_one,pow_add]
    ring

theorem limbsValue_lt (xs : List (BitVec w)) : limbsValue xs < 2^(w*xs.length) := by
  induction xs with
  | nil => simp
  | cons x xs ih =>
    have hx := x.isLt
    rw [limbsValue_cons,List.length_cons,Nat.mul_add w,Nat.mul_one,Nat.add_comm (w*_),pow_add]
    calc x.toNat+2^w*limbsValue xs
        < 2^w+2^w*limbsValue xs := by omega
      _ = 2^w*(limbsValue xs+1) := by ring
      _ ≤ 2^w*2^(w*xs.length) := Nat.mul_le_mul_left _ ih

@[simp] theorem limbsValue_zeros (n : Nat) : limbsValue (List.replicate n (0#w)) = 0 := by
  induction n with
  | zero => rfl
  | succ n ih => simp [List.replicate_succ,ih]

theorem limbsValue_eq_zero {xs : List (BitVec w)} :
    limbsValue xs = 0 ↔ ∀ x ∈ xs, x = 0 := by
  induction xs with
  | nil => simp
  | cons x xs ih =>
    have hpos := Nat.two_pow_pos w
    have hx : x.toNat = 0 ↔ x = 0 :=
      ⟨fun h => BitVec.eq_of_toNat_eq h,fun h => by rw [h]; rfl⟩
    simp [ih,hx]

theorem limbsValue_inj {xs ys : List (BitVec w)} (hlen : xs.length = ys.length)
    (h : limbsValue xs = limbsValue ys) : xs = ys := by
  induction xs generalizing ys with
  | nil => exact (List.length_eq_zero_iff.mp hlen.symm).symm
  | cons x xs ih =>
    cases ys with
    | nil => simp at hlen
    | cons y ys =>
      have hx := x.isLt
      have hy := y.isLt
      simp only [limbsValue_cons] at h
      have hmod := congrArg (· % 2^w) h
      have hdiv := congrArg (· / 2^w) h
      simp only [Nat.add_mul_mod_self_left,Nat.mod_eq_of_lt hx,Nat.mod_eq_of_lt hy] at hmod
      simp only [Nat.add_mul_div_left _ _ (Nat.two_pow_pos w),Nat.div_eq_of_lt hx,
        Nat.div_eq_of_lt hy,Nat.zero_add] at hdiv
      rw [BitVec.eq_of_toNat_eq hmod,ih (by simpa using hlen) hdiv]

/-- Bit `i` of the number is bit `i%w` of limb `i/w`. -/
theorem testBit_limbsValue (hw : 0 < w) (xs : List (BitVec w)) (i : Nat) :
    (limbsValue xs).testBit i = (xs.getD (i/w) 0).getLsbD (i%w) := by
  induction xs generalizing i with
  | nil => simp
  | cons x xs ih =>
    rw [limbsValue_cons,Nat.add_comm,Nat.testBit_two_pow_mul_add _ x.isLt]
    split
    · rename_i hlt
      rw [Nat.div_eq_of_lt hlt,Nat.mod_eq_of_lt hlt,List.getD_cons_zero]
      rfl
    · rename_i hge
      have hge : w ≤ i := Nat.le_of_not_lt hge
      rw [ih,Nat.mod_eq_sub_mod hge,Nat.div_eq_sub_div hw hge,List.getD_cons_succ]

theorem limbsValue_complement (xs : List (BitVec w)) :
    limbsValue (xs.map fun x => ~~~x)+limbsValue xs+1 = 2^(w*xs.length) := by
  induction xs with
  | nil => simp
  | cons x xs ih =>
    have hx := x.isLt
    have hnot : (~~~x).toNat = 2^w-1-x.toNat := BitVec.toNat_not
    simp only [List.map_cons,limbsValue_cons,List.length_cons,hnot]
    rw [Nat.mul_add w,Nat.mul_one,Nat.add_comm (w*_),pow_add,← ih]
    have hsplit : 2^w*(limbsValue (xs.map fun x => ~~~x)+limbsValue xs+1) =
        2^w*limbsValue (xs.map fun x => ~~~x)+2^w*limbsValue xs+2^w := by ring
    rw [hsplit]
    omega

theorem limbsValue_take_succ (xs : List (BitVec w)) {n : Nat} (h : n < xs.length) :
    limbsValue (xs.take (n+1)) = limbsValue (xs.take n)+2^(w*n)*(xs.getD n 0).toNat := by
  rw [List.take_succ_eq_append_getElem h,limbsValue_append,
    List.length_take_of_le (Nat.le_of_lt h),List.getD_eq_getElem _ _ h]
  simp

end Limbs

section LongDivision

/-- The rounds `s-1`, …, 0 of long division by `d`, on the number that is left and the bits
of the quotient so far. -/
def longDivision (d : Nat) : Nat → Nat → Nat → Nat × Nat
  | 0,num,quotient => (quotient,num)
  | s+1,num,quotient =>
      if d*2^s ≤ num then longDivision d s (num-d*2^s) (quotient+2^s)
      else longDivision d s num quotient

/-- Quotient and remainder, when the first round cannot set a higher bit. -/
theorem longDivision_eq {d : Nat} (hd : 0 < d) {s num : Nat} (h : num < d*2^s) (quotient : Nat) :
    longDivision d s num quotient = (quotient+num/d,num%d) := by
  induction s generalizing num quotient with
  | zero =>
    have hlt : num < d := by simpa using h
    simp [longDivision,Nat.div_eq_of_lt hlt,Nat.mod_eq_of_lt hlt]
  | succ s ih =>
    unfold longDivision
    split
    · rename_i hle
      have hnext : num-d*2^s < d*2^s := by
        rw [pow_succ] at h
        have : d*(2^s*2) = d*2^s+d*2^s := by ring
        omega
      have hnum : num = num-d*2^s+d*2^s := (Nat.sub_add_cancel hle).symm
      rw [ih hnext]
      conv_rhs => rw [hnum,Nat.add_mul_div_left _ _ hd,Nat.add_mul_mod_self_left]
      rw [Nat.add_assoc,Nat.add_comm (2^s)]
    · rename_i hlt
      exact ih (Nat.lt_of_not_le hlt) quotient

end LongDivision

end Anoncoin.Lib
