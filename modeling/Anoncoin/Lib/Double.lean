import Mathlib.Order.Basic
import Mathlib.Algebra.Group.Nat.Defs

/-!
Double precision numbers by their bits, as far as comparisons go.
-/

set_option autoImplicit false

namespace Anoncoin.Lib

abbrev Double := BitVec 64

namespace Double

def magnitude (a : Double) : Nat := a.toNat%2^63

/-- The bits above those of infinity. -/
def isNaN (a : Double) : Bool := decide (0x7ff0000000000000 < a.magnitude)

/-- The bits as a sign and a magnitude, which is how the numbers are ordered; both zeros are 0. -/
def key (a : Double) : Int := if a.toNat < 2^63 then a.magnitude else -a.magnitude

/-- `a < b`, which is false for what is no number. -/
def lt (a b : Double) : Bool := !a.isNaN && !b.isNaN && decide (a.key < b.key)

def le (a b : Double) : Bool := !a.isNaN && !b.isNaN && decide (a.key ≤ b.key)

variable {a b c : Double}

theorem le_iff : a.le b = true ↔ a.isNaN = false ∧ b.isNaN = false ∧ a.key ≤ b.key := by
  simp [le,and_assoc]

theorem le_refl (h : a.isNaN = false) : a.le a = true := le_iff.mpr ⟨h,h,Int.le_refl _⟩

theorem le_trans (h : a.le b = true) (h' : b.le c = true) : a.le c = true :=
  le_iff.mpr ⟨(le_iff.mp h).1,(le_iff.mp h').2.1,Int.le_trans (le_iff.mp h).2.2 (le_iff.mp h').2.2⟩

/-- Numbers that are not below one another the one way are so the other way. -/
theorem le_of_not_lt (ha : a.isNaN = false) (hb : b.isNaN = false) (h : b.lt a = false) :
    a.le b = true := by
  refine le_iff.mpr ⟨ha,hb,?_⟩
  simpa [lt,ha,hb] using h

end Double

end Anoncoin.Lib
