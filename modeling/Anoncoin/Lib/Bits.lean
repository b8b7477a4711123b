import Mathlib.Data.List.Range
import Mathlib.Data.UInt

/-!
Bits packed into bytes, the lowest bit first.
-/

set_option autoImplicit false

namespace Anoncoin.Lib

/-- The byte with the bits `f 0` to `f 7`. -/
def byteOf (f : Nat → Bool) : UInt8 :=
  (List.range 8).foldl (fun ch i => if f i then ch ||| (1 <<< UInt8.ofNat i) else ch) 0

def bitsOf (ch : UInt8) : List Bool := (List.range 8).map fun p => ch &&& (1 <<< UInt8.ofNat p) != 0

theorem byteOf_spec (f : Nat → Bool) :
    bitsOf (byteOf f) = (List.range 8).map f ∧ decide (byteOf f ≠ 0) = (List.range 8).any f := by
  have hall : ∀ b₀ b₁ b₂ b₃ b₄ b₅ b₆ b₇ : Bool,
      let ch := byteOf fun i => [b₀,b₁,b₂,b₃,b₄,b₅,b₆,b₇].getD i false
      bitsOf ch = [b₀,b₁,b₂,b₃,b₄,b₅,b₆,b₇] ∧
        decide (ch ≠ 0) = [b₀,b₁,b₂,b₃,b₄,b₅,b₆,b₇].any id := by
    decide +kernel
  exact hall (f 0) (f 1) (f 2) (f 3) (f 4) (f 5) (f 6) (f 7)

theorem bitsOf_byteOf (f : Nat → Bool) : bitsOf (byteOf f) = (List.range 8).map f :=
  (byteOf_spec f).1

theorem byteOf_ne_zero (f : Nat → Bool) : decide (byteOf f ≠ 0) = (List.range 8).any f :=
  (byteOf_spec f).2

/-- Bits that are packed eight at a time and unpacked again. -/
theorem flatMap_bitsOf (f : Nat → Bool) (m : Nat) :
    ((List.range m).map fun b => byteOf fun i => f (b*8+i)).flatMap bitsOf =
      (List.range (8*m)).map f := by
  induction m with
  | zero => rfl
  | succ m ih =>
    rw [List.range_succ,List.map_append,List.flatMap_append,ih,Nat.mul_succ,List.range_add,
      List.map_append,List.map_singleton,List.flatMap_singleton,bitsOf_byteOf,List.map_map]
    congr 1
    refine List.map_congr_left fun i _ => ?_
    simp only [Function.comp_apply,Nat.mul_comm]

end Anoncoin.Lib
