import Mathlib.Order.Monotone.Basic

/-!
Rounding down: the greatest representable element below each element of an order.
-/

set_option autoImplicit false

namespace Anoncoin.Lib

section Rounding
variable {α : Type} [PartialOrder α] {representable : α → Prop} {round : α → α}

/-- The function gives the greatest representable element that is not above its argument. -/
structure RoundsDown (representable : α → Prop) (round : α → α) : Prop where
  output : ∀ x, representable (round x)
  le : ∀ x, round x ≤ x
  greatest : ∀ x t, representable t → t ≤ x → t ≤ round x

namespace RoundsDown

theorem fixes (h : RoundsDown representable round) {t : α} (ht : representable t) : round t = t :=
  le_antisymm (h.le t) (h.greatest t t ht (le_refl t))

theorem monotone (h : RoundsDown representable round) : Monotone round := by
  intro x y hxy
  exact h.greatest y (round x) (h.output x) (le_trans (h.le x) hxy)

theorem idempotent (h : RoundsDown representable round) (x : α) : round (round x) = round x :=
  h.fixes (h.output x)

end RoundsDown

end Rounding

end Anoncoin.Lib
