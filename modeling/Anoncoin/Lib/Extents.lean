import Mathlib.Order.Interval.Set.Basic
import Mathlib.Data.Set.BooleanAlgebra
import Mathlib.Order.CompletePartialOrder
import Mathlib.Algebra.Ring.Nat
import Mathlib.Algebra.BigOperators.Group.List.Basic

/-!
Extents of several files: a log of the ranges that were handed out, under one counter for each
file.
-/

set_option autoImplicit false

namespace Anoncoin.Lib

/-- A range of a file. -/
structure Extent (κ : Type) where
  key : κ
  start : Nat
  length : Nat
  deriving DecidableEq, Repr

namespace Extent
variable {κ : Type}

def stop (r : Extent κ) : Nat := r.start+r.length

def bytes (r : Extent κ) : Set Nat := Set.Ico r.start r.stop

/-- No range of the log goes beyond the counter of its file. -/
def Bounded (size : κ → Nat) (log : List (Extent κ)) : Prop := ∀ r ∈ log, r.stop ≤ size r.key

/-- What the ranges of a file add up to. -/
def total [DecidableEq κ] (log : List (Extent κ)) (k : κ) : Nat :=
  (log.map fun r => if r.key = k then r.length else 0).sum

variable {size size' : κ → Nat} {log : List (Extent κ)} {r : Extent κ}

theorem bounded_nil (size : κ → Nat) : Bounded size [] := fun _ hr => absurd hr List.not_mem_nil

/-- A range that starts at the counter meets no earlier one of its file. -/
theorem Bounded.disjoint (h : Bounded size log) (hstart : r.start = size r.key) :
    ∀ e ∈ log, e.key = r.key → Disjoint e.bytes r.bytes := by
  intro e he hkey
  have hstop : e.stop ≤ r.start := by
    rw [hstart,← hkey]
    exact h e he
  exact Set.disjoint_left.mpr fun x hx hx' => by
    have hlt : x < e.stop := hx.2
    have hle : r.start ≤ x := hx'.1
    omega

/-- Counters only grow, and the new range is within its counter. -/
theorem Bounded.cons (h : Bounded size log) (hgrow : ∀ k, size k ≤ size' k)
    (hr : r.stop ≤ size' r.key) : Bounded size' (r :: log) := by
  intro e he
  rcases List.mem_cons.mp he with rfl | hold
  · exact hr
  · exact (h e hold).trans (hgrow e.key)

theorem total_cons [DecidableEq κ] (r : Extent κ) (log : List (Extent κ)) (k : κ) :
    total (r :: log) k = (if r.key = k then r.length else 0)+total log k := by
  simp [total]

end Extent

end Anoncoin.Lib
