import Mathlib.Data.List.GetD
import Mathlib.Order.Basic
import Mathlib.Algebra.Ring.Nat

/-!
Buffers that keep the last elements put into them, and the element with a given rank among
samples that are spread over buckets.
-/

set_option autoImplicit false

namespace Anoncoin.Lib

structure CircularBuffer (α : Type) (capacity : Nat) where
  elems : List α
  bounded : elems.length ≤ capacity

namespace CircularBuffer
variable {α : Type} {capacity : Nat}

def empty : CircularBuffer α capacity := ⟨[],Nat.zero_le _⟩

/-- Insertion at the end; what is too much is dropped from the front. -/
def insertEnd (b : CircularBuffer α capacity) (xs : List α) : CircularBuffer α capacity where
  elems := (b.elems ++ xs).drop (b.elems.length+xs.length-capacity)
  bounded := by
    rw [List.length_drop,List.length_append]
    omega

def pushBack (b : CircularBuffer α capacity) (x : α) : CircularBuffer α capacity :=
  b.insertEnd [x]

theorem mem_insertEnd {b : CircularBuffer α capacity} {xs : List α} {x : α}
    (h : x ∈ (b.insertEnd xs).elems) : x ∈ b.elems ∨ x ∈ xs :=
  List.mem_append.mp (List.mem_of_mem_drop h)

end CircularBuffer

section Rank
variable {α : Type} {buckets : List (List α)}

/-- The rank in the middle of bucket `n`. -/
def middleRank (buckets : List (List α)) (n : Nat) : Nat :=
  ((buckets.take n).map List.length).sum+(buckets.getD n []).length/2

theorem middleRank_succ (buckets : List (List α)) (n : Nat) :
    middleRank buckets n ≤ middleRank buckets (n+1) := by
  unfold middleRank
  by_cases h : n < buckets.length
  · rw [List.take_add_one,List.getElem?_eq_getElem h,Option.toList_some,List.map_append,
      List.sum_append,List.getD_eq_getElem _ _ h]
    simp only [List.map_cons,List.map_nil,List.sum_cons,List.sum_nil]
    omega
  · rw [List.getD_eq_default _ _ (by omega),List.take_of_length_le (by omega),
      List.take_of_length_le (by omega)]
    simp

/-- A later element of a sorted list comes after an earlier one, or is the same. -/
theorem getD_of_pairwise {R : α → α → Prop} {l : List α} (h : l.Pairwise R)
    (hrefl : ∀ x ∈ l, R x x) {i j : Nat} (hij : i ≤ j) (hj : j < l.length) (d : α) :
    R (l.getD i d) (l.getD j d) := by
  rw [List.getD_eq_getElem _ _ (by omega),List.getD_eq_getElem _ _ hj]
  rcases Nat.lt_or_eq_of_le hij with hlt | rfl
  · exact List.pairwise_iff_getElem.mp h i j (by omega) hj hlt
  · exact hrefl _ (List.getElem_mem _)

end Rank

end Anoncoin.Lib
