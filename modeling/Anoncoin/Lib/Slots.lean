import Mathlib.Algebra.BigOperators.Group.Finset.Basic
import Mathlib.Algebra.BigOperators.Ring.Finset

/-!
Tables of slots that are empty or hold an entry, and how often an entry occurs in one.
-/

set_option autoImplicit false

namespace Anoncoin.Lib

section Slots
variable {σ ι : Type} [Fintype σ] [DecidableEq ι]

/-- The number of slots that hold the entry. -/
def occurrences (t : σ → Option ι) (j : ι) : Nat := (Finset.univ.filter fun s => t s = some j).card

variable {t : σ → Option ι} {s : σ} {j : ι}

theorem occurrences_pos (h : t s = some j) : 0 < occurrences t j :=
  Finset.card_pos.mpr ⟨s,by simpa using h⟩

theorem occurrences_eq_zero_iff : occurrences t j = 0 ↔ ∀ s, t s ≠ some j := by
  simp [occurrences,Finset.filter_eq_empty_iff]

variable [DecidableEq σ]

theorem occurrences_update (t : σ → Option ι) (s : σ) (v : Option ι) (j : ι) :
    occurrences (Function.update t s v) j+(if t s = some j then 1 else 0) =
      occurrences t j+if v = some j then 1 else 0 := by
  have hsplit : ∀ t : σ → Option ι, occurrences t j =
      (if t s = some j then 1 else 0)+∑ x ∈ Finset.univ.erase s, if t x = some j then 1 else 0 := by
    intro t
    rw [occurrences,Finset.card_filter]
    exact (Finset.add_sum_erase _ (fun x => if t x = some j then 1 else 0) (Finset.mem_univ s)).symm
  have hrest : (∑ x ∈ Finset.univ.erase s, if Function.update t s v x = some j then 1 else 0) =
      ∑ x ∈ Finset.univ.erase s, if t x = some j then 1 else 0 := by
    apply Finset.sum_congr rfl
    intro x hx
    rw [Function.update_of_ne (Finset.ne_of_mem_erase hx)]
  rw [hsplit (Function.update t s v),hsplit t,hrest,Function.update_self]
  omega

/-- A slot that holds something else before and after does not matter. -/
theorem occurrences_update_other {v : Option ι} (hold : t s ≠ some j) (hnew : v ≠ some j) :
    occurrences (Function.update t s v) j = occurrences t j := by
  have hsame := occurrences_update t s v j
  rw [if_neg hold,if_neg hnew] at hsame
  omega

end Slots

section Release
variable {σ ι : Type} [DecidableEq σ] [DecidableEq ι]

/-- The loop that empties those slots of a list that hold the entry and counts them off. -/
def release (j : ι) (slots : List σ) (t : σ → Option ι) (n : Int) : (σ → Option ι) × Int :=
  slots.foldl (fun r s => if r.1 s = some j then (Function.update r.1 s none,r.2-1) else r) (t,n)

theorem release_table (j : ι) (slots : List σ) (t : σ → Option ι) (n : Int) (s : σ) :
    (release j slots t n).1 s = if s ∈ slots ∧ t s = some j then none else t s := by
  induction slots generalizing t n with
  | nil => simp [release]
  | cons x rest ih =>
    simp only [release,List.foldl_cons] at ih ⊢
    by_cases hx : t x = some j
    · rw [if_pos hx,ih]
      by_cases hs : s = x
      · simp [hs,hx]
      · simp [hs]
    · rw [if_neg hx,ih]
      by_cases hs : s = x
      · simp [hs,hx]
      · simp [hs]

/-- The count goes down with the number of occurrences. -/
theorem release_count [Fintype σ] (j : ι) (slots : List σ) (t : σ → Option ι) (n : Int) :
    n-(release j slots t n).2 = occurrences t j-occurrences (release j slots t n).1 j := by
  induction slots generalizing t n with
  | nil => simp [release]
  | cons x rest ih =>
    simp only [release,List.foldl_cons] at ih ⊢
    by_cases hx : t x = some j
    · rw [if_pos hx]
      have hrest := ih (Function.update t x none) (n-1)
      have hone := occurrences_update t x none j
      simp only [hx,if_true,reduceCtorEq,if_false] at hone
      omega
    · rw [if_neg hx]
      exact ih t n

end Release

end Anoncoin.Lib
