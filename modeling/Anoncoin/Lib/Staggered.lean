import Mathlib.Data.List.DropRight
import Mathlib.Data.Set.Basic

/-!
Two collections to which the same keys are added and which are emptied in turn: one of them
always has the last `n` keys.
-/

set_option autoImplicit false

namespace Anoncoin.Lib

section Staggered
variable {κ : Type}

/-- The collection has the last `n` keys. -/
def HasLast (has : Set κ) (n : Nat) (keys : List κ) : Prop := ∀ key ∈ keys.rtake n, key ∈ has

/-- In phase `p` of `2*n` the first collection has the keys of this round, and the second one those
since the middle of a round. -/
structure Staggered (n p : Nat) (first second : Set κ) (keys : List κ) : Prop where
  phase : p < 2*n
  first : HasLast first p keys
  second : HasLast second (if p < n then p+n else p-n) keys

variable {has has' first first' second second' : Set κ} {n m p : Nat} {keys : List κ} {key : κ}

theorem HasLast.zero : HasLast has 0 keys := by simp [HasLast]

theorem HasLast.nil : HasLast has n [] := by simp [HasLast,List.rtake]

theorem HasLast.mono (h : HasLast has m keys) (hle : n ≤ m) : HasLast has n keys := by
  intro key hkey
  refine h key ?_
  rw [List.rtake] at *
  exact List.drop_subset_drop_left keys (by omega) hkey

theorem HasLast.add (h : HasLast has n keys) (hkeep : has ⊆ has') (hkey : key ∈ has') :
    HasLast has' (n+1) (keys ++ [key]) := by
  intro other hother
  rw [List.rtake_concat_succ,List.mem_append,List.mem_singleton] at hother
  rcases hother with hold | rfl
  · exact hkeep (h other hold)
  · exact hkey

theorem Staggered.init (hn : 0 < n) : Staggered n 0 first second [] :=
  ⟨by omega,.nil,.nil⟩

/-- The next phase: the first collection is emptied before the round, the second one in its
middle. -/
theorem Staggered.add (h : Staggered n p first second keys)
    (hfirst : p ≠ 0 → first ⊆ first') (hsecond : p ≠ n → second ⊆ second')
    (hkey : key ∈ first') (hkey' : key ∈ second') :
    Staggered n (if p+1 = 2*n then 0 else p+1) first' second' (keys ++ [key]) := by
  have hphase := h.phase
  have hfirst' : HasLast first' (p+1) (keys ++ [key]) := by
    by_cases hp : p = 0
    · subst hp
      exact HasLast.zero.add (Set.empty_subset _) hkey
    · exact h.first.add (hfirst hp) hkey
  have hsecond' : HasLast second' ((if p < n then p+n else p-n)+1) (keys ++ [key]) := by
    by_cases hp : p = n
    · subst hp
      simp only [lt_irrefl,if_false,Nat.sub_self]
      exact HasLast.zero.add (Set.empty_subset _) hkey'
    · exact h.second.add (hsecond hp) hkey'
  constructor
  · split <;> omega
  · exact hfirst'.mono (by split <;> omega)
  · exact hsecond'.mono (by split <;> split <;> split <;> omega)

/-- The second collection has the last keys in the first half of a round, the first one in the
second half. -/
theorem Staggered.last (h : Staggered n p first second keys) :
    HasLast (if p < n then second else first) n keys := by
  have hsecond := h.second
  split
  · rename_i hp
    rw [if_pos hp] at hsecond
    exact hsecond.mono (by omega)
  · exact h.first.mono (by omega)

end Staggered

end Anoncoin.Lib
