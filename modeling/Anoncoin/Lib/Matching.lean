import Mathlib.Data.Fin.Basic
import Mathlib.Order.Fin.Basic

/-!
Matching in order: each element of one list is assigned an element of another that it fits,
later ones to later ones. A greedy pass decides whether this can be done.
-/

set_option autoImplicit false

namespace Anoncoin.Lib

section Matching
variable {α β : Type} {fits : α → β → Bool} {a : α} {b : β} {as : List α} {bs : List β}

/-- An assignment of all of `as` to elements of `bs` that they fit, in order. -/
def OrderedMatch (fits : α → β → Bool) (as : List α) (bs : List β) : Prop :=
  ∃ f : Fin as.length → Fin bs.length, StrictMono f ∧ ∀ i, fits (as.get i) (bs.get (f i)) = true

/-- Each element takes the first one left that it fits. -/
def greedyMatch (fits : α → β → Bool) : List α → List β → Bool
  | [],_ => true
  | _ :: _,[] => false
  | a :: as,b :: bs => if fits a b then greedyMatch fits as bs else greedyMatch fits (a :: as) bs

/-- The assignments, step by step through `bs`. -/
inductive Matches (fits : α → β → Bool) : List α → List β → Prop
  | nil (bs : List β) : Matches fits [] bs
  | take {a : α} {b : β} {as : List α} {bs : List β} :
      fits a b = true → Matches fits as bs → Matches fits (a :: as) (b :: bs)
  | skip {as : List α} {bs : List β} (b : β) : Matches fits as bs → Matches fits as (b :: bs)

theorem Matches.length_le (h : Matches fits as bs) : as.length ≤ bs.length := by
  induction h with
  | nil bs => exact Nat.zero_le _
  | take _ _ ih => exact Nat.succ_le_succ ih
  | skip b _ ih => exact Nat.le_succ_of_le ih

theorem Matches.tail (h : Matches fits (a :: as) bs) : Matches fits as bs := by
  generalize hall : a :: as = all at h
  induction h with
  | nil bs => exact absurd hall (List.cons_ne_nil _ _)
  | @take a' b as' bs _ h _ =>
    obtain ⟨-,rfl⟩ := List.cons.inj hall
    exact .skip b h
  | skip b _ ih => exact .skip b (ih hall)

/-- Taking the first element that fits loses nothing. -/
theorem Matches.exchange (h : Matches fits (a :: as) (b :: bs)) : Matches fits as bs := by
  cases h with
  | take _ h => exact h
  | skip _ h => exact h.tail

theorem greedyMatch_iff : greedyMatch fits as bs = true ↔ Matches fits as bs := by
  induction bs generalizing as with
  | nil =>
    cases as with
    | nil => simp [greedyMatch,Matches.nil]
    | cons a as =>
      have hnone : ¬Matches fits (a :: as) [] := fun h => by simpa using h.length_le
      simp [greedyMatch,hnone]
  | cons b bs ih =>
    cases as with
    | nil => simp [greedyMatch,Matches.nil]
    | cons a as =>
      by_cases hfits : fits a b = true
      · simp only [greedyMatch,hfits,if_true,ih]
        exact ⟨.take hfits,.exchange⟩
      · rw [greedyMatch,if_neg hfits,ih]
        refine ⟨.skip b,fun h => ?_⟩
        cases h with
        | take htrue _ => exact absurd htrue hfits
        | skip _ h => exact h

theorem greedyMatch_of_length_lt (h : bs.length < as.length) : greedyMatch fits as bs = false := by
  have hnone : ¬Matches fits as bs := fun hmatch => Nat.not_le_of_lt h hmatch.length_le
  rwa [← greedyMatch_iff,Bool.not_eq_true] at hnone

theorem Matches.concat_nil (h : Matches fits as bs) (b : β) : Matches fits as (bs ++ [b]) := by
  induction h with
  | nil bs => exact .nil _
  | take hfits _ ih => exact .take hfits ih
  | skip b' _ ih => exact .skip b' ih

theorem Matches.concat (h : Matches fits as bs) (hfits : fits a b = true) :
    Matches fits (as ++ [a]) (bs ++ [b]) := by
  induction h with
  | nil bs =>
    induction bs with
    | nil => exact .take hfits (.nil [])
    | cons b' bs ih => exact .skip b' ih
  | take hfits' _ ih => exact .take hfits' ih
  | skip b' _ ih => exact .skip b' ih

theorem Matches.reverse (h : Matches fits as bs) : Matches fits as.reverse bs.reverse := by
  induction h with
  | nil bs => exact .nil _
  | @take a b as bs hfits _ ih =>
    rw [List.reverse_cons,List.reverse_cons]
    exact ih.concat hfits
  | @skip as bs b _ ih =>
    rw [List.reverse_cons]
    exact ih.concat_nil b

/-- From which end the lists are matched does not matter. -/
theorem matches_reverse : Matches fits as.reverse bs.reverse ↔ Matches fits as bs := by
  refine ⟨fun h => ?_,Matches.reverse⟩
  simpa using h.reverse

theorem Matches.orderedMatch (h : Matches fits as bs) : OrderedMatch fits as bs := by
  induction h with
  | nil bs => exact ⟨fun i => i.elim0,fun i => i.elim0,fun i => i.elim0⟩
  | @take a b as bs hfits _ ih =>
    obtain ⟨f,hmono,hall⟩ := ih
    refine ⟨Fin.cases 0 fun i => (f i).succ,fun i j hij => ?_,fun i => ?_⟩
    · cases j using Fin.cases with
      | zero => exact absurd hij (Fin.not_lt_zero i)
      | succ j =>
        cases i using Fin.cases with
        | zero => exact Fin.succ_pos _
        | succ i => exact Fin.succ_lt_succ_iff.mpr (hmono (Fin.succ_lt_succ_iff.mp hij))
    · cases i using Fin.cases with
      | zero => exact hfits
      | succ i => exact hall i
  | @skip as bs b _ ih =>
    obtain ⟨f,hmono,hall⟩ := ih
    exact ⟨fun i => (f i).succ,fun i j hij => Fin.succ_lt_succ_iff.mpr (hmono hij),hall⟩

/-- What lies behind the first element. -/
theorem exists_eq_succ {m n : Nat} {f : Fin m → Fin (n+1)} (h : ∀ i, f i ≠ 0) :
    ∃ g : Fin m → Fin n, ∀ i, f i = (g i).succ :=
  ⟨fun i => (f i).pred (h i),fun i => (Fin.succ_pred (f i) (h i)).symm⟩

theorem OrderedMatch.matches (h : OrderedMatch fits as bs) : Matches fits as bs := by
  induction bs generalizing as with
  | nil =>
    cases as with
    | nil => exact .nil []
    | cons a as =>
      obtain ⟨f,-,-⟩ := h
      exact (f 0).elim0
  | cons b bs ih =>
    cases as with
    | nil => exact .nil _
    | cons a as =>
      obtain ⟨f,hmono,hall⟩ := h
      by_cases hfirst : f 0 = 0
      · have hlater : ∀ i : Fin as.length, f i.succ ≠ 0 := fun i hzero =>
          absurd (hmono (Fin.succ_pos i)) (by rw [hzero]; exact Fin.not_lt_zero _)
        obtain ⟨g,hg⟩ := exists_eq_succ hlater
        refine .take ?_ (ih ⟨g,fun i j hij => ?_,fun i => ?_⟩)
        · have hfits := hall 0
          rw [hfirst] at hfits
          exact hfits
        · have hless := hmono (Fin.succ_lt_succ_iff.mpr hij)
          rw [hg,hg] at hless
          exact Fin.succ_lt_succ_iff.mp hless
        · have hfits := hall i.succ
          rw [hg] at hfits
          exact hfits
      · have hnonzero : ∀ i, f i ≠ 0 := fun i hzero => by
          have hle := hmono.monotone (Fin.zero_le i)
          rw [hzero] at hle
          exact hfirst (Fin.le_zero_iff.mp hle)
        obtain ⟨g,hg⟩ := exists_eq_succ hnonzero
        refine .skip b (ih ⟨g,fun i j hij => ?_,fun i => ?_⟩)
        · have hless := hmono hij
          rw [hg,hg] at hless
          exact Fin.succ_lt_succ_iff.mp hless
        · have hfits := hall i
          rw [hg] at hfits
          exact hfits

theorem matches_iff_orderedMatch : Matches fits as bs ↔ OrderedMatch fits as bs :=
  ⟨Matches.orderedMatch,OrderedMatch.matches⟩

theorem orderedMatch_of_getElem (hle : as.length ≤ bs.length)
    (h : ∀ (i : Nat) (hi : i < as.length),
      fits (as.get ⟨i,hi⟩) (bs.get ⟨i,Nat.lt_of_lt_of_le hi hle⟩) = true) :
    OrderedMatch fits as bs :=
  ⟨Fin.castLE hle,Fin.strictMono_castLE hle,fun i => h i i.isLt⟩

/-- The greedy pass decides whether there is an assignment, from either end. -/
theorem greedyMatch_reverse_iff :
    greedyMatch fits as.reverse bs.reverse = true ↔ OrderedMatch fits as bs := by
  rw [greedyMatch_iff,matches_reverse,matches_iff_orderedMatch]

theorem Matches.exists_of_mem (h : Matches fits as bs) (ha : a ∈ as) :
    ∃ b ∈ bs, fits a b = true := by
  induction h with
  | nil bs => exact absurd ha List.not_mem_nil
  | @take a' b as bs hfits _ ih =>
    rcases List.mem_cons.mp ha with rfl | ha
    · exact ⟨b,List.mem_cons_self,hfits⟩
    · obtain ⟨b',hb,hfits'⟩ := ih ha
      exact ⟨b',List.mem_cons_of_mem _ hb,hfits'⟩
  | skip b' _ ih =>
    obtain ⟨b,hb,hfits⟩ := ih ha
    exact ⟨b,List.mem_cons_of_mem _ hb,hfits⟩

section Chosen
variable {choose : β → Option α} {pad : α} {k : Nat}

/-- The first `k` elements; where they are too few, others are added. -/
def filled (pad : α) (k : Nat) (as : List α) : List α :=
  as.take k ++ List.replicate (k-as.length) pad

theorem length_filled : (filled pad k as).length = k := by
  rw [filled,List.length_append,List.length_take,List.length_replicate]
  omega

theorem mem_of_mem_filled (h : a ∈ filled pad k as) : a ∈ as ∨ a = pad := by
  rcases List.mem_append.mp h with htaken | hpad
  · exact .inl (List.mem_of_mem_take htaken)
  · exact .inr (List.eq_of_mem_replicate hpad)

/-- What was chosen for the elements of `bs` matches them in order. -/
theorem matches_chosen (hchoose : ∀ b a, choose b = some a → fits a b = true) :
    Matches fits ((bs.filterMap choose).take k) bs := by
  induction bs generalizing k with
  | nil =>
    rw [List.filterMap_nil,List.take_nil]
    exact .nil []
  | cons b bs ih =>
    cases hb : choose b with
    | none =>
      rw [List.filterMap_cons_none hb]
      exact .skip b ih
    | some a =>
      rw [List.filterMap_cons_some hb]
      cases k with
      | zero => exact .nil _
      | succ k => exact .take (hchoose b a hb) ih

/-- Filled with what fits nothing, the chosen elements match when they are enough. -/
theorem matches_filled_iff (hchoose : ∀ b a, choose b = some a → fits a b = true)
    (hpad : ∀ b ∈ bs, fits pad b = false) :
    Matches fits (filled pad k (bs.filterMap choose)) bs ↔ k ≤ (bs.filterMap choose).length := by
  unfold filled
  constructor
  · intro h
    by_contra hfew
    have hmem : pad ∈ List.replicate (k-(bs.filterMap choose).length) pad :=
      List.mem_replicate.mpr ⟨by omega,rfl⟩
    obtain ⟨b,hb,hfits⟩ := h.exists_of_mem (List.mem_append_right _ hmem)
    rw [hpad b hb] at hfits
    exact Bool.false_ne_true hfits
  · intro henough
    rw [Nat.sub_eq_zero_of_le henough,List.replicate_zero,List.append_nil]
    exact matches_chosen hchoose

end Chosen

end Matching

end Anoncoin.Lib
