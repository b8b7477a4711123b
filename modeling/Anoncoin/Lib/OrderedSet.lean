import Mathlib.Data.List.TakeWhile
import Mathlib.Order.Lattice
import Mathlib.Tactic.Common

/-!
Sets in the order of a comparison: comparisons of lists and of pairs from those of their parts,
and the operations that find an element by comparing only.
-/

set_option autoImplicit false

namespace Anoncoin.Lib

section Comparisons
variable {α β : Type} {less : α → α → Bool} {less' : β → β → Bool}

/-- A comparison that sorts. -/
class StrictLess (less : α → α → Bool) : Prop where
  irrefl : ∀ a, less a a = false
  trans : ∀ {a b c}, less a b = true → less b c = true → less a c = true

/-- What it does not tell apart is equal. -/
structure TotalLess (less : α → α → Bool) : Prop extends StrictLess less where
  connected : ∀ {a b}, ¬less a b = true → ¬less b a = true → a = b

theorem totalLess_lt {κ : Type} [LinearOrder κ] {f : α → κ} (hf : ∀ a b, f a = f b → a = b) :
    TotalLess fun a b => decide (f a < f b) where
  irrefl _ := decide_eq_false (lt_irrefl _)
  trans hab hbc := decide_eq_true (lt_trans (of_decide_eq_true hab) (of_decide_eq_true hbc))
  connected hab hba := hf _ _ (le_antisymm (not_lt.mp fun h => hba (decide_eq_true h))
    (not_lt.mp fun h => hab (decide_eq_true h)))

/-- The lexicographic comparison. -/
def lexLess (less : α → α → Bool) : List α → List α → Bool
  | _,[] => false
  | [],_ :: _ => true
  | a :: as,b :: bs => if less a b then true else if less b a then false else lexLess less as bs

theorem lexLess_cons (h : TotalLess less) {a b : α} {as bs : List α} :
    lexLess less (a :: as) (b :: bs) = true ↔
      less a b = true ∨ (a = b ∧ lexLess less as bs = true) := by
  rw [lexLess]
  by_cases hab : less a b = true
  · simp [hab]
  · by_cases hba : less b a = true
    · have hne : a ≠ b := by
        rintro rfl
        exact hab hba
      simp [hab,hba,hne]
    · obtain rfl := h.connected hab hba
      simp [h.irrefl]

theorem TotalLess.lexLess (h : TotalLess less) : TotalLess (lexLess less) where
  irrefl as := by
    induction as with
    | nil => rfl
    | cons a as ih => simp [Anoncoin.Lib.lexLess,h.irrefl,ih]
  trans {as bs cs} hab hbc := by
    induction as generalizing bs cs with
    | nil =>
      cases cs with
      | nil =>
        cases bs <;> contradiction
      | cons c cs => rfl
    | cons a as ih =>
      cases bs with
      | nil => contradiction
      | cons b bs =>
        cases cs with
        | nil => contradiction
        | cons c cs =>
          rw [lexLess_cons h] at hab hbc ⊢
          rcases hab with hab | ⟨rfl,hab⟩
          · rcases hbc with hbc | ⟨rfl,-⟩
            · exact .inl (h.trans hab hbc)
            · exact .inl hab
          · rcases hbc with hbc | ⟨rfl,hbc⟩
            · exact .inl hbc
            · exact .inr ⟨rfl,ih hab hbc⟩
  connected {as bs} hab hba := by
    induction as generalizing bs with
    | nil =>
      cases bs with
      | nil => rfl
      | cons b bs => contradiction
    | cons a as ih =>
      cases bs with
      | nil => contradiction
      | cons b bs =>
        rw [lexLess_cons h] at hab hba
        push Not at hab hba
        obtain rfl := h.connected hab.1 hba.1
        rw [ih (hab.2 rfl) (hba.2 rfl)]

/-- The comparison of tuples. -/
def pairLess (less : α → α → Bool) (less' : β → β → Bool) (a b : α × β) : Bool :=
  less a.1 b.1 || (!less b.1 a.1 && less' a.2 b.2)

theorem pairLess_iff (h : TotalLess less) {a b : α × β} :
    pairLess less less' a b = true ↔ less a.1 b.1 = true ∨ (a.1 = b.1 ∧ less' a.2 b.2 = true) := by
  unfold pairLess
  by_cases hab : less a.1 b.1 = true
  · simp [hab]
  · by_cases hba : less b.1 a.1 = true
    · have hne : a.1 ≠ b.1 := by
        intro heq
        rw [heq] at hab hba
        exact hab hba
      simp [hab,hba,hne]
    · simp [h.connected hab hba,h.irrefl]

theorem TotalLess.pairLess (h : TotalLess less) (h' : TotalLess less') :
    TotalLess (pairLess less less') where
  irrefl a := by simp [Anoncoin.Lib.pairLess,h.irrefl,h'.irrefl]
  trans {a b c} hab hbc := by
    rw [pairLess_iff h] at hab hbc ⊢
    rcases hab with hab | ⟨heq,hab⟩
    · rcases hbc with hbc | ⟨heq',-⟩
      · exact .inl (h.trans hab hbc)
      · exact .inl (heq' ▸ hab)
    · rcases hbc with hbc | ⟨heq',hbc⟩
      · exact .inl (heq ▸ hbc)
      · exact .inr ⟨heq.trans heq',h'.trans hab hbc⟩
  connected {a b} hab hba := by
    rw [pairLess_iff h] at hab hba
    push Not at hab hba
    have hfirst := h.connected hab.1 hba.1
    exact Prod.ext hfirst (h'.connected (hab.2 hfirst) (hba.2 hfirst.symm))

end Comparisons

/-- A set that is kept in the order of a comparison. -/
structure OrderedSet {α : Type} (less : α → α → Bool) where
  elements : List α
  sorted : elements.Pairwise fun a b => less a b = true

namespace OrderedSet
variable {α : Type} {less : α → α → Bool} {s : OrderedSet less} {a k : α}

def empty : OrderedSet less := ⟨[],List.Pairwise.nil⟩

def size (s : OrderedSet less) : Nat := s.elements.length

def below (s : OrderedSet less) (k : α) : List α := s.elements.takeWhile fun a => less a k

/-- The elements from the first on that is not less. -/
def lowerBound (s : OrderedSet less) (k : α) : List α := s.elements.dropWhile fun a => less a k

theorem below_append (s : OrderedSet less) (k : α) : s.below k ++ s.lowerBound k = s.elements :=
  List.takeWhile_append_dropWhile

theorem mem_of_mem_lowerBound (h : a ∈ s.lowerBound k) : a ∈ s.elements := by
  rw [← s.below_append k]
  exact List.mem_append_right _ h

def find? (s : OrderedSet less) (k : α) : Option α :=
  match s.lowerBound k with
  | [] => none
  | a :: _ => if less k a then none else some a

/-- What is found cannot be told apart from what was looked for. -/
theorem find?_some (h : s.find? k = some a) :
    a ∈ s.elements ∧ less a k = false ∧ less k a = false := by
  unfold find? at h
  cases hlower : s.lowerBound k with
  | nil =>
    rw [hlower] at h
    contradiction
  | cons b later =>
    rw [hlower] at h
    have hhead := List.head?_dropWhile_not (fun a => less a k) s.elements
    unfold lowerBound at hlower
    rw [hlower] at hhead
    dsimp only at h
    split_ifs at h with hless
    obtain rfl := Option.some.inj h
    refine ⟨mem_of_mem_lowerBound (k := k) ?_,hhead,Bool.not_eq_true _ ▸ hless⟩
    unfold lowerBound
    rw [hlower]
    exact List.mem_cons_self

/-- Everything equivalent to `k` goes. -/
def erase (s : OrderedSet less) (k : α) : OrderedSet less where
  elements := s.below k ++ (s.lowerBound k).dropWhile fun a => !less k a
  sorted := by
    have hsub : List.Sublist (s.below k ++ (s.lowerBound k).dropWhile fun a => !less k a)
        s.elements := by
      conv_rhs => rw [← s.below_append k]
      exact (List.Sublist.refl _).append (List.dropWhile_sublist _)
    exact s.sorted.sublist hsub

theorem mem_of_mem_erase (h : a ∈ (s.erase k).elements) : a ∈ s.elements := by
  rcases List.mem_append.mp h with hbelow | hlater
  · rw [← s.below_append k]
    exact List.mem_append_left _ hbelow
  · exact mem_of_mem_lowerBound ((List.dropWhile_sublist _).subset hlater)

/-- The elements before an element and the ones from it on. -/
theorem splits_at [h : StrictLess less] (hk : k ∈ s.elements) :
    ∃ later, s.lowerBound k = k :: later := by
  obtain ⟨before,later,hsplit⟩ := List.append_of_mem hk
  have hsorted := s.sorted
  rw [hsplit,List.pairwise_append] at hsorted
  have hbefore : ∀ a ∈ before, less a k = true := fun a ha =>
    hsorted.2.2 a ha k List.mem_cons_self
  refine ⟨later,?_⟩
  unfold lowerBound
  rw [hsplit,List.dropWhile_append_of_pos hbefore,
    List.dropWhile_cons_of_neg (by rw [h.irrefl]; exact Bool.false_ne_true)]

/-- Erasing an element makes the set smaller. -/
theorem size_erase_lt [h : StrictLess less] (hk : k ∈ s.elements) : (s.erase k).size < s.size := by
  obtain ⟨later,hlower⟩ := splits_at hk
  have hwhole := congrArg List.length (s.below_append k)
  have hrest := (List.dropWhile_sublist (l := later) fun a => !less k a).length_le
  unfold size erase
  dsimp only
  rw [hlower,List.length_append,List.length_cons] at hwhole
  rw [hlower,List.length_append,List.dropWhile_cons_of_pos (by rw [h.irrefl]; rfl)]
  omega

/-- An element that is equivalent to one in the set is not inserted. -/
def insert [StrictLess less] (s : OrderedSet less) (k : α) : OrderedSet less where
  elements :=
    match s.lowerBound k with
    | [] => s.below k ++ [k]
    | a :: later => if less k a then s.below k ++ k :: a :: later else s.elements
  sorted := by
    have hwhole := s.below_append k
    have hsorted := s.sorted
    have hbelow : ∀ a ∈ s.below k, less a k = true := fun a ha =>
      List.mem_takeWhile_imp (p := fun a => less a k) ha
    cases hlower : s.lowerBound k with
    | nil =>
      rw [hlower,List.append_nil] at hwhole
      rw [← hwhole] at hsorted
      exact List.pairwise_append.mpr ⟨hsorted,List.pairwise_singleton _ _,fun a ha b hb =>
        List.mem_singleton.mp hb ▸ hbelow a ha⟩
    | cons b later =>
      dsimp only
      split_ifs with hless
      · rw [hlower] at hwhole
        rw [← hwhole] at hsorted
        obtain ⟨hfirst,hsecond,hcross⟩ := List.pairwise_append.mp hsorted
        refine List.pairwise_append.mpr ⟨hfirst,List.pairwise_cons.mpr ⟨?_,hsecond⟩,?_⟩
        · intro c hc
          rcases List.mem_cons.mp hc with rfl | hc
          · exact hless
          · exact StrictLess.trans hless ((List.pairwise_cons.mp hsecond).1 c hc)
        · intro a ha c hc
          rcases List.mem_cons.mp hc with rfl | hc
          · exact hbelow a ha
          · exact hcross a ha c hc
      · exact hsorted

theorem insert_cases [StrictLess less] (s : OrderedSet less) (k : α) :
    (s.insert k).elements = s.elements ∨
      (s.insert k).elements = s.below k ++ k :: s.lowerBound k := by
  unfold insert
  dsimp only
  cases s.lowerBound k with
  | nil => exact .inr rfl
  | cons a later =>
    dsimp only
    split_ifs
    · exact .inr rfl
    · exact .inl rfl

theorem mem_of_mem_insert [StrictLess less] (h : a ∈ (s.insert k).elements) :
    a = k ∨ a ∈ s.elements := by
  rcases insert_cases s k with heq | heq
  · exact .inr (heq ▸ h)
  · rw [heq] at h
    rw [← s.below_append k]
    simp only [List.mem_append,List.mem_cons] at h ⊢
    tauto

theorem mem_insert_of_mem [StrictLess less] (k : α) (h : a ∈ s.elements) :
    a ∈ (s.insert k).elements := by
  rcases insert_cases s k with heq | heq
  · rwa [heq]
  · rw [heq]
    rw [← s.below_append k] at h
    simp only [List.mem_append,List.mem_cons] at h ⊢
    tauto

theorem mem_insert_self [StrictLess less] (h : TotalLess less) (s : OrderedSet less) (k : α) :
    k ∈ (s.insert k).elements := by
  unfold insert
  dsimp only
  cases hlower : s.lowerBound k with
  | nil => exact List.mem_append_right _ List.mem_cons_self
  | cons a later =>
    dsimp only
    split_ifs with hless
    · exact List.mem_append_right _ List.mem_cons_self
    · have hhead := List.head?_dropWhile_not (fun a => less a k) s.elements
      have ha : a ∈ s.lowerBound k := by
        rw [hlower]
        exact List.mem_cons_self
      unfold lowerBound at hlower
      rw [hlower] at hhead
      have hnot : ¬less a k = true := by
        rw [Bool.not_eq_true]
        exact hhead
      rw [← h.connected hnot hless]
      exact mem_of_mem_lowerBound ha

end OrderedSet

end Anoncoin.Lib
