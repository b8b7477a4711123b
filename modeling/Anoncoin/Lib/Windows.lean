import Mathlib.Order.Lattice

/-!
The most recent elements of a stream, and the median of a list.
-/

set_option autoImplicit false

namespace Anoncoin.Lib

section Recent
variable {α β : Type}

/-- Appending to a window of at most `n` elements; a full one loses its oldest. -/
def pushRecent (n : Nat) (l : List α) (x : α) : List α :=
  (if l.length = n then l.tail else l) ++ [x]

theorem pushRecent_ne_nil (n : Nat) (l : List α) (x : α) : pushRecent n l x ≠ [] := by
  simp [pushRecent]

theorem length_pushRecent {n : Nat} (hn : 0 < n) {l : List α} (hl : l.length ≤ n) (x : α) :
    (pushRecent n l x).length = min n (l.length+1) := by
  unfold pushRecent
  split
  · simp only [List.length_append,List.length_tail,List.length_singleton]
    omega
  · simp only [List.length_append,List.length_singleton]
    omega

theorem map_pushRecent (f : α → β) (n : Nat) (l : List α) (x : α) :
    (pushRecent n l x).map f = pushRecent n (l.map f) (f x) := by
  unfold pushRecent
  simp only [List.length_map,List.map_append]
  split
  · rw [List.map_tail]
    rfl
  · rfl

theorem pushRecent_of_lt {n : Nat} {l : List α} (h : l.length < n) (x : α) :
    pushRecent n l x = l ++ [x] := by
  rw [pushRecent,if_neg (by omega)]

theorem mem_pushRecent {n : Nat} {l : List α} {x y : α} (h : y ∈ pushRecent n l x) :
    y ∈ l ∨ y = x := by
  unfold pushRecent at h
  rcases List.mem_append.mp h with h | h
  · split at h
    · exact .inl (List.mem_of_mem_tail h)
    · exact .inl h
  · exact .inr (List.mem_singleton.mp h)

theorem countP_pushRecent_le (p : α → Bool) (n : Nat) (l : List α) (x : α) :
    (pushRecent n l x).countP p ≤ l.countP p+[x].countP p := by
  unfold pushRecent
  rw [List.countP_append]
  apply Nat.add_le_add_right
  split
  · exact (List.tail_sublist l).countP_le
  · exact Nat.le_refl _

end Recent

section Median
variable {α : Type} [LinearOrder α]

/-- At most half of the list lies on either side. -/
structure IsMedian (m : α) (l : List α) : Prop where
  mem : m ∈ l
  below : 2*l.countP (fun x => decide (x < m)) ≤ l.length
  above : 2*l.countP (fun x => decide (m < x)) ≤ l.length

theorem IsMedian.perm {m : α} {l l' : List α} (h : IsMedian m l) (hp : l.Perm l') :
    IsMedian m l' := by
  refine ⟨hp.mem_iff.mp h.mem,?_,?_⟩
  · rw [← hp.countP_eq,← hp.length_eq]
    exact h.below
  · rw [← hp.countP_eq,← hp.length_eq]
    exact h.above

/-- The element in the middle of a sorted list. -/
theorem isMedian_middle {m : α} {l : List α} (hs : l.Pairwise (· ≤ ·)) (hodd : l.length%2 = 1)
    (hm : l[l.length/2]? = some m) : IsMedian m l := by
  obtain ⟨hk,rfl⟩ := List.getElem?_eq_some_iff.mp hm
  have hsplit := List.take_append_drop (l.length/2) l
  have hdrop := List.drop_eq_getElem_cons hk
  rw [← hsplit,hdrop] at hs
  obtain ⟨-,htail,hcross⟩ := List.pairwise_append.mp hs
  have hhead := (List.pairwise_cons.mp htail).1
  have hbelow : ((l.drop (l.length/2)).countP fun x => decide (x < l[l.length/2])) = 0 := by
    rw [hdrop,List.countP_eq_zero]
    intro x hx
    rcases List.mem_cons.mp hx with rfl | hx
    · simp
    · simpa using hhead x hx
  have habove : ((l.take (l.length/2)).countP fun x => decide (l[l.length/2] < x)) = 0 := by
    rw [List.countP_eq_zero]
    intro x hx
    simpa using hcross x hx _ List.mem_cons_self
  have hcount : ∀ p : α → Bool,
      l.countP p = (l.take (l.length/2)).countP p+(l.drop (l.length/2)).countP p := by
    intro p
    rw [← List.countP_append,hsplit]
  refine ⟨List.getElem_mem hk,?_,?_⟩
  · have hle := List.countP_le_length (p := fun x => decide (x < l[l.length/2]))
      (l := l.take (l.length/2))
    have hcount := hcount fun x => decide (x < l[l.length/2])
    rw [hbelow] at hcount
    rw [List.length_take] at hle
    omega
  · have hle := List.countP_le_length (p := fun x => decide (l[l.length/2] < x))
      (l := (l.drop (l.length/2)).tail)
    have hcount := hcount fun x => decide (l[l.length/2] < x)
    rw [habove,hdrop,List.countP_cons] at hcount
    rw [hdrop,List.tail_cons,List.length_drop] at hle
    simp only [lt_self_iff_false,decide_false,Bool.false_eq_true,if_false] at hcount
    omega

theorem IsMedian.le {m m' : α} {l : List α} (h : IsMedian m l) (h' : IsMedian m' l)
    (hodd : l.length%2 = 1) : m ≤ m' := by
  by_contra hlt
  have hlt := lt_of_not_ge hlt
  have hall : l.length ≤ l.countP (fun x => decide (x < m))+l.countP fun x => decide (m' < x) := by
    rw [List.length_eq_countP_add_countP (fun x => decide (x < m))]
    apply Nat.add_le_add_left
    apply List.countP_mono_left
    intro x _ hx
    have hxm : m ≤ x := by simpa using hx
    simpa using lt_of_lt_of_le hlt hxm
  have h₁ := h.below
  have h₂ := h'.above
  omega

/-- A list of odd length has one median. -/
theorem IsMedian.unique {m m' : α} {l : List α} (h : IsMedian m l) (h' : IsMedian m' l)
    (hodd : l.length%2 = 1) : m = m' := le_antisymm (h.le h' hodd) (h'.le h hodd)

end Median

end Anoncoin.Lib
