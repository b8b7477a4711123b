import Mathlib.Data.List.DropRight
import Mathlib.Data.List.AList
import Mathlib.Algebra.BigOperators.Group.List.Basic

/-!
Two container facts used throughout: a vector that is trimmed at its end and later
padded again, and a loop over a keyed table that touches one key at a time.
-/

set_option autoImplicit false

namespace Anoncoin.Lib

section Trim
variable {α : Type} (p : α → Bool)

theorem rdropWhile_getElem?_beyond (l : List α) (i : Nat) (a : α)
    (hi : (l.rdropWhile p).length ≤ i) (ha : l[i]? = some a) : p a = true := by
  induction l using List.reverseRecOn with
  | nil => simp at ha
  | append_singleton l x ih =>
    by_cases hx : p x = true
    · rw [List.rdropWhile_concat_pos p l x hx] at hi
      by_cases hl : i < l.length
      · rw [List.getElem?_append_left hl] at ha
        exact ih hi ha
      · have hb := (List.getElem?_eq_some_iff.mp ha).1
        have hil : i = l.length := by simp at hb; omega
        subst hil
        simp at ha
        exact ha ▸ hx
    · rw [List.rdropWhile_concat_neg p l x hx] at hi
      rw [List.getElem?_eq_none hi] at ha
      contradiction

theorem rdropWhile_getElem?_within (l : List α) (i : Nat)
    (hi : i < (l.rdropWhile p).length) : (l.rdropWhile p)[i]? = l[i]? := by
  obtain ⟨t,ht⟩ := List.rdropWhile_prefix p l
  conv_rhs => rw [← ht]
  rw [List.getElem?_append_left hi]

/-- Grow a vector to at least `n` elements, as `resize` does. -/
def pad (d : α) (n : Nat) (l : List α) : List α := l ++ List.replicate (n-l.length) d

theorem pad_length (d : α) (n : Nat) (l : List α) : (pad d n l).length = max l.length n := by
  simp [pad]; omega

theorem pad_getElem?_right (d : α) (n : Nat) (l : List α) (i : Nat)
    (hl : l.length ≤ i) (hi : i < n) : (pad d n l)[i]? = some d := by
  unfold pad
  rw [List.getElem?_append_right hl,List.getElem?_replicate_of_lt (by omega)]

/-- Overwriting one element of a trimmed vector by the filler, trimming, and later
padding and writing the element back restores the vector. -/
theorem set_pad_rdropWhile (d : α) (l : List α) (n : Nat) (o : α)
    (htrim : l.rdropWhile p = l) (hfill : ∀ a ∈ l, p a = true → a = d)
    (hn : l[n]? = some o) :
    (pad d (n+1) ((l.set n d).rdropWhile p)).set n o = l := by
  have hlt : n < l.length := (List.getElem?_eq_some_iff.mp hn).1
  have hlen : (pad d (n+1) ((l.set n d).rdropWhile p)).length = l.length := by
    rw [pad_length]
    have hle := (List.rdropWhile_prefix p (l.set n d)).length_le
    rw [List.length_set] at hle
    by_cases hlast : n+1 = l.length
    · omega
    · have hkeep : (l.set n d).rdropWhile p = l.set n d := by
        rw [List.rdropWhile_eq_self_iff]
        intro hne
        have hne' : l ≠ [] := by intro h; simp [h] at hlt
        have hl := List.rdropWhile_eq_self_iff.mp htrim hne'
        rw [List.getLast_eq_getElem] at hl ⊢
        rw [List.getElem_set]
        simp only [List.length_set]
        rw [if_neg (by omega)]
        exact hl
      rw [hkeep,List.length_set]
      omega
  apply List.ext_getElem?
  intro i
  by_cases hin : i = n
  · subst hin
    rw [List.getElem?_set_self (by omega),hn]
  · rw [List.getElem?_set_ne (Ne.symm hin)]
    by_cases hil : i < l.length
    · have hset : (l.set n d)[i]? = l[i]? := List.getElem?_set_ne (Ne.symm hin)
      by_cases hit : i < ((l.set n d).rdropWhile p).length
      · unfold pad
        rw [List.getElem?_append_left hit,rdropWhile_getElem?_within p _ i hit,hset]
      · have hpl := pad_length d (n+1) ((l.set n d).rdropWhile p)
        have hi1 : i < n+1 := by omega
        rw [pad_getElem?_right d (n+1) _ i (by omega) hi1]
        have hli : l[i]? = some l[i] := List.getElem?_eq_getElem hil
        rw [hli]
        have hp := rdropWhile_getElem?_beyond p (l.set n d) i l[i] (by omega) (by rw [hset,hli])
        rw [hfill _ (List.getElem_mem hil) hp]
    · rw [List.getElem?_eq_none (by omega),List.getElem?_eq_none (by omega)]

end Trim

section KeyedLoop
variable {κ α β σ : Type} [DecidableEq κ]

/-- A loop over a table with distinct keys, each step of which changes only what is
stored under its own key, ends with every key updated exactly once. `upd` says what
a step makes of the value it finds; a step for which `upd` has a value succeeds. -/
theorem foldlM_keyed (get : σ → κ → β) (step : σ → (Σ _ : κ, α) → Option σ)
    (upd : κ → β → α → Option β)
    (hstep : ∀ s k a b, upd k (get s k) a = some b →
      ∃ s', step s ⟨k,a⟩ = some s' ∧ get s' = Function.update (get s) k b)
    (l : List (Σ _ : κ, α)) (s : σ) (hnd : l.NodupKeys)
    (hok : ∀ k a, l.dlookup k = some a → ∃ b, upd k (get s k) a = some b) :
    ∃ s', l.foldlM step s = some s' ∧
      ∀ k, match l.dlookup k with
        | none => get s' k = get s k
        | some a => upd k (get s k) a = some (get s' k) := by
  induction l generalizing s with
  | nil => exact ⟨s,rfl,fun k => rfl⟩
  | cons e rest ih =>
    obtain ⟨k,a⟩ := e
    obtain ⟨hk,hnd'⟩ := List.nodupKeys_cons.mp hnd
    obtain ⟨b,hb⟩ := hok k a (by simp)
    obtain ⟨s₁,hs₁,hg₁⟩ := hstep s k a b hb
    have hrest : ∀ k', k' ≠ k → get s₁ k' = get s k' := by
      intro k' hne
      rw [hg₁,Function.update_of_ne hne]
    have hnone : rest.dlookup k = none := List.dlookup_eq_none.mpr hk
    have hok' : ∀ k' a', rest.dlookup k' = some a' → ∃ b, upd k' (get s₁ k') a' = some b := by
      intro k' a' h
      have hne : k' ≠ k := by
        rintro rfl
        rw [hnone] at h
        contradiction
      rw [hrest k' hne]
      exact hok k' a' (by rw [List.dlookup_cons_ne _ _ hne]; exact h)
    obtain ⟨s₂,hs₂,hg₂⟩ := ih s₁ hnd' hok'
    refine ⟨s₂,?_,?_⟩
    · rw [List.foldlM_cons,hs₁]
      exact hs₂
    · intro k'
      by_cases hne : k' = k
      · subst hne
        have h := hg₂ k'
        rw [hnone] at h
        rw [List.dlookup_cons_eq]
        simp only at h ⊢
        rw [h,hg₁,Function.update_self,hb]
      · rw [List.dlookup_cons_ne _ _ hne]
        have h := hg₂ k'
        cases hd : rest.dlookup k' with
        | none =>
          rw [hd] at h
          simp only at h ⊢
          rw [h,hrest k' hne]
        | some a' =>
          rw [hd] at h
          simp only at h ⊢
          rw [← hrest k' hne,h]

end KeyedLoop

section KeyedSum
variable {κ α M : Type} [DecidableEq κ] [AddCommMonoid M]

/-- Taking one key out of a table takes its summand out of a sum over the table. -/
theorem sum_kerase (f : (Σ _ : κ, α) → M) {l : List (Σ _ : κ, α)} {k : κ} {a : α}
    (h : l.dlookup k = some a) : f ⟨k,a⟩+((l.kerase k).map f).sum = (l.map f).sum := by
  induction l with
  | nil => simp at h
  | cons e rest ih =>
    obtain ⟨k',a'⟩ := e
    by_cases hk : k = k'
    · subst hk
      rw [List.dlookup_cons_eq] at h
      obtain rfl := Option.some.inj h
      have hrest : List.kerase k ((⟨k,a'⟩ : Σ _ : κ, α) :: rest) = rest := List.kerase_cons_eq rfl
      rw [hrest]
      simp
    · rw [List.dlookup_cons_ne _ _ hk] at h
      have hrest : List.kerase k ((⟨k',a'⟩ : Σ _ : κ, α) :: rest) = ⟨k',a'⟩ :: rest.kerase k :=
        List.kerase_cons_ne hk
      rw [hrest,List.map_cons,List.sum_cons,List.map_cons,List.sum_cons,← ih h,add_left_comm]

/-- Overwriting a key exchanges its summand. -/
theorem sum_insert (f : (Σ _ : κ, α) → M) (l : AList fun _ : κ => α) (k : κ) (a : α) :
    ((l.insert k a).entries.map f).sum = f ⟨k,a⟩+((l.erase k).entries.map f).sum :=
  List.sum_cons

theorem sum_erase (f : (Σ _ : κ, α) → M) {l : AList fun _ : κ => α} {k : κ} {a : α}
    (h : l.lookup k = some a) :
    f ⟨k,a⟩+((l.erase k).entries.map f).sum = (l.entries.map f).sum := sum_kerase f h

theorem sum_erase_none (f : (Σ _ : κ, α) → M) {l : AList fun _ : κ => α} {k : κ}
    (h : l.lookup k = none) : ((l.erase k).entries.map f).sum = (l.entries.map f).sum := by
  have hk : k ∉ l.entries.keys := List.dlookup_eq_none.mp h
  have hsame : (l.erase k).entries = l.entries := List.kerase_of_notMem_keys hk
  rw [hsame]

end KeyedSum

/-- A property that fewer elements have. -/
theorem countP_lt_countP {α : Type} {p q : α → Bool} {l : List α}
    (hle : ∀ x, q x = true → p x = true) (hlt : ∃ x ∈ l, p x = true ∧ q x = false) :
    l.countP q < l.countP p := by
  induction l with
  | nil => simp at hlt
  | cons y rest ih =>
    have hrest : rest.countP q ≤ rest.countP p := List.countP_mono_left fun x _ => hle x
    rw [List.countP_cons,List.countP_cons]
    obtain ⟨x,hx,hp,hq⟩ := hlt
    obtain rfl | hx := List.mem_cons.mp hx
    · simp only [hp,hq,if_true,Bool.false_eq_true,if_false]
      omega
    · have hi := ih ⟨x,hx,hp,hq⟩
      by_cases hy : q y = true
      · simp only [hy,hle y hy,if_true]
        omega
      · simp only [hy,Bool.false_eq_true,if_false]
        omega

end Anoncoin.Lib
