import Mathlib.Data.Finset.Basic
import Mathlib.Data.Set.Insert
import Mathlib.Logic.Relation

/-!
The classes into which overlapping sets fall together, as labels of the elements, and finite
sets that are walked through in some order.
-/

set_option autoImplicit false

namespace Anoncoin.Lib

section Components
variable {α ι : Type*} {G : Set (Set α)} {label : α → Option ι}

/-- Both lie in one of the sets. -/
def Together (G : Set (Set α)) (a b : α) : Prop := ∃ g ∈ G, a ∈ g ∧ b ∈ g

/-- A chain of the sets leads from one to the other, each of which overlaps the next. -/
def Joined (G : Set (Set α)) : α → α → Prop := Relation.TransGen (Together G)

theorem Together.symm {a b : α} (h : Together G a b) : Together G b a := by
  obtain ⟨g,hg,ha,hb⟩ := h
  exact ⟨g,hg,hb,ha⟩

theorem Joined.symm {a b : α} (h : Joined G a b) : Joined G b a := by
  induction h with
  | single hab => exact .single hab.symm
  | tail _ hbc ih => exact .head hbc.symm ih

theorem Joined.mono {G' : Set (Set α)} (hG : G ⊆ G') {a b : α} (h : Joined G a b) :
    Joined G' a b := by
  have hstep {a b : α} (hab : Together G a b) : Together G' a b := by
    obtain ⟨g,hg,hab⟩ := hab
    exact ⟨g,hG hg,hab⟩
  induction h with
  | single hab => exact .single (hstep hab)
  | tail _ hbc ih => exact .tail ih (hstep hbc)

/-- What is joined to anything lies in one of the sets. -/
theorem joined_self_iff {a : α} : Joined G a a ↔ ∃ g ∈ G, a ∈ g := by
  constructor
  · intro h
    obtain ⟨b,⟨g,hg,ha,-⟩,-⟩ := Relation.TransGen.head'_iff.mp h
    exact ⟨g,hg,ha⟩
  · rintro ⟨g,hg,ha⟩
    exact .single ⟨g,hg,ha,ha⟩

/-- Equal labels are those of joined elements. -/
def Labels (G : Set (Set α)) (label : α → Option ι) : Prop :=
  ∀ a b, (∃ p, label a = some p ∧ label b = some p) ↔ Joined G a b

theorem labels_empty : Labels (∅ : Set (Set α)) fun _ => (none : Option ι) := by
  intro a b
  constructor
  · rintro ⟨p,hp,-⟩
    contradiction
  · intro h
    obtain ⟨c,⟨g,hg,-⟩,-⟩ := Relation.TransGen.head'_iff.mp h
    exact absurd hg (Set.notMem_empty g)

/-- The set with every class that it hits. -/
def merged (label : α → Option ι) (g : Set α) : Set α :=
  { x | x ∈ g ∨ ∃ y ∈ g, ∃ p, label y = some p ∧ label x = some p }

theorem merged_of_label {g : Set α} {a b : α} {p : ι} (ha : label a = some p)
    (hb : label b = some p) (hmem : a ∈ merged label g) : b ∈ merged label g := by
  rcases hmem with hg | ⟨y,hy,q,hq,haq⟩
  · exact .inr ⟨a,hg,p,ha,hb⟩
  · rw [ha] at haq
    exact .inr ⟨y,hy,p,hq.trans haq.symm,hb⟩

/-- One more set: what it merges gets a label of its own. -/
theorem Labels.insert (h : Labels G label) {g : Set α} {new : ι} (hnew : ∀ a, label a ≠ some new)
    {label' : α → Option ι} (hin : ∀ x ∈ merged label g, label' x = some new)
    (hout : ∀ x, x ∉ merged label g → label' x = label x) : Labels (Insert.insert g G) label' := by
  have hsub : G ⊆ Insert.insert g G := Set.subset_insert g G
  have hreach {a : α} (ha : a ∈ merged label g) : ∃ y ∈ g, Joined (Insert.insert g G) a y := by
    rcases ha with ha | ⟨y,hy,p,hyp,hap⟩
    · exact ⟨a,ha,.single ⟨g,Set.mem_insert g G,ha,ha⟩⟩
    · exact ⟨y,hy,((h a y).mp ⟨p,hap,hyp⟩).mono hsub⟩
  have hold {a b : α} {p : ι} (ha : label a = some p) (hb : label b = some p) :
      ∃ q, label' a = some q ∧ label' b = some q := by
    by_cases hmem : a ∈ merged label g
    · exact ⟨new,hin a hmem,hin b (merged_of_label ha hb hmem)⟩
    · have hmem' : b ∉ merged label g := fun hb' => hmem (merged_of_label hb ha hb')
      exact ⟨p,(hout a hmem).trans ha,(hout b hmem').trans hb⟩
  intro a b
  constructor
  · rintro ⟨p,hap,hbp⟩
    by_cases ha : a ∈ merged label g
    · by_cases hb : b ∈ merged label g
      · obtain ⟨y,hy,hay⟩ := hreach ha
        obtain ⟨z,hz,hbz⟩ := hreach hb
        have hyz : Joined (Insert.insert g G) y z := .single ⟨g,Set.mem_insert g G,hy,hz⟩
        exact hay.trans (hyz.trans hbz.symm)
      · rw [hin a ha] at hap
        rw [hout b hb,← hap] at hbp
        exact absurd hbp (hnew b)
    · by_cases hb : b ∈ merged label g
      · rw [hin b hb] at hbp
        rw [hout a ha,← hbp] at hap
        exact absurd hap (hnew a)
      · rw [hout a ha] at hap
        rw [hout b hb] at hbp
        exact ((h a b).mp ⟨p,hap,hbp⟩).mono hsub
  · intro hjoined
    have hstep {a b : α} (hab : Together (Insert.insert g G) a b) :
        ∃ q, label' a = some q ∧ label' b = some q := by
      obtain ⟨g',hg',ha,hb⟩ := hab
      rcases hg' with rfl | hg'
      · exact ⟨new,hin a (.inl ha),hin b (.inl hb)⟩
      · obtain ⟨p,hap,hbp⟩ := (h a b).mpr (.single ⟨g',hg',ha,hb⟩)
        exact hold hap hbp
    induction hjoined with
    | single hab => exact hstep hab
    | tail _ hbc ih =>
      obtain ⟨p,hap,hbp⟩ := ih
      obtain ⟨q,hbq,hcq⟩ := hstep hbc
      rw [hbp] at hbq
      exact ⟨p,hap,hcq.trans hbq.symm⟩

end Components

/-- An order in which the elements of each finite set are walked through. -/
structure SetOrder (α : Type) where
  toList : Finset α → List α
  mem_toList : ∀ s x, x ∈ toList s ↔ x ∈ s
  nodup_toList : ∀ s, (toList s).Nodup

instance {α : Type} : Nonempty (SetOrder α) :=
  ⟨⟨Finset.toList,fun _ _ => Finset.mem_toList,Finset.nodup_toList⟩⟩

end Anoncoin.Lib
