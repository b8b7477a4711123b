import Mathlib.Data.Set.Insert
import Mathlib.Data.List.Induction
import Mathlib.Data.List.Nodup

/-!
Things that arrive one by one and need others. One that needs something that was not taken
in yet has to wait; taking one in makes those that wait for it be tried again, and forgotten
when they still need something. When nothing is lost.
-/

set_option autoImplicit false

namespace Anoncoin.Lib

section Arrivals
variable {α : Type}

/-- `x` has arrived, and so has everything that it needs, near or far. -/
inductive Ready (needs : α → α → Prop) (arrived : List α) : α → Prop
  | intro {x : α} : x ∈ arrived → (∀ p, needs p x → Ready needs arrived p) →
      Ready needs arrived x

/-- What was taken in and what waits. -/
structure Intake (α : Type) where
  taken : Set α
  waiting : Set α

/-- One arrival. When it is taken in, so are those that wait only for what is now there;
what waits for one of them is tried, and does not wait any longer. -/
inductive Arrives (needs : α → α → Prop) (t : α) : Intake α → Intake α → Prop
  | waits {i : Intake α} : (∃ p, needs p t ∧ p ∉ i.taken) →
      Arrives needs t i ⟨i.taken,i.waiting ∪ {t}⟩
  | settles {i : Intake α} {new : Set α} : t ∈ new → (∀ x ∈ new, x = t ∨ x ∈ i.waiting) →
      (∀ x ∈ new, ∀ p, needs p x → p ∈ i.taken ∪ new) →
      (∀ x ∈ i.waiting, (∃ p ∈ new, needs p x) → (∀ p, needs p x → p ∈ i.taken ∪ new) → x ∈ new) →
      (∀ p, needs p t → p ∈ i.taken) →
      Arrives needs t i ⟨i.taken ∪ new,{ x ∈ i.waiting | ∀ p ∈ new, ¬needs p x }⟩

inductive Arrivals (needs : α → α → Prop) : List α → Intake α → Prop
  | nil : Arrivals needs [] ⟨∅,∅⟩
  | snoc {order : List α} {t : α} {i i' : Intake α} : Arrivals needs order i →
      Arrives needs t i i' → Arrivals needs (order ++ [t]) i'

/-- No arrival makes one thing ready that an earlier arrival needs, and leaves another one
that it needs unready. -/
def NoSplit (needs : α → α → Prop) (order : List α) : Prop :=
  ∀ earlier t later, order = earlier ++ t :: later → ∀ x ∈ earlier,
    (∃ p, needs p x ∧ Ready needs (earlier ++ [t]) p ∧ ¬Ready needs earlier p) →
    ∀ p, needs p x → Ready needs (earlier ++ [t]) p

variable {needs : α → α → Prop} {order : List α} {t : α} {i i' : Intake α}

theorem Ready.arrived {x : α} (h : Ready needs order x) : x ∈ order := by
  cases h with
  | intro hx _ => exact hx

theorem Ready.source {x p : α} (h : Ready needs order x) (hp : needs p x) : Ready needs order p := by
  cases h with
  | intro _ hall => exact hall p hp

theorem Ready.mono {x : α} (h : Ready needs order x) {order' : List α} (hsub : order ⊆ order') :
    Ready needs order' x := by
  induction h with
  | intro hx _ ih => exact .intro (hsub hx) ih

theorem Ready.snoc {x : α} (h : Ready needs order x) : Ready needs (order ++ [t]) x :=
  h.mono (List.subset_append_left _ _)

/-- One that needs something that is not ready makes nothing ready. -/
theorem ready_snoc_of_unready {x : α} (hunready : ∃ p, needs p t ∧ ¬Ready needs order p)
    (h : Ready needs (order ++ [t]) x) : Ready needs order x := by
  induction h with
  | @intro x hx _ ih =>
    rw [List.mem_append,List.mem_singleton] at hx
    obtain hx | rfl := hx
    · exact .intro hx ih
    · obtain ⟨p,hp,hn⟩ := hunready
      exact absurd (ih p hp) hn

theorem NoSplit.snoc : NoSplit needs (order ++ [t]) ↔ NoSplit needs order ∧ ∀ x ∈ order,
    (∃ p, needs p x ∧ Ready needs (order ++ [t]) p ∧ ¬Ready needs order p) →
    ∀ p, needs p x → Ready needs (order ++ [t]) p := by
  constructor
  · intro h
    refine ⟨fun earlier u later horder => ?_,h order t [] rfl⟩
    exact h earlier u (later ++ [t]) (by rw [horder]; simp)
  · rintro ⟨hbefore,hlast⟩ earlier u later horder
    cases later using List.reverseRecOn with
    | nil =>
      obtain ⟨rfl,hu⟩ := List.append_inj' horder rfl
      obtain rfl : t = u := by simpa using hu
      exact hlast
    | append_singleton later v =>
      have horder : order ++ [t] = (earlier ++ u :: later) ++ [v] := by
        rw [horder]
        simp
      exact hbefore earlier u later (List.append_inj' horder rfl).1

/-- Everything that is ready was taken in, and the rest of what arrived waits. -/
structure Intake.Exact (needs : α → α → Prop) (order : List α) (i : Intake α) : Prop where
  taken : ∀ x, x ∈ i.taken ↔ Ready needs order x
  waiting : ∀ x, x ∈ i.waiting ↔ x ∈ order ∧ ¬Ready needs order x

/-- What is taken in after an arrival is what is ready, whatever is forgotten. -/
theorem Intake.Exact.taken_snoc (hwf : WellFounded needs) (h : i.Exact needs order)
    (ht : t ∉ order) (hstep : Arrives needs t i i') :
    ∀ x, x ∈ i'.taken ↔ Ready needs (order ++ [t]) x := by
  cases hstep with
  | waits hblocked =>
    obtain ⟨p,hp,hn⟩ := hblocked
    rw [h.taken] at hn
    intro x
    rw [h.taken]
    exact ⟨Ready.snoc,ready_snoc_of_unready ⟨p,hp,hn⟩⟩
  | @settles new hin hfrom hneeds hcomplete hfree =>
    intro x
    constructor
    · intro hx
      induction x using hwf.induction with
      | _ x ih =>
        obtain hx | hx := hx
        · exact ((h.taken x).mp hx).snoc
        · have harrived : x ∈ order ++ [t] := by
            obtain rfl | hw := hfrom x hx
            · simp
            · simp [((h.waiting x).mp hw).1]
          exact .intro harrived fun p hp => ih p hp (hneeds x hx p hp)
    · intro hx
      induction hx with
      | @intro x hx _ ih =>
        by_cases hready : Ready needs order x
        · exact .inl ((h.taken x).mpr hready)
        · right
          rw [List.mem_append,List.mem_singleton] at hx
          obtain hx | rfl := hx
          · have hw := (h.waiting x).mpr ⟨hx,hready⟩
            have hnew : ∃ p ∈ new, needs p x := by
              by_contra hnone
              refine hready (.intro hx fun p hp => ?_)
              obtain htaken | hp' := ih p hp
              · exact (h.taken p).mp htaken
              · exact absurd ⟨p,hp',hp⟩ hnone
            exact hcomplete x hw hnew ih
          · exact hin

theorem Intake.Exact.snoc (hwf : WellFounded needs) (h : i.Exact needs order) (ht : t ∉ order)
    (hstep : Arrives needs t i i')
    (hsplit : ∀ x ∈ order,
      (∃ p, needs p x ∧ Ready needs (order ++ [t]) p ∧ ¬Ready needs order p) →
      ∀ p, needs p x → Ready needs (order ++ [t]) p) : i'.Exact needs (order ++ [t]) := by
  have htaken := h.taken_snoc hwf ht hstep
  refine ⟨htaken,fun x => ?_⟩
  cases hstep with
  | waits hblocked =>
    obtain ⟨p,hp,hn⟩ := hblocked
    rw [h.taken] at hn
    have hback : ∀ {x}, Ready needs (order ++ [t]) x → Ready needs order x :=
      ready_snoc_of_unready ⟨p,hp,hn⟩
    rw [Set.mem_union,h.waiting,Set.mem_singleton_iff,List.mem_append,List.mem_singleton]
    constructor
    · rintro (⟨hx,hready⟩ | rfl)
      · exact ⟨.inl hx,fun hr => hready (hback hr)⟩
      · exact ⟨.inr rfl,fun hr => hn ((hback hr).source hp)⟩
    · rintro ⟨hx | rfl,hready⟩
      · exact .inl ⟨hx,fun hr => hready hr.snoc⟩
      · exact .inr rfl
  | @settles new hin hfrom hneeds hcomplete hfree =>
    have hnew : ∀ p, p ∈ new → Ready needs (order ++ [t]) p ∧ ¬Ready needs order p := by
      intro p hp
      refine ⟨(htaken p).mp (.inr hp),fun hr => ?_⟩
      obtain rfl | hw := hfrom p hp
      · exact ht hr.arrived
      · exact ((h.waiting p).mp hw).2 hr
    constructor
    · rintro ⟨hw,hnone⟩
      obtain ⟨hx,hready⟩ := (h.waiting x).mp hw
      refine ⟨List.mem_append_left _ hx,fun hr => hready (.intro hx fun p hp => ?_)⟩
      obtain hp' | hp' := (htaken p).mpr (hr.source hp)
      · exact (h.taken p).mp hp'
      · exact absurd hp (hnone p hp')
    · rintro ⟨hx,hready⟩
      rw [List.mem_append,List.mem_singleton] at hx
      obtain hx | rfl := hx
      · refine ⟨(h.waiting x).mpr ⟨hx,fun hr => hready hr.snoc⟩,fun p hp hpx => ?_⟩
        obtain ⟨hr,hn⟩ := hnew p hp
        exact hready (.intro (List.mem_append_left _ hx) (hsplit x hx ⟨p,hpx,hr,hn⟩))
      · exact absurd ((htaken x).mp (.inr hin)) hready

theorem Arrivals.exact (hwf : WellFounded needs) (h : Arrivals needs order i)
    (hnodup : order.Nodup) (hsplit : NoSplit needs order) : i.Exact needs order := by
  induction h with
  | nil =>
    refine ⟨fun x => ?_,fun x => by simp⟩
    exact ⟨fun hx => absurd hx (Set.notMem_empty x),fun hx => absurd hx.arrived (by simp)⟩
  | @snoc order t i i' hbefore hstep ih =>
    obtain ⟨hsplit,hlast⟩ := NoSplit.snoc.mp hsplit
    have hdisjoint := List.nodup_append.mp hnodup
    have ht : t ∉ order := fun ht => hdisjoint.2.2 t ht t (by simp) rfl
    exact (ih hdisjoint.1 hsplit).snoc hwf ht hstep hlast

/-- What is neither taken in nor waits stays so. -/
theorem Arrives.lost {x : α} (hstep : Arrives needs t i i') (hne : x ≠ t) (htaken : x ∉ i.taken)
    (hwaiting : x ∉ i.waiting) : x ∉ i'.taken ∧ x ∉ i'.waiting := by
  cases hstep with
  | waits _ => exact ⟨htaken,fun h => h.elim hwaiting hne⟩
  | settles _ hfrom _ _ _ =>
    refine ⟨fun h => ?_,fun h => hwaiting h.1⟩
    obtain h | h := h
    · exact htaken h
    · obtain h | h := hfrom x h
      · exact hne h
      · exact hwaiting h

/-- A split loses something. -/
theorem Arrivals.lost (hwf : WellFounded needs) (h : Arrivals needs order i)
    (hnodup : order.Nodup) (hsplit : ¬NoSplit needs order) :
    ∃ x ∈ order, x ∉ i.taken ∧ x ∉ i.waiting := by
  induction h with
  | nil =>
    refine absurd (fun earlier t later horder => ?_) hsplit
    simp at horder
  | @snoc order t i i' hbefore hstep ih =>
    have hdisjoint := List.nodup_append.mp hnodup
    have ht : t ∉ order := fun ht => hdisjoint.2.2 t ht t (by simp) rfl
    by_cases hsplit' : NoSplit needs order
    · have hexact := hbefore.exact hwf hdisjoint.1 hsplit'
      have htaken := hexact.taken_snoc hwf ht hstep
      rw [NoSplit.snoc] at hsplit
      simp only [hsplit',true_and,not_forall] at hsplit
      obtain ⟨x,hx,⟨p,hp,hready,hunready⟩,q,hq,hnot⟩ := hsplit
      have hlost : ¬Ready needs (order ++ [t]) x := fun hr => hnot (hr.source hq)
      refine ⟨x,List.mem_append_left _ hx,fun hin => hlost ((htaken x).mp hin),fun hw => ?_⟩
      cases hstep with
      | waits hblocked =>
        obtain ⟨r,hr,hn⟩ := hblocked
        rw [hexact.taken] at hn
        exact hunready (ready_snoc_of_unready ⟨r,hr,hn⟩ hready)
      | @settles new hin hfrom hneeds hcomplete hfree =>
        obtain hp' | hp' := (htaken p).mpr hready
        · exact hunready ((hexact.taken p).mp hp')
        · exact hw.2 p hp' hp
    · obtain ⟨x,hx,htaken,hwaiting⟩ := ih hdisjoint.1 hsplit'
      refine ⟨x,List.mem_append_left _ hx,hstep.lost (fun heq => ht (heq ▸ hx)) htaken hwaiting⟩

/-- Everything is taken in and nothing waits exactly when no arrival splits. -/
theorem Arrivals.all_taken_iff (hwf : WellFounded needs) (h : Arrivals needs order i)
    (hnodup : order.Nodup) (hclosed : ∀ x ∈ order, ∀ p, needs p x → p ∈ order) :
    (∀ x ∈ order, x ∈ i.taken) ∧ (∀ x, x ∉ i.waiting) ↔ NoSplit needs order := by
  constructor
  · rintro ⟨htaken,-⟩
    by_contra hsplit
    obtain ⟨x,hx,hlost,-⟩ := h.lost hwf hnodup hsplit
    exact hlost (htaken x hx)
  · intro hsplit
    have hexact := h.exact hwf hnodup hsplit
    have hready : ∀ x, x ∈ order → Ready needs order x := by
      intro x
      induction x using hwf.induction with
      | _ x ih => exact fun hx => .intro hx fun p hp => ih p hp (hclosed x hx p hp)
    refine ⟨fun x hx => (hexact.taken x).mpr (hready x hx),fun x hw => ?_⟩
    obtain ⟨hx,hunready⟩ := (hexact.waiting x).mp hw
    exact hunready (hready x hx)

end Arrivals

end Anoncoin.Lib
