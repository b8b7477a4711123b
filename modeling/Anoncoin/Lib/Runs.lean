import Mathlib.Logic.Basic

/-!
Runs of a state machine: a step function, which events may come in which state, the rule
for invariants, and what every schedule of steps comes to.
-/

set_option autoImplicit false

namespace Anoncoin.Lib

section Runs
variable {σ ε : Type}

/-- The states that runs of admitted events lead to. -/
inductive Reachable (step : σ → ε → σ) (admits : σ → ε → Prop) (init : σ) : σ → Prop
  | init : Reachable step admits init init
  | step {s : σ} {e : ε} : Reachable step admits init s → admits s e →
      Reachable step admits init (step s e)

variable {step : σ → ε → σ} {admits : σ → ε → Prop} {init s : σ}

/-- What holds at first and is kept by each step holds of every state reached. -/
theorem Reachable.invariant {inv : σ → Prop} (h : Reachable step admits init s) (hinit : inv init)
    (hstep : ∀ s e, inv s → admits s e → inv (step s e)) : inv s := by
  induction h with
  | init => exact hinit
  | step _ ha ih => exact hstep _ _ ih ha

/-- The states that runs of admitted events lead to, when a step need not be a function. -/
inductive ReachableBy (step : σ → ε → σ → Prop) (admits : σ → ε → Prop) (init : σ) : σ → Prop
  | init : ReachableBy step admits init init
  | step {s s' : σ} {e : ε} : ReachableBy step admits init s → admits s e → step s e s' →
      ReachableBy step admits init s'

/-- The rule for invariants of such runs. -/
theorem ReachableBy.invariant {step : σ → ε → σ → Prop} (inv : σ → Prop)
    (h : ReachableBy step admits init s) (hinit : inv init)
    (hstep : ∀ s e s', inv s → admits s e → step s e s' → inv s') : inv s := by
  induction h with
  | init => exact hinit
  | step _ ha hs ih => exact hstep _ _ _ ih ha hs

theorem ReachableBy.mono {step step' : σ → ε → σ → Prop} (h : ReachableBy step admits init s)
    (hstep : ∀ s e s', step s e s' → step' s e s') : ReachableBy step' admits init s := by
  induction h with
  | init => exact .init
  | step _ ha hs ih => exact .step ih ha (hstep _ _ _ hs)

/-- A schedule of admitted events, for steps that may fail. -/
def runAdmitted (step : σ → ε → Option σ) (admits : σ → ε → Prop)
    [∀ s e, Decidable (admits s e)] : σ → List ε → Option σ
  | s,[] => some s
  | s,e :: events =>
    if admits s e then (step s e).bind fun s => runAdmitted step admits s events else none

theorem ReachableBy.of_run {step : σ → ε → Option σ} [∀ s e, Decidable (admits s e)] {s' : σ}
    {events : List ε} (h : ReachableBy (fun s e s' => step s e = some s') admits init s)
    (hrun : runAdmitted step admits s events = some s') :
    ReachableBy (fun s e s' => step s e = some s') admits init s' := by
  induction events generalizing s with
  | nil =>
    obtain rfl := Option.some.inj hrun
    exact h
  | cons e events ih =>
    rw [runAdmitted,Option.ite_none_right_eq_some] at hrun
    obtain ⟨hadmits,hrun⟩ := hrun
    obtain ⟨s₁,hstep,hrun⟩ := Option.bind_eq_some_iff.mp hrun
    exact ih (.step h hadmits hstep) hrun

theorem ReachableBy.of_foldlM {step : σ → ε → Option σ} {s' : σ} {events : List ε}
    (h : ReachableBy (fun s e s' => step s e = some s') (fun _ _ => True) init s)
    (hrun : events.foldlM step s = some s') :
    ReachableBy (fun s e s' => step s e = some s') (fun _ _ => True) init s' := by
  induction events generalizing s with
  | nil =>
    obtain rfl := Option.some.inj hrun
    exact h
  | cons e events ih =>
    rw [List.foldlM_cons] at hrun
    obtain ⟨s₁,hstep,hrun⟩ := Option.bind_eq_some_iff.mp hrun
    exact ih (.step h trivial hstep) hrun

/-- Along a list of events, as far as their steps do not fail, every event is `ok` where it comes. -/
def Always (step : σ → ε → Option σ) (ok : σ → ε → Prop) : σ → List ε → Prop
  | _,[] => True
  | s,e :: events => ok s e ∧ ∀ s', step s e = some s' → Always step ok s' events

/-- What an event must be can be said in two ways when they agree under an invariant. -/
theorem Always.iff {step : σ → ε → Option σ} {ok ok' : σ → ε → Prop} {inv : σ → Prop}
    {events : List ε} (h : inv s) (hok : ∀ s e, inv s → (ok s e ↔ ok' s e))
    (hstep : ∀ s e s', inv s → ok s e → step s e = some s' → inv s') :
    Always step ok s events ↔ Always step ok' s events := by
  induction events generalizing s with
  | nil => exact .rfl
  | cons e events ih =>
    unfold Always
    rw [← hok s e h]
    exact and_congr_right fun he => forall₂_congr fun s' hs => ih (hstep s e s' h he hs)

/-- The rule for a list of events whose steps may fail: under the invariant none does. -/
theorem foldlM_invariant {step : σ → ε → Option σ} {inv : σ → Prop} {events : List ε} (h : inv s)
    (hstep : ∀ s, inv s → ∀ e ∈ events, ∃ s', step s e = some s' ∧ inv s') :
    ∃ s', events.foldlM step s = some s' ∧ inv s' := by
  induction events generalizing s with
  | nil => exact ⟨s,rfl,h⟩
  | cons e events ih =>
    obtain ⟨s₁,hs,h₁⟩ := hstep s h e List.mem_cons_self
    rw [List.foldlM_cons,hs]
    exact ih h₁ fun s hinv e he => hstep s hinv e (List.mem_cons_of_mem _ he)

/-- The same for a list whose elements are changed one by one. -/
theorem mapM_of_forall {α β : Type} {f : α → Option β} {p : β → Prop} {l : List α}
    (h : ∀ a ∈ l, ∃ b, f a = some b ∧ p b) : ∃ bs, l.mapM f = some bs ∧ ∀ b ∈ bs, p b := by
  induction l with
  | nil => exact ⟨[],rfl,by simp⟩
  | cons a l ih =>
    obtain ⟨⟨b,hb,hp⟩,hrest⟩ := List.forall_mem_cons.mp h
    obtain ⟨bs,hbs,hall⟩ := ih hrest
    refine ⟨b :: bs,?_,List.forall_mem_cons.mpr ⟨hp,hall⟩⟩
    rw [List.mapM_cons,hb,hbs]
    rfl

/-- Whichever internal steps are taken one after the other, `goal` is reached, and until
then there is such a step. -/
inductive Inevitable (step : σ → ε → Option σ) (internal : ε → Prop) (goal : σ → Prop) : σ → Prop
  | reached {s : σ} : goal s → Inevitable step internal goal s
  | later {s : σ} : (∃ e s', internal e ∧ step s e = some s') →
      (∀ e s', internal e → step s e = some s' → Inevitable step internal goal s') →
      Inevitable step internal goal s

/-- The rule for it: an invariant under which there is a next step, and a measure that the
steps make smaller. -/
theorem Inevitable.of_measure {step : σ → ε → Option σ} {internal : ε → Prop} {goal : σ → Prop}
    (inv : σ → Prop) (measure : σ → Nat)
    (hnext : ∀ s, inv s → ¬goal s → ∃ e s', internal e ∧ step s e = some s')
    (hstep : ∀ s e s', inv s → internal e → step s e = some s' →
      inv s' ∧ measure s' < measure s) (h : inv s) : Inevitable step internal goal s := by
  induction hm : measure s using Nat.strongRecOn generalizing s with
  | ind m ih =>
    by_cases hgoal : goal s
    · exact .reached hgoal
    · refine .later (hnext s h hgoal) fun e s' he hs => ?_
      obtain ⟨hinv,hless⟩ := hstep s e s' h he hs
      exact ih (measure s') (hm ▸ hless) hinv rfl

end Runs

end Anoncoin.Lib
