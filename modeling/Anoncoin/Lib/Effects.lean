import Mathlib.Logic.Basic

/-!
Postconditions for computations with a state that survives errors: what holds of the
state when an error comes out, and of the result and the state when none does.
-/

set_option autoImplicit false

namespace Anoncoin.Lib

section Effects
variable {ε σ α β : Type}

/-- From this state on, every error leaves a state that meets `fail`, and every result one
that meets `post`. -/
def Ends (fail : ε → σ → Prop) (x : EStateM ε σ α) (s : σ) (post : α → σ → Prop) : Prop :=
  match x s with
  | .ok a s' => post a s'
  | .error e s' => fail e s'

variable {fail : ε → σ → Prop} {x : EStateM ε σ α} {s : σ} {post : α → σ → Prop}

@[simp] theorem ends_pure {a : α} : Ends fail (pure a) s post ↔ post a s := Iff.rfl

@[simp] theorem ends_throw {e : ε} : Ends fail (throw e : EStateM ε σ α) s post ↔ fail e s :=
  Iff.rfl

theorem Ends.bind {f : α → EStateM ε σ β} {post' : β → σ → Prop} (h : Ends fail x s post)
    (hf : ∀ a s', post a s' → Ends fail (f a) s' post') : Ends fail (x >>= f) s post' := by
  unfold Ends at h ⊢
  show match EStateM.bind x f s with
    | .ok a s' => post' a s'
    | .error e s' => fail e s'
  unfold EStateM.bind
  cases hx : x s with
  | ok a s' =>
    rw [hx] at h
    exact hf a s' h
  | error e s' =>
    rw [hx] at h
    exact h

theorem Ends.weaken {fail' : ε → σ → Prop} {post' : α → σ → Prop} (h : Ends fail x s post)
    (hf : ∀ e s', fail e s' → fail' e s') (hp : ∀ a s', post a s' → post' a s') :
    Ends fail' x s post' := by
  unfold Ends at h ⊢
  cases hx : x s with
  | ok a s' =>
    rw [hx] at h
    exact hp a s' h
  | error e s' =>
    rw [hx] at h
    exact hf e s' h

theorem Ends.mono {post' : α → σ → Prop} (h : Ends fail x s post)
    (hp : ∀ a s', post a s' → post' a s') : Ends fail x s post' :=
  h.weaken (fun _ _ he => he) hp

theorem ends_of_forall {fail : ε → σ → Prop} (hf : ∀ e s', fail e s') (hp : ∀ a s', post a s') :
    Ends fail x s post := by
  unfold Ends
  cases x s with
  | ok a s' => exact hp a s'
  | error e s' => exact hf e s'

theorem Ends.and {post' : α → σ → Prop} (h : Ends fail x s post)
    (h' : Ends (fun _ _ => True) x s post') :
    Ends fail x s fun a s' => post a s' ∧ post' a s' := by
  unfold Ends at h h' ⊢
  cases hx : x s with
  | ok a s' =>
    rw [hx] at h h'
    exact ⟨h,h'⟩
  | error e s' =>
    rw [hx] at h
    exact h

theorem Ends.result {a : α} {s' : σ} (h : Ends fail x s post) (hx : x s = .ok a s') : post a s' := by
  unfold Ends at h
  rw [hx] at h
  exact h

theorem Ends.failure {e : ε} {s' : σ} (h : Ends fail x s post) (hx : x s = .error e s') :
    fail e s' := by
  unfold Ends at h
  rw [hx] at h
  exact h

theorem Ends.ite {p : Prop} [Decidable p] {y : EStateM ε σ α}
    (hx : p → Ends fail x s post) (hy : ¬p → Ends fail y s post) :
    Ends fail (if p then x else y) s post := by
  by_cases hp : p
  · rw [if_pos hp]
    exact hx hp
  · rw [if_neg hp]
    exact hy hp

/-- From every state on this is the result. -/
def Yields (x : EStateM ε σ α) (a : α) : Prop := ∀ s, ∃ s', x s = .ok a s'

theorem yields_pure (a : α) : Yields (pure a : EStateM ε σ α) a := fun s => ⟨s,rfl⟩

theorem Yields.bind {f : α → EStateM ε σ β} {a : α} {b : β} (h : Yields x a)
    (hf : Yields (f a) b) : Yields (x >>= f) b := by
  intro s
  obtain ⟨s',hx⟩ := h s
  obtain ⟨s'',hfs⟩ := hf s'
  refine ⟨s'',?_⟩
  show EStateM.bind x f s = _
  unfold EStateM.bind
  rw [hx]
  exact hfs

/-- From this state on there is no result. -/
def Fails (x : EStateM ε σ α) (s : σ) : Prop := Ends (fun _ _ => True) x s fun _ _ => False

theorem Fails.bind (h : Fails x s) (f : α → EStateM ε σ β) : Fails (x >>= f) s :=
  Ends.bind h fun _ _ hfalse => hfalse.elim

/-- Two computations that end alike from this state on: they do the same, or both fail. -/
def Alike (x y : EStateM ε σ α) (s : σ) : Prop := x s = y s ∨ (Fails x s ∧ Fails y s)

theorem Alike.refl (x : EStateM ε σ α) (s : σ) : Alike x x s := .inl rfl

theorem Alike.bind {y : EStateM ε σ α} {f g : α → EStateM ε σ β} (h : Alike x y s)
    (hfg : ∀ a s', x s = .ok a s' → Alike (f a) (g a) s') : Alike (x >>= f) (y >>= g) s := by
  rcases h with heq | ⟨hx,hy⟩
  · cases hxs : x s with
    | ok a s' =>
      have hf : (x >>= f) s = f a s' := by
        show EStateM.bind x f s = _
        unfold EStateM.bind
        rw [hxs]
      have hg : (y >>= g) s = g a s' := by
        show EStateM.bind y g s = _
        unfold EStateM.bind
        rw [← heq,hxs]
      unfold Alike Fails Ends
      rw [hf,hg]
      exact hfg a s' hxs
    | error e s' =>
      left
      show EStateM.bind x f s = EStateM.bind y g s
      unfold EStateM.bind
      rw [← heq,hxs]
  · exact .inr ⟨hx.bind f,hy.bind g⟩

end Effects

end Anoncoin.Lib
