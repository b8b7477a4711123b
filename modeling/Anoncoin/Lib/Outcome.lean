import Mathlib.Logic.Basic

/-!
Postconditions for computations in `Except`: which errors may come out, and what
holds of the result when none does.
-/

set_option autoImplicit false

namespace Anoncoin.Lib

section Outcome
variable {ε α β : Type}

/-- Every error of the computation is allowed, and every result meets `post`. -/
def Meets (allowed : ε → Prop) (x : Except ε α) (post : α → Prop) : Prop :=
  match x with
  | .error e => allowed e
  | .ok a => post a

variable {allowed : ε → Prop} {x : Except ε α} {post : α → Prop}

@[simp] theorem meets_ok {a : α} : Meets allowed (.ok a) post ↔ post a := Iff.rfl

@[simp] theorem meets_pure {a : α} : Meets allowed (pure a) post ↔ post a := Iff.rfl

@[simp] theorem meets_error {e : ε} : Meets allowed (.error e) post ↔ allowed e := Iff.rfl

@[simp] theorem meets_throw {e : ε} :
    Meets allowed (throw e : Except ε α) post ↔ allowed e := Iff.rfl

theorem Meets.bind {f : α → Except ε β} {post' : β → Prop} (h : Meets allowed x post)
    (hf : ∀ a, post a → Meets allowed (f a) post') : Meets allowed (x >>= f) post' := by
  cases x with
  | error e => exact h
  | ok a => exact hf a h

theorem Meets.mono {post' : α → Prop} (h : Meets allowed x post) (hp : ∀ a, post a → post' a) :
    Meets allowed x post' := by
  cases x with
  | error e => exact h
  | ok a => exact hp a h

theorem Meets.weaken {allowed' : ε → Prop} (h : Meets allowed x post)
    (ha : ∀ e, allowed e → allowed' e) : Meets allowed' x post := by
  cases x with
  | error e => exact ha e h
  | ok a => exact h

theorem Meets.forget (h : Meets allowed x post) : Meets (fun _ => True) x post :=
  h.weaken fun _ _ => trivial

theorem Meets.and {post' : α → Prop} (h : Meets allowed x post)
    (h' : Meets (fun _ => True) x post') : Meets allowed x fun a => post a ∧ post' a := by
  cases x with
  | error e => exact h
  | ok a => exact ⟨h,h'⟩

theorem meets_any (x : Except ε α) : Meets (fun _ => True) x fun _ => True := by
  cases x with
  | error e => trivial
  | ok a => trivial

theorem Meets.result {a : α} (h : Meets allowed x post) (hx : x = .ok a) : post a := by
  subst hx
  exact h

theorem Meets.fault {e : ε} (h : Meets allowed x post) (hx : x = .error e) : allowed e := by
  subst hx
  exact h

/-- A test that throws when it fails. -/
def ensure (p : Bool) (e : ε) : Except ε Unit := if p then .ok () else .error e

@[simp] theorem ensure_true (e : ε) : ensure true e = .ok () := rfl

theorem Meets.ensure {p : Bool} {e : ε} (he : allowed e) :
    Meets allowed (ensure p e) fun _ => p = true := by
  cases p with
  | false => exact he
  | true => rfl

/-- An error that is allowed only where the test fails. -/
theorem Meets.ensure_of {p : Bool} {e : ε} (he : p = false → allowed e) :
    Meets allowed (Lib.ensure p e) fun _ => p = true := by
  cases p with
  | false => exact he rfl
  | true => rfl

/-- A step that throws when it has no value. -/
def orThrow (x : Option α) (e : ε) : Except ε α :=
  match x with
  | some a => .ok a
  | none => .error e

@[simp] theorem orThrow_some (a : α) (e : ε) : orThrow (some a) e = .ok a := rfl

@[simp] theorem ok_bind (a : α) (f : α → Except ε β) : (Except.ok a >>= f) = f a := rfl

/-- A computation that went through, taken apart. -/
theorem bind_ok_iff {f : α → Except ε β} {b : β} :
    (x >>= f) = .ok b ↔ ∃ a, x = .ok a ∧ f a = .ok b := by
  cases x with
  | error e => simp [bind,Except.bind]
  | ok a => simp

theorem ensure_ok_iff {p : Bool} {e : ε} {u : Unit} : ensure p e = .ok u ↔ p = true := by
  cases p with
  | false => simp [ensure]
  | true => simp

theorem mapError_ok_iff {ε' : Type} {f : ε → ε'} {a : α} : x.mapError f = .ok a ↔ x = .ok a := by
  cases x with
  | error e =>
    constructor
    · intro h
      cases h
    · intro h
      cases h
  | ok b =>
    constructor
    · intro h
      exact congrArg Except.ok (Except.ok.inj h)
    · intro h
      exact congrArg Except.ok (Except.ok.inj h)

theorem Meets.mapError {ε' : Type} {f : ε → ε'} {allowed' : ε' → Prop} (h : Meets allowed x post)
    (ha : ∀ e, allowed e → allowed' (f e)) : Meets allowed' (x.mapError f) post := by
  cases x with
  | error e => exact ha e h
  | ok a => exact h

theorem orThrow_ok_iff {o : Option α} {e : ε} {a : α} : orThrow o e = .ok a ↔ o = some a := by
  cases o with
  | none => simp [orThrow]
  | some b => simp

theorem Meets.orThrow {o : Option α} {e : ε} (he : o = none → allowed e) :
    Meets allowed (orThrow o e) fun a => o = some a := by
  cases o with
  | none => exact he rfl
  | some a => rfl

end Outcome

end Anoncoin.Lib
