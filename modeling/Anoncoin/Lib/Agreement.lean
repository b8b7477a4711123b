import Anoncoin.Lib.Outcome

/-!
Two computations in `Except` that come to the same end: both fail with one error, or both
give results that are related.
-/

set_option autoImplicit false

namespace Anoncoin.Lib

section Agreement
variable {ε α β γ δ : Type}

def Agrees (rel : α → β → Prop) : Except ε α → Except ε β → Prop
  | .ok a, .ok b => rel a b
  | .error e, .error e' => e = e'
  | _, _ => False

variable {rel : α → β → Prop} {x : Except ε α} {y : Except ε β}

theorem Agrees.bind {rel' : γ → δ → Prop} {f : α → Except ε γ} {g : β → Except ε δ}
    (h : Agrees rel x y) (hfg : ∀ a b, rel a b → Agrees rel' (f a) (g b)) :
    Agrees rel' (x >>= f) (y >>= g) := by
  cases x with
  | error e =>
    cases y with
    | error e' => exact h
    | ok b => exact h.elim
  | ok a =>
    cases y with
    | error e' => exact h.elim
    | ok b => exact hfg a b h

theorem Agrees.mono {rel' : α → β → Prop} (h : Agrees rel x y)
    (hr : ∀ a b, rel a b → rel' a b) : Agrees rel' x y := by
  have hb := @Agrees.bind ε α β α β rel x y rel' pure pure h hr
  rwa [bind_pure,bind_pure] at hb

theorem Agrees.symm (h : Agrees rel x y) : Agrees (fun b a => rel a b) y x := by
  cases x with
  | error e =>
    cases y with
    | error e' => exact Eq.symm h
    | ok b => exact h.elim
  | ok a =>
    cases y with
    | error e' => exact h.elim
    | ok b => exact h

/-- The same test on both sides; behind it the test is known to hold. -/
theorem agrees_ensure_bind {p : Bool} {e : ε} {f : Unit → Except ε α} {g : Unit → Except ε β}
    (h : p = true → Agrees rel (f ()) (g ())) :
    Agrees rel (ensure p e >>= f) (ensure p e >>= g) := by
  cases p with
  | false => rfl
  | true => exact h rfl

theorem agrees_orThrow_bind {o : Option γ} {e : ε} {f : γ → Except ε α} {g : γ → Except ε β}
    (h : ∀ c, o = some c → Agrees rel (f c) (g c)) :
    Agrees rel (orThrow o e >>= f) (orThrow o e >>= g) := by
  cases o with
  | none => rfl
  | some c => exact h c rfl

/-- One side's result gives the other side's. -/
theorem Agrees.ok_left {a : α} (h : Agrees rel x y) (hx : x = .ok a) : ∃ b, y = .ok b ∧ rel a b := by
  subst hx
  cases y with
  | error e => exact h.elim
  | ok b => exact ⟨b,rfl,h⟩

theorem Agrees.error_left {e : ε} (h : Agrees rel x y) (hx : x = .error e) : y = .error e := by
  subst hx
  cases y with
  | error e' => exact congrArg Except.error (Eq.symm h)
  | ok b => exact h.elim

end Agreement

end Anoncoin.Lib
