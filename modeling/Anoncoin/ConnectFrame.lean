import Anoncoin.ConnectBlock

/-!
What `DisconnectBlock` leaves alone: it only reads and modifies the view it is given, so that
whatever reading and modifying keep is kept by it.
-/

set_option autoImplicit false

namespace Anoncoin
open Lib

/-- What every operation on a view keeps. -/
structure CCoinsView.Kept (inv : CCoinsView → Prop) : Prop where
  access : ∀ v t, inv v → inv (v.accessCoins t).2
  best : ∀ v, inv v → inv v.getBestBlock.2
  modify : ∀ {α : Type} (v : CCoinsView) (t : Uint256) (body : CCoins → Option (α × CCoins)) (a : α)
    (v' : CCoinsView), inv v → v.modifyCoins t body = some (a,v') → inv v'
  setBest : ∀ (v : CCoinsView) (b : Uint256) (v' : CCoinsView), inv v →
    v.setBestBlock b = some v' → inv v'

/-- A computation keeps what holds of the view. -/
abbrev CCoinsView.Keeps {α : Type} (inv : CCoinsView → Prop) (x : Validation (α × CCoinsView)) :
    Prop := Meets (fun _ => True) x fun r => inv r.2

open CCoinsView

variable {inv : CCoinsView → Prop} {v : CCoinsView}

theorem CCoinsView.Kept.modifyCoins {α : Type} (h : Kept inv) (hv : inv v) (t : Uint256)
    (body : CCoins → Option (α × CCoins)) (e : Failure) :
    Keeps inv (orThrow (v.modifyCoins t body) e) := by
  cases hr : v.modifyCoins t body with
  | none => trivial
  | some r => exact h.modify v t body r.1 r.2 hv hr

namespace NodeEnv
variable {env : NodeEnv}

theorem restoreInputs_keeps (h : Kept inv) (hv : inv v) (fClean : Bool)
    (l : List (CTxIn × CTxInUndo)) : Keeps inv (restoreInputs fClean v l) := by
  induction l generalizing v fClean with
  | nil => exact hv
  | cons x rest ih =>
    obtain ⟨txin,undo⟩ := x
    unfold restoreInputs
    apply (h.modifyCoins hv txin.prevout.hash _ _).bind
    rintro ⟨ok,v'⟩ hv'
    exact ih hv' _

theorem disconnectTransactions_keeps (h : Kept inv) (hv : inv v) (nHeight : Nat) (fClean : Bool)
    (l : List (CTransaction × Option CTxUndo)) :
    Keeps inv (env.disconnectTransactions nHeight fClean v l) := by
  induction l generalizing v fClean with
  | nil => exact hv
  | cons x rest ih =>
    obtain ⟨tx,txundo⟩ := x
    unfold disconnectTransactions
    apply (h.modifyCoins hv (env.getTxHash tx) _ _).bind
    rintro ⟨ok,v₁⟩ hv₁
    have hin : Keeps inv (disconnectInputs tx (fClean && ok) v₁ txundo) := by
      cases txundo with
      | none => exact hv₁
      | some vprevout =>
        apply (meets_any _).bind
        intro _ _
        exact restoreInputs_keeps h hv₁ _ _
    apply hin.bind
    rintro ⟨ok₂,v₂⟩ hv₂
    exact ih hv₂ _

/-- The last thing `DisconnectBlock` does to the view is to set the best block. -/
theorem disconnectBlock_keeps (h : Kept inv) (hv : inv v) (block : CBlock) (pindex : ConnectIndex)
    (blockUndo : CBlockUndo) :
    Meets (fun _ => True) (env.disconnectBlock block pindex v blockUndo) fun r =>
      inv r.2 ∧ ∃ p, pindex.pprev = some p ∧ ∃ w : CCoinsView, w.setBestBlock p = some r.2 := by
  unfold disconnectBlock
  have h₁ := h.best v hv
  apply (meets_any _).bind
  intro _ _
  apply (Meets.orThrow fun _ => trivial).bind
  intro hashPrev hprev
  apply (meets_any _).bind
  intro _ _
  apply (disconnectTransactions_keeps h h₁ _ _ _).bind
  rintro ⟨fClean,v₂⟩ hv₂
  apply (Meets.orThrow fun _ => trivial).bind
  intro v₃ hr
  exact ⟨h.setBest v₂ _ v₃ hv₂ hr,hashPrev,hprev,v₂,hr⟩

end NodeEnv

/-- The number of layers is kept. -/
theorem CCoinsView.kept_depth (n : Nat) : Kept fun v => v.depth = n where
  access v t hv := by
    rw [accessCoins,getCoins_depth]
    exact hv
  best v hv := by
    induction v generalizing n with
    | db d => exact hv
    | cache l base ih =>
      simp only [getBestBlock]
      split
      · have hbase := ih base.depth rfl
        simp only [depth] at hv ⊢
        omega
      · exact hv
  modify v t body a v' hv hr := by
    obtain ⟨l,l',base,base',rfl,rfl,-,hbase⟩ := modifyCoins_shape hr
    simp only [depth] at hv ⊢
    rcases hbase with rfl | rfl
    · exact hv
    · rw [getCoins_depth]
      exact hv
  setBest v b v' hv hr := by
    cases v with
    | db d => simp [setBestBlock] at hr
    | cache l base =>
      obtain rfl := Option.some.inj hr
      exact hv

end Anoncoin
