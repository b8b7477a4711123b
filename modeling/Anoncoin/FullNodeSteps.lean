import Anoncoin.FullNodeAgreement

/-!
A node takes its chain state through the steps that chain states allow, so that whatever holds in
all their runs holds of the node as well.
-/

set_option autoImplicit false

namespace Anoncoin
open Lib

namespace BlockStore
open Chainstate
variable {env : NodeEnv} {S : BlockStore env} {s s' : S.Chainstate}

theorem Chainstate.Reached.step (h : s.Reached) {e : S.Event} (hs : s.step e = some s') :
    s'.Reached := ReachableBy.step h trivial hs

/-- The dirty entries are written one by one, and what is not dirty would be written as it is. -/
theorem Chainstate.Reached.writeEntries (h : s.Reached) (dirty : List Uint256) :
    (dirty.foldl writeBlockIndex s).Reached := by
  induction dirty generalizing s with
  | nil => exact h
  | cons k rest ih =>
    apply ih
    by_cases hk : k ∈ s.setDirtyBlockIndex
    · exact h.step (e := .writeBlockIndex k) (if_pos (List.contains_iff_mem.mpr hk))
    · have hsame : s.writeBlockIndex k = s := by
        have hfilter : s.setDirtyBlockIndex.filter (fun h => h ≠ k) = s.setDirtyBlockIndex :=
          List.filter_eq_self.mpr fun a ha => decide_eq_true fun heq => hk (heq ▸ ha)
        unfold writeBlockIndex
        rw [← h.inv.clean k hk,Function.update_eq_self,hfilter]
      rw [hsame]
      exact h

theorem Chainstate.Reached.flushStateToDisk (h : s.Reached) (hs : s.flushStateToDisk = some s') :
    s'.Reached ∧ s'.pindexNew = s.pindexNew := by
  obtain ⟨s₁,hs₁,-,-,-,-,hnew⟩ := h.inv.flushStateToDisk_ok
  obtain rfl := Option.some.inj (hs.symm.trans hs₁)
  have hclean := List.isEmpty_iff.mpr h.inv.writeEntries_clean
  exact ⟨(h.writeEntries _).step (e := .flushCoins) ((if_pos hclean).trans hs),hnew⟩

/-- A chain state that is reached, between two calls. -/
structure AtRest (s : S.Chainstate) : Prop where
  reached : s.Reached
  idle : s.pindexNew = none

theorem AtRest.connectTip (h : AtRest s) {k : Uint256} {r : S.BlockRecord}
    (hr : s.mapBlockIndex k = some r) (hs : s.connectTip r none = .ok s') : s'.Reached := by
  refine h.reached.step (e := .connectTip k) ?_
  rw [Chainstate.step,if_pos (by rw [h.idle]; rfl),hr,Option.bind_some,hs]
  rfl

theorem AtRest.disconnectTip (h : AtRest s) :
    Meets (fun _ => True) s.disconnectTip Chainstate.Reached := by
  cases hs : s.disconnectTip with
  | error f => trivial
  | ok s' =>
    refine h.reached.step (e := .disconnectTip) ?_
    rw [Chainstate.step,if_pos (by rw [h.idle]; rfl),hs]
    rfl

theorem AtRest.addToBlockIndex (h : AtRest s) {e : S.Entry} (hs : s.addToBlockIndex e = some s') :
    AtRest s' := by
  refine ⟨h.reached.step (e := .addToBlockIndex e) hs,?_⟩
  unfold Chainstate.addToBlockIndex at hs
  split at hs
  · split at hs <;> exact Option.some.inj hs ▸ h.idle
  · contradiction

theorem AtRest.updateTip (h : s.Reached) (hs : s.updateTip = some s') : AtRest s' := by
  refine ⟨h.step (e := .updateTip) hs,?_⟩
  obtain ⟨tip,-,rfl⟩ := Option.map_eq_some_iff.mp hs
  rfl

namespace FullNode
variable {needed : S.Chainstate → Bool} {n : S.FullNode}

/-- A call that leaves the chain state at rest, if it returns. -/
abbrev Rests (x : Validation S.FullNode) : Prop :=
  Meets (fun _ => True) x fun n => AtRest n.chain

theorem flushState_reached (h : s.Reached) :
    Meets (fun _ => True) (flushState needed s) fun s' =>
      s'.Reached ∧ s'.pindexNew = s.pindexNew := by
  unfold flushState
  split
  · exact (Meets.orThrow fun _ => trivial).mono fun _ hs => h.flushStateToDisk hs
  · exact ⟨h,rfl⟩

/-- The flush behind the work on the coins, and the `UpdateTip` behind the flush. -/
theorem settle_rests {α : Type} (h : s.Reached) {f : S.Chainstate → α} {post : α → Prop}
    (hf : ∀ s', AtRest s' → post (f s')) : Meets (fun _ => True) (do
      let s ← flushState needed s
      let s ← orThrow s.updateTip .assertion
      pure (f s)) post := by
  apply (flushState_reached h).bind
  rintro s₁ ⟨h₁,-⟩
  apply (Meets.orThrow fun _ => trivial).bind
  intro s₂ hup
  exact hf s₂ (.updateTip h₁ hup)

theorem disconnectTip_rests (h : AtRest n.chain) : Rests (n.disconnectTip needed) := by
  unfold FullNode.disconnectTip
  apply (Meets.orThrow fun _ => trivial).bind
  intro _ _
  apply h.disconnectTip.bind
  intro s₁ h₁
  exact settle_rests h₁ fun _ h₂ => h₂

theorem disconnectTo_rests (fork : Option CBlockIndex) (i : CBlockIndex) (h : AtRest n.chain) :
    Rests (disconnectTo needed fork i n) := by
  induction i generalizing n with
  | genesis d =>
    unfold disconnectTo
    split
    · exact h
    · exact disconnectTip_rests h
  | child d p ih =>
    unfold disconnectTo
    split
    · exact h
    · exact (disconnectTip_rests h).bind fun _ => ih

theorem connectTip_rests (i : CBlockIndex) (h : AtRest n.chain) :
    Meets (fun _ => True) (n.connectTip needed i) fun r => AtRest r.2.chain := by
  unfold FullNode.connectTip
  apply (Meets.orThrow fun _ => trivial).bind
  intro r hr
  split
  · rename_i s₁ hconnect
    exact settle_rests (h.connectTip hr hconnect) fun _ h₂ => h₂
  · split
    · split <;> exact h
    · trivial

variable [DecidablePred S.known] {net : TreeEnv}

theorem connectBlocks_rests (old back : Option CBlockIndex) (l : List CBlockIndex)
    (h : AtRest n.chain) :
    Meets (fun _ => True) (connectBlocks net needed old back l n) fun r => AtRest r.2.chain := by
  induction l generalizing n with
  | nil => exact h
  | cons i rest ih =>
    unfold connectBlocks
    apply (connectTip_rests i h).bind
    intro r h₁
    split
    · apply (Meets.orThrow fun _ => trivial).bind
      intro tree _
      split
      · exact h₁
      · exact ih (n := { r.2 with tree := tree }) h₁
    · dsimp only [meets_pure]
      split <;> exact h₁

theorem connectStretches_rests (old : Option CBlockIndex) (mw : CBlockIndex) (nHeight : Int)
    (h : AtRest n.chain) : Rests (connectStretches net needed old mw nHeight n) := by
  induction hd : (mw.nHeight-nHeight).natAbs using Nat.strong_induction_on generalizing nHeight n with
  | _ d ih =>
    rw [connectStretches]
    split
    · exact h
    · apply (connectBlocks_rests _ _ _ h).bind
      intro r hr
      split
      · exact ih _ (by omega) _ hr rfl
      · exact hr

theorem activateBestChainStep_rests (mw : CBlockIndex) (h : AtRest n.chain) :
    Rests (activateBestChainStep net needed n mw) := by
  unfold activateBestChainStep
  apply Meets.bind ?_ fun _ => connectStretches_rests _ _ _
  cases n.tree.chainActive.tip with
  | none => exact h
  | some tip => exact disconnectTo_rests _ _ h

theorem activateBestChain_rests (fuel : Nat) (h : AtRest n.chain) :
    Rests (activateBestChain net needed fuel n) := by
  induction fuel generalizing n with
  | zero => trivial
  | succ fuel ih =>
    unfold activateBestChain
    apply (meets_any _).bind
    rintro ⟨m,t⟩ -
    cases m with
    | none => exact h
    | some mw =>
      simp only
      split
      · exact h
      · apply (activateBestChainStep_rests (n := { n with tree := t }) mw h).bind
        intro n₁ h₁
        split
        · apply (flushState_reached h₁.reached).bind
          rintro s₂ ⟨hreached,hnew⟩
          exact ⟨hreached,hnew.trans h₁.idle⟩
        · exact ih h₁

omit [DecidablePred S.known] in
theorem index_rests (t : BlockTree) (e : S.Entry) (h : AtRest n.chain) : Rests (n.index t e) := by
  unfold index
  split
  · apply (Meets.orThrow fun _ => trivial).bind
    intro s₁ hadd
    exact h.addToBlockIndex hadd
  · exact h

theorem deliver_rests (fuel : Nat) (d : S.Delivery) (h : AtRest n.chain) :
    Rests (deliver net needed fuel n d) := by
  unfold deliver
  split
  · split
    · exact h
    · exact index_rests _ _ h
  · split
    · exact h
    · apply (index_rests _ _ h).bind
      intro n₁ h₁
      split
      · exact activateBestChain_rests fuel h₁
      · exact h₁

omit [DecidablePred S.known] in
theorem start_rests (hgenesis : S.known net.genesis) : Rests (start net hgenesis) := by
  have hinit : AtRest S.initial := ⟨.init,rfl⟩
  unfold start
  apply (Meets.orThrow fun _ => trivial).bind
  intro s₁ hadd
  have h₁ := hinit.addToBlockIndex hadd
  have hrecord : s₁.mapBlockIndex net.genesisData.hashBlock = some ⟨⟨net.genesis,hgenesis⟩,none⟩ := by
    obtain rfl := Option.some.inj hadd
    exact Function.update_self ..
  cases hconnect : s₁.connectTip ⟨⟨net.genesis,hgenesis⟩,none⟩ none with
  | error f => trivial
  | ok s₂ =>
    apply (Meets.orThrow fun _ => trivial).bind
    intro s₃ hup
    exact .updateTip (h₁.connectTip hrecord hconnect) hup

theorem receive_rests (fuel : Nat) (deliveries : List S.Delivery) (h : AtRest n.chain) :
    Rests (deliveries.foldlM (deliver net needed fuel) n) := by
  induction deliveries generalizing n with
  | nil => exact h
  | cons d rest ih => exact (deliver_rests fuel d h).bind fun _ => ih

end FullNode
end BlockStore

end Anoncoin
