import Anoncoin.FullNodeRuns

/-!
What a node ends up with does not depend on the order in which it hears of the blocks: its tip
is the best of the branches that it has in full and that can be replayed, and its coins are
those of the tip. Nodes that have the same branches agree.
-/

set_option autoImplicit false

namespace Anoncoin
open Lib

namespace BlockStore.FullNode
open CCoinsView
variable {env : NodeEnv} {S : BlockStore env}

/-- A node has the blocks of the branch of an entry. -/
def Complete (n : S.FullNode) (e : S.Entry) : Prop :=
  e.1 ∈ n.tree.mapBlockIndex ∧ n.tree.AllData e.1

variable [DecidablePred S.known] {net net' : TreeEnv} {needed needed' : S.Chainstate → Bool}

/-- The blocks of a branch that can be replayed connect. -/
theorem connects_of_replay {e : S.Entry} (he : ∃ r, e.replay = .ok r) :
    ∀ a ∈ e.1.ancestors, (S.judge net).connects a = true := by
  induction e using Entry.induction with
  | genesis e hp =>
    intro a ha
    obtain ⟨i,hi⟩ := e
    cases i with
    | genesis d =>
      obtain rfl := List.mem_singleton.mp ha
      rfl
    | child d p => contradiction
  | child e p hp ih =>
    intro a ha
    rcases (CBlockIndex.mem_ancestors_pprev (Entry.pprev_val hp)).mp ha with rfl | hap
    · exact (connects_iff e.2 (checkBlock_of_replay he)).mpr he
    · obtain ⟨r,hr⟩ := he
      rw [replay_child hp] at hr
      obtain ⟨r₀,hr₀,-⟩ := bind_ok_iff.mp hr
      exact ih ⟨r₀,hr₀⟩ a hap

omit [DecidablePred S.known] in
/-- The tip of a node is a branch that it has in full, its coins are those of the replay, and no
branch that it has in full and that can be replayed outranks it. -/
structure Best (n : S.FullNode) (tip : S.Entry) : Prop where
  active : n.chain.chainActive = some tip
  tree : n.tree.chainActive.tip = some tip.1
  complete : Complete n tip
  coins : Replays n.chain.pcoinsTip tip
  best : ∀ e : S.Entry, Complete n e → (∃ r, e.replay = .ok r) →
    e.1.nChainWork ≤ tip.1.nChainWork ∧ (e.1.nChainWork = tip.1.nChainWork → e ≠ tip →
      n.tree.nSequenceId tip.1 < n.tree.nSequenceId e.1)

theorem Settled.best {n : S.FullNode} {tip : CBlockIndex} (h : Settled net n tip)
    (hadv : Anoncoin.Advanced net.initial n.tree) : ∃ e, Best n e := by
  obtain ⟨e,htree,hchain⟩ := h.coupled.tip
  have hactive := h.selected.ok.active
  have htip : n.tree.chainActive.tip = some e.1 := by rw [htree,CChain.pathTo_tip]
  have he : e.1 = tip := by
    rw [hactive.chain,CChain.pathTo_tip] at htip
    exact (Option.some.inj htip).symm
  refine ⟨e,hchain,htip,⟨he ▸ hactive.mem,he ▸ h.selected.eligible_tip.allData⟩,
    h.coupled.inv.replays ((Chainstate.coinsTip_idle h.coupled.idle).trans hchain),?_⟩
  intro f hf hr
  have hbest := h.selected.best hadv ⟨hf.1,hf.2,connects_of_replay hr⟩
  rw [← he] at hbest
  exact ⟨hbest.1,fun hwork hne => hbest.2 hwork fun heq => hne (Subtype.ext heq)⟩

theorem run_settled (hS : S.Indexes net)
    (hcheck : env.checkBlock (S.block net.genesis) true true = .ok ())
    (deliveries : List S.Delivery) : ∃ fuel n tip, run net needed hS.genesis fuel deliveries = .ok n ∧ Settled net n tip ∧
      Anoncoin.Advanced net.initial n.tree := by
  obtain ⟨n₀,hstart,h₀,htree⟩ := start_ok hS hcheck
  obtain ⟨fuel,n,tip,hr,h,hadv⟩ := @Settled.receive env S needed _ net hS n₀ _ h₀ deliveries
  refine ⟨fuel,n,tip,?_,h,htree ▸ hadv⟩
  unfold FullNode.run
  rw [hstart,ok_bind]
  exact hr

end BlockStore.FullNode

section Fork

/-! The two blocks on top of genesis, which have as much work as each other. -/

instance : DecidablePred forkStore.known := fun i => inferInstanceAs (Decidable (i ∈ forkEntries))

def forkNet : TreeEnv where
  net := { numberedNet with hashes := forkEnv.hashes, testNet := forkEnv.testNet }
  genesisData := forkData 1
  genesis_hash := rfl
  address _ := 0
  connectBlock _ := true

theorem forkStore_indexes : forkStore.Indexes forkNet where
  hashes := rfl
  testNet := rfl
  genesis := List.mem_cons_self
  data d p h := (by decide : ∀ i ∈ forkEntries,
    forkNet.net.indexData (forkBlock i).toCBlockHeader = i.data) _ h
  prev d p h := (by decide : ∀ i ∈ forkEntries, ∀ p, i.pprev = some p →
    (forkBlock i).hashPrevBlock = p.data.fakeBIhash) _ h p rfl
  fakeHashes i j hi hj := (by decide : ∀ i ∈ forkEntries, ∀ j ∈ forkEntries,
    i.data.fakeBIhash = j.data.fakeBIhash → i = j) i hi j hj

/-- One block and then the other. -/
def forkDeliveries : List forkStore.Delivery :=
  (List.finRange 3).tail.map fun i => .block 10 0 (forkEntry i) .valid

/-- The other way round, and each header before its block. -/
def forkDeliveriesBack : List forkStore.Delivery :=
  (List.finRange 3).tail.reverse.flatMap fun i =>
    [.header 10 0 (forkEntry i),.block 10 0 (forkEntry i) .valid]

end Fork

end Anoncoin
