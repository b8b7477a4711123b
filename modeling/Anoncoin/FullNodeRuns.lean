import Anoncoin.FullNode
import Anoncoin.TreeLabels
import Anoncoin.VerifyDB

/-!
Runs of a node. The tree moves as one whose blocks are judged by the replays of their branches,
and the chain state follows it: the verdicts are the same, and the coins are those of the tip.
-/

set_option autoImplicit false

namespace Anoncoin
open Lib

namespace BlockStore
open Chainstate
variable {env : NodeEnv} {S : BlockStore env}

/-- An entry of the tree has its record in the chain state. -/
def Chainstate.Lists (s : S.Chainstate) (i : CBlockIndex) : Prop :=
  S.known i ∧ (s.mapBlockIndex i.data.hashBlock).isSome = true

theorem Chainstate.Lists.record {s : S.Chainstate} {i : CBlockIndex} (h : s.Lists i) (hs : Inv s) :
    ∃ r, s.mapBlockIndex i.data.hashBlock = some r ∧ r.pindex.1 = i := by
  obtain ⟨hknown,hsome⟩ := h
  obtain ⟨r,hr⟩ := Option.isSome_iff_exists.mp hsome
  refine ⟨r,hr,?_⟩
  have hr' : s.mapBlockIndex (Entry.hash (S := S) ⟨i,hknown⟩) = some r := hr
  exact congrArg Subtype.val (hs.memory.pindex hr')

theorem Chainstate.Lists.of_index {s s' : S.Chainstate} {i : CBlockIndex} (h : s.Lists i)
    (hindex : s'.mapBlockIndex = s.mapBlockIndex) : s'.Lists i :=
  ⟨h.1,by rw [hindex]; exact h.2⟩

theorem setRecord_lists {s : S.Chainstate} {i : CBlockIndex} (h : s.Lists i) (r : S.BlockRecord) :
    (s.setRecord r).Lists i := by
  refine ⟨h.1,?_⟩
  by_cases hk : i.data.hashBlock = r.pindex.hash
  · simp [setRecord,hk]
  · simpa [setRecord,hk] using h.2

theorem writeUndo_lists {s : S.Chainstate} {i : CBlockIndex} (h : s.Lists i) (r : S.BlockRecord)
    (undo : Option CBlockUndo) : (s.writeUndo r undo).Lists i := by
  unfold Chainstate.writeUndo
  split
  · exact h
  · split
    · exact h
    · exact setRecord_lists h _

/-- `AddToBlockIndex` lists the entry, when it has listed its parent. -/
theorem addToBlockIndex_ok {s : S.Chainstate} {e : S.Entry}
    (hp : ∀ p, e.pprev = some p → s.Lists p.1) :
    ∃ s', s.addToBlockIndex e = some s' ∧ s'.Lists e.1 ∧ (∀ i, s.Lists i → s'.Lists i) ∧
      s'.chainActive = s.chainActive ∧ s'.pindexNew = s.pindexNew := by
  have hparent : (e.pprev.all fun p => (s.mapBlockIndex p.hash).isSome) = true := by
    rw [Option.all_eq_true]
    exact fun p hep => (hp p hep).2
  unfold Chainstate.addToBlockIndex
  rw [if_pos hparent]
  cases hr : s.mapBlockIndex e.hash with
  | some r => exact ⟨s,rfl,⟨e.2,Option.isSome_of_eq_some hr⟩,fun i hi => hi,rfl,rfl⟩
  | none =>
    refine ⟨_,rfl,⟨e.2,?_⟩,fun i hi => setRecord_lists hi _,rfl,rfl⟩
    show (Function.update s.mapBlockIndex e.hash _ e.hash).isSome = true
    rw [Function.update_self]
    rfl

theorem connectTip_shape {s s' : S.Chainstate} {r : S.BlockRecord} {header : Option (Nat × String)}
    (h : s.connectTip r header = .ok s') : ∃ undo v, s' = { s.writeUndo r undo with
      pcoinsTip := v, pindexNew := some (some r.pindex) } := by
  obtain ⟨_,-,h⟩ := bind_ok_iff.mp h
  obtain ⟨_,-,h⟩ := bind_ok_iff.mp h
  obtain ⟨x,-,h⟩ := bind_ok_iff.mp h
  obtain ⟨v,-,h⟩ := bind_ok_iff.mp h
  exact ⟨x.2,v,(Except.ok.inj h).symm⟩

/-- Nothing but `CheckBlock` stands against a genesis block. -/
theorem replay_genesis_ok {e : S.Entry} (hp : e.pprev = none)
    (hcheck : env.checkBlock (S.block e.1) true true = .ok ()) : ∃ r, e.replay = .ok r := by
  have hstart := initial_holds (S := S)
  have hbest : ((S.connectIndex e false).pprev.getD 0 == S.initial.pcoinsTip.getBestBlock.1) =
      true := by
    rw [hstart.best,connectIndex_pprev e false,hp]
    exact beq_self_eq_true _
  obtain ⟨v,hset,-⟩ := hstart.getBestBlock.setBestBlock e.hash_ne
  have hset' : S.initial.pcoinsTip.getBestBlock.2.setBestBlock
      (S.connectIndex e false).hashBlock = some v := hset
  refine ⟨(v,none),?_⟩
  rw [replay_genesis hp]
  unfold NodeEnv.connectBlock
  simp only [Bool.not_false,hcheck,ok_bind,hbest,ensure_true,if_pos ((block_genesis_iff e).mpr hp),
    Bool.false_eq_true,if_false,hset',orThrow_some]
  rfl

namespace FullNode
variable {needed : S.Chainstate → Bool}

theorem flushState_ok {s : S.Chainstate} (h : Inv s) :
    ∃ s', flushState needed s = .ok s' ∧ Inv s' ∧ s'.mapBlockIndex = s.mapBlockIndex ∧
      s'.chainActive = s.chainActive ∧ s'.pindexNew = s.pindexNew := by
  unfold flushState
  split
  · obtain ⟨s',hs',hinv,-,hindex,hactive,hnew⟩ := h.flushStateToDisk_ok
    exact ⟨s',by rw [hs',orThrow_some],hinv,hindex,hactive,hnew⟩
  · exact ⟨s,rfl,h,rfl,rfl,rfl⟩

/-- The flush behind the work on the coins, and the `UpdateTip` behind the flush. -/
theorem settle_ok {s : S.Chainstate} (h : Inv s) {tip : Option S.Entry}
    (hn : s.pindexNew = some tip) :
    ∃ s₁ s', flushState needed s = .ok s₁ ∧ s₁.updateTip = some s' ∧ Inv s' ∧
      s'.mapBlockIndex = s.mapBlockIndex ∧ s'.chainActive = tip ∧ s'.pindexNew = none := by
  obtain ⟨s₁,hf,hinv,hindex,-,hnew⟩ := @flushState_ok env S needed s h
  have htip : s₁.updateTip = some { s₁ with chainActive := tip, pindexNew := none } := by
    rw [Chainstate.updateTip,hnew,hn,Option.map_some]
  exact ⟨s₁,_,hf,htip,hinv.updateTip htip,hindex,rfl,rfl⟩

/-- Where tree and chain state belong together: between two calls both have the same tip, the
entries of the tree are listed, the blocks whose data is there passed `CheckBlock`, and genesis
has no undo data. -/
structure Coupled (n : S.FullNode) : Prop where
  inv : Inv n.chain
  idle : n.chain.pindexNew = none
  tip : ∃ e : S.Entry, n.tree.chainActive = .pathTo e.1 ∧ n.chain.chainActive = some e
  lists : ∀ i ∈ n.tree.mapBlockIndex, n.chain.Lists i
  checked : ∀ i ∈ n.tree.mapBlockIndex, n.tree.haveData i = true →
    env.checkBlock (S.block i) true true = .ok ()
  genesis : ∀ d, n.tree.haveUndo (.genesis d) = false

/-- What the calls below `ActivateBestChain` leave alone in a tree. -/
def frame (t : BlockTree) :
    List CBlockIndex × (CBlockIndex → Bool) × (CBlockIndex → Option CBlockIndex) :=
  (t.mapBlockIndex,t.haveData,t.pskip)

/-- What the search for a candidate leaves alone. -/
def outline (t : BlockTree) := (frame t,t.chainActive,t.haveUndo)

theorem Coupled.withTree {n : S.FullNode} (h : Coupled n) {t : BlockTree}
    (ht : outline t = outline n.tree) : Coupled { n with tree := t } := by
  simp only [outline,frame,Prod.mk.injEq] at ht
  obtain ⟨⟨hindex,hdata,-⟩,hchain,hundo⟩ := ht
  refine ⟨h.inv,h.idle,?_,?_,?_,?_⟩
  · simpa only [hchain] using h.tip
  · simpa only [hindex] using h.lists
  · simpa only [hindex,hdata] using h.checked
  · simpa only [hundo] using h.genesis

/-- A call that goes well, with the chain state behind the tree. -/
abbrev Tracks (n : S.FullNode) (t : BlockTree) (x : Validation S.FullNode) : Prop :=
  ∃ chain, x = .ok ⟨t,chain⟩ ∧ Coupled ⟨t,chain⟩ ∧ frame t = frame n.tree

theorem Coupled.disconnectTip {n : S.FullNode} (h : Coupled n) {t : BlockTree}
    (ht : n.tree.disconnectTip = some t) :
    Tracks n t (n.disconnectTip needed) := by
  obtain ⟨e,htree,hchain⟩ := h.tip
  have htip : n.tree.chainActive.tip = some e.1 := by rw [htree,CChain.pathTo_tip]
  unfold BlockTree.disconnectTip at ht
  simp only [htip] at ht
  split at ht
  · rename_i hundo
    obtain rfl := Option.some.inj ht
    cases hp : e.pprev with
    | none =>
      obtain ⟨i,hi⟩ := e
      cases i with
      | genesis d => exact absurd hundo (by rw [h.genesis d]; exact Bool.false_ne_true)
      | child d q => contradiction
    | some p =>
      obtain ⟨v,hd,hstands,hdepth,hbottom⟩ := h.inv.disconnectTip_ok h.idle hchain hp
      have hinv := h.inv.disconnectTip h.idle hd
      obtain ⟨s₁,s',hf,hup,hinv',hindex,hactive,hnew⟩ := @settle_ok env S needed _ hinv _ rfl
      refine ⟨s',?_,⟨hinv',hnew,⟨p,?_,hactive⟩,?_,h.checked,h.genesis⟩,rfl⟩
      · unfold FullNode.disconnectTip
        simp only [htip,orThrow_some,ok_bind,hd,hf,hup]
        rfl
      · show n.tree.chainActive.setTip e.1.pprev = .pathTo p.1
        rw [htree,Entry.pprev_val hp,CChain.setTip_pathTo]
      · exact fun i hi => (h.lists i hi).of_index hindex
  · contradiction

theorem Coupled.disconnectTo {i : CBlockIndex} {fork : Option CBlockIndex} {n : S.FullNode}
    (h : Coupled n) {t : BlockTree} (ht : BlockTree.disconnectTo fork i n.tree = some t) :
    Tracks n t (FullNode.disconnectTo needed fork i n) := by
  induction i generalizing n with
  | genesis d =>
    unfold BlockTree.disconnectTo at ht
    unfold FullNode.disconnectTo
    split at ht
    · rename_i heq
      obtain rfl := Option.some.inj ht
      exact ⟨n.chain,by rw [if_pos heq]; rfl,h,rfl⟩
    · rename_i hne
      rw [if_neg hne]
      exact h.disconnectTip ht
  | child d p ih =>
    unfold BlockTree.disconnectTo at ht
    unfold FullNode.disconnectTo
    split at ht
    · rename_i heq
      obtain rfl := Option.some.inj ht
      exact ⟨n.chain,by rw [if_pos heq]; rfl,h,rfl⟩
    · rename_i hne
      obtain ⟨t₁,h₁,hrest⟩ := Option.bind_eq_some_iff.mp ht
      obtain ⟨s₁,hr₁,hc₁,hf₁⟩ := @Coupled.disconnectTip env S needed n h t₁ h₁
      obtain ⟨s₂,hr₂,hc₂,hf₂⟩ := ih hc₁ hrest
      refine ⟨s₂,?_,hc₂,hf₂.trans hf₁⟩
      rw [if_neg hne]
      simp only [hr₁,ok_bind]
      exact hr₂

theorem corruptionPossible_of_checked {e : S.Entry}
    (hcheck : env.checkBlock (S.block e.1) true true = .ok ()) : corruptionPossible e = false := by
  simp only [corruptionPossible,hcheck]

theorem connected_frame (t : BlockTree) (i : CBlockIndex) :
    frame (TreeEnv.connected t i) = frame t ∧
      (TreeEnv.connected t i).chainActive = t.chainActive ∧
      ∀ d, (TreeEnv.connected t i).haveUndo (.genesis d) = t.haveUndo (.genesis d) := by
  cases i with
  | genesis d => exact ⟨rfl,rfl,fun _ => rfl⟩
  | child d p =>
    have hundo : ∀ d', Function.update t.haveUndo (.child d p) true (.genesis d') =
        t.haveUndo (.genesis d') := fun d' => by simp
    simp only [TreeEnv.connected,BlockTree.raiseValidity]
    split <;> exact ⟨rfl,rfl,hundo⟩

variable [DecidablePred S.known] {net : TreeEnv}

/-- A block whose data is there can be connected to the tip of the tree exactly when its branch
can be replayed. -/
theorem connects_iff {i : CBlockIndex} (h : S.known i)
    (hcheck : env.checkBlock (S.block i) true true = .ok ()) :
    (S.judge net).connects i = true ↔ ∃ r, Entry.replay (S := S) ⟨i,h⟩ = .ok r := by
  have hok : ∀ x : Validation (CCoinsView × Option CBlockUndo), x.isOk = true ↔ ∃ r, x = .ok r := by
    intro x
    cases x <;> simp [Except.isOk,Except.toBool]
  cases i with
  | genesis d =>
    exact ⟨fun _ => replay_genesis_ok rfl hcheck,fun _ => rfl⟩
  | child d p =>
    show BlockStore.connects S _ = true ↔ _
    rw [BlockStore.connects,dif_pos h,hok]
    rfl

/-- The verdict of `ConnectTip` is that of the tree, and where the block is connected the chain
state follows. -/
theorem Coupled.connectTip {n : S.FullNode} (h : Coupled n) {i : CBlockIndex}
    (hi : i ∈ n.tree.mapBlockIndex) (hdata : n.tree.haveData i = true) {b : Bool} {t : BlockTree}
    (ht : (S.judge net).connectTip n.tree i = some (b,t)) :
    ∃ chain, n.connectTip needed i = .ok (b,⟨t,chain⟩) ∧ Coupled ⟨t,chain⟩ ∧
      frame t = frame n.tree ∧ (n.chain.mapBlockIndex i.data.hashBlock).any (fun r =>
        corruptionPossible r.pindex) = false := by
  obtain ⟨e,htree,hchain⟩ := h.tip
  obtain ⟨hknown,-⟩ := h.lists i hi
  obtain ⟨r,hr,hri⟩ := (h.lists i hi).record h.inv
  obtain rfl := hri
  have hcheck := h.checked _ hi hdata
  have hcorrupt := corruptionPossible_of_checked hcheck
  unfold TreeEnv.connectTip at ht
  rw [htree,CChain.pathTo_tip] at ht
  split at ht
  · rename_i hprev
    have hp : r.pindex.pprev = n.chain.chainActive := by
      rw [hchain]
      cases hq : r.pindex.pprev with
      | none =>
        obtain ⟨⟨i,_⟩,_⟩ := r
        cases i with
        | genesis d => contradiction
        | child d q => contradiction
      | some p =>
        rw [Entry.pprev_val hq] at hprev
        exact congrArg some (Subtype.ext (Option.some.inj hprev))
    have hiff : (S.judge net).connects r.pindex.1 = true ↔ ∃ x, r.pindex.replay = .ok x :=
      connects_iff r.pindex.2 hcheck
    unfold FullNode.connectTip
    simp only [hr,orThrow_some,ok_bind]
    cases hcon : (S.judge net).connects r.pindex.1 with
    | true =>
      obtain ⟨s₁,h₁⟩ := h.inv.connectTip_of_replay h.idle hp (hiff.mp hcon)
      have hinv := h.inv.connectTip h.idle hr h₁
      obtain ⟨undo,v,rfl⟩ := connectTip_shape h₁
      obtain ⟨s₂,s',hf,hup,hinv',hindex,hactive,hnew⟩ := @settle_ok env S needed _ hinv _ rfl
      obtain ⟨hframe,hsame,hgenesis⟩ := connected_frame n.tree r.pindex.1
      rw [hcon] at ht
      simp only [if_true,Option.some.injEq,Prod.mk.injEq] at ht
      obtain ⟨rfl,rfl⟩ := ht
      simp only [frame,Prod.mk.injEq] at hframe
      refine ⟨s',?_,⟨hinv',hnew,⟨r.pindex,?_,hactive⟩,?_,?_,?_⟩,?_,by simpa using hcorrupt⟩
      · simp only [h₁,hf,hup,ok_bind,orThrow_some]
        rfl
      · show (TreeEnv.connected n.tree r.pindex.1).chainActive.setTip (some r.pindex.1) =
          .pathTo r.pindex.1
        rw [hsame,htree,CChain.setTip_pathTo]
      · intro j hj
        exact (writeUndo_lists (h.lists j (hframe.1 ▸ hj)) r undo).of_index hindex
      · intro j hj hd
        exact h.checked j (hframe.1 ▸ hj) (hframe.2.1 ▸ hd)
      · exact fun d => (hgenesis d).trans (h.genesis d)
      · simp only [frame,hframe]
    | false =>
      obtain ⟨f,hfail⟩ : ∃ f, Chainstate.connectOn S n.chain.pcoinsTip r = .error f := by
        cases hx : r.pindex.replay with
        | ok x =>
          rw [hiff.mpr ⟨x,hx⟩] at hcon
          contradiction
        | error f => exact ⟨f,(h.inv.connectOn_error_iff h.idle hp).mpr hx⟩
      have hinvalid : f.isInvalid = true := by
        have hreject := h.inv.connectOn_rejects h.idle hp hfail
        cases f <;> trivial
      rw [hcon] at ht
      simp only [Bool.false_eq_true,if_false,Option.some.injEq,Prod.mk.injEq] at ht
      obtain ⟨rfl,rfl⟩ := ht
      refine ⟨n.chain,?_,h.withTree rfl,rfl,by simpa using hcorrupt⟩
      simp only [(h.inv.connectTip_error_iff h.idle hp).mpr hfail,hinvalid,hcorrupt,if_true,
        Bool.false_eq_true,if_false]
      rfl
  · contradiction

theorem prune_outline {t t' : BlockTree} (h : net.pruneBlockIndexCandidates t = some t') :
    outline t' = outline t := by
  unfold TreeEnv.pruneBlockIndexCandidates at h
  simp only at h
  split at h
  · contradiction
  · obtain rfl := Option.some.inj h
    rfl

/-- Blocks of the tree whose data is there. -/
def Present (t : BlockTree) (i : CBlockIndex) : Prop := i ∈ t.mapBlockIndex ∧ t.haveData i = true

theorem Present.of_frame {t t' : BlockTree} {i : CBlockIndex} (h : Present t i)
    (hframe : frame t' = frame t) : Present t' i := by
  simp only [frame,Prod.mk.injEq] at hframe
  exact ⟨hframe.1 ▸ h.1,hframe.2.1 ▸ h.2⟩

theorem Coupled.connectBlocks {old back : Option CBlockIndex} {l : List CBlockIndex}
    {n : S.FullNode} (h : Coupled n) (hl : ∀ i ∈ l, Present n.tree i) {b : Bool} {t : BlockTree}
    (ht : (S.judge net).connectBlocks old back l n.tree = some (b,t)) :
    ∃ chain, FullNode.connectBlocks net needed old back l n = .ok (b,⟨t,chain⟩) ∧
      Coupled ⟨t,chain⟩ ∧ frame t = frame n.tree := by
  induction l generalizing n with
  | nil =>
    obtain ⟨rfl,rfl⟩ := Prod.mk.inj (Option.some.inj ht)
    exact ⟨n.chain,rfl,h,rfl⟩
  | cons i rest ih =>
    obtain ⟨⟨hi,hdata⟩,hrest⟩ := List.forall_mem_cons.mp hl
    unfold TreeEnv.connectBlocks at ht
    unfold FullNode.connectBlocks
    cases htip : (S.judge net).connectTip n.tree i with
    | none =>
      rw [htip] at ht
      contradiction
    | some r =>
      obtain ⟨ok,t₁⟩ := r
      obtain ⟨s₁,hr₁,hc₁,hf₁,hcorrupt⟩ := @Coupled.connectTip env S needed _ net n h i hi hdata ok t₁ htip
      rw [htip] at ht
      simp only [hr₁,ok_bind]
      cases ok with
      | false =>
        obtain ⟨rfl,rfl⟩ := Prod.mk.inj (Option.some.inj ht)
        refine ⟨s₁,?_,?_,?_⟩
        · simp only [hcorrupt,Bool.false_eq_true,if_false]
          cases back <;> rfl
        · cases back <;> exact hc₁.withTree rfl
        · cases back <;> exact hf₁
      | true =>
        simp only [if_true] at ht ⊢
        cases hprune : (S.judge net).pruneBlockIndexCandidates t₁ with
        | none =>
          rw [hprune] at ht
          contradiction
        | some t₂ =>
          have hout := prune_outline hprune
          have hc₂ := hc₁.withTree hout
          have hf₂ : frame t₂ = frame t₁ := congrArg Prod.fst hout
          rw [hprune] at ht
          simp only [orThrow_some,ok_bind] at ht ⊢
          split at ht
          · rename_i himproved
            obtain ⟨rfl,rfl⟩ := Prod.mk.inj (Option.some.inj ht)
            exact ⟨s₁,by rw [if_pos himproved]; rfl,hc₂,hf₂.trans hf₁⟩
          · rename_i hnot
            obtain ⟨s₃,hr₃,hc₃,hf₃⟩ := ih hc₂
              (fun x hx => (hrest x hx).of_frame (hf₂.trans hf₁)) ht
            exact ⟨s₃,by rw [if_neg hnot]; exact hr₃,hc₃,(hf₃.trans hf₂).trans hf₁⟩

theorem mem_of_toConnect {nHeight : Int} {a i : CBlockIndex}
    (h : a ∈ BlockTree.toConnect nHeight i) : a ∈ i.ancestors := by
  induction i with
  | genesis d =>
    unfold BlockTree.toConnect at h
    split at h
    · contradiction
    · exact h
  | child d p ih =>
    unfold BlockTree.toConnect at h
    split at h
    · contradiction
    · rcases List.mem_cons.mp h with rfl | hrest
      · exact CBlockIndex.self_mem_ancestors _
      · exact List.mem_cons_of_mem _ (ih hrest)

theorem mem_of_getAncestor {pskip : CBlockIndex → Option CBlockIndex} {i a : CBlockIndex}
    (hskip : CBlockIndex.SkipBuilt pskip i) {height : Int}
    (h : i.getAncestor pskip height = some a) : a ∈ i.ancestors := by
  have hrange : 0 ≤ height ∧ height ≤ i.nHeight := by
    unfold CBlockIndex.getAncestor at h
    split at h
    · contradiction
    · omega
  obtain ⟨k,rfl⟩ := Int.eq_ofNat_of_zero_le hrange.1
  rw [CBlockIndex.getAncestor_eq hskip (by omega)] at h
  exact (CBlockIndex.ancestorAt_eq_some.mp h).1

theorem stretch_present {t : BlockTree} {mw : CBlockIndex}
    (hskip : CBlockIndex.SkipBuilt t.pskip mw) (hmw : ∀ a ∈ mw.ancestors, Present t a)
    {nHeight target : Int} : ∀ i ∈ ((mw.getAncestor t.pskip target).elim []
      (BlockTree.toConnect nHeight)).reverse, Present t i := by
  intro i hi
  cases hb : mw.getAncestor t.pskip target with
  | none => simp [hb] at hi
  | some b =>
    rw [hb,List.mem_reverse] at hi
    exact hmw i (CBlockIndex.ancestors_trans (mem_of_toConnect hi) (mem_of_getAncestor hskip hb))

theorem Coupled.connectStretches {old : Option CBlockIndex} {mw : CBlockIndex} {nHeight : Int}
    {n : S.FullNode} (h : Coupled n) (hskip : CBlockIndex.SkipBuilt n.tree.pskip mw)
    (hmw : ∀ a ∈ mw.ancestors, Present n.tree a) {t : BlockTree}
    (ht : (S.judge net).connectStretches old mw nHeight n.tree = some t) :
    Tracks n t (FullNode.connectStretches net needed old mw nHeight n) := by
  obtain ⟨u,hu⟩ : ∃ u, n.tree = u := ⟨_,rfl⟩
  rw [hu] at ht
  induction nHeight, u using TreeEnv.connectStretches.induct (S.judge net) old mw generalizing n with
  | case1 u =>
    subst hu
    rw [TreeEnv.connectStretches,if_pos rfl] at ht
    obtain rfl := Option.some.inj ht
    exact ⟨n.chain,by rw [FullNode.connectStretches,if_pos rfl]; rfl,h,rfl⟩
  | case2 =>
    rename_i nHeight u hne target connect hblocks
    rw [TreeEnv.connectStretches,if_neg hne] at ht
    simp only [target,connect] at hblocks
    simp only [hblocks] at ht
    contradiction
  | case3 =>
    rename_i nHeight u hne target connect t₁ hblocks
    rw [TreeEnv.connectStretches,if_neg hne] at ht
    simp only [target,connect] at hblocks
    simp only [hblocks] at ht
    obtain rfl := Option.some.inj ht
    subst hu
    obtain ⟨s₁,hr₁,hc₁,hf₁⟩ := @Coupled.connectBlocks env S needed _ net _ _ _ n h
      (stretch_present hskip hmw) false t₁ hblocks
    refine ⟨s₁,?_,hc₁,hf₁⟩
    rw [FullNode.connectStretches,if_neg hne]
    simp only [hr₁,ok_bind,Bool.false_eq_true,if_false]
    rfl
  | case4 =>
    rename_i nHeight u hne target connect t₁ hblocks ih
    rw [TreeEnv.connectStretches,if_neg hne] at ht
    simp only [target,connect] at hblocks
    simp only [hblocks] at ht
    subst hu
    obtain ⟨s₁,hr₁,hc₁,hf₁⟩ := @Coupled.connectBlocks env S needed _ net _ _ _ n h
      (stretch_present hskip hmw) true t₁ hblocks
    have hsame : t₁.pskip = n.tree.pskip := congrArg (fun f => f.2.2) hf₁
    obtain ⟨s₂,hr₂,hc₂,hf₂⟩ := ih (n := ⟨t₁,s₁⟩) hc₁ (by rw [hsame]; exact hskip)
      (fun a ha => (hmw a ha).of_frame hf₁) ht rfl
    refine ⟨s₂,?_,hc₂,hf₂.trans hf₁⟩
    rw [FullNode.connectStretches,if_neg hne]
    simp only [hr₁,ok_bind,if_true]
    exact hr₂

theorem Coupled.activateBestChainStep {mw : CBlockIndex} {n : S.FullNode} (h : Coupled n)
    (hskip : CBlockIndex.SkipBuilt n.tree.pskip mw)
    (hmw : ∀ a ∈ mw.ancestors, Present n.tree a) {t : BlockTree}
    (ht : (S.judge net).activateBestChainStep n.tree mw = some t) :
    Tracks n t (FullNode.activateBestChainStep net needed n mw) := by
  obtain ⟨e,htree,-⟩ := h.tip
  have htip : n.tree.chainActive.tip = some e.1 := by rw [htree,CChain.pathTo_tip]
  unfold TreeEnv.activateBestChainStep at ht
  unfold FullNode.activateBestChainStep
  simp only [htip,Option.elim_some] at ht ⊢
  cases hdisconnect : BlockTree.disconnectTo (n.tree.chainActive.findFork n.tree.pskip mw) e.1
      n.tree with
  | none =>
    rw [hdisconnect] at ht
    contradiction
  | some t₁ =>
    obtain ⟨s₁,hr₁,hc₁,hf₁⟩ := @Coupled.disconnectTo env S needed _ _ n h t₁ hdisconnect
    have hsame : t₁.pskip = n.tree.pskip := congrArg (fun f => f.2.2) hf₁
    rw [hdisconnect] at ht
    obtain ⟨s₂,hr₂,hc₂,hf₂⟩ := @Coupled.connectStretches env S needed _ net _ _ _ ⟨t₁,s₁⟩ hc₁
      (by rw [hsame]; exact hskip) (fun a ha => (hmw a ha).of_frame hf₁) t ht
    exact ⟨s₂,by simp only [hr₁,ok_bind]; exact hr₂,hc₂,hf₂.trans hf₁⟩

theorem eraseFailed_outline (pindexTest i : CBlockIndex) (t : BlockTree) :
    outline (BlockTree.eraseFailed pindexTest i t) = outline t := by
  induction i generalizing t with
  | genesis d =>
    unfold BlockTree.eraseFailed
    split <;> rfl
  | child d p ih =>
    unfold BlockTree.eraseFailed
    split
    · exact ih _
    · rfl

theorem findMostWorkChain_outline {m : Option CBlockIndex} {t t' : BlockTree}
    (h : net.findMostWorkChain t = some (m,t')) : outline t' = outline t := by
  induction t using TreeEnv.findMostWorkChain.induct net with
  | case1 t hlast =>
    rw [findMostWorkChain_eq,hlast] at h
    obtain ⟨-,rfl⟩ := Prod.mk.inj (Option.some.inj h)
    rfl
  | case2 t c hlast hfind =>
    rw [findMostWorkChain_eq,hlast] at h
    simp only [hfind] at h
    contradiction
  | case3 t c hlast hfind =>
    rw [findMostWorkChain_eq,hlast] at h
    simp only [hfind] at h
    obtain ⟨-,rfl⟩ := Prod.mk.inj (Option.some.inj h)
    rfl
  | case4 t c hlast f hfind ih =>
    rw [findMostWorkChain_eq,hlast] at h
    simp only [hfind] at h
    exact (ih h).trans (eraseFailed_outline f c (t.invalidChainFound c))

/-- `ActivateBestChain` takes the tree where it goes when the blocks are judged by the replays
of their branches, and the chain state along. -/
theorem Coupled.activateBestChain {fuel : Nat} {n : S.FullNode} (h : Coupled n)
    {tip : CBlockIndex} (hs : Searching (S.judge net) n.tree tip)
    (hgenesis : n.tree.failedValid (S.judge net).genesis = false) {t : BlockTree}
    (ht : (S.judge net).activateBestChain fuel n.tree = some t) :
    Tracks n t (FullNode.activateBestChain net needed fuel n) := by
  induction fuel generalizing n tip with
  | zero => contradiction
  | succ fuel ih =>
    obtain ⟨m,t₁,hfind,hs₁,hexp₁,hcases⟩ := findMostWorkChain_ok hs
    have hout := findMostWorkChain_outline hfind
    have hc₁ := h.withTree hout
    have hf₁ : frame t₁ = frame n.tree := congrArg Prod.fst hout
    have hgenesis₁ : t₁.failedValid (S.judge net).genesis = false :=
      Bool.eq_false_iff.mpr fun hf =>
        absurd (hexp₁.genesis_invalid hf) (Bool.eq_false_iff.mp hgenesis)
    unfold TreeEnv.activateBestChain at ht
    unfold FullNode.activateBestChain
    simp only [hfind,orThrow_some,ok_bind] at ht ⊢
    rcases hcases with ⟨rfl,-⟩ | ⟨mw,hmw,rfl,-,hclean⟩
    · obtain rfl := Option.some.inj ht
      exact ⟨n.chain,rfl,hc₁,hf₁⟩
    · simp only at ht ⊢
      split at ht
      · rename_i htip
        obtain rfl := Option.some.inj ht
        exact ⟨n.chain,by rw [if_pos htip]; rfl,hc₁,hf₁⟩
      · rename_i hne
        rw [if_neg hne]
        obtain ⟨hmem,hlinked⟩ := hs₁.links.candidates mw hmw
        have hpresent : ∀ a ∈ mw.ancestors, Present t₁ a := fun a ha =>
          ⟨hs₁.index.closed mw hmem a ha,hs₁.links.allData mw hmem hlinked a ha⟩
        obtain ⟨t₂,tip₂,hstep,hs₂,hexp₂,-⟩ := activateBestChainStep_ok hs₁
          (hs₁.target (fun hf => absurd hf (Bool.eq_false_iff.mp hgenesis₁)) hmw) hclean
        obtain ⟨s₂,hr₂,hc₂,hf₂⟩ := @Coupled.activateBestChainStep env S needed _ net mw
          { n with tree := t₁ } hc₁ (hs₁.index.skip mw hmem) hpresent t₂ hstep
        simp only [hstep] at ht
        simp only [hr₂,ok_bind]
        split at ht
        · rename_i htip
          obtain rfl := Option.some.inj ht
          obtain ⟨s₃,hr₃,hinv,hindex,hactive,hnew⟩ := @flushState_ok env S needed _ hc₂.inv
          refine ⟨s₃,by rw [if_pos htip,hr₃]; rfl,?_,hf₂.trans hf₁⟩
          obtain ⟨e,htree,hchain⟩ := hc₂.tip
          exact ⟨hinv,hnew.trans hc₂.idle,⟨e,htree,hactive.trans hchain⟩,
            fun i hi => (hc₂.lists i hi).of_index hindex,hc₂.checked,hc₂.genesis⟩
        · rename_i hnot
          rw [if_neg hnot]
          have hgenesis₂ : t₂.failedValid (S.judge net).genesis = false :=
            Bool.eq_false_iff.mpr fun hf =>
              absurd (hexp₂.genesis_invalid hf) (Bool.eq_false_iff.mp hgenesis₁)
          obtain ⟨s₃,hr₃,hc₃,hf₃⟩ := ih hc₂ hs₂ hgenesis₂ ht
          exact ⟨s₃,hr₃,hc₃,(hf₃.trans hf₂).trans hf₁⟩

/-- What a header or a block brings into the tree: at most the entry `e`, behind its parent, and
its data. -/
structure Enters (t t' : BlockTree) (e : S.Entry) : Prop where
  index : ∀ i ∈ t'.mapBlockIndex, i ∈ t.mapBlockIndex ∨ i = e.1
  parent : e.1 ∈ t'.mapBlockIndex → ∀ p : S.Entry, e.pprev = some p → p.1 ∈ t.mapBlockIndex
  chain : t'.chainActive = t.chainActive
  undo : ∀ d, t.haveUndo (.genesis d) = false → t'.haveUndo (.genesis d) = false
  data : ∀ i ∈ t'.mapBlockIndex, t'.haveData i = true →
    Present t i ∨ (i = e.1 ∧ e.1 ∈ t'.mapBlockIndex)

omit [DecidablePred S.known] in
theorem Enters.refl {t : BlockTree} (h : Indexed net t) (e : S.Entry) : Enters t t e where
  index _ hi := .inl hi
  parent he p hp := h.closed e.1 he p.1 (CBlockIndex.pprev_mem_ancestors (Entry.pprev_val hp))
  chain := rfl
  undo _ hd := hd
  data _ hi hd := .inl ⟨hi,hd⟩

omit [DecidablePred S.known] in
theorem Coupled.index {n : S.FullNode} (h : Coupled n) {t : BlockTree} {e : S.Entry}
    (henters : Enters n.tree t e)
    (hcheck : t.haveData e.1 = true → env.checkBlock (S.block e.1) true true = .ok ()) :
    ∃ chain, n.index t e = .ok ⟨t,chain⟩ ∧ Coupled ⟨t,chain⟩ := by
  have hchecked : ∀ i ∈ t.mapBlockIndex, t.haveData i = true →
      env.checkBlock (S.block i) true true = .ok () := by
    intro i hi hd
    rcases henters.data i hi hd with hold | ⟨rfl,-⟩
    · exact h.checked i hold.1 hold.2
    · exact hcheck hd
  have htip : ∃ e : S.Entry, t.chainActive = .pathTo e.1 ∧ n.chain.chainActive = some e := by
    rw [henters.chain]
    exact h.tip
  have hundo : ∀ d, t.haveUndo (.genesis d) = false := fun d => henters.undo d (h.genesis d)
  unfold FullNode.index
  split
  · rename_i hmem
    rw [List.contains_iff_mem] at hmem
    obtain ⟨s',hs',hlist,hlists,hactive,hnew⟩ := addToBlockIndex_ok (s := n.chain) (e := e)
      fun p hp => h.lists p.1 (henters.parent hmem p hp)
    refine ⟨s',by rw [hs']; rfl,h.inv.addToBlockIndex hs',hnew.trans h.idle,?_,?_,hchecked,hundo⟩
    · simpa only [hactive] using htip
    · intro i hi
      rcases henters.index i hi with hold | rfl
      · exact hlists i (h.lists i hold)
      · exact hlist
  · rename_i hmem
    refine ⟨n.chain,rfl,h.inv,h.idle,htip,?_,hchecked,hundo⟩
    intro i hi
    rcases henters.index i hi with hold | rfl
    · exact h.lists i hold
    · exact absurd (List.contains_iff_mem.mpr hi) hmem

/-- The cross reference leads to entries of the tree. -/
def Crossed (t : BlockTree) : Prop :=
  ∀ f h, t.mapBlockHashCrossReference f = some h →
    ∃ i ∈ t.mapBlockIndex, i.data.fakeBIhash = f ∧ i.data.hashBlock = h

/-- Between two deliveries no candidate outranks the tip. -/
structure Settled (net : TreeEnv) (n : S.FullNode) (tip : CBlockIndex) : Prop where
  coupled : Coupled n
  selected : Selected (S.judge net) n.tree tip
  crossed : Crossed n.tree

theorem Settled.getHash (hS : S.Indexes net) (e : S.Entry) :
    (S.judge net).net.getHash (S.block e.1).toCBlockHeader = e.hash := by
  have heq := S.hash_eq e.1 e.2
  rw [← hS.hashes,← hS.testNet] at heq
  exact heq

/-- A header of the store that is accepted has, or gets, its entry of the store. -/
theorem Settled.acceptBlockHeader (hS : S.Indexes net) {n : S.FullNode} {tip : CBlockIndex}
    (h : Settled net n tip) {e : S.Entry} {now : Int} {work : Uint32} {i : CBlockIndex}
    {t : BlockTree} (hacc : (S.judge net).acceptBlockHeader n.tree now work
      (S.block e.1).toCBlockHeader = .ok (i,t)) :
    i = e.1 ∧ i ∈ t.mapBlockIndex ∧ Enters n.tree t e ∧ Crossed t ∧
      ∀ j ∈ t.mapBlockIndex, t.haveData j = true → Present n.tree j := by
  have hindex := h.selected.ok.index
  have hhash := Settled.getHash hS e
  rcases acceptBlockHeader_cases hindex hacc with ⟨hknown,hmem,-,rfl⟩ |
    ⟨hnew,p,hfind,hp,-,hi,hfresh,x,rfl⟩
  · have hie : i = e.1 := S.hash_inj i e.1 (h.coupled.lists i hmem).1 e.2
      ((mem_of_node hknown).2.trans hhash)
    exact ⟨hie,hmem,.refl hindex e,h.crossed,fun j hj hd => ⟨hj,hd⟩⟩
  · obtain ⟨j,hj⟩ := e
    cases j with
    | genesis d =>
      refine absurd ?_ (hfresh _ hindex.genesis)
      rw [hhash]
      exact (S.genesis_hash _ hS.genesis).trans (S.genesis_hash d hj).symm
    | child d q =>
      have hpq : p = q := by
        obtain ⟨r,hr,-,hi⟩ := Consensus.findByFakeHash_eq_some.mp hfind
        obtain ⟨k,hk,hfake,hreal⟩ := h.crossed _ r hr
        obtain ⟨-,hphash⟩ := mem_of_node hi
        have hpk : p = k := S.hash_inj p k (h.coupled.lists p hp).1 (h.coupled.lists k hk).1
          (hphash.trans hreal.symm)
        refine hS.fakeHashes p q (h.coupled.lists p hp).1 (S.pprev d q hj) ?_
        rw [hpk,hfake]
        exact hS.prev d q hj
      obtain rfl := hpq
      obtain rfl : i = .child d p :=
        hi.trans (congrArg (fun data => CBlockIndex.child data p) (hS.data d p hj))
      have hcross := acceptBlockHeader_cross hindex hnew hacc
      have hmem : ∀ j ∈ n.tree.mapBlockIndex ++ [CBlockIndex.child d p],
          j ∈ n.tree.mapBlockIndex ∨ j = .child d p := fun j hj => by simpa using hj
      have hpresent : ∀ j ∈ n.tree.mapBlockIndex ++ [CBlockIndex.child d p],
          Function.update n.tree.haveData (.child d p) false j = true → Present n.tree j := by
        intro j hj hdata
        by_cases hjc : j = .child d p
        · rw [hjc,Function.update_self] at hdata
          contradiction
        · rw [Function.update_of_ne hjc] at hdata
          exact ⟨(hmem j hj).resolve_right hjc,hdata⟩
      refine ⟨rfl,by simp [BlockTree.addEntry],
        ⟨hmem,?_,rfl,?_,fun j hj hd => .inl (hpresent j hj hd)⟩,?_,hpresent⟩
      · intro _ r hr
        obtain rfl := Option.some.inj hr
        exact hp
      · intro d' hd'
        simpa [BlockTree.addEntry] using hd'
      · intro f r hr
        rw [hcross] at hr
        simp only [NodeState.setRealHash] at hr
        have hold : n.tree.mapBlockHashCrossReference f = some r →
            ∃ k ∈ n.tree.mapBlockIndex ++ [CBlockIndex.child d p],
              k.data.fakeBIhash = f ∧ k.data.hashBlock = r := by
          intro hf
          obtain ⟨k,hk,hlabels⟩ := h.crossed f r hf
          exact ⟨k,List.mem_append_left _ hk,hlabels⟩
        split at hr
        · exact hold hr
        · by_cases hf : f = (S.block (.child d p)).toCBlockHeader.calcSha256dHash
              (S.judge net).net.hashes
          · subst hf
            rw [Function.update_self] at hr
            refine ⟨.child d p,List.mem_append_right _ (List.mem_singleton.mpr rfl),?_,?_⟩
            · exact congrArg IndexData.fakeBIhash (hS.data d p hj).symm
            · exact hhash.symm.trans (Option.some.inj hr)
          · rw [Function.update_of_ne hf] at hr
            exact hold hr

omit [DecidablePred S.known] in
/-- The data of a block goes into its entry alone. -/
theorem Enters.receive {t₀ t : BlockTree} {e : S.Entry} {tip : CBlockIndex}
    (h : Enters t₀ t e) (hgath : Gathered net t tip) (hmem : e.1 ∈ t.mapBlockIndex)
    (hdata : t.haveData e.1 = false) (hfail : t.failed e.1 = false) (hcrossed : Crossed t)
    (nTx : Nat) : Enters t₀ (net.receivedBlockTransactions t e.1 nTx) e ∧
      Crossed (net.receivedBlockTransactions t e.1 nTx) := by
  have hparent : ∀ p, e.1.pprev = some p → t.failed p = true → t.haveData p = true →
      t.nChainTx p ≠ 0 := fun p hp =>
    hgath.linked p (hgath.ok.index.closed e.1 hmem p (CBlockIndex.pprev_mem_ancestors hp))
  obtain ⟨-,hrel,-⟩ := @receivedBlockTransactions_ok net t e.1 tip nTx hgath.ok hmem hdata hfail
    hparent
  obtain ⟨v,heq,-⟩ := @receiveData_eq t e.1 nTx hfail
    (hgath.ok.links.not_linked_of_missing hmem hdata)
  rw [heq] at hrel
  rw [hrel]
  refine ⟨⟨h.index,h.parent,h.chain,h.undo,?_⟩,hcrossed⟩
  intro i hi hd
  by_cases hie : i = e.1
  · exact .inr ⟨hie,hmem⟩
  · exact h.data i hi (by simpa only [Function.update_of_ne hie] using hd)

theorem Settled.acceptBlock (hS : S.Indexes net) {n : S.FullNode} {tip : CBlockIndex}
    (h : Settled net n tip) (e : S.Entry) (now : Int) (work : Uint32) (answer : BlockAnswer) :
    Enters n.tree ((S.judge net).acceptBlock n.tree now work (S.block e.1) answer).2 e ∧
      Crossed ((S.judge net).acceptBlock n.tree now work (S.block e.1) answer).2 := by
  unfold TreeEnv.acceptBlock
  cases hacc : (S.judge net).acceptBlockHeader n.tree now work (S.block e.1).toCBlockHeader with
  | error f => exact ⟨.refl h.selected.ok.index e,h.crossed⟩
  | ok r =>
    obtain ⟨i,t⟩ := r
    obtain ⟨rfl,hmem,henters,hcrossed,-⟩ := h.acceptBlockHeader hS hacc
    obtain ⟨-,-,hfail⟩ := acceptBlockHeader_kept h.selected.ok hacc
    obtain ⟨hgath,-⟩ := acceptBlockHeader_gathered h.selected.toGathered hacc
    simp only
    split
    · exact ⟨henters,hcrossed⟩
    · rename_i hdata
      split
      · split
        · exact ⟨⟨henters.index,henters.parent,henters.chain,henters.undo,henters.data⟩,hcrossed⟩
        · exact ⟨henters,hcrossed⟩
      · exact henters.receive hgath hmem (Bool.eq_false_iff.mpr hdata) hfail hcrossed _

/-- Every delivery is dealt with, and leaves the best candidate as the tip. -/
theorem Settled.deliver (hS : S.Indexes net) {n : S.FullNode} {tip : CBlockIndex}
    (h : Settled net n tip) (d : S.Delivery) :
    ∃ fuel n' tip', FullNode.deliver net needed fuel n d = .ok n' ∧ Settled net n' tip' ∧
      Anoncoin.Advanced n.tree n'.tree := by
  cases d with
  | header now work e =>
    cases hacc : (S.judge net).acceptBlockHeader n.tree now work (S.block e.1).toCBlockHeader with
    | error f =>
      refine ⟨0,n,tip,?_,h,.refl _⟩
      simp only [FullNode.deliver,hacc]
      rfl
    | ok r =>
      obtain ⟨i,t⟩ := r
      obtain ⟨rfl,hmem,henters,hcrossed,hpresent⟩ := h.acceptBlockHeader hS hacc
      obtain ⟨hgath,hcand⟩ := acceptBlockHeader_gathered h.selected.toGathered hacc
      have hadv := (acceptBlockHeader_kept h.selected.ok hacc).1.advanced
      have hcheck : t.haveData e.1 = true → env.checkBlock (S.block e.1) true true = .ok () := by
        intro hd
        obtain ⟨hold,hdata⟩ := hpresent e.1 hmem hd
        exact h.coupled.checked e.1 hold hdata
      obtain ⟨chain,hr,hc⟩ := h.coupled.index henters hcheck
      refine ⟨0,_,tip,?_,⟨hc,h.selected.of_candidates hgath hadv hcand,hcrossed⟩,hadv⟩
      simp only [FullNode.deliver,hacc]
      exact hr
  | block now work e answer =>
    cases hcheck : env.checkBlock (S.block e.1) true true with
    | error f =>
      refine ⟨0,n,tip,?_,h,.refl _⟩
      simp only [FullNode.deliver,hcheck]
      rfl
    | ok u =>
      obtain ⟨henters,hcrossed⟩ := h.acceptBlock hS e now work answer
      obtain ⟨hgath,hcand⟩ := acceptBlock_gathered h.selected.toGathered now work (S.block e.1) answer
      have hadv := (acceptBlock_kept h.selected.ok now work answer
        (h.selected.toGathered.parentLinks (S.block e.1).toCBlockHeader)).advanced
      obtain ⟨chain,hr,hc⟩ := h.coupled.index henters fun _ => hcheck
      cases hret : ((S.judge net).acceptBlock n.tree now work (S.block e.1) answer).1 with
      | false =>
        refine ⟨0,_,tip,?_,⟨hc,h.selected.of_candidates hgath hadv (hcand hret),hcrossed⟩,hadv⟩
        simp only [FullNode.deliver,hcheck,hr,hret,ok_bind,Bool.false_eq_true,if_false]
        rfl
      | true =>
        obtain ⟨fuel,t',tip',ht',hsel,hadv'⟩ := hgath.activate
        obtain ⟨chain',hr',hc',-⟩ := @Coupled.activateBestChain env S needed _ net fuel
          ⟨_,chain⟩ hc tip hgath.ok.searching hgath.genesis t' ht'
        refine ⟨fuel,_,tip',?_,⟨hc',hsel,?_⟩,hadv.trans hadv'⟩
        · simp only [FullNode.deliver,hcheck,hr,hret,ok_bind,if_true]
          exact hr'
        · have hlabels := activateBestChain_labels ht'
          simp only [BlockTree.labels,Prod.mk.injEq] at hlabels
          obtain ⟨hindex,hcross,-⟩ := hlabels
          intro f r hfr
          rw [hcross] at hfr
          simpa only [hindex] using hcrossed f r hfr

theorem activateBestChain_succ {fuel : Nat} {n n' : S.FullNode}
    (h : FullNode.activateBestChain net needed fuel n = .ok n') :
    FullNode.activateBestChain net needed (fuel+1) n = .ok n' := by
  induction fuel generalizing n with
  | zero => contradiction
  | succ fuel ih =>
    unfold FullNode.activateBestChain at h ⊢
    obtain ⟨⟨m,t⟩,hfind,h⟩ := bind_ok_iff.mp h
    simp only [hfind,ok_bind]
    cases m with
    | none => exact h
    | some mw =>
      simp only at h ⊢
      split at h
      · rename_i heq
        rw [if_pos heq]
        exact h
      · rename_i hne
        rw [if_neg hne]
        obtain ⟨n₁,hstep,h⟩ := bind_ok_iff.mp h
        simp only [hstep,ok_bind]
        split at h
        · rename_i heq
          rw [if_pos heq]
          exact h
        · rename_i hne
          rw [if_neg hne]
          exact ih h

/-- More fuel changes nothing. -/
theorem deliver_mono {fuel fuel' : Nat} (hle : fuel ≤ fuel') {n n' : S.FullNode} {d : S.Delivery}
    (h : FullNode.deliver net needed fuel n d = .ok n') :
    FullNode.deliver net needed fuel' n d = .ok n' := by
  cases d with
  | header now work e => exact h
  | block now work e answer =>
    simp only [FullNode.deliver] at h ⊢
    cases hcheck : env.checkBlock (S.block e.1) true true with
    | error f =>
      rw [hcheck] at h
      exact h
    | ok u =>
      rw [hcheck] at h
      simp only at h ⊢
      obtain ⟨n₁,hindex,h⟩ := bind_ok_iff.mp h
      simp only [hindex,ok_bind]
      split at h
      · rename_i hret
        rw [if_pos hret]
        induction hle with
        | refl => exact h
        | step _ ih => exact activateBestChain_succ ih
      · rename_i hret
        rw [if_neg hret]
        exact h

theorem receive_mono {fuel fuel' : Nat} (hle : fuel ≤ fuel') {n n' : S.FullNode}
    {deliveries : List S.Delivery}
    (h : deliveries.foldlM (FullNode.deliver net needed fuel) n = .ok n') :
    deliveries.foldlM (FullNode.deliver net needed fuel') n = .ok n' := by
  induction deliveries generalizing n with
  | nil => exact h
  | cons d rest ih =>
    rw [List.foldlM_cons] at h ⊢
    obtain ⟨n₁,hd,h⟩ := bind_ok_iff.mp h
    rw [deliver_mono hle hd,ok_bind]
    exact ih h

theorem Settled.receive (hS : S.Indexes net) {n : S.FullNode} {tip : CBlockIndex}
    (h : Settled net n tip) (deliveries : List S.Delivery) :
    ∃ fuel n' tip', deliveries.foldlM (FullNode.deliver net needed fuel) n = .ok n' ∧
      Settled net n' tip' ∧ Anoncoin.Advanced n.tree n'.tree := by
  induction deliveries generalizing n tip with
  | nil => exact ⟨0,n,tip,rfl,h,.refl _⟩
  | cons d rest ih =>
    obtain ⟨fuel₁,n₁,tip₁,hd,h₁,hadv₁⟩ := @Settled.deliver env S needed _ net hS n tip h d
    obtain ⟨fuel₂,n₂,tip₂,hrest,h₂,hadv₂⟩ := ih h₁
    refine ⟨max fuel₁ fuel₂,n₂,tip₂,?_,h₂,hadv₁.trans hadv₂⟩
    rw [List.foldlM_cons,deliver_mono (le_max_left _ _) hd,ok_bind]
    exact receive_mono (le_max_right _ _) hrest

/-- The start succeeds when `CheckBlock` has no objection to the genesis block. -/
theorem start_ok (hS : S.Indexes net)
    (hcheck : env.checkBlock (S.block net.genesis) true true = .ok ()) :
    ∃ n, start net hS.genesis = .ok n ∧ Settled net n net.genesis ∧ n.tree = net.initial := by
  obtain ⟨e,he⟩ : ∃ e : S.Entry, e = ⟨net.genesis,hS.genesis⟩ := ⟨_,rfl⟩
  have hp : e.pprev = none := by rw [he]; rfl
  have hval : e.1 = net.genesis := by rw [he]
  obtain ⟨s₀,hs₀⟩ : ∃ s₀, s₀ = S.initial.setRecord ⟨e,none⟩ := ⟨_,rfl⟩
  have hadd : S.initial.addToBlockIndex e = some s₀ := by
    unfold Chainstate.addToBlockIndex
    rw [hp,hs₀]
    rfl
  have hinv₀ := inv_initial.addToBlockIndex hadd
  have hactive₀ : (⟨e,none⟩ : S.BlockRecord).pindex.pprev = s₀.chainActive := by rw [hs₀]; exact hp
  have hidle₀ : s₀.pindexNew = none := by rw [hs₀]; rfl
  have hrecord₀ : s₀.mapBlockIndex e.hash = some ⟨e,none⟩ := by simp [hs₀,setRecord]
  obtain ⟨s₁,hs₁⟩ := hinv₀.connectTip_of_replay hidle₀ hactive₀
    (replay_genesis_ok hp (by rw [hval]; exact hcheck))
  have hinv₁ := hinv₀.connectTip hidle₀ hrecord₀ hs₁
  obtain ⟨undo,v,rfl⟩ := connectTip_shape hs₁
  obtain ⟨s₂,hs₂⟩ : ∃ s₂, Chainstate.updateTip { s₀.writeUndo ⟨e,none⟩ undo with
      pcoinsTip := v, pindexNew := some (some e) } = some s₂ := ⟨_,rfl⟩
  have hinv₂ := hinv₁.updateTip hs₂
  obtain rfl := Option.some.inj hs₂
  refine ⟨⟨net.initial,_⟩,?_,⟨⟨hinv₂,rfl,⟨e,?_,rfl⟩,?_,?_,fun _ => rfl⟩,initial_selected _,?_⟩,rfl⟩
  · unfold FullNode.start
    simp only [← he,hadd,hs₁,orThrow_some,ok_bind]
    rfl
  · rw [hval]
    rfl
  · intro i hi
    obtain rfl := @initial_mem net _ hi
    have hlists : s₀.Lists net.genesis := ⟨hS.genesis,by rw [← hval]; exact Option.isSome_of_eq_some hrecord₀⟩
    exact writeUndo_lists hlists ⟨e,none⟩ undo
  · intro i hi _
    obtain rfl := @initial_mem net _ hi
    exact hcheck
  · intro f r hr
    refine ⟨net.genesis,List.mem_singleton.mpr rfl,?_⟩
    have hcross : net.initial.mapBlockHashCrossReference =
      Function.update (fun _ => none) net.genesisData.fakeBIhash (some net.genesisData.hashBlock) := rfl
    simp only [hcross] at hr
    by_cases hf : f = net.genesisData.fakeBIhash
    · subst hf
      rw [Function.update_self] at hr
      exact ⟨rfl,Option.some.inj hr⟩
    · rw [Function.update_of_ne hf] at hr
      contradiction

end FullNode
end BlockStore

end Anoncoin
