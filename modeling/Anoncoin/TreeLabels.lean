import Anoncoin.BlockIdentity
import Anoncoin.CheckBlockIndex

/-!
What the block tree keeps of the hashes of its entries and of their transactions: either
hash tells the entries apart, the cross reference is about the entries, and `nChainTx`
counts the transactions up to an entry.
-/

set_option autoImplicit false

namespace Anoncoin
open CBlockIndex Lib

/-- The sha256d hash of an entry is that of its header, the cross reference leads from it to
the other hash, and `nChainTx` is the sum over the ancestors. -/
structure Labelled (env : TreeEnv) (t : BlockTree) : Prop where
  fakeHashes : ∀ i ∈ t.mapBlockIndex, ∀ j ∈ t.mapBlockIndex,
    i.data.fakeBIhash = j.data.fakeBIhash → i = j
  sha256d : ∀ i ∈ t.mapBlockIndex,
    i.getBlockHeader.calcSha256dHash env.net.hashes = i.data.fakeBIhash
  nonzero : ∀ i ∈ t.mapBlockIndex, i.data.fakeBIhash ≠ 0 ∧ i.data.hashBlock ≠ 0
  crossReference : ∀ f, t.mapBlockHashCrossReference f =
    (t.mapBlockIndex.find? fun i => i.data.fakeBIhash == f).map fun i => i.data.hashBlock
  chainTx : ∀ i ∈ t.mapBlockIndex, t.nChainTx i ≠ 0 →
    t.nChainTx i = (i.pprev.elim 0 t.nChainTx)+t.nTx i

namespace BlockTree

/-- The fields that the labels are about. -/
def labels (t : BlockTree) :
    List CBlockIndex × (Uint256 → Option Uint256) × (CBlockIndex → Nat) × (CBlockIndex → Nat) :=
  (t.mapBlockIndex,t.mapBlockHashCrossReference,t.nTx,t.nChainTx)

end BlockTree

theorem Labelled.of_eq {env : TreeEnv} {t t' : BlockTree} (h : Labelled env t)
    (heq : t'.labels = t.labels) : Labelled env t' := by
  simp only [BlockTree.labels,Prod.mk.injEq] at heq
  obtain ⟨hindex,hcross,htx,hchain⟩ := heq
  exact
    { fakeHashes := by simpa only [hindex] using h.fakeHashes
      sha256d := by simpa only [hindex] using h.sha256d
      nonzero := by simpa only [hindex] using h.nonzero
      crossReference := by simpa only [hindex,hcross] using h.crossReference
      chainTx := by simpa only [hindex,htx,hchain] using h.chainTx }

section Frame
variable {env : TreeEnv} {t t' : BlockTree} {i : CBlockIndex}
open BlockTree

theorem disconnectTip_labels (h : t.disconnectTip = some t') : t'.labels = t.labels := by
  unfold disconnectTip at h
  split at h
  · contradiction
  · split at h
    · obtain rfl := Option.some.inj h
      rfl
    · contradiction

theorem disconnectTo_labels {pindexFork : Option CBlockIndex}
    (h : disconnectTo pindexFork i t = some t') : t'.labels = t.labels := by
  induction i generalizing t with
  | genesis d =>
    unfold disconnectTo at h
    split at h
    · obtain rfl := Option.some.inj h
      rfl
    · exact disconnectTip_labels h
  | child d p ih =>
    unfold disconnectTo at h
    split at h
    · obtain rfl := Option.some.inj h
      rfl
    · obtain ⟨t₁,htip,hrest⟩ := Option.bind_eq_some_iff.mp h
      exact (ih hrest).trans (disconnectTip_labels htip)

theorem disconnectInvalid_labels (pindex i : CBlockIndex) (t : BlockTree) :
    (disconnectInvalid pindex i t).2.labels = t.labels := by
  induction i generalizing t with
  | genesis d =>
    unfold disconnectInvalid
    split
    · simp only
      split
      · rfl
      · rename_i hd
        have hlabels := disconnectTip_labels hd
        exact hlabels
    · rfl
  | child d p ih =>
    unfold disconnectInvalid
    split
    · simp only
      split
      · rfl
      · rename_i hd
        have hlabels := disconnectTip_labels hd
        exact (ih _).trans hlabels
    · rfl

theorem eraseFailed_labels (pindexTest i : CBlockIndex) (t : BlockTree) :
    (eraseFailed pindexTest i t).labels = t.labels := by
  induction i generalizing t with
  | genesis d =>
    unfold eraseFailed
    split <;> rfl
  | child d p ih =>
    unfold eraseFailed
    split
    · exact ih _
    · rfl

theorem connected_labels (t : BlockTree) (i : CBlockIndex) :
    (TreeEnv.connected t i).labels = t.labels := by
  unfold TreeEnv.connected
  split
  · rfl
  · unfold raiseValidity
    split <;> rfl

theorem connectTip_labels {b : Bool} (h : env.connectTip t i = some (b,t')) :
    t'.labels = t.labels := by
  unfold TreeEnv.connectTip at h
  split at h
  · split at h
    · obtain ⟨-,rfl⟩ := Prod.mk.inj (Option.some.inj h)
      exact connected_labels t i
    · obtain ⟨-,rfl⟩ := Prod.mk.inj (Option.some.inj h)
      rfl
  · contradiction

theorem pruneBlockIndexCandidates_labels (h : env.pruneBlockIndexCandidates t = some t') :
    t'.labels = t.labels := by
  unfold TreeEnv.pruneBlockIndexCandidates at h
  simp only at h
  split at h
  · contradiction
  · obtain rfl := Option.some.inj h
    rfl

theorem connectBlocks_labels {old back : Option CBlockIndex} {l : List CBlockIndex} {b : Bool}
    (h : env.connectBlocks old back l t = some (b,t')) : t'.labels = t.labels := by
  induction l generalizing t with
  | nil =>
    obtain ⟨-,rfl⟩ := Prod.mk.inj (Option.some.inj h)
    rfl
  | cons c rest ih =>
    unfold TreeEnv.connectBlocks at h
    cases htip : env.connectTip t c with
    | none =>
      rw [htip] at h
      contradiction
    | some r =>
      obtain ⟨ok,t₁⟩ := r
      have h₁ := connectTip_labels htip
      rw [htip] at h
      cases ok with
      | false =>
        obtain ⟨-,rfl⟩ := Prod.mk.inj (Option.some.inj h)
        cases back <;> exact h₁
      | true =>
        simp only at h
        cases hprune : env.pruneBlockIndexCandidates t₁ with
        | none =>
          rw [hprune] at h
          contradiction
        | some t₂ =>
          have h₂ := (pruneBlockIndexCandidates_labels hprune).trans h₁
          rw [hprune] at h
          simp only at h
          split at h
          · obtain ⟨-,rfl⟩ := Prod.mk.inj (Option.some.inj h)
            exact h₂
          · exact (ih h).trans h₂

theorem connectStretches_labels {old : Option CBlockIndex} {mw : CBlockIndex} {nHeight : Int}
    (h : env.connectStretches old mw nHeight t = some t') : t'.labels = t.labels := by
  induction nHeight, t using TreeEnv.connectStretches.induct env old mw with
  | case1 t =>
    rw [TreeEnv.connectStretches,if_pos rfl] at h
    obtain rfl := Option.some.inj h
    rfl
  | case2 nHeight t hne target connect hblocks =>
    rw [TreeEnv.connectStretches,if_neg hne] at h
    simp only [target,connect] at hblocks
    simp only [hblocks] at h
    contradiction
  | case3 nHeight t hne target connect t₁ hblocks =>
    rw [TreeEnv.connectStretches,if_neg hne] at h
    simp only [target,connect] at hblocks
    simp only [hblocks] at h
    obtain rfl := Option.some.inj h
    exact connectBlocks_labels hblocks
  | case4 nHeight t hne target connect t₁ hblocks ih =>
    rw [TreeEnv.connectStretches,if_neg hne] at h
    simp only [target,connect] at hblocks
    simp only [hblocks] at h
    exact (ih h).trans (connectBlocks_labels hblocks)

theorem activateBestChainStep_labels (h : env.activateBestChainStep t i = some t') :
    t'.labels = t.labels := by
  unfold TreeEnv.activateBestChainStep at h
  simp only at h
  split at h
  · contradiction
  · rename_i t₁ hdisconnect
    refine (connectStretches_labels h).trans ?_
    cases htip : t.chainActive.tip with
    | none =>
      rw [htip] at hdisconnect
      obtain rfl := Option.some.inj hdisconnect
      rfl
    | some tip =>
      rw [htip] at hdisconnect
      exact disconnectTo_labels hdisconnect

theorem findMostWorkChain_eq (env : TreeEnv) (t : BlockTree) : env.findMostWorkChain t =
    match env.lastOf t t.setBlockIndexCandidates with
    | none => some (none,t)
    | some pindexNew =>
        match findFailed t pindexNew with
        | none => none
        | some none => some (some pindexNew,t)
        | some (some pindexTest) => env.findMostWorkChain
            (eraseFailed pindexTest pindexNew (t.invalidChainFound pindexNew)) := by
  rw [TreeEnv.findMostWorkChain]
  split
  · rename_i hlast
    rw [hlast]
  · rename_i c hlast
    cases hfind : findFailed t c with
    | none => simp only [hlast,hfind]
    | some f =>
      cases f with
      | none => simp only [hlast,hfind]
      | some f => simp only [hlast,hfind]

theorem findMostWorkChain_labels {m : Option CBlockIndex}
    (h : env.findMostWorkChain t = some (m,t')) : t'.labels = t.labels := by
  induction t using TreeEnv.findMostWorkChain.induct env with
  | case1 t hlast =>
    rw [findMostWorkChain_eq,hlast] at h
    obtain ⟨-,rfl⟩ := Prod.mk.inj (Option.some.inj h)
    rfl
  | case2 t c hlast hfind =>
    rw [findMostWorkChain_eq,hlast] at h
    simp only [hfind] at h
    contradiction
  | case3 t c hlast hfind =>
    rw [findMostWorkChain_eq,hlast] at h
    simp only [hfind] at h
    obtain ⟨-,rfl⟩ := Prod.mk.inj (Option.some.inj h)
    rfl
  | case4 t c hlast f hfind ih =>
    rw [findMostWorkChain_eq,hlast] at h
    simp only [hfind] at h
    exact (ih h).trans (eraseFailed_labels f c _)

theorem activateBestChain_labels {fuel : Nat} (h : env.activateBestChain fuel t = some t') :
    t'.labels = t.labels := by
  induction fuel generalizing t with
  | zero => contradiction
  | succ fuel ih =>
    unfold TreeEnv.activateBestChain at h
    cases hfind : env.findMostWorkChain t with
    | none =>
      rw [hfind] at h
      contradiction
    | some r =>
      obtain ⟨m,t₁⟩ := r
      have h₁ := findMostWorkChain_labels hfind
      rw [hfind] at h
      cases m with
      | none =>
        obtain rfl := Option.some.inj h
        exact h₁
      | some mw =>
        simp only at h
        split at h
        · obtain rfl := Option.some.inj h
          exact h₁
        · cases hstep : env.activateBestChainStep t₁ mw with
          | none =>
            rw [hstep] at h
            contradiction
          | some t₂ =>
            have h₂ := (activateBestChainStep_labels hstep).trans h₁
            rw [hstep] at h
            simp only at h
            split at h
            · obtain rfl := Option.some.inj h
              exact h₂
            · exact (ih h).trans h₂

theorem invalidateBlock_labels (env : TreeEnv) (t : BlockTree) (i : CBlockIndex) :
    (env.invalidateBlock t i).2.labels = t.labels := by
  have hreadd : ∀ t : BlockTree, (env.readdCandidates t).labels = t.labels := by
    intro t
    obtain ⟨c,heq,-⟩ := foldl_insertCandidate t (t.mapBlockIndex.filter fun i =>
      t.isValid i .transactions && t.nChainTx i != 0 && !env.belowTip t i)
    unfold TreeEnv.readdCandidates
    rw [heq]
    rfl
  have hwalk : ∀ tip : Option CBlockIndex, ∀ t : BlockTree,
      (tip.elim (true,t) fun tip => disconnectInvalid i tip t).2.labels = t.labels := by
    intro tip t
    cases tip with
    | none => rfl
    | some tip => exact disconnectInvalid_labels i tip t
  unfold TreeEnv.invalidateBlock
  simp only
  have hw := hwalk ((t.setFailedValid i).eraseCandidate i).chainActive.tip
    ((t.setFailedValid i).eraseCandidate i)
  split
  · rename_i t₁ heq
    rw [heq] at hw
    exact hw
  · rename_i t₁ heq
    rw [heq] at hw
    exact (hreadd t₁).trans hw

end Frame

namespace Consensus

/-- The cross reference after a new header. -/
theorem acceptBlockHeader_crossReference {net : Consensus} {s s' : NodeState} {now : Int}
    {work : Uint32} {block : CBlockHeader} {pindex : CBlockIndex}
    (hnew : s.mapBlockIndex (net.getHash block) = none)
    (hacc : net.acceptBlockHeader s now work block = .ok (pindex,s')) :
    s'.mapBlockHashCrossReference = (s.setRealHash (block.calcSha256dHash net.hashes)
      (net.getHash block)).mapBlockHashCrossReference := by
  have hmeets : Meets AnyFailure (net.acceptBlockHeader s now work block) fun r =>
      r.2.mapBlockHashCrossReference = (s.setRealHash (block.calcSha256dHash net.hashes)
        (net.getHash block)).mapBlockHashCrossReference := by
    unfold acceptBlockHeader addToBlockIndex
    simp only [hnew]
    apply (meets_any _).bind
    intro _ _
    apply (meets_any _).bind
    intro _ _
    apply (meets_any _).bind
    intro _ _
    apply (meets_any _).bind
    intro _ _
    rfl
  exact hmeets.result hacc

end Consensus

/-- A header that is not known yet has hashes of its own. -/
def Identified (env : TreeEnv) (t : BlockTree) (block : CBlockHeader) : Prop :=
  t.node.mapBlockIndex (env.net.getHash block) = none →
    block.calcSha256dHash env.net.hashes ≠ 0 ∧ env.net.getHash block ≠ 0 ∧
      ∀ i ∈ t.mapBlockIndex, i.data.fakeBIhash ≠ block.calcSha256dHash env.net.hashes

/-- The calls that bring in headers bring in such headers. -/
def Identifying (env : TreeEnv) (t : BlockTree) : TreeEvent → Prop
  | .acceptBlockHeader _ _ block => Identified env t block
  | .acceptBlock _ _ block _ => Identified env t block.toCBlockHeader
  | .activateBestChain => True
  | .invalidateBlock _ => True

instance (env : TreeEnv) (t : BlockTree) (block : CBlockHeader) :
    Decidable (Identified env t block) :=
  inferInstanceAs (Decidable (t.node.mapBlockIndex (env.net.getHash block) = none →
    block.calcSha256dHash env.net.hashes ≠ 0 ∧ env.net.getHash block ≠ 0 ∧
      ∀ i ∈ t.mapBlockIndex, i.data.fakeBIhash ≠ block.calcSha256dHash env.net.hashes))

instance (env : TreeEnv) (t : BlockTree) (e : TreeEvent) : Decidable (Identifying env t e) :=
  match e with
  | .acceptBlockHeader _ _ block => inferInstanceAs (Decidable (Identified env t block))
  | .acceptBlock _ _ block _ => inferInstanceAs (Decidable (Identified env t block.toCBlockHeader))
  | .activateBestChain => inferInstanceAs (Decidable True)
  | .invalidateBlock _ => inferInstanceAs (Decidable True)

/-- The hashes of the genesis block. -/
structure GenesisLabelled (env : TreeEnv) : Prop where
  sha256d : env.genesis.getBlockHeader.calcSha256dHash env.net.hashes = env.genesisData.fakeBIhash
  nonzero : env.genesisData.fakeBIhash ≠ 0 ∧ env.genesisData.hashBlock ≠ 0

theorem initial_labelled {env : TreeEnv} (h : GenesisLabelled env) : Labelled env env.initial where
  fakeHashes := by
    intro i hi j hj _
    rw [initial_mem hi,initial_mem hj]
  sha256d := by
    intro i hi
    rw [initial_mem hi]
    exact h.sha256d
  nonzero := by
    intro i hi
    rw [initial_mem hi]
    exact h.nonzero
  crossReference := by
    intro f
    have hindex : env.initial.mapBlockIndex = [env.genesis] := rfl
    have hcross : env.initial.mapBlockHashCrossReference =
      Function.update (fun _ => none) env.genesisData.fakeBIhash (some env.genesisData.hashBlock) := rfl
    rw [hindex,hcross,List.find?_singleton]
    by_cases hf : f = env.genesisData.fakeBIhash
    · subst hf
      have hself : (env.genesis.data.fakeBIhash == env.genesisData.fakeBIhash) = true :=
        beq_self_eq_true _
      rw [hself,Function.update_self]
      rfl
    · have hne : (env.genesis.data.fakeBIhash == f) = false := beq_eq_false_iff_ne.mpr (Ne.symm hf)
      rw [hne,Function.update_of_ne hf]
      rfl
  chainTx := by
    intro i hi _
    rw [initial_mem hi]
    simp [TreeEnv.initial,TreeEnv.genesis,pprev]

section Calls
variable {env : TreeEnv} {t t' : BlockTree} {tip i : CBlockIndex}

theorem Labelled.findByFakeHash (h : Labelled env t) (hindex : Indexed env t) {f : Uint256}
    {p : CBlockIndex} (hp : t.node.findByFakeHash f = some p) : p.data.fakeBIhash = f := by
  obtain ⟨r,hr,-,hi⟩ := Consensus.findByFakeHash_eq_some.mp hp
  have hcross : t.mapBlockHashCrossReference f = some r := hr
  rw [h.crossReference,Option.map_eq_some_iff] at hcross
  obtain ⟨j,hj,rfl⟩ := hcross
  obtain ⟨hpm,hhash⟩ := mem_of_node hi
  rw [hindex.hashes p hpm j (List.mem_of_find?_eq_some hj) hhash]
  simpa using List.find?_some hj

/-- The cross reference gets the new entry, and nothing else. -/
theorem acceptBlockHeader_cross (hindex : Indexed env t) {now : Int} {work : Uint32}
    {block : CBlockHeader} (hnew : t.node.mapBlockIndex (env.net.getHash block) = none)
    (hacc : env.acceptBlockHeader t now work block = .ok (i,t')) :
    t'.mapBlockHashCrossReference = (t.node.setRealHash (block.calcSha256dHash env.net.hashes)
      (env.net.getHash block)).mapBlockHashCrossReference := by
  rcases acceptBlockHeader_cases hindex hacc with ⟨hknown,-⟩ | ⟨-,p,-,-,-,rfl,hfresh,-⟩
  · rw [hnew] at hknown
    contradiction
  · have hnot := @not_mem_of_fresh t p (env.net.indexData block) hfresh
    unfold TreeEnv.acceptBlockHeader at hacc
    obtain ⟨⟨j,s⟩,hnet,hrest⟩ := bind_ok_iff.mp hacc
    simp only at hrest
    split at hrest
    · rename_i hmem
      obtain ⟨rfl,-⟩ := Prod.mk.inj (Except.ok.inj hrest)
      exact absurd rfl (hnot _ hmem)
    · obtain ⟨-,rfl⟩ := Prod.mk.inj (Except.ok.inj hrest)
      exact Consensus.acceptBlockHeader_crossReference hnew hnet

theorem acceptBlockHeader_labelled (h : Labelled env t) (hindex : Indexed env t)
    {now : Int} {work : Uint32} {block : CBlockHeader} (hid : Identified env t block)
    (hacc : env.acceptBlockHeader t now work block = .ok (i,t')) : Labelled env t' := by
  rcases acceptBlockHeader_cases hindex hacc with ⟨-,-,-,rfl⟩ |
    ⟨hnew,p,hfind,hp,-,rfl,hfresh,x,rfl⟩
  · exact h
  · obtain ⟨hfake,hreal,hother⟩ := hid hnew
    have hcross := acceptBlockHeader_cross hindex hnew hacc
    have hnot := @not_mem_of_fresh t p (env.net.indexData block) hfresh
    have hlast : ∀ j ∈ t.mapBlockIndex ++ [CBlockIndex.child (env.net.indexData block) p],
        j ∈ t.mapBlockIndex ∨ j = .child (env.net.indexData block) p := by
      intro j hj
      simpa using hj
    have hnewFake : (CBlockIndex.child (env.net.indexData block) p).data.fakeBIhash =
      block.calcSha256dHash env.net.hashes := rfl
    have hnone : t.mapBlockHashCrossReference (block.calcSha256dHash env.net.hashes) = none := by
      rw [h.crossReference,Option.map_eq_none_iff,List.find?_eq_none]
      intro j hj
      simpa using hother j hj
    simp only [NodeState.setRealHash] at hcross
    have hnone' : t.node.mapBlockHashCrossReference (block.calcSha256dHash env.net.hashes) = none :=
      hnone
    rw [hnone',Option.isSome_none,if_neg Bool.false_ne_true] at hcross
    subst hcross
    exact
      { fakeHashes := by
          intro a ha b hb hab
          rcases hlast a ha with ha | rfl
          · rcases hlast b hb with hb | rfl
            · exact h.fakeHashes a ha b hb hab
            · exact absurd hab (hother a ha)
          · rcases hlast b hb with hb | rfl
            · exact absurd hab.symm (hother b hb)
            · rfl
        sha256d := by
          intro a ha
          rcases hlast a ha with ha | rfl
          · exact h.sha256d a ha
          · have hprev := h.findByFakeHash hindex hfind
            have hbytes : (CBlockIndex.child (env.net.indexData block) p).getBlockHeader.bytes =
                block.bytes := by
              unfold CBlockHeader.bytes CBlockIndex.getBlockHeader
              simp only [pprev,Option.map_some,Option.getD_some,hprev]
              rfl
            rw [hnewFake]
            unfold CBlockHeader.calcSha256dHash
            rw [hbytes]
        nonzero := by
          intro a ha
          rcases hlast a ha with ha | rfl
          · exact h.nonzero a ha
          · exact ⟨hfake,hreal⟩
        crossReference := by
          intro f
          change Function.update t.mapBlockHashCrossReference (block.calcSha256dHash env.net.hashes)
            (some (env.net.getHash block)) f = ((t.mapBlockIndex ++
              [CBlockIndex.child (env.net.indexData block) p]).find? fun i =>
                i.data.fakeBIhash == f).map fun i => i.data.hashBlock
          rw [List.find?_append,List.find?_singleton,hnewFake]
          by_cases hf : f = block.calcSha256dHash env.net.hashes
          · subst hf
            have hmiss := hnone
            rw [h.crossReference,Option.map_eq_none_iff] at hmiss
            rw [Function.update_self,hmiss,beq_self_eq_true]
            rfl
          · have hne : (block.calcSha256dHash env.net.hashes == f) = false :=
              beq_eq_false_iff_ne.mpr (Ne.symm hf)
            rw [Function.update_of_ne hf,hne,h.crossReference]
            simp
        chainTx := by
          intro a ha hl
          rcases hlast a ha with ha | rfl
          · have hkeep : ∀ j ∈ t.mapBlockIndex, Function.update t.nChainTx
                (.child (env.net.indexData block) p) 0 j = t.nChainTx j :=
              fun j hj => Function.update_of_ne (hnot j hj) _ _
            simp only [BlockTree.addEntry,hkeep a ha,Function.update_of_ne (hnot a ha)] at hl ⊢
            rw [h.chainTx a ha hl]
            cases hap : a.pprev with
            | none => rfl
            | some q =>
              simp only [Option.elim_some,
                hkeep q (hindex.closed a ha q (pprev_mem_ancestors hap))]
          · exact absurd (Function.update_self ..) hl }

theorem Labelled.linkNext {q : CBlockIndex} {queue : List CBlockIndex} (h : Labelled env t)
    (hlinks : Linking t (q :: queue)) : Labelled env (env.linkNext t q) := by
  obtain ⟨-,-,hzero,p,hp,-⟩ := hlinks.queued q (by simp)
  obtain ⟨c,heq,-⟩ := TreeEnv.linkNext_eq env t q
  rw [heq]
  have hparent : ∀ j ∈ t.mapBlockIndex, j = q ∨ t.nChainTx j ≠ 0 → ∀ r, j.pprev = some r → r ≠ q := by
    rintro j hj (rfl | hl) r hr rfl
    · have := nHeight_pprev hr
      omega
    · exact hlinks.ancestors j hj hl r (pprev_mem_ancestors hr) hzero
  refine { h with chainTx := ?_ }
  intro j hj hl
  have hlinked : j = q ∨ t.nChainTx j ≠ 0 := by
    by_cases hjq : j = q
    · exact .inl hjq
    · simp only [Function.update_of_ne hjq] at hl
      exact .inr hl
  have hsame : (j.pprev.elim 0 (Function.update t.nChainTx q ((q.pprev.elim 0 t.nChainTx)+t.nTx q))) =
      j.pprev.elim 0 t.nChainTx := by
    cases hr : j.pprev with
    | none => rfl
    | some r => exact Function.update_of_ne (hparent j hj hlinked r hr) _ _
  simp only
  rw [hsame]
  by_cases hjq : j = q
  · subst hjq
    exact Function.update_self ..
  · simp only [Function.update_of_ne hjq] at hl ⊢
    exact h.chainTx j hj hl

theorem receivedBlockTransactions_labelled (h : Labelled env t) (hok : TreeOk env t tip)
    (hi : i ∈ t.mapBlockIndex) (hdata : t.haveData i = false) (hfail : t.failed i = false)
    (nTx : Nat) : Labelled env (env.receivedBlockTransactions t i nTx) := by
  have hzero := hok.links.not_linked_of_missing hi hdata
  obtain ⟨p,hp,-⟩ := hok.index.exists_pprev hi fun he => hok.genesis_linked (he ▸ hzero)
  obtain ⟨v,heq,-⟩ := @receiveData_eq t i nTx hfail hzero
  have hindex := @Indexed.receiveData env t i nTx hok.index hfail hzero
  have hlabels : Labelled env (t.receiveData i nTx) := by
    rw [heq]
    refine { h with chainTx := ?_ }
    intro j hj hl
    have hji : j ≠ i := fun he => hl (he ▸ hzero)
    simp only [Function.update_of_ne hji]
    exact h.chainTx j hj hl
  have hchain : (t.receiveData i nTx).nChainTx = t.nChainTx := by rw [heq]
  unfold TreeEnv.receivedBlockTransactions
  simp only [hp,hchain]
  split
  · rename_i hlinked
    have hlinks := @Linking.receiveData_linked t i nTx hok.links p hi hp hdata hfail hlinked
    refine (@TreeEnv.linkQueue_invariant env (fun queue t' =>
      Labelled env t' ∧ Linking t' queue ∧ Indexed env t') ?_ _ _ ⟨hlabels,hlinks,hindex⟩).1
    rintro q queue t' ⟨hl,hk,hx⟩
    exact ⟨hl.linkNext hk,hk.linkNext hx,hx.relinked relinked_linkNext⟩
  · split
    · refine hlabels.of_eq ?_
      rw [heq]
      rfl
    · exact hlabels

theorem acceptBlock_labelled (h : Labelled env t) (hok : TreeOk env t tip) (now : Int)
    (work : Uint32) {block : CBlock} (answer : BlockAnswer)
    (hid : Identified env t block.toCBlockHeader) :
    Labelled env (env.acceptBlock t now work block answer).2 := by
  unfold TreeEnv.acceptBlock
  cases hacc : env.acceptBlockHeader t now work block.toCBlockHeader with
  | error e => exact h
  | ok r =>
    obtain ⟨i,t'⟩ := r
    have hl := acceptBlockHeader_labelled h hok.index hid hacc
    obtain ⟨hkept,hmem,hfail⟩ := acceptBlockHeader_kept hok hacc
    simp only
    split
    · exact hl
    · rename_i hdata
      split
      · split
        · exact hl.of_eq rfl
        · exact hl
      · exact receivedBlockTransactions_labelled hl hkept.ok hmem (Bool.eq_false_iff.mpr hdata) hfail _

/-- Every call that identifies its headers keeps the labels. -/
theorem Identifying.step {e : TreeEvent} (he : Identifying env t e) (h : Labelled env t)
    (hok : TreeOk env t tip) (hstep : env.Steps t e t') : Labelled env t' := by
  obtain ⟨fuel,hstep⟩ := hstep
  cases e with
  | acceptBlockHeader now work block =>
    simp only [TreeEnv.step] at hstep
    cases hacc : env.acceptBlockHeader t now work block with
    | error e =>
      rw [hacc] at hstep
      obtain rfl := Option.some.inj hstep
      exact h
    | ok r =>
      rw [hacc] at hstep
      obtain rfl := Option.some.inj hstep
      exact acceptBlockHeader_labelled h hok.index he hacc
  | acceptBlock now work block answer =>
    obtain rfl := Option.some.inj hstep
    exact acceptBlock_labelled h hok now work answer he
  | activateBestChain => exact h.of_eq (activateBestChain_labels hstep)
  | invalidateBlock i =>
    simp only [TreeEnv.step] at hstep
    split at hstep
    · obtain rfl := Option.some.inj hstep
      exact h.of_eq (invalidateBlock_labels env t i)
    · obtain rfl := Option.some.inj hstep
      exact h

/-- The calls that keep the tree in order and tell its headers apart. -/
def Proper (env : TreeEnv) (t : BlockTree) (e : TreeEvent) : Prop :=
  Orderly env t e ∧ Identifying env t e

instance (env : TreeEnv) (t : BlockTree) (e : TreeEvent) : Decidable (Proper env t e) :=
  inferInstanceAs (Decidable (Orderly env t e ∧ Identifying env t e))

/-- The tree after a run of such calls. -/
theorem labelled_of_run (hgenesis : GenesisLabelled env)
    (h : ReachableBy env.Steps (Proper env) env.initial t) :
    ∃ tip, InOrder env t tip ∧ Labelled env t := by
  refine ReachableBy.invariant (fun t => ∃ tip, InOrder env t tip ∧ Labelled env t) h
    ⟨env.genesis,initial_inOrder env,initial_labelled hgenesis⟩ ?_
  rintro s e s' ⟨tip,hs,hl⟩ ⟨horderly,hid⟩ hstep
  obtain ⟨tip',hs'⟩ := horderly.step hs hstep
  exact ⟨tip',hs',hid.step hl hs.ok hstep⟩

/-- A run with a bound on the fuel. -/
theorem proper_of_run {fuel : Nat} {events : List TreeEvent}
    (h : runAdmitted (env.step fuel) (Proper env) env.initial events = some t) :
    ReachableBy env.Steps (Proper env) env.initial t :=
  (ReachableBy.of_run .init h).mono fun _ _ _ hs => ⟨fuel,hs⟩

end Calls

end Anoncoin
