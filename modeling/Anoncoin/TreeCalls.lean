import Anoncoin.TreeInvariant

/-!
`AcceptBlockHeader`, `AcceptBlock` and `InvalidateBlock` keep the block tree in order.
-/

set_option autoImplicit false

namespace Anoncoin
open Lib CBlockIndex

namespace Consensus
variable {net : Consensus}

theorem acceptBlockHeader_unfailed {s s' : NodeState} {now : Int} {work : Uint32}
    {block : CBlockHeader} {i pindex : CBlockIndex}
    (hknown : s.mapBlockIndex (net.getHash block) = some i)
    (hacc : net.acceptBlockHeader s now work block = .ok (pindex,s')) :
    pindex = i ∧ s.failed i.data.hashBlock = false := by
  have hmeets : Meets AnyFailure (net.acceptBlockHeader s now work block) fun r =>
      r.1 = i ∧ s.failed i.data.hashBlock = false := by
    unfold acceptBlockHeader
    simp only [hknown]
    apply (Meets.ensure trivial).bind
    intro _ hf
    exact ⟨rfl,by simpa using hf⟩
  exact hmeets.result hacc

theorem meets_any {α : Type} (x : Validation α) : Meets AnyFailure x fun _ => True := by
  cases x <;> trivial

/-- Only the genesis block is entered without a parent. -/
theorem acceptBlockHeader_root {s s' : NodeState} {now : Int} {work : Uint32}
    {block : CBlockHeader} {pindex : CBlockIndex}
    (hnew : s.mapBlockIndex (net.getHash block) = none)
    (hacc : net.acceptBlockHeader s now work block = .ok (pindex,s'))
    (hroot : pindex.pprev = none) : net.getHash block = net.hashGenesisBlock := by
  have hlink : ∀ s', Meets AnyFailure
      (net.linkToPrev s' block.hashPrevBlock (net.indexData block)) fun i =>
        i.pprev = none → net.getHash block = net.hashGenesisBlock := by
    intro s'
    unfold linkToPrev
    split
    · apply (meets_any _).bind
      intro p _ hp
      simp [CBlockIndex.pprev] at hp
    · apply (Meets.ensure trivial).bind
      intro _ heq _
      exact beq_iff_eq.mp heq
  have hmeets : Meets AnyFailure (net.acceptBlockHeader s now work block) fun r =>
      r.1.pprev = none → net.getHash block = net.hashGenesisBlock := by
    unfold acceptBlockHeader addToBlockIndex
    simp only [hnew]
    apply (meets_any _).bind
    intro _ _
    apply (meets_any _).bind
    intro _ _
    apply (meets_any _).bind
    intro _ _
    apply (hlink _).bind
    intro i hi
    exact hi
  exact hmeets.result hacc hroot

/-- A new header is not entered on top of a block that has failed. -/
theorem acceptBlockHeader_prev {s s' : NodeState} {now : Int} {work : Uint32}
    {block : CBlockHeader} {pindex p : CBlockIndex}
    (hnew : s.mapBlockIndex (net.getHash block) = none)
    (hacc : net.acceptBlockHeader s now work block = .ok (pindex,s'))
    (hgen : net.getHash block ≠ net.hashGenesisBlock)
    (hprev : s.findByFakeHash block.hashPrevBlock = some p) :
    s.failed p.data.hashBlock = false := by
  have hget : Meets AnyFailure (net.getPrev s block) fun _ => s.failed p.data.hashBlock = false := by
    unfold getPrev
    rw [if_neg hgen,hprev]
    apply (Meets.orThrow (fun _ => trivial)).bind
    intro q hq
    obtain rfl := Option.some.inj hq
    apply (Meets.ensure trivial).bind
    intro _ hf
    show s.failed p.data.hashBlock = false
    simpa using hf
  have hmeets : Meets AnyFailure (net.acceptBlockHeader s now work block) fun _ =>
      s.failed p.data.hashBlock = false := by
    unfold acceptBlockHeader
    simp only [hnew]
    apply (meets_any _).bind
    intro _ _
    apply hget.bind
    intro _ hf
    exact (meets_any _).mono fun _ _ => hf
  exact hmeets.result hacc

end Consensus

section Header
variable {env : TreeEnv} {t t' : BlockTree} {tip : CBlockIndex}

theorem mem_of_node {hash : Uint256} {i : CBlockIndex} (h : t.node.mapBlockIndex hash = some i) :
    i ∈ t.mapBlockIndex ∧ i.data.hashBlock = hash :=
  ⟨List.mem_of_find?_eq_some h,by simpa using List.find?_some h⟩

theorem node_failed (h : Indexed env t) {i : CBlockIndex} (hi : i ∈ t.mapBlockIndex) :
    t.node.failed i.data.hashBlock = t.failed i := by
  cases hf : t.node.mapBlockIndex i.data.hashBlock with
  | none => exact absurd (by simp) (List.find?_eq_none.mp hf i hi)
  | some j =>
    obtain ⟨hj,hhash⟩ := mem_of_node hf
    obtain rfl := h.hashes j hj i hi hhash
    have hfind : t.mapBlockIndex.find? (fun k => k.data.hashBlock == j.data.hashBlock) =
        some j := hf
    simp only [BlockTree.node,hfind,Option.any_some]

/-- A header that is accepted was known before and has not failed, or is a new entry on
top of a known one. -/
theorem acceptBlockHeader_cases (h : Indexed env t) {now : Int} {work : Uint32}
    {block : CBlockHeader} {pindex : CBlockIndex}
    (hacc : env.acceptBlockHeader t now work block = .ok (pindex,t')) :
    (t.node.mapBlockIndex (env.net.getHash block) = some pindex ∧ pindex ∈ t.mapBlockIndex ∧
        t.failed pindex = false ∧ t' = t) ∨
      (t.node.mapBlockIndex (env.net.getHash block) = none ∧ ∃ p,
        t.node.findByFakeHash block.hashPrevBlock = some p ∧ p ∈ t.mapBlockIndex ∧
        t.failed p = false ∧ pindex = .child (env.net.indexData block) p ∧
        (∀ j ∈ t.mapBlockIndex, j.data.hashBlock ≠ env.net.getHash block) ∧
        ∃ x, t' = { t.addEntry pindex with mapBlockHashCrossReference := x }) := by
  unfold TreeEnv.acceptBlockHeader at hacc
  cases hnet : env.net.acceptBlockHeader t.node now work block with
  | error e =>
    rw [hnet] at hacc
    contradiction
  | ok r =>
    obtain ⟨i,s⟩ := r
    rw [hnet] at hacc
    simp only [ok_bind] at hacc
    cases hknown : t.node.mapBlockIndex (env.net.getHash block) with
    | some j =>
      obtain ⟨rfl,hf⟩ := Consensus.acceptBlockHeader_unfailed hknown hnet
      have hmem := (mem_of_node hknown).1
      rw [if_pos hmem] at hacc
      obtain ⟨rfl,rfl⟩ := Prod.mk.inj (Except.ok.inj hacc)
      exact .inl ⟨rfl,hmem,node_failed h hmem ▸ hf,rfl⟩
    | none =>
      have hfresh : ∀ j ∈ t.mapBlockIndex, j.data.hashBlock ≠ env.net.getHash block := by
        intro j hj he
        exact absurd (by simpa using he) (List.find?_eq_none.mp hknown j hj)
      obtain ⟨hadd,-⟩ := (Consensus.acceptBlockHeader_meets hknown).result hnet
      have hdata : i.data.hashBlock = env.net.getHash block := by
        rw [show i.data = env.net.indexData block from hadd.data]
        rfl
      have hnot : i ∉ t.mapBlockIndex := fun hm => hfresh i hm hdata
      rw [if_neg hnot] at hacc
      obtain ⟨rfl,rfl⟩ := Prod.mk.inj (Except.ok.inj hacc)
      have hgen : env.net.getHash block ≠ env.net.hashGenesisBlock := fun he =>
        hfresh env.genesis h.genesis (env.genesis_hash.trans he.symm)
      obtain ⟨p,hp⟩ : ∃ p, i.pprev = some p := by
        cases hp : i.pprev with
        | some p => exact ⟨p,rfl⟩
        | none => exact absurd (Consensus.acceptBlockHeader_root hknown hnet hp) hgen
      have hparent := hadd.parent
      rw [hp] at hparent
      obtain ⟨r,-,-,hidx⟩ := Consensus.findByFakeHash_eq_some.mp hparent
      have hpmem := (mem_of_node hidx).1
      have hpfail : t.failed p = false :=
        node_failed h hpmem ▸ Consensus.acceptBlockHeader_prev hknown hnet hgen hparent
      refine .inr ⟨rfl,p,hparent,hpmem,hpfail,?_,hfresh,_,rfl⟩
      have hd : i.data = env.net.indexData block := hadd.data
      cases i with
      | genesis d => simp [pprev] at hp
      | child d q =>
        obtain rfl := Option.some.inj hp
        exact congrArg (CBlockIndex.child · q) hd

end Header

section AddEntry
variable {env : TreeEnv} {t : BlockTree} {tip p : CBlockIndex} {d : IndexData}

theorem not_mem_of_fresh (hfresh : ∀ j ∈ t.mapBlockIndex, j.data.hashBlock ≠ d.hashBlock) :
    ∀ j ∈ t.mapBlockIndex, j ≠ .child d p :=
  fun j hj he => hfresh j hj (by rw [he]; rfl)

theorem Indexed.addEntry (h : Indexed env t) (hp : p ∈ t.mapBlockIndex)
    (hfresh : ∀ j ∈ t.mapBlockIndex, j.data.hashBlock ≠ d.hashBlock) :
    Indexed env (t.addEntry (.child d p)) := by
  have hne := @not_mem_of_fresh t p d hfresh
  have hanc : ∀ j ∈ t.mapBlockIndex, ∀ a ∈ j.ancestors, a ≠ .child d p :=
    fun j hj a ha => hne a (h.closed j hj a ha)
  have hmem : ∀ j, j ∈ (t.addEntry (.child d p)).mapBlockIndex ↔
      j ∈ t.mapBlockIndex ∨ j = .child d p := by
    intro j
    simp [BlockTree.addEntry]
  refine
    { nodup := ?_
      genesis := (hmem _).mpr (.inl h.genesis)
      root := ?_
      closed := ?_
      hashes := ?_
      skip := ?_
      tree := ?_
      transactions := ?_
      scripts := ?_
      marked := ?_ }
  · refine List.nodup_append.mpr ⟨h.nodup,List.nodup_singleton _,?_⟩
    intro a ha b hb
    rw [List.mem_singleton.mp hb]
    exact hne a ha
  · intro j hj
    rcases (hmem j).mp hj with hold | rfl
    · exact h.root j hold
    · exact List.mem_cons_of_mem _ (h.root p hp)
  · intro j hj a ha
    rcases (hmem j).mp hj with hold | rfl
    · exact (hmem a).mpr (.inl (h.closed j hold a ha))
    · rcases List.mem_cons.mp ha with rfl | hap
      · exact hj
      · exact (hmem a).mpr (.inl (h.closed p hp a hap))
  · intro i hi j hj hij
    rcases (hmem i).mp hi with hi | rfl
    · rcases (hmem j).mp hj with hj | rfl
      · exact h.hashes i hi j hj hij
      · exact absurd hij (hfresh i hi)
    · rcases (hmem j).mp hj with hj | rfl
      · exact absurd hij.symm (hfresh j hj)
      · rfl
  · have hold : ∀ j ∈ t.mapBlockIndex, ∀ a ∈ j.ancestors, ∀ q, a.pprev = some q →
        (t.addEntry (.child d p)).pskip a = q.ancestorAt (getSkipHeight a.nHeight) := by
      intro j hj a ha q hq
      exact (Function.update_of_ne (hanc j hj a ha) _ _).trans (h.skip j hj a ha q hq)
    intro j hj a ha q hq
    rcases (hmem j).mp hj with hjold | rfl
    · exact hold j hjold a ha q hq
    · rcases List.mem_cons.mp ha with rfl | hap
      · obtain rfl := Option.some.inj hq
        refine (Function.update_self ..).trans ?_
        have hlt := @getSkipHeight_lt (CBlockIndex.child d p).nHeight (Nat.succ_pos _)
        exact getAncestor_eq (h.skip p hp) (Nat.lt_succ_iff.mp hlt)
      · exact hold p hp a hap q hq
  · intro j hj
    rcases (hmem j).mp hj with hold | rfl
    · simp only [BlockTree.addEntry,Function.update_of_ne (hne j hold)]
      exact h.tree j hold
    · simp [BlockTree.addEntry,Validity.level]
  · intro j hj hdata
    rcases (hmem j).mp hj with hold | rfl
    · simp only [BlockTree.addEntry,Function.update_of_ne (hne j hold)] at hdata ⊢
      exact h.transactions j hold hdata
    · simp [BlockTree.addEntry] at hdata
  · intro j hj h4 a ha hap
    rcases (hmem j).mp hj with hold | rfl
    · simp only [BlockTree.addEntry,Function.update_of_ne (hne j hold)] at h4
      simp only [BlockTree.addEntry,Function.update_of_ne (hanc j hold a ha)]
      exact h.scripts j hold h4 a ha hap
    · simp [BlockTree.addEntry,Validity.level] at h4
  · intro j hj hf hclean
    rcases (hmem j).mp hj with hold | rfl
    · simp only [BlockTree.failed,BlockTree.addEntry,Function.update_of_ne (hne j hold)] at hf
      refine h.marked j hold hf fun a ha => ?_
      have := hclean a ha
      simpa only [BlockTree.addEntry,Function.update_of_ne (hanc j hold a ha)] using this
    · simp [BlockTree.failed,BlockTree.addEntry] at hf

theorem Linking.addEntry (h : Linking t []) (hindex : Indexed env t)
    (hfresh : ∀ j ∈ t.mapBlockIndex, j.data.hashBlock ≠ d.hashBlock) :
    Linking (t.addEntry (.child d p)) [] := by
  have hne := @not_mem_of_fresh t p d hfresh
  have hanc : ∀ j ∈ t.mapBlockIndex, ∀ a ∈ j.ancestors, a ≠ .child d p :=
    fun j hj a ha => hne a (hindex.closed j hj a ha)
  have hmem : ∀ j, j ∈ (t.addEntry (.child d p)).mapBlockIndex ↔
      j ∈ t.mapBlockIndex ∨ j = .child d p := by
    intro j
    simp [BlockTree.addEntry]
  have hchain : ∀ j ∈ t.mapBlockIndex, (t.addEntry (.child d p)).nChainTx j = t.nChainTx j :=
    fun j hj => Function.update_of_ne (hne j hj) _ _
  have hseq : ∀ j ∈ t.mapBlockIndex, (t.addEntry (.child d p)).nSequenceId j = t.nSequenceId j :=
    fun j hj => Function.update_of_ne (hne j hj) _ _
  have hdata : ∀ j ∈ t.mapBlockIndex, (t.addEntry (.child d p)).haveData j = t.haveData j :=
    fun j hj => Function.update_of_ne (hne j hj) _ _
  have hnew : (t.addEntry (.child d p)).nChainTx (.child d p) = 0 := Function.update_self ..
  have hnodata : (t.addEntry (.child d p)).haveData (.child d p) = false := Function.update_self ..
  have hlinked : ∀ j ∈ (t.addEntry (.child d p)).mapBlockIndex,
      (t.addEntry (.child d p)).nChainTx j ≠ 0 → j ∈ t.mapBlockIndex ∧ t.nChainTx j ≠ 0 := by
    intro j hj hl
    rcases (hmem j).mp hj with hold | rfl
    · exact ⟨hold,hchain j hold ▸ hl⟩
    · exact absurd hnew hl
  refine
    { allData := ?_
      ancestors := ?_
      complete := ?_
      sequence := ?_
      distinct := ?_
      candidates := ?_
      unlinked := ?_
      nodup := h.nodup
      pending := ?_
      queued := fun q hq => absurd hq List.not_mem_nil
      queue_nodup := List.nodup_nil
      queue_unlinked := fun q hq => absurd hq List.not_mem_nil }
  · intro j hj hl a ha
    obtain ⟨hold,hl⟩ := hlinked j hj hl
    exact (hdata a (hindex.closed j hold a ha)).trans (h.allData j hold hl a ha)
  · intro j hj hl a ha
    obtain ⟨hold,hl⟩ := hlinked j hj hl
    rw [hchain a (hindex.closed j hold a ha)]
    exact h.ancestors j hold hl a ha
  · intro j hj hall hz
    rcases (hmem j).mp hj with hold | rfl
    · refine h.complete j hold (fun a ha => ?_) (hchain j hold ▸ hz)
      exact (hdata a (hindex.closed j hold a ha)).symm.trans (hall a ha)
    · have := hall _ (self_mem_ancestors _)
      rw [hnodata] at this
      contradiction
  · intro j hj hl
    obtain ⟨hold,hl⟩ := hlinked j hj hl
    rw [hseq j hold]
    exact h.sequence j hold hl
  · intro i hi j hj hil hjl hnumber hij
    obtain ⟨hi,hil⟩ := hlinked i hi hil
    obtain ⟨hj,hjl⟩ := hlinked j hj hjl
    rw [hseq i hi] at hnumber
    rw [hseq i hi,hseq j hj] at hij
    exact h.distinct i hi j hj hil hjl hnumber hij
  · intro c hc
    obtain ⟨hcm,hcl⟩ := h.candidates c hc
    exact ⟨(hmem c).mpr (.inl hcm),by rw [hchain c hcm]; exact hcl⟩
  · intro q x hu
    obtain ⟨hx,hxp,hxd,hxz⟩ := h.unlinked q x hu
    exact ⟨(hmem x).mpr (.inl hx),hxp,(hdata x hx).trans hxd,(hchain x hx).trans hxz⟩
  · intro x hx q hxp hxd hxz
    rcases (hmem x).mp hx with hold | rfl
    · have hq := hindex.closed x hold q (pprev_mem_ancestors hxp)
      rw [hdata x hold] at hxd
      rw [hchain x hold] at hxz
      rcases h.pending x hold q hxp hxd hxz with hu | hqueue | ⟨hf,hd⟩
      · exact .inl hu
      · exact .inr (.inl hqueue)
      · refine .inr (.inr ⟨?_,(hdata q hq).trans hd⟩)
        simpa only [BlockTree.failed,BlockTree.addEntry,Function.update_of_ne (hne q hq)] using hf
    · rw [hnodata] at hxd
      contradiction

/-- A new header changes nothing for the blocks that are there. -/
theorem TreeOk.addEntry (h : TreeOk env t tip) (hp : p ∈ t.mapBlockIndex)
    (hfresh : ∀ j ∈ t.mapBlockIndex, j.data.hashBlock ≠ d.hashBlock)
    (x : Uint256 → Option Uint256) :
    TreeOk env { t.addEntry (.child d p) with mapBlockHashCrossReference := x } tip ∧
      Advanced t { t.addEntry (.child d p) with mapBlockHashCrossReference := x } ∧
      (SoundFrom env t tip →
        SoundFrom env { t.addEntry (.child d p) with mapBlockHashCrossReference := x } tip) := by
  have hne := @not_mem_of_fresh t p d hfresh
  have hanc : ∀ j ∈ t.mapBlockIndex, ∀ a ∈ j.ancestors, a ≠ .child d p :=
    fun j hj a ha => hne a (h.index.closed j hj a ha)
  have hmem : ∀ j, j ∈ t.mapBlockIndex ++ [CBlockIndex.child d p] ↔
      j ∈ t.mapBlockIndex ∨ j = .child d p := by
    intro j
    simp
  have hrank : ∀ j ∈ t.mapBlockIndex,
      env.rank { t.addEntry (.child d p) with mapBlockHashCrossReference := x } j =
        env.rank t j := by
    intro j hj
    simp only [TreeEnv.rank,BlockTree.addEntry,Function.update_of_ne (hne j hj)]
  have hlinked : ∀ j ∈ t.mapBlockIndex ++ [CBlockIndex.child d p],
      Function.update t.nChainTx (.child d p) 0 j ≠ 0 → j ∈ t.mapBlockIndex ∧ t.nChainTx j ≠ 0 := by
    intro j hj hl
    rcases (hmem j).mp hj with hold | rfl
    · rw [Function.update_of_ne (hne j hold)] at hl
      exact ⟨hold,hl⟩
    · exact absurd (Function.update_self ..) hl
  have htip := h.active.mem
  refine ⟨⟨{ h.index.addEntry hp hfresh with },{ h.links.addEntry h.index hfresh with },?_,?_⟩,
    ?_,?_⟩
  · have hold : ∀ a ∈ tip.ancestors, a ≠ .child d p := hanc tip htip
    exact
      { chain := h.active.chain
        mem := (hmem tip).mpr (.inl htip)
        linked := by
          simp only [BlockTree.addEntry,Function.update_of_ne (hne tip htip)]
          exact h.active.linked
        undo := fun a ha hap => by
          simp only [BlockTree.addEntry,Function.update_of_ne (hold a ha)]
          exact h.active.undo a ha hap
        scripts := fun a ha hap => by
          simp only [BlockTree.addEntry,Function.update_of_ne (hold a ha)]
          exact h.active.scripts a ha hap
        unfailed := fun a ha hap => by
          simp only [BlockTree.failed,BlockTree.addEntry,Function.update_of_ne (hold a ha)]
          exact h.active.unfailed a ha hap
        connects := h.active.connects
        genesis := by
          simp only [BlockTree.addEntry,Function.update_of_ne (hne _ h.index.genesis)]
          exact h.active.genesis }
  · intro j hj hl hclean hr
    obtain ⟨hjm,hjl⟩ := hlinked j hj hl
    rw [hrank tip htip,hrank j hjm] at hr
    refine h.complete j hjm hjl (fun a ha => ?_) hr
    have := hclean a ha
    simpa only [BlockTree.addEntry,Function.update_of_ne (hanc j hjm a ha)] using this
  · exact
      { index := fun j hj => (hmem j).mpr (.inl hj)
        counter := le_refl _
        kept := fun j hj hl => by
          simp only [BlockTree.addEntry,Function.update_of_ne (hne j hj)]
          exact ⟨hl,trivial⟩
        later := fun j hj hl hz => by
          obtain ⟨hjm,hjl⟩ := hlinked j hj hl
          exact absurd (hz hjm) hjl }
  · intro hs c hc
    rw [hrank tip htip,hrank c (h.links.candidates c hc).1]
    exact hs c hc

end AddEntry

section Marks
variable {env : TreeEnv} {t : BlockTree} {tip i : CBlockIndex} {v c : CBlockIndex → Bool}

/-- Marks of failure, each with a block that was found invalid below it. -/
theorem Indexed.withMarks (h : Indexed env t)
    (hmarked : ∀ j ∈ t.mapBlockIndex, (v j || c j) = true → ∃ a ∈ j.ancestors, v a = true) :
    Indexed env { t with failedValid := v, failedChild := c } :=
  { h with
    marked := by
      intro j hj hf hclean
      obtain ⟨a,ha,hva⟩ := hmarked j hj hf
      have hfalse : v a = false := hclean a ha
      rw [hva] at hfalse
      contradiction }

theorem Indexed.exists_invalid (h : Indexed env t) {j : CBlockIndex} (hj : j ∈ t.mapBlockIndex)
    (hf : t.failed j = true) : ∃ a ∈ j.ancestors, t.failedValid a = true := by
  by_contra hnone
  refine h.marked j hj hf fun a ha => Bool.eq_false_iff.mpr fun hva => hnone ⟨a,ha,hva⟩

theorem CompleteFrom.withMarks {r : CBlockIndex} (h : CompleteFrom env t r)
    (hmono : ∀ a, t.failedValid a = true → v a = true) :
    CompleteFrom env { t with failedValid := v, failedChild := c } r := by
  intro j hj hl hclean hr
  refine h j hj hl (fun a ha => Bool.eq_false_iff.mpr fun hva => ?_) hr
  have hfalse : v a = false := hclean a ha
  rw [hmono a hva] at hfalse
  contradiction

theorem setFailedValid_mono {j : CBlockIndex} (h : t.failedValid j = true) :
    Function.update t.failedValid i true j = true := by
  by_cases hji : j = i
  · rw [hji,Function.update_self]
  · rw [Function.update_of_ne hji]
    exact h

/-- The marks once a block was found invalid. -/
theorem setFailedValid_marked (h : Indexed env t) :
    ∀ j ∈ t.mapBlockIndex, (Function.update t.failedValid i true j || t.failedChild j) = true →
      ∃ a ∈ j.ancestors, Function.update t.failedValid i true a = true := by
  intro j hj hf
  by_cases hji : j = i
  · exact ⟨j,self_mem_ancestors j,by rw [hji,Function.update_self]⟩
  · rw [Function.update_of_ne hji] at hf
    obtain ⟨a,ha,hva⟩ := h.exists_invalid hj hf
    exact ⟨a,ha,setFailedValid_mono hva⟩

theorem failed_setFailedValid_mono {j : CBlockIndex} (h : t.failed j = true) :
    (Function.update t.failedValid i true j || t.failedChild j) = true := by
  unfold BlockTree.failed at h
  rcases Bool.or_eq_true_iff.mp h with hv | hc
  · rw [setFailedValid_mono hv,Bool.true_or]
  · rw [hc,Bool.or_true]

theorem Indexed.setFailedValid (h : Indexed env t) (i : CBlockIndex) :
    Indexed env (t.setFailedValid i) := h.withMarks (setFailedValid_marked h)

theorem Linking.setFailedValid {queue : List CBlockIndex} (h : Linking t queue) (i : CBlockIndex) :
    Linking (t.setFailedValid i) queue := h.withMarks fun _ hf => failed_setFailedValid_mono hf

/-- A block off the active chain is found invalid. -/
theorem TreeOk.setFailedValid (h : TreeOk env t tip) (hi : i ∉ tip.ancestors) :
    TreeOk env (t.setFailedValid i) tip where
  index := h.index.setFailedValid i
  links := h.links.setFailedValid i
  active :=
    { h.active with
      unfailed := by
        intro a ha hap
        have hai : a ≠ i := fun he => hi (he ▸ ha)
        simp only [BlockTree.failed,BlockTree.setFailedValid,Function.update_of_ne hai]
        exact h.active.unfailed a ha hap }
  complete := h.complete.withMarks fun _ ha => setFailedValid_mono ha

end Marks

section Accept
variable {env : TreeEnv} {t : BlockTree} {tip : CBlockIndex}

/-- What a call that leaves the tip alone keeps. -/
structure Kept (env : TreeEnv) (tip : CBlockIndex) (t t' : BlockTree) : Prop where
  ok : TreeOk env t' tip
  advanced : Advanced t t'
  sound : SoundFrom env t tip → SoundFrom env t' tip

theorem Kept.trans {t₀ t₁ t₂ : BlockTree} (h₁ : Kept env tip t₀ t₁) (h₂ : Kept env tip t₁ t₂) :
    Kept env tip t₀ t₂ where
  ok := h₂.ok
  advanced := h₁.advanced.trans h₂.advanced
  sound hs := h₂.sound (h₁.sound hs)

theorem TreeOk.kept (h : TreeOk env t tip) : Kept env tip t t := ⟨h,Advanced.refl t,id⟩

theorem acceptBlockHeader_kept (h : TreeOk env t tip) {now : Int} {work : Uint32}
    {block : CBlockHeader} {pindex : CBlockIndex} {t' : BlockTree}
    (hacc : env.acceptBlockHeader t now work block = .ok (pindex,t')) :
    Kept env tip t t' ∧ pindex ∈ t'.mapBlockIndex ∧ t'.failed pindex = false := by
  rcases acceptBlockHeader_cases h.index hacc with ⟨-,hmem,hf,rfl⟩ |
      ⟨-,p,-,hp,-,rfl,hfresh,x,rfl⟩
  · exact ⟨h.kept,hmem,hf⟩
  · obtain ⟨hok,hadv,hsound⟩ := @TreeOk.addEntry env t tip p (env.net.indexData block) h hp hfresh x
    refine ⟨⟨hok,hadv,hsound⟩,?_,?_⟩
    · simp [BlockTree.addEntry]
    · simp [BlockTree.failed,BlockTree.addEntry]

/-- The entry that the header of the block has already does not sit on a block that
failed with its data but without that of its ancestors. -/
def ParentLinks (env : TreeEnv) (t : BlockTree) (block : CBlockHeader) : Prop :=
  ∀ i, t.node.mapBlockIndex (env.net.getHash block) = some i → ∀ p, i.pprev = some p →
    t.failed p = true → t.haveData p = true → t.nChainTx p ≠ 0

theorem acceptBlock_kept (h : TreeOk env t tip) (now : Int) (work : Uint32) {block : CBlock}
    (answer : BlockAnswer) (hparent : ParentLinks env t block.toCBlockHeader) :
    Kept env tip t (env.acceptBlock t now work block answer).2 := by
  unfold TreeEnv.acceptBlock
  cases hacc : env.acceptBlockHeader t now work block.toCBlockHeader with
  | error e => exact h.kept
  | ok r =>
    obtain ⟨i,t'⟩ := r
    obtain ⟨hkept,hmem,hfail⟩ := acceptBlockHeader_kept h hacc
    simp only
    split
    · exact hkept
    · rename_i hdata
      have hnodata : t'.haveData i = false := Bool.eq_false_iff.mpr hdata
      have hzero := hkept.ok.links.not_linked_of_missing hmem hnodata
      have hoff : i ∉ tip.ancestors := fun hi =>
        hkept.ok.links.ancestors tip hkept.ok.active.mem hkept.ok.active.linked i hi hzero
      split
      · split
        · exact hkept.trans ⟨hkept.ok.setFailedValid hoff,Advanced.of_eq rfl rfl rfl rfl,id⟩
        · exact hkept
      · have hlinks : ∀ p, i.pprev = some p → t'.failed p = true → t'.haveData p = true →
            t'.nChainTx p ≠ 0 := by
          intro p hp hpf hpd
          rcases acceptBlockHeader_cases h.index hacc with ⟨hknown,-,-,rfl⟩ |
              ⟨-,q,-,hq,hqf,rfl,hfresh,x,rfl⟩
          · exact hparent i hknown p hp hpf hpd
          · obtain rfl := Option.some.inj hp
            have hne := @not_mem_of_fresh t q (env.net.indexData block.toCBlockHeader) hfresh q hq
            simp only [BlockTree.failed,BlockTree.addEntry,Function.update_of_ne hne] at hpf
            exact absurd hpf (Bool.eq_false_iff.mp hqf)
        obtain ⟨hok,-,hadv,hsound⟩ := @receivedBlockTransactions_ok env t' i tip block.vtx.length
          hkept.ok hmem hnodata hfail hlinks
        exact hkept.trans ⟨hok,hadv,hsound⟩

end Accept

section Disconnect
variable {env : TreeEnv} {t : BlockTree} {tip i : CBlockIndex}

theorem disconnectTip_child {d : IndexData} {p : CBlockIndex}
    (hchain : t.chainActive = .pathTo (.child d p)) (hundo : t.haveUndo (.child d p) = true) :
    t.disconnectTip = some { t with chainActive := .pathTo p } := by
  unfold BlockTree.disconnectTip
  rw [hchain,CChain.pathTo_tip]
  simp only [hundo,if_true,pprev,CChain.setTip_pathTo]

theorem disconnectTip_noUndo (hchain : t.chainActive = .pathTo tip)
    (hundo : t.haveUndo tip = false) : t.disconnectTip = none := by
  unfold BlockTree.disconnectTip
  rw [hchain,CChain.pathTo_tip]
  simp only [hundo]
  rfl

theorem disconnectInvalid_off (hchain : t.chainActive = .pathTo tip) (hi : i ∉ tip.ancestors) :
    BlockTree.disconnectInvalid i tip t = (true,t) := by
  have hc : t.chainActive.contains i = false := by
    rw [hchain]
    exact Bool.eq_false_iff.mpr fun h => hi ((CChain.pathTo_contains _ _).mp h)
  cases tip <;> simp [BlockTree.disconnectInvalid,hc]

theorem setFailedChild_mono (b : CBlockIndex) {j : CBlockIndex} (h : t.failedChild j = true) :
    Function.update t.failedChild b true j = true := by
  by_cases hjb : j = b
  · rw [hjb,Function.update_self]
  · rw [Function.update_of_ne hjb]
    exact h

theorem setFailedChild_cases {b j : CBlockIndex} (hb : i ∈ b.ancestors)
    (h : Function.update t.failedChild b true j = true) :
    t.failedChild j = true ∨ i ∈ j.ancestors := by
  by_cases hjb : j = b
  · exact .inr (hjb ▸ hb)
  · rw [Function.update_of_ne hjb] at h
    exact .inl h

/-- A block of the active chain that is found invalid leaves it with everything above it,
except that genesis stays for want of undo data. -/
theorem disconnectInvalid_on (hchain : t.chainActive = .pathTo tip) (hi : i ∈ tip.ancestors)
    (hundo : ∀ a ∈ tip.ancestors, a.pprev ≠ none → t.haveUndo a = true)
    (hroot : ∀ a ∈ tip.ancestors, a.pprev = none → t.haveUndo a = false) :
    ∃ ok c l tip', BlockTree.disconnectInvalid i tip t =
        (ok,{ t with failedChild := c, setBlockIndexCandidates := l,
                     chainActive := .pathTo tip' }) ∧
      (∀ j, t.failedChild j = true → c j = true) ∧
      (∀ j, c j = true → t.failedChild j = true ∨ i ∈ j.ancestors) ∧
      (∀ x ∈ l, x ∈ t.setBlockIndexCandidates) ∧
      ((ok = true ∧ i.pprev = some tip') ∨ (ok = false ∧ i.pprev = none ∧ tip' = i)) := by
  induction tip generalizing t with
  | genesis d =>
    have hcontains : t.chainActive.contains i = true := by
      rw [hchain]
      exact (CChain.pathTo_contains _ _).mpr hi
    obtain rfl := List.mem_singleton.mp hi
    have hnone : ((t.setFailedChild (.genesis d)).eraseCandidate (.genesis d)).disconnectTip =
        none := disconnectTip_noUndo hchain (hroot (.genesis d) (by simp) rfl)
    unfold BlockTree.disconnectInvalid
    simp only [hcontains,if_true,hnone]
    refine ⟨false,Function.update t.failedChild (.genesis d) true,
      (t.eraseCandidate (.genesis d)).setBlockIndexCandidates,.genesis d,
      congrArg (Prod.mk false) ?_,fun j hj => setFailedChild_mono _ hj,
      fun j hj => setFailedChild_cases (self_mem_ancestors _) hj,
      fun x hx => List.mem_of_mem_filter hx,
      .inr ⟨rfl,rfl,rfl⟩⟩
    rw [← hchain]
    rfl
  | child d p ih =>
    have hcontains : t.chainActive.contains i = true := by
      rw [hchain]
      exact (CChain.pathTo_contains _ _).mpr hi
    have hsome := @disconnectTip_child
      ((t.setFailedChild (.child d p)).eraseCandidate (.child d p)) d p hchain
      (hundo (.child d p) (self_mem_ancestors _) (Option.some_ne_none p))
    unfold BlockTree.disconnectInvalid
    simp only [hcontains,if_true,hsome]
    by_cases hip : i ∈ p.ancestors
    · obtain ⟨ok,c,l,tip',heq,hc,hci,hl,hend⟩ := @ih
        { (t.setFailedChild (.child d p)).eraseCandidate (.child d p) with
          chainActive := .pathTo p } rfl hip
        (fun a ha => hundo a (List.mem_cons_of_mem _ ha))
        (fun a ha => hroot a (List.mem_cons_of_mem _ ha))
      refine ⟨ok,c,l,tip',heq,fun j hj => hc j (setFailedChild_mono _ hj),?_,
        fun x hx => List.mem_of_mem_filter (hl x hx),hend⟩
      intro j hj
      rcases hci j hj with hold | hij
      · exact setFailedChild_cases hi hold
      · exact .inr hij
    · obtain rfl := (List.mem_cons.mp hi).resolve_right hip
      exact ⟨true,_,_,p,disconnectInvalid_off rfl hip,fun j hj => setFailedChild_mono _ hj,
        fun j hj => setFailedChild_cases (self_mem_ancestors _) hj,
      fun x hx => List.mem_of_mem_filter hx,
        .inl ⟨rfl,rfl⟩⟩

/-- Work grows along every chain of the index. -/
def Increasing (t : BlockTree) : Prop :=
  ∀ j ∈ t.mapBlockIndex, ∀ p, j.pprev = some p → p.nChainWork < j.nChainWork

theorem Increasing.rank_le (h : Increasing t) (hindex : Indexed env t) {a j : CBlockIndex}
    (hj : j ∈ t.mapBlockIndex) (ha : a ∈ j.ancestors) : env.rank t a ≤ env.rank t j := by
  have hkept : a ∈ t.mapBlockIndex ∧ env.rank t a ≤ env.rank t j := by
    refine of_mem_ancestors (P := fun x => x ∈ t.mapBlockIndex ∧ env.rank t x ≤ env.rank t j)
      (fun x p hx hp => ?_) ⟨hj,le_refl _⟩ ha
    obtain ⟨hmem,hle⟩ := hx
    refine ⟨hindex.closed x hmem p (pprev_mem_ancestors hp),le_trans (le_of_lt ?_) hle⟩
    exact Prod.Lex.toLex_lt_toLex.mpr (.inl (h x hmem p hp))
  exact hkept.2

theorem foldl_insertCandidate (t : BlockTree) (l : List CBlockIndex) :
    ∃ c, l.foldl BlockTree.insertCandidate t = { t with setBlockIndexCandidates := c } ∧
      ∀ x, x ∈ c ↔ x ∈ t.setBlockIndexCandidates ∨ x ∈ l := by
  induction l generalizing t with
  | nil => exact ⟨_,rfl,fun x => by simp⟩
  | cons b l ih =>
    obtain ⟨c,heq,hc⟩ := ih (t.insertCandidate b)
    refine ⟨c,heq,fun x => ?_⟩
    rw [hc x]
    simp only [BlockTree.insertCandidate,List.mem_insert_iff,List.mem_cons]
    tauto

/-- Once all blocks that are not below the tip are candidates again, so is every block
that could take its place. -/
theorem readdCandidates_ok (hindex : Indexed env t) (hlinks : Linking t [])
    (hactive : Active env t tip) :
    ∃ c, env.readdCandidates t = { t with setBlockIndexCandidates := c } ∧
      TreeOk env { t with setBlockIndexCandidates := c } tip ∧
      ∀ x ∈ c, x ∈ t.setBlockIndexCandidates ∨ env.rank t tip ≤ env.rank t x := by
  obtain ⟨c,heq,hc⟩ := foldl_insertCandidate t (t.mapBlockIndex.filter fun i =>
    t.isValid i .transactions && t.nChainTx i != 0 && !env.belowTip t i)
  have hnew : ∀ x, x ∈ c ↔ x ∈ t.setBlockIndexCandidates ∨ (x ∈ t.mapBlockIndex ∧
      t.isValid x .transactions = true ∧ t.nChainTx x ≠ 0 ∧ env.rank t tip ≤ env.rank t x) := by
    intro x
    rw [hc x,List.mem_filter]
    simp only [Bool.and_eq_true,bne_iff_ne,Bool.not_eq_true',and_assoc]
    rw [← not_lt,← TreeEnv.belowTip_iff hactive.chain,Bool.not_eq_true]
  refine ⟨c,heq,⟨{ hindex with },hlinks.withCandidates ?_,{ hactive with },?_⟩,?_⟩
  · intro x hx
    rcases (hnew x).mp hx with hold | ⟨hm,-,hl,-⟩
    · exact hlinks.candidates x hold
    · exact ⟨hm,hl⟩
  · intro j hj hl hclean hr
    refine (hnew j).mpr (.inr ⟨hj,?_,hl,hr⟩)
    have hlevel := hindex.transactions j hj (hlinks.allData j hj hl j (self_mem_ancestors j))
    have hf : t.failed j = false := Bool.eq_false_iff.mpr fun hf => hindex.marked j hj hf hclean
    unfold BlockTree.isValid
    simp only [hf,Bool.not_false,Bool.true_and,decide_eq_true_eq]
    exact hlevel
  · intro x hx
    rcases (hnew x).mp hx with hold | ⟨-,-,-,hr⟩
    · exact .inl hold
    · exact .inr hr

/-- The state after `InvalidateBlock`, and the tip it leaves. -/
theorem invalidateBlock_ok (h : TreeOk env t tip) (hi : i ∈ t.mapBlockIndex) :
    ∃ tip', TreeOk env (env.invalidateBlock t i).2 tip' ∧ tip' ∈ tip.ancestors ∧
      Advanced t (env.invalidateBlock t i).2 ∧
      (env.invalidateBlock t i).2.mapBlockIndex = t.mapBlockIndex ∧
      (Increasing t → SoundFrom env t tip → SoundFrom env (env.invalidateBlock t i).2 tip') := by
  have hindex₁ : Indexed env ((t.setFailedValid i).eraseCandidate i) :=
    { h.index.setFailedValid i with }
  have hlinks₁ := (h.links.setFailedValid i).eraseCandidate i
  have hchain₁ : ((t.setFailedValid i).eraseCandidate i).chainActive = .pathTo tip :=
    h.active.chain
  unfold TreeEnv.invalidateBlock
  simp only [hchain₁,CChain.pathTo_tip,Option.elim_some]
  by_cases hon : i ∈ tip.ancestors
  · have hroot : ∀ a ∈ tip.ancestors, a.pprev = none → t.haveUndo a = false := by
      intro a ha hap
      have hag : a = env.genesis := by
        by_contra hne
        obtain ⟨p,hp,-⟩ := h.index.exists_pprev (h.index.closed tip h.active.mem a ha) hne
        rw [hap] at hp
        contradiction
      exact hag ▸ h.active.genesis
    obtain ⟨ok,c,l,tip',heq,hmono,hcases,hl,hend⟩ :=
      disconnectInvalid_on hchain₁ hon h.active.undo hroot
    rw [heq]
    have hmarked : ∀ j ∈ t.mapBlockIndex, (Function.update t.failedValid i true j || c j) = true →
        ∃ a ∈ j.ancestors, Function.update t.failedValid i true a = true := by
      intro j hj hf
      rcases Bool.or_eq_true_iff.mp hf with hv | hc
      · exact ⟨j,self_mem_ancestors j,hv⟩
      · rcases hcases j hc with hold | hij
        · refine setFailedValid_marked h.index j hj ?_
          rw [show t.failedChild j = true from hold,Bool.or_true]
        · exact ⟨i,hij,Function.update_self ..⟩
    have hfmono : ∀ j, t.failed j = true → (Function.update t.failedValid i true j || c j) = true := by
      intro j hj
      rcases Bool.or_eq_true_iff.mp hj with hv | hc
      · rw [setFailedValid_mono hv,Bool.true_or]
      · rw [hmono j hc,Bool.or_true]
    have hindex₂ : Indexed env { (t.setFailedValid i).eraseCandidate i with
        failedChild := c, setBlockIndexCandidates := l, chainActive := .pathTo tip' } :=
      { h.index.withMarks hmarked with }
    have hlinks₂ : Linking { (t.setFailedValid i).eraseCandidate i with
        failedChild := c, setBlockIndexCandidates := l, chainActive := .pathTo tip' } [] :=
      { (h.links.withMarks hfmono).withCandidates (c := l) fun x hx =>
          h.links.candidates x (List.mem_of_mem_filter (hl x hx)) with }
    have hl' : ∀ x ∈ l, x ∈ t.setBlockIndexCandidates := fun x hx =>
      List.mem_of_mem_filter (hl x hx)
    have hti : tip' ∈ i.ancestors := by
      rcases hend with ⟨-,hp⟩ | ⟨-,-,rfl⟩
      · exact pprev_mem_ancestors hp
      · exact self_mem_ancestors _
    have htt : tip' ∈ tip.ancestors := ancestors_trans hti hon
    have hunfailed : ∀ a ∈ tip'.ancestors, a.pprev ≠ none →
        (Function.update t.failedValid i true a || c a) = false := by
      intro a ha hap
      have hia : i ∉ a.ancestors := by
        intro hia
        have h1 := nHeight_le_of_mem_ancestors hia
        have h2 := nHeight_le_of_mem_ancestors ha
        rcases hend with ⟨-,hp⟩ | ⟨-,hp,rfl⟩
        · have := nHeight_pprev hp
          omega
        · have hai := ancestors_eq_of_nHeight ha (self_mem_ancestors _) (by omega)
          exact hap (hai ▸ hp)
      have hai : a ≠ i := fun he => hia (he ▸ self_mem_ancestors a)
      have hold := h.active.unfailed a (ancestors_trans ha htt) hap
      rw [Function.update_of_ne hai]
      refine Bool.eq_false_iff.mpr fun hf => ?_
      rcases Bool.or_eq_true_iff.mp hf with hv | hc
      · exact absurd (show t.failed a = true by rw [BlockTree.failed,hv,Bool.true_or])
          (Bool.eq_false_iff.mp hold)
      · rcases hcases a hc with hc' | hia'
        · have hc'' : t.failedChild a = true := hc'
          exact absurd (show t.failed a = true by rw [BlockTree.failed,hc'',Bool.or_true])
            (Bool.eq_false_iff.mp hold)
        · exact hia hia'
    have hactive₂ : Active env { (t.setFailedValid i).eraseCandidate i with
        failedChild := c, setBlockIndexCandidates := l, chainActive := .pathTo tip' } tip' :=
      { chain := rfl
        mem := h.index.closed tip h.active.mem tip' htt
        linked := h.links.ancestors tip h.active.mem h.active.linked tip' htt
        undo := fun a ha => h.active.undo a (ancestors_trans ha htt)
        scripts := fun a ha => h.active.scripts a (ancestors_trans ha htt)
        unfailed := hunfailed
        connects := fun a ha => h.active.connects a (ancestors_trans ha htt)
        genesis := h.active.genesis }
    have hsound₂ : Increasing t → SoundFrom env t tip → ∀ x ∈ l,
        env.rank t tip' ≤ env.rank t x := fun hinc hs x hx =>
      (hinc.rank_le h.index h.active.mem htt).trans (hs x (hl' x hx))
    rcases hend with ⟨rfl,hp⟩ | ⟨rfl,hp,rfl⟩
    · obtain ⟨c',heq',hok,hnew⟩ := readdCandidates_ok hindex₂ hlinks₂ hactive₂
      simp only [heq']
      refine ⟨tip',⟨{ hok.index with },{ hok.links with },{ hok.active with },hok.complete⟩,htt,
        Advanced.of_eq rfl rfl rfl rfl,rfl,fun hinc hs x hx => ?_⟩
      rcases hnew x hx with hold | hr
      · exact hsound₂ hinc hs x hold
      · exact hr
    · refine ⟨_,⟨hindex₂,hlinks₂,hactive₂,?_⟩,htt,Advanced.of_eq rfl rfl rfl rfl,rfl,hsound₂⟩
      intro j hj hl hclean
      have hgen : tip' = env.genesis := by
        by_contra hne
        obtain ⟨q,hq,-⟩ := h.index.exists_pprev hi hne
        rw [hp] at hq
        contradiction
      have hfalse : Function.update t.failedValid tip' true tip' = false :=
        hclean tip' (hgen ▸ h.index.root j hj)
      rw [Function.update_self] at hfalse
      contradiction
  · have hok := h.setFailedValid hon
    rw [disconnectInvalid_off hchain₁ hon]
    obtain ⟨c',heq',hok',hnew⟩ := readdCandidates_ok hindex₁ hlinks₁ { hok.active with }
    simp only [heq']
    refine ⟨tip,⟨{ hok'.index with },{ hok'.links with },{ hok'.active with },hok'.complete⟩,
      self_mem_ancestors tip,Advanced.of_eq rfl rfl rfl rfl,rfl,fun _ hs x hx => ?_⟩
    rcases hnew x hx with hold | hr
    · exact hs x (List.mem_of_mem_filter hold)
    · exact hr

end Disconnect

end Anoncoin
