import Mathlib.Data.Prod.Lex
import Mathlib.Order.OrderDual
import Anoncoin.BlockTree
import Anoncoin.HeaderRules

/-!
What every call keeps of the block tree: the index is a tree over genesis, `nChainTx` is
set exactly where all data is there, `mapBlocksUnlinked` holds the blocks that wait for
their parent, and the candidates are linked blocks.
-/

set_option autoImplicit false

namespace Anoncoin
open CBlockIndex

namespace TreeEnv
variable (env : TreeEnv)

/-- The order of the comparator: by work, then the block that was linked first. -/
def rank (t : BlockTree) (i : CBlockIndex) : ℕ ×ₗ ℕᵒᵈ ×ₗ ℕᵒᵈ :=
  toLex (i.nChainWork.toNat,toLex (OrderDual.toDual (t.nSequenceId i),
    OrderDual.toDual (env.address i)))

variable {env}

theorem workComparator_iff {t : BlockTree} {a b : CBlockIndex} :
    env.workComparator t a b = true ↔ env.rank t a < env.rank t b := by
  unfold workComparator rank
  rw [Prod.Lex.toLex_lt_toLex,Prod.Lex.toLex_lt_toLex]
  simp only [OrderDual.toDual_lt_toDual,OrderDual.toDual_inj,BitVec.lt_def]
  split
  · simp only [Bool.false_eq_true,false_iff]
    omega
  · split
    · simp only [true_iff]
      omega
    · split
      · simp only [Bool.false_eq_true,false_iff]
        omega
      · split
        · simp only [true_iff]
          omega
        · rw [decide_eq_true_iff]
          omega

theorem belowTip_iff {t : BlockTree} {tip i : CBlockIndex}
    (htip : t.chainActive = .pathTo tip) :
    env.belowTip t i = true ↔ env.rank t i < env.rank t tip := by
  unfold belowTip
  rw [htip,CChain.pathTo_tip,Option.any_some,workComparator_iff]

theorem lastOf_eq_none {t : BlockTree} {l : List CBlockIndex} :
    env.lastOf t l = none ↔ l = [] := by
  cases l with
  | nil => simp [lastOf]
  | cons c rest =>
    unfold lastOf
    cases env.lastOf t rest with
    | none => simp
    | some b =>
      simp only [reduceCtorEq,iff_false]
      split <;> simp

theorem rank_le_of_lastOf {t : BlockTree} {l : List CBlockIndex} {b : CBlockIndex}
    (h : env.lastOf t l = some b) : ∀ c ∈ l, env.rank t c ≤ env.rank t b := by
  induction l generalizing b with
  | nil => simp [lastOf] at h
  | cons c rest ih =>
    intro x hx
    unfold lastOf at h
    cases hr : env.lastOf t rest with
    | none =>
      rw [hr] at h
      obtain rfl := Option.some.inj h
      rw [lastOf_eq_none.mp hr,List.mem_singleton] at hx
      rw [hx]
    | some m =>
      rw [hr] at h
      simp only at h
      split at h
      · rename_i hcmp
        obtain rfl := Option.some.inj h
        rcases List.mem_cons.mp hx with rfl | hxr
        · exact le_refl _
        · exact (ih hr x hxr).trans (workComparator_iff.mp hcmp).le
      · rename_i hcmp
        obtain rfl := Option.some.inj h
        rcases List.mem_cons.mp hx with rfl | hxr
        · exact not_lt.mp fun hlt => hcmp (workComparator_iff.mpr hlt)
        · exact ih hr x hxr

end TreeEnv

namespace BlockTree

/-- The data of the block and of all its ancestors is there. -/
def AllData (t : BlockTree) (i : CBlockIndex) : Prop := ∀ a ∈ i.ancestors, t.haveData a = true

/-- Neither the block nor an ancestor was found invalid. -/
def Clean (t : BlockTree) (i : CBlockIndex) : Prop :=
  ∀ a ∈ i.ancestors, t.failedValid a = false

theorem AllData.ancestor {t : BlockTree} {a i : CBlockIndex} (h : t.AllData i)
    (ha : a ∈ i.ancestors) : t.AllData a := fun b hb => h b (ancestors_trans hb ha)

/-- Of a block with data only the ancestors matter. -/
theorem allData_pprev {t : BlockTree} {i p : CBlockIndex} (hp : i.pprev = some p)
    (hd : t.haveData i = true) : t.AllData i ↔ t.AllData p := by
  refine ⟨fun hall => hall.ancestor (pprev_mem_ancestors hp),fun hall a ha => ?_⟩
  obtain rfl | hap := (mem_ancestors_pprev hp).mp ha
  · exact hd
  · exact hall a hap

theorem Clean.ancestor {t : BlockTree} {a i : CBlockIndex} (h : t.Clean i)
    (ha : a ∈ i.ancestors) : t.Clean a := fun b hb => h b (ancestors_trans hb ha)

end BlockTree

/-- The index is a tree over genesis, with skip pointers and validity levels in order. -/
structure Indexed (env : TreeEnv) (t : BlockTree) : Prop where
  nodup : t.mapBlockIndex.Nodup
  genesis : env.genesis ∈ t.mapBlockIndex
  root : ∀ i ∈ t.mapBlockIndex, env.genesis ∈ i.ancestors
  closed : ∀ i ∈ t.mapBlockIndex, ∀ a ∈ i.ancestors, a ∈ t.mapBlockIndex
  hashes : ∀ i ∈ t.mapBlockIndex, ∀ j ∈ t.mapBlockIndex,
    i.data.hashBlock = j.data.hashBlock → i = j
  skip : ∀ i ∈ t.mapBlockIndex, SkipBuilt t.pskip i
  tree : ∀ i ∈ t.mapBlockIndex, 2 ≤ (t.validity i).level
  transactions : ∀ i ∈ t.mapBlockIndex, t.haveData i = true → 3 ≤ (t.validity i).level
  scripts : ∀ i ∈ t.mapBlockIndex, 4 ≤ (t.validity i).level →
    ∀ a ∈ i.ancestors, a.pprev ≠ none → 5 ≤ (t.validity a).level
  marked : ∀ i ∈ t.mapBlockIndex, t.failed i = true → ¬t.Clean i

/-- The links of the tree, while the blocks of `queue` are still to be linked. Blocks that
were loaded from disk all have the number 0. -/
structure Linking (t : BlockTree) (queue : List CBlockIndex) : Prop where
  allData : ∀ i ∈ t.mapBlockIndex, t.nChainTx i ≠ 0 → t.AllData i
  ancestors : ∀ i ∈ t.mapBlockIndex, t.nChainTx i ≠ 0 → ∀ a ∈ i.ancestors, t.nChainTx a ≠ 0
  complete : ∀ i ∈ t.mapBlockIndex, t.AllData i → t.nChainTx i = 0 →
    ∃ q ∈ queue, q ∈ i.ancestors
  sequence : ∀ i ∈ t.mapBlockIndex, t.nChainTx i ≠ 0 → t.nSequenceId i < t.nBlockSequenceId
  distinct : ∀ i ∈ t.mapBlockIndex, ∀ j ∈ t.mapBlockIndex, t.nChainTx i ≠ 0 → t.nChainTx j ≠ 0 →
    t.nSequenceId i ≠ 0 → t.nSequenceId i = t.nSequenceId j → i = j
  candidates : ∀ c ∈ t.setBlockIndexCandidates, c ∈ t.mapBlockIndex ∧ t.nChainTx c ≠ 0
  unlinked : ∀ p c, (p,c) ∈ t.mapBlocksUnlinked →
    c ∈ t.mapBlockIndex ∧ c.pprev = some p ∧ t.haveData c = true ∧ t.nChainTx c = 0
  nodup : t.mapBlocksUnlinked.Nodup
  pending : ∀ c ∈ t.mapBlockIndex, ∀ p, c.pprev = some p → t.haveData c = true →
    t.nChainTx c = 0 → (p,c) ∈ t.mapBlocksUnlinked ∨ c ∈ queue ∨
      (t.failed p = true ∧ t.haveData p = false)
  queued : ∀ q ∈ queue, q ∈ t.mapBlockIndex ∧ t.haveData q = true ∧ t.nChainTx q = 0 ∧
    ∃ p, q.pprev = some p ∧ t.nChainTx p ≠ 0
  queue_nodup : queue.Nodup
  queue_unlinked : ∀ q ∈ queue, ∀ p, (p,q) ∉ t.mapBlocksUnlinked

/-- The active chain ends at `tip`, and consists of linked blocks that were connected. -/
structure Active (env : TreeEnv) (t : BlockTree) (tip : CBlockIndex) : Prop where
  chain : t.chainActive = .pathTo tip
  mem : tip ∈ t.mapBlockIndex
  linked : t.nChainTx tip ≠ 0
  undo : ∀ a ∈ tip.ancestors, a.pprev ≠ none → t.haveUndo a = true
  scripts : ∀ a ∈ tip.ancestors, a.pprev ≠ none → 5 ≤ (t.validity a).level
  unfailed : ∀ a ∈ tip.ancestors, a.pprev ≠ none → t.failed a = false
  connects : ∀ a ∈ tip.ancestors, env.connects a = true
  genesis : t.haveUndo env.genesis = false

/-- Every linked block without a failed ancestor that ranks with `r` or above is a
candidate. -/
def CompleteFrom (env : TreeEnv) (t : BlockTree) (r : CBlockIndex) : Prop :=
  ∀ i ∈ t.mapBlockIndex, t.nChainTx i ≠ 0 → t.Clean i → env.rank t r ≤ env.rank t i →
    i ∈ t.setBlockIndexCandidates

/-- Below a block other than the ancestor itself there is the child of that ancestor. -/
theorem exists_child_towards {a i : CBlockIndex} (ha : a ∈ i.ancestors) (hne : a ≠ i) :
    ∃ x ∈ i.ancestors, x.pprev = some a := by
  induction i with
  | genesis d => exact absurd (List.mem_singleton.mp ha) hne
  | child d p ih =>
    have hap : a ∈ p.ancestors := (List.mem_cons.mp ha).resolve_left hne
    by_cases hpa : a = p
    · exact ⟨.child d p,by simp,by rw [hpa]; rfl⟩
    · obtain ⟨x,hx,hxa⟩ := ih hap hpa
      exact ⟨x,List.mem_cons_of_mem _ hx,hxa⟩

namespace Linking
variable {t : BlockTree}

theorem linked_iff (h : Linking t []) {i : CBlockIndex} (hi : i ∈ t.mapBlockIndex) :
    t.nChainTx i ≠ 0 ↔ t.AllData i := by
  constructor
  · exact h.allData i hi
  · intro hall hzero
    obtain ⟨q,hq,-⟩ := h.complete i hi hall hzero
    exact absurd hq List.not_mem_nil

/-- Other candidates do not matter, as long as they are linked. -/
theorem withCandidates {queue : List CBlockIndex} (h : Linking t queue) {c : List CBlockIndex}
    (hc : ∀ x ∈ c, x ∈ t.mapBlockIndex ∧ t.nChainTx x ≠ 0) :
    Linking { t with setBlockIndexCandidates := c } queue :=
  { h with candidates := hc }

theorem eraseCandidate {queue : List CBlockIndex} (h : Linking t queue) (i : CBlockIndex) :
    Linking (t.eraseCandidate i) queue :=
  h.withCandidates fun x hx => h.candidates x (List.mem_of_mem_filter hx)

/-- More marks of failure do not matter either. -/
theorem withMarks {queue : List CBlockIndex} (h : Linking t queue) {v c : CBlockIndex → Bool}
    (hmono : ∀ i, t.failed i = true → (v i || c i) = true) :
    Linking { t with failedValid := v, failedChild := c } queue :=
  { h with
    pending := by
      intro x hx p hp hdata hzero
      rcases h.pending x hx p hp hdata hzero with hu | hq | ⟨hf,hd⟩
      · exact .inl hu
      · exact .inr (.inl hq)
      · exact .inr (.inr ⟨hmono p hf,hd⟩) }

end Linking

namespace TreeEnv
variable {env : TreeEnv} {t : BlockTree}

theorem linkNext_eq (env : TreeEnv) (t : BlockTree) (q : CBlockIndex) :
    ∃ c, env.linkNext t q = { t with
        nChainTx := Function.update t.nChainTx q ((q.pprev.elim 0 t.nChainTx)+t.nTx q)
        nSequenceId := Function.update t.nSequenceId q t.nBlockSequenceId
        nBlockSequenceId := t.nBlockSequenceId+1
        setBlockIndexCandidates := c
        mapBlocksUnlinked := eraseRange q t.mapBlocksUnlinked } ∧
      ∀ x, x ∈ c ↔ x ∈ t.setBlockIndexCandidates ∨
        (x = q ∧ env.belowTip (env.linkNext t q) q = false) := by
  have hbelow : env.belowTip (env.linkNext t q) q = env.belowTip { t with
      nChainTx := Function.update t.nChainTx q ((q.pprev.elim 0 t.nChainTx)+t.nTx q)
      nSequenceId := Function.update t.nSequenceId q t.nBlockSequenceId
      nBlockSequenceId := t.nBlockSequenceId+1 } q := by
    unfold linkNext link
    simp only
    split <;> rfl
  rw [hbelow]
  unfold linkNext link
  simp only
  split
  · rename_i h
    exact ⟨_,rfl,fun x => by simp [h]⟩
  · rename_i h
    refine ⟨_,rfl,fun x => ?_⟩
    simp only [BlockTree.insertCandidate,List.mem_insert_iff]
    rw [Bool.eq_false_iff.mpr h]
    simp only [and_true]
    exact or_comm

theorem mem_range {q x : CBlockIndex} {unlinked : List (CBlockIndex × CBlockIndex)} :
    x ∈ range q unlinked ↔ (q,x) ∈ unlinked := by
  unfold range
  simp

theorem mem_eraseRange {q : CBlockIndex} {u : CBlockIndex × CBlockIndex}
    {unlinked : List (CBlockIndex × CBlockIndex)} :
    u ∈ eraseRange q unlinked ↔ u ∈ unlinked ∧ u.1 ≠ q := by
  unfold eraseRange
  simp

theorem nodup_range {q : CBlockIndex} {unlinked : List (CBlockIndex × CBlockIndex)}
    (h : unlinked.Nodup) : (range q unlinked).Nodup := by
  unfold range
  refine List.Nodup.map_on ?_ (h.filter _)
  intro u hu v hv huv
  have hu1 : u.1 = q := by simpa using (List.mem_filter.mp hu).2
  have hv1 : v.1 = q := by simpa using (List.mem_filter.mp hv).2
  exact Prod.ext (hu1.trans hv1.symm) huv

end TreeEnv

/-- One round of the queue loop: the entry is linked, and its waiting children join the
queue. -/
theorem Linking.linkNext {env : TreeEnv} {t : BlockTree} {q : CBlockIndex}
    {queue : List CBlockIndex} (hindex : Indexed env t) (h : Linking t (q :: queue)) :
    Linking (env.linkNext t q) (queue ++ TreeEnv.range q t.mapBlocksUnlinked) := by
  obtain ⟨hqmem,hqdata,hqzero,p,hp,hplinked⟩ := h.queued q (by simp)
  obtain ⟨c,heq,hc⟩ := TreeEnv.linkNext_eq env t q
  rw [heq]
  clear heq
  have hpmem : p ∈ t.mapBlockIndex := hindex.closed q hqmem p (pprev_mem_ancestors hp)
  have hnew : ∀ i, Function.update t.nChainTx q ((q.pprev.elim 0 t.nChainTx)+t.nTx q) i ≠ 0 ↔
      i = q ∨ t.nChainTx i ≠ 0 := by
    intro i
    by_cases hi : i = q
    · subst hi
      rw [Function.update_self,hp]
      simp only [Option.elim_some,true_or,iff_true]
      omega
    · rw [Function.update_of_ne hi]
      simp [hi]
  have hseq : ∀ i, i ≠ q →
      Function.update t.nSequenceId q t.nBlockSequenceId i = t.nSequenceId i :=
    fun i hi => Function.update_of_ne hi _ _
  have hseqq : Function.update t.nSequenceId q t.nBlockSequenceId q = t.nBlockSequenceId :=
    Function.update_self ..
  have hzero : ∀ i, Function.update t.nChainTx q ((q.pprev.elim 0 t.nChainTx)+t.nTx q) i = 0 →
      i ≠ q ∧ t.nChainTx i = 0 := by
    intro i hi
    have := (hnew i).not.mp (not_not.mpr hi)
    exact ⟨fun he => this (.inl he),not_not.mp fun hne => this (.inr hne)⟩
  have hold : ∀ i, i ≠ q →
      Function.update t.nChainTx q ((q.pprev.elim 0 t.nChainTx)+t.nTx q) i = t.nChainTx i :=
    fun i hi => Function.update_of_ne hi _ _
  have hnodup := List.nodup_cons.mp h.queue_nodup
  refine
    { allData := ?_
      ancestors := ?_
      complete := ?_
      sequence := ?_
      distinct := ?_
      candidates := ?_
      unlinked := ?_
      nodup := h.nodup.filter _
      pending := ?_
      queued := ?_
      queue_nodup := ?_
      queue_unlinked := ?_ }
  · intro i hi hlinked a ha
    rcases (hnew i).mp hlinked with rfl | hl
    · rcases (mem_ancestors_pprev hp).mp ha with rfl | hap
      · exact hqdata
      · exact h.allData p hpmem hplinked a hap
    · exact h.allData i hi hl a ha
  · intro i hi hlinked a ha
    rcases (hnew i).mp hlinked with rfl | hl
    · rcases (mem_ancestors_pprev hp).mp ha with rfl | hap
      · exact (hnew a).mpr (.inl rfl)
      · exact (hnew a).mpr (.inr (h.ancestors p hpmem hplinked a hap))
    · exact (hnew a).mpr (.inr (h.ancestors i hi hl a ha))
  · intro i hi hall hz
    obtain ⟨hiq,hiz⟩ := hzero i hz
    obtain ⟨q',hq',hq'i⟩ := h.complete i hi hall hiz
    rcases List.mem_cons.mp hq' with rfl | hrest
    · obtain ⟨x,hx,hxq⟩ := exists_child_towards hq'i (Ne.symm hiq)
      have hxmem := hindex.closed i hi x hx
      have hxzero : t.nChainTx x = 0 := by
        by_contra hne
        exact h.ancestors x hxmem hne q' (pprev_mem_ancestors hxq) hqzero
      rcases h.pending x hxmem q' hxq (hall x hx) hxzero with hu | hqueue | ⟨-,hd⟩
      · exact ⟨x,List.mem_append_right _ (TreeEnv.mem_range.mpr hu),hx⟩
      · rcases List.mem_cons.mp hqueue with rfl | hr
        · exact absurd (nHeight_pprev hxq) (by omega)
        · exact ⟨x,List.mem_append_left _ hr,hx⟩
      · rw [hqdata] at hd
        contradiction
    · exact ⟨q',List.mem_append_left _ hrest,hq'i⟩
  · intro i hi hlinked
    show Function.update t.nSequenceId q t.nBlockSequenceId i < t.nBlockSequenceId+1
    by_cases hiq : i = q
    · rw [hiq,hseqq]
      omega
    · rw [hseq i hiq]
      have := h.sequence i hi (((hnew i).mp hlinked).resolve_left hiq)
      omega
  · intro i hi j hj hil hjl hnumber hij
    change Function.update t.nSequenceId q t.nBlockSequenceId i ≠ 0 at hnumber
    change Function.update t.nSequenceId q t.nBlockSequenceId i =
      Function.update t.nSequenceId q t.nBlockSequenceId j at hij
    by_cases hiq : i = q
    · by_cases hjq : j = q
      · rw [hiq,hjq]
      · rw [hiq,hseqq,hseq j hjq] at hij
        have := h.sequence j hj (((hnew j).mp hjl).resolve_left hjq)
        omega
    · by_cases hjq : j = q
      · rw [hjq,hseqq,hseq i hiq] at hij
        have := h.sequence i hi (((hnew i).mp hil).resolve_left hiq)
        omega
      · rw [hseq i hiq] at hnumber
        rw [hseq i hiq,hseq j hjq] at hij
        exact h.distinct i hi j hj (((hnew i).mp hil).resolve_left hiq)
          (((hnew j).mp hjl).resolve_left hjq) hnumber hij
  · intro x hx
    rcases (hc x).mp hx with hold | ⟨rfl,-⟩
    · exact ⟨(h.candidates x hold).1,(hnew x).mpr (.inr (h.candidates x hold).2)⟩
    · exact ⟨hqmem,(hnew x).mpr (.inl rfl)⟩
  · intro p' x hleft
    have hu : (p',x) ∈ t.mapBlocksUnlinked := (TreeEnv.mem_eraseRange.mp hleft).1
    obtain ⟨hx,hxp,hxd,hxz⟩ := h.unlinked p' x hu
    have hxq : x ≠ q := by
      intro he
      subst he
      exact h.queue_unlinked x (by simp) p' hu
    exact ⟨hx,hxp,hxd,(hold x hxq).trans hxz⟩
  · intro x hx p' hxp hxd hz
    obtain ⟨hxq,hxz⟩ := hzero x hz
    rcases h.pending x hx p' hxp hxd hxz with hu | hqueue | hfail
    · by_cases hpq : p' = q
      · subst hpq
        exact .inr (.inl (List.mem_append_right _ (TreeEnv.mem_range.mpr hu)))
      · exact .inl (TreeEnv.mem_eraseRange.mpr ⟨hu,hpq⟩)
    · exact .inr (.inl (List.mem_append_left _ ((List.mem_cons.mp hqueue).resolve_left hxq)))
    · exact .inr (.inr hfail)
  · intro x hx
    rcases List.mem_append.mp hx with hr | hrange
    · obtain ⟨hxm,hxd,hxz,p',hxp,hl⟩ := h.queued x (List.mem_cons_of_mem _ hr)
      have hxq : x ≠ q := fun he => hnodup.1 (he ▸ hr)
      exact ⟨hxm,hxd,(hold x hxq).trans hxz,p',hxp,(hnew p').mpr (.inr hl)⟩
    · obtain ⟨hxm,hxp,hxd,hxz⟩ := h.unlinked q x (TreeEnv.mem_range.mp hrange)
      have hxq : x ≠ q := by
        intro he
        subst he
        exact absurd (nHeight_pprev hxp) (by omega)
      exact ⟨hxm,hxd,(hold x hxq).trans hxz,q,hxp,(hnew q).mpr (.inl rfl)⟩
  · refine List.nodup_append.mpr ⟨hnodup.2,TreeEnv.nodup_range h.nodup,?_⟩
    intro x hx y hy hxy
    subst hxy
    exact h.queue_unlinked x (List.mem_cons_of_mem _ hx) q (TreeEnv.mem_range.mp hy)
  · intro x hx p' hleft
    obtain ⟨hu,hpq⟩ := TreeEnv.mem_eraseRange.mp hleft
    rcases List.mem_append.mp hx with hr | hrange
    · exact h.queue_unlinked x (List.mem_cons_of_mem _ hr) p' hu
    · have h1 := (h.unlinked q x (TreeEnv.mem_range.mp hrange)).2.1
      have h2 := (h.unlinked p' x hu).2.1
      rw [h1] at h2
      exact hpq (Option.some.inj h2).symm

/-- The tree with other links, all else equal. -/
def Relinked (t₀ t : BlockTree) : Prop :=
  t = { t₀ with
    nChainTx := t.nChainTx
    nSequenceId := t.nSequenceId
    nBlockSequenceId := t.nBlockSequenceId
    setBlockIndexCandidates := t.setBlockIndexCandidates
    mapBlocksUnlinked := t.mapBlocksUnlinked }

theorem Indexed.relinked {env : TreeEnv} {t₀ t : BlockTree} (h : Indexed env t₀)
    (hrel : Relinked t₀ t) : Indexed env t := by
  rw [hrel]
  exact { h with }

/-- The queue loop keeps what each round keeps. -/
theorem TreeEnv.linkQueue_invariant {env : TreeEnv} (inv : List CBlockIndex → BlockTree → Prop)
    (hstep : ∀ q queue t, inv (q :: queue) t →
      inv (queue ++ TreeEnv.range q t.mapBlocksUnlinked) (env.linkNext t q))
    {queue : List CBlockIndex} {t : BlockTree} (h : inv queue t) :
    inv [] (env.linkQueue queue t) := by
  induction queue, t using TreeEnv.linkQueue.induct env with
  | case1 t =>
    unfold TreeEnv.linkQueue
    exact h
  | case2 q queue t ih =>
    unfold TreeEnv.linkQueue
    exact ih (hstep q queue t h)

/-- No candidate ranks below `r`. -/
def SoundFrom (env : TreeEnv) (t : BlockTree) (r : CBlockIndex) : Prop :=
  ∀ c ∈ t.setBlockIndexCandidates, env.rank t r ≤ env.rank t c

/-- From one state to a later one the index and the links grow, and the blocks that were
linked in between have later numbers. -/
structure Advanced (t₀ t : BlockTree) : Prop where
  index : ∀ i ∈ t₀.mapBlockIndex, i ∈ t.mapBlockIndex
  counter : t₀.nBlockSequenceId ≤ t.nBlockSequenceId
  kept : ∀ i ∈ t₀.mapBlockIndex, t₀.nChainTx i ≠ 0 →
    t.nChainTx i ≠ 0 ∧ t.nSequenceId i = t₀.nSequenceId i
  later : ∀ i ∈ t.mapBlockIndex, t.nChainTx i ≠ 0 →
    (i ∈ t₀.mapBlockIndex → t₀.nChainTx i = 0) → t₀.nBlockSequenceId ≤ t.nSequenceId i

theorem Advanced.refl (t : BlockTree) : Advanced t t where
  index _ h := h
  counter := le_refl _
  kept _ _ h := ⟨h,rfl⟩
  later _ hi hl hz := absurd (hz hi) hl

theorem Advanced.trans {t₀ t₁ t₂ : BlockTree} (h₁ : Advanced t₀ t₁) (h₂ : Advanced t₁ t₂) :
    Advanced t₀ t₂ where
  index i hi := h₂.index i (h₁.index i hi)
  counter := h₁.counter.trans h₂.counter
  kept i hi hl := by
    obtain ⟨hl₁,hs₁⟩ := h₁.kept i hi hl
    obtain ⟨hl₂,hs₂⟩ := h₂.kept i (h₁.index i hi) hl₁
    exact ⟨hl₂,hs₂.trans hs₁⟩
  later i hi hl hz := by
    by_cases hmid : i ∈ t₁.mapBlockIndex ∧ t₁.nChainTx i ≠ 0
    · rw [(h₂.kept i hmid.1 hmid.2).2]
      exact h₁.later i hmid.1 hmid.2 hz
    · refine h₁.counter.trans (h₂.later i hi hl fun hm => ?_)
      exact not_not.mp fun hne => hmid ⟨hm,hne⟩

/-- A call that touches neither the index nor the links. -/
theorem Advanced.of_eq {t₀ t : BlockTree} (hindex : t.mapBlockIndex = t₀.mapBlockIndex)
    (hchain : t.nChainTx = t₀.nChainTx) (hseq : t.nSequenceId = t₀.nSequenceId)
    (hcounter : t.nBlockSequenceId = t₀.nBlockSequenceId) : Advanced t₀ t where
  index _ hi := hindex ▸ hi
  counter := hcounter.ge
  kept _ _ hl := ⟨by rw [hchain]; exact hl,by rw [hseq]⟩
  later _ hi hl hz := absurd (hz (hindex ▸ hi)) (by rw [← hchain]; exact hl)

section Link
variable {env : TreeEnv} {t : BlockTree} {q tip : CBlockIndex}

theorem relinked_linkNext : Relinked t (env.linkNext t q) := by
  obtain ⟨c,heq,-⟩ := TreeEnv.linkNext_eq env t q
  rw [heq]
  rfl

theorem rank_linkNext {i : CBlockIndex} (h : i ≠ q) :
    env.rank (env.linkNext t q) i = env.rank t i := by
  obtain ⟨c,heq,-⟩ := TreeEnv.linkNext_eq env t q
  rw [heq]
  unfold TreeEnv.rank
  simp only [Function.update_of_ne h]

theorem nChainTx_linkNext {i : CBlockIndex} (h : i ≠ q) :
    (env.linkNext t q).nChainTx i = t.nChainTx i := by
  obtain ⟨c,heq,-⟩ := TreeEnv.linkNext_eq env t q
  rw [heq]
  exact Function.update_of_ne h _ _

theorem mem_candidates_linkNext {x : CBlockIndex} :
    x ∈ (env.linkNext t q).setBlockIndexCandidates ↔ x ∈ t.setBlockIndexCandidates ∨
      (x = q ∧ env.belowTip (env.linkNext t q) q = false) := by
  obtain ⟨c,heq,hc⟩ := TreeEnv.linkNext_eq env t q
  rw [heq]
  rw [heq] at hc
  exact hc x

theorem Active.linkNext (h : Active env t tip) (hq : t.nChainTx q = 0) :
    Active env (env.linkNext t q) tip := by
  have hne : tip ≠ q := fun he => h.linked (he ▸ hq)
  have hlinked := @nChainTx_linkNext env t q tip hne
  rw [@relinked_linkNext env t q] at hlinked ⊢
  exact { h with linked := hlinked ▸ h.linked }

theorem CompleteFrom.linkNext (h : CompleteFrom env t tip) (hactive : Active env t tip)
    (hq : t.nChainTx q = 0) : CompleteFrom env (env.linkNext t q) tip := by
  have hne : tip ≠ q := fun he => hactive.linked (he ▸ hq)
  have hrel := @relinked_linkNext env t q
  intro i hi hlinked hclean hrank
  rw [mem_candidates_linkNext]
  by_cases hiq : i = q
  · subst hiq
    refine .inr ⟨rfl,Bool.eq_false_iff.mpr fun hb => ?_⟩
    exact absurd ((TreeEnv.belowTip_iff (hactive.linkNext hq).chain).mp hb) (not_lt.mpr hrank)
  · rw [nChainTx_linkNext hiq] at hlinked
    rw [rank_linkNext hne,rank_linkNext hiq] at hrank
    refine .inl (h i (congrArg BlockTree.mapBlockIndex hrel ▸ hi) hlinked ?_ hrank)
    intro a ha
    rw [← congrFun (congrArg BlockTree.failedValid hrel) a]
    exact hclean a ha

theorem SoundFrom.linkNext (h : SoundFrom env t tip) (hactive : Active env t tip)
    (hcand : ∀ c ∈ t.setBlockIndexCandidates, t.nChainTx c ≠ 0) (hq : t.nChainTx q = 0) :
    SoundFrom env (env.linkNext t q) tip := by
  have hne : tip ≠ q := fun he => hactive.linked (he ▸ hq)
  intro c hc
  rcases mem_candidates_linkNext.mp hc with hold | ⟨rfl,hbelow⟩
  · have hcq : c ≠ q := fun he => hcand c hold (he ▸ hq)
    rw [rank_linkNext hne,rank_linkNext hcq]
    exact h c hold
  · refine not_lt.mp fun hlt => ?_
    rw [(TreeEnv.belowTip_iff (hactive.linkNext hq).chain).mpr hlt] at hbelow
    contradiction

theorem Advanced.linkNext (hq : t.nChainTx q = 0) : Advanced t (env.linkNext t q) := by
  obtain ⟨c,heq,-⟩ := TreeEnv.linkNext_eq env t q
  rw [heq]
  have hne : ∀ i, t.nChainTx i ≠ 0 → i ≠ q := fun i hi he => hi (he ▸ hq)
  exact
    { index := fun i hi => hi
      counter := Nat.le_succ _
      kept := fun i _ hl =>
        ⟨by simpa only [Function.update_of_ne (hne i hl)] using hl,
          Function.update_of_ne (hne i hl) _ _⟩
      later := by
        intro i hi hl hz
        have hiq : i = q := by
          by_contra hiq
          simp only [Function.update_of_ne hiq] at hl
          exact hl (hz hi)
        subst hiq
        exact (Function.update_self i t.nBlockSequenceId t.nSequenceId).ge }

end Link

/-- The state between calls: the active chain ends at `tip`, and every block that could
take its place is a candidate. -/
structure TreeOk (env : TreeEnv) (t : BlockTree) (tip : CBlockIndex) : Prop where
  index : Indexed env t
  links : Linking t []
  active : Active env t tip
  complete : CompleteFrom env t tip

/-- The queue loop links what can be linked. -/
theorem linkQueue_ok {env : TreeEnv} {t : BlockTree} {tip : CBlockIndex}
    {queue : List CBlockIndex} (hindex : Indexed env t) (hlinks : Linking t queue)
    (hactive : Active env t tip) (hcomplete : CompleteFrom env t tip) :
    TreeOk env (env.linkQueue queue t) tip ∧ Relinked t (env.linkQueue queue t) ∧
      Advanced t (env.linkQueue queue t) ∧
      (SoundFrom env t tip → SoundFrom env (env.linkQueue queue t) tip) := by
  have hinv := @TreeEnv.linkQueue_invariant env (fun queue t' =>
    Linking t' queue ∧ Active env t' tip ∧ CompleteFrom env t' tip ∧ Relinked t t' ∧
      Advanced t t' ∧ (SoundFrom env t tip → SoundFrom env t' tip)) ?_ queue t
    ⟨hlinks,hactive,hcomplete,rfl,Advanced.refl t,id⟩
  · obtain ⟨hl,ha,hc,hrel,hadv,hsound⟩ := hinv
    exact ⟨⟨hindex.relinked hrel,hl,ha,hc⟩,hrel,hadv,hsound⟩
  · rintro q queue t' ⟨hl,ha,hc,hrel,hadv,hsound⟩
    have hq := (hl.queued q (by simp)).2.2.1
    refine ⟨hl.linkNext (hindex.relinked hrel),ha.linkNext hq,hc.linkNext ha hq,?_,
      hadv.trans (Advanced.linkNext hq),
      fun h => (hsound h).linkNext ha (fun c hc => (hl.candidates c hc).2) hq⟩
    unfold Relinked
    rw [@relinked_linkNext env t' q,hrel]

section Receive
variable {env : TreeEnv} {t : BlockTree} {i tip : CBlockIndex} {nTx : Nat}

theorem raiseValidity_eq (hfail : t.failed i = false) (nUpTo : Validity) :
    ∃ v, t.raiseValidity i nUpTo = { t with validity := v } ∧
      (∀ j, j ≠ i → v j = t.validity j) ∧ nUpTo.level ≤ (v i).level ∧
      (t.validity i).level ≤ (v i).level ∧ (nUpTo.level < (v i).level → v i = t.validity i) := by
  unfold BlockTree.raiseValidity
  simp only [hfail,Bool.not_false,Bool.true_and,decide_eq_true_eq]
  split
  · rename_i hlt
    refine ⟨_,rfl,fun j hj => Function.update_of_ne hj _ _,?_⟩
    rw [Function.update_self]
    exact ⟨le_refl _,hlt.le,fun h => absurd h (lt_irrefl _)⟩
  · rename_i hge
    exact ⟨_,rfl,fun _ _ => rfl,not_lt.mp hge,le_refl _,fun _ => rfl⟩

theorem receiveData_eq (hfail : t.failed i = false) (hzero : t.nChainTx i = 0) :
    ∃ v, t.receiveData i nTx = { t with
        nTx := Function.update t.nTx i nTx
        haveData := Function.update t.haveData i true
        validity := v } ∧
      (∀ j, j ≠ i → v j = t.validity j) ∧ 3 ≤ (v i).level ∧
      (t.validity i).level ≤ (v i).level ∧ (4 ≤ (v i).level → v i = t.validity i) := by
  have hsame : Function.update t.nChainTx i 0 = t.nChainTx :=
    Function.update_eq_self_iff.mpr hzero.symm
  unfold BlockTree.receiveData
  rw [hsame]
  exact @raiseValidity_eq { t with
    nTx := Function.update t.nTx i nTx
    haveData := Function.update t.haveData i true } i hfail .transactions

theorem Indexed.receiveData (h : Indexed env t) (hfail : t.failed i = false)
    (hzero : t.nChainTx i = 0) : Indexed env (t.receiveData i nTx) := by
  obtain ⟨v,heq,hother,hlevel,hraise,htop⟩ := @receiveData_eq t i nTx hfail hzero
  have hmono : ∀ j, (t.validity j).level ≤ (v j).level := by
    intro j
    by_cases hj : j = i
    · rw [hj]
      exact hraise
    · rw [hother j hj]
  have htop' : ∀ j, 4 ≤ (v j).level → v j = t.validity j := by
    intro j hj
    by_cases hji : j = i
    · rw [hji] at hj ⊢
      exact htop hj
    · exact hother j hji
  rw [heq]
  exact
    { h with
      tree := fun j hj => (h.tree j hj).trans (hmono j)
      transactions := by
        intro j hj hdata
        show 3 ≤ (v j).level
        by_cases hji : j = i
        · rw [hji]
          exact hlevel
        · rw [hother j hji]
          exact h.transactions j hj (by simpa only [Function.update_of_ne hji] using hdata)
      scripts := by
        intro j hj h4 a ha hap
        change 4 ≤ (v j).level at h4
        rw [htop' j h4] at h4
        exact (h.scripts j hj h4 a ha hap).trans (hmono a) }

theorem Linking.not_linked_of_missing {queue : List CBlockIndex} (h : Linking t queue)
    (hi : i ∈ t.mapBlockIndex) (hdata : t.haveData i = false) : t.nChainTx i = 0 := by
  by_contra hne
  have := h.allData i hi hne i (self_mem_ancestors i)
  rw [hdata] at this
  contradiction

theorem haveData_receive {a : CBlockIndex} (h : t.haveData a = true) :
    Function.update t.haveData i true a = true := by
  by_cases hai : a = i
  · rw [hai,Function.update_self]
  · rw [Function.update_of_ne hai]
    exact h

/-- The other blocks wait for their parents as before. -/
theorem Linking.pending_receive (h : Linking t []) (hfail : t.failed i = false)
    {x p : CBlockIndex} (hx : x ∈ t.mapBlockIndex) (hxi : x ≠ i) (hp : x.pprev = some p)
    (hdata : Function.update t.haveData i true x = true) (hzero : t.nChainTx x = 0) :
    (p,x) ∈ t.mapBlocksUnlinked ∨
      (t.failed p = true ∧ Function.update t.haveData i true p = false) := by
  rw [Function.update_of_ne hxi] at hdata
  rcases h.pending x hx p hp hdata hzero with hu | hq | ⟨hf,hnd⟩
  · exact .inl hu
  · exact absurd hq List.not_mem_nil
  · have hne : p ≠ i := by
      intro he
      rw [he,hfail] at hf
      contradiction
    exact .inr ⟨hf,(Function.update_of_ne hne _ _).trans hnd⟩

/-- Blocks that do not build on the new data are linked when they have their data. -/
theorem Linking.linked_receive (h : Linking t []) {j : CBlockIndex} (hj : j ∈ t.mapBlockIndex)
    (hij : i ∉ j.ancestors)
    (hall : ∀ a ∈ j.ancestors, Function.update t.haveData i true a = true) :
    t.nChainTx j ≠ 0 := by
  refine (h.linked_iff hj).mpr fun a ha => ?_
  have hai : a ≠ i := fun he => hij (he ▸ ha)
  have hdata := hall a ha
  rwa [Function.update_of_ne hai] at hdata

/-- The data of a block whose parent is linked: the block can be linked at once. -/
theorem Linking.receiveData_linked (h : Linking t []) {p : CBlockIndex}
    (hi : i ∈ t.mapBlockIndex) (hp : i.pprev = some p) (hdata : t.haveData i = false)
    (hfail : t.failed i = false) (hlinked : t.nChainTx p ≠ 0) :
    Linking (t.receiveData i nTx) [i] := by
  have hzero := h.not_linked_of_missing hi hdata
  obtain ⟨v,heq,-⟩ := @receiveData_eq t i nTx hfail hzero
  rw [heq]
  exact
    { h with
      allData := fun j hj hl a ha => haveData_receive (h.allData j hj hl a ha)
      complete := by
        intro j hj hall hz
        by_cases hij : i ∈ j.ancestors
        · exact ⟨i,by simp,hij⟩
        · exact absurd hz (h.linked_receive hj hij hall)
      unlinked := by
        intro p' x hu
        obtain ⟨hx,hxp,hxd,hxz⟩ := h.unlinked p' x hu
        exact ⟨hx,hxp,haveData_receive hxd,hxz⟩
      pending := by
        intro x hx p' hxp hxd hxz
        by_cases hxi : x = i
        · exact .inr (.inl (by simp [hxi]))
        · exact (h.pending_receive hfail hx hxi hxp hxd hxz).imp_right .inr
      queued := by
        intro q hq
        rw [List.mem_singleton.mp hq]
        exact ⟨hi,Function.update_self ..,hzero,p,hp,hlinked⟩
      queue_nodup := List.nodup_singleton i
      queue_unlinked := by
        intro q hq p' hu
        rw [List.mem_singleton.mp hq] at hu
        have hqd := (h.unlinked p' i hu).2.2.1
        rw [hdata] at hqd
        contradiction }

/-- The data of a block whose parent is not linked: the block waits for it, unless the
parent is marked as failed and has no data itself. -/
theorem Linking.receiveData_waiting (h : Linking t []) {p : CBlockIndex}
    (hindex : Indexed env t) (hi : i ∈ t.mapBlockIndex) (hp : i.pprev = some p)
    (hdata : t.haveData i = false) (hfail : t.failed i = false) (hpzero : t.nChainTx p = 0)
    {waiting : List (CBlockIndex × CBlockIndex)}
    (hwait : waiting = t.mapBlocksUnlinked ++ [(p,i)] ∨
      (waiting = t.mapBlocksUnlinked ∧ t.failed p = true ∧ t.haveData p = false)) :
    Linking { t.receiveData i nTx with mapBlocksUnlinked := waiting } [] := by
  have hzero := h.not_linked_of_missing hi hdata
  have hfresh : ∀ p', (p',i) ∉ t.mapBlocksUnlinked := by
    intro p' hu
    have hid := (h.unlinked p' i hu).2.2.1
    rw [hdata] at hid
    contradiction
  have hsub : ∀ u ∈ t.mapBlocksUnlinked, u ∈ waiting := by
    rcases hwait with rfl | ⟨rfl,-⟩
    · exact fun u hu => List.mem_append_left _ hu
    · exact fun u hu => hu
  have hpi : p ≠ i := fun he => absurd (nHeight_pprev hp) (by rw [he]; omega)
  obtain ⟨v,heq,-⟩ := @receiveData_eq t i nTx hfail hzero
  rw [heq]
  exact
    { h with
      allData := fun j hj hl a ha => haveData_receive (h.allData j hj hl a ha)
      complete := by
        intro j hj hall hz
        by_cases hij : i ∈ j.ancestors
        · have hpj := ancestors_trans (pprev_mem_ancestors hp) hij
          have hip : i ∉ p.ancestors := fun hmem =>
            absurd (nHeight_le_of_mem_ancestors hmem) (by rw [nHeight_pprev hp]; omega)
          exact absurd hpzero (h.linked_receive (hindex.closed j hj p hpj) hip
            fun a ha => hall a (ancestors_trans ha hpj))
        · exact absurd hz (h.linked_receive hj hij hall)
      unlinked := by
        intro p' x hu
        have hcases : (p',x) ∈ t.mapBlocksUnlinked ∨ (p',x) = (p,i) := by
          rcases hwait with rfl | ⟨rfl,-⟩
          · simpa using hu
          · exact .inl hu
        rcases hcases with hold | hnew
        · obtain ⟨hx,hxp,hxd,hxz⟩ := h.unlinked p' x hold
          exact ⟨hx,hxp,haveData_receive hxd,hxz⟩
        · obtain ⟨rfl,rfl⟩ := Prod.mk.inj hnew
          exact ⟨hi,hp,Function.update_self ..,hzero⟩
      nodup := by
        rcases hwait with rfl | ⟨rfl,-⟩
        · refine List.nodup_append.mpr ⟨h.nodup,List.nodup_singleton _,?_⟩
          intro u hu w hw huw
          rw [huw,List.mem_singleton.mp hw] at hu
          exact hfresh p hu
        · exact h.nodup
      pending := by
        intro x hx p' hxp hxd hxz
        by_cases hxi : x = i
        · subst hxi
          rw [hp] at hxp
          obtain rfl := Option.some.inj hxp
          rcases hwait with rfl | ⟨-,hf,hnd⟩
          · exact .inl (by simp)
          · exact .inr (.inr ⟨hf,(Function.update_of_ne hpi _ _).trans hnd⟩)
        · rcases h.pending_receive hfail hx hxi hxp hxd hxz with hu | hf
          · exact .inl (hsub _ hu)
          · exact .inr (.inr hf)
      queued := fun q hq => absurd hq List.not_mem_nil
      queue_unlinked := fun q hq => absurd hq List.not_mem_nil }

theorem Active.receiveData (h : Active env t tip) (hfail : t.failed i = false)
    (hzero : t.nChainTx i = 0) : Active env (t.receiveData i nTx) tip := by
  obtain ⟨v,heq,hother,-,hraise,-⟩ := @receiveData_eq t i nTx hfail hzero
  rw [heq]
  refine { h with scripts := ?_ }
  intro a ha hap
  refine (h.scripts a ha hap).trans ?_
  show (t.validity a).level ≤ (v a).level
  by_cases hai : a = i
  · rw [hai]
    exact hraise
  · rw [hother a hai]

theorem CompleteFrom.receiveData (h : CompleteFrom env t tip) (hfail : t.failed i = false)
    (hzero : t.nChainTx i = 0) : CompleteFrom env (t.receiveData i nTx) tip := by
  obtain ⟨v,heq,-⟩ := @receiveData_eq t i nTx hfail hzero
  rw [heq]
  exact h

theorem Indexed.exists_pprev (h : Indexed env t) (hi : i ∈ t.mapBlockIndex)
    (hne : i ≠ env.genesis) : ∃ p, i.pprev = some p ∧ p ∈ t.mapBlockIndex := by
  cases hp : i.pprev with
  | some p => exact ⟨p,rfl,h.closed i hi p (pprev_mem_ancestors hp)⟩
  | none =>
    cases i with
    | genesis d => exact absurd (List.mem_singleton.mp (h.root _ hi)).symm hne
    | child d p => simp [pprev] at hp

theorem TreeOk.genesis_linked (h : TreeOk env t tip) : t.nChainTx env.genesis ≠ 0 :=
  h.links.ancestors tip h.active.mem h.active.linked _ (h.index.root tip h.active.mem)

/-- Receiving the data of a block, when its parent is not one that failed with its data
but without that of its ancestors. -/
theorem receivedBlockTransactions_ok (h : TreeOk env t tip) (hi : i ∈ t.mapBlockIndex)
    (hdata : t.haveData i = false) (hfail : t.failed i = false)
    (hparent : ∀ p, i.pprev = some p → t.failed p = true → t.haveData p = true →
      t.nChainTx p ≠ 0) :
    TreeOk env (env.receivedBlockTransactions t i nTx) tip ∧
      Relinked (t.receiveData i nTx) (env.receivedBlockTransactions t i nTx) ∧
      Advanced t (env.receivedBlockTransactions t i nTx) ∧
      (SoundFrom env t tip → SoundFrom env (env.receivedBlockTransactions t i nTx) tip) := by
  have hzero := h.links.not_linked_of_missing hi hdata
  obtain ⟨p,hp,hpmem⟩ := h.index.exists_pprev hi fun he => h.genesis_linked (he ▸ hzero)
  obtain ⟨v,heq,-⟩ := @receiveData_eq t i nTx hfail hzero
  have hindex := @Indexed.receiveData env t i nTx h.index hfail hzero
  have hactive := @Active.receiveData env t i tip nTx h.active hfail hzero
  have hcomplete := @CompleteFrom.receiveData env t i tip nTx h.complete hfail hzero
  have hchain : (t.receiveData i nTx).nChainTx = t.nChainTx := by rw [heq]
  have hadv : Advanced t (t.receiveData i nTx) := by
    rw [heq]
    exact Advanced.of_eq rfl rfl rfl rfl
  have hsound : SoundFrom env t tip → SoundFrom env (t.receiveData i nTx) tip := by
    rw [heq]
    exact id
  unfold TreeEnv.receivedBlockTransactions
  simp only [hp,hchain]
  split
  · rename_i hlinked
    obtain ⟨hok,hrel,hadv',hsound'⟩ := linkQueue_ok hindex
      (h.links.receiveData_linked hi hp hdata hfail hlinked) hactive hcomplete
    exact ⟨hok,hrel,hadv.trans hadv',fun hs => hsound' (hsound hs)⟩
  · rename_i hunlinked
    have hpzero : t.nChainTx p = 0 := not_not.mp hunlinked
    have hwaiting := fun {w} => @Linking.receiveData_waiting env t i nTx h.links p h.index hi hp
      hdata hfail hpzero w
    split
    · have hl := hwaiting (.inl rfl)
      rw [heq] at hindex hactive hcomplete hadv hsound hl ⊢
      exact ⟨⟨{ hindex with },hl,{ hactive with },hcomplete⟩,rfl,{ hadv with },hsound⟩
    · rename_i hvalid
      have hpfail : t.failed p = true := by
        by_contra hnf
        refine hvalid ?_
        have hlevel := hindex.tree p (by rw [heq]; exact hpmem)
        rw [heq] at hlevel ⊢
        unfold BlockTree.isValid
        simp only [Bool.and_eq_true,Bool.not_eq_true',decide_eq_true_eq]
        exact ⟨Bool.eq_false_iff.mpr hnf,hlevel⟩
      have hpdata : t.haveData p = false := by
        by_contra hd
        exact hparent p hp hpfail (by simpa using hd) hpzero
      have hl := hwaiting (.inr ⟨rfl,hpfail,hpdata⟩)
      rw [heq] at hindex hactive hcomplete hadv hsound hl ⊢
      exact ⟨⟨hindex,hl,hactive,hcomplete⟩,rfl,hadv,hsound⟩

end Receive

end Anoncoin
