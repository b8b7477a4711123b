import Anoncoin.BestChain
import Anoncoin.Lib.Runs

/-!
The assertions of `CheckBlockIndex` (main.cpp) over whole runs of calls.
-/

set_option autoImplicit false

namespace Anoncoin
open CBlockIndex Lib

section Check
variable {env : TreeEnv} {t : BlockTree} {tip i : CBlockIndex}

theorem firstWith_isNone {p : CBlockIndex → Bool} :
    (firstWith p i).isNone = true ↔ ∀ a ∈ i.ancestors, p a = false := by
  induction i with
  | genesis d =>
    unfold firstWith
    cases hp : p (.genesis d) <;> simp [hp]
  | child d q ih =>
    unfold firstWith
    cases hq : firstWith p q with
    | some b =>
      rw [hq] at ih
      simp only [Option.isNone_some,Bool.false_eq_true,false_iff] at ih ⊢
      exact fun h => ih fun a ha => h a (List.mem_cons_of_mem _ ha)
    | none =>
      rw [hq] at ih
      have hall := ih.mp rfl
      cases hp : p (.child d q) with
      | true => simp [hp]
      | false => simpa [hp] using hall

theorem firstWith_isSome {p : CBlockIndex → Bool} :
    (firstWith p i).isSome = true ↔ ∃ a ∈ i.ancestors, p a = true := by
  rw [← Option.not_isNone,Bool.not_eq_true',← Bool.not_eq_true,firstWith_isNone]
  simp

theorem firstMissing_isNone :
    (firstWith (fun a => !t.haveData a) i).isNone = true ↔ t.AllData i := by
  rw [firstWith_isNone]
  unfold BlockTree.AllData
  simp

theorem firstInvalid_isSome :
    (firstWith t.failedValid i).isSome = true ↔ ¬t.Clean i := by
  rw [firstWith_isSome]
  unfold BlockTree.Clean
  simp

/-- The parts of `CheckBlockIndex`. -/
theorem checkBlockIndex_iff : env.checkBlockIndex t = true ↔
    (t.mapBlockIndex.filter fun i => i.pprev.isNone).length = 1 ∧
    (∀ i ∈ t.mapBlockIndex, ∀ a ∈ i.ancestors, a ∈ t.mapBlockIndex) ∧
    ∀ i ∈ t.mapBlockIndex, env.checkEntry t i = true := by
  unfold TreeEnv.checkBlockIndex
  simp [and_assoc]

theorem root_unique {j : CBlockIndex}
    (h : (t.mapBlockIndex.filter fun i => i.pprev.isNone).length = 1)
    (hi : i ∈ t.mapBlockIndex) (hj : j ∈ t.mapBlockIndex) (hip : i.pprev = none)
    (hjp : j.pprev = none) : i = j := by
  obtain ⟨r,hr⟩ := List.length_eq_one_iff.mp h
  have hir : i ∈ t.mapBlockIndex.filter fun i => i.pprev.isNone :=
    List.mem_filter.mpr ⟨hi,by rw [hip]; rfl⟩
  have hjr : j ∈ t.mapBlockIndex.filter fun i => i.pprev.isNone :=
    List.mem_filter.mpr ⟨hj,by rw [hjp]; rfl⟩
  rw [hr] at hir hjr
  rw [List.mem_singleton.mp hir,List.mem_singleton.mp hjr]

/-- The assertions at an entry, one by one. -/
structure EntryChecked (env : TreeEnv) (t : BlockTree) (i : CBlockIndex) : Prop where
  root : (i.pprev.isSome || (i.data.hashBlock == env.net.hashGenesisBlock &&
    t.chainActive.genesis == some i)) = true
  missing : (firstWith (fun a => !t.haveData a) i).isSome = (t.nChainTx i == 0)
  work : (i.pprev.all fun p => decide (p.nChainWork ≤ i.nChainWork)) = true
  skip : (decide (i.nHeight < 2) || (t.pskip i).any fun s => decide (s.nHeight < i.nHeight)) = true
  tree : (firstWith (fun a => a.pprev.isSome &&
    decide ((t.validity a).level < Validity.tree.level)) i).isNone = true
  levels : ∀ v, v = Validity.chain ∨ v = Validity.scripts →
    (decide ((t.validity i).level < v.level) || (firstWith (fun a => a.pprev.isSome &&
      decide ((t.validity a).level < v.level)) i).isNone) = true
  failed : ((firstWith t.failedValid i).isSome || !t.failed i) = true
  candidate : (if !env.belowTip t i && (firstWith (fun a => !t.haveData a) i).isNone then
      (firstWith t.failedValid i).isSome || t.setBlockIndexCandidates.contains i
    else !t.setBlockIndexCandidates.contains i) = true
  unlinked : (if i.pprev.isSome && t.haveData i && (firstWith (fun a => !t.haveData a) i).isSome then
      (firstWith t.failedValid i).isSome || i.pprev.any fun p => t.mapBlocksUnlinked.contains (p,i)
    else !(i.pprev.any fun p => t.mapBlocksUnlinked.contains (p,i))) = true

theorem checkEntry_iff : env.checkEntry t i = true ↔ EntryChecked env t i := by
  have hheight : (i.nHeight+1 == i.ancestors.length) = true := by
    rw [CChain.length_ancestors,beq_self_eq_true]
  unfold TreeEnv.checkEntry
  simp only [hheight,Bool.and_true,Bool.and_eq_true,beq_iff_eq]
  constructor
  · rintro ⟨⟨⟨⟨⟨⟨⟨⟨⟨hroot,hmissing⟩,hwork⟩,hskip⟩,htree⟩,hchain⟩,hscripts⟩,hfailed⟩,hcand⟩,hunlinked⟩
    refine ⟨by simpa using hroot,hmissing,hwork,hskip,htree,?_,hfailed,by simpa using hcand,
      by simpa using hunlinked⟩
    rintro v (rfl | rfl)
    · exact hchain
    · exact hscripts
  · intro h
    exact ⟨⟨⟨⟨⟨⟨⟨⟨⟨by simpa using h.root,h.missing⟩,h.work⟩,h.skip⟩,h.tree⟩,h.levels _ (.inl rfl)⟩,
      h.levels _ (.inr rfl)⟩,h.failed⟩,by simpa using h.candidate⟩,by simpa using h.unlinked⟩

theorem EntryChecked.linked_iff (h : EntryChecked env t i) : t.nChainTx i ≠ 0 ↔ t.AllData i := by
  rw [← firstMissing_isNone,← Option.not_isSome,h.missing]
  simp

/-- The skip pointer leads down. -/
theorem skip_checked_of_built {pskip : CBlockIndex → Option CBlockIndex} (h : SkipBuilt pskip i) :
    (decide (i.nHeight < 2) || (pskip i).any fun s => decide (s.nHeight < i.nHeight)) = true := by
  cases i with
  | genesis d => rfl
  | child d p =>
    have hlt := @getSkipHeight_lt (child d p).nHeight (by simp [nHeight])
    have hheight : (child d p).nHeight = p.nHeight+1 := rfl
    obtain ⟨s,hs⟩ := @exists_ancestorAt p (getSkipHeight (child d p).nHeight) (by omega)
    have hsheight := (ancestorAt_eq_some.mp hs).2
    have hdown : s.nHeight < (child d p).nHeight := by omega
    rw [h _ (self_mem_ancestors _) p rfl,hs,Option.any_some,decide_eq_true hdown,Bool.or_true]

theorem TreeOk.firstMissing (h : TreeOk env t tip) (hi : i ∈ t.mapBlockIndex) :
    (firstWith (fun a => !t.haveData a) i).isSome = (t.nChainTx i == 0) := by
  rw [← Option.not_isNone]
  cases hz : t.nChainTx i == 0 with
  | true =>
    have hno : ¬t.AllData i := fun hall => (h.links.linked_iff hi).mpr hall (beq_iff_eq.mp hz)
    rw [Bool.not_eq_true',Bool.eq_false_iff]
    exact fun hn => hno (firstMissing_isNone.mp hn)
  | false =>
    have hall := (h.links.linked_iff hi).mp (by simpa using hz)
    rw [firstMissing_isNone.mpr hall]
    rfl

theorem TreeOk.root_checked (h : TreeOk env t tip) (hi : i ∈ t.mapBlockIndex) :
    (i.pprev.isSome || (i.data.hashBlock == env.net.hashGenesisBlock &&
      t.chainActive.genesis == some i)) = true := by
  by_cases hg : i = env.genesis
  · have hactive : t.chainActive.genesis = some i := by
      rw [h.active.chain]
      unfold CChain.genesis
      rw [CChain.pathTo_get,ancestorAt_eq_some,hg]
      exact ⟨h.index.root tip h.active.mem,rfl⟩
    have hhash : i.data.hashBlock = env.net.hashGenesisBlock := by
      rw [hg]
      exact env.genesis_hash
    simp [hactive,hhash]
  · obtain ⟨p,hp,-⟩ := h.index.exists_pprev hi hg
    simp [hp]

theorem levels_checked {v : Validity}
    (hv : ∀ a ∈ i.ancestors, a.pprev ≠ none → v.level ≤ (t.validity a).level) :
    (firstWith (fun a => a.pprev.isSome && decide ((t.validity a).level < v.level)) i).isNone =
      true := by
  rw [firstWith_isNone]
  intro a ha
  by_cases hap : a.pprev = none
  · simp [hap]
  · have hle := hv a ha hap
    simp only [Bool.and_eq_false_iff,decide_eq_false_iff_not]
    exact .inr (by omega)

/-- A validity level above that of transactions comes with the same for all ancestors. -/
theorem Indexed.validity_checked (h : Indexed env t) (hi : i ∈ t.mapBlockIndex) {v : Validity}
    (h4 : 4 ≤ v.level) (h5 : v.level ≤ 5) :
    (decide ((t.validity i).level < v.level) ||
      (firstWith (fun a => a.pprev.isSome &&
        decide ((t.validity a).level < v.level)) i).isNone) = true := by
  by_cases hl : (t.validity i).level < v.level
  · rw [decide_eq_true hl,Bool.true_or]
  · rw [levels_checked fun a ha hap => h5.trans (h.scripts i hi (by omega) a ha hap),Bool.or_true]

theorem TreeOk.candidate_checked (h : TreeOk env t tip) (hsound : SoundFrom env t tip)
    (hi : i ∈ t.mapBlockIndex) :
    (if !env.belowTip t i && (firstWith (fun a => !t.haveData a) i).isNone then
        (firstWith t.failedValid i).isSome || t.setBlockIndexCandidates.contains i
      else !t.setBlockIndexCandidates.contains i) = true := by
  split
  · rename_i hcond
    obtain ⟨hb,hm⟩ := Bool.and_eq_true_iff.mp hcond
    by_cases hc : t.Clean i
    · have hmem : i ∈ t.setBlockIndexCandidates := by
        refine h.complete i hi ((h.links.linked_iff hi).mpr (firstMissing_isNone.mp hm)) hc ?_
        rw [← not_lt,← TreeEnv.belowTip_iff h.active.chain]
        simpa using hb
      simp [hmem]
    · rw [firstInvalid_isSome.mpr hc]
      rfl
  · rename_i hcond
    by_contra hno
    have hmem : i ∈ t.setBlockIndexCandidates := by simpa using hno
    refine hcond (Bool.and_eq_true_iff.mpr ⟨?_,?_⟩)
    · have hle := hsound i hmem
      rw [← not_lt,← TreeEnv.belowTip_iff h.active.chain] at hle
      simpa using hle
    · exact firstMissing_isNone.mpr ((h.links.linked_iff hi).mp (h.links.candidates i hmem).2)

theorem TreeOk.unlinked_checked (h : TreeOk env t tip) (hi : i ∈ t.mapBlockIndex) :
    (if i.pprev.isSome && t.haveData i && (t.nChainTx i == 0) then
        (firstWith t.failedValid i).isSome ||
          i.pprev.any fun p => t.mapBlocksUnlinked.contains (p,i)
      else !(i.pprev.any fun p => t.mapBlocksUnlinked.contains (p,i))) = true := by
  cases hp : i.pprev with
  | none => simp
  | some p =>
    simp only [Option.isSome_some,Bool.true_and,Option.any_some]
    split
    · rename_i hcond
      obtain ⟨hd,hz⟩ := Bool.and_eq_true_iff.mp hcond
      rcases h.links.pending i hi p hp hd (beq_iff_eq.mp hz) with hu | hq | ⟨hf,-⟩
      · simp [hu]
      · exact absurd hq List.not_mem_nil
      · have hpm := h.index.closed i hi p (pprev_mem_ancestors hp)
        have hnc : ¬t.Clean i := fun hc =>
          h.index.marked p hpm hf (hc.ancestor (pprev_mem_ancestors hp))
        rw [firstInvalid_isSome.mpr hnc]
        rfl
    · rename_i hcond
      by_contra hno
      have hu : (p,i) ∈ t.mapBlocksUnlinked := by simpa using hno
      obtain ⟨-,-,hd,hz⟩ := h.links.unlinked p i hu
      exact hcond (by rw [hd,hz]; rfl)

/-- The traversal finds nothing to object to at an entry. -/
theorem checkEntry_ok (h : TreeOk env t tip) (hsound : SoundFrom env t tip) (hinc : Increasing t)
    (hi : i ∈ t.mapBlockIndex) : env.checkEntry t i = true := by
  have hwork : (i.pprev.all fun p => decide (p.nChainWork ≤ i.nChainWork)) = true := by
    cases hp : i.pprev with
    | none => rfl
    | some p => simpa using BitVec.le_of_lt (hinc i hi p hp)
  have htree := levels_checked (v := .tree) fun a ha _ => h.index.tree a (h.index.closed i hi a ha)
  have hfailed : ((firstWith t.failedValid i).isSome || !t.failed i) = true := by
    cases hf : t.failed i with
    | false => simp
    | true =>
      rw [firstInvalid_isSome.mpr (h.index.marked i hi hf)]
      rfl
  have hunlinked := h.unlinked_checked hi
  rw [← h.firstMissing hi] at hunlinked
  refine checkEntry_iff.mpr
    { root := h.root_checked hi
      missing := h.firstMissing hi
      work := hwork
      skip := skip_checked_of_built (h.index.skip i hi)
      tree := htree
      levels := ?_
      failed := hfailed
      candidate := h.candidate_checked hsound hi
      unlinked := hunlinked }
  rintro v (rfl | rfl)
  · exact h.index.validity_checked hi (by decide) (by decide)
  · exact h.index.validity_checked hi (by decide) (by decide)

theorem checkBlockIndex_ok (h : TreeOk env t tip) (hsound : SoundFrom env t tip)
    (hinc : Increasing t) : env.checkBlockIndex t = true := by
  have hone : (t.mapBlockIndex.filter fun i => i.pprev.isNone).length = 1 := by
    have hroots : ∀ i ∈ t.mapBlockIndex.filter fun i => i.pprev.isNone, i = env.genesis := by
      intro i hi
      obtain ⟨hm,hn⟩ := List.mem_filter.mp hi
      by_contra hne
      obtain ⟨p,hp,-⟩ := h.index.exists_pprev hm hne
      rw [hp] at hn
      contradiction
    have hgen : env.genesis ∈ t.mapBlockIndex.filter fun i => i.pprev.isNone :=
      List.mem_filter.mpr ⟨h.index.genesis,rfl⟩
    have hnodup := h.index.nodup.filter fun i => i.pprev.isNone
    have hperm : (t.mapBlockIndex.filter fun i => i.pprev.isNone).Perm [env.genesis] := by
      refine (List.perm_ext_iff_of_nodup hnodup (List.nodup_singleton _)).mpr fun i => ?_
      rw [List.mem_singleton]
      exact ⟨hroots i,fun he => he ▸ hgen⟩
    exact hperm.length_eq
  exact checkBlockIndex_iff.mpr ⟨hone,h.index.closed,fun i hi => checkEntry_ok h hsound hinc hi⟩

end Check

section Runs
variable {env : TreeEnv} {t t' : BlockTree} {tip : CBlockIndex}

/-- A header that is not known yet claims some work, and the sum of the work does not
overflow. -/
def Worked (env : TreeEnv) (t : BlockTree) (block : CBlockHeader) : Prop :=
  t.node.mapBlockIndex (env.net.getHash block) = none →
    0 < (getBlockProof block.nBits).toNat ∧
    ∀ p, t.node.findByFakeHash block.hashPrevBlock = some p →
      p.nChainWork.toNat+(getBlockProof block.nBits).toNat < 2^256

/-- The calls that keep the tree in order. -/
def Orderly (env : TreeEnv) (t : BlockTree) : TreeEvent → Prop
  | .acceptBlockHeader _ _ block => Worked env t block
  | .acceptBlock _ _ block _ => Worked env t block.toCBlockHeader ∧
      ParentLinks env t block.toCBlockHeader
  | .activateBestChain => True
  | .invalidateBlock _ => True

/-- A call and the state it leaves. -/
def TreeEnv.Steps (env : TreeEnv) (t : BlockTree) (e : TreeEvent) (t' : BlockTree) : Prop :=
  ∃ fuel, env.step fuel t e = some t'

theorem initial_mem {i : CBlockIndex} (h : i ∈ env.initial.mapBlockIndex) : i = env.genesis :=
  List.mem_singleton.mp h

theorem initial_ancestor {i a : CBlockIndex} (h : i ∈ env.initial.mapBlockIndex)
    (ha : a ∈ i.ancestors) : a = env.genesis := by
  rw [initial_mem h] at ha
  exact List.mem_singleton.mp ha

theorem initial_ok (env : TreeEnv) : TreeOk env env.initial env.genesis where
  index :=
    { nodup := List.nodup_singleton _
      genesis := List.mem_singleton_self _
      root := fun i hi => initial_mem hi ▸ self_mem_ancestors _
      closed := fun i hi a ha => initial_ancestor hi ha ▸ List.mem_singleton_self _
      hashes := fun i hi j hj _ => (initial_mem hi).trans (initial_mem hj).symm
      skip := by
        intro i hi a ha p hp
        rw [initial_ancestor hi ha] at hp
        simp [TreeEnv.genesis,pprev] at hp
      tree := by
        intro i hi
        rw [initial_mem hi]
        simp [TreeEnv.initial,Validity.level]
      transactions := by
        intro i hi _
        rw [initial_mem hi]
        simp [TreeEnv.initial,Validity.level]
      scripts := by
        intro i hi _ a ha hap
        rw [initial_ancestor hi ha] at hap
        exact absurd rfl hap
      marked := by
        intro i hi hf
        simp [TreeEnv.initial,BlockTree.failed] at hf }
  links :=
    { allData := by
        intro i hi _ a ha
        rw [initial_ancestor hi ha]
        simp [TreeEnv.initial]
      ancestors := by
        intro i hi _ a ha
        rw [initial_ancestor hi ha]
        simp [TreeEnv.initial]
      complete := by
        intro i hi _ hz
        rw [initial_mem hi] at hz
        simp [TreeEnv.initial] at hz
      sequence := by
        intro i hi _
        rw [initial_mem hi]
        simp [TreeEnv.initial]
      distinct := fun i hi j hj _ _ _ _ => (initial_mem hi).trans (initial_mem hj).symm
      candidates := by
        intro c hc
        rw [show c = env.genesis from List.mem_singleton.mp hc]
        simp [TreeEnv.initial]
      unlinked := fun p c hu => absurd hu List.not_mem_nil
      nodup := List.nodup_nil
      pending := by
        intro c hc p hp
        rw [initial_mem hc] at hp
        simp [TreeEnv.genesis,pprev] at hp
      queued := fun q hq => absurd hq List.not_mem_nil
      queue_nodup := List.nodup_nil
      queue_unlinked := fun q hq => absurd hq List.not_mem_nil }
  active :=
    { chain := rfl
      mem := List.mem_singleton_self _
      linked := by simp [TreeEnv.initial]
      undo := fun a ha hap => absurd (List.mem_singleton.mp ha ▸ rfl) hap
      scripts := fun a ha hap => absurd (List.mem_singleton.mp ha ▸ rfl) hap
      unfailed := fun a ha hap => absurd (List.mem_singleton.mp ha ▸ rfl) hap
      connects := by
        intro a ha
        rw [List.mem_singleton.mp ha]
        rfl
      genesis := rfl }
  complete := by
    intro i hi _ _ _
    rw [initial_mem hi]
    exact List.mem_singleton_self _

/-- What the calls keep, apart from where the tip is. -/
structure InOrder (env : TreeEnv) (t : BlockTree) (tip : CBlockIndex) : Prop where
  ok : TreeOk env t tip
  sound : SoundFrom env t tip
  increasing : Increasing t

theorem initial_inOrder (env : TreeEnv) : InOrder env env.initial env.genesis where
  ok := initial_ok env
  sound := by
    intro c hc
    rw [show c = env.genesis from List.mem_singleton.mp hc]
  increasing := by
    intro i hi p hp
    rw [initial_mem hi] at hp
    simp [TreeEnv.genesis,pprev] at hp

theorem acceptBlockHeader_increasing (h : TreeOk env t tip) (hinc : Increasing t) {now : Int}
    {work : Uint32} {block : CBlockHeader} {pindex : CBlockIndex} (hwork : Worked env t block)
    (hacc : env.acceptBlockHeader t now work block = .ok (pindex,t')) : Increasing t' := by
  rcases acceptBlockHeader_cases h.index hacc with ⟨-,-,-,rfl⟩ | ⟨hnew,p,hfind,hp,-,rfl,-,x,rfl⟩
  · exact hinc
  · obtain ⟨hpos,hsum⟩ := hwork hnew
    have hlt := hsum p hfind
    intro j hj q hq
    rcases List.mem_append.mp hj with hold | hj
    · exact hinc j hold q hq
    · rw [List.mem_singleton.mp hj] at hq ⊢
      obtain rfl := Option.some.inj hq
      rw [BitVec.lt_def]
      show p.nChainWork.toNat < (p.nChainWork+getBlockProof block.nBits).toNat
      rw [BitVec.toNat_add,Nat.mod_eq_of_lt hlt]
      omega

theorem receivedBlockTransactions_index (env : TreeEnv) (t : BlockTree) (i : CBlockIndex)
    (nTx : Nat) : (env.receivedBlockTransactions t i nTx).mapBlockIndex = t.mapBlockIndex := by
  have hdata : (t.receiveData i nTx).mapBlockIndex = t.mapBlockIndex := by
    unfold BlockTree.receiveData BlockTree.raiseValidity
    split <;> rfl
  have hqueue : ∀ queue t', t'.mapBlockIndex = t.mapBlockIndex →
      (env.linkQueue queue t').mapBlockIndex = t.mapBlockIndex := by
    intro queue t' h
    refine TreeEnv.linkQueue_invariant (fun _ t' => t'.mapBlockIndex = t.mapBlockIndex) ?_ h
    intro q queue t' h
    rw [@relinked_linkNext env t' q]
    exact h
  unfold TreeEnv.receivedBlockTransactions
  simp only
  split
  · exact hqueue _ _ hdata
  · split
    · exact hqueue _ _ hdata
    · split <;> exact hdata

theorem acceptBlock_increasing (h : TreeOk env t tip) (hinc : Increasing t) (now : Int)
    (work : Uint32) {block : CBlock} (answer : BlockAnswer)
    (hwork : Worked env t block.toCBlockHeader) :
    Increasing (env.acceptBlock t now work block answer).2 := by
  unfold TreeEnv.acceptBlock
  cases hacc : env.acceptBlockHeader t now work block.toCBlockHeader with
  | error e => exact hinc
  | ok r =>
    obtain ⟨i,t'⟩ := r
    have hinc' := acceptBlockHeader_increasing h hinc hwork hacc
    simp only
    split
    · exact hinc'
    · split
      · split <;> exact hinc'
      · intro j hj
        rw [receivedBlockTransactions_index] at hj
        exact hinc' j hj

/-- Every orderly call keeps the tree in order. -/
theorem Orderly.step {e : TreeEvent} (he : Orderly env t e) (h : InOrder env t tip)
    (hstep : env.Steps t e t') : ∃ tip', InOrder env t' tip' := by
  obtain ⟨fuel,hstep⟩ := hstep
  cases e with
  | acceptBlockHeader now work block =>
    simp only [TreeEnv.step] at hstep
    cases hacc : env.acceptBlockHeader t now work block with
    | error e =>
      rw [hacc] at hstep
      obtain rfl := Option.some.inj hstep
      exact ⟨tip,h⟩
    | ok r =>
      obtain ⟨i,t₁⟩ := r
      rw [hacc] at hstep
      obtain rfl := Option.some.inj hstep
      have hkept := (acceptBlockHeader_kept h.ok hacc).1
      exact ⟨tip,hkept.ok,hkept.sound h.sound,
        acceptBlockHeader_increasing h.ok h.increasing he hacc⟩
  | acceptBlock now work block answer =>
    obtain rfl := Option.some.inj hstep
    have hkept := acceptBlock_kept h.ok now work answer he.2
    exact ⟨tip,hkept.ok,hkept.sound h.sound,
      acceptBlock_increasing h.ok h.increasing now work answer he.1⟩
  | activateBestChain =>
    obtain ⟨fuel',t₁,tip',heq,hs,hexp,htop,hsound⟩ :=
      activateBestChain_ok h.ok.searching fun _ => h.increasing
    have heq₁ := activateBestChain_mono (le_max_left fuel fuel') hstep
    have heq₂ := activateBestChain_mono (le_max_right fuel fuel') heq
    rw [heq₂] at heq₁
    obtain rfl := Option.some.inj heq₁
    exact ⟨tip',hs.ok htop,hsound h.increasing h.sound,hexp.increasing h.increasing⟩
  | invalidateBlock i =>
    simp only [TreeEnv.step] at hstep
    split at hstep
    · rename_i hi
      obtain rfl := Option.some.inj hstep
      obtain ⟨tip',hok,-,-,hindex,hsound⟩ := invalidateBlock_ok h.ok hi
      refine ⟨tip',hok,hsound h.increasing h.sound,?_⟩
      intro j hj
      exact h.increasing j (hindex ▸ hj)
    · obtain rfl := Option.some.inj hstep
      exact ⟨tip,h⟩

theorem InOrder.returns (h : InOrder env t tip) (e : TreeEvent) : ∃ t', env.Steps t e t' := by
  cases e with
  | acceptBlockHeader now work block =>
    cases hacc : env.acceptBlockHeader t now work block with
    | error e => exact ⟨t,0,by simp only [TreeEnv.step,hacc]⟩
    | ok r => exact ⟨r.2,0,by simp only [TreeEnv.step,hacc]⟩
  | acceptBlock now work block answer => exact ⟨_,0,rfl⟩
  | activateBestChain =>
    obtain ⟨fuel,t',-,heq,-⟩ := activateBestChain_ok h.ok.searching fun _ => h.increasing
    exact ⟨t',fuel,heq⟩
  | invalidateBlock i =>
    by_cases hi : i ∈ t.mapBlockIndex
    · exact ⟨_,0,if_pos hi⟩
    · exact ⟨_,0,if_neg hi⟩

theorem inOrder_of_orderly_run (h : ReachableBy env.Steps (Orderly env) env.initial t) :
    ∃ tip, InOrder env t tip := by
  refine ReachableBy.invariant (fun t => ∃ tip, InOrder env t tip) h
    ⟨env.genesis,initial_inOrder env⟩ ?_
  intro s e s' hs he hstep
  obtain ⟨tip,hs⟩ := hs
  exact Orderly.step he hs hstep

instance (env : TreeEnv) (t : BlockTree) (block : CBlockHeader) :
    Decidable (Worked env t block) :=
  inferInstanceAs (Decidable (t.node.mapBlockIndex (env.net.getHash block) = none →
    0 < (getBlockProof block.nBits).toNat ∧
    ∀ p ∈ t.node.findByFakeHash block.hashPrevBlock,
      p.nChainWork.toNat+(getBlockProof block.nBits).toNat < 2^256))

instance (env : TreeEnv) (t : BlockTree) (block : CBlockHeader) :
    Decidable (ParentLinks env t block) :=
  inferInstanceAs (Decidable (∀ i ∈ t.node.mapBlockIndex (env.net.getHash block),
    ∀ p ∈ i.pprev, t.failed p = true → t.haveData p = true → t.nChainTx p ≠ 0))

instance (env : TreeEnv) (t : BlockTree) (e : TreeEvent) : Decidable (Orderly env t e) :=
  match e with
  | .acceptBlockHeader _ _ block => inferInstanceAs (Decidable (Worked env t block))
  | .acceptBlock _ _ block _ => inferInstanceAs (Decidable
      (Worked env t block.toCBlockHeader ∧ ParentLinks env t block.toCBlockHeader))
  | .activateBestChain => inferInstanceAs (Decidable True)
  | .invalidateBlock _ => inferInstanceAs (Decidable True)

/-- Every call of a run is orderly in the state that it meets. -/
def OrderlyRun (env : TreeEnv) (fuel : Nat) : BlockTree → List TreeEvent → Bool
  | _, [] => true
  | t, e :: rest => decide (Orderly env t e) &&
      (env.step fuel t e).all fun t' => OrderlyRun env fuel t' rest

theorem reachableBy_run {fuel : Nat} {s : BlockTree} {events : List TreeEvent}
    (hs : ReachableBy env.Steps (Orderly env) env.initial s)
    (hall : OrderlyRun env fuel s events = true) (hrun : env.run fuel s events = some t) :
    ReachableBy env.Steps (Orderly env) env.initial t := by
  induction events generalizing s with
  | nil =>
    obtain rfl := Option.some.inj hrun
    exact hs
  | cons e rest ih =>
    unfold TreeEnv.run at hrun
    rw [List.foldlM_cons] at hrun
    simp only [OrderlyRun,Bool.and_eq_true,decide_eq_true_eq] at hall
    cases hstep : env.step fuel s e with
    | none =>
      rw [hstep] at hrun
      contradiction
    | some s' =>
      rw [hstep] at hall hrun
      exact ih (hs.step hall.1 ⟨fuel,hstep⟩) hall.2 hrun

end Runs

/-- A network whose blocks all connect. -/
def freeEnv : TreeEnv where
  net := numberedNet
  genesisData := numberedNet.indexData steadyGenesis
  genesis_hash := by decide +kernel
  address _ := 0
  connectBlock _ := true

/-- The header with a number of its own on top of the block with the number `prev`. -/
def numberedHeader (prev number : Nat) (nBits : Uint32) : CBlockHeader where
  nVersion := 2
  hashPrevBlock := BitVec.ofNat 256 (prev+1)
  hashMerkleRoot := 0
  nTime := 1
  nBits := nBits
  nNonce := BitVec.ofNat 32 number
  nHeight := 0

def lonelyCoinbase : CTransaction := ⟨1,[⟨⟨0,4294967295⟩,[0x51,0x51],4294967295⟩],[⟨0,[]⟩],0⟩

def headerArrives (prev number : Nat) (nBits : Uint32) : TreeEvent :=
  .acceptBlockHeader 10 0 (numberedHeader prev number nBits)

def blockArrives (prev number : Nat) (nBits : Uint32) : TreeEvent :=
  .acceptBlock 10 0 ⟨numberedHeader prev number nBits,[lonelyCoinbase]⟩ .valid

/-- The entry of a numbered block. -/
def numberedEntry (prev : CBlockIndex) (number : Nat) (nBits : Uint32) : CBlockIndex :=
  .child (numberedNet.indexData
    (numberedHeader (prev.data.hashBlock.toNat-1) number nBits)) prev

/-- A child whose data comes before that of its parent, and then the active chain. -/
def orderlyEvents : List TreeEvent :=
  [headerArrives 0 1 0x1e0ffff0,headerArrives 1 2 0x1e0ffff0,blockArrives 1 2 0x1e0ffff0,
    blockArrives 0 1 0x1e0ffff0,.activateBestChain]

/-- The data of a block arrives while its parent, which waits for its own parent, was
invalidated. -/
def lateDataEvents : List TreeEvent :=
  [headerArrives 0 1 0x1e0ffff0,headerArrives 1 2 0x1e0ffff0,headerArrives 2 3 0x1e0ffff0,
    blockArrives 1 2 0x1e0ffff0,
    .invalidateBlock (numberedEntry (numberedEntry freeEnv.genesis 1 0x1e0ffff0) 2 0x1e0ffff0),
    blockArrives 2 3 0x1e0ffff0,blockArrives 0 1 0x1e0ffff0]

/-- Two blocks without work on genesis, and a third on the second of them, which is
invalidated. -/
def noWorkEvents : List TreeEvent :=
  [blockArrives 0 1 0,blockArrives 0 2 0,blockArrives 2 3 0x1e0ffff0,.activateBestChain,
    .invalidateBlock (numberedEntry (numberedEntry freeEnv.genesis 2 0) 3 0x1e0ffff0),
    .activateBestChain]

end Anoncoin
