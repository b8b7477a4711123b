import Anoncoin.CheckBlockIndex

/-!
`ReconsiderBlock` (main.cpp): what it leaves of the failure marks and the candidates, and
when the assertions of `CheckBlockIndex` hold again after it.
-/

set_option autoImplicit false

namespace Anoncoin
open CBlockIndex

namespace BlockTree

/-- The clearing of `BLOCK_FAILED_MASK`. -/
def clearFailed (t : BlockTree) (i : CBlockIndex) : BlockTree :=
  { t with
    failedValid := Function.update t.failedValid i false
    failedChild := Function.update t.failedChild i false }

/-- The walk of `ReconsiderBlock` from the block down to genesis. -/
def clearAncestors : CBlockIndex → BlockTree → BlockTree
  | i@(.genesis _), t => if t.failed i then t.clearFailed i else t
  | i@(.child _ pprev), t => clearAncestors pprev (if t.failed i then t.clearFailed i else t)

/-- `GetAncestor` leads from the entry to the block. -/
def descends (t : BlockTree) (pindex i : CBlockIndex) : Bool :=
  i.getAncestor t.pskip pindex.nHeight == some pindex

end BlockTree

namespace TreeEnv
variable (env : TreeEnv)

/-- The comparison with the tip, the other way round. -/
def aboveTip (t : BlockTree) (i : CBlockIndex) : Bool :=
  t.chainActive.tip.any fun tip => env.workComparator t tip i

/-- One round of the loop of `ReconsiderBlock` over `mapBlockIndex`. -/
def reconsiderEntry (pindex : CBlockIndex) (t : BlockTree) (i : CBlockIndex) : BlockTree :=
  if !t.isValid i .transactions && t.descends pindex i then
    let t := t.clearFailed i
    let t := if t.isValid i .transactions && t.nChainTx i != 0 && env.aboveTip t i then
      t.insertCandidate i else t
    if t.pindexBestInvalid = some i then { t with pindexBestInvalid := none } else t
  else t

/-- `ReconsiderBlock`. -/
def reconsiderBlock (t : BlockTree) (pindex : CBlockIndex) : BlockTree :=
  (t.mapBlockIndex.foldl (env.reconsiderEntry pindex) t).clearAncestors pindex

end TreeEnv

namespace BlockTree

/-- The tree with other marks and candidates. -/
def remark (t : BlockTree) (failedValid failedChild : CBlockIndex → Bool)
    (candidates : List CBlockIndex) (best : Option CBlockIndex) : BlockTree :=
  { t with
    failedValid := failedValid
    failedChild := failedChild
    setBlockIndexCandidates := candidates
    pindexBestInvalid := best }

/-- A tree that differs from another one in its marks and candidates alone. -/
def Remarked (t t' : BlockTree) : Prop :=
  t' = t.remark t'.failedValid t'.failedChild t'.setBlockIndexCandidates t'.pindexBestInvalid

end BlockTree

section Loops
variable {env : TreeEnv} {t s : BlockTree} {pindex i j : CBlockIndex}

/-- An entry that the loop over `mapBlockIndex` makes a candidate. -/
structure Readded (env : TreeEnv) (t : BlockTree) (pindex i : CBlockIndex) : Prop where
  descends : t.descends pindex i = true
  failed : t.failed i = true
  transactions : Validity.transactions.level ≤ (t.validity i).level
  linked : t.nChainTx i ≠ 0
  above : env.aboveTip t i = true

/-- The tree after the loop has visited the entries `done`. -/
structure Visited (env : TreeEnv) (t : BlockTree) (pindex : CBlockIndex) (done : List CBlockIndex)
    (s : BlockTree) : Prop where
  rest : t.Remarked s
  failedValid : ∀ i, s.failedValid i = true ↔
    t.failedValid i = true ∧ ¬(i ∈ done ∧ t.descends pindex i = true)
  failedChild : ∀ i, s.failedChild i = true ↔
    t.failedChild i = true ∧ ¬(i ∈ done ∧ t.descends pindex i = true)
  candidates : ∀ i, i ∈ s.setBlockIndexCandidates ↔
    i ∈ t.setBlockIndexCandidates ∨ (i ∈ done ∧ Readded env t pindex i)

theorem BlockTree.Remarked.trans {u : BlockTree} (h : t.Remarked s) (h' : s.Remarked u) :
    t.Remarked u := by
  unfold BlockTree.Remarked at h h' ⊢
  rw [h] at h'
  exact h'

theorem BlockTree.failed_eq_true : t.failed i = true ↔
    t.failedValid i = true ∨ t.failedChild i = true := Bool.or_eq_true_iff

theorem not_isValid_iff : (!t.isValid i .transactions) = true ↔
    t.failed i = true ∨ (t.validity i).level < Validity.transactions.level := by
  unfold BlockTree.isValid
  simp only [Bool.not_and,Bool.not_not,Bool.or_eq_true,Bool.not_eq_true',decide_eq_false_iff_not,
    not_le]

theorem clearFailed_isValid : (t.clearFailed i).isValid i .transactions = true ↔
    Validity.transactions.level ≤ (t.validity i).level := by
  unfold BlockTree.isValid BlockTree.failed BlockTree.clearFailed
  simp

theorem remarked_reconsiderEntry (env : TreeEnv) (pindex : CBlockIndex) (t : BlockTree)
    (i : CBlockIndex) : t.Remarked (env.reconsiderEntry pindex t i) := by
  unfold TreeEnv.reconsiderEntry
  split
  · simp only
    split <;> split <;> rfl
  · rfl

theorem reconsiderEntry_failedValid (env : TreeEnv) (pindex : CBlockIndex) (t : BlockTree)
    (i : CBlockIndex) : (env.reconsiderEntry pindex t i).failedValid =
      if !t.isValid i .transactions && t.descends pindex i then
        Function.update t.failedValid i false else t.failedValid := by
  unfold TreeEnv.reconsiderEntry
  split
  · simp only
    split <;> split <;> rfl
  · rfl

theorem reconsiderEntry_failedChild (env : TreeEnv) (pindex : CBlockIndex) (t : BlockTree)
    (i : CBlockIndex) : (env.reconsiderEntry pindex t i).failedChild =
      if !t.isValid i .transactions && t.descends pindex i then
        Function.update t.failedChild i false else t.failedChild := by
  unfold TreeEnv.reconsiderEntry
  split
  · simp only
    split <;> split <;> rfl
  · rfl

theorem reconsiderEntry_candidates (env : TreeEnv) (pindex : CBlockIndex) (t : BlockTree)
    (i : CBlockIndex) : j ∈ (env.reconsiderEntry pindex t i).setBlockIndexCandidates ↔
      j ∈ t.setBlockIndexCandidates ∨ (j = i ∧ Readded env t pindex i) := by
  unfold TreeEnv.reconsiderEntry
  by_cases hcond : (!t.isValid i .transactions && t.descends pindex i) = true
  · rw [if_pos hcond]
    obtain ⟨hinvalid,hdesc⟩ := Bool.and_eq_true_iff.mp hcond
    have hadd : ((t.clearFailed i).isValid i .transactions && (t.clearFailed i).nChainTx i != 0 &&
        env.aboveTip (t.clearFailed i) i) = true ↔ Readded env t pindex i := by
      rw [Bool.and_eq_true,Bool.and_eq_true,clearFailed_isValid,bne_iff_ne]
      constructor
      · rintro ⟨⟨hlevel,hlinked⟩,habove⟩
        rcases not_isValid_iff.mp hinvalid with hf | hlow
        · exact ⟨hdesc,hf,hlevel,hlinked,habove⟩
        · omega
      · intro h
        exact ⟨⟨h.transactions,h.linked⟩,h.above⟩
    simp only
    by_cases hr : Readded env t pindex i
    · rw [if_pos (hadd.mpr hr)]
      have hmem : j ∈ t.setBlockIndexCandidates.insert i ↔
          j ∈ t.setBlockIndexCandidates ∨ (j = i ∧ Readded env t pindex i) := by
        rw [List.mem_insert_iff]
        tauto
      split <;> exact hmem
    · rw [if_neg fun h => hr (hadd.mp h)]
      have hmem : j ∈ t.setBlockIndexCandidates ↔
          j ∈ t.setBlockIndexCandidates ∨ (j = i ∧ Readded env t pindex i) := by tauto
      split <;> exact hmem
  · rw [if_neg hcond]
    constructor
    · exact Or.inl
    · rintro (h | ⟨-,hr⟩)
      · exact h
      · exact absurd (Bool.and_eq_true_iff.mpr ⟨not_isValid_iff.mpr (.inl hr.failed),hr.descends⟩)
          hcond

/-- A round clears the marks of its entry when this is a descendant, and no others. -/
theorem cleared_iff {f : CBlockIndex → Bool} (hf : f i = true → t.failed i = true) :
    (if !t.isValid i .transactions && t.descends pindex i then Function.update f i false
      else f) j = true ↔ f j = true ∧ ¬(j = i ∧ t.descends pindex i = true) := by
  by_cases hji : j = i
  · subst hji
    split
    · rename_i hcond
      rw [Function.update_self]
      simp [(Bool.and_eq_true_iff.mp hcond).2]
    · rename_i hcond
      have himp : f j = true → ¬t.descends pindex j = true := fun h hd =>
        hcond (Bool.and_eq_true_iff.mpr ⟨not_isValid_iff.mpr (.inl (hf h)),hd⟩)
      tauto
  · split
    · rw [Function.update_of_ne hji]
      tauto
    · tauto

theorem Visited.nil : Visited env t pindex [] t where
  rest := rfl
  failedValid := by simp
  failedChild := by simp
  candidates := by simp

theorem Visited.failed {done : List CBlockIndex} (h : Visited env t pindex done s) :
    s.failed i = true ↔ t.failed i = true ∧ ¬(i ∈ done ∧ t.descends pindex i = true) := by
  rw [BlockTree.failed_eq_true,BlockTree.failed_eq_true,h.failedValid,h.failedChild]
  tauto

theorem Visited.descends {done : List CBlockIndex} (h : Visited env t pindex done s) :
    s.descends pindex i = t.descends pindex i := by
  rw [h.rest]
  rfl

theorem Visited.readded {done : List CBlockIndex} (h : Visited env t pindex done s) :
    Readded env s pindex i ↔ Readded env t pindex i ∧ i ∉ done := by
  have hval : s.validity i = t.validity i := by rw [h.rest]; rfl
  have hlinked : s.nChainTx i = t.nChainTx i := by rw [h.rest]; rfl
  have habove : env.aboveTip s i = env.aboveTip t i := by rw [h.rest]; rfl
  constructor
  · intro hr
    obtain ⟨hf,hnot⟩ := h.failed.mp hr.failed
    have hd := h.descends ▸ hr.descends
    exact ⟨⟨hd,hf,hval ▸ hr.transactions,hlinked ▸ hr.linked,habove ▸ hr.above⟩,
      fun hm => hnot ⟨hm,hd⟩⟩
  · rintro ⟨hr,hnot⟩
    exact ⟨h.descends.trans hr.descends,h.failed.mpr ⟨hr.failed,fun hm => hnot hm.1⟩,
      hval ▸ hr.transactions,hlinked ▸ hr.linked,habove.trans hr.above⟩

theorem Visited.step {done : List CBlockIndex} (h : Visited env t pindex done s)
    (i : CBlockIndex) : Visited env t pindex (done ++ [i]) (env.reconsiderEntry pindex s i) where
  rest := h.rest.trans (remarked_reconsiderEntry env pindex s i)
  failedValid := by
    intro j
    rw [reconsiderEntry_failedValid,cleared_iff fun h => BlockTree.failed_eq_true.mpr (.inl h),
      h.failedValid,h.descends,List.mem_append,List.mem_singleton]
    grind
  failedChild := by
    intro j
    rw [reconsiderEntry_failedChild,cleared_iff fun h => BlockTree.failed_eq_true.mpr (.inr h),
      h.failedChild,h.descends,List.mem_append,List.mem_singleton]
    grind
  candidates := by
    intro j
    rw [reconsiderEntry_candidates,h.candidates,h.readded,List.mem_append,List.mem_singleton]
    constructor
    · rintro ((hc | ⟨hd,hr⟩) | ⟨rfl,hr,-⟩)
      · exact .inl hc
      · exact .inr ⟨.inl hd,hr⟩
      · exact .inr ⟨.inr rfl,hr⟩
    · rintro (hc | ⟨hd | rfl,hr⟩)
      · exact .inl (.inl hc)
      · exact .inl (.inr ⟨hd,hr⟩)
      · by_cases hd : j ∈ done
        · exact .inl (.inr ⟨hd,hr⟩)
        · exact .inr ⟨rfl,hr,hd⟩

theorem visited_foldl (env : TreeEnv) (t : BlockTree) (pindex : CBlockIndex)
    (l : List CBlockIndex) : Visited env t pindex l (l.foldl (env.reconsiderEntry pindex) t) := by
  induction l using List.reverseRecOn with
  | nil => exact Visited.nil
  | append_singleton l i ih =>
    rw [List.foldl_append]
    exact ih.step i

theorem remarked_clearAncestors (pindex : CBlockIndex) (t : BlockTree) :
    t.Remarked (t.clearAncestors pindex) := by
  induction pindex generalizing t with
  | genesis d =>
    unfold BlockTree.clearAncestors
    split <;> rfl
  | child d p ih =>
    unfold BlockTree.clearAncestors
    refine BlockTree.Remarked.trans ?_ (ih _)
    split <;> rfl

theorem clearFailed_mark (t : BlockTree) (i j : CBlockIndex) :
    ((if t.failed i then t.clearFailed i else t).failedValid j = true ↔
      t.failedValid j = true ∧ j ≠ i) ∧
    ((if t.failed i then t.clearFailed i else t).failedChild j = true ↔
      t.failedChild j = true ∧ j ≠ i) := by
  by_cases hf : t.failed i = true
  · rw [if_pos hf]
    unfold BlockTree.clearFailed
    by_cases hji : j = i
    · simp [hji]
    · simp [hji]
  · rw [if_neg hf]
    have hnot := fun h => hf (BlockTree.failed_eq_true.mpr h)
    constructor
    · constructor
      · exact fun h => ⟨h,fun he => hnot (.inl (he ▸ h))⟩
      · exact And.left
    · constructor
      · exact fun h => ⟨h,fun he => hnot (.inr (he ▸ h))⟩
      · exact And.left

theorem clearAncestors_marks (pindex : CBlockIndex) (t : BlockTree) (j : CBlockIndex) :
    ((t.clearAncestors pindex).failedValid j = true ↔
      t.failedValid j = true ∧ j ∉ pindex.ancestors) ∧
    ((t.clearAncestors pindex).failedChild j = true ↔
      t.failedChild j = true ∧ j ∉ pindex.ancestors) ∧
    (t.clearAncestors pindex).setBlockIndexCandidates = t.setBlockIndexCandidates := by
  induction pindex generalizing t with
  | genesis d =>
    unfold BlockTree.clearAncestors
    rw [ancestors_genesis,List.mem_singleton]
    refine ⟨(clearFailed_mark t _ j).1,(clearFailed_mark t _ j).2,?_⟩
    split <;> rfl
  | child d p ih =>
    unfold BlockTree.clearAncestors
    obtain ⟨hvalid,hchild,hcand⟩ := ih (if t.failed (.child d p) then t.clearFailed (.child d p) else t)
    rw [hvalid,hchild,hcand,(clearFailed_mark t _ j).1,(clearFailed_mark t _ j).2,ancestors_child,
      List.mem_cons]
    refine ⟨by tauto,by tauto,?_⟩
    split <;> rfl

end Loops

section Repair
variable {env : TreeEnv} {t s : BlockTree} {pindex i j : CBlockIndex}

/-- The entry is an ancestor of the block, the block itself, or a descendant. -/
def BlockTree.OnBranch (t : BlockTree) (pindex i : CBlockIndex) : Prop :=
  i ∈ pindex.ancestors ∨ t.descends pindex i = true

theorem remarked_reconsiderBlock (env : TreeEnv) (t : BlockTree) (pindex : CBlockIndex) :
    t.Remarked (env.reconsiderBlock t pindex) :=
  (visited_foldl env t pindex t.mapBlockIndex).rest.trans (remarked_clearAncestors pindex _)

theorem reconsiderBlock_failedValid (hi : i ∈ t.mapBlockIndex) :
    (env.reconsiderBlock t pindex).failedValid i = true ↔
      t.failedValid i = true ∧ ¬t.OnBranch pindex i := by
  unfold TreeEnv.reconsiderBlock BlockTree.OnBranch
  rw [(clearAncestors_marks pindex _ i).1,(visited_foldl env t pindex t.mapBlockIndex).failedValid]
  tauto

theorem reconsiderBlock_failedChild (hi : i ∈ t.mapBlockIndex) :
    (env.reconsiderBlock t pindex).failedChild i = true ↔
      t.failedChild i = true ∧ ¬t.OnBranch pindex i := by
  unfold TreeEnv.reconsiderBlock BlockTree.OnBranch
  rw [(clearAncestors_marks pindex _ i).2.1,
    (visited_foldl env t pindex t.mapBlockIndex).failedChild]
  tauto

theorem reconsiderBlock_candidates (hi : i ∈ t.mapBlockIndex) :
    i ∈ (env.reconsiderBlock t pindex).setBlockIndexCandidates ↔
      i ∈ t.setBlockIndexCandidates ∨ Readded env t pindex i := by
  unfold TreeEnv.reconsiderBlock
  rw [(clearAncestors_marks pindex _ i).2.2,(visited_foldl env t pindex t.mapBlockIndex).candidates]
  tauto

/-- The assertions of `CheckBlockIndex` at one entry that depend on marks and candidates. -/
structure MarksChecked (env : TreeEnv) (t : BlockTree) (i : CBlockIndex) : Prop where
  unfailed : t.Clean i → t.failed i = false
  candidate : t.nChainTx i ≠ 0 → env.belowTip t i = false → t.Clean i →
    i ∈ t.setBlockIndexCandidates
  sorted : i ∈ t.setBlockIndexCandidates → t.nChainTx i ≠ 0 ∧ env.belowTip t i = false
  unlinked : ∀ p, i.pprev = some p → t.haveData i = true → t.nChainTx i = 0 → t.Clean i →
    (p,i) ∈ t.mapBlocksUnlinked
  waiting : ∀ p, i.pprev = some p → (p,i) ∈ t.mapBlocksUnlinked →
    t.haveData i = true ∧ t.nChainTx i = 0

theorem guarded_iff {guard excused found : Bool} :
    (if guard then excused || found else !found) = true ↔
      (guard = true → excused = false → found = true) ∧ (found = true → guard = true) := by
  cases guard <;> cases excused <;> cases found <;> decide

theorem firstInvalid_isSome_eq_false :
    (firstWith t.failedValid i).isSome = false ↔ t.Clean i := by
  rw [← Bool.not_eq_true,firstInvalid_isSome,not_not]

theorem EntryChecked.marksChecked (h : EntryChecked env t i) : MarksChecked env t i := by
  have hnone : (firstWith (fun a => !t.haveData a) i).isNone = (t.nChainTx i != 0) := by
    rw [← Option.not_isSome,h.missing]
    rfl
  obtain ⟨hcand,hsorted⟩ := guarded_iff.mp h.candidate
  obtain ⟨hneed,hfound⟩ := guarded_iff.mp h.unlinked
  simp only [hnone,h.missing,Bool.and_eq_true,Bool.not_eq_true',bne_iff_ne,beq_iff_eq,
    List.contains_iff_mem,firstInvalid_isSome_eq_false] at hcand hsorted hneed hfound
  constructor
  · intro hc
    have hfailed := h.failed
    rw [firstInvalid_isSome_eq_false.mpr hc] at hfailed
    simpa using hfailed
  · exact fun hl hb hc => hcand ⟨hb,hl⟩ hc
  · exact fun hm => ⟨(hsorted hm).2,(hsorted hm).1⟩
  · intro p hp hd hz hc
    rw [hp] at hneed
    simpa using hneed ⟨⟨rfl,hd⟩,hz⟩ hc
  · intro p hp hm
    rw [hp] at hfound
    obtain ⟨⟨-,hd⟩,hz⟩ := hfound (by simpa using hm)
    exact ⟨hd,hz⟩

/-- Other marks and candidates need only their own assertions checked again. -/
theorem EntryChecked.remarked (h : EntryChecked env t i) (hs : t.Remarked s)
    (hm : MarksChecked env s i) : EntryChecked env s i := by
  have hmissing : (firstWith (fun a => !s.haveData a) i).isSome = (s.nChainTx i == 0) := by
    rw [hs]
    exact h.missing
  have hnone : (firstWith (fun a => !s.haveData a) i).isNone = (s.nChainTx i != 0) := by
    rw [← Option.not_isSome,hmissing]
    rfl
  refine
    { root := by rw [hs]; exact h.root
      missing := hmissing
      work := h.work
      skip := by rw [hs]; exact h.skip
      tree := by rw [hs]; exact h.tree
      levels := by rw [hs]; exact h.levels
      failed := ?_
      candidate := guarded_iff.mpr ⟨?_,?_⟩
      unlinked := guarded_iff.mpr ⟨?_,?_⟩ }
  · by_cases hc : s.Clean i
    · rw [hm.unfailed hc,Bool.not_false,Bool.or_true]
    · rw [firstInvalid_isSome.mpr hc,Bool.true_or]
  · rw [hnone,firstInvalid_isSome_eq_false]
    intro hguard hc
    obtain ⟨hb,hl⟩ := Bool.and_eq_true_iff.mp hguard
    simpa using hm.candidate (by simpa using hl) (by simpa using hb) hc
  · intro hf
    obtain ⟨hl,hb⟩ := hm.sorted (by simpa using hf)
    rw [hnone,hb]
    simpa using hl
  · rw [hmissing,firstInvalid_isSome_eq_false]
    intro hguard hc
    simp only [Bool.and_eq_true,beq_iff_eq] at hguard
    obtain ⟨⟨hp,hd⟩,hz⟩ := hguard
    obtain ⟨p,hp⟩ := Option.isSome_iff_exists.mp hp
    rw [hp]
    simpa using hm.unlinked p hp hd hz hc
  · intro hf
    obtain ⟨p,hp,hf⟩ := (Option.any_eq_true ..).mp hf
    obtain ⟨hd,hz⟩ := hm.waiting p hp (by simpa using hf)
    rw [hmissing,hp,hd,hz]
    rfl

theorem belowTip_eq_false (h : env.aboveTip t i = true) : env.belowTip t i = false := by
  unfold TreeEnv.aboveTip at h
  unfold TreeEnv.belowTip
  cases htip : t.chainActive.tip with
  | none => rfl
  | some tip =>
    rw [htip,Option.any_some] at h
    rw [Option.any_some]
    unfold TreeEnv.workComparator at h ⊢
    grind

/-- A tree in repair: a mark for a failed ancestor has its cause, no block that could be the
next tip is forgotten, and `CheckBlockIndex` passes. -/
structure Repaired (env : TreeEnv) (t : BlockTree) : Prop where
  marks : ∀ i ∈ t.mapBlockIndex, t.failedChild i = true →
    ∃ a ∈ i.ancestors, t.failedValid a = true
  candidates : ∀ i ∈ t.mapBlockIndex, t.nChainTx i ≠ 0 →
    (∀ a ∈ i.ancestors, t.failed a = false) → env.aboveTip t i = true →
    i ∈ t.setBlockIndexCandidates
  checked : env.checkBlockIndex t = true

theorem marksChecked_of_mem (h : env.checkBlockIndex t = true) (hi : i ∈ t.mapBlockIndex) :
    MarksChecked env t i :=
  (checkEntry_iff.mp ((checkBlockIndex_iff.mp h).2.2 i hi)).marksChecked

/-- The first two parts of a repaired tree are among what `CheckBlockIndex` asserts. -/
theorem repaired_of_checked (h : env.checkBlockIndex t = true) : Repaired env t where
  marks := by
    intro i hi hmark
    by_contra hno
    have hclean : t.Clean i := fun a ha => by simpa using fun hf => hno ⟨a,ha,hf⟩
    have hfalse := (marksChecked_of_mem h hi).unfailed hclean
    rw [BlockTree.failed_eq_true.mpr (.inr hmark)] at hfalse
    contradiction
  candidates := by
    intro i hi hlinked hunfailed habove
    refine (marksChecked_of_mem h hi).candidate hlinked (belowTip_eq_false habove) fun a ha => ?_
    rw [← Bool.not_eq_true]
    intro hf
    have hfalse := hunfailed a ha
    rw [BlockTree.failed_eq_true.mpr (.inl hf)] at hfalse
    contradiction
  checked := h

theorem checkBlockIndex_remarked_iff (h : env.checkBlockIndex t = true) (hs : t.Remarked s) :
    env.checkBlockIndex s = true ↔ ∀ i ∈ t.mapBlockIndex, MarksChecked env s i := by
  have hindex : s.mapBlockIndex = t.mapBlockIndex := by rw [hs]; rfl
  obtain ⟨hroot,hclosed,hentries⟩ := checkBlockIndex_iff.mp h
  constructor
  · intro hc i hi
    exact marksChecked_of_mem hc (hindex ▸ hi)
  · intro hmarks
    refine checkBlockIndex_iff.mpr ⟨hindex ▸ hroot,hindex ▸ hclosed,?_⟩
    rw [hindex]
    intro i hi
    exact checkEntry_iff.mpr ((checkEntry_iff.mp (hentries i hi)).remarked hs (hmarks i hi))

/-- The entry has ancestors that were found invalid, and `ReconsiderBlock` clears the marks
of all of them. -/
structure Freed (t : BlockTree) (pindex i : CBlockIndex) : Prop where
  invalid : ¬t.Clean i
  onBranch : ∀ a ∈ i.ancestors, t.failedValid a = true → t.OnBranch pindex a

/-- What the bookkeeping of `ReconsiderBlock` needs of an entry that is valid again. -/
structure Restorable (env : TreeEnv) (t : BlockTree) (pindex i : CBlockIndex) : Prop where
  marks : t.failedChild i = true → t.OnBranch pindex i
  candidates : t.nChainTx i ≠ 0 → env.belowTip t i = false →
    i ∈ t.setBlockIndexCandidates ∨ Readded env t pindex i
  unlinked : ∀ p, i.pprev = some p → t.haveData i = true → t.nChainTx i = 0 →
    (p,i) ∈ t.mapBlocksUnlinked

theorem clean_reconsiderBlock (h : env.checkBlockIndex t = true) (hi : i ∈ t.mapBlockIndex) :
    (env.reconsiderBlock t pindex).Clean i ↔
      ∀ a ∈ i.ancestors, t.failedValid a = true → t.OnBranch pindex a := by
  refine forall₂_congr fun a ha => ?_
  rw [← Bool.not_eq_true,reconsiderBlock_failedValid ((checkBlockIndex_iff.mp h).2.1 i hi a ha),
    not_and_not_right]

theorem marksChecked_reconsiderBlock (h : env.checkBlockIndex t = true)
    (hi : i ∈ t.mapBlockIndex) :
    MarksChecked env (env.reconsiderBlock t pindex) i ↔
      (Freed t pindex i → Restorable env t pindex i) := by
  have hold := marksChecked_of_mem h hi
  have hs := remarked_reconsiderBlock env t pindex
  have hclean := @clean_reconsiderBlock env t pindex i h hi
  have hcand := @reconsiderBlock_candidates env t pindex i hi
  have hchild := @reconsiderBlock_failedChild env t pindex i hi
  generalize hr : env.reconsiderBlock t pindex = s at *
  have hlinked : s.nChainTx = t.nChainTx := by rw [hs]; rfl
  have hbelow : env.belowTip s i = env.belowTip t i := by rw [hs]; rfl
  have hdata : s.haveData = t.haveData := by rw [hs]; rfl
  have hunlinked : s.mapBlocksUnlinked = t.mapBlocksUnlinked := by rw [hs]; rfl
  constructor
  · intro hm hfreed
    have hc := hclean.mpr hfreed.onBranch
    constructor
    · intro hmark
      by_contra hoff
      have hfalse := hm.unfailed hc
      rw [BlockTree.failed_eq_true.mpr (.inr (hchild.mpr ⟨hmark,hoff⟩))] at hfalse
      contradiction
    · intro hl hb
      exact hcand.mp (hm.candidate (hlinked ▸ hl) (hbelow ▸ hb) hc)
    · intro p hp hd hz
      exact hunlinked ▸ hm.unlinked p hp (hdata ▸ hd) (hlinked ▸ hz) hc
  · intro hrest
    have hfreed : ¬t.Clean i → s.Clean i → Restorable env t pindex i := fun hc hsc =>
      hrest ⟨hc,hclean.mp hsc⟩
    constructor
    · intro hsc
      rw [← Bool.not_eq_true]
      intro hf
      rcases BlockTree.failed_eq_true.mp hf with hv | hf
      · rw [hsc i (self_mem_ancestors i)] at hv
        contradiction
      · obtain ⟨hmark,hoff⟩ := hchild.mp hf
        have hinvalid : ¬t.Clean i := by
          intro hc
          have hfalse := hold.unfailed hc
          rw [BlockTree.failed_eq_true.mpr (.inr hmark)] at hfalse
          contradiction
        exact hoff ((hfreed hinvalid hsc).marks hmark)
    · intro hl hb hsc
      rw [hlinked] at hl
      rw [hbelow] at hb
      by_cases hc : t.Clean i
      · exact hcand.mpr (.inl (hold.candidate hl hb hc))
      · exact hcand.mpr ((hfreed hc hsc).candidates hl hb)
    · intro hm
      rw [hlinked,hbelow]
      rcases hcand.mp hm with hm | hr
      · exact hold.sorted hm
      · exact ⟨hr.linked,belowTip_eq_false hr.above⟩
    · intro p hp hd hz hsc
      rw [hdata] at hd
      rw [hlinked] at hz
      rw [hunlinked]
      by_cases hc : t.Clean i
      · exact hold.unlinked p hp hd hz hc
      · exact (hfreed hc hsc).unlinked p hp hd hz
    · intro p hp hm
      rw [hunlinked] at hm
      rw [hdata,hlinked]
      exact hold.waiting p hp hm

/-- `ReconsiderBlock` repairs the tree exactly if its bookkeeping covers every entry that
is valid again. -/
theorem reconsiderBlock_repairs_iff (env : TreeEnv) (t : BlockTree) (pindex : CBlockIndex)
    (h : env.checkBlockIndex t = true) :
    Repaired env (env.reconsiderBlock t pindex) ↔
      ∀ i ∈ t.mapBlockIndex, Freed t pindex i → Restorable env t pindex i := by
  have hiff : Repaired env (env.reconsiderBlock t pindex) ↔
      env.checkBlockIndex (env.reconsiderBlock t pindex) = true :=
    ⟨Repaired.checked,repaired_of_checked⟩
  rw [hiff,checkBlockIndex_remarked_iff h (remarked_reconsiderBlock env t pindex)]
  exact forall₂_congr fun i hi => marksChecked_reconsiderBlock h hi

/-- With skip pointers as `BuildSkip` sets them, `GetAncestor` tells the descendants. -/
theorem descends_iff (h : SkipBuilt t.pskip i) :
    t.descends pindex i = true ↔ pindex ∈ i.ancestors := by
  unfold BlockTree.descends
  rw [beq_iff_eq]
  by_cases hle : pindex.nHeight ≤ i.nHeight
  · rw [getAncestor_eq h hle,ancestorAt_eq_some]
    exact and_iff_left rfl
  · have hnot : pindex ∉ i.ancestors := fun hm => hle (nHeight_le_of_mem_ancestors hm)
    unfold getAncestor
    rw [if_pos (.inl (by omega))]
    simp [hnot]

end Repair

/-- The block on genesis, and two blocks on it. -/
def blockA : CBlockIndex := numberedEntry freeEnv.genesis 1 0x1e0ffff0

def blockB : CBlockIndex := numberedEntry blockA 2 0x1e0ffff0

def blockC : CBlockIndex := numberedEntry blockA 3 0x1e0ffff0

/-- The block on genesis is invalidated, and the search for a new tip runs into it from
the second of the two blocks on it. -/
def forkInvalidated : List TreeEvent :=
  [blockArrives 0 1 0x1e0ffff0,blockArrives 1 2 0x1e0ffff0,blockArrives 1 3 0x1e0ffff0,
    .activateBestChain,.invalidateBlock blockA,.activateBestChain]

/-- To reconsider the invalidated block itself repairs the tree. -/
theorem reconsiderBlock_repairs_fork : ∃ t,
    freeEnv.run 9 freeEnv.initial forkInvalidated = some t ∧
    Repaired freeEnv (freeEnv.reconsiderBlock t blockA) ∧
    ∀ i ∈ t.mapBlockIndex, Freed t blockA i → Restorable freeEnv t blockA i := by
  have hrun : (freeEnv.run 9 freeEnv.initial forkInvalidated).map (fun t =>
      (freeEnv.checkBlockIndex t,freeEnv.checkBlockIndex (freeEnv.reconsiderBlock t blockA))) =
        some (true,true) := by decide +kernel
  obtain ⟨t,ht,hchecks⟩ := Option.map_eq_some_iff.mp hrun
  obtain ⟨hbefore,hafter⟩ := Prod.mk.inj hchecks
  have hrepaired := repaired_of_checked hafter
  exact ⟨t,ht,hrepaired,(reconsiderBlock_repairs_iff freeEnv t blockA hbefore).mp hrepaired⟩

/-- To reconsider the first of the two blocks clears the mark of the invalidated one and
leaves that of the second block. -/
theorem reconsiderBlock_leaves_child : ∃ t,
    freeEnv.run 9 freeEnv.initial forkInvalidated = some t ∧
    freeEnv.checkBlockIndex t = true ∧ blockB ∈ t.mapBlockIndex ∧
    ¬Repaired freeEnv (freeEnv.reconsiderBlock t blockB) := by
  have hrun : (freeEnv.run 9 freeEnv.initial forkInvalidated).map (fun t =>
      (freeEnv.checkBlockIndex t,t.mapBlockIndex.contains blockB,
        (freeEnv.reconsiderBlock t blockB).mapBlockIndex.contains blockC,
        (freeEnv.reconsiderBlock t blockB).failedChild blockC,
        blockC.ancestors.any (freeEnv.reconsiderBlock t blockB).failedValid)) =
        some (true,true,true,true,false) := by decide +kernel
  obtain ⟨t,ht,hparts⟩ := Option.map_eq_some_iff.mp hrun
  simp only [Prod.mk.injEq,List.contains_iff_mem] at hparts
  obtain ⟨hbefore,hb,hc,hmark,hnone⟩ := hparts
  refine ⟨t,ht,hbefore,hb,fun hrepaired => ?_⟩
  obtain ⟨a,ha,hf⟩ := hrepaired.marks blockC hc hmark
  rw [List.any_eq_false] at hnone
  exact hnone a ha hf

end Anoncoin
