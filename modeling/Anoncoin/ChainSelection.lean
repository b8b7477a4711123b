import Anoncoin.CheckBlockIndex

/-!
Which chain is active, when headers and blocks come in any order and every new block is
followed by `ActivateBestChain`, as in `ProcessNewBlock` (main.cpp).
-/

set_option autoImplicit false

namespace Anoncoin
open CBlockIndex

/-- A header comes alone, or a block comes with its data. -/
inductive Arrival where
  | header (nAdjustedTime : Int) (checkPowVal : Uint32) (block : CBlockHeader)
  | block (nAdjustedTime : Int) (checkPowVal : Uint32) (block : CBlock) (answer : BlockAnswer)

namespace TreeEnv
variable (env : TreeEnv)

/-- `AcceptBlockHeader` for a header; the tail of `ProcessNewBlock` for a block that passed
its first `CheckBlock`. -/
def arrive (fuel : Nat) (t : BlockTree) : Arrival → Option BlockTree
  | .header now work block => env.step fuel t (.acceptBlockHeader now work block)
  | .block now work block answer =>
      match env.acceptBlock t now work block answer with
      | (false,t) => some t
      | (true,t) => env.activateBestChain fuel t

def receive (fuel : Nat) (t : BlockTree) (arrivals : List Arrival) : Option BlockTree :=
  arrivals.foldlM (env.arrive fuel) t

end TreeEnv

/-- The data of the block and of its ancestors has come, and `ConnectBlock` accepts them. -/
structure Eligible (env : TreeEnv) (t : BlockTree) (i : CBlockIndex) : Prop where
  mem : i ∈ t.mapBlockIndex
  allData : t.AllData i
  connects : ∀ a ∈ i.ancestors, env.connects a = true

/-- The tree when nobody invalidates blocks by hand: a block with its data is marked only
when it is linked, and found invalid only by `ConnectBlock`. -/
structure Gathered (env : TreeEnv) (t : BlockTree) (tip : CBlockIndex) : Prop where
  ok : TreeOk env t tip
  genesis : t.failedValid env.genesis = false
  rejected : ∀ i ∈ t.mapBlockIndex, t.failedValid i = true → t.haveData i = true →
    env.connects i = false
  linked : ∀ i ∈ t.mapBlockIndex, t.failed i = true → t.haveData i = true → t.nChainTx i ≠ 0

/-- No candidate outranks the tip. -/
structure Selected (env : TreeEnv) (t : BlockTree) (tip : CBlockIndex) : Prop
    extends Gathered env t tip where
  top : ∀ c ∈ t.setBlockIndexCandidates, env.rank t c ≤ env.rank t tip

section Calls
variable {env : TreeEnv} {t t' : BlockTree} {tip i : CBlockIndex}

theorem Gathered.genesis_data (h : Gathered env t tip) : t.haveData env.genesis = true :=
  h.ok.links.allData _ h.ok.index.genesis h.ok.genesis_linked _ (self_mem_ancestors _)

theorem Gathered.parentLinks (h : Gathered env t tip) (block : CBlockHeader) :
    ParentLinks env t block := by
  intro i hi p hp hf hd
  have hpa : p ∈ i.ancestors := pprev_mem_ancestors hp
  exact h.linked p (h.ok.index.closed i (mem_of_node hi).1 p hpa) hf hd

theorem Gathered.addEntry (h : Gathered env t tip) {p : CBlockIndex} {d : IndexData}
    (hp : p ∈ t.mapBlockIndex) (hfresh : ∀ j ∈ t.mapBlockIndex, j.data.hashBlock ≠ d.hashBlock)
    (x : Uint256 → Option Uint256) :
    Gathered env { t.addEntry (.child d p) with mapBlockHashCrossReference := x } tip := by
  have hne := @not_mem_of_fresh t p d hfresh
  have hold : ∀ j ∈ t.mapBlockIndex ++ [CBlockIndex.child d p],
      Function.update t.haveData (.child d p) false j = true → j ∈ t.mapBlockIndex := by
    intro j hj hd
    rcases List.mem_append.mp hj with hj | hj
    · exact hj
    · rw [List.mem_singleton.mp hj,Function.update_self] at hd
      contradiction
  exact
    { ok := (h.ok.addEntry hp hfresh x).1
      genesis := by
        simp only [BlockTree.addEntry,Function.update_of_ne (hne _ h.ok.index.genesis)]
        exact h.genesis
      rejected := by
        intro j hj hf hd
        have hjm := hold j hj hd
        simp only [BlockTree.addEntry,Function.update_of_ne (hne j hjm)] at hf hd
        exact h.rejected j hjm hf hd
      linked := by
        intro j hj hf hd
        have hjm := hold j hj hd
        simp only [BlockTree.failed,BlockTree.addEntry,Function.update_of_ne (hne j hjm)] at hf hd ⊢
        exact h.linked j hjm hf hd }

theorem Gathered.setFailedValid (h : Gathered env t tip) (hi : i ∈ t.mapBlockIndex)
    (hdata : t.haveData i = false) : Gathered env (t.setFailedValid i) tip := by
  have hzero := h.ok.links.not_linked_of_missing hi hdata
  have hoff : i ∉ tip.ancestors := fun hm =>
    h.ok.links.ancestors tip h.ok.active.mem h.ok.active.linked i hm hzero
  have hne : ∀ j, t.haveData j = true → j ≠ i := by
    intro j hj he
    rw [he,hdata] at hj
    contradiction
  exact
    { ok := h.ok.setFailedValid hoff
      genesis := by
        simp only [BlockTree.setFailedValid,Function.update_of_ne (hne _ h.genesis_data)]
        exact h.genesis
      rejected := by
        intro j hj hf hd
        simp only [BlockTree.setFailedValid,Function.update_of_ne (hne j hd)] at hf
        exact h.rejected j hj hf hd
      linked := by
        intro j hj hf hd
        simp only [BlockTree.failed,BlockTree.setFailedValid,Function.update_of_ne (hne j hd)] at hf
        exact h.linked j hj hf hd }

theorem Gathered.receive (h : Gathered env t tip) (hi : i ∈ t.mapBlockIndex)
    (hdata : t.haveData i = false) (hfail : t.failed i = false) (nTx : Nat) :
    Gathered env (env.receivedBlockTransactions t i nTx) tip := by
  have hzero := h.ok.links.not_linked_of_missing hi hdata
  have hparent : ∀ p, i.pprev = some p → t.failed p = true → t.haveData p = true →
      t.nChainTx p ≠ 0 := by
    intro p hp
    exact h.linked p (h.ok.index.closed i hi p (pprev_mem_ancestors hp))
  obtain ⟨hok,hrel,hadv,-⟩ := @receivedBlockTransactions_ok env t i tip nTx h.ok hi hdata hfail hparent
  obtain ⟨v,heq,-⟩ := @receiveData_eq t i nTx hfail hzero
  rw [heq] at hrel
  have hindex := congrArg BlockTree.mapBlockIndex hrel
  have hvalid := congrArg BlockTree.failedValid hrel
  have hchild := congrArg BlockTree.failedChild hrel
  have hhave := congrArg BlockTree.haveData hrel
  have hnot : ∀ j, t.failed j = true → j ≠ i := by
    intro j hj he
    rw [he,hfail] at hj
    contradiction
  refine ⟨hok,?_,?_,?_⟩
  · rw [hvalid]
    exact h.genesis
  · intro j hj hf hd
    rw [hindex] at hj
    rw [hvalid] at hf
    have hji := hnot j (by unfold BlockTree.failed; rw [hf,Bool.true_or])
    rw [hhave] at hd
    exact h.rejected j hj hf (by simpa only [Function.update_of_ne hji] using hd)
  · intro j hj hf hd
    rw [hindex] at hj
    unfold BlockTree.failed at hf
    rw [hvalid,hchild] at hf
    have hji := hnot j hf
    rw [hhave] at hd
    exact (hadv.kept j hj
      (h.linked j hj hf (by simpa only [Function.update_of_ne hji] using hd))).1

theorem acceptBlockHeader_gathered (h : Gathered env t tip) {now : Int} {work : Uint32}
    {block : CBlockHeader} (hacc : env.acceptBlockHeader t now work block = .ok (i,t')) :
    Gathered env t' tip ∧ t'.setBlockIndexCandidates = t.setBlockIndexCandidates := by
  rcases acceptBlockHeader_cases h.ok.index hacc with ⟨-,-,-,rfl⟩ | ⟨-,p,-,hp,-,rfl,hfresh,x,rfl⟩
  · exact ⟨h,rfl⟩
  · exact ⟨h.addEntry hp hfresh x,rfl⟩

/-- A call after which the linked blocks have their numbers still, and the candidates are
the same. -/
theorem Selected.of_candidates (h : Selected env t tip) (hgath : Gathered env t' tip)
    (hadv : Advanced t t') (hcand : t'.setBlockIndexCandidates = t.setBlockIndexCandidates) :
    Selected env t' tip := by
  have hrank : ∀ j ∈ t.mapBlockIndex, t.nChainTx j ≠ 0 → env.rank t' j = env.rank t j := by
    intro j hj hl
    unfold TreeEnv.rank
    rw [(hadv.kept j hj hl).2]
  refine ⟨hgath,fun c hc => ?_⟩
  rw [hcand] at hc
  obtain ⟨hcm,hcl⟩ := h.ok.links.candidates c hc
  rw [hrank c hcm hcl,hrank tip h.ok.active.mem h.ok.active.linked]
  exact h.top c hc

/-- `AcceptBlock` keeps what is gathered; when it fails, it leaves the candidates alone. -/
theorem acceptBlock_gathered (h : Gathered env t tip) (now : Int) (work : Uint32)
    (block : CBlock) (answer : BlockAnswer) :
    Gathered env (env.acceptBlock t now work block answer).2 tip ∧
      ((env.acceptBlock t now work block answer).1 = false →
        (env.acceptBlock t now work block answer).2.setBlockIndexCandidates =
          t.setBlockIndexCandidates) := by
  unfold TreeEnv.acceptBlock
  cases hacc : env.acceptBlockHeader t now work block.toCBlockHeader with
  | error e => exact ⟨h,fun _ => rfl⟩
  | ok r =>
    obtain ⟨i,t'⟩ := r
    obtain ⟨hgath,hcand⟩ := acceptBlockHeader_gathered h hacc
    obtain ⟨-,hmem,hfail⟩ := acceptBlockHeader_kept h.ok hacc
    simp only
    split
    · exact ⟨hgath,fun hf => Bool.noConfusion hf⟩
    · rename_i hdata
      have hnodata : t'.haveData i = false := Bool.eq_false_iff.mpr hdata
      split
      · split
        · exact ⟨hgath.setFailedValid hmem hnodata,fun _ => hcand⟩
        · exact ⟨hgath,fun _ => hcand⟩
      · exact ⟨hgath.receive hmem hnodata hfail _,fun hf => Bool.noConfusion hf⟩

/-- `ActivateBestChain` returns, with the best candidate as its tip. -/
theorem Gathered.activate (h : Gathered env t tip) :
    ∃ fuel t' tip', env.activateBestChain fuel t = some t' ∧ Selected env t' tip' ∧
      Advanced t t' := by
  obtain ⟨fuel,t',tip',heq,hs,hexp,htop,-⟩ := activateBestChain_ok h.ok.searching fun hgen =>
    absurd hgen (Bool.eq_false_iff.mp h.genesis)
  refine ⟨fuel,t',tip',heq,⟨⟨hs.ok htop,?_,?_,?_⟩,htop⟩,hexp.advanced⟩
  · refine Bool.eq_false_iff.mpr fun hgen => ?_
    exact absurd (hexp.genesis_invalid hgen) (Bool.eq_false_iff.mp h.genesis)
  · intro j hj hf hd
    rw [hexp.index] at hj
    rw [hexp.data] at hd
    rcases hexp.rejected j hf with hold | ⟨hcon,-⟩
    · exact h.rejected j hj hold hd
    · exact hcon
  · intro j hj hf hd
    rw [hexp.index] at hj
    rw [hexp.data] at hd
    rw [hexp.chainTx]
    rcases hexp.marked j hf with hold | hl
    · exact h.linked j hj hold hd
    · exact hl

/-- Every arrival is dealt with, and leaves the best candidate as the tip. -/
theorem Selected.arrive (h : Selected env t tip) (a : Arrival) :
    ∃ fuel t' tip', env.arrive fuel t a = some t' ∧ Selected env t' tip' ∧ Advanced t t' := by
  cases a with
  | header now work block =>
    cases hacc : env.acceptBlockHeader t now work block with
    | error e =>
      refine ⟨0,t,tip,?_,h,Advanced.refl t⟩
      simp only [TreeEnv.arrive,TreeEnv.step,hacc]
    | ok r =>
      obtain ⟨i,t'⟩ := r
      obtain ⟨hgath,hcand⟩ := acceptBlockHeader_gathered h.toGathered hacc
      have hadv := (acceptBlockHeader_kept h.ok hacc).1.advanced
      refine ⟨0,t',tip,?_,h.of_candidates hgath hadv hcand,hadv⟩
      simp only [TreeEnv.arrive,TreeEnv.step,hacc]
  | block now work block answer =>
    obtain ⟨hgath,hcand⟩ := acceptBlock_gathered h.toGathered now work block answer
    have hadv := (acceptBlock_kept h.ok now work answer
      (h.toGathered.parentLinks block.toCBlockHeader)).advanced
    rcases hacc : env.acceptBlock t now work block answer with ⟨ret,t₁⟩
    simp only [hacc] at hgath hcand hadv
    cases ret with
    | false =>
      refine ⟨0,t₁,tip,?_,h.of_candidates hgath hadv (hcand rfl),hadv⟩
      simp only [TreeEnv.arrive,hacc]
    | true =>
      obtain ⟨fuel,t',tip',heq,hsel,hadv'⟩ := hgath.activate
      refine ⟨fuel,t',tip',?_,hsel,hadv.trans hadv'⟩
      simp only [TreeEnv.arrive,hacc,heq]

theorem arrive_mono {fuel fuel' : Nat} {a : Arrival} (hle : fuel ≤ fuel')
    (h : env.arrive fuel t a = some t') : env.arrive fuel' t a = some t' := by
  cases a with
  | header now work block => exact h
  | block now work block answer =>
    rcases hacc : env.acceptBlock t now work block answer with ⟨ret,t₁⟩
    simp only [TreeEnv.arrive,hacc] at h ⊢
    cases ret with
    | false => exact h
    | true => exact activateBestChain_mono hle h

end Calls

section Runs
variable {env : TreeEnv} {t t' : BlockTree} {tip : CBlockIndex}

theorem receive_mono {fuel fuel' : Nat} {arrivals : List Arrival} (hle : fuel ≤ fuel')
    (h : env.receive fuel t arrivals = some t') : env.receive fuel' t arrivals = some t' := by
  induction arrivals generalizing t with
  | nil => exact h
  | cons a rest ih =>
    unfold TreeEnv.receive at h ⊢
    rw [List.foldlM_cons] at h ⊢
    cases hstep : env.arrive fuel t a with
    | none =>
      rw [hstep] at h
      contradiction
    | some s =>
      rw [hstep] at h
      rw [arrive_mono hle hstep]
      exact ih h

theorem Selected.receive (h : Selected env t tip) (arrivals : List Arrival) :
    ∃ fuel t' tip', env.receive fuel t arrivals = some t' ∧ Selected env t' tip' ∧
      Advanced t t' := by
  induction arrivals generalizing t tip with
  | nil => exact ⟨0,t,tip,rfl,h,Advanced.refl t⟩
  | cons a rest ih =>
    obtain ⟨fuel₁,t₁,tip₁,hstep,h₁,hadv₁⟩ := h.arrive a
    obtain ⟨fuel₂,t₂,tip₂,hrest,h₂,hadv₂⟩ := ih h₁
    refine ⟨max fuel₁ fuel₂,t₂,tip₂,?_,h₂,hadv₁.trans hadv₂⟩
    unfold TreeEnv.receive
    rw [List.foldlM_cons,arrive_mono (le_max_left _ _) hstep]
    exact receive_mono (le_max_right _ _) hrest

/-- The same of a run that is known to return. -/
theorem Selected.of_receive (h : Selected env t tip) {fuel : Nat} {arrivals : List Arrival}
    (hrun : env.receive fuel t arrivals = some t') :
    ∃ tip', Selected env t' tip' ∧ Advanced t t' := by
  obtain ⟨fuel',u,tip',hrun',hsel,hadv⟩ := h.receive arrivals
  have heq := receive_mono (le_max_left fuel fuel') hrun
  rw [receive_mono (le_max_right fuel fuel') hrun'] at heq
  obtain rfl := Option.some.inj heq
  exact ⟨tip',hsel,hadv⟩

theorem initial_selected (env : TreeEnv) : Selected env env.initial env.genesis where
  ok := initial_ok env
  genesis := rfl
  rejected := fun _ _ hf => Bool.noConfusion hf
  linked := fun _ _ hf => Bool.noConfusion hf
  top := by
    intro c hc
    rw [show c = env.genesis from List.mem_singleton.mp hc]

theorem Selected.eligible_tip (h : Selected env t tip) : Eligible env t tip :=
  ⟨h.ok.active.mem,h.ok.links.allData tip h.ok.active.mem h.ok.active.linked,h.ok.active.connects⟩

theorem Eligible.linked {e : CBlockIndex} (he : Eligible env t e) (h : Gathered env t tip) :
    t.nChainTx e ≠ 0 :=
  (h.ok.links.linked_iff he.mem).mpr he.allData

/-- No block that could be active outranks the tip. -/
theorem Selected.rank_le (h : Selected env t tip) {e : CBlockIndex} (he : Eligible env t e) :
    env.rank t e ≤ env.rank t tip := by
  have hclean : t.Clean e := by
    intro a ha
    refine Bool.eq_false_iff.mpr fun hf => ?_
    have hcon := h.rejected a (h.ok.index.closed e he.mem a ha) hf (he.allData a ha)
    rw [he.connects a ha] at hcon
    contradiction
  rcases le_total (env.rank t e) (env.rank t tip) with hle | hge
  · exact hle
  · exact h.top e (h.ok.complete e he.mem (he.linked h.toGathered) hclean hge)

/-- Linked blocks have a number, in a run from the genesis block. -/
theorem Advanced.numbered (h : Advanced env.initial t) {i : CBlockIndex}
    (hi : i ∈ t.mapBlockIndex) (hl : t.nChainTx i ≠ 0) : t.nSequenceId i ≠ 0 := by
  by_cases hold : i ∈ env.initial.mapBlockIndex
  · have hgen := initial_mem hold
    have hlinked : env.initial.nChainTx i ≠ 0 := by
      rw [hgen]
      simp [TreeEnv.initial]
    rw [(h.kept i hold hlinked).2,hgen]
    simp [TreeEnv.initial]
  · have hlater := h.later i hi hl fun hm => absurd hm hold
    have hfirst : env.initial.nBlockSequenceId = 2 := rfl
    omega

/-- The tip has the most work; among equals it has the lowest number. -/
theorem Selected.best (h : Selected env t tip) (hadv : Advanced env.initial t) {e : CBlockIndex}
    (he : Eligible env t e) :
    e.nChainWork ≤ tip.nChainWork ∧ (e.nChainWork = tip.nChainWork → e ≠ tip →
      t.nSequenceId tip < t.nSequenceId e) := by
  have hrank := h.rank_le he
  unfold TreeEnv.rank at hrank
  rw [Prod.Lex.toLex_le_toLex,Prod.Lex.toLex_le_toLex] at hrank
  simp only [OrderDual.toDual_lt_toDual,OrderDual.toDual_inj,OrderDual.toDual_le_toDual] at hrank
  rw [BitVec.le_def]
  refine ⟨by omega,fun hwork hne => ?_⟩
  have hdistinct : t.nSequenceId e ≠ t.nSequenceId tip := fun hs =>
    hne (h.ok.links.distinct e he.mem tip h.ok.active.mem (he.linked h.toGathered)
      h.ok.active.linked (hadv.numbered he.mem (he.linked h.toGathered)) hs)
  rw [hwork] at hrank
  omega

/-- A block that is linked later has a later number. -/
theorem Advanced.linked_before {t₀ : BlockTree} (hadv : Advanced t₀ t) (h₀ : Linking t₀ [])
    {e : CBlockIndex} (he : e ∈ t₀.mapBlockIndex) (hdata : t₀.AllData e)
    (htip : tip ∈ t.mapBlockIndex) (hlinked : t.nChainTx tip ≠ 0)
    (hlt : t.nSequenceId tip < t.nSequenceId e) : tip ∈ t₀.mapBlockIndex ∧ t₀.AllData tip := by
  have hel := (h₀.linked_iff he).mpr hdata
  rw [(hadv.kept e he hel).2] at hlt
  have hseq := h₀.sequence e he hel
  by_contra hnot
  have hlater := hadv.later tip htip hlinked fun hm => by
    by_contra hl
    exact hnot ⟨hm,h₀.allData tip hm hl⟩
  omega

end Runs

end Anoncoin
