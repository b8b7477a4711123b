import Anoncoin.ChainSelection
import Anoncoin.IndexReload

/-!
Restarts: what `LoadBlockIndexDB` brings back keeps the block tree in order, and whether
`ActivateBestChain` then stays with the tip.
-/

set_option autoImplicit false

namespace Anoncoin
open CBlockIndex Lib

/-- The entries of two trees are the same, with the fields that the disk keeps. -/
structure SameEntries (t t' : BlockTree) : Prop where
  mem : ∀ i, i ∈ t'.mapBlockIndex ↔ i ∈ t.mapBlockIndex
  nodup : t'.mapBlockIndex.Nodup
  status : ∀ i ∈ t.mapBlockIndex, t'.nStatus i = t.nStatus i
  chainTx : ∀ i ∈ t.mapBlockIndex, t'.nChainTx i = t.nChainTx i
  skip : ∀ i ∈ t'.mapBlockIndex, SkipBuilt t'.pskip i

section Same
variable {env : TreeEnv} {t t' : BlockTree} {tip i : CBlockIndex}

namespace SameEntries

theorem validity (h : SameEntries t t') (hi : i ∈ t.mapBlockIndex) : t'.validity i = t.validity i :=
  congrArg BlockStatus.validity (h.status i hi)

theorem haveData (h : SameEntries t t') (hi : i ∈ t.mapBlockIndex) : t'.haveData i = t.haveData i :=
  congrArg BlockStatus.haveData (h.status i hi)

theorem haveUndo (h : SameEntries t t') (hi : i ∈ t.mapBlockIndex) : t'.haveUndo i = t.haveUndo i :=
  congrArg BlockStatus.haveUndo (h.status i hi)

theorem failedValid (h : SameEntries t t') (hi : i ∈ t.mapBlockIndex) :
    t'.failedValid i = t.failedValid i :=
  congrArg BlockStatus.failedValid (h.status i hi)

theorem failed (h : SameEntries t t') (hi : i ∈ t.mapBlockIndex) : t'.failed i = t.failed i := by
  have hchild : t'.failedChild i = t.failedChild i :=
    congrArg BlockStatus.failedChild (h.status i hi)
  unfold BlockTree.failed
  rw [h.failedValid hi,hchild]

theorem clean_iff (h : SameEntries t t') (hindex : Indexed env t) (hi : i ∈ t.mapBlockIndex) :
    t'.Clean i ↔ t.Clean i := by
  unfold BlockTree.Clean
  refine forall₂_congr fun a ha => ?_
  rw [h.failedValid (hindex.closed i hi a ha)]

theorem allData_iff (h : SameEntries t t') (hindex : Indexed env t) (hi : i ∈ t.mapBlockIndex) :
    t'.AllData i ↔ t.AllData i := by
  unfold BlockTree.AllData
  refine forall₂_congr fun a ha => ?_
  rw [h.haveData (hindex.closed i hi a ha)]

theorem indexed (h : SameEntries t t') (hindex : Indexed env t) (address : CBlockIndex → Nat) :
    Indexed (env.withAddresses address) t' where
  nodup := h.nodup
  genesis := (h.mem _).mpr hindex.genesis
  root i hi := hindex.root i ((h.mem i).mp hi)
  closed i hi a ha := (h.mem a).mpr (hindex.closed i ((h.mem i).mp hi) a ha)
  hashes i hi j hj := hindex.hashes i ((h.mem i).mp hi) j ((h.mem j).mp hj)
  skip := h.skip
  tree := by
    intro i hi
    rw [h.validity ((h.mem i).mp hi)]
    exact hindex.tree i ((h.mem i).mp hi)
  transactions := by
    intro i hi hd
    rw [h.haveData ((h.mem i).mp hi)] at hd
    rw [h.validity ((h.mem i).mp hi)]
    exact hindex.transactions i ((h.mem i).mp hi) hd
  scripts := by
    intro i hi hlevel a ha hap
    have him := (h.mem i).mp hi
    rw [h.validity him] at hlevel
    rw [h.validity (hindex.closed i him a ha)]
    exact hindex.scripts i him hlevel a ha hap
  marked := by
    intro i hi hf
    have him := (h.mem i).mp hi
    rw [h.failed him] at hf
    rw [h.clean_iff hindex him]
    exact hindex.marked i him hf

theorem active (h : SameEntries t t') (hindex : Indexed env t) (hactive : Active env t tip)
    (hchain : t'.chainActive = .pathTo tip) (address : CBlockIndex → Nat) :
    Active (env.withAddresses address) t' tip := by
  have hmem := fun a ha => hindex.closed tip hactive.mem a ha
  exact
    { chain := hchain
      mem := (h.mem _).mpr hactive.mem
      linked := by
        rw [h.chainTx tip hactive.mem]
        exact hactive.linked
      undo := by
        intro a ha hap
        rw [h.haveUndo (hmem a ha)]
        exact hactive.undo a ha hap
      scripts := by
        intro a ha hap
        rw [h.validity (hmem a ha)]
        exact hactive.scripts a ha hap
      unfailed := by
        intro a ha hap
        rw [h.failed (hmem a ha)]
        exact hactive.unfailed a ha hap
      connects := hactive.connects
      genesis := by
        change t'.haveUndo env.genesis = false
        rw [h.haveUndo hindex.genesis]
        exact hactive.genesis }

end SameEntries

end Same

section Reloaded
variable {env : TreeEnv} {t : BlockTree} {tip i : CBlockIndex} {pos : CBlockIndex → FilePositions}
  {order : List CBlockIndex} {l : LoadedTree} {address : CBlockIndex → Nat}

/-- The tree after `LoadBlockIndexDB`. -/
def LoadedTree.settled (l : LoadedTree) (env : TreeEnv) (address : CBlockIndex → Nat)
    (tip : CBlockIndex) : BlockTree :=
  (env.withAddresses address).pruned (l.activate tip)

theorem mem_settled : i ∈ (l.settled env address tip).setBlockIndexCandidates ↔
    i ∈ l.tree.setBlockIndexCandidates ∧
      (env.withAddresses address).belowTip (l.settled env address tip) i = false := by
  have hbelow : (env.withAddresses address).belowTip (l.settled env address tip) i =
      (env.withAddresses address).belowTip (l.activate tip) i := rfl
  rw [hbelow]
  unfold LoadedTree.settled TreeEnv.pruned LoadedTree.activate
  simp

theorem LoadedPart.sameEntries (hpart : LoadedPart t pos t.mapBlockHashCrossReference order l)
    (hperm : order.Perm t.mapBlockIndex) (hnodup : t.mapBlockIndex.Nodup) :
    SameEntries t (l.settled env address tip) := by
  have hindex : (l.settled env address tip).mapBlockIndex = order := hpart.index
  exact
    { mem := by
        intro i
        rw [hindex]
        exact hperm.mem_iff
      nodup := by
        rw [hindex]
        exact hperm.nodup_iff.mpr hnodup
      status := fun i hi => hpart.status i (hperm.symm.subset hi)
      chainTx := fun i hi => hpart.chainTx i (hperm.symm.subset hi)
      skip := fun i hi => hpart.skip i (hindex ▸ hi) }

theorem LoadedPart.linking (hpart : LoadedPart t pos t.mapBlockHashCrossReference order l)
    (hperm : order.Perm t.mapBlockIndex) (h : InOrder env t tip) :
    Linking (l.settled env address tip) [] := by
  have hcheck := checkBlockIndex_ok h.ok h.sound h.increasing
  have hsame : SameEntries t (l.settled env address tip) := hpart.sameEntries hperm h.ok.index.nodup
  have hlinked := fun i hi => @Linking.linked_iff t h.ok.links i hi
  have hsome : ∃ j ∈ t.mapBlockIndex, t.nChainTx j ≠ 0 := ⟨tip,h.ok.active.mem,h.ok.active.linked⟩
  have hparent : ∀ c ∈ t.mapBlockIndex, ∀ p, c.pprev = some p → t.haveData c = true →
      (t.nChainTx c = 0 ↔ t.nChainTx p = 0) := by
    intro c hc p hp hd
    have hpm := h.ok.index.closed c hc p (pprev_mem_ancestors hp)
    rw [← not_iff_not,← ne_eq,← ne_eq,hlinked c hc,hlinked p hpm]
    exact BlockTree.allData_pprev hp hd
  exact
    { allData := by
        intro i hi hl
        have him := (hsame.mem i).mp hi
        rw [hsame.chainTx i him] at hl
        exact (hsame.allData_iff h.ok.index him).mpr ((hlinked i him).mp hl)
      ancestors := by
        intro i hi hl a ha
        have him := (hsame.mem i).mp hi
        rw [hsame.chainTx i him] at hl
        rw [hsame.chainTx a (h.ok.index.closed i him a ha)]
        exact h.ok.links.ancestors i him hl a ha
      complete := by
        intro i hi hall hz
        have him := (hsame.mem i).mp hi
        rw [hsame.chainTx i him] at hz
        exact absurd hz ((hlinked i him).mpr ((hsame.allData_iff h.ok.index him).mp hall))
      sequence := by
        intro i hi hl
        have hzero : (l.settled env address tip).nSequenceId i = 0 := hpart.sequence i
        have hnext : (l.settled env address tip).nBlockSequenceId = 1 := hpart.counter
        omega
      distinct := by
        intro i hi j hj _ _ hnumber
        exact absurd (hpart.sequence i) hnumber
      candidates := by
        intro c hc
        have hcand := (mem_settled.mp hc).1
        have hcm := hperm.subset ((hpart.candidates c).mp hcand).1
        refine ⟨(hsame.mem c).mpr hcm,?_⟩
        rw [hsame.chainTx c hcm]
        exact (hlinked c hcm).mpr (hpart.linked_candidate hperm hcheck hsome hcand)
      unlinked := by
        intro p c hu
        obtain ⟨hc,hp,hd,hz⟩ := (hpart.unlinked p c).mp hu
        have hcm := hperm.subset hc
        refine ⟨(hsame.mem c).mpr hcm,hp,(hsame.haveData hcm).trans hd,?_⟩
        rw [hsame.chainTx c hcm]
        exact (hparent c hcm p hp hd).mpr hz
      nodup := hpart.unlinked_nodup
      pending := by
        intro c hc p hp hd hz
        have hcm := (hsame.mem c).mp hc
        rw [hsame.haveData hcm] at hd
        rw [hsame.chainTx c hcm] at hz
        exact .inl ((hpart.unlinked p c).mpr
          ⟨hperm.symm.subset hcm,hp,hd,(hparent c hcm p hp hd).mp hz⟩)
      queued := fun q hq => absurd hq List.not_mem_nil
      queue_nodup := List.nodup_nil
      queue_unlinked := fun q hq => absurd hq List.not_mem_nil }

/-- A loaded tree is in order, with the tip that it had. -/
theorem LoadedPart.inOrder (hpart : LoadedPart t pos t.mapBlockHashCrossReference order l)
    (hperm : order.Perm t.mapBlockIndex) (h : InOrder env t tip) (hlabels : Labelled env t)
    (address : CBlockIndex → Nat) :
    InOrder (env.withAddresses address) (l.settled env address tip) tip := by
  have hcheck := checkBlockIndex_ok h.ok h.sound h.increasing
  have hsame : SameEntries t (l.settled env address tip) := hpart.sameEntries hperm h.ok.index.nodup
  have hchain : (l.settled env address tip).chainActive = .pathTo tip := rfl
  have hrank : ∀ i, (env.withAddresses address).belowTip (l.settled env address tip) i = false ↔
      (env.withAddresses address).rank (l.settled env address tip) tip ≤
        (env.withAddresses address).rank (l.settled env address tip) i := by
    intro i
    rw [← not_lt,← TreeEnv.belowTip_iff hchain,Bool.not_eq_true]
  refine ⟨⟨hsame.indexed h.ok.index address,hpart.linking hperm h,
    hsame.active h.ok.index h.ok.active hchain address,?_⟩,?_,?_⟩
  · intro i hi hl hc hle
    have him := (hsame.mem i).mp hi
    rw [hsame.chainTx i him] at hl
    refine mem_settled.mpr ⟨?_,(hrank i).mpr hle⟩
    exact hpart.mem_candidates hperm (h.recorded hlabels) hcheck him
      ((h.ok.links.linked_iff him).mp hl) ((hsame.clean_iff h.ok.index him).mp hc)
  · intro c hc
    exact (hrank c).mp (mem_settled.mp hc).2
  · intro i hi
    exact h.increasing i ((hsame.mem i).mp hi)

/-- So are its labels. -/
theorem LoadedPart.labelled (hpart : LoadedPart t pos t.mapBlockHashCrossReference order l)
    (hperm : order.Perm t.mapBlockIndex) (h : InOrder env t tip) (hlabels : Labelled env t)
    (address : CBlockIndex → Nat) :
    Labelled (env.withAddresses address) (l.settled env address tip) := by
  have hsame : SameEntries t (l.settled env address tip) := hpart.sameEntries hperm h.ok.index.nodup
  have hindex : (l.settled env address tip).mapBlockIndex = order := hpart.index
  exact
    { fakeHashes := fun i hi j hj =>
        hlabels.fakeHashes i ((hsame.mem i).mp hi) j ((hsame.mem j).mp hj)
      sha256d := fun i hi => hlabels.sha256d i ((hsame.mem i).mp hi)
      nonzero := fun i hi => hlabels.nonzero i ((hsame.mem i).mp hi)
      crossReference := by
        intro f
        rw [hindex,find_perm_of_key hperm hlabels.fakeHashes,← hlabels.crossReference]
        exact congrFun hpart.cross f
      chainTx := by
        intro i hi hl
        have him := (hsame.mem i).mp hi
        have hntx : (l.settled env address tip).nTx i = t.nTx i :=
          hpart.nTx i (hperm.symm.subset him)
        rw [hsame.chainTx i him] at hl ⊢
        rw [hlabels.chainTx i him hl,hntx]
        cases hp : i.pprev with
        | none => rfl
        | some p =>
          have hpm := h.ok.index.closed i him p (pprev_mem_ancestors hp)
          simp only [Option.elim_some,hsame.chainTx p hpm] }

end Reloaded

/-- What is on disk after everything was flushed, and how it is read. -/
structure Stored (t : BlockTree) (pos : CBlockIndex → FilePositions) (db : BlockIndexRecords)
    (haveFile : Nat → Bool) (vSortedByHeight : List BlockTreeEntry) : Prop where
  flushed : Flushed t pos db
  files : ∀ i ∈ t.mapBlockIndex, t.haveData i = true → haveFile (pos i).nFile = true
  perm : vSortedByHeight.Perm (loadBlockIndexGuts db)
  sorted : vSortedByHeight.Pairwise fun a b => a.nHeight ≤ b.nHeight

/-- The states of a node, with the addresses of its entries: it gets calls, and it is
restarted, which moves the entries. -/
inductive NodeRun (env : TreeEnv) : (CBlockIndex → Nat) → BlockTree → Prop
  | init (address : CBlockIndex → Nat) : NodeRun env address env.initial
  | call {address : CBlockIndex → Nat} {t t' : BlockTree} {e : TreeEvent} :
      NodeRun env address t → Proper (env.withAddresses address) t e →
      (env.withAddresses address).Steps t e t' → NodeRun env address t'
  | restart {address address' : CBlockIndex → Nat} {t : BlockTree} {tip : CBlockIndex}
      {pos : CBlockIndex → FilePositions} {db : BlockIndexRecords} {haveFile : Nat → Bool}
      {vSortedByHeight : List BlockTreeEntry} {l : LoadedTree} :
      NodeRun env address t → t.chainActive.tip = some tip →
      Stored t pos db haveFile vSortedByHeight →
      (env.withAddresses address').loadBlockIndexDB haveFile tip.data.hashBlock
        vSortedByHeight = .ok l → NodeRun env address' l.tree

section Runs
variable {env : TreeEnv} {t : BlockTree} {tip i : CBlockIndex} {pos : CBlockIndex → FilePositions}
  {db : BlockIndexRecords} {haveFile : Nat → Bool} {vSortedByHeight : List BlockTreeEntry}
  {address address' : CBlockIndex → Nat}

/-- What loading a tree in order comes to. -/
theorem Stored.load_iff (hs : Stored t pos db haveFile vSortedByHeight) (h : InOrder env t tip)
    (hlabels : Labelled env t) (address : CBlockIndex → Nat) :
    ∃ l : LoadedTree, InOrder (env.withAddresses address) l.tree tip ∧
      Labelled (env.withAddresses address) l.tree ∧ SameEntries t l.tree ∧
      (∀ i, l.tree.nSequenceId i = 0) ∧
      ∀ r, (env.withAddresses address).loadBlockIndexDB haveFile tip.data.hashBlock
          vSortedByHeight = .ok r ↔
        HashesHold env.net vSortedByHeight ∧ CandidateLeft address t tip ∧ r = l := by
  have hcheck := checkBlockIndex_ok h.ok h.sound h.increasing
  obtain ⟨order,l,rfl,hperm,hpart,hload⟩ := loadBlockIndexDB_eq hcheck (h.recorded hlabels)
    hs.flushed hs.files hs.perm hs.sorted address
  refine ⟨{ l with tree := l.settled env address tip },hpart.inOrder hperm h hlabels address,
    hpart.labelled hperm h hlabels address,hpart.sameEntries hperm h.ok.index.nodup,
    hpart.sequence,fun r => ?_⟩
  have hleft : (∃ c ∈ (l.activate tip).setBlockIndexCandidates,
      (env.withAddresses address).belowTip (l.activate tip) c = false) ↔
      CandidateLeft address t tip := by
    constructor
    · rintro ⟨c,hc,hb⟩
      obtain ⟨hcm,hvalid,-⟩ := (hpart.candidates c).mp hc
      have hall := hpart.linked_candidate hperm hcheck
        ⟨tip,h.ok.active.mem,h.ok.active.linked⟩ hc
      refine ⟨c,hperm.subset hcm,hvalid,
        (h.ok.links.linked_iff (hperm.subset hcm)).mpr hall,fun hs => ?_⟩
      rw [hpart.belowTip_iff.mpr hs] at hb
      contradiction
    · rintro ⟨c,hc,hvalid,hlinked,hnot⟩
      refine ⟨c,(hpart.candidates c).mpr ⟨hperm.symm.subset hc,hvalid,.inl hlinked⟩,?_⟩
      rw [Bool.eq_false_iff]
      exact fun hb => hnot (hpart.belowTip_iff.mp hb)
  rw [hload,hashesHold_iff,← hleft]
  constructor
  · rintro ⟨hrechecked,t',hprune,rfl⟩
    obtain ⟨hsome,rfl⟩ := pruneBlockIndexCandidates_iff.mp hprune
    exact ⟨hrechecked,hsome,rfl⟩
  · rintro ⟨hrechecked,hsome,rfl⟩
    exact ⟨hrechecked,_,pruneBlockIndexCandidates_iff.mpr ⟨hsome,rfl⟩,rfl⟩

/-- Calls and restarts keep the tree in order. -/
theorem NodeRun.inOrder (h : NodeRun env address t) (hgenesis : GenesisLabelled env) :
    ∃ tip, InOrder (env.withAddresses address) t tip ∧ Labelled (env.withAddresses address) t := by
  induction h with
  | init address =>
    have hgen : GenesisLabelled (env.withAddresses address) := ⟨hgenesis.sha256d,hgenesis.nonzero⟩
    exact ⟨env.genesis,initial_inOrder (env.withAddresses address),initial_labelled hgen⟩
  | call _ hproper hstep ih =>
    obtain ⟨tip,horder,hlabels⟩ := ih
    obtain ⟨tip',horder'⟩ := hproper.1.step horder hstep
    exact ⟨tip',horder',hproper.2.step hlabels horder.ok hstep⟩
  | restart _ htip hs hload ih =>
    rename_i address address' t tip pos db haveFile v l _
    obtain ⟨tip₀,horder,hlabels⟩ := ih
    rw [horder.ok.active.chain,CChain.pathTo_tip,Option.some.injEq] at htip
    subst htip
    obtain ⟨l₀,horder₀,hlabels₀,-,-,hiff⟩ := hs.load_iff horder hlabels address'
    obtain ⟨-,-,rfl⟩ := (hiff l).mp hload
    exact ⟨tip₀,horder₀,hlabels₀⟩

/-- Every other block that could be active (its data is complete, nothing in its chain was
found invalid, and `ConnectBlock` accepts all of it) has less work than the tip, or the same
work at a higher address. -/
def Preferred (env : TreeEnv) (address : CBlockIndex → Nat) (t : BlockTree) (tip : CBlockIndex) :
    Prop :=
  ∀ i, Eligible env t i → t.Clean i → i ≠ tip → SortsBelow address tip i

theorem rank_lt_iff (hseq : ∀ i, t.nSequenceId i = 0) :
    env.rank t i < env.rank t tip ↔ SortsBelow env.address tip i := by
  unfold TreeEnv.rank SortsBelow
  rw [Prod.Lex.toLex_lt_toLex,Prod.Lex.toLex_lt_toLex]
  simp only [hseq,OrderDual.toDual_lt_toDual,lt_irrefl,false_or,true_and,BitVec.lt_def,
    ← BitVec.toNat_inj]

theorem eq_of_rank_eq (hrank : env.rank t i = env.rank t tip)
    (hinj : env.address i = env.address tip → i = tip) : i = tip := by
  apply hinj
  have hsecond := congrArg (fun r : ℕ ×ₗ ℕᵒᵈ ×ₗ ℕᵒᵈ => OrderDual.ofDual (ofLex (ofLex r).2).2) hrank
  exact hsecond

/-- The ancestors of the tip are clean, unless genesis was invalidated. -/
theorem TreeOk.clean_tip (h : TreeOk env t tip) (hgen : t.failedValid env.genesis = false) :
    t.Clean tip := by
  intro a ha
  by_cases hag : a = env.genesis
  · rw [hag]
    exact hgen
  · obtain ⟨p,hp,-⟩ := h.index.exists_pprev (h.index.closed tip h.active.mem a ha) hag
    have hf := h.active.unfailed a ha (by rw [hp]; simp)
    unfold BlockTree.failed at hf
    exact (Bool.or_eq_false_iff.mp hf).1

/-- What `ConnectBlock` accepts stays clean. -/
theorem Explored.clean {t' : BlockTree} (h : Explored env t t') (hc : t.Clean i)
    (hcon : ∀ a ∈ i.ancestors, env.connects a = true) : t'.Clean i := by
  intro a ha
  refine Bool.eq_false_iff.mpr fun hf => ?_
  rcases h.rejected a hf with hold | ⟨hno,-⟩
  · rw [hc a ha] at hold
    contradiction
  · rw [hcon a ha] at hno
    contradiction

theorem sortsBelow_asymm (h : SortsBelow address tip i) : ¬SortsBelow address i tip := by
  unfold SortsBelow at h ⊢
  simp only [BitVec.lt_def,← BitVec.toNat_inj] at h ⊢
  omega

theorem InOrder.eligible_tip (h : InOrder env t tip) : Eligible env t tip :=
  ⟨h.ok.active.mem,(h.ok.links.linked_iff h.ok.active.mem).mp h.ok.active.linked,
    h.ok.active.connects⟩

/-- The new tip was clean before the search, too. -/
theorem Explored.clean_tip {t' : BlockTree} (h : Explored env t t') (hok : TreeOk env t' tip)
    (hgen : t.failedValid env.genesis = false) : t.Clean tip := by
  intro a ha
  by_cases hag : a = env.genesis
  · rw [hag]
    exact hgen
  · have ham := hok.index.closed tip hok.active.mem a ha
    obtain ⟨p,hp,-⟩ := hok.index.exists_pprev ham hag
    have hunfailed := hok.active.unfailed a ha (by rw [hp]; simp)
    refine Bool.eq_false_iff.mpr fun hf => ?_
    have hmark := h.failed a (by unfold BlockTree.failed; rw [hf,Bool.true_or])
    rw [hunfailed] at hmark
    contradiction

/-- After a restart `ActivateBestChain` goes to the block that is preferred. -/
theorem activateBestChain_preferred (h : InOrder env t tip) (hseq : ∀ i, t.nSequenceId i = 0)
    (hgen : t.failedValid env.genesis = false)
    (hinj : ∀ i ∈ t.mapBlockIndex, ∀ j ∈ t.mapBlockIndex, env.address i = env.address j → i = j) :
    ∃ fuel t' tip', env.activateBestChain fuel t = some t' ∧ t'.chainActive.tip = some tip' ∧
      Eligible env t tip' ∧ t.Clean tip' ∧ Preferred env env.address t tip' := by
  obtain ⟨fuel,t',tip',heq,hs,hexp,htop,-⟩ :=
    activateBestChain_ok h.ok.searching fun _ => h.increasing
  have hok := hs.ok htop
  have hmem : tip' ∈ t.mapBlockIndex := hexp.index ▸ hok.active.mem
  have hlinked : t.nChainTx tip' ≠ 0 := by
    rw [← hexp.chainTx]
    exact hok.active.linked
  have hbest : ∀ i, Eligible env t i → t.Clean i → env.rank t i ≤ env.rank t tip' := by
    intro i hi hc
    rcases le_total (env.rank t i) (env.rank t tip') with hle | hge
    · exact hle
    · have hcand : i ∈ t'.setBlockIndexCandidates := by
        refine hok.complete i (hexp.index ▸ hi.mem) ?_ (hexp.clean hc hi.connects) ?_
        · rw [hexp.chainTx]
          exact (h.ok.links.linked_iff hi.mem).mpr hi.allData
        · rw [hexp.rank_eq,hexp.rank_eq]
          exact hge
      have hrank := htop i hcand
      rwa [hexp.rank_eq,hexp.rank_eq] at hrank
  refine ⟨fuel,t',tip',heq,by rw [hok.active.chain,CChain.pathTo_tip],
    ⟨hmem,(h.ok.links.linked_iff hmem).mp hlinked,hok.active.connects⟩,
    hexp.clean_tip hok hgen,fun i hi hc hne => ?_⟩
  rw [← rank_lt_iff hseq]
  refine lt_of_le_of_ne (hbest i hi hc) fun hrank => hne ?_
  exact eq_of_rank_eq hrank (hinj i hi.mem tip' hmem)

theorem SameEntries.eligible_iff {env₀ : TreeEnv} {t' : BlockTree} (h : SameEntries t t')
    (hindex : Indexed env₀ t) : Eligible (env.withAddresses address) t' i ↔ Eligible env t i := by
  constructor
  · intro hi
    have him := (h.mem i).mp hi.mem
    exact ⟨him,(h.allData_iff hindex him).mp hi.allData,hi.connects⟩
  · intro hi
    exact ⟨(h.mem i).mpr hi.mem,(h.allData_iff hindex hi.mem).mpr hi.allData,hi.connects⟩

end Runs

theorem nodeRun_of_reachable {env : TreeEnv} {t : BlockTree}
    (h : ReachableBy env.Steps (Proper env) env.initial t) : NodeRun env env.address t := by
  induction h with
  | init => exact .init _
  | step _ hproper hstep ih => exact .call ih hproper hstep

theorem stored_written {t : BlockTree} (hhashes : ∀ i ∈ t.mapBlockIndex, ∀ j ∈ t.mapBlockIndex,
      i.data.hashBlock = j.data.hashBlock → i = j) :
    Stored t heightPositions (writtenIndex t) (fun _ => true)
      (sortedByHeight (loadBlockIndexGuts (writtenIndex t))) where
  flushed := flushed_of_writes hhashes fun _ => Iff.rfl
  files _ _ _ := rfl
  perm := sortedByHeight_perm _
  sorted := sortedByHeight_pairwise _

end Anoncoin
