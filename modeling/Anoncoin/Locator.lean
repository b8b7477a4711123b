import Anoncoin.HeaderRules
import Anoncoin.SkipList

/-!
Block locators (`CChain::GetTheRightLocator` and `CChain::FindFork` of chain.cpp,
`FindForkInGlobalIndex` of main.cpp) over the chains that calls of `CChain::SetTip` leave.
-/

set_option autoImplicit false

namespace Anoncoin

namespace CChain

def locatorHash (fRealHashes : Bool) (pindex : CBlockIndex) : Uint256 :=
  if fRealHashes then pindex.data.hashBlock else pindex.data.fakeBIhash

/-- The block that the loop of `GetTheRightLocator` goes to. -/
def stepBack (c : CChain) (pskip : CBlockIndex → Option CBlockIndex) (nStep : Nat)
    (pindex : CBlockIndex) : Option CBlockIndex :=
  if c.contains pindex then c.get (pindex.nHeight-nStep)
  else pindex.getAncestor pskip (pindex.nHeight-nStep : Nat)

/-- The loop of `GetTheRightLocator`, with the length of `vHave`. -/
def locatorWalk (c : CChain) (pskip : CBlockIndex → Option CBlockIndex) (fRealHashes : Bool) :
    Nat → Nat → Nat → CBlockIndex → List Uint256
  | 0, _, _, _ => []
  | fuel+1, nStep, size, pindex =>
      locatorHash fRealHashes pindex ::
        if pindex.nHeight = 0 then []
        else match c.stepBack pskip nStep pindex with
          | none => []
          | some p => c.locatorWalk pskip fRealHashes fuel
              (if 10 < size+1 then nStep*2 else nStep) (size+1) p

def getTheRightLocator (c : CChain) (pskip : CBlockIndex → Option CBlockIndex)
    (pindex : Option CBlockIndex) (fRealHashes : Bool) : List Uint256 :=
  match pindex.or c.tip with
  | none => []
  | some pindex => c.locatorWalk pskip fRealHashes (pindex.nHeight+1) 1 0 pindex

def getLocator (c : CChain) (pskip : CBlockIndex → Option CBlockIndex) : List Uint256 :=
  c.getTheRightLocator pskip none false

end CChain

def NodeState.findForkInGlobalIndex (s : NodeState) (chain : CChain) (locator : List Uint256) :
    Option CBlockIndex :=
  (locator.findSome? fun aFakeHash => (s.findByFakeHash aFakeHash).filter chain.contains).or
    chain.genesis

namespace CChain
variable {pskip : CBlockIndex → Option CBlockIndex} {tip i : CBlockIndex}

theorem stepBack_pathTo (hi : i ∈ tip.ancestors) {nStep : Nat} :
    ∃ p, (pathTo tip).stepBack pskip nStep i = some p ∧ p ∈ tip.ancestors ∧
      p.nHeight = i.nHeight-nStep := by
  have hle := CBlockIndex.nHeight_le_of_mem_ancestors hi
  have hlow : i.nHeight-nStep ≤ tip.nHeight := by omega
  obtain ⟨p,hp⟩ := CBlockIndex.exists_ancestorAt hlow
  refine ⟨p,?_,CBlockIndex.ancestorAt_eq_some.mp hp⟩
  unfold stepBack
  rw [if_pos ((pathTo_contains tip i).mpr hi),pathTo_get,hp]

/-- The walk ends: a round more than the height of the block changes nothing. -/
theorem locatorWalk_rounds {fRealHashes : Bool} {fuel fuel' nStep : Nat} (size : Nat)
    (hi : i ∈ tip.ancestors) (hstep : 0 < nStep) (hfuel : i.nHeight < fuel)
    (hfuel' : i.nHeight < fuel') :
    (pathTo tip).locatorWalk pskip fRealHashes fuel nStep size i =
      (pathTo tip).locatorWalk pskip fRealHashes fuel' nStep size i := by
  induction fuel generalizing i fuel' nStep size with
  | zero => omega
  | succ fuel ih =>
    cases fuel' with
    | zero => omega
    | succ fuel' =>
      unfold locatorWalk
      by_cases hzero : i.nHeight = 0
      · simp [hzero]
      · obtain ⟨p,hp,hmem,hheight⟩ := @stepBack_pathTo pskip tip i hi nStep
        have hnext : 0 < if 10 < size+1 then nStep*2 else nStep := by
          split <;> omega
        simp only [hp,hzero,if_false]
        rw [@ih p fuel' _ (size+1) hmem hnext (by omega) (by omega)]

theorem getLocator_pathTo (tip : CBlockIndex) :
    ∃ vHave, (pathTo tip).getLocator pskip = tip.data.fakeBIhash :: vHave := by
  unfold getLocator getTheRightLocator
  simp only [pathTo_tip,Option.none_or]
  exact ⟨_,rfl⟩

end CChain

/-- A locator that starts with a block of the chain leads to it. -/
theorem NodeState.findForkInGlobalIndex_head {s : NodeState} {c : CChain} {i : CBlockIndex}
    {aFakeHash : Uint256} (hfind : s.findByFakeHash aFakeHash = some i)
    (hi : c.contains i = true) (vHave : List Uint256) :
    s.findForkInGlobalIndex c (aFakeHash :: vHave) = some i := by
  unfold findForkInGlobalIndex
  simp [hfind,hi]

theorem NodeState.findForkInGlobalIndex_mem {s : NodeState} {tip fork : CBlockIndex}
    {locator : List Uint256} (h : s.findForkInGlobalIndex (.pathTo tip) locator = some fork) :
    fork ∈ tip.ancestors := by
  unfold findForkInGlobalIndex at h
  rcases Option.or_eq_some_iff.mp h with hfound | ⟨-,hgenesis⟩
  · obtain ⟨aFakeHash,-,hfind⟩ := List.exists_of_findSome?_eq_some hfound
    exact (CChain.pathTo_contains tip fork).mp (Option.filter_eq_some_iff.mp hfind).2
  · unfold CChain.genesis at hgenesis
    rw [CChain.pathTo_get] at hgenesis
    exact (CBlockIndex.ancestorAt_eq_some.mp hgenesis).1

/-- Blocks that start with one, go strictly back along its ancestors and end with genesis. -/
structure GoesBack (b : CBlockIndex) (blocks : List CBlockIndex) : Prop where
  first : blocks.head? = some b
  last : ∃ d, blocks.getLast? = some (.genesis d)
  back : blocks.Pairwise fun x y => y ∈ x.ancestors ∧ y.nHeight < x.nHeight

namespace GoesBack
variable {b p : CBlockIndex} {blocks : List CBlockIndex}

theorem mem_ancestors (h : GoesBack b blocks) {y : CBlockIndex} (hy : y ∈ blocks) :
    y ∈ b.ancestors := by
  cases blocks with
  | nil => simp at hy
  | cons x rest =>
    obtain rfl : x = b := by simpa using h.first
    rcases List.mem_cons.mp hy with rfl | hrest
    · exact CBlockIndex.self_mem_ancestors y
    · exact ((List.pairwise_cons.mp h.back).1 y hrest).1

theorem nHeight_le (h : GoesBack b blocks) {y : CBlockIndex} (hy : y ∈ blocks) :
    y.nHeight ≤ b.nHeight := CBlockIndex.nHeight_le_of_mem_ancestors (h.mem_ancestors hy)

theorem genesis (d : IndexData) : GoesBack (.genesis d) [.genesis d] :=
  ⟨rfl,⟨d,rfl⟩,List.pairwise_singleton _ _⟩

theorem cons (h : GoesBack p blocks) (hp : p ∈ b.ancestors) (hlt : p.nHeight < b.nHeight) :
    GoesBack b (b :: blocks) := by
  obtain ⟨d,hd⟩ := h.last
  refine ⟨rfl,⟨d,?_⟩,?_⟩
  · rw [List.getLast?_cons,hd]
    rfl
  · refine List.pairwise_cons.mpr ⟨?_,h.back⟩
    intro y hy
    have := h.nHeight_le hy
    exact ⟨CBlockIndex.ancestors_trans (h.mem_ancestors hy) hp,by omega⟩

end GoesBack

namespace CChain
open CBlockIndex
variable {pskip : CBlockIndex → Option CBlockIndex} {tip i b : CBlockIndex}

/-- The path from genesis to a tip, and nothing without one. -/
def chainTo : Option CBlockIndex → CChain
  | none => ⟨[]⟩
  | some tip => pathTo tip

/-- The chain after calls of `SetTip`. -/
def setTips (tips : List (Option CBlockIndex)) : CChain := tips.foldl setTip ⟨[]⟩

theorem setTip_chainTo (old new : Option CBlockIndex) : (chainTo old).setTip new = chainTo new := by
  cases new with
  | none => rfl
  | some i =>
    cases old with
    | none => exact setTip_empty i
    | some tip => exact setTip_pathTo tip i

theorem foldl_setTip (tips : List (Option CBlockIndex)) (old : Option CBlockIndex) :
    tips.foldl setTip (chainTo old) = chainTo (tips.getLast?.getD old) := by
  induction tips generalizing old with
  | nil => rfl
  | cons new tips ih =>
    rw [List.foldl_cons,setTip_chainTo,ih,List.getLast?_cons]
    rfl

/-- Only the last call matters. -/
theorem setTips_eq (tips : List (Option CBlockIndex)) :
    setTips tips = chainTo tips.getLast?.join :=
  calc setTips tips = chainTo (tips.getLast?.getD none) := foldl_setTip tips none
    _ = chainTo tips.getLast?.join := by cases tips.getLast? <;> rfl

theorem chainTo_contains {tip : Option CBlockIndex} :
    (chainTo tip).contains i = true ↔ ∃ t ∈ tip, i ∈ t.ancestors := by
  cases tip with
  | none => simp [chainTo,contains,get]
  | some t => simp [chainTo]

/-- By the array or by the skip list, the walk goes to the ancestor. -/
theorem stepBack_chainTo {tip : Option CBlockIndex} (hskip : SkipBuilt pskip i) (nStep : Nat) :
    (chainTo tip).stepBack pskip nStep i = i.ancestorAt (i.nHeight-nStep) := by
  unfold stepBack
  split
  · rename_i hc
    obtain ⟨t,rfl,hi⟩ := chainTo_contains.mp hc
    rw [ancestorAt_ancestor hi (by omega)]
    exact pathTo_get t _
  · exact getAncestor_eq hskip (by omega)

theorem locatorWalk_goesBack {tip : Option CBlockIndex} {fRealHashes : Bool} {fuel nStep size : Nat}
    (hskip : SkipBuilt pskip i) (hstep : 0 < nStep) (hfuel : i.nHeight < fuel) :
    ∃ blocks, GoesBack i blocks ∧ (chainTo tip).locatorWalk pskip fRealHashes fuel nStep size i =
      blocks.map (locatorHash fRealHashes) := by
  induction fuel generalizing i nStep size with
  | zero => omega
  | succ fuel ih =>
    unfold locatorWalk
    by_cases hzero : i.nHeight = 0
    · cases i with
      | genesis d => exact ⟨[.genesis d],GoesBack.genesis d,by simp [hzero]⟩
      | child d p => simp [nHeight] at hzero
    · obtain ⟨p,hp⟩ := @exists_ancestorAt i (i.nHeight-nStep) (by omega)
      obtain ⟨hmem,hheight⟩ := ancestorAt_eq_some.mp hp
      have hnext : 0 < if 10 < size+1 then nStep*2 else nStep := by
        split <;> omega
      obtain ⟨blocks,hback,hwalk⟩ := @ih p _ (size+1) (hskip.ancestor hmem) hnext (by omega)
      refine ⟨i :: blocks,hback.cons hmem (by omega),?_⟩
      simp only [hzero,if_false,stepBack_chainTo hskip,hp,hwalk,List.map_cons]

theorem getTheRightLocator_goesBack (tip : Option CBlockIndex) (fRealHashes : Bool)
    (hskip : SkipBuilt pskip b) : ∃ blocks, GoesBack b blocks ∧
      (chainTo tip).getTheRightLocator pskip (some b) fRealHashes =
        blocks.map (locatorHash fRealHashes) :=
  locatorWalk_goesBack hskip Nat.one_pos (Nat.lt_succ_self _)

end CChain

/-- The blocks of the index. -/
def NodeState.Indexed (s : NodeState) (i : CBlockIndex) : Prop := ∃ r, s.mapBlockIndex r = some i

/-- A tree of block index entries: one genesis entry, each entry with its parent, its skip pointers
and the reference from its sha256d hash to its real hash. -/
structure IndexedTree (s : NodeState) (pskip : CBlockIndex → Option CBlockIndex) : Prop where
  parent : ∀ i p, s.Indexed i → i.pprev = some p → s.Indexed p
  root : ∀ d d', s.Indexed (.genesis d) → s.Indexed (.genesis d') → d = d'
  skip : ∀ i, s.Indexed i → i.SkipBuilt pskip
  registered : ∀ r i, s.mapBlockIndex r = some i → r ≠ 0 ∧
    s.mapBlockHashCrossReference i.data.fakeBIhash = some r

/-- The highest block of two branches. -/
def HighestCommon (b tip fork : CBlockIndex) : Prop :=
  fork ∈ b.ancestors ∧ fork ∈ tip.ancestors ∧
    ∀ a, a ∈ b.ancestors → a ∈ tip.ancestors → a.nHeight ≤ fork.nHeight

namespace IndexedTree
variable {s : NodeState} {pskip : CBlockIndex → Option CBlockIndex} {b i tip : CBlockIndex}

theorem ancestor (h : IndexedTree s pskip) (hi : s.Indexed i) {a : CBlockIndex}
    (ha : a ∈ i.ancestors) : s.Indexed a :=
  CBlockIndex.of_mem_ancestors h.parent hi ha

theorem findByFakeHash (h : IndexedTree s pskip) (hi : s.Indexed i) :
    s.findByFakeHash i.data.fakeBIhash = some i := by
  obtain ⟨r,hr⟩ := hi
  obtain ⟨hne,href⟩ := h.registered r i hr
  exact Consensus.findByFakeHash_eq_some.mpr ⟨r,href,hne,hr⟩

/-- All branches start with the same entry. -/
theorem common_genesis (h : IndexedTree s pskip) (hb : s.Indexed b) (htip : s.Indexed tip) :
    ∃ d, CBlockIndex.genesis d ∈ b.ancestors ∧ CBlockIndex.genesis d ∈ tip.ancestors := by
  obtain ⟨d,hd⟩ := CBlockIndex.exists_genesis_mem b
  obtain ⟨d',hd'⟩ := CBlockIndex.exists_genesis_mem tip
  obtain rfl := h.root d d' (h.ancestor hb hd) (h.ancestor htip hd')
  exact ⟨d,hd,hd'⟩

/-- A locator of blocks of the index leads to the first of them that the chain has. -/
theorem findSome_locator (h : IndexedTree s pskip) (hb : s.Indexed b) {blocks : List CBlockIndex}
    (hback : GoesBack b blocks) (tip : CBlockIndex) :
    (blocks.map (CChain.locatorHash false)).findSome? (fun aFakeHash =>
      (s.findByFakeHash aFakeHash).filter (CChain.pathTo tip).contains) =
      blocks.find? (CChain.pathTo tip).contains := by
  have hindexed : ∀ y ∈ blocks, s.Indexed y := fun y hy => h.ancestor hb (hback.mem_ancestors hy)
  clear hback
  induction blocks with
  | nil => rfl
  | cons x rest ih =>
    have hx : s.findByFakeHash (CChain.locatorHash false x) = some x :=
      h.findByFakeHash (hindexed x List.mem_cons_self)
    have hrest := ih fun y hy => hindexed y (List.mem_cons_of_mem _ hy)
    rw [List.map_cons,List.findSome?_cons,List.find?_cons,hx,hrest]
    by_cases hc : (CChain.pathTo tip).contains x = true
    · simp [Option.filter,hc]
    · simp [Option.filter,hc]

/-- The locator of a block leads to a common ancestor, and to the block if the chain has it. -/
theorem findForkInGlobalIndex_goesBack (h : IndexedTree s pskip) (hb : s.Indexed b)
    (htip : s.Indexed tip) {blocks : List CBlockIndex} (hback : GoesBack b blocks) :
    ∃ found, s.findForkInGlobalIndex (.pathTo tip) (blocks.map (CChain.locatorHash false)) =
      some found ∧ found ∈ b.ancestors ∧ found ∈ tip.ancestors ∧
      (b ∈ tip.ancestors → found = b) := by
  obtain ⟨d,hd⟩ := hback.last
  have hlast : CBlockIndex.genesis d ∈ blocks := List.mem_of_getLast? hd
  obtain ⟨g,hgb,hgt⟩ := h.common_genesis hb htip
  obtain rfl : d = g := h.root d g (h.ancestor hb (hback.mem_ancestors hlast)) (h.ancestor hb hgb)
  have hexists : ∃ found, blocks.find? (CChain.pathTo tip).contains = some found :=
    Option.isSome_iff_exists.mp (List.find?_isSome.mpr ⟨_,hlast,by simpa using hgt⟩)
  obtain ⟨found,hfound⟩ := hexists
  refine ⟨found,?_,hback.mem_ancestors (List.mem_of_find?_eq_some hfound),
    by simpa using List.find?_some hfound,?_⟩
  · unfold NodeState.findForkInGlobalIndex
    rw [h.findSome_locator hb hback,hfound]
    rfl
  · intro hbt
    cases blocks with
    | nil => simp at hlast
    | cons x rest =>
      obtain rfl : x = b := by simpa using hback.first
      rw [List.find?_cons_of_pos (by simpa using hbt)] at hfound
      exact (Option.some.inj hfound).symm

end IndexedTree

/-- `GetLocator`, `FindFork` and `FindForkInGlobalIndex` after any calls of `SetTip`. -/
theorem locator_findsFork {s : NodeState} {pskip : CBlockIndex → Option CBlockIndex}
    (h : IndexedTree s pskip) {tips : List (Option CBlockIndex)}
    (htips : ∀ tip, some tip ∈ tips → s.Indexed tip) {b : CBlockIndex} (hb : s.Indexed b) :
    CChain.setTips tips = CChain.chainTo tips.getLast?.join ∧
    (∃ blocks, GoesBack b blocks ∧ (CChain.setTips tips).getTheRightLocator pskip (some b) false =
      blocks.map fun i => i.data.fakeBIhash) ∧
    (∀ tip, tips.getLast?.join = some tip → ∃ fork found,
      (CChain.setTips tips).findFork pskip b = some fork ∧ HighestCommon b tip fork ∧
      s.findForkInGlobalIndex (CChain.setTips tips)
        ((CChain.setTips tips).getTheRightLocator pskip (some b) false) = some found ∧
      found ∈ b.ancestors ∧ found ∈ tip.ancestors ∧ found.nHeight ≤ fork.nHeight ∧
      ((CChain.setTips tips).contains b = true → found = fork)) ∧
    (tips.getLast?.join = none → (CChain.setTips tips).findFork pskip b = none ∧
      s.findForkInGlobalIndex (CChain.setTips tips)
        ((CChain.setTips tips).getTheRightLocator pskip (some b) false) = none) := by
  have hskip := h.skip b hb
  obtain ⟨blocks,hback,hlocator⟩ :=
    CChain.getTheRightLocator_goesBack tips.getLast?.join false hskip
  rw [CChain.setTips_eq,hlocator]
  refine ⟨rfl,⟨blocks,hback,rfl⟩,?_,?_⟩
  · intro tip htip
    rw [htip]
    have hmem : some tip ∈ tips := List.mem_of_getLast? (Option.join_eq_some_iff.mp htip)
    have htip := htips tip hmem
    obtain ⟨d,hdb,hdt⟩ := h.common_genesis hb htip
    obtain ⟨fork,hfork,hforkt,hforkb,hhighest⟩ := CChain.findFork_pathTo hskip hdb hdt
    obtain ⟨found,hfound,hfb,hft,hon⟩ := h.findForkInGlobalIndex_goesBack hb htip hback
    refine ⟨fork,found,hfork,⟨hforkb,hforkt,?_⟩,hfound,hfb,hft,?_,?_⟩
    · intro a ha hat
      exact CBlockIndex.nHeight_le_of_mem_ancestors (hhighest a ha hat)
    · exact CBlockIndex.nHeight_le_of_mem_ancestors (hhighest found hfb hft)
    · intro hc
      have hbt : b ∈ tip.ancestors := (CChain.pathTo_contains tip b).mp hc
      have hbf := CBlockIndex.nHeight_le_of_mem_ancestors
        (hhighest b (CBlockIndex.self_mem_ancestors b) hbt)
      have hfb' := CBlockIndex.nHeight_le_of_mem_ancestors hforkb
      rw [hon hbt]
      exact CBlockIndex.ancestors_eq_of_nHeight (CBlockIndex.self_mem_ancestors b) hforkb (by omega)
  · intro hnone
    rw [hnone]
    refine ⟨?_,?_⟩
    · simp only [CChain.chainTo,CChain.findFork,CChain.height,CBlockIndex.getAncestor]
      simp
      omega
    · simp [CChain.chainTo,NodeState.findForkInGlobalIndex,CChain.genesis,CChain.contains,CChain.get]

/-- The index of the two branches, with both hashes of each entry. -/
def forkedIndex : NodeState where
  mapBlockIndex r := CBlockIndex.forkedTree.find? fun i => i.data.hashBlock == r
  mapBlockHashCrossReference f :=
    (CBlockIndex.forkedTree.find? fun i => i.data.fakeBIhash == f).map fun i => i.data.hashBlock
  failed _ := false
  tip := none

theorem forkedIndex_find {r : Uint256} {i : CBlockIndex}
    (h : forkedIndex.mapBlockIndex r = some i) :
    i ∈ CBlockIndex.forkedTree ∧ i.data.hashBlock = r := by
  have hfind : (CBlockIndex.forkedTree.find? fun i => i.data.hashBlock == r) = some i := h
  exact ⟨List.mem_of_find?_eq_some hfind,by simpa using List.find?_some hfind⟩

theorem forkedIndex_indexed (i : CBlockIndex) :
    forkedIndex.Indexed i ↔ i ∈ CBlockIndex.forkedTree := by
  constructor
  · rintro ⟨r,hr⟩
    exact (forkedIndex_find hr).1
  · intro hi
    have hfind : ∀ i ∈ CBlockIndex.forkedTree,
        forkedIndex.mapBlockIndex i.data.hashBlock = some i := by decide +kernel
    exact ⟨_,hfind i hi⟩

theorem forkedIndex_tree : ∃ pskip, CBlockIndex.buildSkips (fun _ => none)
    CBlockIndex.forkedTree = some pskip ∧ IndexedTree forkedIndex pskip := by
  have hempty : CBlockIndex.SkipTree (fun _ => none) [] := by simp [CBlockIndex.SkipTree]
  obtain ⟨pskip,hbuilt,htree⟩ := hempty.buildSkips CBlockIndex.forkedTree_order
  have hroot : ∀ i ∈ CBlockIndex.forkedTree, ∀ j ∈ CBlockIndex.forkedTree,
      i.pprev = none → j.pprev = none → i = j := by decide +kernel
  have href : ∀ i ∈ CBlockIndex.forkedTree, i.data.hashBlock ≠ 0 ∧
      forkedIndex.mapBlockHashCrossReference i.data.fakeBIhash = some i.data.hashBlock := by
    decide +kernel
  refine ⟨pskip,hbuilt,?_,?_,?_,?_⟩
  · intro i p hi hp
    rw [forkedIndex_indexed] at hi ⊢
    simpa using (htree i (by simpa using hi) p hp).1
  · intro d d' hd hd'
    rw [forkedIndex_indexed] at hd hd'
    exact CBlockIndex.genesis.inj (hroot _ hd _ hd' rfl rfl)
  · intro i hi
    rw [forkedIndex_indexed] at hi
    exact htree.skipBuilt (by simpa using hi)
  · intro r i hr
    obtain ⟨hi,rfl⟩ := forkedIndex_find hr
    exact href i hi

theorem locator_findsFork_forked : ∃ pskip, CBlockIndex.buildSkips (fun _ => none)
    CBlockIndex.forkedTree = some pskip ∧ ∀ b ∈ CBlockIndex.forkedTree,
    ∀ tip, CBlockIndex.forkedTree.getLast? = some tip → ∃ fork found,
      (CChain.setTips (CBlockIndex.forkedTree.map some)).findFork pskip b = some fork ∧
      HighestCommon b tip fork ∧
      forkedIndex.findForkInGlobalIndex (CChain.setTips (CBlockIndex.forkedTree.map some))
        ((CChain.setTips (CBlockIndex.forkedTree.map some)).getTheRightLocator pskip (some b)
          false) = some found ∧ found.nHeight ≤ fork.nHeight := by
  obtain ⟨pskip,hbuilt,htree⟩ := forkedIndex_tree
  refine ⟨pskip,hbuilt,fun b hb tip htip => ?_⟩
  have htips : ∀ tip, some tip ∈ CBlockIndex.forkedTree.map some → forkedIndex.Indexed tip :=
    fun tip htip => (forkedIndex_indexed tip).mpr (by simpa using htip)
  have hfind := locator_findsFork htree htips ((forkedIndex_indexed b).mpr hb)
  obtain ⟨fork,found,hfork,hhighest,hfound,-,-,hle,-⟩ :=
    hfind.2.2.1 tip (by rw [List.getLast?_map,htip]; rfl)
  exact ⟨fork,found,hfork,hhighest,hfound,hle⟩

end Anoncoin
