import Anoncoin.BlockDownload
import Anoncoin.CheckBlockIndex
import Anoncoin.Locator

/-!
The choice of the blocks to download from a peer (main.cpp): `ProcessBlockAvailability`,
`LastCommonAncestor` and `FindNextBlocksToDownload`.
-/

set_option autoImplicit false

namespace Anoncoin
open CBlockIndex

/-- The fields of `CNodeState` about the blocks that the peer has. -/
structure BlockAvailability where
  pindexBestKnownBlock : Option CBlockIndex
  hashLastUnknownBlock : Uint256
  pindexLastCommonBlock : Option CBlockIndex

/-- `ProcessBlockAvailability`. -/
def processBlockAvailability (s : NodeState) (state : BlockAvailability) : BlockAvailability :=
  if state.hashLastUnknownBlock = 0 then state
  else match s.findByFakeHash state.hashLastUnknownBlock with
    | none => state
    | some itOld =>
        if 0 < itOld.nChainWork then { state with
          pindexBestKnownBlock :=
            if state.pindexBestKnownBlock.all fun best =>
                decide (best.nChainWork ≤ itOld.nChainWork) then some itOld
            else state.pindexBestKnownBlock
          hashLastUnknownBlock := 0 }
        else state

/-- The loop of `LastCommonAncestor`; no result where its assertion fails or it ends with null
pointers. -/
def commonWalk : CBlockIndex → CBlockIndex → Option CBlockIndex
  | pa@(.genesis _), pb => if pa = pb then some pa else none
  | pa@(.child _ pprev), pb => if pa = pb then some pa else pb.pprev.bind (commonWalk pprev)

def lastCommonAncestor (pskip : CBlockIndex → Option CBlockIndex) (pa pb : CBlockIndex) :
    Option CBlockIndex :=
  if pb.nHeight < pa.nHeight then
    (pa.getAncestor pskip pb.nHeight).bind fun pa => commonWalk pa pb
  else if pa.nHeight < pb.nHeight then
    (pb.getAncestor pskip pa.nHeight).bind fun pb => commonWalk pa pb
  else commonWalk pa pb

def blockDownloadWindow : Nat := 4096

/-- What `FindNextBlocksToDownload` writes while it looks at the blocks. -/
structure FetchState where
  vBlocks : List CBlockIndex
  pindexLastCommonBlock : CBlockIndex
  waitingfor : NodeId
  nodeStaller : NodeId

/-- The globals and the arguments that it reads. -/
structure FetchInput where
  tree : BlockTree
  mapBlocksInFlight : AList fun _ : Uint256 => NodeId × Nat
  nodeid : NodeId
  count : Nat

namespace FetchInput
variable (inp : FetchInput)

/-- The body of the loop over `vToFetch`; the function returns where the result is an error. -/
def visit (nWindowEnd : Nat) (d : FetchState) (pindex : CBlockIndex) :
    Except FetchState FetchState :=
  if !inp.tree.isValid pindex .tree then .error d
  else if inp.tree.haveData pindex then
    .ok (if inp.tree.nChainTx pindex ≠ 0 then { d with pindexLastCommonBlock := pindex } else d)
  else match inp.mapBlocksInFlight.lookup pindex.data.fakeBIhash with
    | none =>
        if nWindowEnd < pindex.nHeight then
          .error (if d.vBlocks.length = 0 ∧ d.waitingfor ≠ inp.nodeid then
            { d with nodeStaller := d.waitingfor } else d)
        else
          let d := { d with vBlocks := d.vBlocks ++ [pindex] }
          if d.vBlocks.length = inp.count then .error d else .ok d
    | some (peer,_) => .ok (if d.waitingfor = -1 then { d with waitingfor := peer } else d)

/-- `vToFetch`: a block and the `n` blocks before it. -/
def fetchBack : Nat → CBlockIndex → List CBlockIndex → Option (List CBlockIndex)
  | 0, pindex, vToFetch => some (pindex :: vToFetch)
  | n+1, pindex, vToFetch => pindex.pprev.bind fun p => fetchBack n p (pindex :: vToFetch)

/-- `nToFetch`; the number of blocks that are still to be found is converted to an `int`. -/
def nToFetch (nMaxHeight : Nat) (pindexWalk : CBlockIndex) (vBlocks : List CBlockIndex) : Nat :=
  (min ((nMaxHeight : Int)-pindexWalk.nHeight)
    (max (((inp.count : Int)-vBlocks.length).bmod (2^32)) 128)).toNat

/-- The loop over the chunks. There is no result where a null pointer is dereferenced. -/
def fetchLoop (best : CBlockIndex) (nWindowEnd nMaxHeight : Nat) :
    Nat → CBlockIndex → FetchState → Option FetchState
  | 0, _, _ => none
  | fuel+1, pindexWalk, d =>
      if pindexWalk.nHeight < nMaxHeight then do
        let n := inp.nToFetch nMaxHeight pindexWalk d.vBlocks
        let pindexWalk ← best.getAncestor inp.tree.pskip (pindexWalk.nHeight+n : Nat)
        let vToFetch ← fetchBack (n-1) pindexWalk []
        match vToFetch.foldlM (inp.visit nWindowEnd) d with
        | .error d => some d
        | .ok d => fetchLoop best nWindowEnd nMaxHeight fuel pindexWalk d
      else some d

/-- The part of `FindNextBlocksToDownload` behind the correction of `pindexLastCommonBlock`. -/
def fetchFrom (fuel : Nat) (best last : CBlockIndex) (vBlocks : List CBlockIndex)
    (nodeStaller : NodeId) : Option FetchState :=
  let d : FetchState := ⟨vBlocks,last,-1,nodeStaller⟩
  if last = best then some d
  else
    let nWindowEnd := last.nHeight+blockDownloadWindow
    inp.fetchLoop best nWindowEnd (min best.nHeight (nWindowEnd+1)) fuel last d

/-- `FindNextBlocksToDownload`: the state of the peer, `vBlocks` and `nodeStaller`. -/
def findNextBlocksToDownload (fuel : Nat) (state : BlockAvailability) (vBlocks : List CBlockIndex)
    (nodeStaller : NodeId) : Option (BlockAvailability × List CBlockIndex × NodeId) :=
  if inp.count = 0 then some (state,vBlocks,nodeStaller)
  else
    let state := processBlockAvailability inp.tree.node state
    match state.pindexBestKnownBlock with
    | none => some (state,vBlocks,nodeStaller)
    | some best => do
        let tip ← inp.tree.chainActive.tip
        if best.nChainWork < tip.nChainWork then some (state,vBlocks,nodeStaller)
        else do
          let guess := inp.tree.chainActive.get
            (min (best.nHeight : Int) inp.tree.chainActive.height).toNat
          let last ← state.pindexLastCommonBlock.or guess
          let last ← lastCommonAncestor inp.tree.pskip last best
          let d ← inp.fetchFrom fuel best last vBlocks nodeStaller
          some ({ state with pindexLastCommonBlock := some d.pindexLastCommonBlock },d.vBlocks,
            d.nodeStaller)

end FetchInput

section Common

/-- Two blocks of one height that differ have only ancestors of their parents in common. -/
theorem mem_ancestors_pprevs {d d' : IndexData} {p q a : CBlockIndex}
    (hne : child d p ≠ child d' q) (hheight : (child d p).nHeight = (child d' q).nHeight)
    (ha : a ∈ (child d p).ancestors) (ha' : a ∈ (child d' q).ancestors) :
    a ∈ p.ancestors ∧ a ∈ q.ancestors := by
  have htop : a ≠ child d p := by
    rintro rfl
    exact hne (ancestors_eq_of_nHeight ha' (self_mem_ancestors _) hheight)
  have htop' : a ≠ child d' q := by
    rintro rfl
    exact hne (ancestors_eq_of_nHeight ha (self_mem_ancestors _) hheight.symm).symm
  exact ⟨(List.mem_cons.mp ha).resolve_left htop,(List.mem_cons.mp ha').resolve_left htop'⟩

theorem HighestCommon.refl (i : CBlockIndex) : HighestCommon i i i :=
  ⟨self_mem_ancestors i,self_mem_ancestors i,fun _ ha _ => nHeight_le_of_mem_ancestors ha⟩

theorem commonWalk_eq {pa pb g : CBlockIndex} (hheight : pa.nHeight = pb.nHeight)
    (hga : g ∈ pa.ancestors) (hgb : g ∈ pb.ancestors) :
    ∃ lca, commonWalk pa pb = some lca ∧ HighestCommon pa pb lca := by
  induction pa generalizing pb with
  | genesis d =>
    cases pb with
    | genesis d' =>
      obtain rfl := List.mem_singleton.mp hga
      obtain rfl := CBlockIndex.genesis.inj (List.mem_singleton.mp hgb)
      exact ⟨_,by simp [commonWalk],.refl _⟩
    | child d' q => simp [nHeight] at hheight
  | child d p ih =>
    cases pb with
    | genesis d' => simp [nHeight] at hheight
    | child d' q =>
      by_cases heq : child d p = child d' q
      · rw [← heq]
        exact ⟨_,by simp [commonWalk],.refl _⟩
      · obtain ⟨hgp,hgq⟩ := mem_ancestors_pprevs heq hheight hga hgb
        have hlower : p.nHeight = q.nHeight := by simpa [nHeight] using hheight
        obtain ⟨lca,hlca,hp,hq,hhighest⟩ := ih hlower hgp hgq
        refine ⟨lca,?_,List.mem_cons_of_mem _ hp,List.mem_cons_of_mem _ hq,?_⟩
        · simp [commonWalk,heq,pprev,hlca]
        · intro a ha ha'
          obtain ⟨hap,haq⟩ := mem_ancestors_pprevs heq hheight ha ha'
          exact hhighest a hap haq

/-- The higher of two blocks may be lowered first. -/
theorem HighestCommon.lift {i j a lca : CBlockIndex} (h : HighestCommon a j lca)
    (ha : a ∈ i.ancestors) (hheight : a.nHeight = j.nHeight) : HighestCommon i j lca := by
  refine ⟨ancestors_trans h.1 ha,h.2.1,?_⟩
  intro b hb hbj
  have hle := nHeight_le_of_mem_ancestors hbj
  exact h.2.2 b (ancestors_nested hb ha (by omega)) hbj

theorem HighestCommon.symm {i j lca : CBlockIndex} (h : HighestCommon i j lca) :
    HighestCommon j i lca := ⟨h.2.1,h.1,fun b hb hb' => h.2.2 b hb' hb⟩

theorem lastCommonAncestor_eq {pskip : CBlockIndex → Option CBlockIndex} {pa pb g : CBlockIndex}
    (ha : SkipBuilt pskip pa) (hb : SkipBuilt pskip pb) (hga : g ∈ pa.ancestors)
    (hgb : g ∈ pb.ancestors) :
    ∃ lca, lastCommonAncestor pskip pa pb = some lca ∧ HighestCommon pa pb lca := by
  have hgheight := nHeight_le_of_mem_ancestors hga
  have hgheight' := nHeight_le_of_mem_ancestors hgb
  unfold lastCommonAncestor
  split
  · rename_i hlt
    obtain ⟨a,hfound⟩ := exists_ancestorAt hlt.le
    obtain ⟨hmem,hheight⟩ := ancestorAt_eq_some.mp hfound
    rw [getAncestor_eq ha hlt.le,hfound]
    obtain ⟨lca,hlca,hcommon⟩ := commonWalk_eq hheight (ancestors_nested hga hmem (by omega)) hgb
    exact ⟨lca,hlca,hcommon.lift hmem hheight⟩
  · split
    · rename_i hlt
      obtain ⟨b,hfound⟩ := exists_ancestorAt hlt.le
      obtain ⟨hmem,hheight⟩ := ancestorAt_eq_some.mp hfound
      rw [getAncestor_eq hb hlt.le,hfound]
      obtain ⟨lca,hlca,hcommon⟩ :=
        commonWalk_eq hheight.symm hga (ancestors_nested hgb hmem (by omega))
      exact ⟨lca,hlca,(hcommon.symm.lift hmem hheight).symm⟩
    · exact commonWalk_eq (by omega) hga hgb

end Common

section Branch
variable {i top b : CBlockIndex}

theorem ancestors_descending (i : CBlockIndex) :
    i.ancestors.Pairwise fun a b => b.nHeight < a.nHeight := by
  induction i with
  | genesis d => simp
  | child d p ih =>
    refine List.pairwise_cons.mpr ⟨?_,ih⟩
    intro a ha
    have := nHeight_le_of_mem_ancestors ha
    simp only [nHeight]
    omega

theorem mem_take_ancestors {n : Nat} :
    b ∈ i.ancestors.take n ↔ b ∈ i.ancestors ∧ i.nHeight < b.nHeight+n := by
  induction i generalizing n with
  | genesis d =>
    cases n with
    | zero =>
      simp only [List.take_zero,List.not_mem_nil,ancestors_genesis,List.mem_singleton,false_iff]
      rintro ⟨rfl,hlt⟩
      exact Nat.lt_irrefl _ hlt
    | succ n =>
      simp only [List.take_succ_cons,List.take_nil,ancestors_genesis,List.mem_singleton,nHeight]
      exact ⟨fun hb => ⟨hb,by omega⟩,fun hb => hb.1⟩
  | child d p ih =>
    cases n with
    | zero =>
      simp only [List.take_zero,List.not_mem_nil,false_iff,Nat.add_zero]
      rintro ⟨hb,hlt⟩
      exact absurd (nHeight_le_of_mem_ancestors hb) (by omega)
    | succ n =>
      rw [ancestors_child,List.take_succ_cons,List.mem_cons,ih,List.mem_cons]
      simp only [nHeight]
      constructor
      · rintro (rfl | ⟨hb,hlt⟩)
        · exact ⟨.inl rfl,by simp [nHeight]⟩
        · exact ⟨.inr hb,by omega⟩
      · rintro ⟨rfl | hb,hlt⟩
        · exact .inl rfl
        · exact .inr ⟨hb,by omega⟩

theorem drop_ancestors (hb : b ∈ i.ancestors) :
    i.ancestors.drop (i.nHeight-b.nHeight) = b.ancestors := by
  induction i with
  | genesis d =>
    obtain rfl := List.mem_singleton.mp hb
    simp
  | child d p ih =>
    rcases List.mem_cons.mp hb with rfl | hp
    · simp
    · have hle := nHeight_le_of_mem_ancestors hp
      have hdrop : (child d p).nHeight-b.nHeight = p.nHeight-b.nHeight+1 := by
        simp only [nHeight]
        omega
      rw [hdrop,ancestors_child,List.drop_succ_cons,ih hp]

/-- The blocks of a branch above a height, lowest first. -/
def branchAbove (top : CBlockIndex) (height : Nat) : List CBlockIndex :=
  (top.ancestors.take (top.nHeight-height)).reverse

theorem mem_branchAbove {height : Nat} :
    b ∈ branchAbove top height ↔ b ∈ top.ancestors ∧ height < b.nHeight := by
  unfold branchAbove
  rw [List.mem_reverse,mem_take_ancestors]
  refine and_congr_right fun hb => ?_
  have := nHeight_le_of_mem_ancestors hb
  omega

theorem branchAbove_ascending (top : CBlockIndex) (height : Nat) :
    (branchAbove top height).Pairwise fun a b => a.nHeight < b.nHeight := by
  unfold branchAbove
  rw [List.pairwise_reverse]
  exact (ancestors_descending top).sublist (List.take_sublist _ _)

theorem branchAbove_self (top : CBlockIndex) : branchAbove top top.nHeight = [] := by
  simp [branchAbove]

/-- A branch in two pieces. -/
theorem branchAbove_append (hb : b ∈ top.ancestors) {height : Nat} (h : height ≤ b.nHeight) :
    branchAbove top height = branchAbove b height ++ branchAbove top b.nHeight := by
  have hle := nHeight_le_of_mem_ancestors hb
  have hsum : top.nHeight-height = (top.nHeight-b.nHeight)+(b.nHeight-height) := by omega
  unfold branchAbove
  rw [hsum,List.take_add,drop_ancestors hb,List.reverse_append]

theorem fetchBack_eq {n : Nat} {vToFetch : List CBlockIndex} (h : n ≤ i.nHeight) :
    FetchInput.fetchBack n i vToFetch = some ((i.ancestors.take (n+1)).reverse ++ vToFetch) := by
  induction n generalizing i vToFetch with
  | zero => cases i <;> simp [FetchInput.fetchBack]
  | succ n ih =>
    cases i with
    | genesis d => simp [nHeight] at h
    | child d p =>
      have hp : n ≤ p.nHeight := by
        simp only [nHeight] at h
        omega
      simp [FetchInput.fetchBack,pprev,ih hp]

end Branch

namespace FetchInput
variable {inp : FetchInput} {nWindowEnd nMaxHeight : Nat} {best top walk b : CBlockIndex}
  {d : FetchState} {blocks : List CBlockIndex}

/-- What the loop leaves, whether it returned or not. -/
def leftState : Except FetchState FetchState → FetchState
  | .error d => d
  | .ok d => d

/-- A block without data that nobody was asked for, in the window. -/
def wanted (inp : FetchInput) (nWindowEnd : Nat) (b : CBlockIndex) : Bool :=
  !inp.tree.haveData b && (inp.mapBlocksInFlight.lookup b.data.fakeBIhash).isNone &&
    decide (b.nHeight ≤ nWindowEnd)

/-- What one pass does: it returns at an invalid block, adds a wanted one, passes over the others
in the window and over those with data or in flight, or returns behind the window. -/
theorem visit_cases (inp : FetchInput) (nWindowEnd : Nat) (d : FetchState) (b : CBlockIndex) :
    (inp.tree.isValid b .tree = false ∧ inp.visit nWindowEnd d b = .error d) ∨
    (inp.tree.isValid b .tree = true ∧ inp.wanted nWindowEnd b = true ∧
      inp.visit nWindowEnd d b = if d.vBlocks.length+1 = inp.count then
          .error { d with vBlocks := d.vBlocks ++ [b] }
        else .ok { d with vBlocks := d.vBlocks ++ [b] }) ∨
    (inp.tree.isValid b .tree = true ∧ inp.wanted nWindowEnd b = false ∧
      ∃ d', inp.visit nWindowEnd d b = .ok d' ∧ d'.vBlocks = d.vBlocks ∧
        (d'.pindexLastCommonBlock = d.pindexLastCommonBlock ∨
          d'.pindexLastCommonBlock = b ∧ inp.tree.nChainTx b ≠ 0)) ∨
    (inp.tree.isValid b .tree = true ∧ nWindowEnd < b.nHeight ∧
      ∃ d', inp.visit nWindowEnd d b = .error d' ∧ d'.vBlocks = d.vBlocks ∧
        d'.pindexLastCommonBlock = d.pindexLastCommonBlock) := by
  unfold visit wanted
  cases hvalid : inp.tree.isValid b .tree with
  | false => exact .inl ⟨rfl,by simp⟩
  | true =>
    refine .inr ?_
    cases hdata : inp.tree.haveData b with
    | true =>
      refine .inr (.inl ⟨rfl,rfl,_,rfl,?_,?_⟩)
      · split <;> rfl
      · split
        · rename_i hlinked
          exact .inr ⟨rfl,hlinked⟩
        · exact .inl rfl
    | false =>
      cases hflight : inp.mapBlocksInFlight.lookup b.data.fakeBIhash with
      | some r =>
        refine .inr (.inl ⟨rfl,rfl,_,rfl,?_,.inl ?_⟩)
        · split <;> rfl
        · split <;> rfl
      | none =>
        by_cases hend : nWindowEnd < b.nHeight
        · refine .inr (.inr ⟨rfl,hend,_,if_pos hend,?_,?_⟩)
          · split <;> rfl
          · split <;> rfl
        · exact .inl ⟨rfl,by simp; omega,by simp [hend]⟩

/-- The blocks that are added: the wanted ones before the first invalid block, as many as were
asked for. -/
theorem scan_vBlocks (hasc : blocks.Pairwise fun a b => a.nHeight < b.nHeight)
    (hlen : d.vBlocks.length < inp.count) :
    (leftState (blocks.foldlM (inp.visit nWindowEnd) d)).vBlocks =
      (d.vBlocks ++ (blocks.takeWhile fun b => inp.tree.isValid b .tree).filter
        (inp.wanted nWindowEnd)).take inp.count := by
  have hkeep : d.vBlocks = d.vBlocks.take inp.count := (List.take_of_length_le hlen.le).symm
  induction blocks generalizing d with
  | nil => simpa [leftState,pure,Except.pure] using hkeep
  | cons b rest ih =>
    obtain ⟨hb,hrest⟩ := List.pairwise_cons.mp hasc
    rw [List.foldlM_cons]
    rcases visit_cases inp nWindowEnd d b with ⟨hv,hvisit⟩ | ⟨hv,hw,hvisit⟩ |
      ⟨hv,hw,d',hvisit,hsame,-⟩ | ⟨hv,hend,d',hvisit,hsame,-⟩
    · rw [hvisit,List.takeWhile_cons,if_neg (by simp [hv])]
      simpa [leftState,bind,Except.bind] using hkeep
    · rw [hvisit,List.takeWhile_cons,if_pos hv,List.filter_cons_of_pos hw]
      split
      · rename_i hfull
        simp [leftState,bind,Except.bind,List.take_append,← hfull]
      · rename_i hmore
        have hlen' : (d.vBlocks ++ [b]).length < inp.count := by
          simp only [List.length_append,List.length_singleton]
          omega
        have htake := @ih { d with vBlocks := d.vBlocks ++ [b] } hrest hlen'
          (List.take_of_length_le hlen'.le).symm
        simpa [bind,Except.bind] using htake
    · rw [hvisit,List.takeWhile_cons,if_pos hv,List.filter_cons_of_neg (by simp [hw]),← hsame]
      exact ih hrest (hsame ▸ hlen) (hsame ▸ hkeep)
    · have hnone : ((b :: rest).takeWhile fun b => inp.tree.isValid b .tree).filter
          (inp.wanted nWindowEnd) = [] := by
        rw [List.filter_eq_nil_iff]
        intro a ha
        have hlt : nWindowEnd < a.nHeight := by
          rcases List.mem_cons.mp ((List.takeWhile_sublist _).mem ha) with rfl | harest
          · exact hend
          · exact hend.trans (hb a harest)
        simp [wanted,hlt]
      rw [hvisit,hnone,List.append_nil,← hkeep]
      exact hsame

/-- The last common block moves to linked blocks only. -/
theorem scan_last {P : CBlockIndex → Prop}
    (hblocks : ∀ b ∈ blocks, inp.tree.nChainTx b ≠ 0 → P b) (hd : P d.pindexLastCommonBlock) :
    P (leftState (blocks.foldlM (inp.visit nWindowEnd) d)).pindexLastCommonBlock := by
  induction blocks generalizing d with
  | nil => exact hd
  | cons b rest ih =>
    have hrest : ∀ b ∈ rest, inp.tree.nChainTx b ≠ 0 → P b :=
      fun a ha => hblocks a (List.mem_cons_of_mem _ ha)
    rw [List.foldlM_cons]
    rcases visit_cases inp nWindowEnd d b with ⟨-,hvisit⟩ | ⟨-,-,hvisit⟩ |
      ⟨-,-,d',hvisit,-,hlast⟩ | ⟨-,-,d',hvisit,-,hlast⟩
    · rw [hvisit]
      exact hd
    · rw [hvisit]
      split
      · exact hd
      · exact ih hrest hd
    · rw [hvisit]
      refine ih hrest ?_
      rcases hlast with hsame | ⟨rfl,hlinked⟩
      · rwa [hsame]
      · exact hblocks _ List.mem_cons_self hlinked
    · rw [hvisit]
      exact hlast ▸ hd

theorem nToFetch_pos (vBlocks : List CBlockIndex) (h : walk.nHeight < nMaxHeight) :
    0 < inp.nToFetch nMaxHeight walk vBlocks ∧
      walk.nHeight+inp.nToFetch nMaxHeight walk vBlocks ≤ nMaxHeight := by
  unfold nToFetch
  omega

/-- The chunks together are the branch, read in one pass. -/
theorem fetchLoop_eq {fuel : Nat} (hskip : SkipBuilt inp.tree.pskip best)
    (htop : best.ancestorAt nMaxHeight = some top) (hwalk : walk ∈ top.ancestors)
    (hfuel : nMaxHeight < walk.nHeight+fuel) :
    inp.fetchLoop best nWindowEnd nMaxHeight fuel walk d =
      some (leftState ((branchAbove top walk.nHeight).foldlM (inp.visit nWindowEnd) d)) := by
  obtain ⟨htopmem,htopheight⟩ := ancestorAt_eq_some.mp htop
  have hbest := nHeight_le_of_mem_ancestors htopmem
  induction fuel generalizing walk d with
  | zero =>
    have := nHeight_le_of_mem_ancestors hwalk
    omega
  | succ fuel ih =>
    unfold fetchLoop
    by_cases hlt : walk.nHeight < nMaxHeight
    · obtain ⟨hpos,hle⟩ := @nToFetch_pos inp nMaxHeight walk d.vBlocks hlt
      set n := inp.nToFetch nMaxHeight walk d.vBlocks with hn
      obtain ⟨p,hp⟩ := @exists_ancestorAt best (walk.nHeight+n) (by omega)
      obtain ⟨hpbest,hpheight⟩ := ancestorAt_eq_some.mp hp
      have hptop : p ∈ top.ancestors := ancestors_nested hpbest htopmem (by omega)
      have hwalkp : walk ∈ p.ancestors := ancestors_nested hwalk hptop (by omega)
      have hget : best.getAncestor inp.tree.pskip (walk.nHeight+n : Nat) = some p := by
        rw [getAncestor_eq hskip (by omega),hp]
      have hchunk : fetchBack (n-1) p [] = some (branchAbove p walk.nHeight) := by
        have hn' : n-1+1 = p.nHeight-walk.nHeight := by omega
        rw [fetchBack_eq (by omega),hn',List.append_nil]
        rfl
      rw [branchAbove_append hptop (by omega),List.foldlM_append]
      simp only [hlt,if_true,hget,hchunk,Option.bind_eq_bind,Option.bind_some]
      cases (branchAbove p walk.nHeight).foldlM (inp.visit nWindowEnd) d with
      | error d' => rfl
      | ok d' => exact ih hptop (by omega)
    · have hle := nHeight_le_of_mem_ancestors hwalk
      have heq : walk.nHeight = top.nHeight := by omega
      rw [if_neg hlt,heq,branchAbove_self]
      rfl

end FetchInput

/-- A block tree that passes `CheckBlockIndex`, with the skip pointers of `BuildSkip` and the active
chain of `SetTip`. -/
structure FetchTree (env : TreeEnv) (t : BlockTree) (tip : CBlockIndex) : Prop where
  checked : env.checkBlockIndex t = true
  skip : ∀ i ∈ t.mapBlockIndex, SkipBuilt t.pskip i
  chain : t.chainActive = .pathTo tip
  mem : tip ∈ t.mapBlockIndex

/-- The states between orderly calls are such trees. -/
theorem InOrder.fetchTree {env : TreeEnv} {t : BlockTree} {tip : CBlockIndex}
    (h : InOrder env t tip) : FetchTree env t tip where
  checked := checkBlockIndex_ok h.ok h.sound h.increasing
  skip := h.ok.index.skip
  chain := h.ok.active.chain
  mem := h.ok.active.mem

theorem fetchTree_of_orderly_run {env : TreeEnv} {t : BlockTree}
    (h : Lib.ReachableBy env.Steps (Orderly env) env.initial t) : ∃ tip, FetchTree env t tip := by
  obtain ⟨tip,ht⟩ := inOrder_of_orderly_run h
  exact ⟨tip,ht.fetchTree⟩

namespace FetchTree
variable {env : TreeEnv} {t : BlockTree} {tip i j b : CBlockIndex}

theorem closed (h : FetchTree env t tip) (hi : i ∈ t.mapBlockIndex) (hb : b ∈ i.ancestors) :
    b ∈ t.mapBlockIndex := (checkBlockIndex_iff.mp h.checked).2.1 i hi b hb

theorem linked_iff (h : FetchTree env t tip) (hi : i ∈ t.mapBlockIndex) :
    t.nChainTx i ≠ 0 ↔ t.AllData i :=
  (checkEntry_iff.mp ((checkBlockIndex_iff.mp h.checked).2.2 i hi)).linked_iff

theorem common (h : FetchTree env t tip) (hi : i ∈ t.mapBlockIndex) (hj : j ∈ t.mapBlockIndex) :
    ∃ g, g ∈ i.ancestors ∧ g ∈ j.ancestors := by
  obtain ⟨d,hd⟩ := exists_genesis_mem i
  obtain ⟨d',hd'⟩ := exists_genesis_mem j
  have heq := root_unique (checkBlockIndex_iff.mp h.checked).1 (h.closed hi hd) (h.closed hj hd')
    rfl rfl
  exact ⟨_,hd,heq ▸ hd'⟩

end FetchTree

/-- `ProcessBlockAvailability` may only replace the best known block by one of the index with at
least its work. -/
theorem processBlockAvailability_cases (s : NodeState) (state : BlockAvailability) :
    (processBlockAvailability s state).pindexLastCommonBlock = state.pindexLastCommonBlock ∧
      ((processBlockAvailability s state).pindexBestKnownBlock = state.pindexBestKnownBlock ∨
        ∃ r i, s.mapBlockIndex r = some i ∧
          (processBlockAvailability s state).pindexBestKnownBlock = some i ∧
          ∀ best ∈ state.pindexBestKnownBlock, best.nChainWork ≤ i.nChainWork) := by
  unfold processBlockAvailability
  split
  · exact ⟨rfl,.inl rfl⟩
  · split
    · exact ⟨rfl,.inl rfl⟩
    · rename_i itOld hfound
      obtain ⟨r,-,-,hr⟩ := Consensus.findByFakeHash_eq_some.mp hfound
      split
      · refine ⟨rfl,?_⟩
        simp only
        split
        · rename_i hbetter
          refine .inr ⟨r,itOld,hr,rfl,?_⟩
          intro best hbest
          rw [Option.mem_def.mp hbest] at hbetter
          simpa using hbetter
        · exact .inl rfl
      · exact ⟨rfl,.inl rfl⟩

/-- What is chosen for a peer: blocks of its branch that are wanted, lowest first, and all of them
where nothing invalid is in the window; the last common block only moves up to linked blocks. -/
structure Fetched (inp : FetchInput) (best lca last : CBlockIndex) (vBlocks : List CBlockIndex) :
    Prop where
  length : vBlocks.length ≤ inp.count
  ascending : vBlocks.Pairwise fun a b => a.nHeight < b.nHeight
  mem : ∀ b ∈ vBlocks, b ∈ best.ancestors ∧ inp.tree.haveData b = false ∧
    inp.mapBlocksInFlight.lookup b.data.fakeBIhash = none ∧
    b.nHeight ≤ lca.nHeight+blockDownloadWindow
  all : (∀ b ∈ best.ancestors, lca.nHeight < b.nHeight →
      b.nHeight ≤ lca.nHeight+blockDownloadWindow → inp.tree.isValid b .tree = true) →
    (best.ancestors.filter (inp.wanted (lca.nHeight+blockDownloadWindow))).length < inp.count →
    ∀ b ∈ best.ancestors, inp.wanted (lca.nHeight+blockDownloadWindow) b = true →
      (lca.nHeight < b.nHeight ∨ inp.tree.nChainTx lca ≠ 0) → b ∈ vBlocks
  last_mem : last ∈ best.ancestors
  last_ge : lca.nHeight ≤ last.nHeight
  linked : inp.tree.nChainTx lca ≠ 0 → inp.tree.nChainTx last ≠ 0

namespace FetchInput
variable {inp : FetchInput} {best lca b : CBlockIndex} {blocks : List CBlockIndex}

theorem wanted_iff {nWindowEnd : Nat} : inp.wanted nWindowEnd b = true ↔
    inp.tree.haveData b = false ∧ inp.mapBlocksInFlight.lookup b.data.fakeBIhash = none ∧
      b.nHeight ≤ nWindowEnd := by
  unfold wanted
  simp [and_assoc]

/-- Without invalid blocks in the window the scan reaches every wanted block. -/
theorem filter_takeWhile {nWindowEnd : Nat}
    (hasc : blocks.Pairwise fun a b => a.nHeight < b.nHeight)
    (hvalid : ∀ b ∈ blocks, b.nHeight ≤ nWindowEnd → inp.tree.isValid b .tree = true) :
    (blocks.takeWhile fun b => inp.tree.isValid b .tree).filter (inp.wanted nWindowEnd) =
      blocks.filter (inp.wanted nWindowEnd) := by
  induction blocks with
  | nil => rfl
  | cons b rest ih =>
    obtain ⟨hb,hrest⟩ := List.pairwise_cons.mp hasc
    rw [List.takeWhile_cons]
    split
    · rw [List.filter_cons,List.filter_cons,
        ih hrest fun a ha => hvalid a (List.mem_cons_of_mem _ ha)]
    · rename_i hinvalid
      have hbeyond : nWindowEnd < b.nHeight := by
        by_contra hle
        exact hinvalid (hvalid b List.mem_cons_self (by omega))
      refine (List.filter_eq_nil_iff.mpr fun a ha => ?_).symm
      have hlt : nWindowEnd < a.nHeight := by
        rcases List.mem_cons.mp ha with rfl | harest
        · exact hbeyond
        · exact hbeyond.trans (hb a harest)
      simp [wanted,hlt]

/-- Blocks that are not wanted at the end do not matter. -/
theorem filter_takeWhile_append {nWindowEnd : Nat} (first last : List CBlockIndex)
    (hlast : ∀ b ∈ last, inp.wanted nWindowEnd b = false) :
    ((first ++ last).takeWhile fun b => inp.tree.isValid b .tree).filter (inp.wanted nWindowEnd) =
      (first.takeWhile fun b => inp.tree.isValid b .tree).filter (inp.wanted nWindowEnd) := by
  induction first with
  | nil =>
    refine List.filter_eq_nil_iff.mpr fun a ha => ?_
    simp [hlast a ((List.takeWhile_sublist _).mem ha)]
  | cons b rest ih =>
    rw [List.cons_append,List.takeWhile_cons,List.takeWhile_cons]
    split
    · rw [List.filter_cons,List.filter_cons,ih]
    · rfl

/-- The blocks that one call adds. -/
def chosen (inp : FetchInput) (best lca : CBlockIndex) : List CBlockIndex :=
  (((branchAbove best lca.nHeight).takeWhile fun b => inp.tree.isValid b .tree).filter
    (inp.wanted (lca.nHeight+blockDownloadWindow))).take inp.count

theorem fetchFrom_eq (hskip : SkipBuilt inp.tree.pskip best) (hlca : lca ∈ best.ancestors)
    (hcount : 0 < inp.count) (nodeStaller : NodeId) :
    ∃ d, (∀ fuel, best.nHeight < fuel → inp.fetchFrom fuel best lca [] nodeStaller = some d) ∧
      d.vBlocks = inp.chosen best lca ∧ d.pindexLastCommonBlock ∈ best.ancestors ∧
      lca.nHeight ≤ d.pindexLastCommonBlock.nHeight ∧
      (inp.tree.nChainTx lca ≠ 0 → inp.tree.nChainTx d.pindexLastCommonBlock ≠ 0) := by
  have hle := nHeight_le_of_mem_ancestors hlca
  by_cases heq : lca = best
  · subst heq
    refine ⟨⟨[],lca,-1,nodeStaller⟩,fun fuel _ => if_pos rfl,?_,hlca,le_refl _,id⟩
    simp [chosen,branchAbove_self]
  · set nWindowEnd := lca.nHeight+blockDownloadWindow with hwindow
    obtain ⟨top,htop⟩ := @exists_ancestorAt best (min best.nHeight (nWindowEnd+1)) (by omega)
    obtain ⟨htopmem,htopheight⟩ := ancestorAt_eq_some.mp htop
    have hlcatop : lca ∈ top.ancestors := ancestors_nested hlca htopmem (by omega)
    refine ⟨leftState ((branchAbove top lca.nHeight).foldlM (inp.visit nWindowEnd)
      ⟨[],lca,-1,nodeStaller⟩),?_,?_,?_⟩
    · intro fuel hfuel
      unfold fetchFrom
      simp only [heq,if_false]
      exact fetchLoop_eq hskip htop hlcatop (by omega)
    · have hrest : ∀ b ∈ branchAbove best top.nHeight, inp.wanted nWindowEnd b = false := by
        intro b hb
        obtain ⟨hbmem,hbheight⟩ := mem_branchAbove.mp hb
        have hbbest := nHeight_le_of_mem_ancestors hbmem
        have hlt : nWindowEnd < b.nHeight := by omega
        simp [wanted,hlt]
      have hscan := @scan_vBlocks inp nWindowEnd ⟨[],lca,-1,nodeStaller⟩
        (branchAbove top lca.nHeight) (branchAbove_ascending top lca.nHeight) hcount
      unfold chosen
      rw [hscan,List.nil_append,branchAbove_append htopmem (by omega),
        filter_takeWhile_append _ _ hrest]
    · refine @scan_last inp nWindowEnd ⟨[],lca,-1,nodeStaller⟩ (branchAbove top lca.nHeight)
        (fun last => last ∈ best.ancestors ∧ lca.nHeight ≤ last.nHeight ∧
          (inp.tree.nChainTx lca ≠ 0 → inp.tree.nChainTx last ≠ 0)) ?_ ⟨hlca,le_refl _,id⟩
      intro b hb hlinked
      obtain ⟨hbmem,hbheight⟩ := mem_branchAbove.mp hb
      exact ⟨ancestors_trans hbmem htopmem,hbheight.le,fun _ => hlinked⟩

theorem chosen_all (hvalid : ∀ b ∈ best.ancestors, lca.nHeight < b.nHeight →
      b.nHeight ≤ lca.nHeight+blockDownloadWindow → inp.tree.isValid b .tree = true)
    (hfew : (best.ancestors.filter
      (inp.wanted (lca.nHeight+blockDownloadWindow))).length < inp.count)
    (hb : b ∈ best.ancestors) (hwanted : inp.wanted (lca.nHeight+blockDownloadWindow) b = true)
    (habove : lca.nHeight < b.nHeight) : b ∈ inp.chosen best lca := by
  have hsub : ((branchAbove best lca.nHeight).filter
      (inp.wanted (lca.nHeight+blockDownloadWindow))).length ≤ (best.ancestors.filter
      (inp.wanted (lca.nHeight+blockDownloadWindow))).length := by
    unfold branchAbove
    rw [List.filter_reverse,List.length_reverse]
    exact ((List.take_sublist _ _).filter _).length_le
  unfold chosen
  rw [filter_takeWhile (branchAbove_ascending best lca.nHeight) ?_,
    List.take_of_length_le (by omega)]
  · exact List.mem_filter.mpr ⟨mem_branchAbove.mpr ⟨hb,habove⟩,hwanted⟩
  · intro a ha hle
    obtain ⟨hamem,haheight⟩ := mem_branchAbove.mp ha
    exact hvalid a hamem haheight hle

theorem fetched_chosen {env : TreeEnv} {tip last : CBlockIndex} (h : FetchTree env inp.tree tip)
    (hbest : best ∈ inp.tree.mapBlockIndex) (hlca : lca ∈ best.ancestors)
    (hlast : last ∈ best.ancestors) (hge : lca.nHeight ≤ last.nHeight)
    (hlinked : inp.tree.nChainTx lca ≠ 0 → inp.tree.nChainTx last ≠ 0) :
    Fetched inp best lca last (inp.chosen best lca) where
  length := List.length_take_le _ _
  ascending :=
    (branchAbove_ascending best lca.nHeight).sublist ((List.take_sublist _ _).trans
      (List.filter_sublist.trans (List.takeWhile_sublist _)))
  mem := by
    intro b hb
    obtain ⟨hmem,hwanted⟩ := List.mem_filter.mp ((List.take_sublist _ _).mem hb)
    have hbranch := mem_branchAbove.mp ((List.takeWhile_sublist _).mem hmem)
    exact ⟨hbranch.1,wanted_iff.mp hwanted⟩
  all := by
    intro hvalid hfew b hb hwanted habove
    refine chosen_all hvalid hfew hb hwanted ?_
    rcases habove with habove | hlca'
    · exact habove
    · by_contra hlow
      have hblca : b ∈ lca.ancestors := ancestors_nested hb hlca (by omega)
      have hdata := (h.linked_iff (h.closed hbest hlca)).mp hlca' b hblca
      rw [(wanted_iff.mp hwanted).1] at hdata
      contradiction
  last_mem := hlast
  last_ge := hge
  linked := hlinked

/-- A peer whose best known block has at least the work of the tip: the call returns, whatever the
number of rounds beyond the height of that block. -/
theorem findNextBlocksToDownload_fetches {env : TreeEnv} {tip : CBlockIndex}
    (h : FetchTree env inp.tree tip) (hcount : 0 < inp.count) {state : BlockAvailability}
    (hknown : ∀ i ∈ state.pindexBestKnownBlock, i ∈ inp.tree.mapBlockIndex)
    (hlast : ∀ i ∈ state.pindexLastCommonBlock, i ∈ inp.tree.mapBlockIndex)
    (hbest : (processBlockAvailability inp.tree.node state).pindexBestKnownBlock = some best)
    (hwork : tip.nChainWork ≤ best.nChainWork) (nodeStaller : NodeId) :
    ∃ start lca last vBlocks staller,
      state.pindexLastCommonBlock.or (tip.ancestorAt (min best.nHeight tip.nHeight)) = some start ∧
      lastCommonAncestor inp.tree.pskip start best = some lca ∧ HighestCommon start best lca ∧
      (∀ fuel, best.nHeight < fuel →
        inp.findNextBlocksToDownload fuel state [] nodeStaller =
          some ({ processBlockAvailability inp.tree.node state with
            pindexLastCommonBlock := some last },vBlocks,staller)) ∧
      Fetched inp best lca last vBlocks ∧
      ((∀ i ∈ state.pindexLastCommonBlock, inp.tree.nChainTx i ≠ 0) →
        inp.tree.nChainTx tip ≠ 0 → inp.tree.nChainTx lca ≠ 0) := by
  obtain ⟨hsame,hcases⟩ := processBlockAvailability_cases inp.tree.node state
  have hbestmem : best ∈ inp.tree.mapBlockIndex := by
    rcases hcases with hold | ⟨r,i,hr,hnew,-⟩
    · exact hknown best (hold ▸ hbest)
    · rw [hbest] at hnew
      obtain rfl := Option.some.inj hnew
      exact List.mem_of_find?_eq_some hr
  obtain ⟨guess,hguess⟩ := @exists_ancestorAt tip (min best.nHeight tip.nHeight) (by omega)
  have hguesstip := (ancestorAt_eq_some.mp hguess).1
  obtain ⟨start,hstart,hstartmem,hstartlinked⟩ : ∃ start,
      state.pindexLastCommonBlock.or (some guess) = some start ∧
      start ∈ inp.tree.mapBlockIndex ∧
      ((∀ i ∈ state.pindexLastCommonBlock, inp.tree.nChainTx i ≠ 0) →
        inp.tree.nChainTx tip ≠ 0 → inp.tree.AllData start) := by
    cases hl : state.pindexLastCommonBlock with
    | none =>
      refine ⟨guess,rfl,h.closed h.mem hguesstip,?_⟩
      intro _ htip
      exact ((h.linked_iff h.mem).mp htip).ancestor hguesstip
    | some last =>
      refine ⟨last,rfl,hlast last hl,?_⟩
      intro hlinked _
      exact (h.linked_iff (hlast last hl)).mp (hlinked last rfl)
  obtain ⟨g,hgs,hgb⟩ := h.common hstartmem hbestmem
  obtain ⟨lca,hlca,hcommon⟩ :=
    lastCommonAncestor_eq (h.skip start hstartmem) (h.skip best hbestmem) hgs hgb
  obtain ⟨d,hd,hblocks,hdmem,hdge,hdlinked⟩ :=
    fetchFrom_eq (h.skip best hbestmem) hcommon.2.1 hcount nodeStaller
  refine ⟨start,lca,d.pindexLastCommonBlock,inp.chosen best lca,d.nodeStaller,
    by rw [hguess,hstart],hlca,hcommon,?_,fetched_chosen h hbestmem hcommon.2.1 hdmem hdge hdlinked,
    ?_⟩
  · intro fuel hfuel
    have hget : inp.tree.chainActive.get
        (min (best.nHeight : Int) inp.tree.chainActive.height).toNat = some guess := by
      have hmin : (min (best.nHeight : Int) tip.nHeight).toNat = min best.nHeight tip.nHeight := by
        omega
      rw [h.chain,CChain.pathTo_height,CChain.pathTo_get,hmin,hguess]
    have htip : inp.tree.chainActive.tip = some tip := by rw [h.chain,CChain.pathTo_tip]
    have hinteresting : ¬best.nChainWork < tip.nChainWork := BitVec.not_lt.mpr hwork
    unfold findNextBlocksToDownload
    simp only [Nat.ne_of_gt hcount,if_false,hbest,htip,hinteresting,hsame,hget,hstart,hlca,
      hd fuel hfuel,hblocks,Option.bind_eq_bind,Option.bind_some]
  · intro hlinked htip
    exact (h.linked_iff (h.closed hstartmem hcommon.1)).mpr
      ((hstartlinked hlinked htip).ancestor hcommon.1)

/-- Two headers on genesis, without their blocks. -/
def headerEvents : List TreeEvent := [headerArrives 0 1 0x1e0ffff0,headerArrives 1 2 0x1e0ffff0]

def headerTip : CBlockIndex :=
  numberedEntry (numberedEntry freeEnv.genesis 1 0x1e0ffff0) 2 0x1e0ffff0

theorem findNextBlocksToDownload_fetches_headers :
    ∃ t, freeEnv.run 9 freeEnv.initial headerEvents = some t ∧ ∃ start lca last vBlocks staller,
      (none : Option CBlockIndex).or
        (freeEnv.genesis.ancestorAt (min headerTip.nHeight freeEnv.genesis.nHeight)) = some start ∧
      HighestCommon start headerTip lca ∧
      (∀ fuel, headerTip.nHeight < fuel →
        (⟨t,∅,0,16⟩ : FetchInput).findNextBlocksToDownload fuel ⟨some headerTip,0,none⟩ [] (-1) =
          some (⟨some headerTip,0,some last⟩,vBlocks,staller)) ∧
      Fetched ⟨t,∅,0,16⟩ headerTip lca last vBlocks := by
  have hrun : (freeEnv.run 9 freeEnv.initial headerEvents).any (fun t =>
      t.mapBlockIndex.contains headerTip && t.chainActive.tip == some freeEnv.genesis) = true := by
    decide +kernel
  have hall : OrderlyRun freeEnv 9 freeEnv.initial headerEvents = true := by decide +kernel
  have hwork : freeEnv.genesis.nChainWork ≤ headerTip.nChainWork := by decide +kernel
  obtain ⟨t,ht,hcond⟩ := (Option.any_eq_true _ _).mp hrun
  simp only [Bool.and_eq_true,List.contains_iff_mem,beq_iff_eq] at hcond
  obtain ⟨tip,htree⟩ := fetchTree_of_orderly_run (reachableBy_run Lib.ReachableBy.init hall ht)
  obtain rfl : tip = freeEnv.genesis := by
    have htip := hcond.2
    rw [htree.chain,CChain.pathTo_tip] at htip
    exact Option.some.inj htip
  obtain ⟨start,lca,last,vBlocks,staller,hstart,-,hcommon,hcall,hfetched,-⟩ :=
    @findNextBlocksToDownload_fetches ⟨t,∅,0,16⟩ headerTip freeEnv freeEnv.genesis htree
      (Nat.succ_pos 15) ⟨some headerTip,0,none⟩ (fun i hi => Option.some.inj hi ▸ hcond.1)
      (fun i hi => absurd hi (by simp)) rfl hwork (-1)
  exact ⟨t,ht,start,lca,last,vBlocks,staller,hstart,hcommon,hcall,hfetched⟩

end FetchInput

end Anoncoin
