import Mathlib.Data.Finset.Max
import Anoncoin.BlockIdentity

/-!
The last checkpoint (checkpoints.cpp): `GetLastCheckpoint` looks a checkpoint up by the sha256d
cross reference, while the checkpoint check compares the hash that the height asks for.
-/

set_option autoImplicit false

namespace Anoncoin
open Lib

namespace Consensus
variable {net : Consensus} {s : NodeState}

/-- The entries come from accepted headers, and each of them is registered under its sha256d
hash. -/
structure Registered (net : Consensus) (s : NodeState) : Prop where
  sound : Sound net s
  reference : ∀ r i, s.mapBlockIndex r = some i →
    s.mapBlockHashCrossReference i.data.fakeBIhash = some r

/-- The checkpoints in force. -/
def activeCheckpoints (net : Consensus) : List (Nat × Uint256) :=
  if net.checkpointsEnabled then net.mapCheckpoints else []

/-- A `std::map` has its heights in ascending order. -/
def SortedCheckpoints (net : Consensus) : Prop :=
  net.mapCheckpoints.Pairwise fun c c' => c.1 < c'.1

/-- The hash that `ContextualCheckBlockHeader` passes to the checkpoint check. -/
def checkedHash (net : Consensus) (pindex : CBlockIndex) : Uint256 :=
  if net.switchHeight6 ≤ pindex.nHeight then pindex.data.hashBlock else pindex.data.fakeBIhash

/-- An entry of the index at the height of the checkpoint, which the checkpoint check accepts. -/
def IsCheckpointBlock (net : Consensus) (s : NodeState) (c : Nat × Uint256)
    (pindex : CBlockIndex) : Prop :=
  (∃ r, s.mapBlockIndex r = some pindex) ∧ pindex.nHeight = c.1 ∧
    net.checkCheckpoint c.1 (net.checkedHash pindex) = true

/-- The value of the checkpoint is the sha256d hash of the entry, whose real hash is not zero. -/
def Names (s : NodeState) (c : Nat × Uint256) (pindex : CBlockIndex) : Prop :=
  ∃ r, s.mapBlockIndex r = some pindex ∧ r ≠ 0 ∧ pindex.data.fakeBIhash = c.2

/-- What holds at a checkpoint in force and of nothing at the higher ones. -/
def Highest (net : Consensus) (P : Nat × Uint256 → CBlockIndex → Prop) (pindex : CBlockIndex) :
    Prop :=
  ∃ c ∈ net.activeCheckpoints, P c pindex ∧
    ∀ c' ∈ net.activeCheckpoints, c.1 < c'.1 → ∀ i, ¬P c' i

/-- The last checkpoint is the one of the hash rule, and a new header on a known parent below it is
not accepted. -/
structure FollowsHashRule (net : Consensus) (s : NodeState) : Prop where
  last : ∀ i, net.getLastCheckpoint s = some i ↔ Highest net (IsCheckpointBlock net s) i
  noFork : ∀ i, Highest net (IsCheckpointBlock net s) i → ∀ now work block pprev,
    s.mapBlockIndex (net.getHash block) = none → net.getHash block ≠ net.hashGenesisBlock →
    s.findByFakeHash block.hashPrevBlock = some pprev → pprev.nHeight+1 < i.nHeight →
    ∀ r, net.acceptBlockHeader s now work block ≠ .ok r

/-- The block of the highest checkpoint that has its block in the index is also the one that the
highest checkpoint names by its sha256d hash; where there is none, no checkpoint names a block. -/
structure NamedBySha256d (net : Consensus) (s : NodeState) : Prop where
  present : ∀ i, Highest net (IsCheckpointBlock net s) i → Highest net (Names s) i
  absent : ∀ c ∈ net.activeCheckpoints, ∀ i, Names s c i →
    ∃ i', Highest net (IsCheckpointBlock net s) i'

section Lookup

theorem Registered.findByFakeHash_iff (h : Registered net s) {c : Nat × Uint256}
    {pindex : CBlockIndex} : s.findByFakeHash c.2 = some pindex ↔ Names s c pindex := by
  rw [findByFakeHash_eq_some]
  constructor
  · rintro ⟨r,hr,hne,hi⟩
    obtain ⟨i,hi',hf⟩ := h.sound.reference c.2 r hr
    rw [hi] at hi'
    obtain rfl := Option.some.inj hi'
    exact ⟨r,hi,hne,hf⟩
  · rintro ⟨r,hi,hne,hf⟩
    exact ⟨r,hf ▸ h.reference r pindex hi,hne,hi⟩

theorem activeCheckpoints_sorted (h : SortedCheckpoints net) :
    net.activeCheckpoints.Pairwise fun c c' => c.1 < c'.1 := by
  unfold activeCheckpoints
  split_ifs
  · exact h
  · exact List.Pairwise.nil

theorem getLastCheckpoint_eq (net : Consensus) (s : NodeState) :
    net.getLastCheckpoint s =
      net.activeCheckpoints.reverse.findSome? fun c => s.findByFakeHash c.2 := by
  unfold getLastCheckpoint activeCheckpoints
  split_ifs <;> rfl

/-- The search from the highest checkpoint down finds the entry that the highest one names. -/
theorem getLastCheckpoint_iff (h : Registered net s) (hsorted : SortedCheckpoints net)
    (pindex : CBlockIndex) :
    net.getLastCheckpoint s = some pindex ↔ Highest net (Names s) pindex := by
  have hactive := activeCheckpoints_sorted hsorted
  rw [getLastCheckpoint_eq,List.findSome?_eq_some_iff]
  constructor
  · rintro ⟨above,c,below,hsplit,hfind,hnone⟩
    have hlist : net.activeCheckpoints = below.reverse ++ c :: above.reverse := by
      rw [← List.reverse_reverse net.activeCheckpoints,hsplit]
      simp
    rw [hlist] at hactive
    refine ⟨c,by rw [hlist]; simp,h.findByFakeHash_iff.mp hfind,fun c' hc' hless i hnames => ?_⟩
    have hfound := h.findByFakeHash_iff.mpr hnames
    rw [hlist] at hc'
    rcases List.mem_append.mp hc' with hc' | hc'
    · have := (List.pairwise_append.mp hactive).2.2 c' hc' c List.mem_cons_self
      omega
    · rcases List.mem_cons.mp hc' with rfl | hc'
      · exact Nat.lt_irrefl _ hless
      · rw [hnone c' (List.mem_reverse.mp hc')] at hfound
        cases hfound
  · rintro ⟨c,hc,hnames,hhigher⟩
    obtain ⟨below,above,hlist⟩ := List.append_of_mem hc
    rw [hlist] at hactive hhigher
    refine ⟨above.reverse,c,below.reverse,by rw [hlist]; simp,h.findByFakeHash_iff.mpr hnames,
      fun c' hc' => ?_⟩
    have hmem := List.mem_reverse.mp hc'
    have hless := (List.pairwise_cons.mp (List.pairwise_append.mp hactive).2.1).1 c' hmem
    cases hfind : s.findByFakeHash c'.2 with
    | none => rfl
    | some i =>
      exact absurd (h.findByFakeHash_iff.mp hfind) (hhigher c' (by simp [hmem]) hless i)

/-- Where some checkpoint has the property, there is a highest one. -/
theorem exists_highest {P : Nat × Uint256 → CBlockIndex → Prop} {c : Nat × Uint256}
    {pindex : CBlockIndex} (hc : c ∈ net.activeCheckpoints) (h : P c pindex) :
    ∃ i, Highest net P i := by
  classical
  obtain ⟨c',hc',hmax⟩ := Finset.exists_max_image
    (net.activeCheckpoints.toFinset.filter fun c => ∃ i, P c i) Prod.fst
    ⟨c,Finset.mem_filter.mpr ⟨List.mem_toFinset.mpr hc,pindex,h⟩⟩
  obtain ⟨hmem,i,hi⟩ := Finset.mem_filter.mp hc'
  refine ⟨i,c',List.mem_toFinset.mp hmem,hi,fun d hd hless j hj => ?_⟩
  have hle := hmax d (Finset.mem_filter.mpr ⟨List.mem_toFinset.mpr hd,j,hj⟩)
  omega

theorem lookup_checkpoint (hsorted : SortedCheckpoints net) {c : Nat × Uint256}
    (hc : c ∈ net.mapCheckpoints) : net.mapCheckpoints.lookup c.1 = some c.2 := by
  obtain ⟨below,above,hsplit⟩ := List.append_of_mem hc
  unfold SortedCheckpoints at hsorted
  rw [hsplit] at hsorted
  rw [List.lookup_eq_some_iff]
  refine ⟨below,above,hsplit,fun d hd => ?_⟩
  have hless := (List.pairwise_append.mp hsorted).2.2 d hd c List.mem_cons_self
  simpa using Nat.ne_of_gt hless

theorem mem_activeCheckpoints {c : Nat × Uint256} :
    c ∈ net.activeCheckpoints ↔ net.checkpointsEnabled = true ∧ c ∈ net.mapCheckpoints := by
  unfold activeCheckpoints
  split_ifs with henabled
  · exact (and_iff_right henabled).symm
  · exact iff_of_false List.not_mem_nil fun h => henabled h.1

/-- The checkpoint check accepts an entry if it compares it with the value of the checkpoint. -/
theorem isCheckpointBlock_iff (hsorted : SortedCheckpoints net) {c : Nat × Uint256}
    (hc : c ∈ net.activeCheckpoints) (pindex : CBlockIndex) :
    IsCheckpointBlock net s c pindex ↔ (∃ r, s.mapBlockIndex r = some pindex) ∧
      pindex.nHeight = c.1 ∧ net.checkedHash pindex = c.2 := by
  obtain ⟨henabled,hmem⟩ := mem_activeCheckpoints.mp hc
  unfold IsCheckpointBlock checkCheckpoint
  rw [if_pos henabled,lookup_checkpoint hsorted hmem,Option.all_some,beq_iff_eq]

end Lookup

section HashRule

/-- The hash of an accepted header that is checked at its height is the one of its entry. -/
theorem checkedHash_eq (h : Sound net s) {r : Uint256} {pindex : CBlockIndex}
    (hindex : s.mapBlockIndex r = some pindex) :
    ∃ block : CBlockHeader, block.FromWire ∧ net.getHash block = r ∧
      net.checkedHash pindex = if net.switchHeight6 ≤ pindex.nHeight then net.getHash block
        else block.calcSha256dHash net.hashes := by
  obtain ⟨block,hwire,hhash,hdata,-⟩ := h.entry r pindex hindex
  refine ⟨block,hwire,hhash,?_⟩
  unfold checkedHash
  rw [hdata]
  rfl

theorem contextualCheckBlockHeader_below {work : Uint32} {block : CBlockHeader}
    {pprev pindex : CBlockIndex} (hgen : net.getHash block ≠ net.hashGenesisBlock)
    (hlast : net.getLastCheckpoint s = some pindex) (hbelow : pprev.nHeight+1 < pindex.nHeight) :
    net.contextualCheckBlockHeader s work block (some pprev) = .error (.dos 100 "") := by
  have hfork : ((some pindex).all fun p => !decide (pprev.nHeight+1 < p.nHeight)) = false := by
    simpa using hbelow
  unfold contextualCheckBlockHeader
  simp only [if_neg hgen,orThrow_some,ok_bind,hlast]
  rw [hfork]
  rfl

/-- A new header on a known parent below the last checkpoint is not accepted. -/
theorem acceptBlockHeader_below {now : Int} {work : Uint32} {block : CBlockHeader}
    {pprev pindex : CBlockIndex} (hnew : s.mapBlockIndex (net.getHash block) = none)
    (hgen : net.getHash block ≠ net.hashGenesisBlock)
    (hprev : s.findByFakeHash block.hashPrevBlock = some pprev)
    (hlast : net.getLastCheckpoint s = some pindex) (hbelow : pprev.nHeight+1 < pindex.nHeight)
    (r : CBlockIndex × NodeState) : net.acceptBlockHeader s now work block ≠ .ok r := by
  have hprevious : Meets AnyFailure (net.getPrev s block) fun p => p = some pprev := by
    unfold getPrev
    simp only [if_neg hgen,hprev,orThrow_some,ok_bind]
    apply (Meets.ensure trivial).bind
    intro _ _
    exact rfl
  have hrefused : Meets AnyFailure (net.acceptBlockHeader s now work block) fun _ => False := by
    unfold acceptBlockHeader
    simp only [hnew]
    apply (checkBlockHeader_meets s.tip now block).bind
    intro _ _
    apply hprevious.bind
    rintro _ rfl
    rw [contextualCheckBlockHeader_below hgen hlast hbelow]
    exact trivial
  exact fun hacc => hrefused.result hacc

/-- `GetLastCheckpoint` follows the hash rule exactly where the sha256d hash finds the block. -/
theorem followsHashRule_iff (h : Registered net s) (hsorted : SortedCheckpoints net) :
    FollowsHashRule net s ↔ NamedBySha256d net s := by
  have hlookup := getLastCheckpoint_iff h hsorted
  constructor
  · intro hrule
    refine ⟨fun i hi => (hlookup i).mp ((hrule.last i).mpr hi),fun c hc i hnames => ?_⟩
    obtain ⟨i',hi'⟩ := exists_highest hc hnames
    exact ⟨i',(hrule.last i').mp ((hlookup i').mpr hi')⟩
  · intro hnamed
    have hlast : ∀ i, net.getLastCheckpoint s = some i ↔
        Highest net (IsCheckpointBlock net s) i := by
      intro i
      constructor
      · intro hi
        obtain ⟨c,hc,hnames,-⟩ := (hlookup i).mp hi
        obtain ⟨i',hi'⟩ := hnamed.absent c hc i hnames
        have hsame := (hlookup i').mpr (hnamed.present i' hi')
        rw [hi] at hsame
        rw [Option.some.inj hsame]
        exact hi'
      · exact fun hi => (hlookup i).mpr (hnamed.present i hi)
    exact ⟨hlast,fun i hi now work block pprev hnew hgen hprev hbelow =>
      acceptBlockHeader_below hnew hgen hprev ((hlast i).mpr hi) hbelow⟩

/-- No checkpoint has the sha256d hash of another block than its own as its value. -/
def NamesOwnBlocks (net : Consensus) (s : NodeState) : Prop :=
  ∀ c ∈ net.activeCheckpoints, ∀ i, Names s c i → IsCheckpointBlock net s c i

/-- With such a map the condition is that the highest checkpoint that has its block in the index is
below the last switch height, or the two hashes of the block are equal. -/
theorem namedBySha256d_iff (h : Registered net s) (hsorted : SortedCheckpoints net)
    (hown : NamesOwnBlocks net s) :
    NamedBySha256d net s ↔ ∀ c ∈ net.activeCheckpoints, ∀ i, IsCheckpointBlock net s c i →
      (∀ c' ∈ net.activeCheckpoints, c.1 < c'.1 → ∀ j, ¬IsCheckpointBlock net s c' j) →
      i.data.hashBlock ≠ 0 ∧
        (c.1 < net.switchHeight6 ∨ i.data.fakeBIhash = i.data.hashBlock) := by
  have hkey : ∀ {r i}, s.mapBlockIndex r = some i → i.data.hashBlock = r := by
    intro r i hi
    obtain ⟨block,-,hhash,hdata,-⟩ := h.sound.entry r i hi
    rw [hdata]
    exact hhash
  constructor
  · intro hnamed c hc i hblock habove
    obtain ⟨d,hd,⟨r,hi,hne,hfake⟩,-⟩ := hnamed.present i ⟨c,hc,hblock,habove⟩
    have hdblock := (isCheckpointBlock_iff hsorted hd i).mp (hown d hd i ⟨r,hi,hne,hfake⟩)
    have hcblock := (isCheckpointBlock_iff hsorted hc i).mp hblock
    refine ⟨by rwa [hkey hi],?_⟩
    by_cases hlow : c.1 < net.switchHeight6
    · exact .inl hlow
    · right
      have hchecked := hdblock.2.2
      unfold checkedHash at hchecked
      rw [if_pos (by omega)] at hchecked
      rw [hfake,hchecked]
  · intro hall
    constructor
    · rintro i ⟨c,hc,hblock,habove⟩
      obtain ⟨hne,hhash⟩ := hall c hc i hblock habove
      obtain ⟨⟨r,hi⟩,hheight,hchecked⟩ := (isCheckpointBlock_iff hsorted hc i).mp hblock
      refine ⟨c,hc,⟨r,hi,hkey hi ▸ hne,?_⟩,fun c' hc' hless j hnames =>
        habove c' hc' hless j (hown c' hc' j hnames)⟩
      rw [← hchecked]
      unfold checkedHash
      split_ifs with hhigh
      · exact hhash.resolve_left (by omega)
      · rfl
    · exact fun c hc i hnames => exists_highest hc (hown c hc i hnames)

/-- A new entry under a sha256d hash that is not registered yet is registered. -/
theorem Registered.added (h : Registered net s) {block : CBlockHeader} {pindex : CBlockIndex}
    (hsound : Sound net (net.addedState s block pindex)) (hdata : pindex.data = net.indexData block)
    (hfresh : s.mapBlockHashCrossReference (block.calcSha256dHash net.hashes) = none) :
    Registered net (net.addedState s block pindex) := by
  refine ⟨hsound,fun r i hi => ?_⟩
  by_cases hr : r = net.getHash block
  · rw [hr,addedState_self] at hi
    rw [← Option.some.inj hi,hdata,hr]
    show (net.addedState s block pindex).mapBlockHashCrossReference
      (block.calcSha256dHash net.hashes) = _
    simp [addedState,NodeState.setRealHash,hfresh]
  · rw [addedState_mapBlockIndex hr] at hi
    have hreference := h.reference r i hi
    rw [addedState_crossReference]
    · exact hreference
    · intro hsame
      rw [hsame,hfresh] at hreference
      cases hreference

theorem registered_initial (net : Consensus) : Registered net .initial :=
  ⟨⟨fun _ _ h => by contradiction,fun _ _ h => by contradiction⟩,fun _ _ h => by contradiction⟩

/-- The genesis block as the checkpoint of height zero. -/
def genesisNet : Consensus :=
  { numberedNet with checkpointsEnabled := true, mapCheckpoints := [(0,1)] }

theorem registered_genesis :
    Registered numberedNet (numberedNet.addedState .initial steadyGenesis (steadyChain 0)) :=
  (registered_initial numberedNet).added steadyReached_zero.reachable.sound rfl rfl

theorem followsHashRule_iff_genesis :
    FollowsHashRule genesisNet (numberedNet.addedState .initial steadyGenesis (steadyChain 0)) ↔
      NamedBySha256d genesisNet
        (numberedNet.addedState .initial steadyGenesis (steadyChain 0)) :=
  followsHashRule_iff ⟨⟨registered_genesis.sound.entry,registered_genesis.sound.reference⟩,
    registered_genesis.reference⟩ (List.pairwise_singleton _ _)

theorem steadyRegistered {n : Nat} (hn : n ≤ numberedNet.switchHeight6) :
    ∃ s, SteadyReached n s ∧ Registered numberedNet s := by
  have h31 : numberedNet.switchHeight6 < 2^31 := by decide
  induction n with
  | zero => exact ⟨_,steadyReached_zero,registered_genesis⟩
  | succ n ih =>
    obtain ⟨s,hs,hregistered⟩ := ih (by omega)
    have hnext := steadyReached_added hs (by omega) hn
    have hsha : (steadyHeader 2 (BitVec.ofNat 32 (n+1)) n).calcSha256dHash numberedNet.hashes =
        BitVec.ofNat 256 (n+1+1) := by
      rw [numberedNet_sha256d,steadyHeader_nNonce (by omega)]
    refine ⟨_,hnext,hregistered.added hnext.reachable.sound rfl ?_⟩
    rw [hsha]
    exact hs.unreferenced _ (by rw [blockNumber_toNat (by omega)]; omega)

/-- The first header of version 3, at the last switch height. -/
def switchHeader : CBlockHeader := steadyHeader 3 (BitVec.ofNat 32 871111) 871110

/-- Its entry, on top of the chain of version 2. -/
def switchEntry : CBlockIndex := .child (numberedNet.indexData switchHeader) (steadyChain 871110)

def switchHash : Uint256 := BitVec.ofNat 256 (2^200+871111)

/-- The checkpoint of the last switch height, with the proof-of-work hash of its block. -/
def switchNet : Consensus :=
  { numberedNet with checkpointsEnabled := true, mapCheckpoints := [(871111,switchHash)] }

theorem getHash_switchHeader : numberedNet.getHash switchHeader = switchHash := by decide +kernel

theorem sha256d_switchHeader :
    switchHeader.calcSha256dHash numberedNet.hashes = BitVec.ofNat 256 871112 := by
  decide +kernel

theorem accept_switchHeader {s : NodeState} (hs : SteadyReached 871110 s) :
    numberedNet.acceptBlockHeader s (871110+1 : Nat) 0x1e0ffff0 switchHeader =
      .ok (switchEntry,numberedNet.addedState s switchHeader switchEntry) := by
  have hctx := @contextual_steady s 3 (BitVec.ofNat 32 871111) 871110 (by decide) (by decide)
    (by decide)
  refine acceptBlockHeader_new (hs.unindexed _ ?_) ?_ ?_ (blockNumber_ne_zero (by decide)) hs.found
    (hs.failed _) hctx
  · rw [getHash_switchHeader]
    decide
  · exact checkBlockHeader_eq_ok (by decide +kernel) (steadyTime _ _ _)
  · rw [getHash_switchHeader]
    decide

/-- With the block of the last switch height in the index, its checkpoint is not found. -/
theorem switchNet_not_followsHashRule :
    ∃ s, numberedNet.Reachable s ∧ Registered switchNet s ∧ SortedCheckpoints switchNet ∧
      Highest switchNet (IsCheckpointBlock switchNet s) switchEntry ∧
      switchNet.getLastCheckpoint s = none ∧ ¬FollowsHashRule switchNet s := by
  obtain ⟨s,hs,hregistered⟩ := @steadyRegistered 871110 (by decide)
  have hreachable := hs.reachable.accept (steadyHeader_wire 3 (BitVec.ofNat 32 871111) 871110)
    (accept_switchHeader hs)
  have hadded := hregistered.added hreachable.sound rfl (by
    rw [sha256d_switchHeader]
    exact hs.unreferenced _ (by decide))
  have hindex : (numberedNet.addedState s switchHeader switchEntry).mapBlockIndex switchHash =
      some switchEntry := by
    rw [← getHash_switchHeader]
    exact addedState_self ..
  have hsorted : SortedCheckpoints switchNet := List.pairwise_singleton _ _
  have hactive : switchNet.activeCheckpoints = [(871111,switchHash)] := rfl
  have hmem : (871111,switchHash) ∈ switchNet.activeCheckpoints := List.mem_singleton.mpr rfl
  have hheight : switchEntry.nHeight = 871111 := steadyChild_nHeight _ 871110
  have hchecked : switchNet.checkedHash switchEntry = switchHash := by
    unfold checkedHash
    rw [if_pos (by rw [hheight]; decide)]
    exact getHash_switchHeader
  have hhighest : Highest switchNet (IsCheckpointBlock switchNet
      (numberedNet.addedState s switchHeader switchEntry)) switchEntry := by
    refine ⟨(871111,switchHash),hmem,
      (isCheckpointBlock_iff hsorted hmem _).mpr ⟨⟨_,hindex⟩,hheight,hchecked⟩,?_⟩
    intro c' hc' hless
    rw [hactive,List.mem_singleton] at hc'
    rw [hc'] at hless
    exact absurd hless (Nat.lt_irrefl _)
  have hlast : switchNet.getLastCheckpoint
      (numberedNet.addedState s switchHeader switchEntry) = none := by
    have hreference : (numberedNet.addedState s switchHeader switchEntry).mapBlockHashCrossReference
        switchHash = none := by
      rw [addedState_crossReference (by rw [sha256d_switchHeader]; decide)]
      exact hs.unreferenced _ (by decide)
    have hfind : (numberedNet.addedState s switchHeader switchEntry).findByFakeHash switchHash =
        none := by
      unfold NodeState.findByFakeHash NodeState.getRealHash
      rw [hreference]
      rfl
    rw [getLastCheckpoint_eq,hactive,List.reverse_singleton,List.findSome?_cons,hfind]
    rfl
  refine ⟨_,hreachable,⟨⟨hadded.sound.entry,hadded.sound.reference⟩,hadded.reference⟩,
    hsorted,hhighest,hlast,fun hrule => ?_⟩
  have hfound := (hrule.last switchEntry).mpr hhighest
  rw [hlast] at hfound
  cases hfound

end HashRule

end Consensus

end Anoncoin
