import Anoncoin.TreeLabels

/-!
The block index on disk and back: `CDiskBlockIndex` (chain.h), `LoadBlockIndexGuts`
(txdb.cpp) and `LoadBlockIndexDB` (main.cpp). When a tree that was written comes back.
-/

set_option autoImplicit false

namespace Anoncoin
open CBlockIndex Lib

/-- `nStatus` by its parts. -/
structure BlockStatus where
  validity : Validity
  haveData : Bool
  haveUndo : Bool
  failedValid : Bool
  failedChild : Bool
  deriving DecidableEq, Repr

def BlockTree.nStatus (t : BlockTree) (i : CBlockIndex) : BlockStatus :=
  ⟨t.validity i,t.haveData i,t.haveUndo i,t.failedValid i,t.failedChild i⟩

/-- Where the block and its undo data are. The tree of entries does not hold this. -/
structure FilePositions where
  nFile : Nat
  nDataPos : Nat
  nUndoPos : Nat
  deriving DecidableEq, Repr

/-- `GetBlockPos`; a null position when there is no data. -/
def getBlockPos (nStatus : BlockStatus) (pos : FilePositions) : Option (Nat × Nat) :=
  if nStatus.haveData then some (pos.nFile,pos.nDataPos) else none

/-- `GetUndoPos`. -/
def getUndoPos (nStatus : BlockStatus) (pos : FilePositions) : Option (Nat × Nat) :=
  if nStatus.haveUndo then some (pos.nFile,pos.nUndoPos) else none

/-- The fields of `CDiskBlockIndex` that its serialization names. -/
structure BlockIndexRecord extends CDiskBlockIndex where
  nStatus : BlockStatus
  nTx : Nat
  pos : FilePositions
  deriving DecidableEq, Repr

namespace BlockIndexRecord

/-- The constructor from an entry of the tree. -/
def ofIndex (t : BlockTree) (pos : CBlockIndex → FilePositions) (i : CBlockIndex) :
    BlockIndexRecord :=
  { CDiskBlockIndex.ofIndex i with nStatus := t.nStatus i, nTx := t.nTx i, pos := pos i }

/-- What is read back of a record. Positions are written only with the status that needs
them, and stay zero in the fresh object otherwise. -/
def readBack (d : BlockIndexRecord) : BlockIndexRecord :=
  { d with pos :=
      ⟨if d.nStatus.haveData || d.nStatus.haveUndo then d.pos.nFile else 0,
        if d.nStatus.haveData then d.pos.nDataPos else 0,
        if d.nStatus.haveUndo then d.pos.nUndoPos else 0⟩ }

end BlockIndexRecord

/-- The records under 'b', by the real hash. -/
abbrev BlockIndexRecords := AList fun _ : Uint256 => BlockIndexRecord

/-- `WriteBlockIndex`. -/
def writeBlockIndex (t : BlockTree) (pos : CBlockIndex → FilePositions) (db : BlockIndexRecords)
    (i : CBlockIndex) : BlockIndexRecords := db.insert i.data.hashBlock (.ofIndex t pos i)

/-- A `CBlockIndex` object while the index is loaded: `fakeBIhash` holds the hash of the
parent for a time. -/
structure LoadedIndex where
  fakeBIhash : Uint256
  nHeight : Nat
  nStatus : BlockStatus
  nTx : Nat
  pos : FilePositions
  nVersion : Uint32
  hashMerkleRoot : Uint256
  nTime : Uint32
  nBits : Uint32
  nNonce : Uint32
  deriving DecidableEq, Repr

structure BlockTreeEntry where
  nHeight : Nat
  pBlockIndex : LoadedIndex
  uintRealHash : Uint256
  deriving DecidableEq, Repr

/-- One round of the cursor loop. -/
def BlockTreeEntry.ofRecord (uintRealHash : Uint256) (diskindex : BlockIndexRecord) :
    BlockTreeEntry :=
  ⟨diskindex.nHeight,⟨diskindex.hashPrev,diskindex.nHeight,diskindex.nStatus,diskindex.nTx,
    diskindex.pos,diskindex.nVersion,diskindex.hashMerkleRoot,diskindex.nTime,diskindex.nBits,
    diskindex.nNonce⟩,uintRealHash⟩

def loadBlockIndexGuts (db : BlockIndexRecords) : List BlockTreeEntry :=
  db.entries.map fun e => .ofRecord e.1 e.2.readBack

/-- The ways in which loading ends early. -/
inductive LoadFailure where
  | assertion
  | shutdown
  | missingFile
  deriving DecidableEq, Repr

abbrev Loading := Except LoadFailure

/-- The header that the first pass rebuilds. -/
def LoadedIndex.aHeader (o : LoadedIndex) : CBlockHeader where
  nVersion := o.nVersion
  hashPrevBlock := o.fakeBIhash
  hashMerkleRoot := o.hashMerkleRoot
  nTime := o.nTime
  nBits := o.nBits
  nNonce := o.nNonce
  nHeight := BitVec.ofNat 32 o.nHeight

/-- The variables of the first pass. `vFakeHashes` has reserved storage that is written
and read by position. -/
structure CrossState where
  nHeight : Nat
  fDoubleCheckingHash : Bool
  vFakeHashes : Nat → Uint256
  mapBlockHashCrossReference : Uint256 → Option Uint256

def CrossState.start : CrossState := ⟨0,true,fun _ => 0,fun _ => none⟩

/-- Whether the entry at a position gets its hash computed; the difference is taken in
32 bits. -/
def rechecks (nBIsize : Nat) (fDoubleCheckingHash : Bool) (nHeight : Nat) : Bool :=
  fDoubleCheckingHash || decide (uint32 (nBIsize+2^32-1000) < nHeight)

/-- One round of the first pass. A hash that differs requests a shutdown, and the loop
returns at its end. -/
def crossReference (net : Consensus) (nBIsize : Nat) (s : CrossState) (entry : BlockTreeEntry) :
    Loading CrossState := do
  let pindex := entry.pBlockIndex
  ensure (pindex.fakeBIhash != 0 || pindex.nHeight == 0) .assertion
  let aFakeHash := pindex.aHeader.calcSha256dHash net.hashes
  let aRealHash := if rechecks nBIsize s.fDoubleCheckingHash s.nHeight then
    net.getHash pindex.aHeader else entry.uintRealHash
  ensure (aRealHash == entry.uintRealHash) .shutdown
  pure
    { nHeight := s.nHeight+1
      fDoubleCheckingHash := s.fDoubleCheckingHash && !decide (100 < s.nHeight)
      vFakeHashes := Function.update s.vFakeHashes s.nHeight aFakeHash
      mapBlockHashCrossReference := if (s.mapBlockHashCrossReference aFakeHash).isSome then
        s.mapBlockHashCrossReference
        else Function.update s.mapBlockHashCrossReference aFakeHash (some aRealHash) }

/-- The variables of the second pass, with the objects that are linked so far. -/
structure LinkState where
  nHeight : Nat
  mapBlockIndex : AList fun _ : Uint256 => CBlockIndex
  linked : List (CBlockIndex × LoadedIndex)

def LinkState.start : LinkState := ⟨0,∅,[]⟩

/-- The parent of an object, found through the cross reference. -/
def findPrev (cross : Uint256 → Option Uint256) (mapBlockIndex : AList fun _ : Uint256 => CBlockIndex)
    (pindex : LoadedIndex) : Loading (Option CBlockIndex) :=
  if pindex.fakeBIhash ≠ 0 then
    let aRealHash := (cross pindex.fakeBIhash).getD 0
    (orThrow (if aRealHash ≠ 0 then mapBlockIndex.lookup aRealHash else none)
      .assertion).map some
  else pure none

/-- The object with its parent and its own hashes. -/
def LoadedIndex.link (pindex : LoadedIndex) (pprev : Option CBlockIndex)
    (fakeBIhash uintRealHash : Uint256) : CBlockIndex :=
  let data : IndexData := ⟨pindex.nVersion,pindex.hashMerkleRoot,pindex.nTime,pindex.nBits,
    pindex.nNonce,fakeBIhash,uintRealHash⟩
  pprev.elim (.genesis data) (.child data)

/-- One round of the second pass. -/
def linkEntry (cross : Uint256 → Option Uint256) (vFakeHashes : Nat → Uint256) (s : LinkState)
    (entry : BlockTreeEntry) : Loading LinkState := do
  let pprev ← findPrev cross s.mapBlockIndex entry.pBlockIndex
  let pindex := entry.pBlockIndex.link pprev (vFakeHashes s.nHeight) entry.uintRealHash
  pure
    { nHeight := s.nHeight+1
      mapBlockIndex := if (s.mapBlockIndex.lookup entry.uintRealHash).isSome then s.mapBlockIndex
        else s.mapBlockIndex.insert entry.uintRealHash pindex
      linked := s.linked ++ [(pindex,entry.pBlockIndex)] }

/-- The tree that is loaded, with the fields that the tree does not hold or that are given
by its shape elsewhere. -/
structure LoadedTree where
  tree : BlockTree
  nHeight : CBlockIndex → Nat
  nChainWork : CBlockIndex → Uint256
  pos : CBlockIndex → FilePositions

def LoadedTree.start (cross : Uint256 → Option Uint256) : LoadedTree where
  tree :=
    { mapBlockIndex := []
      mapBlockHashCrossReference := cross
      pskip _ := none
      validity _ := .unknown
      haveData _ := false
      haveUndo _ := false
      failedValid _ := false
      failedChild _ := false
      nTx _ := 0
      nChainTx _ := 0
      nSequenceId _ := 0
      chainActive := ⟨[]⟩
      setBlockIndexCandidates := []
      mapBlocksUnlinked := []
      pindexBestInvalid := none
      nBlockSequenceId := 1 }
  nHeight _ := 0
  nChainWork _ := 0
  pos _ := ⟨0,0,0⟩

/-- The fields that the object has from disk. -/
def BlockTree.place (t : BlockTree) (i : CBlockIndex) (o : LoadedIndex) : BlockTree :=
  { t with
    mapBlockIndex := t.mapBlockIndex ++ [i]
    validity := Function.update t.validity i o.nStatus.validity
    haveData := Function.update t.haveData i o.nStatus.haveData
    haveUndo := Function.update t.haveUndo i o.nStatus.haveUndo
    failedValid := Function.update t.failedValid i o.nStatus.failedValid
    failedChild := Function.update t.failedChild i o.nStatus.failedChild
    nTx := Function.update t.nTx i o.nTx }

/-- The part of the third pass that sets `nChainTx`, or lets the block wait for its
parent. -/
def BlockTree.placeTx (t : BlockTree) (i : CBlockIndex) : BlockTree :=
  if t.haveData i then
    match i.pprev with
    | none => { t with nChainTx := Function.update t.nChainTx i (t.nTx i) }
    | some p =>
        if t.nChainTx p ≠ 0 then
          { t with nChainTx := Function.update t.nChainTx i (t.nChainTx p+t.nTx i) }
        else { t with
          nChainTx := Function.update t.nChainTx i 0
          mapBlocksUnlinked := t.mapBlocksUnlinked ++ [(p,i)] }
  else t

def BlockTree.placeCandidate (t : BlockTree) (i : CBlockIndex) : BlockTree :=
  if t.isValid i .transactions && (t.nChainTx i != 0 || i.pprev.isNone) then t.insertCandidate i
  else t

def BlockTree.placeInvalid (t : BlockTree) (nChainWork : CBlockIndex → Uint256) (i : CBlockIndex) :
    BlockTree :=
  if t.failed i && t.pindexBestInvalid.all fun b => decide (nChainWork b < nChainWork i) then
    { t with pindexBestInvalid := some i }
  else t

/-- `BuildSkip`. -/
def BlockTree.placeSkip (t : BlockTree) (i : CBlockIndex) : BlockTree :=
  match i.pprev with
  | none => t
  | some p => { t with
      pskip := Function.update t.pskip i (p.getAncestor t.pskip (getSkipHeight i.nHeight)) }

/-- One round of the third pass; `pindexBestHeader` is not part of the tree. -/
def LoadedTree.finish (l : LoadedTree) (e : CBlockIndex × LoadedIndex) : LoadedTree :=
  let nChainWork := Function.update l.nChainWork e.1
    ((e.1.pprev.elim 0 l.nChainWork)+getBlockProof e.2.nBits)
  { tree := ((((l.tree.place e.1 e.2).placeTx e.1).placeCandidate e.1).placeInvalid nChainWork
      e.1).placeSkip e.1
    nHeight := Function.update l.nHeight e.1 e.2.nHeight
    nChainWork := nChainWork
    pos := Function.update l.pos e.1 e.2.pos }

/-- The end of `LoadBlockIndexDB`, from the coins' best block. -/
def TreeEnv.loadTip (env : TreeEnv) (mapBlockIndex : AList fun _ : Uint256 => CBlockIndex)
    (viewBestBlock : Uint256) (l : LoadedTree) : Loading LoadedTree :=
  match if viewBestBlock ≠ 0 then mapBlockIndex.lookup viewBestBlock else none with
  | none => pure l
  | some tip => do
      let t ← orThrow (env.pruneBlockIndexCandidates
        { l.tree with chainActive := l.tree.chainActive.setTip (some tip) }) .assertion
      pure { l with tree := t }

/-- `LoadBlockIndexDB`, on the entries in the order that the sort left them in. Whether
the block files can be opened is `haveFile`. -/
def TreeEnv.loadBlockIndexDB (env : TreeEnv) (haveFile : Nat → Bool) (viewBestBlock : Uint256)
    (vSortedByHeight : List BlockTreeEntry) : Loading LoadedTree := do
  let s ← vSortedByHeight.foldlM (crossReference env.net vSortedByHeight.length) .start
  let b ← vSortedByHeight.foldlM (linkEntry s.mapBlockHashCrossReference s.vFakeHashes) .start
  let l := b.linked.foldl LoadedTree.finish (.start s.mapBlockHashCrossReference)
  ensure (b.linked.all fun e => !e.2.nStatus.haveData || haveFile e.2.pos.nFile) .missingFile
  env.loadTip b.mapBlockIndex viewBestBlock l

/-- What the calls that build a tree see to, beyond the assertions of `CheckBlockIndex`: the
entries are kept under their hashes, data comes with the checks of it, and the active chain
ends at an entry. -/
structure Recorded (env : TreeEnv) (t : BlockTree) (tip : CBlockIndex) : Prop
    extends Labelled env t where
  nodup : t.mapBlockIndex.Nodup
  hashes : ∀ i ∈ t.mapBlockIndex, ∀ j ∈ t.mapBlockIndex,
    i.data.hashBlock = j.data.hashBlock → i = j
  transactions : ∀ i ∈ t.mapBlockIndex, t.haveData i = true → 3 ≤ (t.validity i).level
  chain : t.chainActive = .pathTo tip
  mem : tip ∈ t.mapBlockIndex

theorem InOrder.recorded {env : TreeEnv} {t : BlockTree} {tip : CBlockIndex}
    (h : InOrder env t tip) (hlabels : Labelled env t) : Recorded env t tip :=
  { hlabels with
    nodup := h.ok.index.nodup
    hashes := h.ok.index.hashes
    transactions := h.ok.index.transactions
    chain := h.ok.active.chain
    mem := h.ok.active.mem }

/-- Every entry was written, in its last state. -/
def Flushed (t : BlockTree) (pos : CBlockIndex → FilePositions) (db : BlockIndexRecords) : Prop :=
  ∀ h, db.lookup h =
    (t.mapBlockIndex.find? fun i => i.data.hashBlock == h).map (BlockIndexRecord.ofIndex t pos)

/-- The entry that is loaded for an entry of the tree. -/
def entryOf (t : BlockTree) (pos : CBlockIndex → FilePositions) (i : CBlockIndex) :
    BlockTreeEntry :=
  .ofRecord i.data.hashBlock (BlockIndexRecord.ofIndex t pos i).readBack

section Sorted
variable {env : TreeEnv} {t : BlockTree} {tip : CBlockIndex} {pos : CBlockIndex → FilePositions}
  {db : BlockIndexRecords}

theorem mem_iff_find_hash (hhashes : ∀ i ∈ t.mapBlockIndex, ∀ j ∈ t.mapBlockIndex,
      i.data.hashBlock = j.data.hashBlock → i = j) {i : CBlockIndex} {h : Uint256} :
    (t.mapBlockIndex.find? fun i => i.data.hashBlock == h) = some i ↔
      i ∈ t.mapBlockIndex ∧ i.data.hashBlock = h := by
  constructor
  · intro hf
    exact ⟨List.mem_of_find?_eq_some hf,by simpa using List.find?_some hf⟩
  · rintro ⟨hi,rfl⟩
    cases hf : t.mapBlockIndex.find? fun j => j.data.hashBlock == i.data.hashBlock with
    | none => exact absurd (List.find?_eq_none.mp hf i hi) (by simp)
    | some j =>
      have hj : j.data.hashBlock = i.data.hashBlock := by simpa using List.find?_some hf
      rw [hhashes j (List.mem_of_find?_eq_some hf) i hi hj]

theorem Flushed.mem_entries (h : Flushed t pos db) (hk : Recorded env t tip) {e : BlockTreeEntry} :
    e ∈ loadBlockIndexGuts db ↔ ∃ i ∈ t.mapBlockIndex, entryOf t pos i = e := by
  simp only [loadBlockIndexGuts,List.mem_map]
  constructor
  · rintro ⟨⟨hash,d⟩,hd,rfl⟩
    have hl := AList.mem_lookup_iff.mpr hd
    rw [Option.mem_def,h,Option.map_eq_some_iff] at hl
    obtain ⟨i,hfind,rfl⟩ := hl
    obtain ⟨hi,rfl⟩ := (mem_iff_find_hash hk.hashes).mp hfind
    exact ⟨i,hi,rfl⟩
  · rintro ⟨i,hi,rfl⟩
    refine ⟨⟨i.data.hashBlock,BlockIndexRecord.ofIndex t pos i⟩,?_,rfl⟩
    rw [← AList.mem_lookup_iff,Option.mem_def,h,(mem_iff_find_hash hk.hashes).mpr ⟨hi,rfl⟩]
    rfl

/-- Writing all the entries, in any order, leaves them all written. -/
theorem flushed_of_writes {entries : List CBlockIndex}
    (hhashes : ∀ i ∈ t.mapBlockIndex, ∀ j ∈ t.mapBlockIndex,
      i.data.hashBlock = j.data.hashBlock → i = j)
    (hentries : ∀ i, i ∈ entries ↔ i ∈ t.mapBlockIndex) :
    Flushed t pos (entries.foldl (writeBlockIndex t pos) ∅) := by
  have hwritten : ∀ written : List CBlockIndex, (∀ i ∈ written, i ∈ t.mapBlockIndex) →
      ∀ h d, (written.foldl (writeBlockIndex t pos) ∅).lookup h = some d ↔
        ∃ i ∈ written, i.data.hashBlock = h ∧ BlockIndexRecord.ofIndex t pos i = d := by
    intro written
    induction written using List.reverseRecOn with
    | nil => simp
    | append_singleton written i ih =>
      intro hmem h d
      have hold := ih (fun j hj => hmem j (by simp [hj])) h d
      rw [List.foldl_append,List.foldl_cons,List.foldl_nil,writeBlockIndex]
      by_cases hh : h = i.data.hashBlock
      · subst hh
        rw [AList.lookup_insert,Option.some.injEq]
        constructor
        · intro hd
          exact ⟨i,by simp,rfl,hd⟩
        · rintro ⟨j,hj,hhash,hd⟩
          rwa [← hhashes j (hmem j hj) i (hmem i (by simp)) hhash]
      · rw [AList.lookup_insert_ne hh,hold]
        constructor
        · rintro ⟨j,hj,hrest⟩
          exact ⟨j,by simp [hj],hrest⟩
        · rintro ⟨j,hj,hhash,hd⟩
          rcases List.mem_append.mp hj with hj | hj
          · exact ⟨j,hj,hhash,hd⟩
          · rw [List.mem_singleton.mp hj] at hhash
            exact absurd hhash.symm hh
  intro h
  apply Option.ext
  intro d
  rw [hwritten entries fun i hi => (hentries i).mp hi,Option.map_eq_some_iff]
  constructor
  · rintro ⟨i,hi,hhash,hd⟩
    exact ⟨i,(mem_iff_find_hash hhashes).mpr ⟨(hentries i).mp hi,hhash⟩,hd⟩
  · rintro ⟨i,hfind,hd⟩
    obtain ⟨hi,hhash⟩ := (mem_iff_find_hash hhashes).mp hfind
    exact ⟨i,(hentries i).mpr hi,hhash,hd⟩

/-- A list whose elements all come from a function. -/
theorem exists_map_eq {α β : Type} {f : α → β} {p : α → Prop} {l : List β}
    (h : ∀ b ∈ l, ∃ a, p a ∧ f a = b) : ∃ l' : List α, l'.map f = l ∧ ∀ a ∈ l', p a := by
  induction l with
  | nil => exact ⟨[],rfl,by simp⟩
  | cons b rest ih =>
    obtain ⟨a,ha,rfl⟩ := h b (by simp)
    obtain ⟨l',rfl,hl'⟩ := ih fun x hx => h x (by simp [hx])
    refine ⟨a :: l',rfl,?_⟩
    intro x hx
    obtain rfl | hx := List.mem_cons.mp hx
    · exact ha
    · exact hl' x hx

theorem loadBlockIndexGuts_nodup (db : BlockIndexRecords) : (loadBlockIndexGuts db).Nodup := by
  unfold loadBlockIndexGuts
  refine List.Nodup.map_on ?_ db.nodupKeys.nodup
  intro a ha b hb hab
  have hkey : a.1 = b.1 := congrArg BlockTreeEntry.uintRealHash hab
  exact db.nodupKeys.eq_of_fst_eq ha hb hkey

/-- The sorted vector is the tree in an order in which parents come first. -/
theorem exists_order (hk : Recorded env t tip) (hdb : Flushed t pos db)
    {vSortedByHeight : List BlockTreeEntry}
    (hperm : vSortedByHeight.Perm (loadBlockIndexGuts db))
    (hsorted : vSortedByHeight.Pairwise fun a b => a.nHeight ≤ b.nHeight) :
    ∃ order : List CBlockIndex, vSortedByHeight = order.map (entryOf t pos) ∧
      order.Perm t.mapBlockIndex ∧ order.Pairwise fun a b => a.nHeight ≤ b.nHeight := by
  obtain ⟨order,rfl,horder⟩ := @exists_map_eq _ _ (entryOf t pos) (· ∈ t.mapBlockIndex)
    vSortedByHeight fun e he => by
      obtain ⟨i,hi,rfl⟩ := (hdb.mem_entries hk).mp (hperm.subset he)
      exact ⟨i,hi,rfl⟩
  have hnodup : order.Nodup :=
    List.Nodup.of_map _ (hperm.nodup_iff.mpr (loadBlockIndexGuts_nodup db))
  refine ⟨order,rfl,?_,?_⟩
  · refine (List.perm_ext_iff_of_nodup hnodup hk.nodup).mpr fun i => ⟨horder i,fun hi => ?_⟩
    have hmem := hperm.symm.subset ((hdb.mem_entries hk).mpr ⟨i,hi,rfl⟩)
    obtain ⟨j,hj,heq⟩ := List.mem_map.mp hmem
    have hhash : j.data.hashBlock = i.data.hashBlock := congrArg BlockTreeEntry.uintRealHash heq
    rwa [← hk.hashes j (horder j hj) i hi hhash]
  · have hheights := List.pairwise_map.mp hsorted
    exact hheights

theorem parent_before {order earlier later : List CBlockIndex} {i p : CBlockIndex}
    (hheights : order.Pairwise fun a b => a.nHeight ≤ b.nHeight)
    (horder : order = earlier ++ i :: later) (hp : i.pprev = some p) (hpm : p ∈ order) :
    p ∈ earlier := by
  subst horder
  have hlt := nHeight_pprev hp
  obtain hpm | hpm := List.mem_append.mp hpm
  · exact hpm
  · obtain rfl | hpm := List.mem_cons.mp hpm
    · omega
    · have hle := List.rel_of_pairwise_cons (List.pairwise_append.mp hheights).2.1 hpm
      omega

end Sorted

section Passes
variable {env : TreeEnv} {t : BlockTree} {tip : CBlockIndex} {pos : CBlockIndex → FilePositions}

/-- The rechecked positions: the first 102, and those behind the last thousand. -/
def recheckedAt (nBIsize nHeight : Nat) : Bool := rechecks nBIsize (decide (nHeight < 102)) nHeight

/-- Every entry whose hash is computed again has the hash that it is kept under. -/
def Rechecked (env : TreeEnv) (nBIsize : Nat) (order : List CBlockIndex) : Prop :=
  ∀ n i, order[n]? = some i → recheckedAt nBIsize n = true →
    i.getBlockPowHash env.net.hashes env.net.testNet = i.data.hashBlock

/-- The state of the first pass after some entries. -/
def crossAfter (order : List CBlockIndex) : CrossState where
  nHeight := order.length
  fDoubleCheckingHash := decide (order.length < 102)
  vFakeHashes n := (order[n]?.map fun i => i.data.fakeBIhash).getD 0
  mapBlockHashCrossReference f :=
    (order.find? fun i => i.data.fakeBIhash == f).map fun i => i.data.hashBlock

theorem entryOf_aHeader (i : CBlockIndex) :
    (entryOf t pos i).pBlockIndex.aHeader = i.getBlockHeader := by
  cases i <;> rfl

theorem Recorded.prev_checked (hk : Recorded env t tip)
    (hclosed : ∀ i ∈ t.mapBlockIndex, ∀ a ∈ i.ancestors, a ∈ t.mapBlockIndex) {i : CBlockIndex}
    (hi : i ∈ t.mapBlockIndex) :
    ((entryOf t pos i).pBlockIndex.fakeBIhash != 0 ||
      (entryOf t pos i).pBlockIndex.nHeight == 0) = true := by
  cases i with
  | genesis d => rfl
  | child d p =>
    have hp := (hk.nonzero p (hclosed _ hi p (by simp))).1
    have hprev : (entryOf t pos (.child d p)).pBlockIndex.fakeBIhash = p.data.fakeBIhash := rfl
    have hne : (p.data.fakeBIhash != 0) = true := bne_iff_ne.mpr hp
    rw [hprev,hne,Bool.true_or]

theorem crossAfter_snoc {order : List CBlockIndex} {i : CBlockIndex}
    (hnew : ∀ j ∈ order, j.data.fakeBIhash ≠ i.data.fakeBIhash) :
    crossAfter (order ++ [i]) =
      { nHeight := order.length+1
        fDoubleCheckingHash := decide (order.length < 102) && !decide (100 < order.length)
        vFakeHashes := Function.update (crossAfter order).vFakeHashes order.length i.data.fakeBIhash
        mapBlockHashCrossReference :=
          Function.update (crossAfter order).mapBlockHashCrossReference i.data.fakeBIhash
            (some i.data.hashBlock) } := by
  have hfind : (order.find? fun j => j.data.fakeBIhash == i.data.fakeBIhash) = none := by
    rw [List.find?_eq_none]
    intro j hj
    simpa using hnew j hj
  unfold crossAfter
  rw [CrossState.mk.injEq]
  refine ⟨by simp,?_,?_,?_⟩
  · rw [List.length_append,List.length_singleton,← decide_not,← Bool.decide_and]
    congr 1
    simp only [eq_iff_iff]
    omega
  · funext n
    by_cases hn : n = order.length
    · subst hn
      simp
    · rw [Function.update_of_ne hn]
      simp only
      by_cases hlt : n < order.length
      · rw [List.getElem?_append_left hlt]
      · have hle : order.length ≤ n := by omega
        rw [List.getElem?_append_right hle,List.getElem?_eq_none hle,
          List.getElem?_eq_none (by simp; omega)]
  · funext f
    by_cases hf : f = i.data.fakeBIhash
    · subst hf
      rw [List.find?_append,hfind]
      simp
    · rw [Function.update_of_ne hf,List.find?_append]
      have hne : (i.data.fakeBIhash == f) = false := by simpa using Ne.symm hf
      simp [hne]

/-- The first pass goes through exactly when the hashes it computes are right. -/
theorem crossReference_iff (hk : Recorded env t tip)
    (hclosed : ∀ i ∈ t.mapBlockIndex, ∀ a ∈ i.ancestors, a ∈ t.mapBlockIndex) {nBIsize : Nat}
    {order : List CBlockIndex} (hmem : ∀ i ∈ order, i ∈ t.mapBlockIndex) (hnodup : order.Nodup)
    (s : CrossState) :
    (order.map (entryOf t pos)).foldlM (crossReference env.net nBIsize) .start = .ok s ↔
      Rechecked env nBIsize order ∧ s = crossAfter order := by
  induction order using List.reverseRecOn generalizing s with
  | nil =>
    have hrechecked : Rechecked env nBIsize [] := by
      intro n i hi
      simp at hi
    have hstart : crossAfter [] = CrossState.start := rfl
    simp only [List.map_nil,List.foldlM_nil,pure,Except.pure,Except.ok.injEq,hrechecked,true_and,
      hstart]
    exact eq_comm
  | append_singleton order i ih =>
    have hi : i ∈ t.mapBlockIndex := hmem i (by simp)
    have hold : ∀ j ∈ order, j ∈ t.mapBlockIndex := fun j hj => hmem j (by simp [hj])
    have hnodup' := List.nodup_append.mp hnodup
    have hnew : ∀ j ∈ order, j.data.fakeBIhash ≠ i.data.fakeBIhash := by
      intro j hj heq
      obtain rfl := hk.fakeHashes j (hold j hj) i hi heq
      exact hnodup'.2.2 j hj j (by simp) rfl
    have hfree : (crossAfter order).mapBlockHashCrossReference i.data.fakeBIhash = none := by
      simp only [crossAfter,Option.map_eq_none_iff,List.find?_eq_none]
      intro j hj
      simpa using hnew j hj
    have hsplit : Rechecked env nBIsize (order ++ [i]) ↔ Rechecked env nBIsize order ∧
        (recheckedAt nBIsize order.length = true →
          i.getBlockPowHash env.net.hashes env.net.testNet = i.data.hashBlock) := by
      constructor
      · intro h
        refine ⟨fun n j hj => ?_,h order.length i (by simp)⟩
        obtain ⟨hlt,-⟩ := List.getElem?_eq_some_iff.mp hj
        exact h n j (by rw [List.getElem?_append_left hlt]; exact hj)
      · rintro ⟨h,hlast⟩ n j hj
        rcases Nat.lt_trichotomy n order.length with hlt | rfl | hgt
        · rw [List.getElem?_append_left hlt] at hj
          exact h n j hj
        · simp only [List.getElem?_concat_length,Option.some.injEq] at hj
          rw [← hj]
          exact hlast
        · rw [List.getElem?_eq_none (by simp; omega)] at hj
          contradiction
    have hround : crossReference env.net nBIsize (crossAfter order) (entryOf t pos i) =
        if recheckedAt nBIsize order.length = true ∧
          i.getBlockPowHash env.net.hashes env.net.testNet ≠ i.data.hashBlock then
          .error .shutdown else .ok (crossAfter (order ++ [i])) := by
      rw [crossAfter_snoc hnew]
      unfold crossReference
      simp only [hk.prev_checked hclosed hi,ensure_true,ok_bind,entryOf_aHeader,hk.sha256d i hi,hfree]
      have hchecks : rechecks nBIsize (crossAfter order).fDoubleCheckingHash (crossAfter order).nHeight =
          recheckedAt nBIsize order.length := rfl
      have hhash : (entryOf t pos i).uintRealHash = i.data.hashBlock := rfl
      have hpow : env.net.getHash i.getBlockHeader =
          i.getBlockPowHash env.net.hashes env.net.testNet := rfl
      rw [hchecks,hhash,hpow]
      cases hr : recheckedAt nBIsize order.length with
      | false =>
        simp only [Bool.false_eq_true,if_false,beq_self_eq_true,ensure_true,ok_bind,false_and]
        rfl
      | true =>
        by_cases heq : i.getBlockPowHash env.net.hashes env.net.testNet = i.data.hashBlock
        · simp only [if_true,heq,beq_self_eq_true,ensure_true,ok_bind,ne_eq,not_true_eq_false,
            and_false,if_false]
          rfl
        · have hne : (i.getBlockPowHash env.net.hashes env.net.testNet == i.data.hashBlock) = false :=
            beq_eq_false_iff_ne.mpr heq
          simp only [if_true,hne,ne_eq,heq,not_false_eq_true,and_self]
          rfl
    rw [List.map_append,List.foldlM_append,bind_ok_iff,hsplit]
    simp only [List.map_cons,List.map_nil,List.foldlM_cons,List.foldlM_nil,bind_pure]
    constructor
    · rintro ⟨s',hs',hlast⟩
      obtain ⟨hrechecked,rfl⟩ := (ih hold hnodup'.1 s').mp hs'
      rw [hround] at hlast
      split at hlast
      · contradiction
      · rename_i hcond
        refine ⟨⟨hrechecked,fun hr => ?_⟩,(Except.ok.inj hlast).symm⟩
        by_contra hne
        exact hcond ⟨hr,hne⟩
    · rintro ⟨⟨hrechecked,hlast⟩,rfl⟩
      refine ⟨crossAfter order,(ih hold hnodup'.1 _).mpr ⟨hrechecked,rfl⟩,?_⟩
      rw [hround,if_neg]
      exact fun hcond => hcond.2 (hlast hcond.1)

/-- A search by a key that no two of the entries share. -/
theorem find_of_key {key : CBlockIndex → Uint256} {order : List CBlockIndex} {i : CBlockIndex}
    (hkey : ∀ j ∈ order, key j = key i → j = i) (hi : i ∈ order) :
    (order.find? fun j => key j == key i) = some i := by
  cases hf : order.find? fun j => key j == key i with
  | none => exact absurd (List.find?_eq_none.mp hf i hi) (by simp)
  | some j =>
    have hj : key j = key i := by simpa using List.find?_some hf
    rw [hkey j (List.mem_of_find?_eq_some hf) hj]

theorem link_self (i : CBlockIndex) :
    (entryOf t pos i).pBlockIndex.link i.pprev i.data.fakeBIhash i.data.hashBlock = i := by
  cases i <;> rfl

/-- The parents of the entries in an order come before them. -/
def ParentsFirst (order : List CBlockIndex) : Prop :=
  ∀ earlier i later, order = earlier ++ i :: later → ∀ p, i.pprev = some p → p ∈ earlier

/-- The second pass finds every parent, and gives every object its place in the tree. -/
theorem linkEntries_ok (hk : Recorded env t tip)
    {order earlier : List CBlockIndex} (hmem : ∀ i ∈ order, i ∈ t.mapBlockIndex)
    (hnodup : order.Nodup) (hparents : ParentsFirst order) (hstart : earlier <+: order) :
    ∃ m, (earlier.map (entryOf t pos)).foldlM
        (linkEntry (crossAfter order).mapBlockHashCrossReference (crossAfter order).vFakeHashes)
        .start = .ok ⟨earlier.length,m,earlier.map fun i => (i,(entryOf t pos i).pBlockIndex)⟩ ∧
      ∀ h, m.lookup h = earlier.find? fun i => i.data.hashBlock == h := by
  induction earlier using List.reverseRecOn with
  | nil => exact ⟨∅,rfl,fun h => by simp⟩
  | append_singleton earlier i ih =>
    obtain ⟨m,hrun,hlookup⟩ := ih ((List.prefix_append _ _).trans hstart)
    obtain ⟨later,hlater⟩ := hstart
    have horder : order = earlier ++ i :: later := by
      rw [← hlater]
      simp
    have hi : i ∈ t.mapBlockIndex := hmem i (by rw [horder]; simp)
    have hold : ∀ j ∈ earlier, j ∈ order := fun j hj => by
      rw [horder]
      exact List.mem_append_left _ hj
    have hfake : (crossAfter order).vFakeHashes earlier.length = i.data.fakeBIhash := by
      simp [crossAfter,horder]
    have hprev : findPrev (crossAfter order).mapBlockHashCrossReference m
        (entryOf t pos i).pBlockIndex = .ok i.pprev := by
      cases hp : i.pprev with
      | none =>
        have hzero : (entryOf t pos i).pBlockIndex.fakeBIhash = 0 := by
          change ((i.pprev.map fun p => p.data.fakeBIhash).getD 0) = 0
          rw [hp]
          rfl
        simp only [findPrev,hzero,ne_eq,not_true_eq_false,if_false]
        rfl
      | some p =>
        have hpe := hparents earlier i later horder p hp
        have hpm := hmem p (hold p hpe)
        have hprev : (entryOf t pos i).pBlockIndex.fakeBIhash = p.data.fakeBIhash := by
          change ((i.pprev.map fun p => p.data.fakeBIhash).getD 0) = p.data.fakeBIhash
          rw [hp]
          rfl
        have hcross : (crossAfter order).mapBlockHashCrossReference p.data.fakeBIhash =
            some p.data.hashBlock := by
          have hfind := @find_of_key (fun j => j.data.fakeBIhash) order p
            (fun j hj heq => hk.fakeHashes j (hmem j hj) p hpm heq) (hold p hpe)
          simp only [crossAfter,hfind,Option.map_some]
        have hfound : m.lookup p.data.hashBlock = some p := by
          rw [hlookup]
          exact @find_of_key (fun j => j.data.hashBlock) earlier p
            (fun j hj heq => hk.hashes j (hmem j (hold j hj)) p hpm heq) hpe
        unfold findPrev
        rw [hprev,if_pos (hk.nonzero p hpm).1]
        simp only
        rw [hcross,Option.getD_some,if_pos (hk.nonzero p hpm).2,hfound]
        rfl
    have hfresh : (earlier.find? fun j => j.data.hashBlock == i.data.hashBlock) = none := by
      rw [List.find?_eq_none]
      intro j hj heq
      have hji := hk.hashes j (hmem j (hold j hj)) i hi (by simpa using heq)
      rw [horder] at hnodup
      exact (List.nodup_append.mp hnodup).2.2 j hj i (by simp) hji
    have hnone : m.lookup (entryOf t pos i).uintRealHash = none := (hlookup _).trans hfresh
    refine ⟨m.insert i.data.hashBlock i,?_,?_⟩
    · rw [List.map_append,List.foldlM_append,hrun]
      simp only [ok_bind,List.map_cons,List.map_nil,List.foldlM_cons,List.foldlM_nil,bind_pure,
        linkEntry,hprev,hfake,hnone,Option.isSome_none,Bool.false_eq_true,if_false]
      have hself : (entryOf t pos i).pBlockIndex.link i.pprev i.data.fakeBIhash
          (entryOf t pos i).uintRealHash = i := link_self i
      rw [hself,List.length_append,List.map_append]
      rfl
    · intro h
      rw [List.find?_append]
      by_cases hh : h = i.data.hashBlock
      · subst hh
        rw [AList.lookup_insert,hfresh]
        simp
      · have hne : (i.data.hashBlock == h) = false := beq_eq_false_iff_ne.mpr (Ne.symm hh)
        rw [AList.lookup_insert_ne hh,hlookup]
        simp [hne]

end Passes

namespace BlockTree
variable (t : BlockTree) (i : CBlockIndex)

theorem placeTx_eq : ∃ c u, t.placeTx i = { t with nChainTx := c, mapBlocksUnlinked := u } ∧
    (∀ j, j ≠ i → c j = t.nChainTx j) ∧
    (t.haveData i = false → c i = t.nChainTx i) ∧
    (t.haveData i = true → i.pprev = none → c i = t.nTx i) ∧
    (t.haveData i = true → ∀ p, i.pprev = some p →
      c i = if t.nChainTx p ≠ 0 then t.nChainTx p+t.nTx i else 0) ∧
    (u = t.mapBlocksUnlinked ∧ (∀ p, i.pprev = some p → t.haveData i = true → t.nChainTx p ≠ 0) ∨
      ∃ p, i.pprev = some p ∧ t.haveData i = true ∧ t.nChainTx p = 0 ∧
        u = t.mapBlocksUnlinked ++ [(p,i)]) := by
  unfold placeTx
  cases hd : t.haveData i with
  | false => exact ⟨_,_,rfl,fun _ _ => rfl,fun _ => rfl,by simp,by simp,.inl ⟨rfl,by simp⟩⟩
  | true =>
    cases hp : i.pprev with
    | none =>
      refine ⟨_,_,rfl,fun j hj => Function.update_of_ne hj _ _,by simp,?_,by simp,
        .inl ⟨rfl,by simp⟩⟩
      intro _ _
      exact Function.update_self ..
    | some p =>
      simp only [if_true]
      by_cases hz : t.nChainTx p = 0
      · rw [if_neg (not_not.mpr hz)]
        refine ⟨_,_,rfl,fun j hj => Function.update_of_ne hj _ _,by simp,by simp,?_,
          .inr ⟨p,rfl,trivial,hz,rfl⟩⟩
        intro _ q hq
        obtain rfl := Option.some.inj hq
        rw [if_neg (not_not.mpr hz)]
        exact Function.update_self ..
      · rw [if_pos hz]
        refine ⟨_,_,rfl,fun j hj => Function.update_of_ne hj _ _,by simp,by simp,?_,
          .inl ⟨rfl,?_⟩⟩
        · intro _ q hq
          obtain rfl := Option.some.inj hq
          rw [if_pos hz]
          exact Function.update_self ..
        · intro q hq _
          obtain rfl := Option.some.inj hq
          exact hz

theorem placeCandidate_eq : ∃ c, t.placeCandidate i = { t with setBlockIndexCandidates := c } ∧
    ∀ x, x ∈ c ↔ x ∈ t.setBlockIndexCandidates ∨
      (x = i ∧ t.isValid i .transactions = true ∧ (t.nChainTx i ≠ 0 ∨ i.pprev = none)) := by
  unfold placeCandidate
  split
  · rename_i h
    refine ⟨_,rfl,fun x => ?_⟩
    simp only [Bool.and_eq_true,Bool.or_eq_true,bne_iff_ne,Option.isNone_iff_eq_none] at h
    simp only [List.mem_insert_iff,h,and_self,and_true]
    exact or_comm
  · rename_i h
    refine ⟨_,rfl,fun x => ?_⟩
    simp only [Bool.and_eq_true,Bool.or_eq_true,bne_iff_ne,Option.isNone_iff_eq_none] at h
    simp only [h,and_false,or_false]

theorem placeInvalid_eq (nChainWork : CBlockIndex → Uint256) :
    ∃ b, t.placeInvalid nChainWork i = { t with pindexBestInvalid := b } := by
  unfold placeInvalid
  split
  · exact ⟨_,rfl⟩
  · exact ⟨_,rfl⟩

theorem placeSkip_eq : ∃ s, t.placeSkip i = { t with pskip := s } ∧
    (∀ j, j ≠ i → s j = t.pskip j) ∧
    ∀ p, i.pprev = some p → s i = p.getAncestor t.pskip (getSkipHeight i.nHeight) := by
  unfold placeSkip
  cases i with
  | genesis d => exact ⟨_,rfl,fun _ _ => rfl,by simp [pprev]⟩
  | child d q =>
    refine ⟨_,rfl,fun j hj => Function.update_of_ne hj _ _,?_⟩
    intro p hp
    obtain rfl := Option.some.inj hp
    exact Function.update_self ..

end BlockTree

/-- The tree while its entries are loaded, against the tree that was written. -/
structure LoadedPart (t : BlockTree) (pos : CBlockIndex → FilePositions) (cross : Uint256 → Option Uint256)
    (earlier : List CBlockIndex) (l : LoadedTree) : Prop where
  index : l.tree.mapBlockIndex = earlier
  status : ∀ i ∈ earlier, l.tree.nStatus i = t.nStatus i
  nTx : ∀ i ∈ earlier, l.tree.nTx i = t.nTx i
  chainTx : ∀ i ∈ earlier, l.tree.nChainTx i = t.nChainTx i
  unset : ∀ i, i ∉ earlier → l.tree.nChainTx i = 0
  sequence : ∀ i, l.tree.nSequenceId i = 0
  counter : l.tree.nBlockSequenceId = 1
  skip : ∀ i ∈ earlier, SkipBuilt l.tree.pskip i
  candidates : ∀ x, x ∈ l.tree.setBlockIndexCandidates ↔ x ∈ earlier ∧
    t.isValid x .transactions = true ∧ (t.nChainTx x ≠ 0 ∨ x.pprev = none)
  unlinked : ∀ p x, (p,x) ∈ l.tree.mapBlocksUnlinked ↔ x ∈ earlier ∧ x.pprev = some p ∧
    t.haveData x = true ∧ t.nChainTx p = 0
  unlinked_nodup : l.tree.mapBlocksUnlinked.Nodup
  cross : l.tree.mapBlockHashCrossReference = cross
  chain : l.tree.chainActive = ⟨[]⟩
  height : ∀ i ∈ earlier, l.nHeight i = i.nHeight
  work : ∀ i ∈ earlier, l.nChainWork i = i.nChainWork
  pos : ∀ i ∈ earlier, l.pos i = (BlockIndexRecord.ofIndex t pos i).readBack.pos

section ThirdPass
variable {env : TreeEnv} {t : BlockTree} {tip i : CBlockIndex} {pos : CBlockIndex → FilePositions}
  {cross : Uint256 → Option Uint256} {earlier order : List CBlockIndex} {l : LoadedTree}

/-- A beginning of such an order holds the ancestors of its entries. -/
theorem ParentsFirst.closed (h : ParentsFirst order) (hstart : earlier <+: order)
    (hi : i ∈ earlier) : ∀ a ∈ i.ancestors, a ∈ earlier := by
  intro a ha
  refine of_mem_ancestors (P := fun x => x ∈ earlier) (fun x p hx hp => ?_) hi ha
  obtain ⟨later,rfl⟩ := hstart
  obtain ⟨e₁,e₂,rfl⟩ := List.append_of_mem hx
  have hbefore : p ∈ e₁ := h e₁ x (e₂ ++ later) (by simp) p hp
  exact List.mem_append_left _ hbefore

/-- `nChainTx` follows from the parent's and from what the entry has on disk. -/
theorem Recorded.nChainTx_eq (hk : Recorded env t tip)
    (hlinked : ∀ i ∈ t.mapBlockIndex, t.nChainTx i ≠ 0 ↔ t.AllData i) (hi : i ∈ t.mapBlockIndex)
    (hp : ∀ p, i.pprev = some p → p ∈ t.mapBlockIndex) :
    (t.haveData i = false → t.nChainTx i = 0) ∧
    (t.haveData i = true → i.pprev = none → t.nChainTx i = t.nTx i) ∧
    ∀ p, t.haveData i = true → i.pprev = some p →
      t.nChainTx i = if t.nChainTx p ≠ 0 then t.nChainTx p+t.nTx i else 0 := by
  refine ⟨fun hd => ?_,fun hd hp => ?_,fun p hd hpp => ?_⟩
  · by_contra hne
    have hall := (hlinked i hi).mp hne i (self_mem_ancestors i)
    rw [hd] at hall
    contradiction
  · have hall : t.AllData i := by
      intro a ha
      cases i with
      | genesis d => rwa [List.mem_singleton.mp ha]
      | child d q => simp [pprev] at hp
    rw [hk.chainTx i hi ((hlinked i hi).mpr hall),hp]
    simp
  · split
    · rename_i hne
      have hall : t.AllData i := by
        intro a ha
        obtain rfl | hap := (mem_ancestors_pprev hpp).mp ha
        · exact hd
        · exact (hlinked p (hp p hpp)).mp hne a hap
      rw [hk.chainTx i hi ((hlinked i hi).mpr hall),hpp]
      rfl
    · rename_i hz
      by_contra hne
      have hall := (hlinked i hi).mp hne
      exact hz ((hlinked p (hp p hpp)).mpr (hall.ancestor (pprev_mem_ancestors hpp)))

/-- What one round of the third pass leaves. -/
theorem LoadedTree.finish_eq (l : LoadedTree) (i : CBlockIndex) (o : LoadedIndex) :
    ∃ c u ca b s, (l.finish (i,o)).tree = { l.tree.place i o with
        nChainTx := c, mapBlocksUnlinked := u, setBlockIndexCandidates := ca,
        pindexBestInvalid := b, pskip := s } ∧
      (∀ j, j ≠ i → c j = l.tree.nChainTx j) ∧
      (o.nStatus.haveData = false → c i = l.tree.nChainTx i) ∧
      (o.nStatus.haveData = true → i.pprev = none → c i = o.nTx) ∧
      (o.nStatus.haveData = true → ∀ p, i.pprev = some p →
        c i = if l.tree.nChainTx p ≠ 0 then l.tree.nChainTx p+o.nTx else 0) ∧
      (u = l.tree.mapBlocksUnlinked ∧ (∀ p, i.pprev = some p → o.nStatus.haveData = true →
          l.tree.nChainTx p ≠ 0) ∨
        ∃ p, i.pprev = some p ∧ o.nStatus.haveData = true ∧ l.tree.nChainTx p = 0 ∧
          u = l.tree.mapBlocksUnlinked ++ [(p,i)]) ∧
      (∀ x, x ∈ ca ↔ x ∈ l.tree.setBlockIndexCandidates ∨
        (x = i ∧ (l.tree.place i o).isValid i .transactions = true ∧
          (c i ≠ 0 ∨ i.pprev = none))) ∧
      (∀ j, j ≠ i → s j = l.tree.pskip j) ∧
      ∀ p, i.pprev = some p → s i = p.getAncestor l.tree.pskip (getSkipHeight i.nHeight) := by
  obtain ⟨c,u,htx,hold,hno,hroot,hchild,hu⟩ := (l.tree.place i o).placeTx_eq i
  obtain ⟨ca,hcand,hca⟩ := ((l.tree.place i o).placeTx i).placeCandidate_eq i
  obtain ⟨b,hbest⟩ := (((l.tree.place i o).placeTx i).placeCandidate i).placeInvalid_eq i
    (l.finish (i,o)).nChainWork
  obtain ⟨s,hskip,hsold,hsnew⟩ := ((((l.tree.place i o).placeTx i).placeCandidate i).placeInvalid
    (l.finish (i,o)).nChainWork i).placeSkip_eq i
  have hdata : (l.tree.place i o).haveData i = o.nStatus.haveData := Function.update_self ..
  have hntx : (l.tree.place i o).nTx i = o.nTx := Function.update_self ..
  rw [hdata] at hno hroot hchild hu
  rw [hntx] at hroot hchild
  rw [htx] at hca
  have hpskip : ((((l.tree.place i o).placeTx i).placeCandidate i).placeInvalid
      (l.finish (i,o)).nChainWork i).pskip = l.tree.pskip := by
    rw [hbest,hcand,htx]
    rfl
  rw [hpskip] at hsold hsnew
  refine ⟨c,u,ca,b,s,?_,hold,hno,hroot,hchild,hu,hca,hsold,hsnew⟩
  calc (l.finish (i,o)).tree = _ := hskip
    _ = _ := by rw [hbest,hcand,htx]

theorem LoadedPart.start (t : BlockTree) (pos : CBlockIndex → FilePositions)
    (cross : Uint256 → Option Uint256) : LoadedPart t pos cross [] (.start cross) where
  index := rfl
  status := by simp
  nTx := by simp
  chainTx := by simp
  unset _ _ := rfl
  sequence _ := rfl
  counter := rfl
  skip := by simp
  candidates := by simp [LoadedTree.start]
  unlinked := by simp [LoadedTree.start]
  unlinked_nodup := List.nodup_nil
  cross := rfl
  chain := rfl
  height := by simp
  work := by simp
  pos := by simp

/-- A field that agrees on the earlier entries, and is set for the next. -/
theorem update_snoc {β : Type} {f g : CBlockIndex → β} {v : β} (h : ∀ j ∈ earlier, f j = g j)
    (hv : v = g i) : ∀ j ∈ earlier ++ [i], Function.update f i v j = g j := by
  intro j hj
  by_cases hji : j = i
  · subst hji
    rw [Function.update_self,hv]
  · have hje : j ∈ earlier := by simpa [hji] using hj
    rw [Function.update_of_ne hji,h j hje]

/-- The skip pointers with that of the next entry. -/
theorem skipBuilt_snoc {pskip s : CBlockIndex → Option CBlockIndex}
    (h : ∀ j ∈ earlier, SkipBuilt pskip j) (hnew : i ∉ earlier)
    (hclosed : ∀ j ∈ earlier, ∀ a ∈ j.ancestors, a ∈ earlier)
    (hparent : ∀ p, i.pprev = some p → p ∈ earlier) (hold : ∀ j, j ≠ i → s j = pskip j)
    (hi : ∀ p, i.pprev = some p → s i = p.getAncestor pskip (getSkipHeight i.nHeight)) :
    ∀ j ∈ earlier ++ [i], SkipBuilt s j := by
  have hskip : ∀ j ∈ earlier, SkipBuilt s j := by
    intro j hj a ha p hp
    rw [hold a fun he => hnew (he ▸ hclosed j hj a ha)]
    exact h j hj a ha p hp
  intro j hj
  obtain hj | hj := List.mem_append.mp hj
  · exact hskip j hj
  · obtain rfl := List.mem_singleton.mp hj
    intro a ha p hp
    by_cases haj : a = j
    · subst haj
      have hheight := nHeight_pprev hp
      have hlt := @getSkipHeight_lt a.nHeight (by omega)
      exact (hi p hp).trans (getAncestor_eq (h p (hparent p hp)) (by omega))
    · cases hjp : j.pprev with
      | none =>
        cases j with
        | genesis d => exact absurd (List.mem_singleton.mp ha) haj
        | child d q => simp [pprev] at hjp
      | some q =>
        have haq := ((mem_ancestors_pprev hjp).mp ha).resolve_left haj
        exact hskip q (hparent q hjp) a haq p hp

/-- One round of the third pass gives the next entry its fields back. -/
theorem LoadedPart.finish (h : LoadedPart t pos cross earlier l) (hk : Recorded env t tip)
    (hlinked : ∀ i ∈ t.mapBlockIndex, t.nChainTx i ≠ 0 ↔ t.AllData i) (hi : i ∈ t.mapBlockIndex)
    (hnew : i ∉ earlier) (hmem : ∀ j ∈ earlier, j ∈ t.mapBlockIndex)
    (hclosed : ∀ j ∈ earlier, ∀ a ∈ j.ancestors, a ∈ earlier)
    (hparent : ∀ p, i.pprev = some p → p ∈ earlier) :
    LoadedPart t pos cross (earlier ++ [i]) (l.finish (i,(entryOf t pos i).pBlockIndex)) := by
  obtain ⟨c,u,ca,b,s,heq,hold,hno,hroot,hchild,hu,hca,hsold,hsnew⟩ :=
    l.finish_eq i (entryOf t pos i).pBlockIndex
  have hstatus : (entryOf t pos i).pBlockIndex.nStatus = t.nStatus i := rfl
  have hntx : (entryOf t pos i).pBlockIndex.nTx = t.nTx i := rfl
  have hdata : (t.nStatus i).haveData = t.haveData i := rfl
  rw [hstatus,hdata] at hno hroot hchild hu
  rw [hntx] at hroot hchild
  have hne : ∀ j ∈ earlier, j ≠ i := fun j hj he => hnew (he ▸ hj)
  obtain ⟨hno',hroot',hchild'⟩ := hk.nChainTx_eq hlinked hi fun p hp => hmem p (hparent p hp)
  have hci : c i = t.nChainTx i := by
    cases hd : t.haveData i with
    | false => rw [hno hd,hno' hd,h.unset i hnew]
    | true =>
      cases hp : i.pprev with
      | none => rw [hroot hd hp,hroot' hd hp]
      | some p => rw [hchild hd p hp,hchild' p hd hp,h.chainTx p (hparent p hp)]
  have hvalid : (l.tree.place i (entryOf t pos i).pBlockIndex).isValid i .transactions =
      t.isValid i .transactions := by
    simp only [BlockTree.place,BlockTree.isValid,BlockTree.failed,Function.update_self,hstatus]
    rfl
  rw [hvalid,hci] at hca
  refine
    { index := ?_
      status := ?_
      nTx := ?_
      chainTx := ?_
      unset := ?_
      sequence := ?_
      counter := ?_
      skip := ?_
      candidates := ?_
      unlinked := ?_
      unlinked_nodup := ?_
      cross := ?_
      chain := ?_
      height := ?_
      work := ?_
      pos := ?_ }
  · rw [heq]
    simp only [BlockTree.place,h.index]
  · intro j hj
    rw [heq]
    by_cases hji : j = i
    · subst hji
      simp only [BlockTree.nStatus,BlockTree.place,Function.update_self]
      rfl
    · have hje : j ∈ earlier := by simpa [hji] using hj
      rw [← h.status j hje]
      simp only [BlockTree.nStatus,BlockTree.place,Function.update_of_ne hji]
  · rw [heq]
    exact update_snoc h.nTx rfl
  · intro j hj
    rw [heq]
    by_cases hji : j = i
    · subst hji
      exact hci
    · have hje : j ∈ earlier := by simpa [hji] using hj
      exact (hold j hji).trans (h.chainTx j hje)
  · intro j hj
    rw [List.mem_append,not_or,List.mem_singleton] at hj
    rw [heq]
    exact (hold j hj.2).trans (h.unset j hj.1)
  · intro j
    rw [heq]
    exact h.sequence j
  · rw [heq]
    exact h.counter
  · rw [heq]
    exact skipBuilt_snoc h.skip hnew hclosed hparent hsold hsnew
  · intro x
    rw [heq]
    simp only [hca,h.candidates,List.mem_append,List.mem_singleton]
    constructor
    · rintro (⟨hx,hrest⟩ | ⟨rfl,hrest⟩)
      · exact ⟨.inl hx,hrest⟩
      · exact ⟨.inr rfl,hrest⟩
    · rintro ⟨hx | rfl,hrest⟩
      · exact .inl ⟨hx,hrest⟩
      · exact .inr ⟨rfl,hrest⟩
  · intro p x
    rw [heq]
    obtain ⟨rfl,hlinkedp⟩ | ⟨q,hq,hd,hz,rfl⟩ := hu
    · simp only [h.unlinked,List.mem_append,List.mem_singleton]
      constructor
      · rintro ⟨hx,hrest⟩
        exact ⟨.inl hx,hrest⟩
      · rintro ⟨hx | rfl,hp,hd,hz⟩
        · exact ⟨hx,hp,hd,hz⟩
        · exact absurd ((h.chainTx p (hparent p hp)).trans hz) (hlinkedp p hp hd)
    · simp only [List.mem_append,h.unlinked,List.mem_singleton,Prod.mk.injEq]
      constructor
      · rintro (⟨hx,hrest⟩ | ⟨rfl,rfl⟩)
        · exact ⟨.inl hx,hrest⟩
        · exact ⟨.inr rfl,hq,hd,(h.chainTx p (hparent p hq)).symm.trans hz⟩
      · rintro ⟨hx | rfl,hp,hrest⟩
        · exact .inl ⟨hx,hp,hrest⟩
        · exact .inr ⟨Option.some.inj (hp.symm.trans hq),rfl⟩
  · rw [heq]
    obtain ⟨rfl,-⟩ | ⟨q,-,-,-,rfl⟩ := hu
    · exact h.unlinked_nodup
    · refine List.nodup_append.mpr ⟨h.unlinked_nodup,List.nodup_singleton _,?_⟩
      rintro ⟨p,x⟩ hpx y hy heqxy
      rw [List.mem_singleton.mp hy,Prod.mk.injEq] at heqxy
      exact hne x ((h.unlinked p x).mp hpx).1 heqxy.2
  · rw [heq]
    exact h.cross
  · rw [heq]
    exact h.chain
  · exact update_snoc h.height rfl
  · refine update_snoc h.work ?_
    cases i with
    | genesis d => rfl
    | child d p =>
      simp only [pprev,Option.elim_some,nChainWork,h.work p (hparent p rfl)]
      rfl
  · exact update_snoc h.pos rfl

/-- The third pass. -/
theorem finish_loaded (hk : Recorded env t tip)
    (hlinked : ∀ i ∈ t.mapBlockIndex, t.nChainTx i ≠ 0 ↔ t.AllData i)
    (hmem : ∀ i ∈ order, i ∈ t.mapBlockIndex) (hnodup : order.Nodup)
    (hparents : ParentsFirst order) (hstart : earlier <+: order) :
    LoadedPart t pos cross earlier ((earlier.map fun i => (i,(entryOf t pos i).pBlockIndex)).foldl
      LoadedTree.finish (.start cross)) := by
  induction earlier using List.reverseRecOn with
  | nil => exact .start t pos cross
  | append_singleton earlier i ih =>
    have hbefore : earlier <+: order := (List.prefix_append _ _).trans hstart
    have hnew : i ∉ earlier := by
      intro hi
      have hnodup' := hnodup.sublist hstart.sublist
      exact (List.nodup_append.mp hnodup').2.2 i hi i (by simp) rfl
    have hparent : ∀ p, i.pprev = some p → p ∈ earlier := by
      intro p hp
      obtain ⟨later,rfl⟩ := hstart
      exact hparents earlier i later (by simp) p hp
    rw [List.map_append,List.foldl_append]
    exact (ih hbefore).finish hk hlinked (hmem i (hstart.subset (by simp))) hnew
      (fun j hj => hmem j (hbefore.subset hj)) (fun j hj => hparents.closed hbefore hj) hparent

end ThirdPass

section Reload
variable {env : TreeEnv} {t l : BlockTree} {tip i j : CBlockIndex}

/-- The same network, with the entries at other addresses. -/
def TreeEnv.withAddresses (env : TreeEnv) (address : CBlockIndex → Nat) : TreeEnv :=
  { env with address := address }

theorem firstWith_congr {p q : CBlockIndex → Bool} (h : ∀ a ∈ i.ancestors, p a = q a) :
    firstWith p i = firstWith q i := by
  induction i with
  | genesis d => simp only [firstWith,h _ (self_mem_ancestors _)]
  | child d r ih =>
    simp only [firstWith,h _ (self_mem_ancestors _),
      ih fun a ha => h a (List.mem_cons_of_mem _ ha)]

theorem exists_root (i : CBlockIndex) : ∃ r ∈ i.ancestors, r.pprev = none := by
  obtain ⟨d,hd⟩ := exists_genesis_mem i
  exact ⟨_,hd,rfl⟩

end Reload

section Restored
variable {env : TreeEnv} {t : BlockTree} {tip i : CBlockIndex} {pos : CBlockIndex → FilePositions}
  {db : BlockIndexRecords} {order : List CBlockIndex} {l : LoadedTree}

/-- Below the tip among entries that were all loaded from disk: less work, or the same work
and a higher address. -/
def SortsBelow (address : CBlockIndex → Nat) (tip i : CBlockIndex) : Prop :=
  i.nChainWork < tip.nChainWork ∨ (i.nChainWork = tip.nChainWork ∧ address tip < address i)

theorem belowTip_iff_sortsBelow (hchain : t.chainActive = .pathTo tip)
    (hseq : ∀ i, t.nSequenceId i = 0) :
    env.belowTip t i = true ↔ SortsBelow env.address tip i := by
  unfold TreeEnv.belowTip TreeEnv.workComparator SortsBelow
  rw [hchain,CChain.pathTo_tip,Option.any_some]
  simp only [hseq,lt_irrefl,if_false,BitVec.lt_def,← BitVec.toNat_inj]
  split
  · simp only [Bool.false_eq_true,false_iff]
    omega
  · split
    · simp only [true_iff]
      omega
    · rw [decide_eq_true_iff]
      omega

theorem find_perm_of_key {key : CBlockIndex → Uint256} (hperm : order.Perm t.mapBlockIndex)
    (hkey : ∀ i ∈ t.mapBlockIndex, ∀ j ∈ t.mapBlockIndex, key i = key j → i = j) (k : Uint256) :
    (order.find? fun i => key i == k) = t.mapBlockIndex.find? fun i => key i == k := by
  cases hf : order.find? fun i => key i == k with
  | none =>
    rw [eq_comm,List.find?_eq_none]
    intro j hj
    exact List.find?_eq_none.mp hf j (hperm.symm.subset hj)
  | some i =>
    have hi : i ∈ t.mapBlockIndex := hperm.subset (List.mem_of_find?_eq_some hf)
    have hik : key i = k := by simpa using List.find?_some hf
    subst hik
    exact (find_of_key (fun j hj heq => hkey j hj i hi heq) hi).symm

/-- The loaded tree with its tip, before the candidates are pruned. -/
def LoadedTree.activate (l : LoadedTree) (tip : CBlockIndex) : BlockTree :=
  { l.tree with chainActive := .pathTo tip }

theorem loadTip_iff {m : AList fun _ : Uint256 => CBlockIndex} (hne : tip.data.hashBlock ≠ 0)
    (htip : m.lookup tip.data.hashBlock = some tip) (hl : l.tree.chainActive = ⟨[]⟩)
    (r : LoadedTree) :
    env.loadTip m tip.data.hashBlock l = .ok r ↔
      ∃ t', env.pruneBlockIndexCandidates (l.activate tip) = some t' ∧ r = { l with tree := t' } := by
  unfold TreeEnv.loadTip
  rw [if_pos hne,htip]
  simp only [hl,CChain.setTip_empty]
  change (orThrow (env.pruneBlockIndexCandidates (l.activate tip)) LoadFailure.assertion >>= _) = _ ↔ _
  cases env.pruneBlockIndexCandidates (l.activate tip) with
  | none =>
    simp only [reduceCtorEq,false_and,exists_false,iff_false]
    intro h
    contradiction
  | some t' =>
    simp only [Option.some.injEq,exists_eq_left']
    exact ⟨fun h => (Except.ok.inj h).symm,fun h => congrArg Except.ok h.symm⟩

/-- What the whole of `LoadBlockIndexDB` does with a tree that was written. -/
theorem loadBlockIndexDB_eq (hcheck : env.checkBlockIndex t = true) (hk : Recorded env t tip)
    (hdb : Flushed t pos db) {haveFile : Nat → Bool}
    (hfiles : ∀ i ∈ t.mapBlockIndex, t.haveData i = true → haveFile (pos i).nFile = true)
    {vSortedByHeight : List BlockTreeEntry} (hperm : vSortedByHeight.Perm (loadBlockIndexGuts db))
    (hsorted : vSortedByHeight.Pairwise fun a b => a.nHeight ≤ b.nHeight)
    (address : CBlockIndex → Nat) :
    ∃ order l, vSortedByHeight = order.map (entryOf t pos) ∧ order.Perm t.mapBlockIndex ∧
      LoadedPart t pos t.mapBlockHashCrossReference order l ∧
      ∀ r, (env.withAddresses address).loadBlockIndexDB haveFile tip.data.hashBlock
          vSortedByHeight = .ok r ↔
        Rechecked env vSortedByHeight.length order ∧
          ∃ t', (env.withAddresses address).pruneBlockIndexCandidates (l.activate tip) = some t' ∧
            r = { l with tree := t' } := by
  obtain ⟨-,hclosed,hentries⟩ := checkBlockIndex_iff.mp hcheck
  obtain ⟨order,rfl,horder,hheights⟩ := exists_order hk hdb hperm hsorted
  have hmem : ∀ i ∈ order, i ∈ t.mapBlockIndex := fun i hi => horder.subset hi
  have hnodup : order.Nodup := horder.nodup_iff.mpr hk.nodup
  have hparents : ParentsFirst order := by
    intro earlier i later heq p hp
    have hi : i ∈ order := by
      rw [heq]
      simp
    have hpm := hclosed i (hmem i hi) p (pprev_mem_ancestors hp)
    exact parent_before hheights heq hp (horder.symm.subset hpm)
  have hlinked : ∀ i ∈ t.mapBlockIndex, t.nChainTx i ≠ 0 ↔ t.AllData i :=
    fun i hi => (checkEntry_iff.mp (hentries i hi)).linked_iff
  have hcross : (crossAfter order).mapBlockHashCrossReference = t.mapBlockHashCrossReference := by
    funext f
    rw [hk.crossReference f,← find_perm_of_key horder hk.fakeHashes]
    rfl
  obtain ⟨m,hlink,hlookup⟩ := @linkEntries_ok env t tip pos hk order order hmem hnodup hparents
    (List.prefix_refl _)
  have hpart := @finish_loaded env t tip pos (crossAfter order).mapBlockHashCrossReference order order
    hk hlinked hmem hnodup hparents (List.prefix_refl _)
  have hfile : ((order.map fun i => (i,(entryOf t pos i).pBlockIndex)).all fun e =>
      !e.2.nStatus.haveData || haveFile e.2.pos.nFile) = true := by
    simp only [List.all_map,List.all_eq_true,Function.comp]
    intro i hi
    cases hd : t.haveData i with
    | false =>
      have hstatus : (entryOf t pos i).pBlockIndex.nStatus.haveData = false := hd
      rw [hstatus]
      rfl
    | true =>
      have hpos : (entryOf t pos i).pBlockIndex.pos.nFile = (pos i).nFile := by
        have hstatus : (t.nStatus i).haveData = true := hd
        simp [entryOf,BlockTreeEntry.ofRecord,BlockIndexRecord.readBack,BlockIndexRecord.ofIndex,
          hstatus]
      rw [hpos,hfiles i (hmem i hi) hd,Bool.or_true]
  have htip : m.lookup tip.data.hashBlock = some tip := by
    rw [hlookup]
    exact @find_of_key (fun j => j.data.hashBlock) order tip
      (fun j hj heq => hk.hashes j (hmem j hj) tip hk.mem heq) (horder.symm.subset hk.mem)
  rw [hcross] at hpart
  refine ⟨order,_,rfl,horder,hpart,fun r => ?_⟩
  have hend := fun l hl => @loadTip_iff (env.withAddresses address) tip l m
    (hk.nonzero tip hk.mem).2 htip hl r
  unfold TreeEnv.loadBlockIndexDB
  rw [bind_ok_iff,List.length_map]
  constructor
  · rintro ⟨s,hs,h⟩
    obtain ⟨hrechecked,rfl⟩ := (crossReference_iff hk hclosed hmem hnodup s).mp hs
    refine ⟨hrechecked,?_⟩
    rw [hlink,ok_bind] at h
    simp only at h
    rw [hfile,ensure_true,ok_bind,hcross] at h
    exact (hend _ hpart.chain).mp h
  · rintro ⟨hrechecked,h⟩
    refine ⟨crossAfter order,(crossReference_iff hk hclosed hmem hnodup _).mpr ⟨hrechecked,rfl⟩,?_⟩
    rw [hlink,ok_bind]
    simp only
    rw [hfile,ensure_true,ok_bind,hcross]
    exact (hend _ hpart.chain).mpr h

/-- The tree is back as it was, and `CheckBlockIndex` accepts it. -/
structure Restored (env : TreeEnv) (t : BlockTree) (pos : CBlockIndex → FilePositions)
    (l : LoadedTree) : Prop where
  index : l.tree.mapBlockIndex.Perm t.mapBlockIndex
  nHeight : ∀ i ∈ t.mapBlockIndex, l.nHeight i = i.nHeight
  nStatus : ∀ i ∈ t.mapBlockIndex, l.tree.nStatus i = t.nStatus i
  blockPos : ∀ i ∈ t.mapBlockIndex,
    getBlockPos (l.tree.nStatus i) (l.pos i) = getBlockPos (t.nStatus i) (pos i)
  undoPos : ∀ i ∈ t.mapBlockIndex,
    getUndoPos (l.tree.nStatus i) (l.pos i) = getUndoPos (t.nStatus i) (pos i)
  nChainWork : ∀ i ∈ t.mapBlockIndex, l.nChainWork i = i.nChainWork
  nChainTx : ∀ i ∈ t.mapBlockIndex, l.tree.nChainTx i = t.nChainTx i
  crossReference : l.tree.mapBlockHashCrossReference = t.mapBlockHashCrossReference
  chainActive : l.tree.chainActive = t.chainActive
  checked : env.checkBlockIndex l.tree = true

/-- The tree without the candidates that sort below its tip. -/
def TreeEnv.pruned (env : TreeEnv) (t : BlockTree) : BlockTree :=
  { t with setBlockIndexCandidates := t.setBlockIndexCandidates.filter fun c => !env.belowTip t c }

theorem pruneBlockIndexCandidates_iff {t' : BlockTree} :
    env.pruneBlockIndexCandidates t = some t' ↔
      (∃ c ∈ t.setBlockIndexCandidates, env.belowTip t c = false) ∧ t' = env.pruned t := by
  have hleft : (t.setBlockIndexCandidates.filter fun c => !env.belowTip t c).isEmpty = false ↔
      ∃ c ∈ t.setBlockIndexCandidates, env.belowTip t c = false := by
    rw [← Bool.not_eq_true,List.isEmpty_iff,List.filter_eq_nil_iff]
    simp
  unfold TreeEnv.pruneBlockIndexCandidates
  simp only
  rw [← hleft]
  split
  · rename_i h
    simp [h]
  · rename_i h
    rw [Bool.not_eq_true] at h
    simp only [h,true_and,Option.some.injEq]
    exact eq_comm

theorem getBlockPos_readBack (i : CBlockIndex) :
    getBlockPos (t.nStatus i) (BlockIndexRecord.ofIndex t pos i).readBack.pos =
      getBlockPos (t.nStatus i) (pos i) := by
  unfold getBlockPos
  split
  · rename_i h
    simp [BlockIndexRecord.readBack,BlockIndexRecord.ofIndex,h]
  · rfl

theorem getUndoPos_readBack (i : CBlockIndex) :
    getUndoPos (t.nStatus i) (BlockIndexRecord.ofIndex t pos i).readBack.pos =
      getUndoPos (t.nStatus i) (pos i) := by
  unfold getUndoPos
  split
  · rename_i h
    simp [BlockIndexRecord.readBack,BlockIndexRecord.ofIndex,h]
  · rfl

/-- A loaded tree answers as the written one in everything that the assertions read of the
entries. -/
theorem LoadedPart.agrees {cross : Uint256 → Option Uint256}
    (h : LoadedPart t pos cross order l) (hi : i ∈ order) :
    l.tree.validity i = t.validity i ∧ l.tree.haveData i = t.haveData i ∧
      l.tree.failedValid i = t.failedValid i ∧ l.tree.failed i = t.failed i := by
  have hs := h.status i hi
  unfold BlockTree.nStatus at hs
  rw [BlockStatus.mk.injEq] at hs
  obtain ⟨hv,hd,-,hf,hc⟩ := hs
  refine ⟨hv,hd,hf,?_⟩
  unfold BlockTree.failed
  rw [hf,hc]

section Checked
variable {cross : Uint256 → Option Uint256} {address : CBlockIndex → Nat}

theorem LoadedPart.mem_candidates (h : LoadedPart t pos cross order l)
    (hperm : order.Perm t.mapBlockIndex) (hk : Recorded env t tip)
    (hcheck : env.checkBlockIndex t = true) (hi : i ∈ t.mapBlockIndex) (hall : t.AllData i)
    (hclean : t.Clean i) : i ∈ l.tree.setBlockIndexCandidates := by
  have hentry := checkEntry_iff.mp ((checkBlockIndex_iff.mp hcheck).2.2 i hi)
  refine (h.candidates i).mpr ⟨hperm.symm.subset hi,?_,.inl (hentry.linked_iff.mpr hall)⟩
  have hfailed : t.failed i = false := by
    have := hentry.failed
    rw [Bool.or_eq_true,firstInvalid_isSome] at this
    simpa [hclean] using this
  have hlevel := hk.transactions i hi (hall i (self_mem_ancestors i))
  unfold BlockTree.isValid
  rw [hfailed,Bool.not_false,Bool.true_and]
  exact decide_eq_true hlevel

/-- All candidates are linked, if some block is. -/
theorem LoadedPart.linked_candidate (h : LoadedPart t pos cross order l)
    (hperm : order.Perm t.mapBlockIndex) (hcheck : env.checkBlockIndex t = true)
    (hsome : ∃ j ∈ t.mapBlockIndex, t.nChainTx j ≠ 0) (hi : i ∈ l.tree.setBlockIndexCandidates) :
    t.AllData i := by
  obtain ⟨hroots,hclosed,hentries⟩ := checkBlockIndex_iff.mp hcheck
  obtain ⟨him,-,hlinked | hroot⟩ := (h.candidates i).mp hi
  · exact (checkEntry_iff.mp (hentries i (hperm.subset him))).linked_iff.mp hlinked
  · obtain ⟨j,hj,hjl⟩ := hsome
    have hjall := (checkEntry_iff.mp (hentries j hj)).linked_iff.mp hjl
    obtain ⟨r,hr,hrp⟩ := exists_root j
    rw [root_unique hroots (hperm.subset him) (hclosed j hj r hr) hroot hrp]
    exact hjall.ancestor hr

theorem LoadedPart.candidate_checked (h : LoadedPart t pos cross order l)
    (hperm : order.Perm t.mapBlockIndex) (hk : Recorded env t tip)
    (hcheck : env.checkBlockIndex t = true) (hsome : ∃ j ∈ t.mapBlockIndex, t.nChainTx j ≠ 0)
    (env' : TreeEnv) (hi : i ∈ t.mapBlockIndex) :
    (if !env'.belowTip (l.activate tip) i && (firstWith (fun a => !t.haveData a) i).isNone then
        (firstWith t.failedValid i).isSome ||
          (env'.pruned (l.activate tip)).setBlockIndexCandidates.contains i
      else !(env'.pruned (l.activate tip)).setBlockIndexCandidates.contains i) = true := by
  have hpruned : i ∈ (env'.pruned (l.activate tip)).setBlockIndexCandidates ↔
      i ∈ l.tree.setBlockIndexCandidates ∧ env'.belowTip (l.activate tip) i = false := by
    unfold TreeEnv.pruned LoadedTree.activate
    simp
  split
  · rename_i hcond
    obtain ⟨hb,hm⟩ := Bool.and_eq_true_iff.mp hcond
    by_cases hc : t.Clean i
    · have hcand := h.mem_candidates hperm hk hcheck hi (firstMissing_isNone.mp hm) hc
      simp [hpruned.mpr ⟨hcand,by simpa using hb⟩]
    · rw [firstInvalid_isSome.mpr hc,Bool.true_or]
  · rename_i hcond
    by_contra hno
    obtain ⟨hcand,hb⟩ := hpruned.mp (by simpa using hno)
    refine hcond (Bool.and_eq_true_iff.mpr ⟨by rw [hb]; rfl,?_⟩)
    exact firstMissing_isNone.mpr (h.linked_candidate hperm hcheck hsome hcand)

theorem LoadedPart.unlinked_checked (h : LoadedPart t pos cross order l)
    (hperm : order.Perm t.mapBlockIndex) (hcheck : env.checkBlockIndex t = true)
    (hi : i ∈ t.mapBlockIndex) :
    (if i.pprev.isSome && t.haveData i && (firstWith (fun a => !t.haveData a) i).isSome then
        (firstWith t.failedValid i).isSome ||
          i.pprev.any fun p => l.tree.mapBlocksUnlinked.contains (p,i)
      else !(i.pprev.any fun p => l.tree.mapBlocksUnlinked.contains (p,i))) = true := by
  obtain ⟨-,hclosed,hentries⟩ := checkBlockIndex_iff.mp hcheck
  cases hp : i.pprev with
  | none => simp
  | some p =>
    have hpm := hclosed i hi p (pprev_mem_ancestors hp)
    have hplinked := (checkEntry_iff.mp (hentries p hpm)).linked_iff
    have hall : t.haveData i = true → (t.AllData i ↔ t.AllData p) := BlockTree.allData_pprev hp
    simp only [Option.isSome_some,Bool.true_and,Option.any_some]
    split
    · rename_i hcond
      obtain ⟨hd,hm⟩ := Bool.and_eq_true_iff.mp hcond
      have hzero : t.nChainTx p = 0 := by
        by_contra hne
        have hnone := firstMissing_isNone.mpr ((hall hd).mpr (hplinked.mp hne))
        rw [← Option.not_isNone,hnone] at hm
        contradiction
      have hmem := (h.unlinked p i).mpr ⟨hperm.symm.subset hi,hp,hd,hzero⟩
      simp [hmem]
    · rename_i hcond
      by_contra hno
      obtain ⟨-,-,hd,hz⟩ := (h.unlinked p i).mp (by simpa using hno)
      refine hcond (Bool.and_eq_true_iff.mpr ⟨hd,?_⟩)
      rw [← Option.not_isNone,Bool.not_eq_true',Bool.eq_false_iff]
      exact fun hn => hplinked.mpr ((hall hd).mp (firstMissing_isNone.mp hn)) hz

/-- The assertions hold at the entries of the loaded tree, if some block is linked. -/
theorem LoadedPart.entryChecked (h : LoadedPart t pos cross order l)
    (hperm : order.Perm t.mapBlockIndex) (hk : Recorded env t tip)
    (hcheck : env.checkBlockIndex t = true) (hsome : ∃ j ∈ t.mapBlockIndex, t.nChainTx j ≠ 0)
    (hi : i ∈ t.mapBlockIndex) :
    EntryChecked (env.withAddresses address) ((env.withAddresses address).pruned (l.activate tip))
      i := by
  obtain ⟨hroots,hclosed,hentries⟩ := checkBlockIndex_iff.mp hcheck
  have hentry := checkEntry_iff.mp (hentries i hi)
  have hmem : ∀ a ∈ i.ancestors, a ∈ order := fun a ha => hperm.symm.subset (hclosed i hi a ha)
  have hmissing : firstWith (fun a => !l.tree.haveData a) i = firstWith (fun a => !t.haveData a) i :=
    firstWith_congr fun a ha => by rw [(h.agrees (hmem a ha)).2.1]
  have hinvalid : firstWith l.tree.failedValid i = firstWith t.failedValid i :=
    firstWith_congr fun a ha => (h.agrees (hmem a ha)).2.2.1
  have hlevels : ∀ n, firstWith (fun a => a.pprev.isSome && decide ((l.tree.validity a).level < n)) i =
      firstWith (fun a => a.pprev.isSome && decide ((t.validity a).level < n)) i :=
    fun n => firstWith_congr fun a ha => by rw [(h.agrees (hmem a ha)).1]
  obtain ⟨hv,hd,-,hf⟩ := h.agrees (hmem i (self_mem_ancestors i))
  have hntx := h.chainTx i (hmem i (self_mem_ancestors i))
  have hroot := hentry.root
  rw [hk.chain] at hroot
  refine
    { root := hroot
      missing := ?_
      work := hentry.work
      skip := skip_checked_of_built (h.skip i (hmem i (self_mem_ancestors i)))
      tree := ?_
      levels := ?_
      failed := ?_
      candidate := ?_
      unlinked := ?_ }
  · change (firstWith (fun a => !l.tree.haveData a) i).isSome = (l.tree.nChainTx i == 0)
    rw [hmissing,hntx]
    exact hentry.missing
  · change (firstWith (fun a => a.pprev.isSome &&
      decide ((l.tree.validity a).level < Validity.tree.level)) i).isNone = true
    rw [hlevels]
    exact hentry.tree
  · intro v hv'
    change (decide ((l.tree.validity i).level < v.level) || (firstWith (fun a => a.pprev.isSome &&
      decide ((l.tree.validity a).level < v.level)) i).isNone) = true
    rw [hlevels,hv]
    exact hentry.levels v hv'
  · change ((firstWith l.tree.failedValid i).isSome || !l.tree.failed i) = true
    rw [hinvalid,hf]
    exact hentry.failed
  · have hcand := h.candidate_checked hperm hk hcheck hsome (env.withAddresses address) hi
    rw [← hmissing,← hinvalid] at hcand
    exact hcand
  · have hunlinked := h.unlinked_checked hperm hcheck hi
    rw [← hmissing,← hinvalid,← hd] at hunlinked
    exact hunlinked

/-- Some block that is checked and linked does not sort below the tip. -/
def CandidateLeft (address : CBlockIndex → Nat) (t : BlockTree) (tip : CBlockIndex) : Prop :=
  ∃ i ∈ t.mapBlockIndex, t.isValid i .transactions = true ∧ t.nChainTx i ≠ 0 ∧
    ¬SortsBelow address tip i

/-- Every hash that is computed again is the one in the database. -/
def HashesHold (net : Consensus) (vSortedByHeight : List BlockTreeEntry) : Prop :=
  ∀ n entry, vSortedByHeight[n]? = some entry →
    recheckedAt vSortedByHeight.length n = true →
    net.getHash entry.pBlockIndex.aHeader = entry.uintRealHash

theorem hashesHold_iff : HashesHold env.net (order.map (entryOf t pos)) ↔
    Rechecked env (order.map (entryOf t pos)).length order := by
  have hhash : ∀ i, env.net.getHash (entryOf t pos i).pBlockIndex.aHeader =
      (entryOf t pos i).uintRealHash ↔
      i.getBlockPowHash env.net.hashes env.net.testNet = i.data.hashBlock := by
    intro i
    rw [entryOf_aHeader]
    exact Iff.rfl
  constructor
  · intro h n i hi hr
    refine (hhash i).mp (h n (entryOf t pos i) ?_ hr)
    rw [List.getElem?_map,hi,Option.map_some]
  · intro h n entry he hr
    rw [List.getElem?_map,Option.map_eq_some_iff] at he
    obtain ⟨i,hi,rfl⟩ := he
    exact (hhash i).mpr (h n i hi hr)

theorem LoadedPart.belowTip_iff (h : LoadedPart t pos cross order l) :
    (env.withAddresses address).belowTip (l.activate tip) i = true ↔ SortsBelow address tip i :=
  belowTip_iff_sortsBelow rfl h.sequence

/-- A loaded tree with a candidate is the tree that was written. -/
theorem LoadedPart.restored (h : LoadedPart t pos t.mapBlockHashCrossReference order l)
    (hperm : order.Perm t.mapBlockIndex) (hk : Recorded env t tip)
    (hcheck : env.checkBlockIndex t = true) (hsome : ∃ j ∈ t.mapBlockIndex, t.nChainTx j ≠ 0) :
    Restored (env.withAddresses address) t pos
      { l with tree := (env.withAddresses address).pruned (l.activate tip) } := by
  have hindex : ((env.withAddresses address).pruned (l.activate tip)).mapBlockIndex = order := h.index
  obtain ⟨hroots,hclosed,-⟩ := checkBlockIndex_iff.mp hcheck
  have hmem : ∀ i ∈ t.mapBlockIndex, i ∈ order := fun i hi => hperm.symm.subset hi
  refine
    { index := ?_
      nHeight := fun i hi => h.height i (hmem i hi)
      nStatus := fun i hi => h.status i (hmem i hi)
      blockPos := fun i hi => ?_
      undoPos := fun i hi => ?_
      nChainWork := fun i hi => h.work i (hmem i hi)
      nChainTx := fun i hi => h.chainTx i (hmem i hi)
      crossReference := h.cross
      chainActive := hk.chain.symm
      checked := checkBlockIndex_iff.mpr ⟨?_,?_,?_⟩ }
  · rw [hindex]
    exact hperm
  · have hstatus : ((env.withAddresses address).pruned (l.activate tip)).nStatus i = t.nStatus i :=
      h.status i (hmem i hi)
    rw [hstatus,h.pos i (hmem i hi)]
    exact getBlockPos_readBack i
  · have hstatus : ((env.withAddresses address).pruned (l.activate tip)).nStatus i = t.nStatus i :=
      h.status i (hmem i hi)
    rw [hstatus,h.pos i (hmem i hi)]
    exact getUndoPos_readBack i
  · rw [hindex,← hroots]
    exact (hperm.filter _).length_eq
  · rw [hindex]
    intro i hi a ha
    exact hmem a (hclosed i (hperm.subset hi) a ha)
  · rw [hindex]
    intro i hi
    exact checkEntry_iff.mpr (h.entryChecked hperm hk hcheck hsome (hperm.subset hi))

theorem not_sortsBelow_self (address : CBlockIndex → Nat) (i : CBlockIndex) :
    ¬SortsBelow address i i := by
  rintro (h | ⟨-,h⟩)
  · exact absurd h (BitVec.lt_irrefl _)
  · exact absurd h (lt_irrefl _)

/-- A tip that has not failed is left itself. -/
theorem InOrder.candidateLeft (h : InOrder env t tip) (hfailed : t.failed tip = false)
    (address : CBlockIndex → Nat) : CandidateLeft address t tip := by
  have hdata := h.ok.links.allData tip h.ok.active.mem h.ok.active.linked tip (self_mem_ancestors tip)
  have hlevel := h.ok.index.transactions tip h.ok.active.mem hdata
  have hvalid : t.isValid tip .transactions = true := by
    unfold BlockTree.isValid
    rw [hfailed,Bool.not_false,Bool.true_and]
    exact decide_eq_true hlevel
  exact ⟨tip,h.ok.active.mem,hvalid,h.ok.active.linked,not_sortsBelow_self address tip⟩

theorem hashesHold_of_entries {net : Consensus} {v : List BlockTreeEntry}
    (h : ∀ entry ∈ v, net.getHash entry.pBlockIndex.aHeader = entry.uintRealHash) :
    HashesHold net v :=
  fun _ entry hentry _ => h entry (List.mem_of_getElem? hentry)

end Checked

end Restored

/-- A tree that `CheckBlockIndex` accepts, and that was written, comes back exactly when the
hashes that are computed again agree with the database and the pruning leaves a candidate. -/
theorem loadBlockIndexDB_restores_iff {env : TreeEnv} {t : BlockTree} {tip : CBlockIndex}
    (hcheck : env.checkBlockIndex t = true) (hk : Recorded env t tip)
    {pos : CBlockIndex → FilePositions} {db : BlockIndexRecords} (hdb : Flushed t pos db)
    {haveFile : Nat → Bool}
    (hfiles : ∀ i ∈ t.mapBlockIndex, t.haveData i = true → haveFile (pos i).nFile = true)
    {vSortedByHeight : List BlockTreeEntry} (hperm : vSortedByHeight.Perm (loadBlockIndexGuts db))
    (hsorted : vSortedByHeight.Pairwise fun a b => a.nHeight ≤ b.nHeight)
    (address : CBlockIndex → Nat) :
    (∃ l, (env.withAddresses address).loadBlockIndexDB haveFile tip.data.hashBlock
        vSortedByHeight = .ok l ∧ Restored (env.withAddresses address) t pos l) ↔
      HashesHold env.net vSortedByHeight ∧ CandidateLeft address t tip := by
  obtain ⟨order,l,rfl,horder,hpart,hload⟩ :=
    loadBlockIndexDB_eq hcheck hk hdb hfiles hperm hsorted address
  rw [hashesHold_iff]
  constructor
  · rintro ⟨r,hr,hrestored⟩
    obtain ⟨hrechecked,t',hprune,rfl⟩ := (hload r).mp hr
    obtain ⟨⟨c,hc,hbelow⟩,rfl⟩ := pruneBlockIndexCandidates_iff.mp hprune
    obtain ⟨hcm,hvalid,-⟩ := (hpart.candidates c).mp hc
    have hct := horder.subset hcm
    refine ⟨hrechecked,c,hct,hvalid,fun hzero => ?_,fun hs => ?_⟩
    · have hcr := hrestored.index.symm.subset hct
      have hentry := checkEntry_iff.mp ((checkBlockIndex_iff.mp hrestored.checked).2.2 c hcr)
      have hmissing := hentry.missing
      rw [hrestored.nChainTx c hct,hzero] at hmissing
      have hcand := hentry.candidate
      rw [← Option.not_isSome,hmissing] at hcand
      have hmem : c ∈ ((env.withAddresses address).pruned
          (l.activate tip)).setBlockIndexCandidates :=
        List.mem_filter.mpr ⟨hc,by rw [hbelow]; rfl⟩
      simp [hmem] at hcand
    · rw [hpart.belowTip_iff.mpr hs] at hbelow
      contradiction
  · rintro ⟨hrechecked,c,hc,hvalid,hlinked,hnot⟩
    have hbelow : (env.withAddresses address).belowTip (l.activate tip) c = false := by
      rw [Bool.eq_false_iff]
      exact fun hb => hnot (hpart.belowTip_iff.mp hb)
    have hcand : c ∈ (l.activate tip).setBlockIndexCandidates :=
      (hpart.candidates c).mpr ⟨horder.symm.subset hc,hvalid,.inl hlinked⟩
    have hprune := pruneBlockIndexCandidates_iff.mpr ⟨⟨c,hcand,hbelow⟩,rfl⟩
    exact ⟨_,(hload _).mpr ⟨hrechecked,_,hprune,rfl⟩,
      hpart.restored horder hk hcheck ⟨c,hc,hlinked⟩⟩

/-- The network of the examples as a test network, where blocks can be invalidated. -/
def testEnv : TreeEnv where
  net := { numberedNet with testNet := true }
  genesisData := { numberedNet with testNet := true }.indexData steadyGenesis
  genesis_hash := by decide +kernel
  address _ := 0
  connectBlock _ := true

/-- Two blocks on genesis, with the same work. -/
def forkEvents : List TreeEvent :=
  [blockArrives 0 1 0x1e0ffff0,.activateBestChain,blockArrives 0 2 0x1e0ffff0,.activateBestChain]

/-- One file, with the blocks at their heights. -/
def heightPositions (i : CBlockIndex) : FilePositions := ⟨0,i.nHeight,i.nHeight⟩

/-- The database once all entries of a tree are written. -/
def writtenIndex (t : BlockTree) : BlockIndexRecords :=
  t.mapBlockIndex.foldl (writeBlockIndex t heightPositions) ∅

def sortedByHeight (v : List BlockTreeEntry) : List BlockTreeEntry :=
  v.insertionSort fun a b => a.nHeight ≤ b.nHeight

theorem sortedByHeight_pairwise (v : List BlockTreeEntry) :
    (sortedByHeight v).Pairwise fun a b => a.nHeight ≤ b.nHeight := by
  have htotal : Std.Total fun a b : BlockTreeEntry => a.nHeight ≤ b.nHeight :=
    ⟨fun a b => Nat.le_total a.nHeight b.nHeight⟩
  have htrans : IsTrans BlockTreeEntry fun a b => a.nHeight ≤ b.nHeight :=
    ⟨fun a b c => Nat.le_trans⟩
  exact List.pairwise_insertionSort _ v

theorem sortedByHeight_perm (v : List BlockTreeEntry) : (sortedByHeight v).Perm v :=
  List.perm_insertionSort _ v

/-- The fork comes back. -/
theorem fork_restored : ∃ (t : BlockTree) (tip : CBlockIndex) (l : LoadedTree),
    runAdmitted (testEnv.step 9) (Proper testEnv) testEnv.initial forkEvents = some t ∧
    (testEnv.withAddresses fun i => i.data.hashBlock.toNat).loadBlockIndexDB (fun _ => true)
      tip.data.hashBlock (sortedByHeight (loadBlockIndexGuts (writtenIndex t))) = .ok l ∧
    Restored (testEnv.withAddresses fun i => i.data.hashBlock.toNat) t heightPositions l := by
  have hsome : (runAdmitted (testEnv.step 9) (Proper testEnv) testEnv.initial
      forkEvents).isSome = true := by decide +kernel
  have hgood : (runAdmitted (testEnv.step 9) (Proper testEnv) testEnv.initial forkEvents).all
      (fun t => t.mapBlockIndex.all fun i => !t.failed i &&
        i.getBlockPowHash testEnv.net.hashes testEnv.net.testNet == i.data.hashBlock) = true := by
    decide +kernel
  have hgenesis : GenesisLabelled testEnv := ⟨by decide +kernel,by decide +kernel⟩
  obtain ⟨t,ht⟩ := Option.isSome_iff_exists.mp hsome
  obtain ⟨tip,horder,hlabels⟩ := labelled_of_run hgenesis (proper_of_run ht)
  rw [ht,Option.all_some,List.all_eq_true] at hgood
  simp only [Bool.and_eq_true,Bool.not_eq_true',beq_iff_eq] at hgood
  have hk := horder.recorded hlabels
  have hdb : Flushed t heightPositions (writtenIndex t) :=
    flushed_of_writes hk.hashes fun _ => Iff.rfl
  have hperm := sortedByHeight_perm (loadBlockIndexGuts (writtenIndex t))
  have hhashes : HashesHold testEnv.net (sortedByHeight (loadBlockIndexGuts (writtenIndex t))) := by
    refine hashesHold_of_entries fun entry hentry => ?_
    obtain ⟨i,hi,rfl⟩ := (hdb.mem_entries hk).mp (hperm.subset hentry)
    rw [entryOf_aHeader]
    exact (hgood i hi).2
  have hcheck := checkBlockIndex_ok horder.ok horder.sound horder.increasing
  have hiff := @loadBlockIndexDB_restores_iff testEnv t tip hcheck hk heightPositions
    (writtenIndex t) hdb (fun _ => true) (fun _ _ _ => rfl) _ hperm (sortedByHeight_pairwise _)
    fun i => i.data.hashBlock.toNat
  obtain ⟨l,hl,hrestored⟩ := hiff.mpr
    ⟨hhashes,horder.candidateLeft (hgood tip hk.mem).1 _⟩
  exact ⟨t,tip,l,ht,hl,hrestored⟩

/-- With genesis invalidated by hand nothing is left of the candidates: the tree passes
`CheckBlockIndex`, and an assertion fails when it is loaded again. -/
theorem invalid_genesis_not_loaded :
    ∃ t, testEnv.run 9 testEnv.initial [.invalidateBlock testEnv.genesis,.activateBestChain] =
      some t ∧ testEnv.checkBlockIndex t = true ∧ t.chainActive = .pathTo testEnv.genesis ∧
      testEnv.loadBlockIndexDB (fun _ => true) testEnv.genesis.data.hashBlock
        (loadBlockIndexGuts (writtenIndex t)) = .error .assertion := by
  have hsome : (testEnv.run 9 testEnv.initial [.invalidateBlock testEnv.genesis,
      .activateBestChain]).isSome = true := by decide +kernel
  have hall : (testEnv.run 9 testEnv.initial [.invalidateBlock testEnv.genesis,
      .activateBestChain]).all (fun t => testEnv.checkBlockIndex t &&
        decide (t.chainActive = .pathTo testEnv.genesis) &&
        match testEnv.loadBlockIndexDB (fun _ => true) testEnv.genesis.data.hashBlock
          (loadBlockIndexGuts (writtenIndex t)) with
        | .error e => decide (e = .assertion)
        | .ok _ => false) = true := by
    decide +kernel
  obtain ⟨t,ht⟩ := Option.isSome_iff_exists.mp hsome
  rw [ht,Option.all_some,Bool.and_eq_true,Bool.and_eq_true,decide_eq_true_eq] at hall
  obtain ⟨⟨hcheck,hchain⟩,hload⟩ := hall
  refine ⟨t,ht,hcheck,hchain,?_⟩
  split at hload
  · rename_i e he
    rw [he,decide_eq_true_eq.mp hload]
  · contradiction

end Anoncoin
