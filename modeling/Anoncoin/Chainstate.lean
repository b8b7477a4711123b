import Anoncoin.Chain
import Anoncoin.CoinsRefinement
import Anoncoin.Disconnect
import Anoncoin.Lib.Runs

/-!
The chain state of main.cpp in memory and on disk: `ConnectTip` and `DisconnectTip` over the
layered coin views, `UpdateTip`, the writes of `FlushStateToDisk`, and the start after a crash.
-/

set_option autoImplicit false

namespace Anoncoin
open Lib

/-- The blocks that a node gets to know, each under its hash: the entries with their data in
the block files, of which `ReadBlockFromDisk` checks the hash. In `env` the disk takes every
write, and `CheckBlockHeader` has no objection: its answers depend on the clock, so that they
come with each call of `ConnectTip`. -/
structure BlockStore (env : NodeEnv) where
  known : CBlockIndex → Prop
  block : CBlockIndex → CBlock
  pprev : ∀ d p, known (.child d p) → known p
  hash_ne : ∀ i, known i → i.data.hashBlock ≠ 0
  hash_inj : ∀ i j, known i → known j → i.data.hashBlock = j.data.hashBlock → i = j
  hash_eq : ∀ i, known i →
    (block i).toCBlockHeader.getHash env.hashes env.testNet = i.data.hashBlock
  genesis_hash : ∀ d, known (.genesis d) → d.hashBlock = env.hashGenesisBlock
  height : ∀ i, known i → env.blockHeight i.data.hashBlock = some i.nHeight
  txids : ∀ i, known i → ∀ x ∈ (block i).vtx, ∀ y ∈ (block i).vtx,
    env.getTxHash x = env.getTxHash y → x = y
  header : ∀ h fCheckPOW, env.checkBlockHeader h fCheckPOW = none
  undoPos : env.findUndoPos = true
  undo : env.writeUndo = true
  txIndex : env.writeTxIndex = true

namespace BlockStore
variable {env : NodeEnv} (S : BlockStore env)

/-- An entry of the block index. -/
def Entry : Type := { i : CBlockIndex // S.known i }

instance : DecidableEq S.Entry := inferInstanceAs (DecidableEq { i : CBlockIndex // S.known i })

namespace Entry
variable {S}

def hash (e : S.Entry) : Uint256 := e.1.data.hashBlock

def nHeight (e : S.Entry) : Nat := e.1.nHeight

def pprev : S.Entry → Option S.Entry
  | ⟨.genesis _,_⟩ => none
  | ⟨.child d p,h⟩ => some ⟨p,S.pprev d p h⟩

theorem hash_ne (e : S.Entry) : e.hash ≠ 0 := S.hash_ne e.1 e.2

theorem hash_inj {e f : S.Entry} (h : e.hash = f.hash) : e = f :=
  Subtype.ext (S.hash_inj e.1 f.1 e.2 f.2 h)

theorem nHeight_pprev {e p : S.Entry} (h : e.pprev = some p) : e.nHeight = p.nHeight+1 := by
  obtain ⟨i,hi⟩ := e
  cases i with
  | genesis d => contradiction
  | child d q =>
    obtain rfl := Option.some.inj h
    rfl

theorem pprev_isSome {e : S.Entry} (h : e.nHeight ≠ 0) : e.pprev.isSome = true := by
  obtain ⟨i,hi⟩ := e
  cases i with
  | genesis d => contradiction
  | child d q => rfl

theorem genesis_hash {e : S.Entry} (h : e.pprev = none) : e.hash = env.hashGenesisBlock := by
  obtain ⟨i,hi⟩ := e
  cases i with
  | genesis d => exact S.genesis_hash d hi
  | child d q => contradiction

/-- What goes from the parent to the child holds of every entry. -/
theorem induction {motive : S.Entry → Prop} (genesis : ∀ e, e.pprev = none → motive e)
    (child : ∀ e p, e.pprev = some p → motive p → motive e) (e : S.Entry) : motive e := by
  obtain ⟨i,hi⟩ := e
  induction i with
  | genesis d => exact genesis _ rfl
  | child d p ih => exact child _ ⟨p,S.pprev d p hi⟩ rfl (ih _)

theorem exists_genesis (e : S.Entry) : ∃ g : S.Entry, g.pprev = none ∧ g.nHeight = 0 := by
  induction e using Entry.induction with
  | genesis e he =>
    refine ⟨e,he,?_⟩
    obtain ⟨i,hi⟩ := e
    cases i with
    | genesis d => rfl
    | child d q => contradiction
  | child e p hp ih => exact ih

/-- There is one genesis block. -/
theorem hash_genesis_iff {e : S.Entry} : e.hash = env.hashGenesisBlock ↔ e.pprev = none := by
  refine ⟨fun h => ?_,genesis_hash⟩
  obtain ⟨g,hg,hheight⟩ := e.exists_genesis
  obtain rfl : e = g := hash_inj (h.trans (genesis_hash hg).symm)
  exact hg

end Entry

/-- The `CBlockIndex` as validation sees it. -/
def connectIndex (e : S.Entry) (hasUndoPos : Bool) : ConnectIndex where
  hashBlock := e.hash
  pprev := e.pprev.map Entry.hash
  nHeight := e.nHeight
  nTime := e.1.data.nTime.toNat
  hasUndoPos := hasUndoPos
  hash_ne := e.hash_ne
  prev_ne := by
    intro p hp
    obtain ⟨q,-,rfl⟩ := Option.map_eq_some_iff.mp hp
    exact q.hash_ne
  prev_some := by
    intro h
    rw [Option.isSome_map]
    exact Entry.pprev_isSome h

/-- A record of the block index: the entry, and the undo data at its undo position. -/
structure BlockRecord where
  pindex : S.Entry
  undo : Option CBlockUndo

/-- `pcoinsTip`, the tip of `chainActive`, the block index in memory with its dirty entries,
and the block index in the database. The coin database is the one under `pcoinsTip`. While
`ConnectTip` or `DisconnectTip` is at work, `pindexNew` is the tip that it will set. -/
structure Chainstate where
  pcoinsTip : CCoinsView
  chainActive : Option S.Entry
  pindexNew : Option (Option S.Entry)
  mapBlockIndex : Uint256 → Option S.BlockRecord
  setDirtyBlockIndex : List Uint256
  blockIndexDB : Uint256 → Option S.BlockRecord

/-- A node with empty databases. -/
def initial : S.Chainstate where
  pcoinsTip := .cache .new (.db ⟨∅,none⟩)
  chainActive := none
  pindexNew := none
  mapBlockIndex _ := none
  setDirtyBlockIndex := []
  blockIndexDB _ := none

end BlockStore

namespace CCoinsView

/-- The database under a stack of caches. -/
def bottom : CCoinsView → CCoinsViewDB
  | .db d => d
  | .cache _ base => base.bottom

/-- `Flush` of a view that is given up: what is left is its base. -/
def flushInto (v : CCoinsView) : Option CCoinsView := v.flush.map (sub 1)

end CCoinsView

namespace BlockStore.Chainstate
variable {env : NodeEnv} {S : BlockStore env}

/-- Set the record of an entry and mark it dirty. -/
def setRecord (s : S.Chainstate) (r : S.BlockRecord) : S.Chainstate :=
  { s with
    mapBlockIndex := Function.update s.mapBlockIndex r.pindex.hash (some r)
    setDirtyBlockIndex := s.setDirtyBlockIndex.insert r.pindex.hash }

/-- `AddToBlockIndex`, for an entry whose parent is in the index. -/
def addToBlockIndex (s : S.Chainstate) (e : S.Entry) : Option S.Chainstate :=
  if e.pprev.all (fun p => (s.mapBlockIndex p.hash).isSome) then
    match s.mapBlockIndex e.hash with
    | some _ => some s
    | none => some (s.setRecord ⟨e,none⟩)
  else none

/-- The undo data that `ConnectBlock` writes for an entry without an undo position. -/
def writeUndo (s : S.Chainstate) (r : S.BlockRecord) : Option CBlockUndo → S.Chainstate
  | none => s
  | some blockundo =>
      match r.undo with
      | some _ => s
      | none => s.setRecord { r with undo := some blockundo }

/-- `ConnectBlock` on a new cache in front of `pcoinsTip`. -/
def connectOn (S : BlockStore env) (v : CCoinsView) (r : S.BlockRecord) :
    Validation (CCoinsView × Option CBlockUndo) :=
  env.connectBlock (S.block r.pindex.1) (S.connectIndex r.pindex r.undo.isSome) (.cache .new v) false

/-- `ConnectTip` up to the flush of the view into `pcoinsTip`. The first thing that
`ConnectBlock` does is to check the header, which has the answer `header`. -/
def connectTip (s : S.Chainstate) (r : S.BlockRecord) (header : Option (Nat × String)) :
    Validation S.Chainstate := do
  ensure (decide (r.pindex.pprev = s.chainActive)) .assertion
  rejectWith header
  let connected ← connectOn S s.pcoinsTip r
  let pcoinsTip ← orThrow connected.1.flushInto .assertion
  pure { s.writeUndo r connected.2 with
    pcoinsTip := pcoinsTip, pindexNew := some (some r.pindex) }

/-- A `ConnectTip` whose `ConnectBlock` wrote the undo data and failed after that. -/
def connectTipFails (s : S.Chainstate) (r : S.BlockRecord) : Validation S.Chainstate := do
  ensure (decide (r.pindex.pprev = s.chainActive)) .assertion
  let connected ← connectOn S s.pcoinsTip r
  pure (s.writeUndo r connected.2)

/-- `DisconnectTip` up to the flush of the view into `pcoinsTip`. -/
def disconnectTip (s : S.Chainstate) : Validation S.Chainstate := do
  let pindexDelete ← orThrow s.chainActive .assertion
  let r ← orThrow (s.mapBlockIndex pindexDelete.hash) .assertion
  -- `DisconnectBlock` asserts this before it looks for the undo data
  ensure (pindexDelete.hash == (CCoinsView.cache .new s.pcoinsTip).getBestBlock.1) .assertion
  let blockUndo ← orThrow r.undo .error
  let disconnected ← env.disconnectBlock (S.block pindexDelete.1)
    (S.connectIndex pindexDelete true) (.cache .new s.pcoinsTip) blockUndo
  ensure disconnected.1 .error
  let pcoinsTip ← orThrow disconnected.2.flushInto .assertion
  pure { s with pcoinsTip := pcoinsTip, pindexNew := some pindexDelete.pprev }

/-- `UpdateTip`. -/
def updateTip (s : S.Chainstate) : Option S.Chainstate :=
  s.pindexNew.map fun pindexNew => { s with chainActive := pindexNew, pindexNew := none }

/-- One round of the loop of `FlushStateToDisk` over `setDirtyBlockIndex`. -/
def writeBlockIndex (s : S.Chainstate) (hash : Uint256) : S.Chainstate :=
  { s with
    blockIndexDB := Function.update s.blockIndexDB hash (s.mapBlockIndex hash)
    setDirtyBlockIndex := s.setDirtyBlockIndex.filter fun h => h ≠ hash }

/-- The last write of `FlushStateToDisk`, one batch of the database. -/
def flushCoins (s : S.Chainstate) : Option S.Chainstate :=
  s.pcoinsTip.flush.map fun v => { s with pcoinsTip := v }

/-- `FlushStateToDisk`, which writes the entries of the index before the coins. -/
def flushStateToDisk (s : S.Chainstate) : Option S.Chainstate :=
  (s.setDirtyBlockIndex.foldl writeBlockIndex s).flushCoins

/-- What `LoadBlockIndexDB` makes of the databases. -/
def restart (s : S.Chainstate) : S.Chainstate where
  pcoinsTip := .cache .new (.db s.pcoinsTip.bottom)
  chainActive := (s.blockIndexDB (s.pcoinsTip.bottom.hashBestChain.getD 0)).map BlockRecord.pindex
  pindexNew := none
  mapBlockIndex := s.blockIndexDB
  setDirtyBlockIndex := []
  blockIndexDB := s.blockIndexDB

end BlockStore.Chainstate

/-- What happens to a chain state. A call that fails before it changes anything is none of
these; the coins it has read are, and so are those that other code reads. -/
inductive BlockStore.Event {env : NodeEnv} (S : BlockStore env) where
  | addToBlockIndex (e : S.Entry)
  | readCoins (txid : Uint256)
  | readBestBlock
  | connectTip (hash : Uint256)
  | connectTipFails (hash : Uint256)
  | disconnectTip
  | updateTip
  | writeBlockIndex (hash : Uint256)
  | flushCoins
  | crash

namespace BlockStore.Chainstate
variable {env : NodeEnv} {S : BlockStore env}

/-- One step, if it can be taken. `ConnectTip` and `DisconnectTip` are not entered twice, and
the coins are not flushed while an entry of the index is dirty; a crash comes at any time. -/
def step (s : S.Chainstate) : S.Event → Option S.Chainstate
  | .addToBlockIndex e => s.addToBlockIndex e
  | .readCoins t => some { s with pcoinsTip := (s.pcoinsTip.getCoins t).2 }
  | .readBestBlock => some { s with pcoinsTip := s.pcoinsTip.getBestBlock.2 }
  | .connectTip h =>
      if s.pindexNew.isNone then (s.mapBlockIndex h).bind fun r => (s.connectTip r none).toOption
      else none
  | .connectTipFails h =>
      if s.pindexNew.isNone then (s.mapBlockIndex h).bind fun r => (s.connectTipFails r).toOption
      else none
  | .disconnectTip => if s.pindexNew.isNone then s.disconnectTip.toOption else none
  | .updateTip => s.updateTip
  | .writeBlockIndex h => if s.setDirtyBlockIndex.contains h then some (s.writeBlockIndex h) else none
  | .flushCoins => if s.setDirtyBlockIndex.isEmpty then s.flushCoins else none
  | .crash => some s.restart

/-- The states that runs lead to from empty databases. -/
def Reached (s : S.Chainstate) : Prop :=
  ReachableBy (fun s e s' => step s e = some s') (fun _ _ => True) S.initial s

end BlockStore.Chainstate

namespace BlockStore
variable {env : NodeEnv} (S : BlockStore env)

/-- The blocks of a branch connected from genesis on, one after the other, on one cache over
an empty database. The result is the view, with the undo data of the last block. -/
def replay : (i : CBlockIndex) → S.known i → Validation (CCoinsView × Option CBlockUndo)
  | .genesis d, h =>
      env.connectBlock (S.block (.genesis d)) (S.connectIndex ⟨.genesis d,h⟩ false)
        S.initial.pcoinsTip false
  | .child d p, h => do
      let r ← replay p (S.pprev d p h)
      env.connectBlock (S.block (.child d p)) (S.connectIndex ⟨.child d p,h⟩ false) r.1 false

def Entry.replay (e : S.Entry) : Validation (CCoinsView × Option CBlockUndo) := S.replay e.1 e.2

end BlockStore

end Anoncoin
