import Anoncoin.ConnectBlock

/-!
The transaction pool of txmempool.cpp: adding, the three ways of removing, and the
consistency check.
-/

set_option autoImplicit false

namespace Anoncoin
open Lib

/-- The fields of a pool entry, but for the priority, which is a floating point number,
and the size that only the priority needs. -/
structure CTxMemPoolEntry where
  tx : CTransaction
  nFee : Int
  nTxSize : Nat
  nTime : Int
  nHeight : Nat
  deriving DecidableEq, Repr

/-- `ptx` points into a node of `mapTx`; the model keeps the key of the node. -/
structure CInPoint where
  ptx : Uint256
  n : Nat
  deriving DecidableEq, Repr

structure CTxMemPool where
  fSanityCheck : Bool
  mapTx : AList fun _ : Uint256 => CTxMemPoolEntry
  mapNextTx : AList fun _ : COutPoint => CInPoint
  totalTxSize : Uint64

namespace CTxMemPool

/-- An empty pool. -/
def empty (fSanityCheck : Bool) : CTxMemPool := ⟨fSanityCheck,∅,∅,0⟩

def exists_ (pool : CTxMemPool) (hash : Uint256) : Bool := (pool.mapTx.lookup hash).isSome

def lookup (pool : CTxMemPool) (hash : Uint256) : Option CTransaction :=
  (pool.mapTx.lookup hash).map CTxMemPoolEntry.tx

/-- `mapTx` in the order of its keys, which is how the loops go through it. -/
def inOrder (pool : CTxMemPool) : List (Uint256 × CTxMemPoolEntry) :=
  (pool.mapTx.entries.map fun e => (e.1,e.2)).mergeSort fun a b => a.1.toNat ≤ b.1.toNat

def nextInOrder (pool : CTxMemPool) : List (COutPoint × CInPoint) :=
  (pool.mapNextTx.entries.map fun e => (e.1,e.2)).mergeSort fun a b =>
    a.1.hash.toNat < b.1.hash.toNat || (a.1.hash == b.1.hash && a.1.n ≤ b.1.n)

/-- The loop of `addUnchecked` over the inputs from number `i` on. -/
def markInputs (hash : Uint256) (mapNextTx : AList fun _ : COutPoint => CInPoint) (i : Nat) :
    List CTxIn → AList fun _ : COutPoint => CInPoint
  | [] => mapNextTx
  | txin :: rest => markInputs hash (mapNextTx.insert txin.prevout ⟨hash,i⟩) (i+1) rest

def addUnchecked (pool : CTxMemPool) (hash : Uint256) (entry : CTxMemPoolEntry) : CTxMemPool :=
  { pool with
    mapTx := pool.mapTx.insert hash entry
    mapNextTx := markInputs hash pool.mapNextTx 0 entry.tx.vin
    totalTxSize := pool.totalTxSize+BitVec.ofNat 64 entry.nTxSize }

def clear (pool : CTxMemPool) : CTxMemPool := .empty pool.fSanityCheck

/-- What `it->second.ptx` points at. -/
def deref (pool : CTxMemPool) (p : CInPoint) : Option CTransaction := pool.lookup p.ptx

def eraseInputs (mapNextTx : AList fun _ : COutPoint => CInPoint) (vin : List CTxIn) :
    AList fun _ : COutPoint => CInPoint :=
  vin.foldl (fun m txin => m.erase txin.prevout) mapNextTx

/-- The end of one round of `remove`: one entry is taken out, its children are not. -/
def removeEntry (pool : CTxMemPool) (hash : Uint256) (entry : CTxMemPoolEntry) : CTxMemPool :=
  { pool with
    mapTx := pool.mapTx.erase hash
    mapNextTx := eraseInputs pool.mapNextTx entry.tx.vin
    totalTxSize := pool.totalTxSize-BitVec.ofNat 64 entry.nTxSize }

theorem removeEntry_length (pool : CTxMemPool) {hash : Uint256} {entry : CTxMemPoolEntry}
    (h : pool.mapTx.lookup hash = some entry) :
    (pool.removeEntry hash entry).mapTx.entries.length < pool.mapTx.entries.length := by
  have hmem : hash ∈ pool.mapTx.keys :=
    AList.mem_keys.mp (AList.lookup_isSome.mp (by rw [h]; rfl))
  have hpos : 0 < pool.mapTx.keys.length := List.length_pos_of_mem hmem
  have hlen : (pool.mapTx.erase hash).keys.length = pool.mapTx.keys.length-1 := by
    rw [AList.keys_erase,List.length_erase_of_mem hmem]
  simp only [AList.keys,List.keys,List.length_map] at hlen hpos
  simp only [removeEntry]
  omega

section Removal
variable (env : NodeEnv)

/-- The hashes of the pool transactions that spend an output of the transaction, in
the order of the outputs. -/
def spenders (pool : CTxMemPool) (hash : Uint256) (tx : CTransaction) : List Uint256 :=
  (List.range tx.vout.length).filterMap fun i =>
    ((pool.mapNextTx.lookup ⟨hash,i⟩).bind pool.deref).map env.getTxHash

/-- The loop of `remove`, over the queue `txToRemove`. -/
def removeLoop (fRecursive : Bool) (pool : CTxMemPool) (removed : List CTransaction)
    (txToRemove : List Uint256) : CTxMemPool × List CTransaction :=
  match txToRemove with
  | [] => (pool,removed)
  | hash :: rest =>
      match _h : pool.mapTx.lookup hash with
      | none => removeLoop fRecursive pool removed rest
      | some entry =>
          removeLoop fRecursive (pool.removeEntry hash entry) (removed ++ [entry.tx])
            (rest ++ if fRecursive then pool.spenders env hash entry.tx else [])
  termination_by (pool.mapTx.entries.length,txToRemove.length)
  decreasing_by
    · exact Prod.Lex.right _ (by simp)
    · exact Prod.Lex.left _ _ (pool.removeEntry_length ‹_›)

/-- `remove`. Children of a transaction that is not in the pool are removed with it. -/
def remove (pool : CTxMemPool) (origTx : CTransaction) (removed : List CTransaction)
    (fRecursive : Bool) : CTxMemPool × List CTransaction :=
  let hash := env.getTxHash origTx
  pool.removeLoop env fRecursive removed
    (hash :: if fRecursive && !pool.exists_ hash then pool.spenders env hash origTx else [])

/-- Whether one of the inputs spends a coinbase that is too young at the height, with
the coins view after the reads. -/
def spendsImmature (pool : CTxMemPool) (nMemPoolHeight : Nat) (pcoins : CCoinsView) :
    List CTxIn → Validation (Bool × CCoinsView)
  | [] => pure (false,pcoins)
  | txin :: rest =>
      if pool.exists_ txin.prevout.hash then spendsImmature pool nMemPoolHeight pcoins rest
      else
        match pcoins.accessCoins txin.prevout.hash with
        | (none,pcoins) => do
            ensure (!pool.fSanityCheck) .assertion
            pure (true,pcoins)
        | (some coins,pcoins) =>
            if coins.fCoinBase && decide ((nMemPoolHeight : Int)-coins.nHeight < COINBASE_MATURITY)
            then pure (true,pcoins)
            else spendsImmature pool nMemPoolHeight pcoins rest

/-- The first loop of `removeCoinbaseSpends`. -/
def collectImmature (pool : CTxMemPool) (nMemPoolHeight : Nat) (pcoins : CCoinsView)
    (transactionsToRemove : List CTransaction) :
    List (Uint256 × CTxMemPoolEntry) → Validation (List CTransaction × CCoinsView)
  | [] => pure (transactionsToRemove,pcoins)
  | (_,entry) :: rest => do
      let (immature,pcoins) ← pool.spendsImmature nMemPoolHeight pcoins entry.tx.vin
      collectImmature pool nMemPoolHeight pcoins
        (if immature then transactionsToRemove ++ [entry.tx] else transactionsToRemove) rest

def removeAll (pool : CTxMemPool) (txs : List CTransaction) : CTxMemPool :=
  txs.foldl (fun pool tx => (pool.remove env tx [] true).1) pool

def removeCoinbaseSpends (pool : CTxMemPool) (pcoins : CCoinsView) (nMemPoolHeight : Nat) :
    Validation (CTxMemPool × CCoinsView) := do
  let (transactionsToRemove,pcoins) ←
    pool.collectImmature nMemPoolHeight pcoins [] pool.inOrder
  pure (pool.removeAll env transactionsToRemove,pcoins)

/-- One round of `removeConflicts`. Transactions are compared by their hashes. -/
def removeConflict (tx : CTransaction) (s : CTxMemPool × List CTransaction) (txin : CTxIn) :
    CTxMemPool × List CTransaction :=
  match (s.1.mapNextTx.lookup txin.prevout).bind s.1.deref with
  | none => s
  | some txConflict =>
      if env.getTxHash txConflict ≠ env.getTxHash tx then s.1.remove env txConflict s.2 true else s

def removeConflicts (pool : CTxMemPool) (tx : CTransaction) (removed : List CTransaction) :
    CTxMemPool × List CTransaction :=
  tx.vin.foldl (removeConflict env tx) (pool,removed)

/-- The transaction loop of `removeForBlock`; the fee estimator and the priority deltas
are not part of the model. -/
def removeForBlock (pool : CTxMemPool) (vtx : List CTransaction) (conflicts : List CTransaction) :
    CTxMemPool × List CTransaction :=
  vtx.foldl (fun s tx => removeConflicts env (s.1.remove env tx [] false).1 tx s.2) (pool,conflicts)

end Removal

end CTxMemPool

/-- `AccessCoins` on the view that a cache stands in front of. -/
def CCoinsView.accessBase (v : CCoinsView) (txid : Uint256) : Option CCoins × CCoinsView :=
  match v with
  | .db d => (none,.db d)
  | .cache l base => ((base.accessCoins txid).1,.cache l (base.accessCoins txid).2)

namespace CTxMemPool

/-- One input in the first loop of `check`: whether it has to wait for a pool
transaction. -/
def checkSource (pool : CTxMemPool) (mempoolDuplicate : CCoinsView) (txin : CTxIn) :
    Validation (Bool × CCoinsView) :=
  match pool.lookup txin.prevout.hash with
  | some tx2 => do
      let txout ← orThrow tx2.vout[txin.prevout.n]? .assertion
      ensure (!txout.isNull) .assertion
      pure (true,mempoolDuplicate)
  | none => do
      let (coins,mempoolDuplicate) := mempoolDuplicate.accessBase txin.prevout.hash
      ensure (coins.any fun c => c.isAvailable txin.prevout.n) .assertion
      pure (false,mempoolDuplicate)

/-- The inputs of one entry, from number `i` on. -/
def checkSources (pool : CTxMemPool) (hash : Uint256) (mempoolDuplicate : CCoinsView)
    (fDependsWait : Bool) (i : Nat) : List CTxIn → Validation (Bool × CCoinsView)
  | [] => pure (fDependsWait,mempoolDuplicate)
  | txin :: rest => do
      let (wait,mempoolDuplicate) ← pool.checkSource mempoolDuplicate txin
      let it3 ← orThrow (pool.mapNextTx.lookup txin.prevout) .assertion
      ensure (it3.ptx == hash) .assertion
      ensure (it3.n == i) .assertion
      checkSources pool hash mempoolDuplicate (fDependsWait || wait) (i+1) rest

structure CheckState where
  checkTotal : Uint64
  waitingOnDependants : List CTxMemPoolEntry
  mempoolDuplicate : CCoinsView

section Check
variable (env : NodeEnv)

/-- `assert(CheckInputs(..))` without scripts, and `UpdateCoins`. -/
def checkSpend (tx : CTransaction) (mempoolDuplicate : CCoinsView) : Validation CCoinsView := do
  let (_,mempoolDuplicate) ← (env.checkInputs tx mempoolDuplicate false 0).mapError
    fun _ => .assertion
  let (_,mempoolDuplicate) ← env.updateCoins tx mempoolDuplicate 1000000
  pure mempoolDuplicate

def checkEntry (pool : CTxMemPool) (s : CheckState) (it : Uint256 × CTxMemPoolEntry) :
    Validation CheckState := do
  let checkTotal := s.checkTotal+BitVec.ofNat 64 it.2.nTxSize
  let (fDependsWait,mempoolDuplicate) ←
    pool.checkSources it.1 s.mempoolDuplicate false 0 it.2.tx.vin
  if fDependsWait then
    pure ⟨checkTotal,s.waitingOnDependants ++ [it.2],mempoolDuplicate⟩
  else do
    let mempoolDuplicate ← checkSpend env it.2.tx mempoolDuplicate
    pure ⟨checkTotal,s.waitingOnDependants,mempoolDuplicate⟩

/-- The second loop of `check`, over the queue of entries that wait. -/
def checkWaiting (stepsSinceLastRemove : Nat) (mempoolDuplicate : CCoinsView)
    (waitingOnDependants : List CTxMemPoolEntry) : Validation Unit :=
  match waitingOnDependants with
  | [] => pure ()
  | entry :: rest =>
      match mempoolDuplicate.haveInputs entry.tx with
      | (false,mempoolDuplicate) =>
          if stepsSinceLastRemove+1 < (rest ++ [entry]).length then
            checkWaiting (stepsSinceLastRemove+1) mempoolDuplicate (rest ++ [entry])
          else throw .assertion
      | (true,mempoolDuplicate) =>
          match checkSpend env entry.tx mempoolDuplicate with
          | .error e => throw e
          | .ok mempoolDuplicate => checkWaiting 0 mempoolDuplicate rest
  termination_by (waitingOnDependants.length,waitingOnDependants.length-stepsSinceLastRemove)
  decreasing_by
    · rename_i h
      simp only [List.length_append,List.length_cons,List.length_nil] at h ⊢
      exact Prod.Lex.right _ (by omega)
    · exact Prod.Lex.left _ _ (by simp)

/-- One round of the third loop of `check`. -/
def checkInPoint (pool : CTxMemPool) (it : COutPoint × CInPoint) : Validation Unit := do
  let ptx ← orThrow (pool.deref it.2) .outOfBounds
  let hash := env.getTxHash ptx
  let tx ← orThrow (pool.lookup hash) .assertion
  ensure (hash == it.2.ptx) .assertion
  let txin ← orThrow tx.vin[it.2.n]? .assertion
  ensure (it.1 == txin.prevout) .assertion

/-- `check`; a failed assertion is the only way it reports anything. -/
def check (pool : CTxMemPool) (pcoins : CCoinsView) : Validation Unit :=
  if !pool.fSanityCheck then pure () else do
    let s ← pool.inOrder.foldlM (pool.checkEntry env) ⟨0,[],.cache .new pcoins⟩
    checkWaiting env 0 s.mempoolDuplicate s.waitingOnDependants
    pool.nextInOrder.forM (pool.checkInPoint env)
    ensure (pool.totalTxSize == s.checkTotal) .assertion

end Check

end CTxMemPool

end Anoncoin
