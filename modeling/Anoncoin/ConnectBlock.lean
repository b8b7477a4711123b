import Anoncoin.Block
import Anoncoin.CoinsCache
import Anoncoin.Lib.Outcome

/-!
Block validation against the coin views: `CheckTransaction`, `CheckBlock`,
`CheckInputs`, `UpdateCoins`, `ConnectBlock` and `DisconnectBlock` of main.cpp.
-/

set_option autoImplicit false

namespace Anoncoin
open Lib

/-- The ways a validation function ends without returning true. -/
inductive Failure where
  | dos (level : Nat) (strRejectReason : String)
  | error
  | abort
  | assertion
  | thrown
  | outOfBounds
  | overflow
  deriving DecidableEq, Repr

abbrev Validation := Except Failure

/-- The outcome of a check that may raise one rejection. -/
def rejectWith : Option (Nat × String) → Validation Unit
  | none => pure ()
  | some (level,strRejectReason) => throw (.dos level strRejectReason)

/-- What block validation takes from outside the coin views: hashes, scripts, the
header check, the merkle tree, the checkpoint height, the heights of known blocks,
and whether the disk writes succeed. -/
structure NodeEnv where
  hashes : HashFunctions
  testNet : Bool
  getTxHash : CTransaction → Uint256
  getSigOpCount : CScript → Nat
  getP2SHSigOpCountOf : CScript → CScript → Nat
  verifyScript : CScript → CTransaction → Nat → Nat → Bool
  checkBlockHeader : CBlockHeader → Bool → Option (Nat × String)
  buildMerkleTree : List CTransaction → Uint256 × Bool
  hashGenesisBlock : Uint256
  getTotalBlocksEstimate : Nat
  blockHeight : Uint256 → Option Nat
  scriptCheckThreads : Bool
  findUndoPos : Bool
  writeUndo : Bool
  writeTxIndex : Bool

/-- The fields of the `CBlockIndex` that `ConnectBlock` and `DisconnectBlock` read,
as `AddToBlockIndex` leaves them: only the genesis block has no parent, and the zero
hash stands for no block. -/
structure ConnectIndex where
  hashBlock : Uint256
  pprev : Option Uint256
  nHeight : Nat
  nTime : Nat
  hasUndoPos : Bool
  hash_ne : hashBlock ≠ 0
  prev_ne : ∀ p, pprev = some p → p ≠ 0
  prev_some : nHeight ≠ 0 → pprev.isSome = true

abbrev CTxUndo := List CTxInUndo

structure CBlockUndo where
  vtxundo : List CTxUndo
  deriving DecidableEq, Repr

/-- `nValue` in range for every output and for every running sum. -/
def checkOutputs (nValueOut : Int) : List CTxOut → Validation Unit
  | [] => pure ()
  | txout :: rest => do
      ensure (!decide (txout.nValue < 0)) (.dos 100 "bad-txns-vout-negative")
      ensure (!decide (MAX_MONEY < txout.nValue)) (.dos 100 "bad-txns-vout-toolarge")
      ensure (moneyRange (nValueOut+txout.nValue)) (.dos 100 "bad-txns-txouttotal-toolarge")
      checkOutputs (nValueOut+txout.nValue) rest

def checkDuplicateInputs (vInOutPoints : List COutPoint) : List CTxIn → Validation Unit
  | [] => pure ()
  | txin :: rest => do
      ensure (!vInOutPoints.contains txin.prevout) (.dos 100 "bad-txns-inputs-duplicate")
      checkDuplicateInputs (txin.prevout :: vInOutPoints) rest

def checkCoinBaseScript (tx : CTransaction) : Validation Unit :=
  match tx.vin with
  | [] => throw .outOfBounds
  | txin :: _ =>
      ensure (!(decide (txin.scriptSig.length < 2) || decide (120 < txin.scriptSig.length)))
        (.dos 100 "bad-cb-length")

def checkTransaction (tx : CTransaction) : Validation Unit := do
  ensure (!tx.vin.isEmpty) (.dos 10 "bad-txns-vin-empty")
  ensure (!tx.vout.isEmpty) (.dos 10 "bad-txns-vout-empty")
  ensure (!decide (MAX_BLOCK_SIZE < tx.getSerializeSize)) (.dos 100 "bad-txns-oversize")
  checkOutputs 0 tx.vout
  checkDuplicateInputs [] tx.vin
  if tx.isCoinBase then checkCoinBaseScript tx
  else ensure (tx.vin.all fun txin => !txin.prevout.isNull) (.dos 10 "bad-txns-prevout-null")

def uint32 (n : Nat) : Nat := n%2^32

namespace NodeEnv
variable (env : NodeEnv)

def getLegacySigOpCount (tx : CTransaction) : Nat :=
  let nSigOps := tx.vin.foldl (fun n txin => uint32 (n+env.getSigOpCount txin.scriptSig)) 0
  tx.vout.foldl (fun n txout => uint32 (n+env.getSigOpCount txout.scriptPubKey)) nSigOps

def checkTransactions : List CTransaction → Validation Unit
  | [] => pure ()
  | tx :: rest => do
      checkTransaction tx
      checkTransactions rest

def checkBlock (block : CBlock) (fCheckPOW fCheckMerkleRoot : Bool) : Validation Unit := do
  rejectWith (env.checkBlockHeader block.toCBlockHeader fCheckPOW)
  let merkle := env.buildMerkleTree block.vtx
  ensure (!fCheckMerkleRoot || block.hashMerkleRoot == merkle.1) (.dos 100 "bad-txnmrklroot")
  ensure (!fCheckMerkleRoot || !merkle.2) (.dos 100 "bad-txns-duplicate")
  ensure (!(block.vtx.isEmpty || decide (MAX_BLOCK_SIZE < block.vtx.length) ||
    decide (MAX_BLOCK_SIZE < block.getSerializeSize))) (.dos 100 "bad-blk-length")
  ensure (block.vtx.head?.any CTransaction.isCoinBase) (.dos 100 "bad-cb-missing")
  ensure (block.vtx.tail.all fun tx => !tx.isCoinBase) (.dos 100 "bad-cb-multiple")
  checkTransactions block.vtx
  let nSigOps := block.vtx.foldl (fun n tx => uint32 (n+env.getLegacySigOpCount tx)) 0
  ensure (!decide (MAX_BLOCK_SIGOPS < nSigOps)) (.dos 100 "bad-blk-sigops")

end NodeEnv

namespace CCoinsView

def haveInputsFrom (v : CCoinsView) : List CTxIn → Bool × CCoinsView
  | [] => (true,v)
  | txin :: rest =>
      match v.accessCoins txin.prevout.hash with
      | (some coins,v') =>
          if coins.isAvailable txin.prevout.n then haveInputsFrom v' rest else (false,v')
      | (none,v') => (false,v')

def haveInputs (v : CCoinsView) (tx : CTransaction) : Bool × CCoinsView :=
  if tx.isCoinBase then (true,v) else v.haveInputsFrom tx.vin

def getOutputFor (v : CCoinsView) (input : CTxIn) : Validation (CTxOut × CCoinsView) :=
  match v.accessCoins input.prevout.hash with
  | (none,_) => throw .assertion
  | (some coins,v') => do
      ensure (coins.isAvailable input.prevout.n) .assertion
      let txout ← orThrow coins.vout[input.prevout.n]? .outOfBounds
      pure (txout,v')

def valueInFrom (v : CCoinsView) (nResult : Int) : List CTxIn → Validation (Int × CCoinsView)
  | [] => pure (nResult,v)
  | txin :: rest => do
      let (txout,v') ← v.getOutputFor txin
      let nResult ← orThrow (addInt64 nResult txout.nValue) .overflow
      valueInFrom v' nResult rest

def getValueIn (v : CCoinsView) (tx : CTransaction) : Validation (Int × CCoinsView) :=
  if tx.isCoinBase then pure (0,v) else v.valueInFrom 0 tx.vin

end CCoinsView

def OP_HASH160 : UInt8 := 0xa9

def OP_EQUAL : UInt8 := 0x87

def CScript.isPayToScriptHash (s : CScript) : Bool :=
  s.length == 23 && s[0]? == some OP_HASH160 && s[1]? == some 0x14 && s[22]? == some OP_EQUAL

def SCRIPT_VERIFY_NONE : Nat := 0

def SCRIPT_VERIFY_P2SH : Nat := 1

def SCRIPT_VERIFY_STRICTENC : Nat := 2

namespace NodeEnv
variable (env : NodeEnv)

def p2shSigOpsFrom (v : CCoinsView) (nSigOps : Nat) : List CTxIn → Validation (Nat × CCoinsView)
  | [] => pure (nSigOps,v)
  | txin :: rest => do
      let (prevout,v') ← v.getOutputFor txin
      let k := if CScript.isPayToScriptHash prevout.scriptPubKey then
        env.getP2SHSigOpCountOf prevout.scriptPubKey txin.scriptSig else 0
      p2shSigOpsFrom v' (uint32 (nSigOps+k)) rest

def getP2SHSigOpCount (tx : CTransaction) (v : CCoinsView) : Validation (Nat × CCoinsView) :=
  if tx.isCoinBase then pure (0,v) else env.p2shSigOpsFrom v 0 tx.vin

/-- The first loop of `CheckInputs`: maturity and the range of the inputs. -/
def checkInputValues (nSpendHeight : Nat) (v : CCoinsView) (nValueIn : Int) :
    List CTxIn → Validation (Int × CCoinsView)
  | [] => pure (nValueIn,v)
  | txin :: rest =>
      match v.accessCoins txin.prevout.hash with
      | (none,_) => throw .assertion
      | (some coins,v') => do
          ensure (!(coins.fCoinBase &&
            decide ((nSpendHeight : Int)-coins.nHeight < COINBASE_MATURITY)))
            (.dos 0 "bad-txns-premature-spend-of-coinbase")
          let txout ← orThrow coins.vout[txin.prevout.n]? .outOfBounds
          let nValueIn ← orThrow (addInt64 nValueIn txout.nValue) .overflow
          ensure (moneyRange txout.nValue && moneyRange nValueIn)
            (.dos 100 "bad-txns-inputvalues-outofrange")
          checkInputValues nSpendHeight v' nValueIn rest

/-- The script loop of `CheckInputs` from input `nIn` on. With script threads the
checks are only collected. -/
def checkInputScripts (tx : CTransaction) (flags : Nat) (v : CCoinsView) (pvChecks : List Bool)
    (nIn : Nat) : List CTxIn → Validation (List Bool × CCoinsView)
  | [] => pure (pvChecks,v)
  | txin :: rest =>
      match v.accessCoins txin.prevout.hash with
      | (none,_) => throw .assertion
      | (some coins,v') => do
          let txout ← orThrow coins.vout[txin.prevout.n]? .outOfBounds
          let check := env.verifyScript txout.scriptPubKey tx nIn flags
          if env.scriptCheckThreads then
            checkInputScripts tx flags v' (pvChecks ++ [check]) (nIn+1) rest
          else do
            ensure (check || !(flags &&& SCRIPT_VERIFY_STRICTENC != 0 &&
              env.verifyScript txout.scriptPubKey tx nIn (flags-SCRIPT_VERIFY_STRICTENC)))
              (.dos 0 "non-mandatory-script-verify-flag")
            ensure check (.dos 100 "mandatory-script-verify-flag-failed")
            checkInputScripts tx flags v' pvChecks (nIn+1) rest

/-- `CheckInputs`; the result is the list of script checks left to the threads. -/
def checkInputs (tx : CTransaction) (v : CCoinsView) (fScriptChecks : Bool) (flags : Nat) :
    Validation (List Bool × CCoinsView) :=
  if tx.isCoinBase then pure ([],v) else do
    let (have_,v) := v.haveInputs tx
    ensure have_ (.dos 0 "")
    let (viewBestBlock,v) := v.getBestBlock
    ensure (viewBestBlock != 0) (.dos 0 "")
    let nHeightPrev ← orThrow (env.blockHeight viewBestBlock) (.dos 0 "")
    let (nValueIn,v) ← checkInputValues (nHeightPrev+1) v 0 tx.vin
    let nValueOut ← orThrow tx.getValueOut .thrown
    ensure (!decide (nValueIn < nValueOut)) (.dos 100 "bad-txns-in-belowout")
    ensure (!decide (nValueIn-nValueOut < 0)) (.dos 100 "bad-txns-fee-negative")
    ensure (moneyRange (0+(nValueIn-nValueOut))) (.dos 100 "bad-txns-fee-outofrange")
    if fScriptChecks then env.checkInputScripts tx flags v [] 0 tx.vin else pure ([],v)

end NodeEnv

/-- The input loop of `UpdateCoins`. -/
def spendInputs (v : CCoinsView) (vprevout : CTxUndo) :
    List CTxIn → Validation (CTxUndo × CCoinsView)
  | [] => pure (vprevout,v)
  | txin :: rest => do
      let (undo,v') ← orThrow (v.modifyCoins txin.prevout.hash fun coins =>
        (coins.spend txin.prevout).map fun r => (r.2,r.1)) .assertion
      spendInputs v' (vprevout ++ [undo]) rest

def getBlockValue (nHeight : Nat) (nFees : Int) : Int :=
  let nSubsidy : Int :=
    if nHeight < 42000 then 420000000
    else if nHeight < 77777 then 7*COIN
    else if nHeight = 77778 then 10*COIN
    else (5*COIN) >>> (nHeight/306600)
  nSubsidy+nFees

namespace NodeEnv
variable (env : NodeEnv)

def updateCoins (tx : CTransaction) (v : CCoinsView) (nHeight : Nat) :
    Validation (CTxUndo × CCoinsView) := do
  let (txundo,v) ← if tx.isCoinBase then pure ([],v) else spendInputs v [] tx.vin
  let ((),v) ← orThrow (v.modifyCoins (env.getTxHash tx) fun _ =>
    some ((),CCoins.fromTx tx nHeight)) .assertion
  pure (txundo,v)

/-- No transaction of the block overwrites one that is not fully spent. -/
def checkBIP30 (v : CCoinsView) : List CTransaction → Validation CCoinsView
  | [] => pure v
  | tx :: rest =>
      match v.accessCoins (env.getTxHash tx) with
      | (coins,v') => do
          ensure (coins.all CCoins.isPruned) (.dos 100 "bad-txns-BIP30")
          checkBIP30 v' rest

/-- The accumulators of the transaction loop of `ConnectBlock`. -/
structure ConnectState where
  view : CCoinsView
  nFees : Int
  nSigOps : Nat
  vtxundo : List CTxUndo
  checks : List Bool

/-- The signature operations of pay-to-script-hash inputs, when that rule is on. -/
def addP2SHSigOps (fStrictPayToScriptHash : Bool) (tx : CTransaction) (nSigOps : Nat)
    (v : CCoinsView) : Validation (Nat × CCoinsView) :=
  if fStrictPayToScriptHash then do
    let (k,v) ← env.getP2SHSigOpCount tx v
    ensure (!decide (MAX_BLOCK_SIGOPS < uint32 (nSigOps+k))) (.dos 100 "bad-blk-sigops")
    pure (uint32 (nSigOps+k),v)
  else pure (nSigOps,v)

/-- The branch of the transaction loop for everything but a coinbase. -/
def checkSpending (fScriptChecks fStrictPayToScriptHash : Bool) (flags : Nat) (s : ConnectState)
    (tx : CTransaction) : Validation ConnectState := do
  let (have_,v) := s.view.haveInputs tx
  ensure have_ (.dos 100 "bad-txns-inputs-missingorspent")
  let (nSigOps,v) ← env.addP2SHSigOps fStrictPayToScriptHash tx s.nSigOps v
  let (nValueIn,v) ← v.getValueIn tx
  let nValueOut ← orThrow tx.getValueOut .thrown
  let nFee ← orThrow (addInt64 nValueIn (-nValueOut)) .overflow
  let nFees ← orThrow (addInt64 s.nFees nFee) .overflow
  let (vChecks,v) ← env.checkInputs tx v fScriptChecks flags
  pure { s with view := v, nFees := nFees, nSigOps := nSigOps, checks := s.checks ++ vChecks }

/-- One iteration of the transaction loop; `first` is `i == 0`. -/
def connectTransaction (fScriptChecks fStrictPayToScriptHash : Bool) (flags nHeight : Nat)
    (first : Bool) (s : ConnectState) (tx : CTransaction) : Validation ConnectState := do
  let nSigOps := uint32 (s.nSigOps+env.getLegacySigOpCount tx)
  ensure (!decide (MAX_BLOCK_SIGOPS < nSigOps)) (.dos 100 "bad-blk-sigops")
  let s : ConnectState := { s with nSigOps := nSigOps }
  let s ← if tx.isCoinBase then pure s
    else env.checkSpending fScriptChecks fStrictPayToScriptHash flags s tx
  let (txundo,v) ← env.updateCoins tx s.view nHeight
  pure { s with view := v, vtxundo := if first then s.vtxundo else s.vtxundo ++ [txundo] }

def connectTransactions (fScriptChecks fStrictPayToScriptHash : Bool) (flags nHeight : Nat) :
    Bool → ConnectState → List CTransaction → Validation ConnectState
  | _, s, [] => pure s
  | first, s, tx :: rest => do
      let s ← env.connectTransaction fScriptChecks fStrictPayToScriptHash flags nHeight first s tx
      connectTransactions fScriptChecks fStrictPayToScriptHash flags nHeight false s rest

def nBIP16SwitchTime : Nat := 1333238400

/-- `ConnectBlock`. The undo record is the in-memory one; there is none for the
genesis block and none when the block is only checked. -/
def connectBlock (block : CBlock) (pindex : ConnectIndex) (v : CCoinsView) (fJustCheck : Bool) :
    Validation (CCoinsView × Option CBlockUndo) := do
  env.checkBlock block (!fJustCheck) (!fJustCheck)
  let (best,v) := v.getBestBlock
  ensure (pindex.pprev.getD 0 == best) .abort
  if block.toCBlockHeader.getHash env.hashes env.testNet = env.hashGenesisBlock then
    if fJustCheck then pure (v,none) else do
      let v ← orThrow (v.setBestBlock pindex.hashBlock) .assertion
      pure (v,none)
  else do
    let fScriptChecks : Bool := env.getTotalBlocksEstimate ≤ pindex.nHeight
    let v ← env.checkBIP30 v block.vtx
    let fStrictPayToScriptHash : Bool := nBIP16SwitchTime ≤ pindex.nTime
    let flags := if fStrictPayToScriptHash then SCRIPT_VERIFY_P2SH else SCRIPT_VERIFY_NONE
    let s ← env.connectTransactions fScriptChecks fStrictPayToScriptHash flags pindex.nHeight true
      ⟨v,0,0,[],[]⟩ block.vtx
    let coinbase ← orThrow block.vtx.head? .outOfBounds
    let nCoinBaseOut ← orThrow coinbase.getValueOut .thrown
    ensure (!decide (getBlockValue pindex.nHeight s.nFees < nCoinBaseOut))
      (.dos 100 "bad-cb-amount")
    ensure (s.checks.all id) (.dos 100 "")
    if fJustCheck then pure (s.view,none) else do
      ensure (pindex.hasUndoPos || env.findUndoPos) .error
      ensure (pindex.hasUndoPos || pindex.pprev.isSome) .outOfBounds
      ensure (pindex.hasUndoPos || env.writeUndo) .abort
      ensure env.writeTxIndex .abort
      let v ← orThrow (s.view.setBestBlock pindex.hashBlock) .assertion
      pure (v,some ⟨s.vtxundo⟩)

/-- Remove the outputs of a transaction, and tell whether they were what the block
itself says. -/
def removeOutputs (tx : CTransaction) (nHeight : Nat) (v : CCoinsView) :
    Validation (Bool × CCoinsView) :=
  orThrow (v.modifyCoins (env.getTxHash tx) fun outs =>
    let outs := outs.clearUnspendable
    let outsBlock := CCoins.fromTx tx nHeight
    let outs := if outsBlock.nVersion < 0 then { outs with nVersion := outsBlock.nVersion } else outs
    some (outs.equal outsBlock,CCoins.empty)) .assertion

/-- The input loop of `DisconnectBlock`, on the inputs and their undo records in the
order they are visited: last first. -/
def restoreInputs (fClean : Bool) (v : CCoinsView) :
    List (CTxIn × CTxInUndo) → Validation (Bool × CCoinsView)
  | [] => pure (fClean,v)
  | (txin,undo) :: rest => do
      let (ok,v) ← orThrow (v.modifyCoins txin.prevout.hash fun coins =>
        let r := coins.restore txin.prevout.n undo
        some (r.2,r.1)) .assertion
      restoreInputs (fClean && ok) v rest

/-- The inputs of one transaction put back; the coinbase has no undo record. -/
def disconnectInputs (tx : CTransaction) (fClean : Bool) (v : CCoinsView) :
    Option CTxUndo → Validation (Bool × CCoinsView)
  | none => pure (fClean,v)
  | some vprevout => do
      ensure (vprevout.length == tx.vin.length) .error
      restoreInputs fClean v (tx.vin.zip vprevout).reverse

/-- The transaction loop of `DisconnectBlock`, on the transactions in the order they
are visited, each with its undo record; the coinbase comes last. -/
def disconnectTransactions (nHeight : Nat) (fClean : Bool) (v : CCoinsView) :
    List (CTransaction × Option CTxUndo) → Validation (Bool × CCoinsView)
  | [] => pure (fClean,v)
  | (tx,txundo) :: rest => do
      let removed ← env.removeOutputs tx nHeight v
      let restored ← disconnectInputs tx (fClean && removed.1) removed.2 txundo
      disconnectTransactions nHeight restored.1 restored.2 rest

/-- `DisconnectBlock` with the undo data in memory; the result has `*pfClean`. -/
def disconnectBlock (block : CBlock) (pindex : ConnectIndex) (v : CCoinsView)
    (blockUndo : CBlockUndo) : Validation (Bool × CCoinsView) := do
  let (best,v) := v.getBestBlock
  ensure (pindex.hashBlock == best) .assertion
  let hashPrev ← orThrow pindex.pprev .outOfBounds
  ensure (blockUndo.vtxundo.length+1 == block.vtx.length) .error
  let (fClean,v) ← env.disconnectTransactions pindex.nHeight true v
    (block.vtx.zip (none :: blockUndo.vtxundo.map some)).reverse
  let v ← orThrow (v.setBestBlock hashPrev) .assertion
  pure (fClean,v)

end NodeEnv

end Anoncoin
