import Anoncoin.ChainSelection
import Anoncoin.ChainstateSafety

/-!
A node with its block tree and its chain state (main.cpp): `ProcessNewBlock` and
`ActivateBestChain` where `ConnectTip` and `DisconnectTip` work on the coins.
-/

set_option autoImplicit false

namespace Anoncoin
open Lib

/-- `CValidationState::IsInvalid` after a failure. -/
def Failure.isInvalid : Failure → Bool
  | dos _ _ => true
  | _ => false

namespace BlockStore
variable {env : NodeEnv} (S : BlockStore env) [DecidablePred S.known]

/-- Whether the branch up to a block can be connected to an empty database. -/
def connects (i : CBlockIndex) : Bool := if h : S.known i then (S.replay i h).isOk else false

/-- A tree in which the blocks are judged by the replays of their branches. -/
def judge (net : TreeEnv) : TreeEnv := { net with connectBlock := S.connects }

/-- The store is about the blocks of this network, its entries are what `AddToBlockIndex` makes
of their headers, and no two of them have the same sha256d hash. -/
structure Indexes (net : TreeEnv) : Prop where
  hashes : net.net.hashes = env.hashes
  testNet : net.net.testNet = env.testNet
  genesis : S.known net.genesis
  data : ∀ d p, S.known (.child d p) → net.net.indexData (S.block (.child d p)).toCBlockHeader = d
  prev : ∀ d p, S.known (.child d p) → (S.block (.child d p)).hashPrevBlock = p.data.fakeBIhash
  fakeHashes : ∀ i j, S.known i → S.known j → i.data.fakeBIhash = j.data.fakeBIhash → i = j

/-- The block tree and the chain state of a node. -/
structure FullNode where
  tree : BlockTree
  chain : S.Chainstate

/-- `CValidationState::CorruptionPossible` after a failed `ConnectBlock`: three of the checks of
`CheckBlock` set it. -/
def corruptionPossible {S : BlockStore env} (pindex : S.Entry) : Bool :=
  match env.checkBlock (S.block pindex.1) true true with
  | .error (.dos _ reason) =>
      reason == "bad-txnmrklroot" || reason == "bad-txns-duplicate" || reason == "bad-blk-sigops"
  | _ => false

/-- A header or a block that comes in, with the time and the required target at that moment,
and the answer of the checks that depend on the height. -/
inductive Delivery where
  | header (nAdjustedTime : Int) (checkPowVal : Uint32) (pindex : S.Entry)
  | block (nAdjustedTime : Int) (checkPowVal : Uint32) (pindex : S.Entry) (answer : BlockAnswer)

namespace FullNode
variable {S} (net : TreeEnv) (needed : S.Chainstate → Bool)

/-- `FlushStateToDisk`, when the caches are too large or the last write was too long ago. -/
def flushState (chain : S.Chainstate) : Validation S.Chainstate :=
  if needed chain then orThrow chain.flushStateToDisk .assertion else pure chain

/-- `DisconnectTip`. -/
def disconnectTip (n : S.FullNode) : Validation S.FullNode := do
  let pindexDelete ← orThrow n.tree.chainActive.tip .assertion
  let chain ← n.chain.disconnectTip
  let chain ← flushState needed chain
  let chain ← orThrow chain.updateTip .assertion
  pure ⟨{ n.tree with chainActive := n.tree.chainActive.setTip pindexDelete.pprev },chain⟩

/-- The loop of `ActivateBestChainStep` that disconnects down to the fork. -/
def disconnectTo (pindexFork : Option CBlockIndex) : CBlockIndex → S.FullNode → Validation S.FullNode
  | i@(.genesis _), n => if some i = pindexFork then pure n else n.disconnectTip needed
  | i@(.child _ pprev), n =>
      if some i = pindexFork then pure n
      else do
        let n ← n.disconnectTip needed
        disconnectTo pindexFork pprev n

/-- `ConnectTip`. The answer is whether the block was connected; a failure that is not the
block's is thrown. -/
def connectTip (n : S.FullNode) (pindexNew : CBlockIndex) : Validation (Bool × S.FullNode) := do
  let r ← orThrow (n.chain.mapBlockIndex pindexNew.data.hashBlock) .assertion
  match n.chain.connectTip r none with
  | .ok chain => do
      let chain ← flushState needed chain
      let chain ← orThrow chain.updateTip .assertion
      let tree := TreeEnv.connected n.tree pindexNew
      pure (true,⟨{ tree with chainActive := tree.chainActive.setTip (some pindexNew) },chain⟩)
  | .error f =>
      if f.isInvalid then
        if corruptionPossible r.pindex then pure (false,n)
        else pure (false,{ n with tree := n.tree.invalidBlockFound pindexNew })
      else throw f

/-- The loop over `vpindexToConnect`, lowest block first. The answer is `fContinue`. -/
def connectBlocks (pindexOldTip back : Option CBlockIndex) :
    List CBlockIndex → S.FullNode → Validation (Bool × S.FullNode)
  | [], n => pure (true,n)
  | pindexConnect :: rest, n => do
      let r ← n.connectTip needed pindexConnect
      if r.1 then do
        let tree ← orThrow ((S.judge net).pruneBlockIndexCandidates r.2.tree) .assertion
        if TreeEnv.improved pindexOldTip tree then pure (false,{ r.2 with tree := tree })
        else connectBlocks pindexOldTip back rest { r.2 with tree := tree }
      else
        let corrupted := (n.chain.mapBlockIndex pindexConnect.data.hashBlock).any fun record =>
          corruptionPossible record.pindex
        pure (false,if corrupted then r.2
          else { r.2 with tree := back.elim r.2.tree r.2.tree.invalidChainFound })

/-- The loop of `ActivateBestChainStep` over stretches of up to 32 blocks. -/
def connectStretches (pindexOldTip : Option CBlockIndex) (pindexMostWork : CBlockIndex)
    (nHeight : Int) (n : S.FullNode) : Validation S.FullNode :=
  if nHeight = pindexMostWork.nHeight then pure n
  else do
    let nTargetHeight := min (nHeight+32) pindexMostWork.nHeight
    let vpindexToConnect :=
      (pindexMostWork.getAncestor n.tree.pskip nTargetHeight).elim [] (BlockTree.toConnect nHeight)
    let r ← connectBlocks net needed pindexOldTip vpindexToConnect.getLast?
      vpindexToConnect.reverse n
    if r.1 then connectStretches pindexOldTip pindexMostWork nTargetHeight r.2 else pure r.2
  termination_by (pindexMostWork.nHeight-nHeight).natAbs
  decreasing_by omega

def activateBestChainStep (n : S.FullNode) (pindexMostWork : CBlockIndex) :
    Validation S.FullNode := do
  let pindexOldTip := n.tree.chainActive.tip
  let pindexFork := n.tree.chainActive.findFork n.tree.pskip pindexMostWork
  let n ← pindexOldTip.elim (pure n) fun tip => disconnectTo needed pindexFork tip n
  connectStretches net needed pindexOldTip pindexMostWork (pindexFork.elim (-1) fun f => f.nHeight) n

/-- `ActivateBestChain`: each round of its loop takes one unit of fuel, and without any it is
given up. It ends with a `FlushStateToDisk` unless there was nothing to do. -/
def activateBestChain : Nat → S.FullNode → Validation S.FullNode
  | 0, _ => throw .abort
  | fuel+1, n => do
      let r ← orThrow ((S.judge net).findMostWorkChain n.tree) .assertion
      match r.1 with
      | none => pure { n with tree := r.2 }
      | some pindexMostWork =>
          if some pindexMostWork = r.2.chainActive.tip then pure { n with tree := r.2 }
          else do
            let n ← activateBestChainStep net needed { n with tree := r.2 } pindexMostWork
            if some pindexMostWork = n.tree.chainActive.tip then do
              let chain ← flushState needed n.chain
              pure { n with chain := chain }
            else activateBestChain fuel n

/-- `AddToBlockIndex` in the chain state, for a block that has its entry in the tree. -/
def index (n : S.FullNode) (tree : BlockTree) (pindex : S.Entry) : Validation S.FullNode :=
  if tree.mapBlockIndex.contains pindex.1 then do
    let chain ← orThrow (n.chain.addToBlockIndex pindex) .assertion
    pure ⟨tree,chain⟩
  else pure { n with tree := tree }

/-- `AcceptBlockHeader` for a header, and `ProcessNewBlock` for a block. -/
def deliver (fuel : Nat) (n : S.FullNode) : S.Delivery → Validation S.FullNode
  | .header now work pindex =>
      match (S.judge net).acceptBlockHeader n.tree now work (S.block pindex.1).toCBlockHeader with
      | .error _ => pure n
      | .ok r => n.index r.2 pindex
  | .block now work pindex answer =>
      match env.checkBlock (S.block pindex.1) true true with
      | .error _ => pure n
      | .ok () => do
          let r := (S.judge net).acceptBlock n.tree now work (S.block pindex.1) answer
          let n ← n.index r.2 pindex
          if r.1 then activateBestChain net needed fuel n else pure n

/-- `InitBlockIndex` on empty databases: the genesis block is indexed and connected. -/
def start (h : S.known net.genesis) : Validation S.FullNode := do
  let pindex : S.Entry := ⟨net.genesis,h⟩
  let chain ← orThrow (S.initial.addToBlockIndex pindex) .assertion
  let chain ← chain.connectTip ⟨pindex,none⟩ none
  let chain ← orThrow chain.updateTip .assertion
  pure ⟨net.initial,chain⟩

/-- What a node that starts with empty databases makes of its deliveries. -/
def run (h : S.known net.genesis) (fuel : Nat) (deliveries : List S.Delivery) :
    Validation S.FullNode := do
  let n ← start net h
  deliveries.foldlM (deliver net needed fuel) n

end FullNode
end BlockStore

end Anoncoin
