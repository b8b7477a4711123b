import Mathlib.Logic.Function.Basic
import Anoncoin.Chain

/-!
The block tree of main.cpp: how headers and block data enter it, and how
`ActivateBestChain` and `InvalidateBlock` move the active chain.
-/

set_option autoImplicit false

namespace Anoncoin

/-- The validity levels of `BlockStatus`. -/
inductive Validity where
  | unknown
  | header
  | tree
  | transactions
  | chain
  | scripts
  deriving DecidableEq, Repr

def Validity.level : Validity → Nat
  | unknown => 0
  | header => 1
  | tree => 2
  | transactions => 3
  | chain => 4
  | scripts => 5

/-- The entries of `mapBlockIndex` in the order of their insertion, the fields of the
entries that change (`nStatus` by its parts), the active chain, and the sets that
main.cpp keeps beside them. -/
structure BlockTree where
  mapBlockIndex : List CBlockIndex
  mapBlockHashCrossReference : Uint256 → Option Uint256
  pskip : CBlockIndex → Option CBlockIndex
  validity : CBlockIndex → Validity
  haveData : CBlockIndex → Bool
  haveUndo : CBlockIndex → Bool
  failedValid : CBlockIndex → Bool
  failedChild : CBlockIndex → Bool
  nTx : CBlockIndex → Nat
  nChainTx : CBlockIndex → Nat
  nSequenceId : CBlockIndex → Nat
  chainActive : CChain
  setBlockIndexCandidates : List CBlockIndex
  mapBlocksUnlinked : List (CBlockIndex × CBlockIndex)
  pindexBestInvalid : Option CBlockIndex
  nBlockSequenceId : Nat

namespace BlockTree

/-- The test for `BLOCK_FAILED_MASK`. -/
def failed (t : BlockTree) (i : CBlockIndex) : Bool := t.failedValid i || t.failedChild i

def isValid (t : BlockTree) (i : CBlockIndex) (nUpTo : Validity) : Bool :=
  !t.failed i && decide (nUpTo.level ≤ (t.validity i).level)

def raiseValidity (t : BlockTree) (i : CBlockIndex) (nUpTo : Validity) : BlockTree :=
  if !t.failed i && decide ((t.validity i).level < nUpTo.level) then
    { t with validity := Function.update t.validity i nUpTo }
  else t

def setFailedValid (t : BlockTree) (i : CBlockIndex) : BlockTree :=
  { t with failedValid := Function.update t.failedValid i true }

def setFailedChild (t : BlockTree) (i : CBlockIndex) : BlockTree :=
  { t with failedChild := Function.update t.failedChild i true }

def insertCandidate (t : BlockTree) (i : CBlockIndex) : BlockTree :=
  { t with setBlockIndexCandidates := t.setBlockIndexCandidates.insert i }

def eraseCandidate (t : BlockTree) (i : CBlockIndex) : BlockTree :=
  { t with setBlockIndexCandidates := t.setBlockIndexCandidates.filter fun c => c ≠ i }

/-- `InvalidChainFound`, without its messages: an invalid entry with more work than the
best one so far takes its place. -/
def invalidChainFound (t : BlockTree) (pindexNew : CBlockIndex) : BlockTree :=
  { t with pindexBestInvalid :=
      match t.pindexBestInvalid with
      | none => some pindexNew
      | some b => if b.nChainWork < pindexNew.nChainWork then some pindexNew else some b }

/-- `InvalidBlockFound`, for a block that cannot be a corrupted one. -/
def invalidBlockFound (t : BlockTree) (pindex : CBlockIndex) : BlockTree :=
  ((t.setFailedValid pindex).eraseCandidate pindex).invalidChainFound pindex

/-- What the checks of a header see of the tree. -/
def node (t : BlockTree) : NodeState where
  mapBlockIndex hash := t.mapBlockIndex.find? fun i => i.data.hashBlock == hash
  mapBlockHashCrossReference := t.mapBlockHashCrossReference
  failed hash := (t.mapBlockIndex.find? fun i => i.data.hashBlock == hash).any t.failed
  tip := t.chainActive.tip

/-- The fields that `AddToBlockIndex` sets in a new entry, with `BuildSkip`. -/
def addEntry (t : BlockTree) (i : CBlockIndex) : BlockTree :=
  { t with
    mapBlockIndex := t.mapBlockIndex ++ [i]
    pskip := Function.update t.pskip i
      (i.pprev.bind fun p => p.getAncestor t.pskip (getSkipHeight i.nHeight))
    validity := Function.update t.validity i .tree
    haveData := Function.update t.haveData i false
    haveUndo := Function.update t.haveUndo i false
    failedValid := Function.update t.failedValid i false
    failedChild := Function.update t.failedChild i false
    nTx := Function.update t.nTx i 0
    nChainTx := Function.update t.nChainTx i 0
    nSequenceId := Function.update t.nSequenceId i 0 }

/-- The fields that `ReceivedBlockTransactions` sets in the entry of the block. -/
def receiveData (t : BlockTree) (pindexNew : CBlockIndex) (nTx : Nat) : BlockTree :=
  ({ t with
    nTx := Function.update t.nTx pindexNew nTx
    nChainTx := Function.update t.nChainTx pindexNew 0
    haveData := Function.update t.haveData pindexNew true }).raiseValidity pindexNew .transactions

/-- `DisconnectTip`, which cannot undo a block without undo data. -/
def disconnectTip (t : BlockTree) : Option BlockTree :=
  match t.chainActive.tip with
  | none => none
  | some pindexDelete =>
      if t.haveUndo pindexDelete then
        some { t with chainActive := t.chainActive.setTip pindexDelete.pprev }
      else none

/-- The loop of `ActivateBestChainStep` that disconnects down to the fork; the tip is
the entry the recursion is on. -/
def disconnectTo (pindexFork : Option CBlockIndex) : CBlockIndex → BlockTree → Option BlockTree
  | i@(.genesis _), t => if some i = pindexFork then some t else t.disconnectTip
  | i@(.child _ pprev), t =>
      if some i = pindexFork then some t else t.disconnectTip.bind (disconnectTo pindexFork pprev)

/-- The loop of `InvalidateBlock` that takes the block off the active chain. -/
def disconnectInvalid (pindex : CBlockIndex) : CBlockIndex → BlockTree → Bool × BlockTree
  | i@(.genesis _), t =>
      if t.chainActive.contains pindex then
        let t := (t.setFailedChild i).eraseCandidate i
        match t.disconnectTip with
        | none => (false,t)
        | some t => (true,t)
      else (true,t)
  | i@(.child _ pprev), t =>
      if t.chainActive.contains pindex then
        let t := (t.setFailedChild i).eraseCandidate i
        match t.disconnectTip with
        | none => (false,t)
        | some t => disconnectInvalid pindex pprev t
      else (true,t)

/-- The walk of `FindMostWorkChain` from a candidate to the active chain: it stops at an
entry that is marked as failed. An assertion fails where an entry is not linked. -/
def findFailed (t : BlockTree) : CBlockIndex → Option (Option CBlockIndex)
  | i@(.genesis _) =>
      if t.chainActive.contains i then some none
      else if !t.haveData i then none
      else if t.failed i then some (some i)
      else some none
  | i@(.child _ pprev) =>
      if t.chainActive.contains i then some none
      else if !t.haveData i || t.nChainTx i == 0 then none
      else if t.failed i then some (some i)
      else findFailed t pprev

/-- The inner loop of `FindMostWorkChain`, from the candidate down to the failed entry. -/
def eraseFailed (pindexTest : CBlockIndex) : CBlockIndex → BlockTree → BlockTree
  | i@(.genesis _), t =>
      if pindexTest ≠ i then (t.setFailedChild i).eraseCandidate i else t.eraseCandidate i
  | i@(.child _ pprev), t =>
      if pindexTest ≠ i then
        eraseFailed pindexTest pprev ((t.setFailedChild i).eraseCandidate i)
      else t.eraseCandidate i

/-- The entries from `i` down to the height `nHeight`, which itself is left out. -/
def toConnect (nHeight : Int) : CBlockIndex → List CBlockIndex
  | i@(.genesis _) => if (i.nHeight : Int) = nHeight then [] else [i]
  | i@(.child _ pprev) => if (i.nHeight : Int) = nHeight then [] else i :: toConnect nHeight pprev

end BlockTree

/-- The answer of `CheckBlock` and `ContextualCheckBlock` for the data of a block. -/
inductive BlockAnswer where
  | valid
  | invalid
  | corrupted
  deriving DecidableEq, Repr

/-- The network with its genesis block, the addresses at which the entries are
allocated, and the answer of `ConnectBlock` for each block. -/
structure TreeEnv where
  net : Consensus
  genesisData : IndexData
  genesis_hash : genesisData.hashBlock = net.hashGenesisBlock
  address : CBlockIndex → Nat
  connectBlock : CBlockIndex → Bool

namespace TreeEnv
open BlockTree
variable (env : TreeEnv)

/-- `CBlockIndexWorkComparator`. -/
def workComparator (t : BlockTree) (pa pb : CBlockIndex) : Bool :=
  if pb.nChainWork < pa.nChainWork then false
  else if pa.nChainWork < pb.nChainWork then true
  else if t.nSequenceId pa < t.nSequenceId pb then false
  else if t.nSequenceId pb < t.nSequenceId pa then true
  else decide (env.address pb < env.address pa)

/-- The comparison with the tip of the active chain. -/
def belowTip (t : BlockTree) (i : CBlockIndex) : Bool :=
  t.chainActive.tip.any fun tip => env.workComparator t i tip

/-- The last entry of a set that is ordered by the comparator. -/
def lastOf (t : BlockTree) : List CBlockIndex → Option CBlockIndex
  | [] => none
  | c :: rest =>
      match lastOf t rest with
      | none => some c
      | some b => if env.workComparator t b c then some c else some b

def acceptBlockHeader (t : BlockTree) (nAdjustedTime : Int) (checkPowVal : Uint32)
    (block : CBlockHeader) : Validation (CBlockIndex × BlockTree) := do
  let (pindex,s) ← env.net.acceptBlockHeader t.node nAdjustedTime checkPowVal block
  if pindex ∈ t.mapBlockIndex then pure (pindex,t)
  else pure (pindex,{ t.addEntry pindex with
    mapBlockHashCrossReference := s.mapBlockHashCrossReference })

/-- The part of the queue loop of `ReceivedBlockTransactions` before the descendants. -/
def link (t : BlockTree) (pindex : CBlockIndex) : BlockTree :=
  let t := { t with
    nChainTx := Function.update t.nChainTx pindex
      ((pindex.pprev.elim 0 t.nChainTx)+t.nTx pindex)
    nSequenceId := Function.update t.nSequenceId pindex t.nBlockSequenceId
    nBlockSequenceId := t.nBlockSequenceId+1 }
  if env.belowTip t pindex then t else t.insertCandidate pindex

/-- `mapBlocksUnlinked` without the range of one key. -/
def eraseRange (pindex : CBlockIndex) (unlinked : List (CBlockIndex × CBlockIndex)) :
    List (CBlockIndex × CBlockIndex) :=
  unlinked.filter fun u => u.1 ≠ pindex

/-- The blocks of one key of `mapBlocksUnlinked`, in the order of their insertion. -/
def range (pindex : CBlockIndex) (unlinked : List (CBlockIndex × CBlockIndex)) :
    List CBlockIndex :=
  (unlinked.filter fun u => u.1 = pindex).map Prod.snd

theorem length_range (pindex : CBlockIndex) (unlinked : List (CBlockIndex × CBlockIndex)) :
    (range pindex unlinked).length+(eraseRange pindex unlinked).length = unlinked.length := by
  unfold range eraseRange
  induction unlinked with
  | nil => rfl
  | cons u rest ih =>
    by_cases h : u.1 = pindex
    · simp [h] at ih ⊢
      omega
    · simp [h] at ih ⊢
      omega

/-- One round of the queue loop, which takes the children of the entry out of
`mapBlocksUnlinked`. -/
def linkNext (t : BlockTree) (pindex : CBlockIndex) : BlockTree :=
  { env.link t pindex with mapBlocksUnlinked := eraseRange pindex t.mapBlocksUnlinked }

/-- The queue loop of `ReceivedBlockTransactions`. -/
def linkQueue : List CBlockIndex → BlockTree → BlockTree
  | [], t => t
  | pindex :: queue, t =>
      linkQueue (queue ++ range pindex t.mapBlocksUnlinked) (env.linkNext t pindex)
  termination_by queue t => queue.length+t.mapBlocksUnlinked.length
  decreasing_by
    have := length_range pindex t.mapBlocksUnlinked
    simp only [List.length_append,List.length_cons,linkNext]
    omega

/-- `ReceivedBlockTransactions`. -/
def receivedBlockTransactions (t : BlockTree) (pindexNew : CBlockIndex) (nTx : Nat) : BlockTree :=
  let t := t.receiveData pindexNew nTx
  match pindexNew.pprev with
  | none => env.linkQueue [pindexNew] t
  | some pprev =>
      if t.nChainTx pprev ≠ 0 then env.linkQueue [pindexNew] t
      else if t.isValid pprev .tree then
        { t with mapBlocksUnlinked := t.mapBlocksUnlinked ++ [(pprev,pindexNew)] }
      else t

/-- `AcceptBlock`; `answer` is that of the two checks of the block. -/
def acceptBlock (t : BlockTree) (nAdjustedTime : Int) (checkPowVal : Uint32) (block : CBlock)
    (answer : BlockAnswer) : Bool × BlockTree :=
  match env.acceptBlockHeader t nAdjustedTime checkPowVal block.toCBlockHeader with
  | .error _ => (false,t)
  | .ok (pindex,t) =>
      if t.haveData pindex then (true,t)
      else if nDifficultySwitchHeight4 ≤ pindex.nHeight ∧ answer ≠ .valid then
        (false,if answer = .invalid then t.setFailedValid pindex else t)
      else (true,env.receivedBlockTransactions t pindex block.vtx.length)

/-- `PruneBlockIndexCandidates`. The set is ordered, so that the loop from its beginning
erases all the entries that sort below the tip. At the end it asserts that some are left. -/
def pruneBlockIndexCandidates (t : BlockTree) : Option BlockTree :=
  let left := t.setBlockIndexCandidates.filter fun c => !env.belowTip t c
  if left.isEmpty then none else some { t with setBlockIndexCandidates := left }

/-- What `ConnectBlock` leaves in the entry of a block that it accepts. For genesis it
returns early. -/
def connected (t : BlockTree) : CBlockIndex → BlockTree
  | .genesis _ => t
  | i@(.child _ _) =>
      ({ t with haveUndo := Function.update t.haveUndo i true }).raiseValidity i .scripts

def connects : CBlockIndex → Bool
  | .genesis _ => true
  | i@(.child _ _) => env.connectBlock i

/-- `ConnectTip`, which asserts that the block extends the tip. -/
def connectTip (t : BlockTree) (pindexNew : CBlockIndex) : Option (Bool × BlockTree) :=
  if pindexNew.pprev = t.chainActive.tip then
    if env.connects pindexNew then
      let t := connected t pindexNew
      some (true,{ t with chainActive := t.chainActive.setTip (some pindexNew) })
    else some (false,t.invalidBlockFound pindexNew)
  else none

/-- The tip has more work than the one that `ActivateBestChainStep` started from. -/
def improved (pindexOldTip : Option CBlockIndex) (t : BlockTree) : Bool :=
  pindexOldTip.all fun old => t.chainActive.tip.any fun tip => decide (old.nChainWork < tip.nChainWork)

/-- The loop over `vpindexToConnect`, lowest block first. The answer is `fContinue`. -/
def connectBlocks (pindexOldTip back : Option CBlockIndex) :
    List CBlockIndex → BlockTree → Option (Bool × BlockTree)
  | [], t => some (true,t)
  | pindexConnect :: rest, t =>
      match env.connectTip t pindexConnect with
      | none => none
      | some (false,t) => some (false,back.elim t t.invalidChainFound)
      | some (true,t) =>
          match env.pruneBlockIndexCandidates t with
          | none => none
          | some t =>
              if improved pindexOldTip t then some (false,t)
              else connectBlocks pindexOldTip back rest t

/-- The loop of `ActivateBestChainStep` over stretches of up to 32 blocks. -/
def connectStretches (pindexOldTip : Option CBlockIndex) (pindexMostWork : CBlockIndex)
    (nHeight : Int) (t : BlockTree) : Option BlockTree :=
  if nHeight = pindexMostWork.nHeight then some t
  else
    let nTargetHeight := min (nHeight+32) pindexMostWork.nHeight
    let vpindexToConnect :=
      (pindexMostWork.getAncestor t.pskip nTargetHeight).elim [] (toConnect nHeight)
    match env.connectBlocks pindexOldTip vpindexToConnect.getLast? vpindexToConnect.reverse t with
    | none => none
    | some (false,t) => some t
    | some (true,t) => connectStretches pindexOldTip pindexMostWork nTargetHeight t
  termination_by (pindexMostWork.nHeight-nHeight).natAbs
  decreasing_by omega

def activateBestChainStep (t : BlockTree) (pindexMostWork : CBlockIndex) : Option BlockTree :=
  let pindexOldTip := t.chainActive.tip
  let pindexFork := t.chainActive.findFork t.pskip pindexMostWork
  match pindexOldTip.elim (some t) fun tip => disconnectTo pindexFork tip t with
  | none => none
  | some t =>
      env.connectStretches pindexOldTip pindexMostWork (pindexFork.elim (-1) fun f => f.nHeight) t

theorem mem_of_lastOf {t : BlockTree} {l : List CBlockIndex} {b : CBlockIndex}
    (h : env.lastOf t l = some b) : b ∈ l := by
  induction l generalizing b with
  | nil => simp [lastOf] at h
  | cons c rest ih =>
    unfold lastOf at h
    cases hr : env.lastOf t rest with
    | none =>
      rw [hr] at h
      obtain rfl := Option.some.inj h
      simp
    | some m =>
      rw [hr] at h
      simp only at h
      split at h
      · obtain rfl := Option.some.inj h
        simp
      · obtain rfl := Option.some.inj h
        exact List.mem_cons_of_mem _ (ih hr)

theorem eraseFailed_candidates (pindexTest i : CBlockIndex) (t : BlockTree) :
    (eraseFailed pindexTest i t).setBlockIndexCandidates.Sublist
      (t.eraseCandidate i).setBlockIndexCandidates := by
  induction i generalizing t with
  | genesis d =>
    unfold eraseFailed
    split <;> exact List.Sublist.refl _
  | child d p ih =>
    unfold eraseFailed
    split
    · exact (ih _).trans List.filter_sublist
    · exact List.Sublist.refl _

/-- `FindMostWorkChain`. -/
def findMostWorkChain (t : BlockTree) : Option (Option CBlockIndex × BlockTree) :=
  match _h : env.lastOf t t.setBlockIndexCandidates with
  | none => some (none,t)
  | some pindexNew =>
      match findFailed t pindexNew with
      | none => none
      | some none => some (some pindexNew,t)
      | some (some pindexTest) =>
          findMostWorkChain (eraseFailed pindexTest pindexNew (t.invalidChainFound pindexNew))
  termination_by t.setBlockIndexCandidates.length
  decreasing_by
    apply (eraseFailed_candidates _ _ _).length_le.trans_lt
    exact List.length_filter_lt_length_iff_exists.mpr
      ⟨pindexNew,env.mem_of_lastOf _h,by simp⟩

/-- `ActivateBestChain`: each round of its loop takes one unit of fuel. -/
def activateBestChain : Nat → BlockTree → Option BlockTree
  | 0, _ => none
  | fuel+1, t =>
      match env.findMostWorkChain t with
      | none => none
      | some (none,t) => some t
      | some (some pindexMostWork,t) =>
          if some pindexMostWork = t.chainActive.tip then some t
          else
            match env.activateBestChainStep t pindexMostWork with
            | none => none
            | some t =>
                if some pindexMostWork = t.chainActive.tip then some t
                else activateBestChain fuel t

/-- The loop of `InvalidateBlock` over `mapBlockIndex`. -/
def readdCandidates (t : BlockTree) : BlockTree :=
  (t.mapBlockIndex.filter fun i =>
    t.isValid i .transactions && t.nChainTx i != 0 && !env.belowTip t i).foldl insertCandidate t

/-- `InvalidateBlock`. -/
def invalidateBlock (t : BlockTree) (pindex : CBlockIndex) : Bool × BlockTree :=
  let t := (t.setFailedValid pindex).eraseCandidate pindex
  match t.chainActive.tip.elim (true,t) fun tip => disconnectInvalid pindex tip t with
  | (false,t) => (false,t)
  | (true,t) => (true,(env.readdCandidates t).invalidChainFound pindex)

def genesis : CBlockIndex := .genesis env.genesisData

/-- What `InitBlockIndex` leaves: the genesis block, with its one transaction, is
received and connected. -/
def initial : BlockTree where
  mapBlockIndex := [env.genesis]
  mapBlockHashCrossReference := Function.update (fun _ => none) env.genesisData.fakeBIhash
    (some env.genesisData.hashBlock)
  pskip _ := none
  validity := Function.update (fun _ => .unknown) env.genesis .transactions
  haveData := Function.update (fun _ => false) env.genesis true
  haveUndo _ := false
  failedValid _ := false
  failedChild _ := false
  nTx := Function.update (fun _ => 0) env.genesis 1
  nChainTx := Function.update (fun _ => 0) env.genesis 1
  nSequenceId := Function.update (fun _ => 0) env.genesis 1
  chainActive := .pathTo env.genesis
  setBlockIndexCandidates := [env.genesis]
  mapBlocksUnlinked := []
  pindexBestInvalid := none
  nBlockSequenceId := 2

end TreeEnv

/-- The calls that change the tree. -/
inductive TreeEvent where
  | acceptBlockHeader (nAdjustedTime : Int) (checkPowVal : Uint32) (block : CBlockHeader)
  | acceptBlock (nAdjustedTime : Int) (checkPowVal : Uint32) (block : CBlock)
      (answer : BlockAnswer)
  | activateBestChain
  | invalidateBlock (pindex : CBlockIndex)

namespace TreeEnv
variable (env : TreeEnv)

/-- The state after a call, if `ActivateBestChain` gets along with the fuel. Only entries
of the index can be invalidated. -/
def step (fuel : Nat) (t : BlockTree) : TreeEvent → Option BlockTree
  | .acceptBlockHeader now work block =>
      match env.acceptBlockHeader t now work block with
      | .error _ => some t
      | .ok (_,t) => some t
  | .acceptBlock now work block answer => some (env.acceptBlock t now work block answer).2
  | .activateBestChain => env.activateBestChain fuel t
  | .invalidateBlock pindex =>
      if pindex ∈ t.mapBlockIndex then some (env.invalidateBlock t pindex).2 else some t

def run (fuel : Nat) (t : BlockTree) (events : List TreeEvent) : Option BlockTree :=
  events.foldlM (env.step fuel) t

end TreeEnv

namespace CBlockIndex

/-- The oldest ancestor with a property, as the traversal of `CheckBlockIndex` tracks it
along the path from genesis. -/
def firstWith (p : CBlockIndex → Bool) : CBlockIndex → Option CBlockIndex
  | i@(.genesis _) => if p i then some i else none
  | i@(.child _ pprev) =>
      match firstWith p pprev with
      | some a => some a
      | none => if p i then some i else none

end CBlockIndex

namespace TreeEnv
open CBlockIndex
variable (env : TreeEnv)

/-- The assertions of `CheckBlockIndex` at one entry. -/
def checkEntry (t : BlockTree) (pindex : CBlockIndex) : Bool :=
  let below (v : Validity) (a : CBlockIndex) : Bool :=
    a.pprev.isSome && decide ((t.validity a).level < v.level)
  let pindexFirstInvalid := firstWith t.failedValid pindex
  let pindexFirstMissing := firstWith (fun a => !t.haveData a) pindex
  let pindexFirstNotTreeValid := firstWith (below .tree) pindex
  let pindexFirstNotChainValid := firstWith (below .chain) pindex
  let pindexFirstNotScriptsValid := firstWith (below .scripts) pindex
  let foundInUnlinked := pindex.pprev.any fun p => t.mapBlocksUnlinked.contains (p,pindex)
  (pindex.pprev.isSome || (pindex.data.hashBlock == env.net.hashGenesisBlock &&
    t.chainActive.genesis == some pindex)) &&
  (pindexFirstMissing.isSome == (t.nChainTx pindex == 0)) &&
  (pindex.nHeight+1 == pindex.ancestors.length) &&
  (pindex.pprev.all fun p => decide (p.nChainWork ≤ pindex.nChainWork)) &&
  (decide (pindex.nHeight < 2) ||
    (t.pskip pindex).any fun s => decide (s.nHeight < pindex.nHeight)) &&
  pindexFirstNotTreeValid.isNone &&
  (decide ((t.validity pindex).level < Validity.chain.level) ||
    pindexFirstNotChainValid.isNone) &&
  (decide ((t.validity pindex).level < Validity.scripts.level) ||
    pindexFirstNotScriptsValid.isNone) &&
  (pindexFirstInvalid.isSome || !t.failed pindex) &&
  (if !env.belowTip t pindex && pindexFirstMissing.isNone then
    pindexFirstInvalid.isSome || t.setBlockIndexCandidates.contains pindex
  else !t.setBlockIndexCandidates.contains pindex) &&
  (if pindex.pprev.isSome && t.haveData pindex && pindexFirstMissing.isSome then
    pindexFirstInvalid.isSome || foundInUnlinked
  else !foundInUnlinked)

/-- `CheckBlockIndex`: there is one entry without a parent, the traversal from it reaches
every entry, and the assertions hold at each. -/
def checkBlockIndex (t : BlockTree) : Bool :=
  ((t.mapBlockIndex.filter fun i => i.pprev.isNone).length == 1) &&
  (t.mapBlockIndex.all fun i => i.ancestors.all t.mapBlockIndex.contains) &&
  t.mapBlockIndex.all (env.checkEntry t)

end TreeEnv

end Anoncoin
