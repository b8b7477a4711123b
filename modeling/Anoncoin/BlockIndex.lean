import Mathlib.Data.List.Sort
import Anoncoin.ConnectBlock

/-!
The block index (chain.h) and the header checks in front of it: `CheckProofOfWork`,
`CheckBlockHeader`, `ContextualCheckBlockHeader` (consensus.cpp), `AddToBlockIndex` and
`AcceptBlockHeader` (main.cpp).
-/

set_option autoImplicit false

namespace Anoncoin
open Lib

/-- What a `CBlockIndex` stores of its header, and its two hashes. -/
structure IndexData where
  nVersion : Uint32
  hashMerkleRoot : Uint256
  nTime : Uint32
  nBits : Uint32
  nNonce : Uint32
  fakeBIhash : Uint256
  hashBlock : Uint256
  deriving DecidableEq, Repr

/-- An entry with its chain of `pprev` pointers. -/
inductive CBlockIndex where
  | genesis (data : IndexData)
  | child (data : IndexData) (pprev : CBlockIndex)
  deriving DecidableEq, Repr

namespace CBlockIndex

def data : CBlockIndex → IndexData
  | genesis d | child d _ => d

def pprev : CBlockIndex → Option CBlockIndex
  | genesis _ => none
  | child _ p => some p

/-- `AddToBlockIndex` sets the height to one more than the parent's, so that it is
the length of the chain below. -/
def nHeight : CBlockIndex → Nat
  | genesis _ => 0
  | child _ p => p.nHeight+1

def getBlockTime (i : CBlockIndex) : Nat := i.data.nTime.toNat

def nMedianTimeSpan : Nat := 11

/-- The times of up to `n` blocks, this one first. -/
def lastTimes : Nat → CBlockIndex → List Nat
  | 0, _ => []
  | _+1, genesis d => [d.nTime.toNat]
  | n+1, child d p => d.nTime.toNat :: lastTimes n p

def getMedianTimePast (i : CBlockIndex) : Nat :=
  let pmedian := (lastTimes nMedianTimeSpan i).mergeSort
  pmedian.getD (pmedian.length/2) 0

theorem lastTimes_ne_nil (i : CBlockIndex) (n : Nat) : lastTimes (n+1) i ≠ [] := by
  cases i <;> simp [lastTimes]

theorem getMedianTimePast_mem (i : CBlockIndex) :
    i.getMedianTimePast ∈ lastTimes nMedianTimeSpan i := by
  have hne : (lastTimes nMedianTimeSpan i).mergeSort.length ≠ 0 := by
    rw [List.length_mergeSort]
    exact fun h => lastTimes_ne_nil i 10 (List.length_eq_zero_iff.mp h)
  have hlt : (lastTimes nMedianTimeSpan i).mergeSort.length/2 <
      (lastTimes nMedianTimeSpan i).mergeSort.length := by omega
  unfold getMedianTimePast
  simp only
  rw [List.getD_eq_getElem?_getD,List.getElem?_eq_getElem hlt,Option.getD_some]
  exact List.mem_mergeSort.mp (List.getElem_mem _)

/-- `GetBlockHeader`: the height is the one of the index entry. -/
def getBlockHeader (i : CBlockIndex) : CBlockHeader where
  nVersion := i.data.nVersion
  hashPrevBlock := (i.pprev.map fun p => p.data.fakeBIhash).getD 0
  hashMerkleRoot := i.data.hashMerkleRoot
  nTime := i.data.nTime
  nBits := i.data.nBits
  nNonce := i.data.nNonce
  nHeight := BitVec.ofNat 32 i.nHeight

def getBlockPowHash (H : HashFunctions) (testNet : Bool) (i : CBlockIndex) : Uint256 :=
  i.getBlockHeader.getHash H testNet

end CBlockIndex

structure Compact where
  target : Uint256
  fNegative : Bool
  fOverflow : Bool
  deriving DecidableEq, Repr

/-- `uint256::SetCompact`. -/
def setCompact (nCompact : Uint32) : Compact :=
  let nSize := (nCompact >>> 24).toNat
  let nWord := nCompact &&& 0x007fffff
  let nWord := if nSize ≤ 3 then nWord >>> (8*(3-nSize)) else nWord
  { target := if nSize ≤ 3 then nWord.zeroExtend 256 else nWord.zeroExtend 256 <<< (8*(nSize-3))
    fNegative := nWord != 0 && nCompact &&& 0x00800000 != 0
    fOverflow := nWord != 0 && (decide (34 < nSize) ||
      (decide (0xff < nWord.toNat) && decide (33 < nSize)) ||
      (decide (0xffff < nWord.toNat) && decide (32 < nSize))) }

/-- The network parameters that the header checks read. -/
structure Consensus where
  hashes : HashFunctions
  testNet : Bool
  powLimitScrypt : Uint256
  powLimitGost3411 : Uint256
  testNetStartingDifficulty : Uint32
  hashGenesisBlock : Uint256
  gExceptionBlocks : List Uint256
  checkpointsEnabled : Bool
  mapCheckpoints : List (Nat × Uint256)

namespace Consensus
variable (net : Consensus)

def switchHeight6 : Nat := nDifficultySwitchHeight6 net.testNet

def getHash (block : CBlockHeader) : Uint256 := block.getHash net.hashes net.testNet

/-- Heights are compared as unsigned numbers here. -/
def proofOfWorkLimit (block : CBlockHeader) : Uint256 :=
  if net.switchHeight6 ≤ block.nHeight.toNat then net.powLimitGost3411
  else net.powLimitScrypt

def checkProofOfWork (block : CBlockHeader) (nBits : Uint32) : Bool :=
  let c := setCompact nBits
  let proofOfWorkLimit := net.proofOfWorkLimit block
  let hash := net.getHash block
  if c.fNegative || c.target == 0 || c.fOverflow || decide (proofOfWorkLimit < c.target) then false
  else if c.target < hash then
    net.testNet && !decide (proofOfWorkLimit < hash) && net.testNetStartingDifficulty == nBits
  else true

def isExceptionBlock (hash : Uint256) : Bool := net.gExceptionBlocks.contains hash

/-- `SkipPoWCheck`, from the height of the active tip. -/
def skipPoWCheck (tip : Option CBlockIndex) : Bool :=
  match tip with
  | some tip => tip.nHeight < nDifficultySwitchHeight5
  | none => false

def checkBlockHeader (tip : Option CBlockIndex) (nAdjustedTime : Int) (block : CBlockHeader)
    (fCheckPOW : Bool) : Validation Unit :=
  let hash := net.getHash block
  let fCheckPOW := if net.isExceptionBlock hash then false else fCheckPOW
  let fCheckPOW := if fCheckPOW && !net.testNet then !skipPoWCheck tip else fCheckPOW
  if !fCheckPOW then pure () else do
    ensure (net.checkProofOfWork block block.nBits) (.dos 50 "high-hash")
    let nTimeLimit := nAdjustedTime+match tip with
      | some tip => if tip.nHeight < nDifficultySwitchHeight4 then 2*60*60 else 15*60
      | none => 0
    ensure (!decide (nTimeLimit < block.nTime.toNat)) (.dos 0 "time-too-new")

end Consensus

/-- The parts of the node state that header processing uses: `mapBlockIndex`, the
cross reference from sha256d hashes to real hashes, the failure marks, and the tip. -/
structure NodeState where
  mapBlockIndex : Uint256 → Option CBlockIndex
  mapBlockHashCrossReference : Uint256 → Option Uint256
  failed : Uint256 → Bool
  tip : Option CBlockIndex

namespace NodeState

/-- `uintFakeHash::GetRealHash`. -/
def getRealHash (s : NodeState) (fakeHash : Uint256) : Uint256 :=
  (s.mapBlockHashCrossReference fakeHash).getD 0

/-- `uintFakeHash::SetRealHash`: an insertion, which keeps an entry that is there. -/
def setRealHash (s : NodeState) (fakeHash realHash : Uint256) : NodeState :=
  { s with mapBlockHashCrossReference :=
      if (s.mapBlockHashCrossReference fakeHash).isSome then s.mapBlockHashCrossReference
      else Function.update s.mapBlockHashCrossReference fakeHash (some realHash) }

/-- Look up a block by its sha256d hash. -/
def findByFakeHash (s : NodeState) (fakeHash : Uint256) : Option CBlockIndex :=
  if s.getRealHash fakeHash ≠ 0 then s.mapBlockIndex (s.getRealHash fakeHash) else none

end NodeState

namespace Consensus
variable (net : Consensus)

/-- `Checkpoints::GetLastCheckpoint`; the map is visited from its last height down. -/
def getLastCheckpoint (s : NodeState) : Option CBlockIndex :=
  if net.checkpointsEnabled then net.mapCheckpoints.reverse.findSome? fun c => s.findByFakeHash c.2
  else none

/-- `Checkpoints::CheckBlock`. -/
def checkCheckpoint (nHeight : Nat) (hash : Uint256) : Bool :=
  if net.checkpointsEnabled then (net.mapCheckpoints.lookup nHeight).all fun h => hash == h
  else true

def isBlockInCheckpoints (nHeight : Nat) : Bool := (net.mapCheckpoints.lookup nHeight).isSome

/-- The part of `ContextualCheckBlockHeader` that early blocks skip. -/
def checkAgainstPrev (checkPowVal : Uint32) (block : CBlockHeader) (pindexPrev : CBlockIndex) :
    Validation Unit := do
  let nHeight := pindexPrev.nHeight+1
  ensure (!(block.nBits != checkPowVal && !net.isBlockInCheckpoints nHeight && !net.testNet))
    (.dos 0 "bad-diffbits")
  ensure (!decide (block.nTime.toNat ≤ pindexPrev.getMedianTimePast)) (.dos 0 "time-too-old")
  ensure (!(decide (block.nVersion.toInt < 2) && decide (nDifficultySwitchHeight4 < nHeight)))
    (.dos 0 "bad-version")
  ensure (!(!block.atLeastV3 && decide (net.switchHeight6 < nHeight))) (.dos 0 "bad-version")

/-- Blocks below the fourth switch height are fetched fast on the main network. -/
def fastFetch (nHeight : Nat) : Bool := nHeight < nDifficultySwitchHeight4 && !net.testNet

/-- `ContextualCheckBlockHeader`; `checkPowVal` is the answer of `GetNextWorkRequired`. -/
def contextualCheckBlockHeader (s : NodeState) (checkPowVal : Uint32) (block : CBlockHeader)
    (pindexPrev : Option CBlockIndex) : Validation Unit :=
  let hash := net.getHash block
  if hash = net.hashGenesisBlock then pure () else do
    let pindexPrev ← orThrow pindexPrev .assertion
    let nHeight := pindexPrev.nHeight+1
    let blockHash := if net.switchHeight6 ≤ nHeight then hash else block.calcSha256dHash net.hashes
    ensure ((net.getLastCheckpoint s).all fun p => !decide (nHeight < p.nHeight)) (.dos 100 "")
    ensure (net.checkCheckpoint nHeight blockHash) (.dos 100 "checkpoint mismatch")
    if net.fastFetch nHeight then pure () else net.checkAgainstPrev checkPowVal block pindexPrev

/-- What the new entry of `AddToBlockIndex` takes from the header. -/
def indexData (aHeader : CBlockHeader) : IndexData :=
  ⟨aHeader.nVersion,aHeader.hashMerkleRoot,aHeader.nTime,aHeader.nBits,aHeader.nNonce,
    aHeader.calcSha256dHash net.hashes,net.getHash aHeader⟩

/-- The part of `AddToBlockIndex` that sets `pprev` and the height. -/
def linkToPrev (s : NodeState) (hashPrevBlock : Uint256) (data : IndexData) :
    Validation CBlockIndex :=
  if hashPrevBlock ≠ 0 then do
    let pprev ← orThrow (s.findByFakeHash hashPrevBlock) .assertion
    pure (.child data pprev)
  else do
    ensure (data.hashBlock == net.hashGenesisBlock) .assertion
    pure (.genesis data)

/-- `AddToBlockIndex`. -/
def addToBlockIndex (s : NodeState) (aHeader : CBlockHeader) :
    Validation (CBlockIndex × NodeState) :=
  let uintRealHash := net.getHash aHeader
  match s.mapBlockIndex uintRealHash with
  | some pindex => pure (pindex,s)
  | none => do
      let s := s.setRealHash (aHeader.calcSha256dHash net.hashes) uintRealHash
      let pindexNew ← net.linkToPrev s aHeader.hashPrevBlock (net.indexData aHeader)
      pure (pindexNew,{ s with
        mapBlockIndex := Function.update s.mapBlockIndex uintRealHash (some pindexNew) })

/-- The lookup of the parent in `AcceptBlockHeader`. -/
def getPrev (s : NodeState) (block : CBlockHeader) : Validation (Option CBlockIndex) :=
  if net.getHash block = net.hashGenesisBlock then pure none else do
    let pindexPrev ← orThrow (s.findByFakeHash block.hashPrevBlock) (.dos 0 "bad-prevblk")
    ensure (!s.failed pindexPrev.data.hashBlock) (.dos 100 "bad-prevblk")
    pure (some pindexPrev)

def acceptBlockHeader (s : NodeState) (nAdjustedTime : Int) (checkPowVal : Uint32)
    (block : CBlockHeader) : Validation (CBlockIndex × NodeState) :=
  match s.mapBlockIndex (net.getHash block) with
  | some pindex => do
      ensure (!s.failed pindex.data.hashBlock) (.dos 0 "duplicate")
      pure (pindex,s)
  | none => do
      net.checkBlockHeader s.tip nAdjustedTime block true
      let pindexPrev ← net.getPrev s block
      net.contextualCheckBlockHeader s checkPowVal block pindexPrev
      net.addToBlockIndex s block

end Consensus

end Anoncoin
