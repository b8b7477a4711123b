import Anoncoin.BlockIndex

/-!
The retarget controller (pow.cpp): the integrator over the block times, the filter over
the newest blocks, the limits on a change of difficulty, and `UpdateOutput`. Fields and
steps that only serve reports are left out.
-/

set_option autoImplicit false

namespace Anoncoin

/-- A point of the tip filter. -/
structure FilterPoint where
  nBlockTime : Int
  nDiffBits : Uint32
  deriving DecidableEq, Repr

/-- The arithmetic of `double`, and the order in which `std::sort` leaves filter points. -/
structure Platform (D : Type) where
  ofInt : Int → D
  ofLiteral : Rat → D
  add : D → D → D
  sub : D → D → D
  mul : D → D → D
  div : D → D → D
  lt : D → D → Bool
  truncate : D → Int
  sort : List FilterPoint → List FilterPoint

def nTargetSpacing : Int := 180

/-- A cast to `int32_t`. -/
def int32 (x : Int) : Int := Int.bmod x (2^32)

/-- What the constructor sets and no method changes, and the values it starts from. -/
structure PidParams (D : Type) where
  dProportionalGain : D
  nIntegrationTime : Int
  dIntegratorGain : D
  dDerivativeGain : D
  nMaxDiffIncrease : Nat
  nMaxDiffDecrease : Nat
  nTipFilterBlocks : Nat
  fUsesHeader : Bool
  uintPOWlimit : Uint256
  five_le : 5 ≤ nTipFilterBlocks

structure PidController (D : Type) where
  dProportionalGain : D
  nIntegrationTime : Int
  dIntegratorGain : D
  dDerivativeGain : D
  nMaxDiffIncrease : Nat
  nMaxDiffDecrease : Nat
  fTipFilterInitialized : Bool
  nIntegratorHeight : Nat
  nIndexFilterHeight : Nat
  nLastCalculationTime : Int
  dIntegratorBlockTime : D
  dSpacingError : D
  dRateOfChange : D
  vIndexTipFilter : List FilterPoint
  uintPrevDiffCalculated : Uint256
  uintPrevDiffForLimitsLast : Uint256
  uintDiffAtMaxIncreaseTip : Uint256
  uintDiffAtMaxDecreaseLast : Uint256
  uintDiffAtMaxDecreaseTip : Uint256
  uintTargetAfterLimits : Uint256

namespace Platform
variable {D : Type} (F : Platform D)

/-- `roundint64`. -/
def roundint64 (d : D) : Int :=
  F.truncate (if F.lt (F.ofInt 0) d then F.add d (F.ofLiteral (1/2))
    else F.sub d (F.ofLiteral (1/2)))

/-- The loop of `ChargeIntegrator`, from a block on: the time of the last block it visits
and the number of blocks sampled. -/
def sampleBlocks (nOldestBlockTime : Int) : CBlockIndex → Nat → Int × Nat
  | .genesis d, nBlocksSampled => (d.nTime.toNat,nBlocksSampled)
  | .child d p, nBlocksSampled =>
      if nOldestBlockTime < p.getBlockTime then
        sampleBlocks nOldestBlockTime p (nBlocksSampled+1)
      else (d.nTime.toNat,nBlocksSampled)

/-- The bounds against integrator windup. -/
def limitIntegrator (nIntegratorHeight : Nat) (d : D) : D :=
  if F.lt d (F.ofInt 170) && decide (nIntegratorHeight ≤ nDifficultySwitchHeight5) then F.ofInt 170
  else if F.lt d (F.ofInt 176) && decide (nDifficultySwitchHeight5 < nIntegratorHeight) then
    F.ofInt 176
  else if F.lt (F.ofInt 190) d && decide (nIntegratorHeight ≤ nDifficultySwitchHeight5) then
    F.ofInt 190
  else if F.lt (F.ofInt 195) d && decide (nDifficultySwitchHeight5 < nIntegratorHeight) then
    F.ofInt 195
  else d

/-- The block time that `ChargeIntegrator` computes for a block and its parent. -/
def integratorBlockTime (nIntegrationTime : Int) (pIndex pprev : CBlockIndex) : D :=
  if nIntegrationTime = 0 then F.ofInt nTargetSpacing
  else
    let nMostRecentBlockTime : Int := pIndex.getBlockTime
    let (nBlockTime,nBlocksSampled) := sampleBlocks (nMostRecentBlockTime-nIntegrationTime) pprev 2
    F.limitIntegrator pIndex.nHeight
      (F.div (F.ofInt (nMostRecentBlockTime-nBlockTime)) (F.ofInt (nBlocksSampled-1 : Nat)))

end Platform

/-- The newest blocks of the chain, the newest first. -/
def newestPoints : Nat → CBlockIndex → List FilterPoint
  | 0, _ => []
  | _+1, .genesis d => [⟨d.nTime.toNat,d.nBits⟩]
  | n+1, .child d p => ⟨d.nTime.toNat,d.nBits⟩ :: newestPoints n p

/-- The average of the targets, each with its position as weight. The sum of the weights is a
`uint32_t`. -/
def weightedDiff (points : List FilterPoint) : Uint256 :=
  let r := (points.zipIdx 1).foldl (fun (acc : Uint256 × Nat) p =>
    (acc.1+(setCompact p.1.nDiffBits).target*BitVec.ofNat 256 p.2,acc.2+p.2)) (0,0)
  r.1/BitVec.ofNat 256 (r.2%2^32)

/-- `UpdateFilterTimingResults`: the spacing error and the rate of change. -/
def Platform.filterTiming {D : Type} (F : Platform D) (times : List Int) : D × D :=
  let r := ((times.zip times.tail).zipIdx 1).foldl (fun (acc : D × D × Int × Nat) p =>
    let nTimeError := p.1.2-p.1.1-nTargetSpacing
    let dRateOfChange := if 1 < p.2 then
        F.add acc.2.1 (F.ofInt (int32 (nTimeError-acc.2.2.1)*(p.2-1 : Nat)))
      else acc.2.1
    (F.add acc.1 (F.ofInt (int32 nTimeError*p.2)),dRateOfChange,nTimeError,acc.2.2.2+p.2))
    (F.ofInt 0,F.ofInt 0,0,0)
  (F.div r.1 (F.ofInt (r.2.2.2%2^32 : Nat)),
    F.div r.2.1 (F.ofInt (((r.2.2.2 : Int)-times.length+1)%2^32)))

/-- The header time takes its place among the block times. -/
def insertTime (nTipTime : Int) : List Int → List Int
  | [] => [nTipTime]
  | t :: rest => if nTipTime < t then nTipTime :: t :: rest else t :: insertTime nTipTime rest

namespace PidController
variable {D : Type} (F : Platform D) (p : PidParams D)

/-- The constructor. -/
def new : PidController D where
  dProportionalGain := p.dProportionalGain
  nIntegrationTime := p.nIntegrationTime
  dIntegratorGain := p.dIntegratorGain
  dDerivativeGain := p.dDerivativeGain
  nMaxDiffIncrease := p.nMaxDiffIncrease
  nMaxDiffDecrease := p.nMaxDiffDecrease
  fTipFilterInitialized := false
  nIntegratorHeight := 0
  nIndexFilterHeight := 0
  nLastCalculationTime := 0
  dIntegratorBlockTime := F.ofInt 0
  dSpacingError := F.ofInt 0
  dRateOfChange := F.ofInt 0
  vIndexTipFilter := []
  uintPrevDiffCalculated := 0
  uintPrevDiffForLimitsLast := 0
  uintDiffAtMaxIncreaseTip := 0
  uintDiffAtMaxDecreaseLast := 0
  uintDiffAtMaxDecreaseTip := 0
  uintTargetAfterLimits := 0

def isPidUpdateRequired (c : PidController D) (pIndex : CBlockIndex) (nTime : Int) : Bool :=
  c.nIntegratorHeight != pIndex.nHeight || c.nLastCalculationTime != nTime ||
    c.nIndexFilterHeight != pIndex.nHeight

def chargeIntegrator (c : PidController D) (pIndex : CBlockIndex) : Bool × PidController D :=
  match pIndex.pprev with
  | none => (false,c)
  | some pprev =>
      if c.nIntegratorHeight = pIndex.nHeight then (true,c)
      else (true,{ c with
        nIntegratorHeight := pIndex.nHeight
        dIntegratorBlockTime := F.integratorBlockTime c.nIntegrationTime pIndex pprev })

/-- The limits in force at a block: above the fifth switch height they are replaced. -/
def maxDiff (c : PidController D) (pIndex : CBlockIndex) : Nat × Nat :=
  let (nMaxDiffIncrease,nMaxDiffDecrease) := if nDifficultySwitchHeight5 < pIndex.nHeight then
    (150,130) else (c.nMaxDiffIncrease,c.nMaxDiffDecrease)
  (if nMaxDiffIncrease ≤ 101 then 101 else nMaxDiffIncrease,
    if nMaxDiffDecrease ≤ 101 then 101 else nMaxDiffDecrease)

/-- How many of the newest blocks the averages for an increase and a decrease take. -/
def weightedAvgTipBlocks (pIndex : CBlockIndex) : Nat × Nat :=
  if nDifficultySwitchHeight5 < pIndex.nHeight then (9,20) else (4,6)

/-- The part of `UpdateIndexTipFilter` behind the test of the height. -/
def setTipFilter (c : PidController D) (pIndex : CBlockIndex) : PidController D :=
  let vIndexTipFilter := F.sort (newestPoints p.nTipFilterBlocks pIndex)
  let (nWeightedAvgTipBlocksUp,nWeightedAvgTipBlocksDown) := weightedAvgTipBlocks pIndex
  let uintTipDiffCalculatedUp :=
    weightedDiff (vIndexTipFilter.drop (p.nTipFilterBlocks-nWeightedAvgTipBlocksUp))
  let uintTipDiffCalculatedDown :=
    weightedDiff (vIndexTipFilter.drop (p.nTipFilterBlocks-nWeightedAvgTipBlocksDown))
  let uintPrevDiffForLimitsLast := (setCompact pIndex.data.nBits).target
  let (nMaxDiffIncrease,nMaxDiffDecrease) := c.maxDiff pIndex
  let timing := if p.fUsesHeader then (F.ofInt 0,F.ofInt 0)
    else F.filterTiming (vIndexTipFilter.map FilterPoint.nBlockTime)
  { c with
    nMaxDiffIncrease := nMaxDiffIncrease
    nMaxDiffDecrease := nMaxDiffDecrease
    dSpacingError := timing.1
    dRateOfChange := timing.2
    vIndexTipFilter := vIndexTipFilter
    uintPrevDiffCalculated := weightedDiff vIndexTipFilter
    uintPrevDiffForLimitsLast := uintPrevDiffForLimitsLast
    uintDiffAtMaxIncreaseTip := uintTipDiffCalculatedUp*100/BitVec.ofNat 256 nMaxDiffIncrease
    uintDiffAtMaxDecreaseLast := uintPrevDiffForLimitsLast*BitVec.ofNat 256 nMaxDiffDecrease/100
    uintDiffAtMaxDecreaseTip := uintTipDiffCalculatedDown*BitVec.ofNat 256 nMaxDiffDecrease/100
    nIndexFilterHeight := pIndex.nHeight
    fTipFilterInitialized := true }

/-- `UpdateIndexTipFilter`; no result means that an assertion on the filter size fails. -/
def updateIndexTipFilter (c : PidController D) (pIndex : CBlockIndex) :
    Option (Bool × PidController D) :=
  if pIndex.nHeight < p.nTipFilterBlocks then some (false,c)
  else
    let c := { c with nLastCalculationTime := 0 }
    if c.fTipFilterInitialized && c.nIndexFilterHeight == pIndex.nHeight then some (true,c)
    else if p.nTipFilterBlocks < (weightedAvgTipBlocks pIndex).1 ∨
        p.nTipFilterBlocks < (weightedAvgTipBlocks pIndex).2 then none
    else some (true,c.setTipFilter F p pIndex)

def calcBlockTimeErrors (c : PidController D) (nTipTime : Int) : Bool × PidController D :=
  if c.fTipFilterInitialized then
    if p.fUsesHeader then
      let timing := F.filterTiming
        (insertTime nTipTime (c.vIndexTipFilter.map FilterPoint.nBlockTime))
      (true,{ c with dSpacingError := timing.1, dRateOfChange := timing.2 })
    else (true,c)
  else (false,c)

def setBlockTimeError (c : PidController D) (pIndex : CBlockIndex) (nNewBlockTime : Int) :
    Option (Bool × PidController D) := do
  let (fReady,c) ← c.updateIndexTipFilter F p pIndex
  if fReady then
    let (fResult,c) := c.calcBlockTimeErrors F p nNewBlockTime
    some (fResult,{ c with nLastCalculationTime := nNewBlockTime })
  else some (false,c)

/-- `LimitOutputDifficultyChange`; no result means a null pointer. -/
def limitOutputDifficultyChange (c : PidController D) (uintCalculated : Uint256)
    (pIndex : CBlockIndex) : Option Uint256 := do
  let previous ← pIndex.pprev
  let beforePrevious ← previous.pprev
  let nTimeSinceLastBlock : Int := c.nLastCalculationTime-pIndex.getBlockTime
  let nLastBlockSpace : Int := (pIndex.getBlockTime : Int)-previous.getBlockTime
  let nLast2BlockSpace : Int := (pIndex.getBlockTime : Int)-beforePrevious.getBlockTime
  let uintResult :=
    if uintCalculated < c.uintPrevDiffForLimitsLast then
      if uintCalculated < c.uintDiffAtMaxIncreaseTip then
        if 3*nTargetSpacing ≤ nLastBlockSpace then c.uintDiffAtMaxDecreaseLast
        else c.uintDiffAtMaxIncreaseTip
      else if 3*nTargetSpacing ≤ nLastBlockSpace then
        if c.uintDiffAtMaxDecreaseLast < c.uintDiffAtMaxDecreaseTip then c.uintDiffAtMaxDecreaseLast
        else c.uintDiffAtMaxDecreaseTip
      else uintCalculated
    else if c.uintDiffAtMaxDecreaseLast < uintCalculated ∧ nLastBlockSpace < 3*nTargetSpacing ∧
        nLast2BlockSpace < 5*nTargetSpacing then
      if c.uintDiffAtMaxDecreaseTip < c.uintDiffAtMaxDecreaseLast ∧
          nLastBlockSpace < nTargetSpacing then c.uintDiffAtMaxDecreaseTip
      else c.uintDiffAtMaxDecreaseLast
    else if c.uintDiffAtMaxDecreaseTip < uintCalculated ∧ nLastBlockSpace < nTargetSpacing then
      c.uintDiffAtMaxDecreaseTip
    else if 3*nTargetSpacing ≤ nLastBlockSpace ∨ 5*nTargetSpacing ≤ nLast2BlockSpace then
      c.uintDiffAtMaxDecreaseLast
    else uintCalculated
  let uintResult :=
    if uintResult < c.uintDiffAtMaxDecreaseTip ∧ 10*nTargetSpacing ≤ nTimeSinceLastBlock ∧
        nDifficultySwitchHeight5 < beforePrevious.nHeight then c.uintDiffAtMaxDecreaseTip
    else uintResult
  some (if p.uintPOWlimit < uintResult then p.uintPOWlimit else uintResult)

/-- The gains are replaced for good by the first block above the fifth switch height. -/
def switchGains (c : PidController D) (pIndex : CBlockIndex) : PidController D :=
  if nDifficultySwitchHeight5 < pIndex.nHeight then { c with
    dProportionalGain := F.ofLiteral (16/10)
    nIntegrationTime := 129600
    dIntegratorGain := F.ofInt 8
    dDerivativeGain := F.ofInt 3 }
  else c

/-- The sum of the three terms, applied to the previous difficulty. -/
def targetBeforeLimits (c : PidController D) : Uint256 :=
  let dProportionalTerm := F.mul c.dProportionalGain c.dSpacingError
  let dIntegratorTerm := F.add (F.mul (F.sub c.dIntegratorBlockTime (F.ofInt nTargetSpacing))
    c.dIntegratorGain) (F.ofInt nTargetSpacing)
  let dDerivativeTerm := F.mul c.dDerivativeGain c.dRateOfChange
  let nPidOutputTime :=
    F.roundint64 (F.add (F.add dProportionalTerm dIntegratorTerm) dDerivativeTerm)
  let nPidOutputTime := if nPidOutputTime < 1 then 1 else nPidOutputTime
  c.uintPrevDiffCalculated*BitVec.ofNat 256 (nPidOutputTime.toNat%2^32)/
    BitVec.ofNat 256 nTargetSpacing.toNat

/-- `UpdateOutput`, which reads only the time of the header. -/
def updateOutputAt (c : PidController D) (pIndex : CBlockIndex) (nTime : Int) :
    Option (Bool × PidController D) :=
  if c.isPidUpdateRequired pIndex nTime then
    match c.chargeIntegrator F pIndex with
    | (false,c) => some (false,{ c with uintTargetAfterLimits := p.uintPOWlimit })
    | (true,c) => do
        let (fResult,c) ← c.setBlockTimeError F p pIndex nTime
        if fResult then
          let c := c.switchGains F pIndex
          let target ← c.limitOutputDifficultyChange p (c.targetBeforeLimits F) pIndex
          some (true,{ c with uintTargetAfterLimits := target })
        else some (false,{ c with uintTargetAfterLimits := p.uintPOWlimit })
  else some (true,c)

def updateOutput (c : PidController D) (pIndex : CBlockIndex) (pBlockHeader : CBlockHeader) :
    Option (Bool × PidController D) :=
  c.updateOutputAt F p pIndex pBlockHeader.nTime.toNat

end PidController

end Anoncoin
