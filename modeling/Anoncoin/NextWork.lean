import Mathlib.Data.Nat.Prime.Basic
import Anoncoin.Compact
import Anoncoin.PidCache

/-!
`GetNextWorkRequired` (consensus.cpp) with the algorithms it chooses from: the original
retarget, the kimoto gravity well of pow.cpp, the start of the GOST3411 era and the
retarget controller.
-/

set_option autoImplicit false

namespace Anoncoin

def nDifficultySwitchHeight1 : Nat := 15420

def nDifficultySwitchHeight2 : Nat := 77777

def nDifficultySwitchHeight3 : Nat := 87777

inductive Network where
  | main
  | testnet
  | regtest
  deriving DecidableEq, Repr

namespace Network

def isMainNetwork (n : Network) : Bool := n == main

def testNet (n : Network) : Bool := n == testnet

/-- `bnProofOfWorkLimit[ALGO_SCRYPT]` of chainparams.cpp. -/
def powLimitScrypt : Network → Uint256
  | main | testnet => (setCompact 0x1e0ffff0).target
  | regtest => BitVec.allOnes 256 >>> 12

/-- `bnProofOfWorkLimit[ALGO_GOST3411]`, which no network changes. -/
def powLimitGost3411 : Network → Uint256
  | main | testnet | regtest => (setCompact 0x1e0ffff0).target

def switchHeight6 (n : Network) : Nat := nDifficultySwitchHeight6 n.testNet

/-- The limit that `CheckProofOfWork` applies to a header of this height. -/
def proofOfWorkLimit (n : Network) (nHeight : Nat) : Uint256 :=
  if n.switchHeight6 ≤ nHeight then n.powLimitGost3411 else n.powLimitScrypt

/-- The range test of `CheckProofOfWork`. -/
def inRange (n : Network) (nHeight : Nat) (nBits : Uint32) : Bool :=
  let c := setCompact nBits
  !(c.fNegative || c.target == 0 || c.fOverflow || decide (n.proofOfWorkLimit nHeight < c.target))

/-- Every block of the chain passes the range test at its own height. -/
def LegalChain (n : Network) : CBlockIndex → Prop
  | .genesis d => n.inRange 0 d.nBits = true
  | .child d p => n.inRange (p.nHeight+1) d.nBits = true ∧ LegalChain n p

end Network

def nMinBlocksToAvg : Nat := 120

def nMaxBlocksToAvg : Nat := 3360

/-- What the loop of the gravity well keeps. -/
structure KgwSamples where
  uintDifficultyAvg : Uint256
  nActualRateSecs : Nat
  nTargetRateSecs : Nat
  deriving DecidableEq, Repr

/-- The average moves towards the next sample by its share of the difference. -/
def kgwAverage (nBlockMass : Nat) (uintDifficultyAvg uintNextSample : Uint256) : Uint256 :=
  if nBlockMass = 1 then uintNextSample
  else if uintNextSample < uintDifficultyAvg then
    uintDifficultyAvg-(uintDifficultyAvg-uintNextSample)/BitVec.ofNat 256 nBlockMass
  else uintDifficultyAvg+(uintNextSample-uintDifficultyAvg)/BitVec.ofNat 256 nBlockMass

section Kgw
variable {D : Type} (F : Platform D) (kgw_blockmass_curve : Nat → D)

/-- The test on the event horizons that ends the loop early. -/
def kgwLeaves (nBlockMass : Nat) (s : KgwSamples) : Bool :=
  let dRateAdjustmentRatio := if s.nActualRateSecs ≠ 0 then
      F.div (F.ofInt s.nTargetRateSecs) (F.ofInt s.nActualRateSecs)
    else F.ofInt 1
  let dEventHorizonFast := kgw_blockmass_curve (nBlockMass-1)
  let dEventHorizonSlow := F.div (F.ofInt 1) dEventHorizonFast
  decide (nMinBlocksToAvg ≤ nBlockMass) && (!F.lt dEventHorizonSlow dRateAdjustmentRatio ||
    !F.lt dRateAdjustmentRatio dEventHorizonFast)

/-- One pass of the loop, without the test that ends it. -/
def kgwSample (nLastBlockSolvedTime nBlockMass : Nat) (pBlockReading : IndexData)
    (s : KgwSamples) : KgwSamples where
  uintDifficultyAvg :=
    kgwAverage nBlockMass s.uintDifficultyAvg (setCompact pBlockReading.nBits).target
  nActualRateSecs := ((nLastBlockSolvedTime : Int)-pBlockReading.nTime.toNat).natAbs
  nTargetRateSecs := s.nTargetRateSecs+nTargetSpacing.toNat

/-- The loop, which does not visit the genesis block. -/
def kgwLoop (nLastBlockSolvedTime : Nat) : CBlockIndex → Nat → KgwSamples → KgwSamples
  | .genesis _, _, s => s
  | .child d p, nBlockMass, s =>
      if nMaxBlocksToAvg < nBlockMass then s
      else
        let s := kgwSample nLastBlockSolvedTime nBlockMass d s
        if kgwLeaves F kgw_blockmass_curve nBlockMass s then s
        else kgwLoop nLastBlockSolvedTime p (nBlockMass+1) s

def kgwSamples (pindexLast : CBlockIndex) : KgwSamples :=
  if nMinBlocksToAvg ≤ pindexLast.nHeight then
    kgwLoop F kgw_blockmass_curve pindexLast.getBlockTime pindexLast 1 ⟨BitVec.allOnes 256,0,0⟩
  else ⟨BitVec.allOnes 256,0,0⟩

/-- The average, scaled by how far off the time target the samples are. -/
def KgwSamples.uintNewDifficulty (s : KgwSamples) : Uint256 :=
  if s.nActualRateSecs ≠ 0 ∧ s.nTargetRateSecs ≠ 0 then
    s.uintDifficultyAvg*BitVec.ofNat 256 s.nActualRateSecs/BitVec.ofNat 256 s.nTargetRateSecs
  else s.uintDifficultyAvg

def nextWorkRequiredKgwV2 (n : Network) (pindexLast : CBlockIndex) : Uint256 :=
  let uintNewDifficulty := (kgwSamples F kgw_blockmass_curve pindexLast).uintNewDifficulty
  if n.powLimitScrypt < uintNewDifficulty then n.powLimitScrypt else uintNewDifficulty

end Kgw

/-- The block that many steps back along `pprev`; no result is a null pointer. -/
def CBlockIndex.goBack : Nat → CBlockIndex → Option CBlockIndex
  | 0, i => some i
  | n+1, i => i.pprev.bind (goBack n)


def newDifficultyProtocol (nHeight : Nat) : Bool :=
  decide (nDifficultySwitchHeight1 ≤ nHeight) && decide (nHeight < nDifficultySwitchHeight2)

def newDifficultyProtocol2 (nHeight : Nat) : Bool := decide (nDifficultySwitchHeight2 ≤ nHeight)

def legacyTargetTimespan : Nat := 86184

def targetTimespanCurrent (nHeight : Nat) : Nat :=
  if newDifficultyProtocol2 nHeight then 2050
  else if newDifficultyProtocol nHeight then legacyTargetTimespan*4
  else legacyTargetTimespan

def legacyInterval (nHeight : Nat) : Nat := targetTimespanCurrent nHeight/205

/-- Only once per interval, or at a protocol switch height. -/
def changesDifficulty (nHeight : Nat) : Bool :=
  nHeight%legacyInterval nHeight == 0 || newDifficultyProtocol2 nHeight ||
    nHeight == nDifficultySwitchHeight1

def blocksToGoBack (nHeight : Nat) : Nat :=
  if newDifficultyProtocol2 nHeight then 2050/205
  else if nHeight ≠ legacyInterval nHeight then legacyInterval nHeight
  else legacyInterval nHeight-1

/-- The limits on the time that the last interval took. -/
def averagedTimespans (nHeight : Nat) : Nat × Nat :=
  let nTargetTimespanCurrent := targetTimespanCurrent nHeight
  let nAveragedTimespanMax := if newDifficultyProtocol nHeight then nTargetTimespanCurrent*4
    else nTargetTimespanCurrent*99/70
  let nAveragedTimespanMin := if newDifficultyProtocol nHeight then nTargetTimespanCurrent/4
    else nTargetTimespanCurrent*70/99
  if nDifficultySwitchHeight2 ≤ nHeight then (nAveragedTimespanMin,nAveragedTimespanMax)
  else if nDifficultySwitchHeight1 < nHeight then (nAveragedTimespanMin/4,nAveragedTimespanMax)
  else (nAveragedTimespanMin,nAveragedTimespanMax)

def limitSetpoint (nHeight : Nat) (nNewSetpoint : Int) : Int :=
  let (lower,upper) := averagedTimespans nHeight
  let nNewSetpoint := if nNewSetpoint < lower then (lower : Int) else nNewSetpoint
  if (upper : Int) < nNewSetpoint then upper else nNewSetpoint

/-- What the retarget divides by. -/
def retargetDivisor (nHeight : Nat) : Nat :=
  if newDifficultyProtocol2 nHeight then targetTimespanCurrent nHeight else legacyTargetTimespan

/-- `OriginalGetNextWorkRequired`; no result means that its assertion fails. -/
def originalGetNextWorkRequired (n : Network) (pindexLast : CBlockIndex) : Option Uint256 :=
  let nHeight := pindexLast.nHeight+1
  if !changesDifficulty nHeight then some (setCompact pindexLast.data.nBits).target
  else do
    let pindexFirst ← pindexLast.goBack (blocksToGoBack nHeight)
    let nNewSetpoint := limitSetpoint nHeight
      ((pindexLast.getBlockTime : Int)-pindexFirst.getBlockTime)
    let bnNew := (setCompact pindexLast.data.nBits).target*
      BitVec.ofNat 256 (nNewSetpoint.toNat%2^32)/BitVec.ofNat 256 (retargetDivisor nHeight)
    some (if n.powLimitScrypt < bnNew then n.powLimitScrypt else bnNew)

section Strategies
variable {D : Type} (F : Platform D) (kgw_blockmass_curve : Nat → D) (n : Network)

def getMainnetStrategy (pindexLast : CBlockIndex) (uintResult : Uint256) : Option Uint256 :=
  if nDifficultySwitchHeight3 < pindexLast.nHeight then
    if pindexLast.nHeight ≤ nDifficultySwitchHeight4 then
      some (nextWorkRequiredKgwV2 F kgw_blockmass_curve n pindexLast)
    else if pindexLast.nHeight+1 = n.switchHeight6 then some (setCompact 0x1e0ffff0).target
    else if n.switchHeight6 < pindexLast.nHeight+1 then
      some (nextWorkRequiredKgwV2 F kgw_blockmass_curve n pindexLast)
    else some uintResult
  else originalGetNextWorkRequired n pindexLast

def getTestnetStrategy (pindexLast : CBlockIndex) (uintResult : Uint256) : Uint256 :=
  if pindexLast.nHeight+1 = n.switchHeight6 then (setCompact 0x1e0ffff0).target
  else if n.switchHeight6 < pindexLast.nHeight+1 then
    nextWorkRequiredKgwV2 F kgw_blockmass_curve n pindexLast
  else uintResult

variable (p : PidParams D)

/-- The output of the controller, which is asked below the sixth switch height only; where
there is no controller, the minimum difficulty. -/
def retargetOutput (pRetargetPid : Option (PidController D)) (pindexLast : CBlockIndex)
    (pBlockHeader : CBlockHeader) : Option (Uint256 × Option (PidController D)) :=
  match pRetargetPid with
  | some c =>
      if pindexLast.nHeight < n.switchHeight6 then
        (c.updateOutput F p pindexLast pBlockHeader).map fun r =>
          (r.2.uintTargetAfterLimits,some r.2)
      else some (0,some c)
  | none => some (n.powLimitScrypt,none)

def strategy (pindexLast : CBlockIndex) (uintResult : Uint256) : Option Uint256 :=
  if n.isMainNetwork then getMainnetStrategy F kgw_blockmass_curve n pindexLast uintResult
  else some (getTestnetStrategy F kgw_blockmass_curve n pindexLast uintResult)

def getNextWorkRequired (pRetargetPid : Option (PidController D)) (pindexLast : CBlockIndex)
    (pBlockHeader : CBlockHeader) : Option (Uint32 × Option (PidController D)) := do
  let (uintResult,pRetargetPid) ← retargetOutput F n p pRetargetPid pindexLast pBlockHeader
  let uintResult ← strategy F kgw_blockmass_curve n pindexLast uintResult
  some (getCompact uintResult,pRetargetPid)

end Strategies

/-- The number that the limit of the GOST3411 era rounds at: its mantissa is one higher. -/
def gostBound : Nat := 0x0ffff1*2^216

theorem compacted_le_gost (n : Network) (x : Uint256) :
    compacted x ≤ n.powLimitGost3411 ↔ x.toNat < gostBound := by
  obtain ⟨m,e,hr,heq,-,-⟩ := rounded_getCompact x
  have hlimit : n.powLimitGost3411.toNat = 0x0ffff0*2^(8*(26+1)) := by
    cases n <;> decide +kernel
  rw [BitVec.le_def,heq,hlimit]
  exact hr.expand_le_iff (by decide) (by decide)

inductive Algorithm where
  | original
  | kgw
  | start
  | output
  deriving DecidableEq, Repr

namespace Network

theorem inRange_iff {n : Network} {nHeight : Nat} {nBits : Uint32} :
    n.inRange nHeight nBits = true ↔ (setCompact nBits).fNegative = false ∧
      (setCompact nBits).target ≠ 0 ∧ (setCompact nBits).fOverflow = false ∧
      (setCompact nBits).target ≤ n.proofOfWorkLimit nHeight := by
  unfold inRange
  simp only [Bool.not_eq_true',Bool.or_eq_false_iff,beq_eq_false_iff_ne,decide_eq_false_iff_not,
    BitVec.not_lt]
  constructor
  · rintro ⟨⟨⟨h₁,h₂⟩,h₃⟩,h₄⟩
    exact ⟨h₁,h₂,h₃,h₄⟩
  · rintro ⟨h₁,h₂,h₃,h₄⟩
    exact ⟨⟨⟨h₁,h₂⟩,h₃⟩,h₄⟩

/-- What a required difficulty has to satisfy before it is brought to its compact form. -/
theorem inRange_getCompact {n : Network} {nHeight : Nat} {x : Uint256} :
    n.inRange nHeight (getCompact x) = true ↔
      x ≠ 0 ∧ compacted x ≤ n.proofOfWorkLimit nHeight := by
  rw [inRange_iff]
  constructor
  · rintro ⟨-,hne,-,hle⟩
    exact ⟨fun h => hne ((compacted_eq_zero x).mpr h),hle⟩
  · rintro ⟨hne,hle⟩
    exact ⟨getCompact_nonnegative x,fun h => hne ((compacted_eq_zero x).mp h),getCompact_fits x,hle⟩

theorem powLimitScrypt_ne_zero (n : Network) : n.powLimitScrypt ≠ 0 := by
  cases n <;> decide +kernel

/-- Only the regression test network has two different limits. -/
theorem proofOfWorkLimit_eq {n : Network} {nHeight : Nat}
    (h : n ≠ regtest ∨ nHeight < n.switchHeight6) :
    n.proofOfWorkLimit nHeight = n.powLimitScrypt := by
  unfold proofOfWorkLimit
  split
  · cases n with
    | main => rfl
    | testnet => rfl
    | regtest =>
      rcases h with h | h
      · exact absurd rfl h
      · omega
  · rfl

theorem proofOfWorkLimit_regtest {nHeight : Nat} (h : regtest.switchHeight6 ≤ nHeight) :
    regtest.proofOfWorkLimit nHeight = regtest.powLimitGost3411 := if_pos h

theorem gost_le_limit (n : Network) (nHeight : Nat) :
    n.powLimitGost3411 ≤ n.proofOfWorkLimit nHeight := by
  unfold proofOfWorkLimit
  split
  · exact Nat.le_refl _
  · cases n <;> decide +kernel

theorem LegalChain.last {n : Network} {i : CBlockIndex} (h : n.LegalChain i) :
    n.inRange i.nHeight i.data.nBits = true := by
  cases i with
  | genesis d => exact h
  | child d p => exact h.1

/-- Which algorithm `GetNextWorkRequired` takes, by the height of the last block. -/
def algorithm (n : Network) (nHeight : Nat) : Algorithm :=
  if n.isMainNetwork then
    if nDifficultySwitchHeight3 < nHeight then
      if nHeight ≤ nDifficultySwitchHeight4 then .kgw
      else if nHeight+1 = n.switchHeight6 then .start
      else if n.switchHeight6 < nHeight+1 then .kgw
      else .output
    else .original
  else if nHeight+1 = n.switchHeight6 then .start
  else if n.switchHeight6 < nHeight+1 then .kgw
  else .output

theorem algorithm_original {n : Network} {nHeight : Nat} (h : n.algorithm nHeight = .original) :
    n = main ∧ nHeight ≤ nDifficultySwitchHeight3 := by
  unfold algorithm at h
  split_ifs at h with hmain h3
  exact ⟨eq_of_beq hmain,by omega⟩

theorem algorithm_output {n : Network} {nHeight : Nat} (h : n.algorithm nHeight = .output) :
    nHeight+1 < n.switchHeight6 := by
  unfold algorithm at h
  split_ifs at h <;> omega

theorem algorithm_kgw_regtest {nHeight : Nat} (h : regtest.algorithm nHeight = .kgw) :
    regtest.switchHeight6 < nHeight+1 := by
  unfold algorithm at h
  split_ifs at h with hmain
  · exact absurd hmain (by decide)
  · exact absurd hmain (by decide)
  · assumption

end Network

section Strategies
variable {D : Type} {F : Platform D} {kgw_blockmass_curve : Nat → D} {n : Network}

theorem strategy_eq (pindexLast : CBlockIndex) (x : Uint256) :
    strategy F kgw_blockmass_curve n pindexLast x = match n.algorithm pindexLast.nHeight with
      | .original => originalGetNextWorkRequired n pindexLast
      | .kgw => some (nextWorkRequiredKgwV2 F kgw_blockmass_curve n pindexLast)
      | .start => some (setCompact 0x1e0ffff0).target
      | .output => some x := by
  unfold strategy getMainnetStrategy getTestnetStrategy Network.algorithm
  split_ifs <;> rfl

end Strategies

theorem udiv_ne_zero_iff {x : Uint256} {d : Nat} (hd : 0 < d) (hd' : d < 2^256) :
    x/BitVec.ofNat 256 d ≠ 0 ↔ d ≤ x.toNat := by
  have hnat : (x/BitVec.ofNat 256 d).toNat = x.toNat/d := by
    rw [BitVec.toNat_udiv,BitVec.toNat_ofNat,Nat.mod_eq_of_lt hd']
  constructor
  · intro hne
    refine Nat.le_of_not_lt fun hlt => hne (BitVec.eq_of_toNat_eq ?_)
    rw [hnat,Nat.div_eq_of_lt hlt]
    rfl
  · intro hle hzero
    rw [hzero] at hnat
    have hdiv := Nat.div_pos hle hd
    rw [← hnat] at hdiv
    exact absurd hdiv (by decide)

section Kgw
variable {D : Type} {F : Platform D} {kgw_blockmass_curve : Nat → D} {n : Network}

theorem kgwAverage_ne_zero {nBlockMass : Nat} {avg sample : Uint256} (hsample : sample ≠ 0)
    (havg : nBlockMass = 1 ∨ avg ≠ 0) : kgwAverage nBlockMass avg sample ≠ 0 := by
  have hs : 0 < sample.toNat := by
    refine Nat.pos_of_ne_zero fun h => hsample (BitVec.eq_of_toNat_eq h)
  unfold kgwAverage
  split
  · exact hsample
  · rename_i hmass
    have ha : 0 < avg.toNat := by
      refine Nat.pos_of_ne_zero fun h => (havg.resolve_left hmass) (BitVec.eq_of_toNat_eq h)
    split
    · rename_i hlt
      intro hzero
      have hlt' : sample.toNat < avg.toNat := hlt
      have hsub : (avg-sample).toNat = avg.toNat-sample.toNat := BitVec.toNat_sub_of_le hlt'.le
      have hdiv : ((avg-sample)/BitVec.ofNat 256 nBlockMass).toNat ≤ (avg-sample).toNat :=
        Nat.div_le_self _ _
      have hres : (avg-(avg-sample)/BitVec.ofNat 256 nBlockMass).toNat =
          avg.toNat-((avg-sample)/BitVec.ofNat 256 nBlockMass).toNat :=
        BitVec.toNat_sub_of_le (BitVec.le_def.mpr (by omega))
      rw [hzero] at hres
      have : (0 : Uint256).toNat = 0 := rfl
      omega
    · rename_i hge
      intro hzero
      have hge' : avg.toNat ≤ sample.toNat := Nat.le_of_not_lt hge
      have hsub : (sample-avg).toNat = sample.toNat-avg.toNat := BitVec.toNat_sub_of_le hge'
      have hdiv : ((sample-avg)/BitVec.ofNat 256 nBlockMass).toNat ≤ (sample-avg).toNat :=
        Nat.div_le_self _ _
      have hlt := sample.isLt
      have hres : (avg+(sample-avg)/BitVec.ofNat 256 nBlockMass).toNat =
          avg.toNat+((sample-avg)/BitVec.ofNat 256 nBlockMass).toNat :=
        BitVec.toNat_add_of_lt (by omega)
      rw [hzero] at hres
      have : (0 : Uint256).toNat = 0 := rfl
      omega

/-- What the loop leaves when it has taken at least one sample. -/
structure KgwSamples.Taken (s : KgwSamples) : Prop where
  average : s.uintDifficultyAvg ≠ 0
  actual : s.nActualRateSecs < 2^32
  target : 0 < s.nTargetRateSecs
  week : s.nTargetRateSecs ≤ 180*nMaxBlocksToAvg

theorem kgwSample_taken {last nBlockMass : Nat} {d : IndexData} {s : KgwSamples}
    (hlast : last < 2^32) (hmass : nBlockMass ≤ nMaxBlocksToAvg) (hpos : 0 < nBlockMass)
    (hbits : (setCompact d.nBits).target ≠ 0)
    (havg : nBlockMass = 1 ∨ s.uintDifficultyAvg ≠ 0)
    (htarget : s.nTargetRateSecs = 180*(nBlockMass-1)) :
    (kgwSample last nBlockMass d s).Taken ∧
      (kgwSample last nBlockMass d s).nTargetRateSecs = 180*nBlockMass := by
  have htime := d.nTime.isLt
  have hrate : (kgwSample last nBlockMass d s).nTargetRateSecs = 180*nBlockMass := by
    show s.nTargetRateSecs+180 = 180*nBlockMass
    omega
  refine ⟨⟨kgwAverage_ne_zero hbits havg,?_,by omega,by omega⟩,hrate⟩
  show ((last : Int)-d.nTime.toNat).natAbs < 2^32
  omega

theorem kgwLoop_taken {last nBlockMass : Nat} {i : CBlockIndex} {s : KgwSamples}
    (hlast : last < 2^32) (hchain : n.LegalChain i) (hpos : 0 < nBlockMass)
    (hstart : (nBlockMass = 1 ∧ 0 < i.nHeight) ∨ s.Taken)
    (htarget : s.nTargetRateSecs = 180*(nBlockMass-1)) :
    (kgwLoop F kgw_blockmass_curve last i nBlockMass s).Taken := by
  induction i generalizing nBlockMass s with
  | genesis d =>
    rcases hstart with ⟨-,h⟩ | h
    · exact absurd h (Nat.lt_irrefl 0)
    · exact h
  | child d p ih =>
    unfold kgwLoop
    split
    · rename_i hmass
      rcases hstart with ⟨rfl,-⟩ | h
      · exact absurd hmass (by decide)
      · exact h
    · rename_i hmass
      have hbits : (setCompact d.nBits).target ≠ 0 := (Network.inRange_iff.mp hchain.1).2.1
      have havg : nBlockMass = 1 ∨ s.uintDifficultyAvg ≠ 0 := by
        rcases hstart with ⟨h,-⟩ | h
        · exact .inl h
        · exact .inr h.average
      obtain ⟨htaken,hrate⟩ := kgwSample_taken hlast (Nat.le_of_not_lt hmass) hpos hbits havg htarget
      simp only
      split
      · exact htaken
      · exact ih hchain.2 (Nat.succ_pos _) (.inr htaken) hrate

theorem kgwSamples_taken {i : CBlockIndex} (hchain : n.LegalChain i)
    (hheight : nMinBlocksToAvg ≤ i.nHeight) : (kgwSamples F kgw_blockmass_curve i).Taken := by
  unfold kgwSamples
  rw [if_pos hheight]
  have hpos : 0 < i.nHeight := Nat.lt_of_lt_of_le (by decide) hheight
  exact kgwLoop_taken i.data.nTime.isLt hchain (by decide) (.inl ⟨rfl,hpos⟩) rfl

/-- Where the gravity well gives zero: the product of the average and the seconds the
samples took, cut off at 256 bits, is below the seconds they should have taken. -/
def KgwSamples.Positive (s : KgwSamples) : Prop :=
  s.nActualRateSecs = 0 ∨ s.nTargetRateSecs ≤ s.uintDifficultyAvg.toNat*s.nActualRateSecs%2^256

theorem KgwSamples.Taken.ne_zero_iff {s : KgwSamples} (h : s.Taken) :
    s.uintNewDifficulty ≠ 0 ↔ s.Positive := by
  unfold uintNewDifficulty Positive
  by_cases hactual : s.nActualRateSecs = 0
  · rw [if_neg (by omega)]
    exact ⟨fun _ => .inl hactual,fun _ => h.average⟩
  · have htarget := h.target
    have hweek := h.week
    have hact := h.actual
    have hmax : 180*nMaxBlocksToAvg < 2^256 := by decide
    rw [if_pos ⟨hactual,by omega⟩,udiv_ne_zero_iff htarget (by omega),BitVec.toNat_mul,
      BitVec.toNat_ofNat,Nat.mod_eq_of_lt (show s.nActualRateSecs < 2^256 by omega)]
    exact ⟨.inr,fun hle => hle.resolve_left hactual⟩

end Kgw

section Original
variable {n : Network}

theorem CBlockIndex.goBack_isSome {k : Nat} {i : CBlockIndex} (h : k ≤ i.nHeight) :
    ∃ j, i.goBack k = some j := by
  induction k generalizing i with
  | zero => exact ⟨i,rfl⟩
  | succ k ih =>
    cases i with
    | genesis d => exact absurd h (Nat.not_succ_le_zero k)
    | child d p => exact ih (i := p) (Nat.le_of_succ_le_succ h)

/-- The first interval goes back to the genesis block, and no interval goes further. -/
theorem blocksToGoBack_le {h : Nat} (hchanges : changesDifficulty (h+1) = true) :
    blocksToGoBack (h+1) ≤ h := by
  unfold changesDifficulty at hchanges
  unfold blocksToGoBack
  unfold legacyInterval targetTimespanCurrent newDifficultyProtocol newDifficultyProtocol2
    legacyTargetTimespan nDifficultySwitchHeight1 nDifficultySwitchHeight2 at *
  simp only [Bool.or_eq_true,beq_iff_eq,decide_eq_true_eq,Bool.and_eq_true] at *
  split_ifs at * <;> omega

theorem limitSetpoint_bounds (nHeight : Nat) (t : Int) :
    1 ≤ limitSetpoint nHeight t ∧ limitSetpoint nHeight t ≤ 1378944 := by
  have hspans : 1 ≤ (averagedTimespans nHeight).1 ∧
      (averagedTimespans nHeight).1 ≤ (averagedTimespans nHeight).2 ∧
      (averagedTimespans nHeight).2 ≤ 1378944 := by
    unfold averagedTimespans targetTimespanCurrent newDifficultyProtocol newDifficultyProtocol2
      legacyTargetTimespan nDifficultySwitchHeight1 nDifficultySwitchHeight2
    simp only [decide_eq_true_eq,Bool.and_eq_true]
    split_ifs <;> simp only <;> omega
  unfold limitSetpoint
  simp only
  split_ifs <;> omega

theorem retargetDivisor_bounds (nHeight : Nat) :
    0 < retargetDivisor nHeight ∧ retargetDivisor nHeight < 2^20 := by
  unfold retargetDivisor targetTimespanCurrent legacyTargetTimespan
  split_ifs <;> omega

/-- A large target is a mantissa moved up. -/
theorem dvd_target {nBits : Uint32} (h : 2^235 ≤ (setCompact nBits).target.toNat) :
    2^212 ∣ (setCompact nBits).target.toNat := by
  unfold setCompact at *
  simp only at *
  have hword : (nBits &&& 0x007fffff).toNat < 2^23 := by
    rw [BitVec.toNat_and]
    exact Nat.lt_of_le_of_lt Nat.and_le_right (by decide)
  generalize (nBits >>> 24).toNat = e at *
  generalize nBits &&& 0x007fffff = w at *
  split_ifs at * with he
  · exfalso
    rw [BitVec.toNat_setWidth,BitVec.toNat_ushiftRight] at h
    have hle := Nat.shiftRight_le w.toNat (8*(3-e))
    have hmod := Nat.mod_le (w.toNat >>> (8*(3-e))) (2^256)
    omega
  · rw [BitVec.toNat_shiftLeft,BitVec.toNat_setWidth,
      Nat.mod_eq_of_lt (show w.toNat < 2^256 by omega),Nat.shiftLeft_eq] at *
    by_cases hk : 212 ≤ 8*(e-3)
    · have hdvd : 2^212 ∣ w.toNat*2^(8*(e-3)) :=
        Nat.dvd_mul_left_of_dvd (Nat.pow_dvd_pow 2 hk) w.toNat
      exact (Nat.dvd_mod_iff (Nat.pow_dvd_pow 2 (by decide))).mpr hdvd
    · exfalso
      have hpow : 2^(8*(e-3)) ≤ 2^212 := Nat.pow_le_pow_right (by decide) (by omega)
      have hmul : w.toNat*2^(8*(e-3)) < 2^23*2^212 :=
        Nat.lt_of_le_of_lt (Nat.mul_le_mul_left _ hpow)
          (Nat.mul_lt_mul_of_pos_right hword (by decide))
      have hmod := Nat.mod_le (w.toNat*2^(8*(e-3))) (2^256)
      omega

/-- Where the product of a target and a timespan is cut off at 256 bits, much is left. -/
theorem le_product_mod {t s : Nat} (ht : t < 2^236) (hs : s ≤ 1378944)
    (hdvd : 2^235 ≤ t → 2^212 ∣ t) (hover : 2^256 ≤ t*s) : 2^212 ≤ t*s%2^256 := by
  have hlarge : 2^235 ≤ t := by
    by_contra hlt
    have : t*s < 2^235*2^21 := Nat.mul_lt_mul'' (by omega) (by omega)
    omega
  have hsmall : t*s < 2^236*2^21 := Nat.mul_lt_mul'' ht (by omega)
  have hmod : t*s%2^256 = t*s-2^256 := by omega
  have hdvd' : 2^212 ∣ t*s-2^256 :=
    Nat.dvd_sub (Dvd.dvd.mul_right (hdvd hlarge) s) (Nat.pow_dvd_pow 2 (by decide))
  have hpos : 0 < t*s-2^256 := by
    by_contra hzero
    have heq : t*s = 2^256 := by omega
    obtain ⟨a,-,ha⟩ := (Nat.dvd_prime_pow Nat.prime_two).mp (Dvd.intro_left t heq)
    have ha21 : a < 21 := by
      by_contra hge
      have : 2^21 ≤ 2^a := Nat.pow_le_pow_right (by decide) (by omega)
      omega
    have hle : s ≤ 2^20 := by
      rw [ha]
      exact Nat.pow_le_pow_right (by decide) (by omega)
    have : t*s < 2^236*2^20 := by
      calc t*s ≤ t*2^20 := Nat.mul_le_mul_left t hle
        _ < 2^236*2^20 := Nat.mul_lt_mul_of_pos_right ht (by decide)
    omega
  rw [hmod]
  exact Nat.le_of_dvd hpos hdvd'

theorem retarget_ne_zero_iff {nBits : Uint32} {s d : Nat}
    (ht : (setCompact nBits).target.toNat < 2^236) (hs : s ≤ 1378944) (hd : 0 < d) (hd' : d < 2^20) :
    (setCompact nBits).target*BitVec.ofNat 256 s/BitVec.ofNat 256 d ≠ 0 ↔
      d ≤ (setCompact nBits).target.toNat*s := by
  have hcut : d ≤ (setCompact nBits).target.toNat*s%2^256 ↔ d ≤ (setCompact nBits).target.toNat*s := by
    by_cases hover : 2^256 ≤ (setCompact nBits).target.toNat*s
    · have := le_product_mod ht hs dvd_target hover
      omega
    · rw [Nat.mod_eq_of_lt (by omega)]
  rw [← hcut,udiv_ne_zero_iff hd (by omega),BitVec.toNat_mul,BitVec.toNat_ofNat,
    Nat.mod_eq_of_lt (show s < 2^256 by omega)]

end Original

theorem capped_le (limit x : Uint256) : (if limit < x then limit else x) ≤ limit := by
  split
  · exact Nat.le_refl _
  · rename_i hlt
    exact BitVec.not_lt.mp hlt

namespace PidController
variable {D : Type} {F : Platform D} {p : PidParams D} {c c' : PidController D} {b : CBlockIndex}

theorem limitOutputDifficultyChange_le {x r : Uint256}
    (h : c.limitOutputDifficultyChange p x b = some r) : r ≤ p.uintPOWlimit := by
  obtain ⟨previous,-,h⟩ := Option.bind_eq_some_iff.mp h
  obtain ⟨beforePrevious,-,h⟩ := Option.bind_eq_some_iff.mp h
  rw [← Option.some.inj h]
  exact capped_le _ _

theorem chargeIntegrator_target (c : PidController D) (b : CBlockIndex) :
    (c.chargeIntegrator F b).2.uintTargetAfterLimits = c.uintTargetAfterLimits := by
  unfold chargeIntegrator
  split
  · rfl
  · split <;> rfl

theorem updateIndexTipFilter_target {r : Bool} (h : c.updateIndexTipFilter F p b = some (r,c')) :
    c'.uintTargetAfterLimits = c.uintTargetAfterLimits := by
  unfold updateIndexTipFilter at h
  simp only at h
  split_ifs at h
  · obtain ⟨-,rfl⟩ := Prod.mk.inj (Option.some.inj h)
    rfl
  · obtain ⟨-,rfl⟩ := Prod.mk.inj (Option.some.inj h)
    rfl
  · obtain ⟨-,rfl⟩ := Prod.mk.inj (Option.some.inj h)
    rfl

/-- The output is limited: it is set to the limit, limited by it, or kept. -/
theorem updateOutputAt_le {nTime : Int} {r : Bool} (hc : c.uintTargetAfterLimits ≤ p.uintPOWlimit)
    (h : c.updateOutputAt F p b nTime = some (r,c')) :
    c'.uintTargetAfterLimits ≤ p.uintPOWlimit := by
  unfold updateOutputAt at h
  split_ifs at h
  · split at h
    · obtain ⟨-,rfl⟩ := Prod.mk.inj (Option.some.inj h)
      exact Nat.le_refl _
    · obtain ⟨⟨fResult,c₁⟩,-,h⟩ := Option.bind_eq_some_iff.mp h
      simp only at h
      split_ifs at h
      · obtain ⟨target,htarget,h⟩ := Option.bind_eq_some_iff.mp h
        obtain ⟨-,rfl⟩ := Prod.mk.inj (Option.some.inj h)
        exact limitOutputDifficultyChange_le htarget
      · obtain ⟨-,rfl⟩ := Prod.mk.inj (Option.some.inj h)
        exact Nat.le_refl _
  · obtain ⟨-,rfl⟩ := Prod.mk.inj (Option.some.inj h)
    exact hc

theorem apply_le {call : PidCall} (hc : c.uintTargetAfterLimits ≤ p.uintPOWlimit)
    (h : call.apply F p c = some c') : c'.uintTargetAfterLimits ≤ p.uintPOWlimit := by
  cases call with
  | chargeIntegrator b =>
    rw [← Option.some.inj h,chargeIntegrator_target]
    exact hc
  | updateIndexTipFilter b =>
    obtain ⟨⟨r,c''⟩,hrun,rfl⟩ := Option.map_eq_some_iff.mp h
    rw [updateIndexTipFilter_target hrun]
    exact hc
  | updateOutput b header =>
    obtain ⟨⟨r,c''⟩,hrun,rfl⟩ := Option.map_eq_some_iff.mp h
    exact updateOutputAt_le hc hrun

theorem pidRun_le {calls : List PidCall} (hc : c.uintTargetAfterLimits ≤ p.uintPOWlimit)
    (h : pidRun F p c calls = some c') : c'.uintTargetAfterLimits ≤ p.uintPOWlimit := by
  induction calls generalizing c with
  | nil =>
    rw [← Option.some.inj h]
    exact hc
  | cons call calls ih =>
    obtain ⟨c₁,hcall,hrest⟩ := Option.bind_eq_some_iff.mp h
    exact ih (apply_le hc hcall) hrest

end PidController

/-- The node asks the controller that it set up for its network, in whatever state the
calls so far left it, or has none yet. -/
def Installed {D : Type} (F : Platform D) (p : PidParams D) (n : Network)
    (pRetargetPid : Option (PidController D)) : Prop :=
  p.uintPOWlimit = n.powLimitScrypt ∧ ∀ c, pRetargetPid = some c →
    ∃ calls, pidRun F p (PidController.new F p) calls = some c

section NextWork
variable {D : Type} (F : Platform D) (kgw_blockmass_curve : Nat → D) (n : Network)
  (p : PidParams D) (pRetargetPid : Option (PidController D)) (pindexLast : CBlockIndex)
  (pBlockHeader : CBlockHeader)

/-- When the required difficulty is legal. The controller has to give an output, which is
not zero where it is the result; the original retarget and the gravity well must not divide
the difficulty away; and the gravity well of the regression test network, which stops at
the limit for Scrypt, must stay below the limit for GOST3411. -/
structure Workable : Prop where
  output : ∀ c, pRetargetPid = some c → pindexLast.nHeight < n.switchHeight6 →
    ∃ r c', c.updateOutput F p pindexLast pBlockHeader = some (r,c') ∧
      (n.algorithm pindexLast.nHeight = .output → c'.uintTargetAfterLimits ≠ 0)
  original : n.algorithm pindexLast.nHeight = .original →
    changesDifficulty (pindexLast.nHeight+1) = true →
    ∀ pindexFirst, pindexLast.goBack (blocksToGoBack (pindexLast.nHeight+1)) = some pindexFirst →
      retargetDivisor (pindexLast.nHeight+1) ≤ (setCompact pindexLast.data.nBits).target.toNat*
        (limitSetpoint (pindexLast.nHeight+1)
          ((pindexLast.getBlockTime : Int)-pindexFirst.getBlockTime)).toNat
  kgw : n.algorithm pindexLast.nHeight = .kgw → nMinBlocksToAvg ≤ pindexLast.nHeight →
    (kgwSamples F kgw_blockmass_curve pindexLast).Positive
  gost : n.algorithm pindexLast.nHeight = .kgw → n = .regtest →
    (kgwSamples F kgw_blockmass_curve pindexLast).uintNewDifficulty.toNat < gostBound

variable {F kgw_blockmass_curve n p pRetargetPid pindexLast pBlockHeader}

/-- What the chosen algorithm gives is legal. -/
def LegalResult (n : Network) (pindexLast : CBlockIndex) (x : Option Uint256) : Prop :=
  ∃ r, x = some r ∧ n.inRange (pindexLast.nHeight+1) (getCompact r) = true

theorem legalResult_some {x : Uint256} : LegalResult n pindexLast (some x) ↔
    x ≠ 0 ∧ compacted x ≤ n.proofOfWorkLimit (pindexLast.nHeight+1) := by
  rw [← Network.inRange_getCompact]
  constructor
  · rintro ⟨r,hr,h⟩
    rw [Option.some.inj hr]
    exact h
  · exact fun h => ⟨x,rfl,h⟩

theorem legalResult_min {x : Uint256} (hlimit :
      n.proofOfWorkLimit (pindexLast.nHeight+1) = n.powLimitScrypt) :
    LegalResult n pindexLast (some (if n.powLimitScrypt < x then n.powLimitScrypt else x)) ↔
      x ≠ 0 := by
  rw [legalResult_some,hlimit]
  split
  · rename_i hlt
    refine ⟨fun _ hzero => ?_,fun _ => ⟨n.powLimitScrypt_ne_zero,compacted_le _⟩⟩
    rw [hzero] at hlt
    exact absurd hlt (Nat.not_lt_zero _)
  · rename_i hle
    exact ⟨fun h => h.1,fun h => ⟨h,Nat.le_trans (compacted_le x) (BitVec.not_lt.mp hle)⟩⟩

/-- Above the sixth switch height of the regression test network, the limit for Scrypt does
not keep a difficulty legal. -/
theorem legalResult_regtest {x : Uint256}
    (hheight : Network.regtest.switchHeight6 ≤ pindexLast.nHeight+1) :
    LegalResult .regtest pindexLast
        (some (if Network.regtest.powLimitScrypt < x then Network.regtest.powLimitScrypt else x)) ↔
      x ≠ 0 ∧ x.toNat < gostBound := by
  have hscrypt : gostBound ≤ Network.regtest.powLimitScrypt.toNat := by decide +kernel
  rw [legalResult_some,Network.proofOfWorkLimit_regtest hheight,compacted_le_gost]
  split
  · rename_i hlt
    have hlt' : Network.regtest.powLimitScrypt.toNat < x.toNat := hlt
    constructor
    · intro h
      have := h.2
      omega
    · intro h
      have := h.2
      omega
  · rfl

theorem originalGetNextWorkRequired_legal_iff (hchain : n.LegalChain pindexLast)
    (halgo : n.algorithm pindexLast.nHeight = .original) :
    LegalResult n pindexLast (originalGetNextWorkRequired n pindexLast) ↔
      (changesDifficulty (pindexLast.nHeight+1) = true → ∀ pindexFirst,
        pindexLast.goBack (blocksToGoBack (pindexLast.nHeight+1)) = some pindexFirst →
        retargetDivisor (pindexLast.nHeight+1) ≤ (setCompact pindexLast.data.nBits).target.toNat*
          (limitSetpoint (pindexLast.nHeight+1)
            ((pindexLast.getBlockTime : Int)-pindexFirst.getBlockTime)).toNat) := by
  obtain ⟨rfl,hheight⟩ := Network.algorithm_original halgo
  obtain ⟨-,hne,-,hle⟩ := Network.inRange_iff.mp hchain.last
  have hlimit : ∀ h, Network.main.proofOfWorkLimit h = Network.main.powLimitScrypt :=
    fun h => Network.proofOfWorkLimit_eq (.inl (by decide))
  rw [hlimit] at hle
  unfold originalGetNextWorkRequired
  cases hchanges : changesDifficulty (pindexLast.nHeight+1) with
  | false =>
    simp only [hchanges,Bool.not_false,if_true]
    refine ⟨fun _ h => absurd h Bool.false_ne_true,fun _ => legalResult_some.mpr ⟨hne,?_⟩⟩
    rw [hlimit]
    exact Nat.le_trans (compacted_le _) hle
  | true =>
    obtain ⟨pindexFirst,hfirst⟩ := CBlockIndex.goBack_isSome (blocksToGoBack_le hchanges)
    have hbounds := limitSetpoint_bounds (pindexLast.nHeight+1)
      ((pindexLast.getBlockTime : Int)-pindexFirst.getBlockTime)
    have hdivisor := retargetDivisor_bounds (pindexLast.nHeight+1)
    have htarget : (setCompact pindexLast.data.nBits).target.toNat < 2^236 :=
      Nat.lt_of_le_of_lt hle (by decide +kernel)
    have hsetpoint : (limitSetpoint (pindexLast.nHeight+1)
        ((pindexLast.getBlockTime : Int)-pindexFirst.getBlockTime)).toNat%2^32 =
        (limitSetpoint (pindexLast.nHeight+1)
          ((pindexLast.getBlockTime : Int)-pindexFirst.getBlockTime)).toNat :=
      Nat.mod_eq_of_lt (by omega)
    simp only [hchanges,Bool.not_true,Bool.false_eq_true,if_false,hfirst,Option.bind_eq_bind,
      Option.bind_some,hsetpoint]
    rw [legalResult_min (hlimit _),
      retarget_ne_zero_iff htarget (by omega) hdivisor.1 hdivisor.2]
    constructor
    · intro h _ pindexFirst' hfirst'
      rw [← Option.some.inj hfirst']
      exact h
    · exact fun h => h trivial pindexFirst rfl

theorem nextWorkRequiredKgwV2_legal_iff (hchain : n.LegalChain pindexLast)
    (halgo : n.algorithm pindexLast.nHeight = .kgw) :
    LegalResult n pindexLast (some (nextWorkRequiredKgwV2 F kgw_blockmass_curve n pindexLast)) ↔
      (nMinBlocksToAvg ≤ pindexLast.nHeight →
        (kgwSamples F kgw_blockmass_curve pindexLast).Positive) ∧
      (n = .regtest →
        (kgwSamples F kgw_blockmass_curve pindexLast).uintNewDifficulty.toNat < gostBound) := by
  have hpositive : (kgwSamples F kgw_blockmass_curve pindexLast).uintNewDifficulty ≠ 0 ↔
      (nMinBlocksToAvg ≤ pindexLast.nHeight →
        (kgwSamples F kgw_blockmass_curve pindexLast).Positive) := by
    by_cases hheight : nMinBlocksToAvg ≤ pindexLast.nHeight
    · rw [(kgwSamples_taken hchain hheight).ne_zero_iff]
      exact ⟨fun h _ => h,fun h => h hheight⟩
    · refine ⟨fun _ h => absurd h hheight,fun _ => ?_⟩
      unfold kgwSamples
      rw [if_neg hheight]
      decide
  rw [← hpositive]
  unfold nextWorkRequiredKgwV2
  by_cases hreg : n = .regtest
  · subst hreg
    rw [legalResult_regtest (Nat.le_of_lt (Network.algorithm_kgw_regtest halgo))]
    exact ⟨fun h => ⟨h.1,fun _ => h.2⟩,fun h => ⟨h.1,h.2 rfl⟩⟩
  · simp only
    rw [legalResult_min (Network.proofOfWorkLimit_eq (.inl hreg))]
    exact ⟨fun h => ⟨h,fun heq => absurd heq hreg⟩,fun h => h.1⟩

theorem strategy_legal_iff {x : Uint256} (hchain : n.LegalChain pindexLast)
    (hx : x ≤ n.powLimitScrypt) :
    LegalResult n pindexLast (strategy F kgw_blockmass_curve n pindexLast x) ↔
      match n.algorithm pindexLast.nHeight with
      | .original => changesDifficulty (pindexLast.nHeight+1) = true → ∀ pindexFirst,
          pindexLast.goBack (blocksToGoBack (pindexLast.nHeight+1)) = some pindexFirst →
          retargetDivisor (pindexLast.nHeight+1) ≤ (setCompact pindexLast.data.nBits).target.toNat*
            (limitSetpoint (pindexLast.nHeight+1)
              ((pindexLast.getBlockTime : Int)-pindexFirst.getBlockTime)).toNat
      | .kgw => (nMinBlocksToAvg ≤ pindexLast.nHeight →
            (kgwSamples F kgw_blockmass_curve pindexLast).Positive) ∧
          (n = .regtest →
            (kgwSamples F kgw_blockmass_curve pindexLast).uintNewDifficulty.toNat < gostBound)
      | .start => True
      | .output => x ≠ 0 := by
  rw [strategy_eq]
  cases halgo : n.algorithm pindexLast.nHeight with
  | original => exact originalGetNextWorkRequired_legal_iff hchain halgo
  | kgw => exact nextWorkRequiredKgwV2_legal_iff hchain halgo
  | start =>
    refine ⟨fun _ => trivial,fun _ => legalResult_some.mpr ⟨by decide +kernel,?_⟩⟩
    have hgost : (setCompact 0x1e0ffff0).target = n.powLimitGost3411 := by cases n <;> rfl
    rw [hgost]
    exact Nat.le_trans (compacted_le _) (n.gost_le_limit _)
  | output =>
    have hheight := Network.algorithm_output halgo
    refine ⟨fun h => (legalResult_some.mp h).1,fun h => legalResult_some.mpr ⟨h,?_⟩⟩
    rw [Network.proofOfWorkLimit_eq (.inr hheight)]
    exact Nat.le_trans (compacted_le x) hx

/-- What the controller answers is at most the limit for Scrypt. -/
theorem retargetOutput_le {x : Uint256} {pid' : Option (PidController D)}
    (hpid : Installed F p n pRetargetPid)
    (h : retargetOutput F n p pRetargetPid pindexLast pBlockHeader = some (x,pid')) :
    x ≤ n.powLimitScrypt := by
  unfold retargetOutput at h
  cases hc : pRetargetPid with
  | none =>
    rw [hc] at h
    rw [← (Prod.mk.inj (Option.some.inj h)).1]
    exact Nat.le_refl _
  | some c =>
    rw [hc] at h
    simp only at h
    split_ifs at h
    · obtain ⟨⟨r,c'⟩,hrun,heq⟩ := Option.map_eq_some_iff.mp h
      obtain ⟨calls,hcalls⟩ := hpid.2 c hc
      have hle : c.uintTargetAfterLimits ≤ p.uintPOWlimit :=
        PidController.pidRun_le (Nat.zero_le _) hcalls
      rw [← (Prod.mk.inj heq).1,← hpid.1]
      exact PidController.updateOutputAt_le hle hrun
    · rw [← (Prod.mk.inj (Option.some.inj h)).1]
      exact Nat.zero_le _

theorem retargetOutput_iff :
    (∃ x pid', retargetOutput F n p pRetargetPid pindexLast pBlockHeader = some (x,pid') ∧
        (n.algorithm pindexLast.nHeight = .output → x ≠ 0)) ↔
      ∀ c, pRetargetPid = some c → pindexLast.nHeight < n.switchHeight6 →
        ∃ r c', c.updateOutput F p pindexLast pBlockHeader = some (r,c') ∧
          (n.algorithm pindexLast.nHeight = .output → c'.uintTargetAfterLimits ≠ 0) := by
  unfold retargetOutput
  cases pRetargetPid with
  | none =>
    refine ⟨fun _ c hc => absurd hc (Option.some_ne_none c).symm,fun _ => ?_⟩
    exact ⟨_,_,rfl,fun _ => n.powLimitScrypt_ne_zero⟩
  | some c =>
    by_cases hheight : pindexLast.nHeight < n.switchHeight6
    · simp only [if_pos hheight]
      constructor
      · rintro ⟨x,pid',hrun,hne⟩ c₀ hc₀ -
        obtain ⟨⟨r,c'⟩,hrun,heq⟩ := Option.map_eq_some_iff.mp hrun
        rw [← Option.some.inj hc₀]
        refine ⟨r,c',hrun,?_⟩
        rw [(Prod.mk.inj heq).1]
        exact hne
      · intro h
        obtain ⟨r,c',hrun,hne⟩ := h c rfl hheight
        exact ⟨_,_,Option.map_eq_some_iff.mpr ⟨(r,c'),hrun,rfl⟩,hne⟩
    · simp only [if_neg hheight]
      refine ⟨fun _ _ _ h => absurd h hheight,fun _ => ⟨_,_,rfl,fun halgo => ?_⟩⟩
      have := Network.algorithm_output halgo
      omega

theorem getNextWorkRequired_eq_some {nBits : Uint32} {pid' : Option (PidController D)} :
    getNextWorkRequired F kgw_blockmass_curve n p pRetargetPid pindexLast pBlockHeader =
      some (nBits,pid') ↔
      ∃ x r, retargetOutput F n p pRetargetPid pindexLast pBlockHeader = some (x,pid') ∧
        strategy F kgw_blockmass_curve n pindexLast x = some r ∧ getCompact r = nBits := by
  constructor
  · intro h
    obtain ⟨⟨x,pid⟩,hx,h⟩ := Option.bind_eq_some_iff.mp h
    obtain ⟨r,hr,h⟩ := Option.bind_eq_some_iff.mp h
    obtain ⟨hbits,rfl⟩ := Prod.mk.inj (Option.some.inj h)
    exact ⟨x,r,hx,hr,hbits⟩
  · rintro ⟨x,r,hx,hr,rfl⟩
    unfold getNextWorkRequired
    rw [hx]
    show ((strategy F kgw_blockmass_curve n pindexLast x).bind fun r => some (getCompact r,pid')) = _
    rw [hr]
    rfl

theorem Workable.of_legal (hpid : Installed F p n pRetargetPid) (hchain : n.LegalChain pindexLast)
    {nBits : Uint32} {pid' : Option (PidController D)}
    (hrun : getNextWorkRequired F kgw_blockmass_curve n p pRetargetPid pindexLast pBlockHeader =
      some (nBits,pid'))
    (hlegal : n.inRange (pindexLast.nHeight+1) nBits = true) :
    Workable F kgw_blockmass_curve n p pRetargetPid pindexLast pBlockHeader := by
  obtain ⟨x,r,hx,hr,rfl⟩ := getNextWorkRequired_eq_some.mp hrun
  have hcase := (strategy_legal_iff hchain (retargetOutput_le hpid hx)).mp ⟨r,hr,hlegal⟩
  refine ⟨retargetOutput_iff.mp ⟨x,pid',hx,fun halgo => ?_⟩,fun halgo => ?_,fun halgo => ?_,
    fun halgo => ?_⟩
  · rw [halgo] at hcase
    exact hcase
  · rw [halgo] at hcase
    exact hcase
  · rw [halgo] at hcase
    exact hcase.1
  · rw [halgo] at hcase
    exact hcase.2

theorem Workable.legal (h : Workable F kgw_blockmass_curve n p pRetargetPid pindexLast pBlockHeader)
    (hpid : Installed F p n pRetargetPid) (hchain : n.LegalChain pindexLast) :
    ∃ nBits pid', getNextWorkRequired F kgw_blockmass_curve n p pRetargetPid pindexLast
      pBlockHeader = some (nBits,pid') ∧ n.inRange (pindexLast.nHeight+1) nBits = true := by
  obtain ⟨x,pid',hx,hne⟩ := retargetOutput_iff.mpr h.output
  have hlegal : LegalResult n pindexLast (strategy F kgw_blockmass_curve n pindexLast x) := by
    rw [strategy_legal_iff hchain (retargetOutput_le hpid hx)]
    cases halgo : n.algorithm pindexLast.nHeight with
    | original => exact h.original halgo
    | kgw => exact ⟨h.kgw halgo,h.gost halgo⟩
    | start => trivial
    | output => exact hne halgo
  obtain ⟨r,hr,hlegal⟩ := hlegal
  exact ⟨getCompact r,pid',getNextWorkRequired_eq_some.mpr ⟨x,r,hx,hr,rfl⟩,hlegal⟩

end NextWork

/-- The checks of headers follow the parameters of a network. -/
structure Consensus.Follows (net : Consensus) (n : Network) : Prop where
  testNet : net.testNet = n.testNet
  powLimitScrypt : net.powLimitScrypt = n.powLimitScrypt
  powLimitGost3411 : net.powLimitGost3411 = n.powLimitGost3411

/-- A header whose difficulty is in range is rejected for its hash only. -/
theorem Consensus.Follows.checkProofOfWork {net : Consensus} {n : Network} (h : net.Follows n)
    {block : CBlockHeader} {nBits : Uint32} (hrange : n.inRange block.nHeight.toNat nBits = true)
    (hhash : net.getHash block ≤ (setCompact nBits).target) :
    net.checkProofOfWork block nBits = true := by
  obtain ⟨hneg,hne,hover,hle⟩ := Network.inRange_iff.mp hrange
  have hlimit : net.proofOfWorkLimit block = n.proofOfWorkLimit block.nHeight.toNat := by
    unfold Consensus.proofOfWorkLimit Network.proofOfWorkLimit Consensus.switchHeight6
      Network.switchHeight6
    rw [h.testNet,h.powLimitScrypt,h.powLimitGost3411]
  unfold Consensus.checkProofOfWork
  simp only [hlimit,hneg,hover,Bool.false_or,Bool.or_false]
  rw [if_neg,if_neg]
  · exact BitVec.not_lt.mpr hhash
  · simp only [Bool.or_eq_true,beq_iff_eq,decide_eq_true_eq,not_or]
    exact ⟨hne,BitVec.not_lt.mpr hle⟩

instance (s : KgwSamples) : Decidable s.Positive := inferInstanceAs (Decidable (_ ∨ _))

/-- A chain at minimum difficulty whose blocks come every 200 seconds. -/
def slowChain : Nat → CBlockIndex
  | 0 => .genesis ⟨2,0,0,0x1e0ffff0,0,0,0⟩
  | n+1 => .child ⟨2,0,BitVec.ofNat 32 (200*(n+1)),0x1e0ffff0,0,0,0⟩ (slowChain n)

@[simp] theorem slowChain_nHeight (k : Nat) : (slowChain k).nHeight = k := by
  induction k with
  | zero => rfl
  | succ k ih => exact congrArg (·+1) ih

theorem inRange_minimum (n : Network) (nHeight : Nat) : n.inRange nHeight 0x1e0ffff0 = true := by
  have hgost : (setCompact 0x1e0ffff0).target = n.powLimitGost3411 := by cases n <;> rfl
  refine Network.inRange_iff.mpr ⟨by decide +kernel,by decide +kernel,by decide +kernel,?_⟩
  rw [hgost]
  exact n.gost_le_limit nHeight

theorem slowChain_legal (n : Network) (k : Nat) : n.LegalChain (slowChain k) := by
  induction k with
  | zero => exact inRange_minimum n 0
  | succ k ih => exact ⟨inRange_minimum n _,ih⟩

/-- The samples of that many blocks of the slow chain. -/
def slowSamples (m : Nat) : KgwSamples := ⟨(setCompact 0x1e0ffff0).target,200*(m-1),180*m⟩

theorem kgwAverage_self (nBlockMass : Nat) (x : Uint256) : kgwAverage nBlockMass x x = x := by
  have hzero : 0#256/BitVec.ofNat 256 nBlockMass = 0#256 := BitVec.zero_udiv
  unfold kgwAverage
  split
  · rfl
  · rw [if_neg (BitVec.lt_irrefl x),BitVec.sub_self,hzero,BitVec.add_zero]

theorem kgwSample_slow {N k mass : Nat} {s : KgwSamples} (hsum : k+1+mass = N+1)
    (hN : 200*N < 2^32) (hmass : 1 ≤ mass)
    (hs : (mass = 1 ∧ s.nTargetRateSecs = 0) ∨ s = slowSamples (mass-1)) :
    kgwSample (200*N) mass ⟨2,0,BitVec.ofNat 32 (200*(k+1)),0x1e0ffff0,0,0,0⟩ s =
      slowSamples mass := by
  have htime : (BitVec.ofNat 32 (200*(k+1))).toNat = 200*(k+1) := by
    rw [BitVec.toNat_ofNat]
    exact Nat.mod_eq_of_lt (by omega)
  have havg : kgwAverage mass s.uintDifficultyAvg (setCompact 0x1e0ffff0).target =
      (setCompact 0x1e0ffff0).target := by
    rcases hs with ⟨rfl,-⟩ | rfl
    · rfl
    · exact kgwAverage_self mass _
  have htarget : s.nTargetRateSecs = 180*(mass-1) := by
    rcases hs with ⟨rfl,h⟩ | rfl
    · exact h
    · rfl
  unfold kgwSample slowSamples
  simp only [havg,htime,htarget]
  congr 1
  · omega
  · show 180*(mass-1)+180 = 180*mass
    omega

theorem kgwLoop_slow {D : Type} {F : Platform D} {kgw_blockmass_curve : Nat → D}
    {N k mass : Nat} {s : KgwSamples} (hsum : k+mass = N+1) (hN : 200*N < 2^32)
    (hmin : nMaxBlocksToAvg ≤ N) (hmass : 1 ≤ mass) (hmax : mass ≤ nMaxBlocksToAvg+1)
    (hs : (mass = 1 ∧ s.nTargetRateSecs = 0) ∨ s = slowSamples (mass-1)) :
    ∃ m, nMinBlocksToAvg ≤ m ∧ m ≤ nMaxBlocksToAvg ∧
      kgwLoop F kgw_blockmass_curve (200*N) (slowChain k) mass s = slowSamples m := by
  have hlast : mass = nMaxBlocksToAvg+1 → s = slowSamples nMaxBlocksToAvg := by
    rintro rfl
    rcases hs with ⟨h,-⟩ | h
    · exact absurd h (by decide)
    · exact h
  induction k generalizing mass s with
  | zero => exact ⟨nMaxBlocksToAvg,by decide,Nat.le_refl _,hlast (by omega)⟩
  | succ k ih =>
    unfold slowChain kgwLoop
    split
    · exact ⟨nMaxBlocksToAvg,by decide,Nat.le_refl _,hlast (by omega)⟩
    · rename_i hle
      simp only
      rw [kgwSample_slow hsum hN hmass hs]
      split
      · rename_i hleaves
        unfold kgwLeaves at hleaves
        simp only [Bool.and_eq_true,decide_eq_true_eq] at hleaves
        exact ⟨mass,hleaves.1,Nat.le_of_not_lt hle,rfl⟩
      · refine ih (by omega) (by omega) (by omega) (.inr rfl) ?_
        rintro heq
        rw [show mass = nMaxBlocksToAvg by omega]

/-- The gravity well lowers the difficulty of the slow chain. -/
theorem gostBound_le_slowSamples {m : Nat} (hmin : nMinBlocksToAvg ≤ m)
    (hmax : m ≤ nMaxBlocksToAvg) : gostBound ≤ (slowSamples m).uintNewDifficulty.toNat := by
  have hmin' : 120 ≤ m := hmin
  have hmax' : m ≤ 3360 := hmax
  have htarget : (setCompact 0x1e0ffff0).target.toNat = 0x0ffff0*2^216 := by decide +kernel
  unfold KgwSamples.uintNewDifficulty slowSamples
  simp only
  rw [if_pos ⟨by omega,by omega⟩,BitVec.toNat_udiv,BitVec.toNat_mul,BitVec.toNat_ofNat,
    BitVec.toNat_ofNat,htarget,Nat.mod_eq_of_lt (show 200*(m-1) < 2^256 by omega),
    Nat.mod_eq_of_lt (show 180*m < 2^256 by omega),
    Nat.mod_eq_of_lt (show 0x0ffff0*2^216*(200*(m-1)) < 2^256 by omega),
    Nat.le_div_iff_mul_le (by omega)]
  unfold gostBound
  omega

def regtestPidParams {D : Type} (F : Platform D) : PidParams D where
  dProportionalGain := F.ofLiteral (17/10)
  nIntegrationTime := 172800
  dIntegratorGain := F.ofInt 5
  dDerivativeGain := F.ofInt 0
  nMaxDiffIncrease := 101
  nMaxDiffDecrease := 101
  nTipFilterBlocks := 21
  fUsesHeader := false
  uintPOWlimit := Network.regtest.powLimitScrypt
  five_le := mainPidParams.five_le

/-- The entry of the curve for the first block mass that can end the loop. -/
def kgwCurveStart (i : Nat) : Rat := if i = 119 then 18861619996/10000000000 else 1

end Anoncoin
