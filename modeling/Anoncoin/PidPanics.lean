import Mathlib.Tactic.Ring
import Mathlib.Data.Nat.Prime.Basic
import Anoncoin.PidCache

/-!
The retarget controller with every place where the process would stop: the assertions, the
reads through `pprev`, the reads of a vector and the integer divisions. What it computes
otherwise is what the plain model computes.
-/

set_option autoImplicit false

namespace Anoncoin

inductive PidPanic where
  | assertion
  | nullPointer
  | outOfRange
  | divisionByZero
  deriving DecidableEq, Repr

namespace PidPanic

def assert (condition : Bool) : Except PidPanic Unit :=
  if condition then .ok () else .error .assertion

def deref {α : Type} : Option α → Except PidPanic α
  | none => .error .nullPointer
  | some a => .ok a

def elementAt {α : Type} (v : List α) (i : Nat) : Except PidPanic α :=
  match v[i]? with
  | none => .error .outOfRange
  | some a => .ok a

/-- A division by a `uint32_t`. -/
def divisor (n : Nat) : Except PidPanic Unit :=
  if n%2^32 = 0 then .error .divisionByZero else .ok ()

end PidPanic

open PidPanic

/-- The loop of `ChargeIntegrator`; the block is the one before the step. -/
def sampleLoop (nOldestBlockTime : Int) : CBlockIndex → Nat → Except PidPanic (Int × Nat)
  | .genesis _, _ => .error .nullPointer
  | .child _ pIndex, nBlocksSampled =>
      match pIndex.pprev with
      | none => .ok (pIndex.getBlockTime,nBlocksSampled+1)
      | some pprev =>
          if nOldestBlockTime < pprev.getBlockTime then
            sampleLoop nOldestBlockTime pIndex (nBlocksSampled+1)
          else .ok (pIndex.getBlockTime,nBlocksSampled+1)

/-- The loop over the last `nBlocks` of the filter, from the index `i` on. -/
def weightedLoop (vIndexTipFilter : List FilterPoint) (nTipFilterBlocks nBlocks : Nat) :
    Nat → Nat → Uint256 → Nat → Except PidPanic (Uint256 × Nat)
  | 0, _, sum, nDividerSum => .ok (sum,nDividerSum)
  | rounds+1, i, sum, nDividerSum => do
      let point ← elementAt vIndexTipFilter (i-1)
      let nWeight := i+nBlocks-nTipFilterBlocks
      weightedLoop vIndexTipFilter nTipFilterBlocks nBlocks rounds (i+1)
        (sum+(setCompact point.nDiffBits).target*BitVec.ofNat 256 nWeight)
        ((nDividerSum+nWeight)%2^32)

def weightedDiffOrPanic (vIndexTipFilter : List FilterPoint) (nTipFilterBlocks nBlocks : Nat) :
    Except PidPanic Uint256 := do
  let r ← weightedLoop vIndexTipFilter nTipFilterBlocks nBlocks nBlocks
    (nTipFilterBlocks-nBlocks+1) 0 0
  divisor r.2
  return r.1/BitVec.ofNat 256 r.2

/-- What the loop of `UpdateFilterTimingResults` carries. -/
structure TimingSums (D : Type) where
  dSpacingError : D
  dRateOfChange : D
  nTimeError0 : Int
  nDividerSum : Nat

section Timing
variable {D : Type} (F : Platform D)

def timingLoop (times : List Int) : Nat → Nat → TimingSums D → Except PidPanic (TimingSums D)
  | 0, _, sums => .ok sums
  | rounds+1, i, sums => do
      let newer ← elementAt times i
      let older ← elementAt times (i-1)
      let nTimeError := newer-older-nTargetSpacing
      timingLoop times rounds (i+1)
        { dSpacingError := F.add sums.dSpacingError (F.ofInt (int32 nTimeError*i))
          dRateOfChange := if 1 < i then F.add sums.dRateOfChange
              (F.ofInt (int32 (nTimeError-sums.nTimeError0)*(i-1 : Nat)))
            else sums.dRateOfChange
          nTimeError0 := nTimeError
          nDividerSum := (sums.nDividerSum+i)%2^32 }

/-- `UpdateFilterTimingResults`; the divisions behind the loop are those of `double`. -/
def filterTimingOrPanic (times : List Int) : Except PidPanic (D × D) :=
  if times.length = 0 then .ok (F.ofInt 0,F.ofInt 0)
  else do
    let sums ← timingLoop F times (times.length-1) 1 ⟨F.ofInt 0,F.ofInt 0,0,0⟩
    return (F.div sums.dSpacingError (F.ofInt sums.nDividerSum),
      F.div sums.dRateOfChange (F.ofInt (((sums.nDividerSum : Int)-times.length+1)%2^32)))

end Timing

/-- The loop that builds the filter with the header. -/
def headerLoop (vIndexTipFilter : List FilterPoint) (nTipTime : Int) :
    Nat → Nat → Bool → List Int → Except PidPanic (Bool × List Int)
  | 0, _, fHeaderAdded, times => .ok (fHeaderAdded,times)
  | rounds+1, i, fHeaderAdded, times => do
      let point ← elementAt vIndexTipFilter i
      if !fHeaderAdded && decide (nTipTime < point.nBlockTime) then
        headerLoop vIndexTipFilter nTipTime rounds (i+1) true (times ++ [nTipTime,point.nBlockTime])
      else headerLoop vIndexTipFilter nTipTime rounds (i+1) fHeaderAdded (times ++ [point.nBlockTime])

def filterWithHeader (vIndexTipFilter : List FilterPoint) (nTipFilterBlocks : Nat) (nTipTime : Int) :
    Except PidPanic (List Int) := do
  let r ← headerLoop vIndexTipFilter nTipTime nTipFilterBlocks 0 false []
  let times := if r.1 then r.2 else r.2 ++ [nTipTime]
  assert (times.length == nTipFilterBlocks+1)
  return times

namespace PidController
variable {D : Type} (F : Platform D) (p : PidParams D)

def chargeIntegratorOrPanic (c : PidController D) (pIndex : CBlockIndex) :
    Except PidPanic (Bool × PidController D) :=
  if pIndex.pprev.isNone then .ok (false,c)
  else if c.nIntegratorHeight = pIndex.nHeight then .ok (true,c)
  else if c.nIntegrationTime = 0 then .ok (true,{ c with
    nIntegratorHeight := pIndex.nHeight
    dIntegratorBlockTime := F.ofInt nTargetSpacing })
  else do
    let nMostRecentBlockTime : Int := pIndex.getBlockTime
    let r ← sampleLoop (nMostRecentBlockTime-c.nIntegrationTime) pIndex 1
    return (true,{ c with
      nIntegratorHeight := pIndex.nHeight
      dIntegratorBlockTime := F.limitIntegrator pIndex.nHeight
        (F.div (F.ofInt (nMostRecentBlockTime-r.1)) (F.ofInt (r.2-1 : Nat))) })

def setTipFilterOrPanic (c : PidController D) (pIndex : CBlockIndex) :
    Except PidPanic (PidController D) := do
  let nTipFilterBlocks := p.nTipFilterBlocks
  let points := newestPoints nTipFilterBlocks pIndex
  assert (points.length == nTipFilterBlocks)
  let vIndexTipFilter := F.sort points
  let uintPrevDiffCalculated ← weightedDiffOrPanic vIndexTipFilter nTipFilterBlocks nTipFilterBlocks
  let nWeightedAvgTipBlocks := weightedAvgTipBlocks pIndex
  assert (decide (nWeightedAvgTipBlocks.1 ≤ nTipFilterBlocks))
  let uintTipDiffCalculatedUp ←
    weightedDiffOrPanic vIndexTipFilter nTipFilterBlocks nWeightedAvgTipBlocks.1
  assert (decide (nWeightedAvgTipBlocks.2 ≤ nTipFilterBlocks))
  let uintTipDiffCalculatedDown ←
    weightedDiffOrPanic vIndexTipFilter nTipFilterBlocks nWeightedAvgTipBlocks.2
  let uintPrevDiffForLimitsLast := (setCompact pIndex.data.nBits).target
  let maxDiff := c.maxDiff pIndex
  divisor maxDiff.1
  let timing ← (if p.fUsesHeader then .ok (F.ofInt 0,F.ofInt 0)
    else filterTimingOrPanic F (vIndexTipFilter.map FilterPoint.nBlockTime) : Except PidPanic (D × D))
  return { c with
    nMaxDiffIncrease := maxDiff.1
    nMaxDiffDecrease := maxDiff.2
    dSpacingError := timing.1
    dRateOfChange := timing.2
    vIndexTipFilter := vIndexTipFilter
    uintPrevDiffCalculated := uintPrevDiffCalculated
    uintPrevDiffForLimitsLast := uintPrevDiffForLimitsLast
    uintDiffAtMaxIncreaseTip := uintTipDiffCalculatedUp*100/BitVec.ofNat 256 maxDiff.1
    uintDiffAtMaxDecreaseLast := uintPrevDiffForLimitsLast*BitVec.ofNat 256 maxDiff.2/100
    uintDiffAtMaxDecreaseTip := uintTipDiffCalculatedDown*BitVec.ofNat 256 maxDiff.2/100
    nIndexFilterHeight := pIndex.nHeight
    fTipFilterInitialized := true }

def updateIndexTipFilterOrPanic (c : PidController D) (pIndex : CBlockIndex) :
    Except PidPanic (Bool × PidController D) :=
  if pIndex.nHeight < p.nTipFilterBlocks then .ok (false,c)
  else
    let c := { c with nLastCalculationTime := 0 }
    if c.fTipFilterInitialized && c.nIndexFilterHeight == pIndex.nHeight then .ok (true,c)
    else do
      let c ← c.setTipFilterOrPanic F p pIndex
      return (true,c)

def calcBlockTimeErrorsOrPanic (c : PidController D) (nTipTime : Int) :
    Except PidPanic (Bool × PidController D) :=
  if c.fTipFilterInitialized then
    if p.fUsesHeader then do
      let times ← filterWithHeader c.vIndexTipFilter p.nTipFilterBlocks nTipTime
      let timing ← filterTimingOrPanic F times
      return (true,{ c with dSpacingError := timing.1, dRateOfChange := timing.2 })
    else .ok (true,c)
  else .ok (false,c)

def setBlockTimeErrorOrPanic (c : PidController D) (pIndex : CBlockIndex) (nNewBlockTime : Int) :
    Except PidPanic (Bool × PidController D) := do
  let filtered ← c.updateIndexTipFilterOrPanic F p pIndex
  if filtered.1 then
    let calculated ← filtered.2.calcBlockTimeErrorsOrPanic F p nNewBlockTime
    return (calculated.1,{ calculated.2 with nLastCalculationTime := nNewBlockTime })
  else return (false,filtered.2)

def updateOutputOrPanic (c : PidController D) (pIndex : CBlockIndex) (pBlockHeader : CBlockHeader) :
    Except PidPanic (Bool × PidController D) :=
  let nTime : Int := pBlockHeader.nTime.toNat
  if c.isPidUpdateRequired pIndex nTime then do
    let charged ← c.chargeIntegratorOrPanic F pIndex
    if charged.1 then
      let r ← charged.2.setBlockTimeErrorOrPanic F p pIndex nTime
      if r.1 then
        let c := r.2.switchGains F pIndex
        divisor nTargetSpacing.toNat
        let target ← deref (c.limitOutputDifficultyChange p (c.targetBeforeLimits F) pIndex)
        return (true,{ c with uintTargetAfterLimits := target })
      else return (false,{ r.2 with uintTargetAfterLimits := p.uintPOWlimit })
    else return (false,{ charged.2 with uintTargetAfterLimits := p.uintPOWlimit })
  else .ok (true,c)

end PidController

section Calls
variable {D : Type} (F : Platform D) (p : PidParams D)

def PidCall.applyOrPanic (c : PidController D) : PidCall → Except PidPanic (PidController D)
  | chargeIntegrator pIndex => (c.chargeIntegratorOrPanic F pIndex).map Prod.snd
  | updateIndexTipFilter pIndex => (c.updateIndexTipFilterOrPanic F p pIndex).map Prod.snd
  | updateOutput pIndex pBlockHeader =>
      (c.updateOutputOrPanic F p pIndex pBlockHeader).map Prod.snd

def pidRunOrPanic (c : PidController D) : List PidCall → Except PidPanic (PidController D)
  | [] => .ok c
  | call :: rest => do
      let c ← call.applyOrPanic F p c
      pidRunOrPanic c rest

end Calls

namespace PidPanic

@[simp] theorem assert_true : assert true = .ok () := rfl

@[simp] theorem assert_false : assert false = .error .assertion := rfl

@[simp] theorem deref_some {α : Type} (a : α) : deref (some a) = .ok a := rfl

theorem elementAt_of_drop {α : Type} {v l : List α} {a : α} {i : Nat} (h : v.drop i = a :: l) :
    elementAt v i = .ok a ∧ v.drop (i+1) = l := by
  have hget : v[i]? = some a := by
    rw [← List.head?_drop,h]
    rfl
  refine ⟨by simp [elementAt,hget],?_⟩
  rw [← List.drop_drop,h]
  rfl

theorem divisor_ok {n : Nat} (h : n%2^32 ≠ 0) : divisor n = .ok () := if_neg h

end PidPanic

theorem sampleLoop_child (nOldestBlockTime : Int) (d : IndexData) (pIndex : CBlockIndex)
    (nBlocksSampled : Nat) :
    sampleLoop nOldestBlockTime (.child d pIndex) nBlocksSampled =
      .ok (Platform.sampleBlocks nOldestBlockTime pIndex (nBlocksSampled+1)) := by
  induction pIndex generalizing d nBlocksSampled with
  | genesis e => rfl
  | child e q ih =>
    unfold sampleLoop Platform.sampleBlocks
    simp only [CBlockIndex.pprev]
    split
    · exact ih e (nBlocksSampled+1)
    · rfl

/-- The accumulators of `weightedDiff` over the points, with weights from `w` on. -/
def weightedSums (points : List FilterPoint) (w : Nat) (acc : Uint256 × Nat) : Uint256 × Nat :=
  (points.zipIdx w).foldl (fun (acc : Uint256 × Nat) p =>
    (acc.1+(setCompact p.1.nDiffBits).target*BitVec.ofNat 256 p.2,acc.2+p.2)) acc

theorem weightedLoop_eq {v : List FilterPoint} {n k : Nat} (points : List FilterPoint) (i w : Nat)
    (acc : Uint256 × Nat) (hi : v.drop (i-1) = points) (hpos : 0 < i) (hw : i+k-n = w)
    (hn : n < i+k) :
    weightedLoop v n k points.length i acc.1 (acc.2%2^32) =
      .ok ((weightedSums points w acc).1,(weightedSums points w acc).2%2^32) := by
  induction points generalizing i w acc with
  | nil => rfl
  | cons point rest ih =>
    obtain ⟨hat,hrest⟩ := elementAt_of_drop hi
    have hstep := ih (i+1) (w+1)
      (acc.1+(setCompact point.nDiffBits).target*BitVec.ofNat 256 w,acc.2+w)
      (by rw [← hrest]; congr 1; omega) (by omega) (by omega) (by omega)
    simp only [List.length_cons,weightedLoop,hat,hw]
    simp only [Nat.mod_add_mod]
    exact hstep

theorem weightedSums_divider (points : List FilterPoint) (w : Nat) (acc : Uint256 × Nat) :
    2*(weightedSums points w acc).2 = 2*acc.2+points.length*(2*w+points.length-1) := by
  induction points generalizing w acc with
  | nil => simp [weightedSums]
  | cons point rest ih =>
    have hrest := ih (w+1) (acc.1+(setCompact point.nDiffBits).target*BitVec.ofNat 256 w,acc.2+w)
    have hcons : weightedSums (point :: rest) w acc = weightedSums rest (w+1)
      (acc.1+(setCompact point.nDiffBits).target*BitVec.ofNat 256 w,acc.2+w) := rfl
    rw [hcons,hrest,List.length_cons]
    have h₁ : 2*(w+1)+rest.length-1 = 2*w+rest.length+1 := by omega
    have h₂ : 2*w+(rest.length+1)-1 = 2*w+rest.length := by omega
    rw [h₁,h₂]
    ring

/-- The sum of the weights never wraps to zero: one of two neighbours is odd. -/
theorem divider_ne_zero {k s : Nat} (hk : 0 < k) (hlt : k < 2^31) (hs : 2*s = k*(k+1)) :
    s%2^32 ≠ 0 := by
  intro hz
  have hdvd : 2^33 ∣ k*(k+1) := by
    rw [← hs]
    exact Nat.mul_dvd_mul_left 2 (Nat.dvd_of_mod_eq_zero hz)
  rcases Nat.even_or_odd k with heven | hodd
  · have hcop : Nat.Coprime (2^33) (k+1) :=
      Nat.Coprime.pow_left 33 (Nat.coprime_two_left.mpr heven.add_one)
    have hle := Nat.le_of_dvd hk (hcop.dvd_of_dvd_mul_right hdvd)
    omega
  · have hcop : Nat.Coprime (2^33) k := Nat.Coprime.pow_left 33 (Nat.coprime_two_left.mpr hodd)
    have hle := Nat.le_of_dvd (Nat.succ_pos k) (hcop.dvd_of_dvd_mul_left hdvd)
    omega

/-- With a filter of its size and a window inside it, the average comes out. -/
theorem weightedDiffOrPanic_eq {v : List FilterPoint} {n k : Nat} (hv : v.length = n) (hk : 0 < k)
    (hkn : k ≤ n) (hlt : k < 2^31) :
    weightedDiffOrPanic v n k = .ok (weightedDiff (v.drop (n-k))) := by
  have hlen : (v.drop (n-k)).length = k := by
    rw [List.length_drop]
    omega
  have hloop := @weightedLoop_eq v n k (v.drop (n-k)) (n-k+1) 1 (0,0) rfl (by omega) (by omega)
    (by omega)
  rw [hlen] at hloop
  have hsum := weightedSums_divider (v.drop (n-k)) 1 (0,0)
  rw [hlen] at hsum
  have hne : (weightedSums (v.drop (n-k)) 1 (0,0)).2%2^32 ≠ 0 := by
    apply divider_ne_zero hk hlt
    rw [hsum]
    have h₁ : 2*1+k-1 = k+1 := by omega
    simp only [h₁]
    omega
  unfold weightedDiffOrPanic
  simp only [Nat.zero_mod] at hloop
  rw [hloop]
  have hdiv : divisor ((weightedSums (v.drop (n-k)) 1 (0,0)).2%2^32) = .ok () :=
    divisor_ok (by rwa [Nat.mod_mod])
  simp only [bind,Except.bind,hdiv]
  rfl

section Timing
variable {D : Type} {F : Platform D}

/-- The accumulators of `filterTiming` over neighbouring times, with weights from `i` on. -/
def timingSums (F : Platform D) (pairs : List (Int × Int)) (i : Nat) (acc : D × D × Int × Nat) :
    D × D × Int × Nat :=
  (pairs.zipIdx i).foldl (fun (acc : D × D × Int × Nat) p =>
    let nTimeError := p.1.2-p.1.1-nTargetSpacing
    let dRateOfChange := if 1 < p.2 then
        F.add acc.2.1 (F.ofInt (int32 (nTimeError-acc.2.2.1)*(p.2-1 : Nat)))
      else acc.2.1
    (F.add acc.1 (F.ofInt (int32 nTimeError*p.2)),dRateOfChange,nTimeError,acc.2.2.2+p.2)) acc

def TimingSums.of (acc : D × D × Int × Nat) : TimingSums D :=
  ⟨acc.1,acc.2.1,acc.2.2.1,acc.2.2.2%2^32⟩

theorem timingLoop_eq {times : List Int} (t : Int) (rest : List Int) (i : Nat)
    (acc : D × D × Int × Nat) (hi : times.drop (i-1) = t :: rest) (hpos : 0 < i) :
    timingLoop F times rest.length i (.of acc) =
      .ok (.of (timingSums F ((t :: rest).zip rest) i acc)) := by
  induction rest generalizing t i acc with
  | nil => rfl
  | cons u rest ih =>
    obtain ⟨hold,hrest⟩ := elementAt_of_drop hi
    have hsucc : i-1+1 = i := by omega
    rw [hsucc] at hrest
    obtain ⟨hnew,-⟩ := elementAt_of_drop hrest
    have hstep := ih u (i+1) (F.add acc.1 (F.ofInt (int32 (u-t-nTargetSpacing)*i)),
      (if 1 < i then F.add acc.2.1
        (F.ofInt (int32 (u-t-nTargetSpacing-acc.2.2.1)*(i-1 : Nat))) else acc.2.1),
      u-t-nTargetSpacing,acc.2.2.2+i) (by simpa using hrest) (Nat.succ_pos i)
    simp only [List.length_cons,timingLoop,hnew,hold]
    simp only [TimingSums.of,Nat.mod_add_mod] at hstep ⊢
    exact hstep

theorem filterTimingOrPanic_eq {times : List Int} (h : times ≠ []) :
    filterTimingOrPanic F times = .ok (F.filterTiming times) := by
  cases times with
  | nil => exact absurd rfl h
  | cons t rest =>
    have hloop := @timingLoop_eq D F (t :: rest) t rest 1 (F.ofInt 0,F.ofInt 0,0,0) rfl
      Nat.one_pos
    have hweight (s : Nat) : (((s%2^32 : Nat) : Int)-(rest.length+1 : Nat)+1)%2^32 =
        ((s : Int)-(rest.length+1 : Nat)+1)%2^32 := by
      push_cast
      omega
    unfold filterTimingOrPanic
    simp only [TimingSums.of,Nat.zero_mod] at hloop
    simp only [List.length_cons,Nat.add_sub_cancel,hloop,Nat.succ_ne_zero,if_false]
    simp only [bind,Except.bind,pure,Except.pure,hweight]
    rfl

end Timing

/-- The times of the points, the header before the first later one. -/
theorem headerLoop_eq {v : List FilterPoint} {nTipTime : Int} (points : List FilterPoint) (i : Nat)
    (times : List Int) (hi : v.drop i = points) :
    headerLoop v nTipTime points.length i true times =
      .ok (true,times ++ points.map FilterPoint.nBlockTime) := by
  induction points generalizing i times with
  | nil => simp [headerLoop]
  | cons point rest ih =>
    obtain ⟨hat,hrest⟩ := elementAt_of_drop hi
    have hstep := ih (i+1) (times ++ [point.nBlockTime]) hrest
    simp only [List.append_assoc,List.singleton_append] at hstep
    simp only [List.length_cons,headerLoop,hat,List.map_cons]
    exact hstep

theorem headerLoop_insert {v : List FilterPoint} {nTipTime : Int} (points : List FilterPoint)
    (i : Nat) (times : List Int) (hi : v.drop i = points) :
    ∃ r, headerLoop v nTipTime points.length i false times = .ok r ∧
      (if r.1 then r.2 else r.2 ++ [nTipTime]) =
        times ++ insertTime nTipTime (points.map FilterPoint.nBlockTime) := by
  induction points generalizing i times with
  | nil => exact ⟨(false,times),rfl,rfl⟩
  | cons point rest ih =>
    obtain ⟨hat,hrest⟩ := elementAt_of_drop hi
    simp only [List.length_cons,headerLoop,hat,List.map_cons,insertTime,bind,Except.bind,
      Bool.not_false,Bool.true_and,decide_eq_true_eq]
    by_cases hlt : nTipTime < point.nBlockTime
    · rw [if_pos hlt,if_pos hlt,headerLoop_eq rest (i+1) _ hrest]
      exact ⟨_,rfl,by simp⟩
    · rw [if_neg hlt,if_neg hlt]
      obtain ⟨r,hr,htimes⟩ := ih (i+1) (times ++ [point.nBlockTime]) hrest
      refine ⟨r,hr,?_⟩
      rw [htimes,List.append_assoc]
      rfl

theorem length_insertTime (nTipTime : Int) (times : List Int) :
    (insertTime nTipTime times).length = times.length+1 := by
  induction times with
  | nil => rfl
  | cons t rest ih =>
    unfold insertTime
    split
    · rfl
    · simp [ih]

theorem filterWithHeader_eq {v : List FilterPoint} {n : Nat} {nTipTime : Int} (hv : v.length = n) :
    filterWithHeader v n nTipTime = .ok (insertTime nTipTime (v.map FilterPoint.nBlockTime)) := by
  obtain ⟨r,hr,htimes⟩ := @headerLoop_insert v nTipTime v 0 [] rfl
  rw [hv] at hr
  unfold filterWithHeader
  simp only [hr,bind,Except.bind,htimes,List.nil_append,length_insertTime,List.length_map,hv,
    beq_self_eq_true,assert_true]
  rfl

theorem length_newestPoints {n : Nat} {b : CBlockIndex} (h : n ≤ b.nHeight) :
    (newestPoints n b).length = n := by
  induction n generalizing b with
  | zero => rfl
  | succ n ih =>
    cases b with
    | genesis d => simp [CBlockIndex.nHeight] at h
    | child d q =>
      have hq : n ≤ q.nHeight := by simpa [CBlockIndex.nHeight] using h
      simp [newestPoints,ih hq]

/-- In the plain model no result is a failed assertion. -/
def PidPanic.ofPlain {α : Type} : Option α → Except PidPanic α
  | none => .error .assertion
  | some a => .ok a

theorem PidPanic.ofPlain_map {α β : Type} (f : α → β) (x : Option α) :
    (ofPlain x).map f = ofPlain (x.map f) := by
  cases x <;> rfl

theorem PidPanic.exists_ofPlain {α : Type} (x : Option α) :
    (∃ a, ofPlain x = .ok a) ↔ x.isSome = true := by
  cases x <;> simp [ofPlain]

/-- At this height there are too few blocks for the filter, or the filter holds the windows
of the averages. -/
def FitsHeight (nTipFilterBlocks nHeight : Nat) : Prop :=
  nHeight < nTipFilterBlocks ∨
    if nDifficultySwitchHeight5 < nHeight then 20 ≤ nTipFilterBlocks else 6 ≤ nTipFilterBlocks

instance (nTipFilterBlocks nHeight : Nat) : Decidable (FitsHeight nTipFilterBlocks nHeight) := by
  unfold FitsHeight
  infer_instance

namespace PidController
variable {D : Type} {F : Platform D} {p : PidParams D} {c : PidController D} {b : CBlockIndex}
  {nTime : Int}

theorem filterSize_iff (hn : p.nTipFilterBlocks ≤ b.nHeight) :
    FilterSize p b ↔ FitsHeight p.nTipFilterBlocks b.nHeight := by
  unfold FilterSize weightedAvgTipBlocks FitsHeight
  split
  · simp only
    omega
  · simp only
    omega

/-- What holds of the controller in every run: a filter that was set has its size and fits
the height it was set for, and a limit is a `uint32_t`. -/
structure Intact (p : PidParams D) (c : PidController D) : Prop where
  points : c.fTipFilterInitialized = true → c.vIndexTipFilter.length = p.nTipFilterBlocks
  fits : c.fTipFilterInitialized = true → FitsHeight p.nTipFilterBlocks c.nIndexFilterHeight
  unset : c.fTipFilterInitialized = false → c.nIndexFilterHeight = 0
  increase : c.nMaxDiffIncrease < 2^32

theorem intact_new (h : p.nMaxDiffIncrease < 2^32) : Intact p (new F p) :=
  ⟨nofun,nofun,fun _ => rfl,h⟩

theorem chargeIntegratorOrPanic_eq (c : PidController D) (b : CBlockIndex) :
    c.chargeIntegratorOrPanic F b = .ok (c.chargeIntegrator F b) := by
  unfold chargeIntegratorOrPanic chargeIntegrator
  cases b with
  | genesis d => rfl
  | child d q =>
    simp only [CBlockIndex.pprev,Option.isNone_some,Bool.false_eq_true,if_false]
    split
    · rfl
    · unfold Platform.integratorBlockTime
      split
      · rfl
      · rw [sampleLoop_child]
        rfl

theorem maxDiff_fst (h : c.nMaxDiffIncrease < 2^32) (b : CBlockIndex) :
    101 ≤ (c.maxDiff b).1 ∧ (c.maxDiff b).1 < 2^32 := by
  by_cases hb : nDifficultySwitchHeight5 < b.nHeight
  · simp [maxDiff,hb]
  · simp only [maxDiff,hb,if_false]
    split
    · simp
    · omega

theorem setTipFilterOrPanic_eq (hsort : ∀ points, (F.sort points).Perm points)
    (hsize : p.nTipFilterBlocks < 2^31) (hc : c.nMaxDiffIncrease < 2^32)
    (hn : p.nTipFilterBlocks ≤ b.nHeight) :
    c.setTipFilterOrPanic F p b =
      if p.nTipFilterBlocks < (weightedAvgTipBlocks b).1 ∨
        p.nTipFilterBlocks < (weightedAvgTipBlocks b).2 then .error .assertion
      else .ok (c.setTipFilter F p b) := by
  have h5 := p.five_le
  have hlen := length_newestPoints hn
  have hv : (F.sort (newestPoints p.nTipFilterBlocks b)).length = p.nTipFilterBlocks := by
    rw [(hsort _).length_eq,hlen]
  have hall := weightedDiffOrPanic_eq hv (by omega) (le_refl _) hsize
  rw [Nat.sub_self,List.drop_zero] at hall
  have hpos : 0 < (weightedAvgTipBlocks b).1 ∧ 0 < (weightedAvgTipBlocks b).2 := by
    unfold weightedAvgTipBlocks
    split <;> simp
  obtain ⟨hlow,hhigh⟩ := maxDiff_fst hc b
  have hdiv : divisor (c.maxDiff b).1 = .ok () := by
    apply divisor_ok
    rw [Nat.mod_eq_of_lt hhigh]
    omega
  have htiming : (if p.fUsesHeader then .ok (F.ofInt 0,F.ofInt 0)
      else filterTimingOrPanic F
        ((F.sort (newestPoints p.nTipFilterBlocks b)).map FilterPoint.nBlockTime)) =
      .ok (if p.fUsesHeader then (F.ofInt 0,F.ofInt 0) else F.filterTiming
        ((F.sort (newestPoints p.nTipFilterBlocks b)).map FilterPoint.nBlockTime)) := by
    cases p.fUsesHeader with
    | true => rfl
    | false =>
      apply filterTimingOrPanic_eq
      intro hnil
      have hz := congrArg List.length hnil
      rw [List.length_map,hv,List.length_nil] at hz
      omega
  unfold setTipFilterOrPanic
  simp only [hlen,beq_self_eq_true,assert_true,bind,Except.bind,hall]
  by_cases hup : (weightedAvgTipBlocks b).1 ≤ p.nTipFilterBlocks
  · have hdiff := weightedDiffOrPanic_eq hv hpos.1 hup (by omega)
    simp only [decide_eq_true hup,assert_true,hdiff]
    by_cases hdown : (weightedAvgTipBlocks b).2 ≤ p.nTipFilterBlocks
    · have hdiff' := weightedDiffOrPanic_eq hv hpos.2 hdown (by omega)
      have hwindows : ¬(p.nTipFilterBlocks < (weightedAvgTipBlocks b).1 ∨
          p.nTipFilterBlocks < (weightedAvgTipBlocks b).2) := by omega
      simp only [decide_eq_true hdown,assert_true,hdiff',hdiv,htiming]
      rw [if_neg hwindows]
      rfl
    · simp only [decide_eq_false hdown,assert_false]
      rw [if_pos (by omega)]
  · simp only [decide_eq_false hup,assert_false]
    rw [if_pos (by omega)]

/-- The filter step stops the process exactly where the plain model has no result. -/
theorem updateIndexTipFilterOrPanic_eq (hsort : ∀ points, (F.sort points).Perm points)
    (hsize : p.nTipFilterBlocks < 2^31) (hc : c.nMaxDiffIncrease < 2^32) (b : CBlockIndex) :
    c.updateIndexTipFilterOrPanic F p b = ofPlain (c.updateIndexTipFilter F p b) := by
  unfold updateIndexTipFilterOrPanic updateIndexTipFilter
  by_cases hn : b.nHeight < p.nTipFilterBlocks
  · rw [if_pos hn,if_pos hn]
    rfl
  · rw [if_neg hn,if_neg hn]
    simp only
    split
    · rfl
    · have hc₀ : { c with nLastCalculationTime := 0 }.nMaxDiffIncrease < 2^32 := hc
      rw [setTipFilterOrPanic_eq hsort hsize hc₀ (not_lt.mp hn)]
      split <;> rfl

/-- What the filter step leaves. -/
theorem Intact.updateIndexTipFilter (h : Intact p c) (hsort : ∀ points, (F.sort points).Perm points)
    {r : Bool} {c' : PidController D} (hr : c.updateIndexTipFilter F p b = some (r,c')) :
    Intact p c' ∧ r = decide (p.nTipFilterBlocks ≤ b.nHeight) := by
  unfold PidController.updateIndexTipFilter at hr
  by_cases hn : b.nHeight < p.nTipFilterBlocks
  · simp only [if_pos hn,Option.some.injEq,Prod.mk.injEq] at hr
    obtain ⟨rfl,rfl⟩ := hr
    exact ⟨h,(decide_eq_false (not_le.mpr hn)).symm⟩
  · have hle := not_lt.mp hn
    simp only [if_neg hn] at hr
    split at hr
    · simp only [Option.some.injEq,Prod.mk.injEq] at hr
      obtain ⟨rfl,rfl⟩ := hr
      exact ⟨⟨h.points,h.fits,h.unset,h.increase⟩,(decide_eq_true hle).symm⟩
    · split at hr
      · contradiction
      · rename_i hwindows
        simp only [Option.some.injEq,Prod.mk.injEq] at hr
        obtain ⟨rfl,rfl⟩ := hr
        refine ⟨⟨fun _ => ?_,fun _ => ?_,nofun,?_⟩,(decide_eq_true hle).symm⟩
        · simp [setTipFilter,(hsort _).length_eq,length_newestPoints hle]
        · simp only [not_or,not_lt] at hwindows
          exact (filterSize_iff hle).mp hwindows
        · exact (maxDiff_fst h.increase b).2

theorem Intact.updateIndexTipFilter_isSome (h : Intact p c) (b : CBlockIndex) :
    (c.updateIndexTipFilter F p b).isSome = true ↔ FitsHeight p.nTipFilterBlocks b.nHeight := by
  unfold PidController.updateIndexTipFilter
  by_cases hn : b.nHeight < p.nTipFilterBlocks
  · simp [hn,FitsHeight]
  · have hfits := @filterSize_iff D p b (not_lt.mp hn)
    simp only [if_neg hn]
    split
    · rename_i hkey
      simp only [Bool.and_eq_true,beq_iff_eq] at hkey
      have hset := h.fits hkey.1
      rw [hkey.2] at hset
      simp [hset]
    · rw [← hfits]
      unfold FilterSize
      split
      · simp only [Option.isSome_none,Bool.false_eq_true,false_iff]
        omega
      · simp only [Option.isSome_some,true_iff]
        omega

theorem Intact.calcBlockTimeErrorsOrPanic_eq (h : Intact p c) (nTime : Int) :
    c.calcBlockTimeErrorsOrPanic F p nTime = .ok (c.calcBlockTimeErrors F p nTime) := by
  unfold calcBlockTimeErrorsOrPanic calcBlockTimeErrors
  split
  · rename_i hset
    split
    · have hne : insertTime nTime (c.vIndexTipFilter.map FilterPoint.nBlockTime) ≠ [] := by
        intro hnil
        have hlen := congrArg List.length hnil
        simp [length_insertTime] at hlen
      rw [filterWithHeader_eq (h.points hset)]
      simp only [bind,Except.bind,filterTimingOrPanic_eq hne]
      rfl
    · rfl
  · rfl

theorem Intact.setBlockTimeErrorOrPanic_eq (h : Intact p c)
    (hsort : ∀ points, (F.sort points).Perm points) (hsize : p.nTipFilterBlocks < 2^31)
    (b : CBlockIndex) (nTime : Int) :
    c.setBlockTimeErrorOrPanic F p b nTime = ofPlain (c.setBlockTimeError F p b nTime) := by
  unfold setBlockTimeErrorOrPanic setBlockTimeError
  rw [updateIndexTipFilterOrPanic_eq hsort hsize h.increase]
  cases hfilter : c.updateIndexTipFilter F p b with
  | none => rfl
  | some q =>
    obtain ⟨r,c₁⟩ := q
    have h₁ := (h.updateIndexTipFilter hsort hfilter).1
    cases r with
    | false => rfl
    | true =>
      simp only [ofPlain,bind,Except.bind,Option.bind,if_true,h₁.calcBlockTimeErrorsOrPanic_eq]
      rfl

theorem Intact.of_filter {c' : PidController D} (h : Intact p c)
    (hset : c'.fTipFilterInitialized = c.fTipFilterInitialized)
    (hpoints : c'.vIndexTipFilter = c.vIndexTipFilter)
    (hheight : c'.nIndexFilterHeight = c.nIndexFilterHeight)
    (hinc : c'.nMaxDiffIncrease = c.nMaxDiffIncrease) : Intact p c' := by
  refine ⟨?_,?_,?_,?_⟩
  · rw [hset,hpoints]
    exact h.points
  · rw [hset,hheight]
    exact h.fits
  · rw [hset,hheight]
    exact h.unset
  · rw [hinc]
    exact h.increase

theorem Intact.chargeIntegrator (h : Intact p c) (b : CBlockIndex) :
    Intact p (c.chargeIntegrator F b).2 := by
  unfold PidController.chargeIntegrator
  split
  · exact h
  · split
    · exact h
    · exact h.of_filter rfl rfl rfl rfl

/-- The time step after the filter: it returns true where the filter does. -/
theorem Intact.setBlockTimeError (h : Intact p c) (hsort : ∀ points, (F.sort points).Perm points)
    {r : Bool} {c' : PidController D} (hr : c.setBlockTimeError F p b nTime = some (r,c')) :
    Intact p c' ∧ (r = true → p.nTipFilterBlocks ≤ b.nHeight) := by
  unfold PidController.setBlockTimeError at hr
  obtain ⟨⟨ready,c₁⟩,hfilter,hset⟩ := Option.bind_eq_some_iff.mp hr
  obtain ⟨h₁,hready⟩ := h.updateIndexTipFilter hsort hfilter
  cases ready with
  | false =>
    simp only [Bool.false_eq_true,if_false,Option.some.injEq,Prod.mk.injEq] at hset
    obtain ⟨rfl,rfl⟩ := hset
    exact ⟨h₁,nofun⟩
  | true =>
    simp only [if_true,Option.some.injEq,Prod.mk.injEq] at hset
    obtain ⟨x,y,hxy⟩ := @calcBlockTimeErrors_eq D F p c₁ nTime
    rw [hxy] at hset
    obtain ⟨-,rfl⟩ := hset
    exact ⟨h₁.of_filter rfl rfl rfl rfl,fun _ => of_decide_eq_true hready.symm⟩

theorem switchGains_intact (h : Intact p c) (b : CBlockIndex) : Intact p (c.switchGains F b) := by
  unfold switchGains
  split
  · exact h.of_filter rfl rfl rfl rfl
  · exact h

/-- With two blocks below it, the limits read no null pointer. -/
theorem limitOutputDifficultyChange_isSome (c : PidController D) (x : Uint256) (h : 2 ≤ b.nHeight) :
    (c.limitOutputDifficultyChange p x b).isSome = true := by
  cases b with
  | genesis d => simp [CBlockIndex.nHeight] at h
  | child d q =>
    cases q with
    | genesis d' => simp [CBlockIndex.nHeight] at h
    | child d' q' => rfl

theorem Intact.updateOutputOrPanic_eq (h : Intact p c)
    (hsort : ∀ points, (F.sort points).Perm points) (hsize : p.nTipFilterBlocks < 2^31)
    (b : CBlockIndex) (pBlockHeader : CBlockHeader) :
    c.updateOutputOrPanic F p b pBlockHeader = ofPlain (c.updateOutput F p b pBlockHeader) := by
  unfold updateOutputOrPanic updateOutput updateOutputAt
  simp only
  split
  · rw [chargeIntegratorOrPanic_eq]
    have h₁ := h.chargeIntegrator (F := F) b
    cases hcharge : c.chargeIntegrator F b with
    | mk charged c₁ =>
      rw [hcharge] at h₁
      cases charged with
      | false => rfl
      | true =>
        simp only [bind,Except.bind,if_true,h₁.setBlockTimeErrorOrPanic_eq hsort hsize]
        cases hset : c₁.setBlockTimeError F p b pBlockHeader.nTime.toNat with
        | none => rfl
        | some q =>
          obtain ⟨r,c₂⟩ := q
          cases r with
          | false => rfl
          | true =>
            have hn := (h₁.setBlockTimeError hsort hset).2 rfl
            have h5 := p.five_le
            obtain ⟨x,hx⟩ := Option.isSome_iff_exists.mp
              (@limitOutputDifficultyChange_isSome D p b (c₂.switchGains F b)
                ((c₂.switchGains F b).targetBeforeLimits F) (by omega))
            simp only [ofPlain,Option.bind,if_true,hx,deref_some]
            rfl
  · rfl

theorem Intact.updateOutput (h : Intact p c) (hsort : ∀ points, (F.sort points).Perm points)
    {pBlockHeader : CBlockHeader} {r : Bool} {c' : PidController D}
    (hr : c.updateOutput F p b pBlockHeader = some (r,c')) : Intact p c' := by
  unfold PidController.updateOutput updateOutputAt at hr
  split at hr
  · have h₁ := h.chargeIntegrator (F := F) b
    cases hcharge : c.chargeIntegrator F b with
    | mk charged c₁ =>
      rw [hcharge] at h₁ hr
      cases charged with
      | false =>
        simp only [Option.some.injEq,Prod.mk.injEq] at hr
        obtain ⟨-,rfl⟩ := hr
        exact h₁.of_filter rfl rfl rfl rfl
      | true =>
        obtain ⟨⟨r₂,c₂⟩,hset,hr⟩ := Option.bind_eq_some_iff.mp hr
        have h₂ := (h₁.setBlockTimeError hsort hset).1
        cases r₂ with
        | false =>
          simp only [Bool.false_eq_true,if_false,Option.some.injEq,Prod.mk.injEq] at hr
          obtain ⟨-,rfl⟩ := hr
          exact h₂.of_filter rfl rfl rfl rfl
        | true =>
          simp only [if_true] at hr
          obtain ⟨x,-,hr⟩ := Option.bind_eq_some_iff.mp hr
          simp only [Option.some.injEq,Prod.mk.injEq] at hr
          obtain ⟨-,rfl⟩ := hr
          exact (switchGains_intact h₂ b).of_filter rfl rfl rfl rfl
  · simp only [Option.some.injEq,Prod.mk.injEq] at hr
    obtain ⟨-,rfl⟩ := hr
    exact h

/-- No result is needed only of a block the filter was set for, and there it fits. -/
theorem Intact.fits_of_not_required (h : Intact p c) (hreq : c.isPidUpdateRequired b nTime = false) :
    FitsHeight p.nTipFilterBlocks b.nHeight := by
  have h5 := p.five_le
  unfold isPidUpdateRequired at hreq
  simp only [Bool.or_eq_false_iff,bne_eq_false_iff_eq] at hreq
  rw [← hreq.2]
  cases hset : c.fTipFilterInitialized with
  | true => exact h.fits hset
  | false =>
    rw [h.unset hset]
    exact .inl (by omega)

theorem Intact.updateOutput_isSome (h : Intact p c) (b : CBlockIndex)
    (pBlockHeader : CBlockHeader) :
    (c.updateOutput F p b pBlockHeader).isSome = true ↔
      FitsHeight p.nTipFilterBlocks b.nHeight := by
  have h5 := p.five_le
  unfold PidController.updateOutput
  cases hreq : c.isPidUpdateRequired b pBlockHeader.nTime.toNat with
  | false =>
    have hfits := h.fits_of_not_required hreq
    unfold updateOutputAt
    simp [hreq,hfits]
  | true =>
    rcases Nat.lt_or_ge b.nHeight p.nTipFilterBlocks with hlow | hn
    · simp [updateOutputAt_low hreq hlow,FitsHeight,hlow]
    · have hz : b.nHeight ≠ 0 := by omega
      obtain ⟨pprev,hp⟩ := Option.ne_none_iff_exists'.mp (pprev_ne_none hz)
      have h₁ := h.chargeIntegrator (F := F) b
      rw [updateOutputAt_high hreq hp,← h₁.updateIndexTipFilter_isSome (F := F) b]
      cases hset : (c.chargeIntegrator F b).2.setBlockTimeError F p b pBlockHeader.nTime.toNat with
      | none => simp [setBlockTimeError_eq_none.mp hset]
      | some q =>
        obtain ⟨r,c₂⟩ := q
        have hfilter : (c.chargeIntegrator F b).2.updateIndexTipFilter F p b ≠ none := by
          intro hnone
          rw [setBlockTimeError_eq_none.mpr hnone] at hset
          contradiction
        have hlimit := @limitOutputDifficultyChange_isSome D p b (c₂.switchGains F b)
          ((c₂.switchGains F b).targetBeforeLimits F) (by omega)
        obtain ⟨x,hx⟩ := Option.isSome_iff_exists.mp hlimit
        cases r <;> simp [hx,Option.isSome_iff_ne_none.mpr hfilter]

end PidController

/-- The block that a call sets the filter to fits it. -/
def PidCall.Fits (nTipFilterBlocks : Nat) : PidCall → Prop
  | chargeIntegrator _ => True
  | updateIndexTipFilter pIndex => FitsHeight nTipFilterBlocks pIndex.nHeight
  | updateOutput pIndex _ => FitsHeight nTipFilterBlocks pIndex.nHeight

namespace PidController
variable {D : Type} {F : Platform D} {p : PidParams D} {c : PidController D}

theorem Intact.applyOrPanic_eq (h : Intact p c) (hsort : ∀ points, (F.sort points).Perm points)
    (hsize : p.nTipFilterBlocks < 2^31) (call : PidCall) :
    call.applyOrPanic F p c = ofPlain (call.apply F p c) := by
  cases call with
  | chargeIntegrator b =>
    simp only [PidCall.applyOrPanic,chargeIntegratorOrPanic_eq]
    rfl
  | updateIndexTipFilter b =>
    simp only [PidCall.applyOrPanic,updateIndexTipFilterOrPanic_eq hsort hsize h.increase,
      ofPlain_map]
    rfl
  | updateOutput b header =>
    simp only [PidCall.applyOrPanic,h.updateOutputOrPanic_eq hsort hsize,ofPlain_map]
    rfl

theorem Intact.apply (h : Intact p c) (hsort : ∀ points, (F.sort points).Perm points)
    {call : PidCall} {c' : PidController D} (hc : call.apply F p c = some c') : Intact p c' := by
  cases call with
  | chargeIntegrator b =>
    simp only [PidCall.apply,Option.some.injEq] at hc
    subst hc
    exact h.chargeIntegrator b
  | updateIndexTipFilter b =>
    obtain ⟨⟨r,c₁⟩,hr,rfl⟩ := Option.map_eq_some_iff.mp hc
    exact (h.updateIndexTipFilter hsort hr).1
  | updateOutput b header =>
    obtain ⟨⟨r,c₁⟩,hr,rfl⟩ := Option.map_eq_some_iff.mp hc
    exact h.updateOutput hsort hr

theorem Intact.apply_isSome (h : Intact p c) (call : PidCall) :
    (call.apply F p c).isSome = true ↔ call.Fits p.nTipFilterBlocks := by
  cases call with
  | chargeIntegrator b => simp [PidCall.apply,PidCall.Fits]
  | updateIndexTipFilter b =>
    simp only [PidCall.apply,Option.isSome_map]
    exact h.updateIndexTipFilter_isSome b
  | updateOutput b header =>
    simp only [PidCall.apply,Option.isSome_map]
    exact h.updateOutput_isSome b header

/-- A whole run stops the process exactly where the plain model has no result. -/
theorem Intact.runOrPanic_eq (h : Intact p c) (hsort : ∀ points, (F.sort points).Perm points)
    (hsize : p.nTipFilterBlocks < 2^31) (calls : List PidCall) :
    pidRunOrPanic F p c calls = ofPlain (pidRun F p c calls) := by
  induction calls generalizing c with
  | nil => rfl
  | cons call rest ih =>
    unfold pidRunOrPanic pidRun
    rw [h.applyOrPanic_eq hsort hsize]
    cases hcall : call.apply F p c with
    | none => rfl
    | some c₁ => exact ih (h.apply hsort hcall)

theorem Intact.pidRun (h : Intact p c) (hsort : ∀ points, (F.sort points).Perm points)
    {calls : List PidCall} {c' : PidController D} (hc : pidRun F p c calls = some c') :
    Intact p c' := by
  induction calls generalizing c with
  | nil =>
    simp only [Anoncoin.pidRun,Option.some.injEq] at hc
    subst hc
    exact h
  | cons call rest ih =>
    obtain ⟨c₁,hcall,hrest⟩ := Option.bind_eq_some_iff.mp hc
    exact ih (h.apply hsort hcall) hrest

theorem Intact.runOrPanic (h : Intact p c) (hsort : ∀ points, (F.sort points).Perm points)
    (hsize : p.nTipFilterBlocks < 2^31) {calls : List PidCall} {c' : PidController D}
    (hrun : pidRunOrPanic F p c calls = .ok c') : Intact p c' := by
  rw [h.runOrPanic_eq hsort hsize] at hrun
  cases hc : Anoncoin.pidRun F p c calls with
  | none => simp [hc,ofPlain] at hrun
  | some c₁ =>
    simp only [hc,ofPlain,Except.ok.injEq] at hrun
    subst hrun
    exact h.pidRun hsort hc

/-- A run comes to its end exactly when every call of it fits. -/
theorem pidRunOrPanic_ok_iff (hsort : ∀ points, (F.sort points).Perm points)
    (hsize : p.nTipFilterBlocks < 2^31) (h : Intact p c) (calls : List PidCall) :
    (∃ c', pidRunOrPanic F p c calls = .ok c') ↔
      ∀ call ∈ calls, call.Fits p.nTipFilterBlocks := by
  rw [h.runOrPanic_eq hsort hsize,exists_ofPlain]
  induction calls generalizing c with
  | nil => simp [Anoncoin.pidRun]
  | cons call rest ih =>
    simp only [Anoncoin.pidRun,List.mem_cons,forall_eq_or_imp,← h.apply_isSome (F := F) call]
    cases hcall : call.apply F p c with
    | none => simp
    | some c₁ =>
      simp only [Option.bind_some,Option.isSome_some,true_and]
      exact ih (h.apply hsort hcall)

/-- After any run, `UpdateOutput` fails no assertion, reads no null pointer, no element out
of range and divides by no zero exactly when the filter fits the height of the block. -/
theorem updateOutput_panic_free_iff (hsort : ∀ points, (F.sort points).Perm points)
    (hsize : p.nTipFilterBlocks < 2^31) (hincrease : p.nMaxDiffIncrease < 2^32)
    {calls : List PidCall} (hrun : pidRunOrPanic F p (new F p) calls = .ok c)
    (pIndex : CBlockIndex) (pBlockHeader : CBlockHeader) :
    (∃ r, c.updateOutputOrPanic F p pIndex pBlockHeader = .ok r) ↔
      FitsHeight p.nTipFilterBlocks pIndex.nHeight := by
  have h := (intact_new hincrease).runOrPanic hsort hsize hrun
  rw [h.updateOutputOrPanic_eq hsort hsize,exists_ofPlain]
  exact h.updateOutput_isSome pIndex pBlockHeader

theorem ratPlatform_sort_perm (points : List FilterPoint) :
    (ratPlatform.sort points).Perm points :=
  List.perm_insertionSort _ points

theorem updateOutput_panic_free_even :
    ∃ c r, pidRunOrPanic ratPlatform mainPidParams (new ratPlatform mainPidParams) evenCalls =
        .ok c ∧
      c.updateOutputOrPanic ratPlatform mainPidParams (evenChain 0x1d00ffff 22) (evenHeader 23) =
        .ok r := by
  have hfits : ∀ call ∈ evenCalls, call.Fits mainPidParams.nTipFilterBlocks := by
    intro call hcall
    simp only [evenCalls,List.mem_cons,List.not_mem_nil,or_false] at hcall
    rcases hcall with rfl | rfl | rfl | rfl
    · trivial
    · exact .inr (by decide +kernel)
    · exact .inr (by decide +kernel)
    · exact .inr (by decide +kernel)
  have hincrease : mainPidParams.nMaxDiffIncrease < 2^32 := by decide
  have hsize : mainPidParams.nTipFilterBlocks < 2^31 := by decide
  obtain ⟨c,hrun⟩ := (pidRunOrPanic_ok_iff ratPlatform_sort_perm hsize (intact_new hincrease)
    evenCalls).mpr hfits
  obtain ⟨r,hr⟩ := (updateOutput_panic_free_iff ratPlatform_sort_perm hsize hincrease hrun
    (evenChain 0x1d00ffff 22) (evenHeader 23)).mpr (by decide +kernel)
  exact ⟨c,r,hrun,hr⟩

/-- A test network with a filter of five blocks, as the constructor admits. -/
def smallPidParams : PidParams Rat :=
  { mainPidParams with
    nMaxDiffIncrease := 101
    nMaxDiffDecrease := 101
    nTipFilterBlocks := 5
    five_le := le_refl 5 }

theorem updateOutput_small_filter_asserts :
    (new ratPlatform smallPidParams).updateOutputOrPanic ratPlatform smallPidParams
      (evenChain 0x1e0ffff0 5) (evenHeader 6) = .error .assertion := by
  have h : Intact smallPidParams (new ratPlatform smallPidParams) := intact_new (by decide)
  have hsome := h.updateOutput_isSome (F := ratPlatform) (evenChain 0x1e0ffff0 5) (evenHeader 6)
  have hfits : ¬FitsHeight smallPidParams.nTipFilterBlocks (evenChain 0x1e0ffff0 5).nHeight := by
    decide +kernel
  rw [h.updateOutputOrPanic_eq ratPlatform_sort_perm (by decide)]
  cases hr : (new ratPlatform smallPidParams).updateOutput ratPlatform smallPidParams
      (evenChain 0x1e0ffff0 5) (evenHeader 6) with
  | none => rfl
  | some r =>
    rw [hr] at hsome
    exact absurd (hsome.mp rfl) hfits

end PidController

end Anoncoin
