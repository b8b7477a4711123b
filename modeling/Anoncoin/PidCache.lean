import Mathlib.Data.List.Sort
import Anoncoin.Pid

/-!
What the caches of the retarget controller stand for. The controller remembers heights;
here the blocks behind these heights are recorded along a run, and a call gives what a
new controller would give when each cache it uses stands for its own block.
-/

set_option autoImplicit false

namespace Anoncoin

inductive PidCall where
  | chargeIntegrator (pIndex : CBlockIndex)
  | updateIndexTipFilter (pIndex : CBlockIndex)
  | updateOutput (pIndex : CBlockIndex) (pBlockHeader : CBlockHeader)

section Calls
variable {D : Type} (F : Platform D) (p : PidParams D)

/-- The controller after a call; no result means that the call did not return. -/
def PidCall.apply (c : PidController D) : PidCall → Option (PidController D)
  | chargeIntegrator pIndex => some (c.chargeIntegrator F pIndex).2
  | updateIndexTipFilter pIndex => (c.updateIndexTipFilter F p pIndex).map Prod.snd
  | updateOutput pIndex pBlockHeader => (c.updateOutput F p pIndex pBlockHeader).map Prod.snd

def pidRun (c : PidController D) : List PidCall → Option (PidController D)
  | [] => some c
  | call :: rest => (call.apply F p c).bind fun c => pidRun c rest

end Calls

/-- The block for which each cache was filled, with a mark when that was after the switch
of the gains or of the limits; the key of the last calculation; and the last arguments of
`UpdateOutput`. -/
structure CacheBook where
  charged : Option (CBlockIndex × Bool)
  filtered : Option (CBlockIndex × Bool)
  gainsSwitched : Bool
  limitsSwitched : Bool
  lastTime : Int
  lastOutput : Option (CBlockIndex × Int)

namespace CacheBook

def empty : CacheBook := ⟨none,none,false,false,0,none⟩

def heightOf (x : Option (CBlockIndex × Bool)) : Nat := (x.map fun a => a.1.nHeight).getD 0

def required (k : CacheBook) (b : CBlockIndex) (nTime : Int) : Bool :=
  heightOf k.charged != b.nHeight || k.lastTime != nTime || heightOf k.filtered != b.nHeight

def charge (k : CacheBook) (b : CBlockIndex) : CacheBook :=
  if b.pprev.isSome ∧ heightOf k.charged ≠ b.nHeight then
    { k with charged := some (b,k.gainsSwitched) }
  else k

def filter (n : Nat) (k : CacheBook) (b : CBlockIndex) : CacheBook :=
  if b.nHeight < n then k
  else if k.filtered.isSome ∧ heightOf k.filtered = b.nHeight then { k with lastTime := 0 }
  else { k with
    lastTime := 0
    filtered := some (b,k.limitsSwitched)
    limitsSwitched := k.limitsSwitched || decide (nDifficultySwitchHeight5 < b.nHeight) }

def calculate (n : Nat) (k : CacheBook) (b : CBlockIndex) (nTime : Int) : CacheBook :=
  if b.pprev = none then k
  else if b.nHeight < n then k.charge b
  else
    let k := (k.charge b).filter n b
    { k with
      lastTime := nTime
      gainsSwitched := k.gainsSwitched || decide (nDifficultySwitchHeight5 < b.nHeight) }

def output (n : Nat) (k : CacheBook) (b : CBlockIndex) (nTime : Int) : CacheBook :=
  { (if k.required b nTime then k.calculate n b nTime else k) with lastOutput := some (b,nTime) }

def note (n : Nat) (k : CacheBook) : PidCall → CacheBook
  | .chargeIntegrator b => k.charge b
  | .updateIndexTipFilter b => k.filter n b
  | .updateOutput b h => k.output n b h.nTime.toNat

def notes (n : Nat) (k : CacheBook) (calls : List PidCall) : CacheBook := calls.foldl (note n) k

end CacheBook

/-- The caches that a call of `UpdateOutput` uses stand for its block: the integrator was or
is charged for this block with the constructor's integration time, the filter was or is
set to this block with its limits, the gains are those of the block's height, and a
result is reused only when the last call was the same. -/
structure CachesFit (n : Nat) (k : CacheBook) (b : CBlockIndex) (nTime : Int) : Prop where
  notNull : b.nHeight ≠ 0 ∨ nTime ≠ 0
  reuse : k.required b nTime = false → k.lastOutput = some (b,nTime)
  integrator : k.required b nTime = true → n ≤ b.nHeight → (k.charge b).charged = some (b,false)
  tipFilter : k.required b nTime = true → n ≤ b.nHeight →
    ∃ late, (k.filter n b).filtered = some (b,late) ∧
      (nDifficultySwitchHeight5 < b.nHeight ∨ late = false)
  gains : k.required b nTime = true → n ≤ b.nHeight →
    nDifficultySwitchHeight5 < b.nHeight ∨ k.gainsSwitched = false

/-- Every call of `UpdateOutput` in the run finds the caches fitting. -/
def RunFits (n : Nat) (k : CacheBook) : List PidCall → Prop
  | [] => True
  | call :: rest => (match call with
      | .updateOutput b h => CachesFit n k b h.nTime.toNat
      | _ => True) ∧ RunFits n (k.note n call) rest

namespace PidController
variable {D : Type} {F : Platform D} {p : PidParams D} {k : CacheBook} {c : PidController D}
  {b : CBlockIndex} {nTime : Int}

/-- The two controllers hold the same tip filter. -/
structure SameFilter (p : PidParams D) (c c' : PidController D) : Prop where
  points : c.vIndexTipFilter = c'.vIndexTipFilter
  calculated : c.uintPrevDiffCalculated = c'.uintPrevDiffCalculated
  last : c.uintPrevDiffForLimitsLast = c'.uintPrevDiffForLimitsLast
  increaseTip : c.uintDiffAtMaxIncreaseTip = c'.uintDiffAtMaxIncreaseTip
  decreaseLast : c.uintDiffAtMaxDecreaseLast = c'.uintDiffAtMaxDecreaseLast
  decreaseTip : c.uintDiffAtMaxDecreaseTip = c'.uintDiffAtMaxDecreaseTip
  timing : p.fUsesHeader = false →
    c.dSpacingError = c'.dSpacingError ∧ c.dRateOfChange = c'.dRateOfChange

/-- The filter has enough points for the averages. -/
def FilterSize (p : PidParams D) (b : CBlockIndex) : Prop :=
  (weightedAvgTipBlocks b).1 ≤ p.nTipFilterBlocks ∧ (weightedAvgTipBlocks b).2 ≤ p.nTipFilterBlocks

/-- The state of the controller is what the book says. -/
structure Represents (F : Platform D) (p : PidParams D) (k : CacheBook) (c : PidController D) :
    Prop where
  integratorHeight : c.nIntegratorHeight = CacheBook.heightOf k.charged
  filterHeight : c.nIndexFilterHeight = CacheBook.heightOf k.filtered
  initialized : c.fTipFilterInitialized = k.filtered.isSome
  lastTime : c.nLastCalculationTime = k.lastTime
  gains : k.gainsSwitched = false → c.dProportionalGain = p.dProportionalGain ∧
    c.nIntegrationTime = p.nIntegrationTime ∧ c.dIntegratorGain = p.dIntegratorGain ∧
    c.dDerivativeGain = p.dDerivativeGain
  limits : k.limitsSwitched = false → ∀ b, c.maxDiff b = (new F p).maxDiff b
  integrator : ∀ b pprev, k.charged = some (b,false) → b.pprev = some pprev →
    c.dIntegratorBlockTime = F.integratorBlockTime p.nIntegrationTime b pprev
  filterSize : ∀ b late, k.filtered = some (b,late) → p.nTipFilterBlocks ≤ b.nHeight ∧
    FilterSize p b
  tipFilter : ∀ b late, k.filtered = some (b,late) →
    nDifficultySwitchHeight5 < b.nHeight ∨ late = false →
    SameFilter p c ((new F p).setTipFilter F p b)
  output : ∀ b nTime, k.lastOutput = some (b,nTime) →
    ((new F p).updateOutputAt F p b nTime).map (fun r => r.2.uintTargetAfterLimits) =
      some c.uintTargetAfterLimits

theorem represents_new : Represents F p .empty (new F p) := by
  constructor <;> simp [CacheBook.empty,CacheBook.heightOf,new]

theorem Represents.required (h : Represents F p k c) (b : CBlockIndex) (nTime : Int) :
    c.isPidUpdateRequired b nTime = k.required b nTime := by
  unfold isPidUpdateRequired CacheBook.required
  rw [h.integratorHeight,h.filterHeight,h.lastTime]

theorem nHeight_ne_zero {pprev : CBlockIndex} (h : b.pprev = some pprev) : b.nHeight ≠ 0 := by
  cases b with
  | genesis d => simp [CBlockIndex.pprev] at h
  | child d p => simp [CBlockIndex.nHeight]

/-- The book notes a charge exactly when the controller makes one. -/
theorem charge_cases (F : Platform D) (hheight : c.nIntegratorHeight = CacheBook.heightOf k.charged)
    (b : CBlockIndex) : (k.charge b = k ∧ (c.chargeIntegrator F b).2 = c) ∨
      ∃ pprev, b.pprev = some pprev ∧ k.charge b = { k with charged := some (b,k.gainsSwitched) } ∧
        (c.chargeIntegrator F b).2 = { c with
          nIntegratorHeight := b.nHeight
          dIntegratorBlockTime := F.integratorBlockTime c.nIntegrationTime b pprev } := by
  unfold chargeIntegrator CacheBook.charge
  cases hp : b.pprev with
  | none => exact .inl ⟨by simp,rfl⟩
  | some pprev =>
    simp only [Option.isSome_some,true_and,← hheight]
    by_cases hh : c.nIntegratorHeight = b.nHeight
    · exact .inl (by simp [hh])
    · exact .inr ⟨pprev,rfl,by simp [hh],by simp [hh]⟩

/-- The controller keeps its filter exactly when the book does. -/
theorem sameHeight_iff (hinitialized : c.fTipFilterInitialized = k.filtered.isSome)
    (hheight : c.nIndexFilterHeight = CacheBook.heightOf k.filtered) (b : CBlockIndex) :
    (c.fTipFilterInitialized && c.nIndexFilterHeight == b.nHeight) = true ↔
      (k.filtered.isSome = true ∧ CacheBook.heightOf k.filtered = b.nHeight) := by
  rw [hinitialized,hheight]
  simp

theorem Represents.charge (h : Represents F p k c) (b : CBlockIndex) :
    Represents F p (k.charge b) (c.chargeIntegrator F b).2 := by
  obtain ⟨hk,hc⟩ | ⟨pprev,hp,hk,hc⟩ := charge_cases F h.integratorHeight b
  · rw [hk,hc]
    exact h
  · rw [hk,hc]
    refine ⟨rfl,h.filterHeight,h.initialized,h.lastTime,h.gains,h.limits,?_,h.filterSize,
      fun b late hf hl => ?_,h.output⟩
    · intro b' pprev' hb' hp'
      simp only [Option.some.injEq,Prod.mk.injEq] at hb'
      obtain ⟨rfl,hlate⟩ := hb'
      rw [hp] at hp'
      obtain rfl := Option.some.inj hp'
      simp only
      rw [(h.gains hlate).2.1]
    · obtain ⟨h₁,h₂,h₃,h₄,h₅,h₆,h₇⟩ := h.tipFilter b late hf hl
      exact ⟨h₁,h₂,h₃,h₄,h₅,h₆,h₇⟩

theorem setTipFilter_same {c' : PidController D} (h : c.maxDiff b = c'.maxDiff b) :
    SameFilter p (c.setTipFilter F p b) (c'.setTipFilter F p b) := by
  constructor <;> simp [setTipFilter,h]

theorem maxDiff_above (c c' : PidController D) (h : nDifficultySwitchHeight5 < b.nHeight) :
    c.maxDiff b = c'.maxDiff b := by
  simp only [maxDiff,if_pos h]

/-- Up to the switch the filter keeps the limits, raised to their minimum. -/
theorem maxDiff_setTipFilter (h : ¬nDifficultySwitchHeight5 < b.nHeight) (b' : CBlockIndex) :
    (c.setTipFilter F p b).maxDiff b' = c.maxDiff b' := by
  by_cases h' : nDifficultySwitchHeight5 < b'.nHeight
  · exact maxDiff_above _ _ h'
  · simp only [maxDiff,setTipFilter,if_neg h,if_neg h',Prod.mk.injEq]
    constructor
    · split <;> simp [*]
    · split <;> simp [*]

theorem Represents.resetTime (h : Represents F p k c) :
    Represents F p { k with lastTime := 0 } { c with nLastCalculationTime := 0 } := by
  refine ⟨h.integratorHeight,h.filterHeight,h.initialized,rfl,h.gains,h.limits,h.integrator,
    h.filterSize,fun b late hf hl => ?_,h.output⟩
  obtain ⟨h₁,h₂,h₃,h₄,h₅,h₆,h₇⟩ := h.tipFilter b late hf hl
  exact ⟨h₁,h₂,h₃,h₄,h₅,h₆,h₇⟩

theorem Represents.setTipFilter (h : Represents F p k c) (hn : p.nTipFilterBlocks ≤ b.nHeight)
    (hsize : FilterSize p b) :
    Represents F p { k with
      filtered := some (b,k.limitsSwitched)
      limitsSwitched := k.limitsSwitched || decide (nDifficultySwitchHeight5 < b.nHeight) }
      (c.setTipFilter F p b) := by
  refine ⟨h.integratorHeight,rfl,rfl,h.lastTime,h.gains,?_,h.integrator,?_,?_,h.output⟩
  · intro hswitch b'
    simp only [Bool.or_eq_false_iff,decide_eq_false_iff_not] at hswitch
    rw [maxDiff_setTipFilter hswitch.2]
    exact h.limits hswitch.1 b'
  · intro b' late hf
    simp only [Option.some.injEq,Prod.mk.injEq] at hf
    obtain ⟨rfl,-⟩ := hf
    exact ⟨hn,hsize⟩
  · intro b' late hf hl
    simp only [Option.some.injEq,Prod.mk.injEq] at hf
    obtain ⟨rfl,rfl⟩ := hf
    apply setTipFilter_same
    rcases hl with hl | hl
    · exact maxDiff_above _ _ hl
    · exact h.limits hl b

/-- What `UpdateIndexTipFilter` returns, and that it keeps the book. -/
theorem Represents.filter (h : Represents F p k c) {r : Bool} {c' : PidController D}
    (hr : c.updateIndexTipFilter F p b = some (r,c')) :
    Represents F p (k.filter p.nTipFilterBlocks b) c' ∧
      r = decide (p.nTipFilterBlocks ≤ b.nHeight) := by
  unfold updateIndexTipFilter at hr
  unfold CacheBook.filter
  by_cases hn : b.nHeight < p.nTipFilterBlocks
  · simp only [if_pos hn,Option.some.injEq,Prod.mk.injEq] at hr
    obtain ⟨rfl,rfl⟩ := hr
    rw [if_pos hn,decide_eq_false (not_le.mpr hn)]
    exact ⟨h,rfl⟩
  · simp only [if_neg hn] at hr
    rw [if_neg hn,decide_eq_true (not_lt.mp hn)]
    have hkey := sameHeight_iff h.initialized h.filterHeight b
    by_cases hsame : k.filtered.isSome = true ∧ CacheBook.heightOf k.filtered = b.nHeight
    · rw [if_pos hsame]
      rw [if_pos (hkey.mpr hsame),Option.some.injEq,Prod.mk.injEq] at hr
      obtain ⟨rfl,rfl⟩ := hr
      exact ⟨h.resetTime,rfl⟩
    · rw [if_neg hsame]
      rw [if_neg (hkey.not.mpr hsame)] at hr
      split at hr
      · contradiction
      · rename_i hsize
        simp only [not_or,not_lt] at hsize
        simp only [Option.some.injEq,Prod.mk.injEq] at hr
        obtain ⟨rfl,rfl⟩ := hr
        exact ⟨h.resetTime.setTipFilter (not_lt.mp hn) hsize,rfl⟩

/-- What the output is computed from. -/
structure SameInputs (c c' : PidController D) : Prop where
  time : c.nLastCalculationTime = c'.nLastCalculationTime
  integrator : c.dIntegratorBlockTime = c'.dIntegratorBlockTime
  calculated : c.uintPrevDiffCalculated = c'.uintPrevDiffCalculated
  last : c.uintPrevDiffForLimitsLast = c'.uintPrevDiffForLimitsLast
  increaseTip : c.uintDiffAtMaxIncreaseTip = c'.uintDiffAtMaxIncreaseTip
  decreaseLast : c.uintDiffAtMaxDecreaseLast = c'.uintDiffAtMaxDecreaseLast
  decreaseTip : c.uintDiffAtMaxDecreaseTip = c'.uintDiffAtMaxDecreaseTip
  spacing : c.dSpacingError = c'.dSpacingError
  rate : c.dRateOfChange = c'.dRateOfChange
  proportional : c.dProportionalGain = c'.dProportionalGain
  integratorGain : c.dIntegratorGain = c'.dIntegratorGain
  derivative : c.dDerivativeGain = c'.dDerivativeGain

theorem SameInputs.limited {c' : PidController D} (h : SameInputs c c') (b : CBlockIndex) :
    c.limitOutputDifficultyChange p (c.targetBeforeLimits F) b =
      c'.limitOutputDifficultyChange p (c'.targetBeforeLimits F) b := by
  have hbefore : c.targetBeforeLimits F = c'.targetBeforeLimits F := by
    unfold targetBeforeLimits
    rw [h.spacing,h.rate,h.proportional,h.integratorGain,h.derivative,h.integrator,h.calculated]
  rw [hbefore]
  unfold limitOutputDifficultyChange
  rw [h.time,h.last,h.increaseTip,h.decreaseLast,h.decreaseTip]

/-- What the output depends on, as a new controller computes it for a block and a time. -/
structure Calculated (F : Platform D) (p : PidParams D) (b : CBlockIndex) (nTime : Int)
    (c : PidController D) : Prop where
  time : c.nLastCalculationTime = nTime
  integrator : ∀ pprev, b.pprev = some pprev →
    c.dIntegratorBlockTime = F.integratorBlockTime p.nIntegrationTime b pprev
  calculated : c.uintPrevDiffCalculated = ((new F p).setTipFilter F p b).uintPrevDiffCalculated
  last : c.uintPrevDiffForLimitsLast = ((new F p).setTipFilter F p b).uintPrevDiffForLimitsLast
  increaseTip :
    c.uintDiffAtMaxIncreaseTip = ((new F p).setTipFilter F p b).uintDiffAtMaxIncreaseTip
  decreaseLast :
    c.uintDiffAtMaxDecreaseLast = ((new F p).setTipFilter F p b).uintDiffAtMaxDecreaseLast
  decreaseTip :
    c.uintDiffAtMaxDecreaseTip = ((new F p).setTipFilter F p b).uintDiffAtMaxDecreaseTip
  timing : (c.dSpacingError,c.dRateOfChange) = F.filterTiming
    (if p.fUsesHeader then insertTime nTime
      ((F.sort (newestPoints p.nTipFilterBlocks b)).map FilterPoint.nBlockTime)
    else (F.sort (newestPoints p.nTipFilterBlocks b)).map FilterPoint.nBlockTime)
  gains : (c.dProportionalGain,c.dIntegratorGain,c.dDerivativeGain) =
    if nDifficultySwitchHeight5 < b.nHeight then (F.ofLiteral (16/10),F.ofInt 8,F.ofInt 3)
    else (p.dProportionalGain,p.dIntegratorGain,p.dDerivativeGain)

theorem Calculated.sameInputs {c' : PidController D} {pprev : CBlockIndex}
    (h : Calculated F p b nTime c) (h' : Calculated F p b nTime c') (hp : b.pprev = some pprev) :
    SameInputs c c' := by
  have htiming := h.timing.trans h'.timing.symm
  have hgains := h.gains.trans h'.gains.symm
  simp only [Prod.mk.injEq] at htiming hgains
  exact {
    time := h.time.trans h'.time.symm
    integrator := (h.integrator _ hp).trans (h'.integrator _ hp).symm
    calculated := h.calculated.trans h'.calculated.symm
    last := h.last.trans h'.last.symm
    increaseTip := h.increaseTip.trans h'.increaseTip.symm
    decreaseLast := h.decreaseLast.trans h'.decreaseLast.symm
    decreaseTip := h.decreaseTip.trans h'.decreaseTip.symm
    spacing := htiming.1
    rate := htiming.2
    proportional := hgains.1
    integratorGain := hgains.2.1
    derivative := hgains.2.2 }

theorem Calculated.target_eq {c' : PidController D} {pprev : CBlockIndex}
    (h : Calculated F p b nTime c) (h' : Calculated F p b nTime c') (hp : b.pprev = some pprev) :
    c.limitOutputDifficultyChange p (c.targetBeforeLimits F) b =
      c'.limitOutputDifficultyChange p (c'.targetBeforeLimits F) b :=
  (h.sameInputs h' hp).limited b

theorem charge_filtered (k : CacheBook) (b : CBlockIndex) :
    (k.charge b).filtered = k.filtered ∧ (k.charge b).limitsSwitched = k.limitsSwitched ∧
      (k.charge b).gainsSwitched = k.gainsSwitched := by
  unfold CacheBook.charge
  split <;> exact ⟨rfl,rfl,rfl⟩

theorem filter_charged (n : Nat) (k : CacheBook) (b : CBlockIndex) :
    (k.filter n b).charged = k.charged ∧ (k.filter n b).gainsSwitched = k.gainsSwitched := by
  unfold CacheBook.filter
  split
  · exact ⟨rfl,rfl⟩
  · split <;> exact ⟨rfl,rfl⟩

theorem filter_charge_filtered (n : Nat) (k : CacheBook) (b : CBlockIndex) :
    ((k.charge b).filter n b).filtered = (k.filter n b).filtered := by
  obtain ⟨h₁,h₂,-⟩ := charge_filtered k b
  unfold CacheBook.filter
  rw [h₁,h₂]
  split
  · exact h₁
  · split <;> rfl

/-- The filter step fails an assertion exactly when the filter is too small. -/
theorem Represents.filter_eq_none (h : Represents F p k c) (hn : p.nTipFilterBlocks ≤ b.nHeight)
    {late : Bool} (hf : (k.filter p.nTipFilterBlocks b).filtered = some (b,late)) :
    c.updateIndexTipFilter F p b = none ↔ ¬FilterSize p b := by
  unfold updateIndexTipFilter
  simp only [if_neg (not_lt.mpr hn)]
  unfold CacheBook.filter at hf
  rw [if_neg (not_lt.mpr hn)] at hf
  have hkey := sameHeight_iff h.initialized h.filterHeight b
  by_cases hsame : k.filtered.isSome = true ∧ CacheBook.heightOf k.filtered = b.nHeight
  · rw [if_pos hsame] at hf
    rw [if_pos (hkey.mpr hsame)]
    simp [(h.filterSize b late hf).2]
  · rw [if_neg (hkey.not.mpr hsame)]
    unfold FilterSize
    split
    · rename_i hlt
      simp only [true_iff]
      omega
    · rename_i hge
      simp only [reduceCtorEq,false_iff,not_not]
      omega

/-- The time step keeps the book and leaves the timing of the filter and the time. -/
theorem Represents.timing (h : Represents F p k c) {late : Bool}
    (hf : k.filtered = some (b,late)) (hl : nDifficultySwitchHeight5 < b.nHeight ∨ late = false)
    (nTime : Int) :
    (c.calcBlockTimeErrors F p nTime).1 = true ∧
    (c.calcBlockTimeErrors F p nTime).2.vIndexTipFilter = c.vIndexTipFilter ∧
    ((c.calcBlockTimeErrors F p nTime).2.dSpacingError,
      (c.calcBlockTimeErrors F p nTime).2.dRateOfChange) = F.filterTiming
        (if p.fUsesHeader then insertTime nTime
          ((F.sort (newestPoints p.nTipFilterBlocks b)).map FilterPoint.nBlockTime)
        else (F.sort (newestPoints p.nTipFilterBlocks b)).map FilterPoint.nBlockTime) := by
  have hinit : c.fTipFilterInitialized = true := by rw [h.initialized,hf]; rfl
  have hsame := h.tipFilter b late hf hl
  have hpoints : c.vIndexTipFilter = F.sort (newestPoints p.nTipFilterBlocks b) := hsame.points
  unfold calcBlockTimeErrors
  rw [if_pos hinit]
  cases hu : p.fUsesHeader with
  | true =>
    simp only [if_true,hpoints]
    exact ⟨trivial,trivial,trivial⟩
  | false =>
    obtain ⟨h₁,h₂⟩ := hsame.timing hu
    simp only [Bool.false_eq_true,if_false,h₁,h₂]
    refine ⟨trivial,trivial,?_⟩
    simp only [PidController.setTipFilter,hu,Bool.false_eq_true,if_false]

theorem calcBlockTimeErrors_eq (c : PidController D) (nTime : Int) :
    ∃ x y, (c.calcBlockTimeErrors F p nTime).2 = { c with dSpacingError := x, dRateOfChange := y } := by
  unfold calcBlockTimeErrors
  split
  · split
    · exact ⟨_,_,rfl⟩
    · exact ⟨_,_,rfl⟩
  · exact ⟨_,_,rfl⟩

/-- With fitting caches the controller comes to what a new one computes. -/
theorem Represents.calculated (h : Represents F p k c) (hfit : CachesFit p.nTipFilterBlocks k b nTime)
    (hreq : k.required b nTime = true) (hn : p.nTipFilterBlocks ≤ b.nHeight) {r : Bool}
    {c' : PidController D}
    (hr : (c.chargeIntegrator F b).2.setBlockTimeError F p b nTime = some (r,c')) :
    r = true ∧ Calculated F p b nTime (c'.switchGains F b) := by
  have hcharge := h.charge b
  unfold setBlockTimeError at hr
  cases hfilter : (c.chargeIntegrator F b).2.updateIndexTipFilter F p b with
  | none => simp [hfilter] at hr
  | some q =>
    obtain ⟨ready,c₁⟩ := q
    obtain ⟨h₁,hready⟩ := hcharge.filter hfilter
    rw [decide_eq_true hn] at hready
    subst hready
    simp only [hfilter,Option.bind_eq_bind,Option.bind_some,if_true,Option.some.injEq,
      Prod.mk.injEq] at hr
    obtain ⟨hr,hc'⟩ := hr
    obtain ⟨late,hf,hl⟩ := hfit.tipFilter hreq hn
    rw [← filter_charge_filtered] at hf
    obtain ⟨htrue,-,htiming⟩ := h₁.timing hf hl nTime
    obtain ⟨x,y,hxy⟩ := @calcBlockTimeErrors_eq D F p c₁ nTime
    have hsame := h₁.tipFilter b late hf hl
    have hint : ∀ pprev, b.pprev = some pprev →
        c₁.dIntegratorBlockTime = F.integratorBlockTime p.nIntegrationTime b pprev := by
      intro pprev hp
      apply h₁.integrator b pprev _ hp
      rw [(filter_charged _ _ _).1]
      exact hfit.integrator hreq hn
    have hgains : nDifficultySwitchHeight5 < b.nHeight ∨ c₁.dProportionalGain = p.dProportionalGain ∧
        c₁.dIntegratorGain = p.dIntegratorGain ∧ c₁.dDerivativeGain = p.dDerivativeGain := by
      rcases hfit.gains hreq hn with hlt | hg
      · exact .inl hlt
      · have hg' : ((k.charge b).filter p.nTipFilterBlocks b).gainsSwitched = false := by
          rw [(filter_charged _ _ _).2,(charge_filtered k b).2.2]
          exact hg
        obtain ⟨g₁,-,g₂,g₃⟩ := h₁.gains hg'
        exact .inr ⟨g₁,g₂,g₃⟩
    rw [hxy] at htiming hc'
    subst hc'
    refine ⟨by rw [← hr]; exact htrue,?_⟩
    unfold switchGains
    split
    · rename_i hlt
      exact ⟨rfl,hint,hsame.calculated,hsame.last,hsame.increaseTip,hsame.decreaseLast,
        hsame.decreaseTip,htiming,by rw [if_pos hlt]⟩
    · rename_i hle
      rcases hgains with hlt | ⟨g₁,g₂,g₃⟩
      · exact absurd hlt hle
      · exact ⟨rfl,hint,hsame.calculated,hsame.last,hsame.increaseTip,hsame.decreaseLast,
          hsame.decreaseTip,htiming,by rw [if_neg hle,g₁,g₂,g₃]⟩

theorem setBlockTimeError_low (c : PidController D) (hn : b.nHeight < p.nTipFilterBlocks) :
    c.setBlockTimeError F p b nTime = some (false,c) := by
  unfold setBlockTimeError updateIndexTipFilter
  simp [hn]

theorem updateOutputAt_same (hreq : c.isPidUpdateRequired b nTime = false) :
    c.updateOutputAt F p b nTime = some (true,c) := by
  unfold updateOutputAt
  rw [hreq]
  rfl

/-- Without enough blocks the target is the limit. -/
theorem updateOutputAt_low (hreq : c.isPidUpdateRequired b nTime = true)
    (hn : b.nHeight < p.nTipFilterBlocks) :
    c.updateOutputAt F p b nTime =
      some (false,{ (c.chargeIntegrator F b).2 with uintTargetAfterLimits := p.uintPOWlimit }) := by
  unfold updateOutputAt
  rw [if_pos hreq]
  cases hc : c.chargeIntegrator F b with
  | mk r c₁ =>
    cases r with
    | false => rfl
    | true => simp [setBlockTimeError_low c₁ hn]

theorem chargeIntegrator_true {pprev : CBlockIndex} (c : PidController D)
    (hp : b.pprev = some pprev) : (c.chargeIntegrator F b).1 = true := by
  unfold chargeIntegrator
  simp only [hp]
  split <;> rfl

theorem updateOutputAt_high {pprev : CBlockIndex} (hreq : c.isPidUpdateRequired b nTime = true)
    (hp : b.pprev = some pprev) :
    c.updateOutputAt F p b nTime =
      ((c.chargeIntegrator F b).2.setBlockTimeError F p b nTime).bind fun r =>
        if r.1 then
          ((r.2.switchGains F b).limitOutputDifficultyChange p
            ((r.2.switchGains F b).targetBeforeLimits F) b).bind fun target =>
              some (true,{ r.2.switchGains F b with uintTargetAfterLimits := target })
        else some (false,{ r.2 with uintTargetAfterLimits := p.uintPOWlimit }) := by
  have htrue := @chargeIntegrator_true D F b pprev c hp
  unfold updateOutputAt
  rw [if_pos hreq]
  cases hc : c.chargeIntegrator F b with
  | mk r c₁ =>
    rw [hc] at htrue
    simp only at htrue
    subst htrue
    rfl

theorem cachesFit_empty (h : b.nHeight ≠ 0 ∨ nTime ≠ 0) (hp : b.nHeight ≠ 0 → b.pprev ≠ none) :
    CachesFit p.nTipFilterBlocks .empty b nTime := by
  have h5 := p.five_le
  have hreq : CacheBook.empty.required b nTime = true := by
    unfold CacheBook.required CacheBook.heightOf CacheBook.empty
    simp only [Option.map_none,Option.getD_none,Bool.or_eq_true,bne_iff_ne]
    rcases h with h | h
    · exact .inl (.inl h.symm)
    · exact .inl (.inr h.symm)
  refine ⟨h,?_,?_,?_,?_⟩
  · intro hfalse
    rw [hreq] at hfalse
    contradiction
  · intro _ hn
    have hz : b.nHeight ≠ 0 := by omega
    have hsome := Option.isSome_iff_ne_none.mpr (hp hz)
    unfold CacheBook.charge
    rw [if_pos ⟨hsome,hz.symm⟩]
    rfl
  · intro _ hn
    unfold CacheBook.filter
    rw [if_neg (not_lt.mpr hn),if_neg (by simp [CacheBook.empty])]
    exact ⟨false,rfl,.inr rfl⟩
  · exact fun _ _ => .inr rfl

theorem pprev_ne_none (h : b.nHeight ≠ 0) : b.pprev ≠ none := by
  cases b with
  | genesis d => exact absurd rfl h
  | child d p => simp [CBlockIndex.pprev]

theorem setBlockTimeError_eq_none {c : PidController D} :
    c.setBlockTimeError F p b nTime = none ↔ c.updateIndexTipFilter F p b = none := by
  unfold setBlockTimeError
  cases c.updateIndexTipFilter F p b with
  | none => simp
  | some q =>
    obtain ⟨ready,c₁⟩ := q
    cases ready <;> simp

/-- With enough blocks the call computes from the block and the time alone. -/
theorem Represents.target_high (h : Represents F p k c)
    (hfit : CachesFit p.nTipFilterBlocks k b nTime) (hreq : k.required b nTime = true)
    (hn : p.nTipFilterBlocks ≤ b.nHeight) {pprev : CBlockIndex} (hp : b.pprev = some pprev) :
    (¬FilterSize p b ∧ c.updateOutputAt F p b nTime = none) ∨ (FilterSize p b ∧
      ∃ c', Calculated F p b nTime c' ∧
        (c.updateOutputAt F p b nTime).map (fun r => r.2.uintTargetAfterLimits) =
          c'.limitOutputDifficultyChange p (c'.targetBeforeLimits F) b) := by
  obtain ⟨late,hf,-⟩ := hfit.tipFilter hreq hn
  rw [← filter_charge_filtered] at hf
  have hnone := (h.charge b).filter_eq_none hn hf
  rw [updateOutputAt_high ((h.required b nTime).trans hreq) hp]
  cases hr : (c.chargeIntegrator F b).2.setBlockTimeError F p b nTime with
  | none => exact .inl ⟨hnone.mp (setBlockTimeError_eq_none.mp hr),rfl⟩
  | some q =>
    obtain ⟨r,c₁⟩ := q
    obtain ⟨rfl,hcalc⟩ := h.calculated hfit hreq hn hr
    have hsize : FilterSize p b := by
      by_contra hsize
      rw [setBlockTimeError_eq_none.mpr (hnone.mpr hsize)] at hr
      contradiction
    refine .inr ⟨hsize,c₁.switchGains F b,hcalc,?_⟩
    simp only [Option.bind_some,if_true]
    cases (c₁.switchGains F b).limitOutputDifficultyChange p
      ((c₁.switchGains F b).targetBeforeLimits F) b <;> rfl

/-- A call with fitting caches leaves the target of a new controller. -/
theorem Represents.target_eq (h : Represents F p k c)
    (hfit : CachesFit p.nTipFilterBlocks k b nTime) :
    (c.updateOutputAt F p b nTime).map (fun r => r.2.uintTargetAfterLimits) =
      ((new F p).updateOutputAt F p b nTime).map (fun r => r.2.uintTargetAfterLimits) := by
  have hnewfit := @cachesFit_empty D p b nTime hfit.notNull pprev_ne_none
  have hnewreq : CacheBook.empty.required b nTime = true := by
    cases hr : CacheBook.empty.required b nTime with
    | true => rfl
    | false =>
      have hreuse := hnewfit.reuse hr
      simp [CacheBook.empty] at hreuse
  have hnew : Represents F p .empty (new F p) := represents_new
  have hnewreq' := (hnew.required b nTime).trans hnewreq
  cases hreq : k.required b nTime with
  | false =>
    have hc := @updateOutputAt_same _ F p c b nTime ((h.required b nTime).trans hreq)
    rw [h.output b nTime (hfit.reuse hreq),hc]
    rfl
  | true =>
    have hreq' := (h.required b nTime).trans hreq
    rcases Nat.lt_or_ge b.nHeight p.nTipFilterBlocks with hlow | hn
    · rw [updateOutputAt_low hreq' hlow,updateOutputAt_low hnewreq' hlow]
      rfl
    · have h5 := p.five_le
      have hz : b.nHeight ≠ 0 := by omega
      obtain ⟨pprev,hp⟩ := Option.ne_none_iff_exists'.mp (pprev_ne_none hz)
      rcases h.target_high hfit hreq hn hp with ⟨hs,hc⟩ | ⟨hs,c',hcalc,hc⟩
      · rcases hnew.target_high hnewfit hnewreq hn hp with ⟨-,hc₀⟩ | ⟨hs₀,-⟩
        · rw [hc,hc₀]
        · exact absurd hs₀ hs
      · rcases hnew.target_high hnewfit hnewreq hn hp with ⟨hs₀,-⟩ | ⟨-,c₀,hcalc₀,hc₀⟩
        · exact absurd hs hs₀
        · rw [hc,hc₀]
          exact hcalc.target_eq hcalc₀ hp

theorem Represents.withTarget (h : Represents F p k c) {x : Uint256}
    (hx : ((new F p).updateOutputAt F p b nTime).map (fun r => r.2.uintTargetAfterLimits) = some x) :
    Represents F p { k with lastOutput := some (b,nTime) } { c with uintTargetAfterLimits := x } := by
  refine ⟨h.integratorHeight,h.filterHeight,h.initialized,h.lastTime,h.gains,h.limits,h.integrator,
    h.filterSize,?_,?_⟩
  · intro b' late hf hl
    obtain ⟨h₁,h₂,h₃,h₄,h₅,h₆,h₇⟩ := h.tipFilter b' late hf hl
    exact ⟨h₁,h₂,h₃,h₄,h₅,h₆,h₇⟩
  · intro b' nTime' hout
    simp only [Option.some.injEq,Prod.mk.injEq] at hout
    obtain ⟨rfl,rfl⟩ := hout
    exact hx

theorem SameFilter.calcBlockTimeErrors {c' : PidController D} (h : SameFilter p c c') (nTime : Int) :
    SameFilter p (c.calcBlockTimeErrors F p nTime).2 c' := by
  unfold PidController.calcBlockTimeErrors
  split
  · split
    · rename_i hu
      refine ⟨h.points,h.calculated,h.last,h.increaseTip,h.decreaseLast,h.decreaseTip,?_⟩
      intro hu'
      rw [hu] at hu'
      contradiction
    · exact h
  · exact h

theorem Represents.setTime (h : Represents F p k c) (nTime : Int) :
    Represents F p { k with lastTime := nTime }
      { (c.calcBlockTimeErrors F p nTime).2 with nLastCalculationTime := nTime } := by
  obtain ⟨x,y,hxy⟩ := @calcBlockTimeErrors_eq D F p c nTime
  have hsame : ∀ b late, k.filtered = some (b,late) →
      nDifficultySwitchHeight5 < b.nHeight ∨ late = false →
      SameFilter p { c with dSpacingError := x, dRateOfChange := y }
        ((new F p).setTipFilter F p b) := by
    intro b late hf hl
    rw [← hxy]
    exact (h.tipFilter b late hf hl).calcBlockTimeErrors nTime
  rw [hxy]
  refine ⟨h.integratorHeight,h.filterHeight,h.initialized,rfl,h.gains,h.limits,h.integrator,
    h.filterSize,?_,h.output⟩
  intro b late hf hl
  obtain ⟨h₁,h₂,h₃,h₄,h₅,h₆,h₇⟩ := hsame b late hf hl
  exact ⟨h₁,h₂,h₃,h₄,h₅,h₆,h₇⟩

theorem Represents.switchGains (h : Represents F p k c) (b : CBlockIndex) :
    Represents F p { k with gainsSwitched :=
      k.gainsSwitched || decide (nDifficultySwitchHeight5 < b.nHeight) } (c.switchGains F b) := by
  unfold PidController.switchGains
  by_cases hlt : nDifficultySwitchHeight5 < b.nHeight
  · rw [if_pos hlt,decide_eq_true hlt,Bool.or_true]
    refine ⟨h.integratorHeight,h.filterHeight,h.initialized,h.lastTime,?_,h.limits,h.integrator,
      h.filterSize,?_,h.output⟩
    · intro hfalse
      contradiction
    · intro b' late hf hl
      obtain ⟨h₁,h₂,h₃,h₄,h₅,h₆,h₇⟩ := h.tipFilter b' late hf hl
      exact ⟨h₁,h₂,h₃,h₄,h₅,h₆,h₇⟩
  · rw [if_neg hlt,decide_eq_false hlt,Bool.or_false]
    exact h

theorem charge_eq_self (k : CacheBook) (hp : b.pprev = none) : k.charge b = k := by
  unfold CacheBook.charge
  simp [hp]

/-- `UpdateOutput` keeps the book when the caches fit. -/
theorem Represents.updateOutput (h : Represents F p k c)
    (hfit : CachesFit p.nTipFilterBlocks k b nTime) {r : Bool} {c' : PidController D}
    (hr : c.updateOutputAt F p b nTime = some (r,c')) :
    Represents F p (k.output p.nTipFilterBlocks b nTime) c' := by
  have htarget : ((new F p).updateOutputAt F p b nTime).map
      (fun r => r.2.uintTargetAfterLimits) = some c'.uintTargetAfterLimits := by
    rw [← h.target_eq hfit,hr]
    rfl
  unfold CacheBook.output
  cases hreq : k.required b nTime with
  | false =>
    have hc := @updateOutputAt_same _ F p c b nTime ((h.required b nTime).trans hreq)
    rw [hc,Option.some.injEq,Prod.mk.injEq] at hr
    obtain ⟨-,rfl⟩ := hr
    exact h.withTarget htarget
  | true =>
    have hreq' := (h.required b nTime).trans hreq
    rw [if_pos rfl]
    unfold CacheBook.calculate
    by_cases hp : b.pprev = none
    · have h5 := p.five_le
      have hlow : b.nHeight < p.nTipFilterBlocks := by
        by_contra hge
        exact pprev_ne_none (by omega) hp
      rw [updateOutputAt_low hreq' hlow,Option.some.injEq,Prod.mk.injEq] at hr
      obtain ⟨-,rfl⟩ := hr
      rw [if_pos hp]
      have hcharge := h.charge b
      rw [charge_eq_self k hp] at hcharge
      exact hcharge.withTarget htarget
    · rw [if_neg hp]
      rcases Nat.lt_or_ge b.nHeight p.nTipFilterBlocks with hlow | hn
      · rw [updateOutputAt_low hreq' hlow,Option.some.injEq,Prod.mk.injEq] at hr
        obtain ⟨-,rfl⟩ := hr
        rw [if_pos hlow]
        exact (h.charge b).withTarget htarget
      · obtain ⟨pprev,hpp⟩ := Option.ne_none_iff_exists'.mp hp
        rw [updateOutputAt_high hreq' hpp] at hr
        obtain ⟨⟨ready,c₁⟩,hset,hlim⟩ := Option.bind_eq_some_iff.mp hr
        obtain ⟨rfl,-⟩ := h.calculated hfit hreq hn hset
        simp only [if_true] at hlim
        obtain ⟨target,-,hc'⟩ := Option.bind_eq_some_iff.mp hlim
        simp only [Option.some.injEq,Prod.mk.injEq] at hc'
        obtain ⟨-,rfl⟩ := hc'
        have hc₁ : Represents F p
            { (k.charge b).filter p.nTipFilterBlocks b with lastTime := nTime } c₁ := by
          unfold setBlockTimeError at hset
          obtain ⟨⟨ready,c₀⟩,hfilter,hset⟩ := Option.bind_eq_some_iff.mp hset
          obtain ⟨h₀,hready⟩ := (h.charge b).filter hfilter
          rw [decide_eq_true hn] at hready
          subst hready
          simp only [if_true,Option.some.injEq,Prod.mk.injEq] at hset
          obtain ⟨-,rfl⟩ := hset
          exact h₀.setTime nTime
        rw [if_neg (not_lt.mpr hn)]
        exact (hc₁.switchGains b).withTarget htarget

theorem Represents.apply (h : Represents F p k c) {call : PidCall} {c' : PidController D}
    (hfit : RunFits p.nTipFilterBlocks k [call]) (hc : call.apply F p c = some c') :
    Represents F p (k.note p.nTipFilterBlocks call) c' := by
  cases call with
  | chargeIntegrator b =>
    simp only [PidCall.apply,Option.some.injEq] at hc
    subst hc
    exact h.charge b
  | updateIndexTipFilter b =>
    obtain ⟨⟨r,c₁⟩,hr,rfl⟩ := Option.map_eq_some_iff.mp hc
    exact (h.filter hr).1
  | updateOutput b header =>
    obtain ⟨⟨r,c₁⟩,hr,rfl⟩ := Option.map_eq_some_iff.mp hc
    exact h.updateOutput hfit.1 hr

theorem Represents.run (h : Represents F p k c) {calls : List PidCall} {c' : PidController D}
    (hfit : RunFits p.nTipFilterBlocks k calls) (hc : pidRun F p c calls = some c') :
    Represents F p (k.notes p.nTipFilterBlocks calls) c' := by
  induction calls generalizing k c with
  | nil =>
    simp only [pidRun,Option.some.injEq] at hc
    subst hc
    exact h
  | cons call rest ih =>
    obtain ⟨c₁,hcall,hrest⟩ := Option.bind_eq_some_iff.mp hc
    exact ih (h.apply ⟨hfit.1,trivial⟩ hcall) hfit.2 hrest

/-- In every run of calls that find the caches fitting, a following call whose caches fit
leaves the target that a new controller with the same parameters would compute. -/
theorem updateOutput_eq_new {calls : List PidCall}
    (hrun : pidRun F p (new F p) calls = some c) (hfit : RunFits p.nTipFilterBlocks .empty calls)
    {pIndex : CBlockIndex} {pBlockHeader : CBlockHeader}
    (hlast : CachesFit p.nTipFilterBlocks (CacheBook.empty.notes p.nTipFilterBlocks calls) pIndex
      pBlockHeader.nTime.toNat) :
    (c.updateOutput F p pIndex pBlockHeader).map (fun r => r.2.uintTargetAfterLimits) =
      ((new F p).updateOutput F p pIndex pBlockHeader).map
        (fun r => r.2.uintTargetAfterLimits) :=
  (represents_new.run hfit hrun).target_eq hlast

end PidController

/-- Exact arithmetic, which agrees with `double` on the even chains below. -/
def ratPlatform : Platform Rat where
  ofInt n := n
  ofLiteral q := q
  add a b := a+b
  sub a b := a-b
  mul a b := a*b
  div a b := a/b
  lt a b := decide (a < b)
  truncate q := if 0 ≤ q then q.floor else -(-q).floor
  sort points := points.insertionSort fun a b => a.nBlockTime ≤ b.nBlockTime

def mainPidParams : PidParams Rat where
  dProportionalGain := 17/10
  nIntegrationTime := 172800
  dIntegratorGain := 5
  dDerivativeGain := 0
  nMaxDiffIncrease := 200
  nMaxDiffDecrease := 170
  nTipFilterBlocks := 21
  fUsesHeader := false
  uintPOWlimit := (setCompact 0x1e0ffff0).target
  five_le := by decide

/-- A chain on target, with the same difficulty throughout. -/
def evenChain (nBits : Uint32) : Nat → CBlockIndex
  | 0 => .genesis ⟨2,0,0,nBits,0,0,0⟩
  | n+1 => .child ⟨2,0,BitVec.ofNat 32 (180*(n+1)),nBits,0,0,0⟩ (evenChain nBits n)

def evenHeader (n : Nat) : CBlockHeader := ⟨2,0,0,BitVec.ofNat 32 (180*n),0,0,0⟩

/-- The controller is set to a block, asked twice about it, and then about its child. -/
def evenCalls : List PidCall :=
  [.chargeIntegrator (evenChain 0x1d00ffff 21),.updateIndexTipFilter (evenChain 0x1d00ffff 21),
    .updateOutput (evenChain 0x1d00ffff 21) (evenHeader 22),
    .updateOutput (evenChain 0x1d00ffff 21) (evenHeader 22)]

namespace PidController

theorem evenCalls_fit : RunFits 21 .empty evenCalls := by
  have hfirst : CachesFit 21 (CacheBook.empty.notes 21 (evenCalls.take 2))
      (evenChain 0x1d00ffff 21) (evenHeader 22).nTime.toNat :=
    ⟨.inl (by decide +kernel),by decide +kernel,by decide +kernel,
      fun _ _ => ⟨false,by decide +kernel,.inr rfl⟩,by decide +kernel⟩
  have hsecond : CachesFit 21 (CacheBook.empty.notes 21 (evenCalls.take 3))
      (evenChain 0x1d00ffff 21) (evenHeader 22).nTime.toNat :=
    ⟨.inl (by decide +kernel),by decide +kernel,by decide +kernel,
      fun _ _ => ⟨false,by decide +kernel,.inr rfl⟩,by decide +kernel⟩
  exact ⟨trivial,trivial,hfirst,hsecond,trivial⟩

theorem evenCalls_eq_new :
    ∃ c, pidRun ratPlatform mainPidParams (new ratPlatform mainPidParams) evenCalls = some c ∧
      (c.updateOutput ratPlatform mainPidParams (evenChain 0x1d00ffff 22) (evenHeader 23)).map
          (fun r => r.2.uintTargetAfterLimits) =
        ((new ratPlatform mainPidParams).updateOutput ratPlatform mainPidParams
          (evenChain 0x1d00ffff 22) (evenHeader 23)).map (fun r => r.2.uintTargetAfterLimits) := by
  obtain ⟨c,hc⟩ := Option.isSome_iff_exists.mp (by decide +kernel :
    (pidRun ratPlatform mainPidParams (new ratPlatform mainPidParams) evenCalls).isSome = true)
  refine ⟨c,hc,updateOutput_eq_new hc evenCalls_fit ⟨?_,?_,?_,?_,?_⟩⟩
  · exact .inl (by decide +kernel)
  · decide +kernel
  · decide +kernel
  · exact fun _ _ => ⟨false,by decide +kernel,.inr rfl⟩
  · decide +kernel

/-- After a block of another branch with the same height, the controller answers from that
branch's filter. -/
theorem stale_filter_after_reorganisation :
    ∃ c, pidRun ratPlatform mainPidParams (new ratPlatform mainPidParams)
        [.updateOutput (evenChain 0x1e0ffff0 21) (evenHeader 22)] = some c ∧
      (c.updateOutput ratPlatform mainPidParams (evenChain 0x1d00ffff 21) (evenHeader 23)).map
          (fun r => r.2.uintTargetAfterLimits) ≠
        ((new ratPlatform mainPidParams).updateOutput ratPlatform mainPidParams
          (evenChain 0x1d00ffff 21) (evenHeader 23)).map (fun r => r.2.uintTargetAfterLimits) := by
  have hstale : (pidRun ratPlatform mainPidParams (new ratPlatform mainPidParams)
      [.updateOutput (evenChain 0x1e0ffff0 21) (evenHeader 22)]).any (fun c =>
        (c.updateOutput ratPlatform mainPidParams (evenChain 0x1d00ffff 21) (evenHeader 23)).map
          (fun r => r.2.uintTargetAfterLimits) !=
        ((new ratPlatform mainPidParams).updateOutput ratPlatform mainPidParams
          (evenChain 0x1d00ffff 21) (evenHeader 23)).map (fun r => r.2.uintTargetAfterLimits)) =
      true := by decide +kernel
  obtain ⟨c,hc,hne⟩ := (Option.any_eq_true _ _).mp hstale
  exact ⟨c,hc,bne_iff_ne.mp hne⟩

end PidController

end Anoncoin
