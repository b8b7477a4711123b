import Anoncoin.PidCache

/-!
`GetRetargetStats` (pow.cpp): a report that runs the controller for another block and sets
its caches back. Along a run the origin of the target is recorded: the blocks behind the
integrator and the tip filter, and the gains and limits in force when these were filled.
The figures of the report are left out.
-/

set_option autoImplicit false

namespace Anoncoin

/-- The controller with the pointer to the block that the integrator was charged for. -/
structure ChargedPid (D : Type) where
  pid : PidController D
  pChargedToIndex : Option CBlockIndex

/-- The walk from the tip down to a height. -/
def CBlockIndex.downTo (nHeight : Nat) : CBlockIndex → CBlockIndex
  | genesis d => genesis d
  | child d pprev =>
      if nHeight < (child d pprev).nHeight then pprev.downTo nHeight else child d pprev

/-- The block that the report is charged to, and the time of its header; none if the
calculations cannot run. -/
def statsCharge (nTipFilterBlocks nHeight : Nat) (pIndexAtTip : Option CBlockIndex)
    (nAdjustedTime : Uint32) : Option (CBlockIndex × Int) :=
  match pIndexAtTip with
  | none => none
  | some tip =>
      if tip.nHeight < nTipFilterBlocks ∨ (nHeight ≠ 0 ∧ nHeight ≤ nTipFilterBlocks) then none
      else if nHeight = 0 ∨ tip.nHeight < nHeight then some (tip,nAdjustedTime.toNat)
      else (tip.downTo nHeight).pprev.map fun pprev =>
        (pprev,((tip.downTo nHeight).data.nTime.toNat : Int))

namespace ChargedPid
variable {D : Type} (F : Platform D) (p : PidParams D)

def new : ChargedPid D := ⟨PidController.new F p,none⟩

def chargeIntegrator (s : ChargedPid D) (pIndex : CBlockIndex) : ChargedPid D where
  pid := (s.pid.chargeIntegrator F pIndex).2
  pChargedToIndex :=
    if pIndex.pprev.isSome ∧ s.pid.nIntegratorHeight ≠ pIndex.nHeight then some pIndex
    else s.pChargedToIndex

def updateIndexTipFilter (s : ChargedPid D) (pIndex : CBlockIndex) : Option (ChargedPid D) :=
  (s.pid.updateIndexTipFilter F p pIndex).map fun r => { s with pid := r.2 }

def updateOutputAt (s : ChargedPid D) (pIndex : CBlockIndex) (nTime : Int) :
    Option (ChargedPid D) :=
  (s.pid.updateOutputAt F p pIndex nTime).map fun r =>
    { pid := r.2
      pChargedToIndex := if s.pid.isPidUpdateRequired pIndex nTime then
          (s.chargeIntegrator F pIndex).pChargedToIndex
        else s.pChargedToIndex }

/-- `RunReports`, with the times of its difficulty curve. -/
def runReports (s : ChargedPid D) (pIndex : CBlockIndex) (nTime : Int) (curve : List Int) :
    Option (ChargedPid D) :=
  (s.pid.updateOutputAt F p pIndex nTime).bind fun r =>
    (s.updateOutputAt F p pIndex nTime).map fun s =>
      if r.1 then
        curve.foldl (fun s nTipTime => { s with pid := (s.pid.calcBlockTimeErrors F p nTipTime).2 }) s
      else s

/-- The caches go back to the block of the previous charge. -/
def restore (s : ChargedPid D) (nPrevChargeHeight : Nat) (pPrevCharge : Option CBlockIndex) :
    Option (ChargedPid D) :=
  match pPrevCharge with
  | none => some s
  | some pPrev =>
      if nPrevChargeHeight ≠ 0 ∧ s.pChargedToIndex ≠ some pPrev then
        (s.chargeIntegrator F pPrev).updateIndexTipFilter F p pPrev
      else some s

/-- `GetRetargetStats`; no result means that an assertion fails. -/
def getRetargetStats (s : ChargedPid D) (nHeight : Nat) (pIndexAtTip : Option CBlockIndex)
    (nAdjustedTime : Uint32) : Option (ChargedPid D) :=
  match statsCharge p.nTipFilterBlocks nHeight pIndexAtTip nAdjustedTime with
  | none => some s
  | some charge => (s.updateOutputAt F p charge.1 charge.2).bind fun s' =>
      s'.restore F p s.pid.nIntegratorHeight s.pChargedToIndex

end ChargedPid

inductive StatsCall where
  | chargeIntegrator (pIndex : CBlockIndex)
  | updateIndexTipFilter (pIndex : CBlockIndex)
  | updateOutput (pIndex : CBlockIndex) (pBlockHeader : CBlockHeader)
  | runReports (pIndex : CBlockIndex) (pBlockHeader : CBlockHeader) (curve : List Int)
  | getRetargetStats (nHeight : Nat) (pIndexAtTip : Option CBlockIndex) (nAdjustedTime : Uint32)

section Calls
variable {D : Type} (F : Platform D) (p : PidParams D)

def StatsCall.apply (s : ChargedPid D) : StatsCall → Option (ChargedPid D)
  | chargeIntegrator pIndex => some (s.chargeIntegrator F pIndex)
  | updateIndexTipFilter pIndex => s.updateIndexTipFilter F p pIndex
  | updateOutput pIndex pBlockHeader => s.updateOutputAt F p pIndex pBlockHeader.nTime.toNat
  | runReports pIndex pBlockHeader curve =>
      s.runReports F p pIndex pBlockHeader.nTime.toNat curve
  | getRetargetStats nHeight pIndexAtTip nAdjustedTime =>
      s.getRetargetStats F p nHeight pIndexAtTip nAdjustedTime

def statsRun (s : ChargedPid D) : List StatsCall → Option (ChargedPid D)
  | [] => some s
  | call :: rest => (call.apply F p s).bind fun s => statsRun s rest

end Calls

/-- Where the target comes from: the start, the limit, or a calculation for a block and a
time with the caches as they were. -/
inductive TargetSource where
  | start
  | limit
  | calculated (charged filtered : Option (CBlockIndex × Bool)) (gainsSwitched : Bool)
      (pIndex : CBlockIndex) (nTime : Int)
  deriving DecidableEq

/-- The caches and the origin of the target. -/
structure SourceBook where
  cache : CacheBook
  source : TargetSource

namespace SourceBook

/-- Above the switch the limits are the new ones whenever the filter was set. -/
def oldLimits (filtered : CBlockIndex × Bool) : CBlockIndex × Bool :=
  (filtered.1,filtered.2 && decide (filtered.1.nHeight ≤ nDifficultySwitchHeight5))

def empty : SourceBook := ⟨.empty,.start⟩

def charge (k : SourceBook) (b : CBlockIndex) : SourceBook := { k with cache := k.cache.charge b }

def filter (n : Nat) (k : SourceBook) (b : CBlockIndex) : SourceBook :=
  { k with cache := k.cache.filter n b }

/-- The origin of the target after a call of `UpdateOutput`. -/
def nextSource (n : Nat) (k : SourceBook) (b : CBlockIndex) (nTime : Int) : TargetSource :=
  if k.cache.required b nTime then
    if b.nHeight < n then .limit
    else .calculated (k.cache.calculate n b nTime).charged
      ((k.cache.calculate n b nTime).filtered.map oldLimits)
      (k.cache.calculate n b nTime).gainsSwitched b nTime
  else k.source

def output (n : Nat) (k : SourceBook) (b : CBlockIndex) (nTime : Int) : SourceBook :=
  ⟨k.cache.output n b nTime,k.nextSource n b nTime⟩

/-- A report for a block and a time. -/
def stats (n : Nat) (k : SourceBook) (b : CBlockIndex) (nTime : Int) : SourceBook :=
  match k.cache.charged with
  | none => k.output n b nTime
  | some prev =>
      if (k.output n b nTime).cache.charged.map Prod.fst ≠ some prev.1 then
        ((k.output n b nTime).charge prev.1).filter n prev.1
      else k.output n b nTime

def afterStats (n : Nat) (k : SourceBook) (nHeight : Nat) (pIndexAtTip : Option CBlockIndex)
    (nAdjustedTime : Uint32) : SourceBook :=
  match statsCharge n nHeight pIndexAtTip nAdjustedTime with
  | none => k
  | some charge => k.stats n charge.1 charge.2

def note (n : Nat) (k : SourceBook) : StatsCall → SourceBook
  | .chargeIntegrator b => k.charge b
  | .updateIndexTipFilter b => k.filter n b
  | .updateOutput b h => k.output n b h.nTime.toNat
  | .runReports b h _ => k.output n b h.nTime.toNat
  | .getRetargetStats nHeight pIndexAtTip nAdjustedTime =>
      k.afterStats n nHeight pIndexAtTip nAdjustedTime

def notes (n : Nat) (k : SourceBook) (calls : List StatsCall) : SourceBook :=
  calls.foldl (note n) k

end SourceBook

namespace PidController
variable {D : Type} {F : Platform D} {p : PidParams D} {k : CacheBook} {c c' : PidController D}
  {b : CBlockIndex} {nTime : Int}

/-- The gains and the integration time, before and after the switch. -/
def gainsOf (F : Platform D) (p : PidParams D) (switched : Bool) : D × Int × D × D :=
  if switched then (F.ofLiteral (16/10),129600,F.ofInt 8,F.ofInt 3)
  else (p.dProportionalGain,p.nIntegrationTime,p.dIntegratorGain,p.dDerivativeGain)

/-- A controller with the limits before or after the switch. -/
def withLimits (F : Platform D) (p : PidParams D) (switched : Bool) : PidController D :=
  if switched then { new F p with nMaxDiffIncrease := 150, nMaxDiffDecrease := 130 } else new F p

/-- A controller with the given caches, at the calculation for a time. -/
def fromCaches (F : Platform D) (p : PidParams D) (charged filtered : CBlockIndex × Bool)
    (gainsSwitched : Bool) (nTime : Int) : PidController D :=
  let c := (withLimits F p filtered.2).setTipFilter F p filtered.1
  let timing := if p.fUsesHeader then
      F.filterTiming (insertTime nTime (c.vIndexTipFilter.map FilterPoint.nBlockTime))
    else (c.dSpacingError,c.dRateOfChange)
  { c with
    dProportionalGain := (gainsOf F p gainsSwitched).1
    dIntegratorGain := (gainsOf F p gainsSwitched).2.2.1
    dDerivativeGain := (gainsOf F p gainsSwitched).2.2.2
    nLastCalculationTime := nTime
    dIntegratorBlockTime := match charged.1.pprev with
      | none => F.ofInt 0
      | some pprev => F.integratorBlockTime (gainsOf F p charged.2).2.1 charged.1 pprev
    dSpacingError := timing.1
    dRateOfChange := timing.2 }

theorem SameFilter.trans {c'' : PidController D} (h : SameFilter p c c') (h' : SameFilter p c' c'') :
    SameFilter p c c'' where
  points := h.points.trans h'.points
  calculated := h.calculated.trans h'.calculated
  last := h.last.trans h'.last
  increaseTip := h.increaseTip.trans h'.increaseTip
  decreaseLast := h.decreaseLast.trans h'.decreaseLast
  decreaseTip := h.decreaseTip.trans h'.decreaseTip
  timing hu := ⟨(h.timing hu).1.trans (h'.timing hu).1,(h.timing hu).2.trans (h'.timing hu).2⟩

/-- The target that a source stands for. -/
def sourceTarget (F : Platform D) (p : PidParams D) : TargetSource → Option Uint256
  | .start => some 0
  | .limit => some p.uintPOWlimit
  | .calculated charged filtered gainsSwitched b nTime => do
      let c := fromCaches F p (← charged) (← filtered) gainsSwitched nTime
      c.limitOutputDifficultyChange p (c.targetBeforeLimits F) b

/-- The state of the controller is what the book says, in every run. -/
structure Tracks (F : Platform D) (p : PidParams D) (k : CacheBook) (c : PidController D) :
    Prop where
  integratorHeight : c.nIntegratorHeight = CacheBook.heightOf k.charged
  filterHeight : c.nIndexFilterHeight = CacheBook.heightOf k.filtered
  initialized : c.fTipFilterInitialized = k.filtered.isSome
  lastTime : c.nLastCalculationTime = k.lastTime
  gains : (c.dProportionalGain,c.nIntegrationTime,c.dIntegratorGain,c.dDerivativeGain) =
    gainsOf F p k.gainsSwitched
  limits : ∀ b, c.maxDiff b = (withLimits F p k.limitsSwitched).maxDiff b
  charged : ∀ b late, k.charged = some (b,late) → ∃ pprev, b.pprev = some pprev ∧
    c.dIntegratorBlockTime = F.integratorBlockTime (gainsOf F p late).2.1 b pprev
  filterSize : ∀ b late, k.filtered = some (b,late) → FilterSize p b
  tipFilter : ∀ b late, k.filtered = some (b,late) →
    SameFilter p c ((withLimits F p late).setTipFilter F p b)

theorem tracks_new : Tracks F p .empty (new F p) := by
  constructor <;> simp [CacheBook.empty,CacheBook.heightOf,new,gainsOf,withLimits]

theorem Tracks.required (h : Tracks F p k c) (b : CBlockIndex) (nTime : Int) :
    c.isPidUpdateRequired b nTime = k.required b nTime := by
  unfold isPidUpdateRequired CacheBook.required
  rw [h.integratorHeight,h.filterHeight,h.lastTime]

/-- A field outside the caches may change. -/
theorem Tracks.of_same {k' : CacheBook} (h : Tracks F p k c)
    (hcharged : k'.charged = k.charged) (hfiltered : k'.filtered = k.filtered)
    (hlimits : k'.limitsSwitched = k.limitsSwitched)
    (hintegratorHeight : c'.nIntegratorHeight = c.nIntegratorHeight)
    (hfilterHeight : c'.nIndexFilterHeight = c.nIndexFilterHeight)
    (hinitialized : c'.fTipFilterInitialized = c.fTipFilterInitialized)
    (hlastTime : c'.nLastCalculationTime = k'.lastTime)
    (hgains : (c'.dProportionalGain,c'.nIntegrationTime,c'.dIntegratorGain,c'.dDerivativeGain) =
      gainsOf F p k'.gainsSwitched)
    (hmaxDiff : ∀ b, c'.maxDiff b = c.maxDiff b)
    (hintegrator : c'.dIntegratorBlockTime = c.dIntegratorBlockTime)
    (hfilter : SameFilter p c' c) : Tracks F p k' c' := by
  refine ⟨?_,?_,?_,hlastTime,hgains,?_,?_,?_,?_⟩
  · rw [hintegratorHeight,hcharged,h.integratorHeight]
  · rw [hfilterHeight,hfiltered,h.filterHeight]
  · rw [hinitialized,hfiltered,h.initialized]
  · intro b
    rw [hmaxDiff,hlimits,h.limits]
  · intro b late hb
    rw [hcharged] at hb
    obtain ⟨pprev,hp,hi⟩ := h.charged b late hb
    exact ⟨pprev,hp,hintegrator.trans hi⟩
  · intro b late hb
    rw [hfiltered] at hb
    exact h.filterSize b late hb
  · intro b late hb
    rw [hfiltered] at hb
    exact hfilter.trans (h.tipFilter b late hb)

theorem Tracks.charge (h : Tracks F p k c) (b : CBlockIndex) :
    Tracks F p (k.charge b) (c.chargeIntegrator F b).2 := by
  obtain ⟨hk,hc⟩ | ⟨pprev,hp,hk,hc⟩ := charge_cases F h.integratorHeight b
  · rw [hk,hc]
    exact h
  · have hgains := h.gains
    rw [hk,hc]
    refine ⟨rfl,h.filterHeight,h.initialized,h.lastTime,hgains,h.limits,?_,h.filterSize,?_⟩
    · intro b' late hb'
      simp only [Option.some.injEq,Prod.mk.injEq] at hb'
      obtain ⟨rfl,rfl⟩ := hb'
      refine ⟨pprev,hp,?_⟩
      rw [← hgains]
    · intro b' late hb'
      obtain ⟨h₁,h₂,h₃,h₄,h₅,h₆,h₇⟩ := h.tipFilter b' late hb'
      exact ⟨h₁,h₂,h₃,h₄,h₅,h₆,h₇⟩

theorem Tracks.resetTime (h : Tracks F p k c) :
    Tracks F p { k with lastTime := 0 } { c with nLastCalculationTime := 0 } :=
  h.of_same rfl rfl rfl rfl rfl rfl rfl h.gains (fun _ => rfl) rfl
    ⟨rfl,rfl,rfl,rfl,rfl,rfl,fun _ => ⟨rfl,rfl⟩⟩

/-- Above the switch the limits are the new ones whatever they were. -/
theorem maxDiff_switched (c : PidController D) (b b' : CBlockIndex)
    (hb : nDifficultySwitchHeight5 < b.nHeight) :
    (c.setTipFilter F p b).maxDiff b' = (withLimits F p true).maxDiff b' := by
  by_cases hb' : nDifficultySwitchHeight5 < b'.nHeight
  · exact maxDiff_above _ _ hb'
  · simp [maxDiff,setTipFilter,withLimits,hb,hb']

theorem Tracks.setTipFilter (h : Tracks F p k c) (hsize : FilterSize p b) :
    Tracks F p { k with
      filtered := some (b,k.limitsSwitched)
      limitsSwitched := k.limitsSwitched || decide (nDifficultySwitchHeight5 < b.nHeight) }
      (c.setTipFilter F p b) := by
  refine ⟨h.integratorHeight,rfl,rfl,h.lastTime,h.gains,?_,h.charged,?_,?_⟩
  · intro b'
    by_cases hb : nDifficultySwitchHeight5 < b.nHeight
    · simp only [decide_eq_true hb,Bool.or_true]
      exact maxDiff_switched c b b' hb
    · simp only [decide_eq_false hb,Bool.or_false]
      rw [maxDiff_setTipFilter hb,h.limits]
  · intro b' late hf
    simp only [Option.some.injEq,Prod.mk.injEq] at hf
    obtain ⟨rfl,-⟩ := hf
    exact hsize
  · intro b' late hf
    simp only [Option.some.injEq,Prod.mk.injEq] at hf
    obtain ⟨rfl,rfl⟩ := hf
    exact setTipFilter_same (h.limits b)

theorem filterSize_congr {b' : CBlockIndex} (h : b.nHeight = b'.nHeight) :
    FilterSize p b ↔ FilterSize p b' := by
  unfold FilterSize weightedAvgTipBlocks
  rw [h]

/-- Whether the filter is set again depends on the height alone. -/
theorem Tracks.sameHeight (h : Tracks F p k c) (b : CBlockIndex) :
    (c.fTipFilterInitialized && c.nIndexFilterHeight == b.nHeight) = true ↔
      (k.filtered.isSome = true ∧ CacheBook.heightOf k.filtered = b.nHeight) :=
  sameHeight_iff h.initialized h.filterHeight b

theorem Tracks.filterSize_cached (h : Tracks F p k c)
    (hsame : k.filtered.isSome = true ∧ CacheBook.heightOf k.filtered = b.nHeight) :
    FilterSize p b := by
  obtain ⟨⟨b',late⟩,hb'⟩ := Option.isSome_iff_exists.mp hsame.1
  have hheight := hsame.2
  rw [hb'] at hheight
  exact (filterSize_congr hheight).mp (h.filterSize b' late hb')

/-- `UpdateIndexTipFilter` with enough blocks: it fails an assertion exactly when the filter is
too small, and otherwise keeps the book. -/
theorem Tracks.filter (h : Tracks F p k c) (hn : p.nTipFilterBlocks ≤ b.nHeight) :
    (¬FilterSize p b → c.updateIndexTipFilter F p b = none) ∧
    (FilterSize p b → ∃ c', c.updateIndexTipFilter F p b = some (true,c') ∧
      c'.uintTargetAfterLimits = c.uintTargetAfterLimits ∧
      Tracks F p (k.filter p.nTipFilterBlocks b) c') := by
  unfold updateIndexTipFilter CacheBook.filter
  simp only [if_neg (not_lt.mpr hn)]
  by_cases hsame : k.filtered.isSome = true ∧ CacheBook.heightOf k.filtered = b.nHeight
  · rw [if_pos ((h.sameHeight b).mpr hsame),if_pos hsame]
    exact ⟨fun hsize => absurd (h.filterSize_cached hsame) hsize,
      fun _ => ⟨_,rfl,rfl,h.resetTime⟩⟩
  · rw [if_neg (fun hkey => hsame ((h.sameHeight b).mp hkey)),if_neg hsame]
    constructor
    · intro hsize
      rw [if_pos]
      unfold FilterSize at hsize
      omega
    · intro hsize
      rw [if_neg (by unfold FilterSize at hsize; omega)]
      exact ⟨_,rfl,rfl,h.resetTime.setTipFilter hsize⟩

theorem Tracks.filter_low (k : CacheBook) (c : PidController D) (hn : b.nHeight < p.nTipFilterBlocks) :
    c.updateIndexTipFilter F p b = some (false,c) ∧ k.filter p.nTipFilterBlocks b = k := by
  unfold updateIndexTipFilter CacheBook.filter
  rw [if_pos hn,if_pos hn]
  exact ⟨rfl,rfl⟩

theorem Tracks.calcBlockTimeErrors (h : Tracks F p k c) (nTime : Int) :
    Tracks F p k (c.calcBlockTimeErrors F p nTime).2 := by
  have hsame : SameFilter p (c.calcBlockTimeErrors F p nTime).2 c :=
    SameFilter.calcBlockTimeErrors ⟨rfl,rfl,rfl,rfl,rfl,rfl,fun _ => ⟨rfl,rfl⟩⟩ nTime
  obtain ⟨x,y,hxy⟩ := @calcBlockTimeErrors_eq D F p c nTime
  rw [hxy] at hsame ⊢
  exact h.of_same rfl rfl rfl rfl rfl rfl h.lastTime h.gains (fun _ => rfl) rfl hsame

theorem Tracks.setTime (h : Tracks F p k c) (nTime : Int) :
    Tracks F p { k with lastTime := nTime } { c with nLastCalculationTime := nTime } :=
  h.of_same rfl rfl rfl rfl rfl rfl rfl h.gains (fun _ => rfl) rfl
    ⟨rfl,rfl,rfl,rfl,rfl,rfl,fun _ => ⟨rfl,rfl⟩⟩

theorem Tracks.switchGains (h : Tracks F p k c) (b : CBlockIndex) :
    Tracks F p { k with gainsSwitched :=
      k.gainsSwitched || decide (nDifficultySwitchHeight5 < b.nHeight) } (c.switchGains F b) := by
  unfold PidController.switchGains
  by_cases hb : nDifficultySwitchHeight5 < b.nHeight
  · rw [if_pos hb,decide_eq_true hb,Bool.or_true]
    exact h.of_same rfl rfl rfl rfl rfl rfl h.lastTime rfl (fun _ => rfl) rfl
      ⟨rfl,rfl,rfl,rfl,rfl,rfl,fun _ => ⟨rfl,rfl⟩⟩
  · rw [if_neg hb,decide_eq_false hb,Bool.or_false]
    exact h

theorem Tracks.withTarget (h : Tracks F p k c) (x : Uint256) (last : Option (CBlockIndex × Int)) :
    Tracks F p { k with lastOutput := last } { c with uintTargetAfterLimits := x } :=
  h.of_same rfl rfl rfl rfl rfl rfl h.lastTime h.gains (fun _ => rfl) rfl
    ⟨rfl,rfl,rfl,rfl,rfl,rfl,fun _ => ⟨rfl,rfl⟩⟩

theorem Tracks.oldLimits (h : Tracks F p k c) {filtered : CBlockIndex × Bool}
    (hfiltered : k.filtered = some filtered) :
    SameFilter p c ((withLimits F p (SourceBook.oldLimits filtered).2).setTipFilter F p
      (SourceBook.oldLimits filtered).1) := by
  have hs := h.tipFilter filtered.1 filtered.2 hfiltered
  unfold SourceBook.oldLimits
  by_cases hb : nDifficultySwitchHeight5 < filtered.1.nHeight
  · exact hs.trans (setTipFilter_same (maxDiff_above _ _ hb))
  · rw [decide_eq_true (not_lt.mp hb),Bool.and_true]
    exact hs

/-- Before the limits the controller holds what its caches give. -/
theorem Tracks.sameInputs (h : Tracks F p k c) {charged filtered : CBlockIndex × Bool}
    (hcharged : k.charged = some charged) (hfiltered : k.filtered = some filtered)
    (b : CBlockIndex) (nTime : Int) :
    SameInputs
      ({ (c.calcBlockTimeErrors F p nTime).2 with nLastCalculationTime := nTime }.switchGains F b)
      (fromCaches F p charged (SourceBook.oldLimits filtered)
        (k.gainsSwitched || decide (nDifficultySwitchHeight5 < b.nHeight)) nTime) := by
  obtain ⟨pprev,hp,hintegrator⟩ := h.charged charged.1 charged.2 hcharged
  have hfilter := h.oldLimits hfiltered
  have hinit : c.fTipFilterInitialized = true := by
    rw [h.initialized,hfiltered]
    rfl
  have htiming : ((c.calcBlockTimeErrors F p nTime).2.dSpacingError,
      (c.calcBlockTimeErrors F p nTime).2.dRateOfChange) =
      ((fromCaches F p charged (SourceBook.oldLimits filtered)
        (k.gainsSwitched || decide (nDifficultySwitchHeight5 < b.nHeight)) nTime).dSpacingError,
      (fromCaches F p charged (SourceBook.oldLimits filtered)
        (k.gainsSwitched || decide (nDifficultySwitchHeight5 < b.nHeight)) nTime).dRateOfChange) := by
    unfold PidController.calcBlockTimeErrors fromCaches
    cases hu : p.fUsesHeader with
    | true => simp only [hinit,if_true,hfilter.points]
    | false =>
      simp only [hinit,if_true,Bool.false_eq_true,if_false]
      rw [(hfilter.timing hu).1,(hfilter.timing hu).2]
  have hgains := (((h.calcBlockTimeErrors nTime).setTime nTime).switchGains b).gains
  obtain ⟨x,y,hxy⟩ := @calcBlockTimeErrors_eq D F p c nTime
  rw [hxy] at hgains htiming ⊢
  obtain ⟨hspacing,hrate⟩ := Prod.mk.inj htiming
  unfold PidController.switchGains at hgains ⊢
  have hinputs : ∀ g : D × Int × D × D,
      g = gainsOf F p (k.gainsSwitched || decide (nDifficultySwitchHeight5 < b.nHeight)) →
      SameInputs { c with
          dSpacingError := x
          dRateOfChange := y
          nLastCalculationTime := nTime
          dProportionalGain := g.1
          nIntegrationTime := g.2.1
          dIntegratorGain := g.2.2.1
          dDerivativeGain := g.2.2.2 }
        (fromCaches F p charged (SourceBook.oldLimits filtered)
          (k.gainsSwitched || decide (nDifficultySwitchHeight5 < b.nHeight)) nTime) := by
    rintro g rfl
    refine ⟨rfl,?_,hfilter.calculated,hfilter.last,hfilter.increaseTip,hfilter.decreaseLast,
      hfilter.decreaseTip,hspacing,hrate,rfl,rfl,rfl⟩
    simp only [fromCaches,hp]
    exact hintegrator
  split at hgains
  · rename_i hb
    rw [if_pos hb]
    exact hinputs _ hgains
  · rename_i hb
    rw [if_neg hb]
    exact hinputs _ hgains

theorem charge_isSome (k : CacheBook) (hz : b.nHeight ≠ 0) : (k.charge b).charged.isSome = true := by
  have hp := Option.isSome_iff_ne_none.mpr (pprev_ne_none hz)
  unfold CacheBook.charge
  by_cases hh : CacheBook.heightOf k.charged = b.nHeight
  · rw [if_neg (by simp [hh])]
    cases hc : k.charged with
    | none =>
      rw [hc] at hh
      exact absurd hh.symm hz
    | some a => rfl
  · rw [if_pos ⟨hp,hh⟩]
    rfl

theorem filter_isSome {n : Nat} (k : CacheBook) (hn : n ≤ b.nHeight) :
    (k.filter n b).filtered.isSome = true := by
  unfold CacheBook.filter
  rw [if_neg (not_lt.mpr hn)]
  split
  · rename_i hsame
    exact hsame.1
  · rfl

end PidController

namespace SourceBook
variable {D : Type} {F : Platform D} {p : PidParams D} {k : SourceBook} {c : PidController D}
  {b : CBlockIndex} {nTime : Int}
open PidController

/-- The caches and the target of the controller are those of the book. -/
structure Holds (F : Platform D) (p : PidParams D) (k : SourceBook) (c : PidController D) :
    Prop where
  tracks : Tracks F p k.cache c
  target : sourceTarget F p k.source = some c.uintTargetAfterLimits

/-- A call with enough blocks in a filter that is large enough. -/
theorem Holds.updateOutput_high (h : Holds F p k c) (hreq : k.cache.required b nTime = true)
    (hn : p.nTipFilterBlocks ≤ b.nHeight) (hsize : FilterSize p b) :
    ∃ c', c.updateOutputAt F p b nTime = some (true,c') ∧
      Holds F p (k.output p.nTipFilterBlocks b nTime) c' := by
  have h5 := p.five_le
  have hz : b.nHeight ≠ 0 := by omega
  have hne := pprev_ne_none hz
  obtain ⟨pprev,hp⟩ := Option.ne_none_iff_exists'.mp hne
  have hcharge := h.tracks.charge b
  obtain ⟨c₁,hc₁,-,h₁⟩ := (hcharge.filter hn).2 hsize
  have hset : (c.chargeIntegrator F b).2.setBlockTimeError F p b nTime =
      some (true,{ (c₁.calcBlockTimeErrors F p nTime).2 with nLastCalculationTime := nTime }) := by
    have hinit : c₁.fTipFilterInitialized = true := by
      rw [h₁.initialized,filter_charge_filtered]
      exact filter_isSome k.cache hn
    have htrue : (c₁.calcBlockTimeErrors F p nTime).1 = true := by
      unfold PidController.calcBlockTimeErrors
      rw [if_pos hinit]
      split <;> rfl
    unfold setBlockTimeError
    simp only [hc₁,Option.bind_eq_bind,Option.bind_some,if_true,htrue]
  obtain ⟨charged,hcharged⟩ := Option.isSome_iff_exists.mp (charge_isSome k.cache hz)
  obtain ⟨filtered,hfiltered⟩ := Option.isSome_iff_exists.mp (filter_isSome k.cache hn)
  have hcharged' : ((k.cache.charge b).filter p.nTipFilterBlocks b).charged = some charged := by
    rw [(filter_charged _ _ _).1,hcharged]
  have hfiltered' : ((k.cache.charge b).filter p.nTipFilterBlocks b).filtered = some filtered := by
    rw [filter_charge_filtered,hfiltered]
  have hsame := (h₁.sameInputs hcharged' hfiltered' b nTime).limited (F := F) (p := p) b
  obtain ⟨x,hx⟩ : ∃ x, ({ (c₁.calcBlockTimeErrors F p nTime).2 with
      nLastCalculationTime := nTime }.switchGains F b).limitOutputDifficultyChange p
      (({ (c₁.calcBlockTimeErrors F p nTime).2 with
        nLastCalculationTime := nTime }.switchGains F b).targetBeforeLimits F) b = some x := by
    cases b with
    | genesis d => exact absurd rfl hz
    | child d q =>
      cases q with
      | genesis d' =>
        simp [CBlockIndex.nHeight] at hn
        omega
      | child d' q' => exact ⟨_,rfl⟩
  have htracks := (((h₁.calcBlockTimeErrors nTime).setTime nTime).switchGains b).withTarget x
    (some (b,nTime))
  have hout : c.updateOutputAt F p b nTime = some (true,
      { ({ (c₁.calcBlockTimeErrors F p nTime).2 with
        nLastCalculationTime := nTime }.switchGains F b) with uintTargetAfterLimits := x }) := by
    rw [updateOutputAt_high ((h.tracks.required b nTime).trans hreq) hp,hset]
    simp only [Option.bind_some,if_true,hx]
  refine ⟨_,hout,?_,?_⟩
  · simp only [SourceBook.output,CacheBook.output,hreq,if_true,CacheBook.calculate,hne,if_false,
      not_lt.mpr hn]
    exact htracks
  · simp only [SourceBook.output,nextSource,hreq,if_true,CacheBook.calculate,hne,if_false,
      not_lt.mpr hn,hcharged',hfiltered',Option.map_some,sourceTarget,Option.bind_eq_bind,
      Option.bind_some]
    rw [← hx]
    exact hsame.symm

theorem Holds.updateOutput_low (h : Holds F p k c) (hreq : k.cache.required b nTime = true)
    (hn : b.nHeight < p.nTipFilterBlocks) :
    ∃ c', c.updateOutputAt F p b nTime = some (false,c') ∧
      Holds F p (k.output p.nTipFilterBlocks b nTime) c' := by
  refine ⟨_,updateOutputAt_low ((h.tracks.required b nTime).trans hreq) hn,?_,?_⟩
  · have hcalc : k.cache.calculate p.nTipFilterBlocks b nTime = k.cache.charge b := by
      unfold CacheBook.calculate
      split
      · rename_i hp
        rw [charge_eq_self k.cache hp]
      · rfl
    simp only [SourceBook.output,CacheBook.output,hreq,if_true,hcalc]
    exact (h.tracks.charge b).withTarget p.uintPOWlimit (some (b,nTime))
  · simp only [SourceBook.output,nextSource,hreq,if_true,hn]
    rfl

theorem Holds.updateOutput_same (h : Holds F p k c) (hreq : k.cache.required b nTime = false) :
    c.updateOutputAt F p b nTime = some (true,c) ∧
      Holds F p (k.output p.nTipFilterBlocks b nTime) c := by
  refine ⟨updateOutputAt_same ((h.tracks.required b nTime).trans hreq),?_,?_⟩
  · simp only [SourceBook.output,CacheBook.output,hreq,Bool.false_eq_true,if_false]
    exact h.tracks.withTarget c.uintTargetAfterLimits (some (b,nTime))
  · simp only [SourceBook.output,nextSource,hreq,Bool.false_eq_true,if_false]
    exact h.target

/-- Where no calculation is needed, the filter that is there has its size. -/
theorem Holds.filterSize (h : Holds F p k c) (hreq : k.cache.required b nTime = false)
    (hn : p.nTipFilterBlocks ≤ b.nHeight) : FilterSize p b := by
  have h5 := p.five_le
  unfold CacheBook.required at hreq
  simp only [Bool.or_eq_false_iff,bne_eq_false_iff_eq] at hreq
  apply h.tracks.filterSize_cached ⟨?_,hreq.2⟩
  cases hf : k.cache.filtered with
  | none =>
    have hz := hreq.2
    rw [hf] at hz
    simp only [CacheBook.heightOf,Option.map_none,Option.getD_none] at hz
    omega
  | some a => rfl

/-- `UpdateOutput` in every state: it fails an assertion exactly when the filter is used and too
small, and otherwise keeps the book. -/
theorem Holds.updateOutput (h : Holds F p k c) (b : CBlockIndex) (nTime : Int) :
    (b.nHeight < p.nTipFilterBlocks ∨ FilterSize p b → ∃ r c',
      c.updateOutputAt F p b nTime = some (r,c') ∧
        Holds F p (k.output p.nTipFilterBlocks b nTime) c') ∧
    (¬(b.nHeight < p.nTipFilterBlocks ∨ FilterSize p b) →
      c.updateOutputAt F p b nTime = none) := by
  cases hreq : k.cache.required b nTime with
  | false =>
    constructor
    · intro _
      exact ⟨_,_,h.updateOutput_same hreq⟩
    · intro hfits
      simp only [not_or,not_lt] at hfits
      exact absurd (h.filterSize hreq hfits.1) hfits.2
  | true =>
    rcases Nat.lt_or_ge b.nHeight p.nTipFilterBlocks with hlow | hn
    · constructor
      · intro _
        exact ⟨_,h.updateOutput_low hreq hlow⟩
      · intro hfits
        exact absurd (.inl hlow) hfits
    · constructor
      · intro hfits
        exact ⟨_,h.updateOutput_high hreq hn (hfits.resolve_left (not_lt.mpr hn))⟩
      · intro hfits
        have h5 := p.five_le
        have hz : b.nHeight ≠ 0 := by omega
        obtain ⟨pprev,hp⟩ := Option.ne_none_iff_exists'.mp (pprev_ne_none hz)
        have hnone := ((h.tracks.charge b).filter hn).1 (fun hsize => hfits (.inr hsize))
        rw [updateOutputAt_high ((h.tracks.required b nTime).trans hreq) hp,
          setBlockTimeError_eq_none.mpr hnone]
        rfl

/-- The target after a call is the one of its source. -/
theorem Holds.target_eq {k' : SourceBook} {c' : PidController D} (h : Holds F p k c)
    (h' : Holds F p k' c')
    (hsource : k'.nextSource p.nTipFilterBlocks b nTime = k.nextSource p.nTipFilterBlocks b nTime) :
    (c'.updateOutputAt F p b nTime).map (fun r => r.2.uintTargetAfterLimits) =
      (c.updateOutputAt F p b nTime).map (fun r => r.2.uintTargetAfterLimits) := by
  by_cases hfits : b.nHeight < p.nTipFilterBlocks ∨ FilterSize p b
  · obtain ⟨r,c₁,hc₁,h₁⟩ := (h.updateOutput b nTime).1 hfits
    obtain ⟨r',c₁',hc₁',h₁'⟩ := (h'.updateOutput b nTime).1 hfits
    have htarget : sourceTarget F p (k.nextSource p.nTipFilterBlocks b nTime) =
        some c₁.uintTargetAfterLimits := h₁.target
    have htarget' : sourceTarget F p (k'.nextSource p.nTipFilterBlocks b nTime) =
        some c₁'.uintTargetAfterLimits := h₁'.target
    rw [hsource,htarget] at htarget'
    rw [hc₁,hc₁']
    exact htarget'.symm
  · rw [(h.updateOutput b nTime).2 hfits,(h'.updateOutput b nTime).2 hfits]

theorem holds_new : Holds F p .empty (PidController.new F p) := ⟨tracks_new,rfl⟩

theorem Holds.charge (h : Holds F p k c) (b : CBlockIndex) :
    Holds F p (k.charge b) (c.chargeIntegrator F b).2 := by
  refine ⟨h.tracks.charge b,?_⟩
  have htarget : (c.chargeIntegrator F b).2.uintTargetAfterLimits = c.uintTargetAfterLimits := by
    unfold chargeIntegrator
    split
    · rfl
    · split <;> rfl
  rw [htarget]
  exact h.target

theorem Holds.filter (h : Holds F p k c) {r : Bool} {c' : PidController D}
    (hc : c.updateIndexTipFilter F p b = some (r,c')) :
    Holds F p (k.filter p.nTipFilterBlocks b) c' := by
  rcases Nat.lt_or_ge b.nHeight p.nTipFilterBlocks with hlow | hn
  · obtain ⟨hc₁,hk⟩ := @Tracks.filter_low D F p b k.cache c hlow
    rw [hc₁,Option.some.injEq,Prod.mk.injEq] at hc
    obtain ⟨-,rfl⟩ := hc
    refine ⟨?_,h.target⟩
    simp only [SourceBook.filter,hk]
    exact h.tracks
  · by_cases hsize : FilterSize p b
    · obtain ⟨c₁,hc₁,htarget,h₁⟩ := (h.tracks.filter hn).2 hsize
      rw [hc₁,Option.some.injEq,Prod.mk.injEq] at hc
      obtain ⟨-,rfl⟩ := hc
      refine ⟨h₁,?_⟩
      rw [htarget]
      exact h.target
    · rw [(h.tracks.filter hn).1 hsize] at hc
      contradiction

theorem Holds.calcBlockTimeErrors (h : Holds F p k c) (nTime : Int) :
    Holds F p k (c.calcBlockTimeErrors F p nTime).2 := by
  refine ⟨h.tracks.calcBlockTimeErrors nTime,?_⟩
  obtain ⟨x,y,hxy⟩ := @calcBlockTimeErrors_eq D F p c nTime
  rw [hxy]
  exact h.target

end SourceBook

namespace ChargedPid
variable {D : Type} {F : Platform D} {p : PidParams D} {k : SourceBook} {s s' : ChargedPid D}
  {b : CBlockIndex} {nTime : Int}

/-- The pointer is the block of the integrator, too. -/
structure Holds (F : Platform D) (p : PidParams D) (k : SourceBook) (s : ChargedPid D) : Prop where
  pid : k.Holds F p s.pid
  pointer : s.pChargedToIndex = k.cache.charged.map Prod.fst

theorem Holds.chargeIntegrator (h : Holds F p k s) (b : CBlockIndex) :
    Holds F p (k.charge b) (s.chargeIntegrator F b) := by
  refine ⟨h.pid.charge b,?_⟩
  simp only [ChargedPid.chargeIntegrator,SourceBook.charge,CacheBook.charge,
    h.pid.tracks.integratorHeight]
  split
  · rfl
  · exact h.pointer

theorem Holds.updateIndexTipFilter (h : Holds F p k s)
    (hs : s.updateIndexTipFilter F p b = some s') :
    Holds F p (k.filter p.nTipFilterBlocks b) s' := by
  obtain ⟨⟨r,c⟩,hc,rfl⟩ := Option.map_eq_some_iff.mp hs
  refine ⟨h.pid.filter hc,?_⟩
  simp only [SourceBook.filter,(PidController.filter_charged _ _ _).1]
  exact h.pointer

theorem calculate_charged (n : Nat) (k : CacheBook) (b : CBlockIndex) (nTime : Int) :
    (k.calculate n b nTime).charged = (k.charge b).charged := by
  unfold CacheBook.calculate
  split
  · rename_i hp
    rw [PidController.charge_eq_self k hp]
  · split
    · rfl
    · exact (PidController.filter_charged _ _ _).1

theorem Holds.updateOutputAt (h : Holds F p k s) (hs : s.updateOutputAt F p b nTime = some s') :
    Holds F p (k.output p.nTipFilterBlocks b nTime) s' := by
  obtain ⟨⟨r,c⟩,hc,rfl⟩ := Option.map_eq_some_iff.mp hs
  have hpid : (k.output p.nTipFilterBlocks b nTime).Holds F p c := by
    by_cases hfits : b.nHeight < p.nTipFilterBlocks ∨ PidController.FilterSize p b
    · obtain ⟨r',c',hc',h'⟩ := (h.pid.updateOutput b nTime).1 hfits
      rw [hc',Option.some.injEq,Prod.mk.injEq] at hc
      obtain ⟨-,rfl⟩ := hc
      exact h'
    · rw [(h.pid.updateOutput b nTime).2 hfits] at hc
      contradiction
  refine ⟨hpid,?_⟩
  simp only [SourceBook.output,CacheBook.output,h.pid.tracks.required b nTime]
  split
  · simp only [calculate_charged]
    exact (h.chargeIntegrator (F := F) b).pointer
  · exact h.pointer

theorem Holds.curve (h : Holds F p k s) (curve : List Int) :
    Holds F p k (curve.foldl (fun s nTipTime =>
      { s with pid := (s.pid.calcBlockTimeErrors F p nTipTime).2 }) s) := by
  induction curve generalizing s with
  | nil => exact h
  | cons t rest ih => exact ih ⟨h.pid.calcBlockTimeErrors t,h.pointer⟩

theorem Holds.runReports (h : Holds F p k s) {curve : List Int}
    (hs : s.runReports F p b nTime curve = some s') :
    Holds F p (k.output p.nTipFilterBlocks b nTime) s' := by
  obtain ⟨r,-,hs⟩ := Option.bind_eq_some_iff.mp hs
  obtain ⟨s₁,hs₁,hs'⟩ := Option.map_eq_some_iff.mp hs
  have h₁ := h.updateOutputAt hs₁
  split at hs'
  · subst hs'
    exact h₁.curve curve
  · subst hs'
    exact h₁

theorem Holds.height_ne_zero (h : Holds F p k s) {prev : CBlockIndex × Bool}
    (hprev : k.cache.charged = some prev) : s.pid.nIntegratorHeight ≠ 0 := by
  obtain ⟨pprev,hp,-⟩ := h.pid.tracks.charged prev.1 prev.2 hprev
  rw [h.pid.tracks.integratorHeight,hprev]
  exact PidController.nHeight_ne_zero hp

/-- A report keeps the book. -/
theorem Holds.getRetargetStats (h : Holds F p k s) {nHeight : Nat}
    {pIndexAtTip : Option CBlockIndex} {nAdjustedTime : Uint32}
    (hs : s.getRetargetStats F p nHeight pIndexAtTip nAdjustedTime = some s') :
    Holds F p (k.afterStats p.nTipFilterBlocks nHeight pIndexAtTip nAdjustedTime) s' := by
  unfold ChargedPid.getRetargetStats at hs
  unfold SourceBook.afterStats
  cases hcharge : statsCharge p.nTipFilterBlocks nHeight pIndexAtTip nAdjustedTime with
  | none =>
    simp only [hcharge,Option.some.injEq] at hs
    subst hs
    exact h
  | some charge =>
    simp only [hcharge] at hs ⊢
    obtain ⟨s₁,hs₁,hrestore⟩ := Option.bind_eq_some_iff.mp hs
    have h₁ := h.updateOutputAt hs₁
    unfold SourceBook.stats
    unfold restore at hrestore
    rw [h.pointer] at hrestore
    cases hprev : k.cache.charged with
    | none =>
      simp only [hprev,Option.map_none,Option.some.injEq] at hrestore
      subst hrestore
      exact h₁
    | some prev =>
      simp only [hprev,Option.map_some,h.height_ne_zero hprev,ne_eq,not_false_eq_true,true_and,
        h₁.pointer] at hrestore
      simp only [ne_eq]
      split at hrestore
      · rename_i hne
        rw [if_pos hne]
        exact (h₁.chargeIntegrator prev.1).updateIndexTipFilter hrestore
      · rename_i heq
        simp only [Option.some.injEq] at hrestore
        subst hrestore
        rw [if_neg heq]
        exact h₁

theorem Holds.apply (h : Holds F p k s) {call : StatsCall} (hs : call.apply F p s = some s') :
    Holds F p (k.note p.nTipFilterBlocks call) s' := by
  cases call with
  | chargeIntegrator b =>
    simp only [StatsCall.apply,Option.some.injEq] at hs
    subst hs
    exact h.chargeIntegrator b
  | updateIndexTipFilter b => exact h.updateIndexTipFilter hs
  | updateOutput b header => exact h.updateOutputAt hs
  | runReports b header curve => exact h.runReports hs
  | getRetargetStats nHeight pIndexAtTip nAdjustedTime => exact h.getRetargetStats hs

theorem Holds.run (h : Holds F p k s) {calls : List StatsCall}
    (hs : statsRun F p s calls = some s') :
    Holds F p (k.notes p.nTipFilterBlocks calls) s' := by
  induction calls generalizing k s with
  | nil =>
    simp only [statsRun,Option.some.injEq] at hs
    subst hs
    exact h
  | cons call rest ih =>
    obtain ⟨s₁,hcall,hrest⟩ := Option.bind_eq_some_iff.mp hs
    exact ih (h.apply hcall) hrest

theorem Holds.target_eq {k' : SourceBook} (h : Holds F p k s) (h' : Holds F p k' s')
    (hsource : k'.nextSource p.nTipFilterBlocks b nTime = k.nextSource p.nTipFilterBlocks b nTime) :
    (s'.updateOutputAt F p b nTime).map (fun r => r.pid.uintTargetAfterLimits) =
      (s.updateOutputAt F p b nTime).map (fun r => r.pid.uintTargetAfterLimits) := by
  simp only [ChargedPid.updateOutputAt,Option.map_map]
  exact h.pid.target_eq h'.pid hsource

/-- In every run, a report leaves the target of a following `UpdateOutput` as it is whenever
that call takes its target from the same source with and without the report. -/
theorem getRetargetStats_frame {calls : List StatsCall}
    (hrun : statsRun F p (new F p) calls = some s) {nHeight : Nat}
    {pIndexAtTip : Option CBlockIndex} {nAdjustedTime : Uint32}
    (hstats : s.getRetargetStats F p nHeight pIndexAtTip nAdjustedTime = some s')
    {pIndex : CBlockIndex} {pBlockHeader : CBlockHeader}
    (hsource : ((SourceBook.empty.notes p.nTipFilterBlocks calls).afterStats p.nTipFilterBlocks
        nHeight pIndexAtTip nAdjustedTime).nextSource p.nTipFilterBlocks pIndex
          pBlockHeader.nTime.toNat =
      (SourceBook.empty.notes p.nTipFilterBlocks calls).nextSource p.nTipFilterBlocks pIndex
        pBlockHeader.nTime.toNat) :
    (s'.updateOutputAt F p pIndex pBlockHeader.nTime.toNat).map
        (fun r => r.pid.uintTargetAfterLimits) =
      (s.updateOutputAt F p pIndex pBlockHeader.nTime.toNat).map
        (fun r => r.pid.uintTargetAfterLimits) := by
  have hnew : Holds F p .empty (new F p) := ⟨SourceBook.holds_new,rfl⟩
  have h := hnew.run hrun
  exact h.target_eq (h.getRetargetStats hstats) hsource

end ChargedPid

namespace SourceBook
variable {n : Nat} {k : SourceBook} {prev b q : CBlockIndex} {nTime nStatsTime : Int}

/-- Both caches were filled for one block, with the gains and limits that are still in force. -/
structure Settled (n : Nat) (k : SourceBook) (prev : CBlockIndex) : Prop where
  positive : 0 < n
  enough : n ≤ prev.nHeight
  charged : k.cache.charged = some (prev,k.cache.gainsSwitched)
  filtered : k.cache.filtered.map oldLimits = some (oldLimits (prev,k.cache.limitsSwitched))
  switched : nDifficultySwitchHeight5 < prev.nHeight →
    k.cache.gainsSwitched = true ∧ k.cache.limitsSwitched = true
  target : k.cache.lastTime ≠ 0 → k.source = .calculated k.cache.charged
    (k.cache.filtered.map oldLimits) k.cache.gainsSwitched prev k.cache.lastTime

theorem Settled.heights (h : Settled n k prev) :
    CacheBook.heightOf k.cache.charged = prev.nHeight ∧
      CacheBook.heightOf k.cache.filtered = prev.nHeight ∧ k.cache.filtered.isSome = true := by
  obtain ⟨a,ha,hold⟩ := Option.map_eq_some_iff.mp h.filtered
  have hblock : a.1 = prev := congrArg Prod.fst hold
  rw [h.charged,ha]
  exact ⟨rfl,congrArg CBlockIndex.nHeight hblock,rfl⟩

/-- A block that is not the first above the switch changes no mark. -/
theorem or_switched {switched : Bool} (h : nDifficultySwitchHeight5 < b.nHeight → switched = true) :
    (switched || decide (nDifficultySwitchHeight5 < b.nHeight)) = switched := by
  by_cases hlt : nDifficultySwitchHeight5 < b.nHeight
  · rw [h hlt,Bool.true_or]
  · rw [decide_eq_false hlt,Bool.or_false]

/-- The caches after a call for a block of a height that neither had. -/
theorem calculate_fresh {k : CacheBook} (hc : CacheBook.heightOf k.charged ≠ b.nHeight)
    (hf : CacheBook.heightOf k.filtered ≠ b.nHeight) (hpos : 0 < n) (hn : n ≤ b.nHeight) :
    k.calculate n b nTime = { k with
      charged := some (b,k.gainsSwitched)
      filtered := some (b,k.limitsSwitched)
      limitsSwitched := k.limitsSwitched || decide (nDifficultySwitchHeight5 < b.nHeight)
      lastTime := nTime
      gainsSwitched := k.gainsSwitched || decide (nDifficultySwitchHeight5 < b.nHeight) } := by
  have hz : b.nHeight ≠ 0 := by omega
  have hp := PidController.pprev_ne_none hz
  have hcharge : k.charge b = { k with charged := some (b,k.gainsSwitched) } := by
    unfold CacheBook.charge
    rw [if_pos ⟨Option.isSome_iff_ne_none.mpr hp,hc⟩]
  have hfilter : ¬(k.filtered.isSome = true ∧ CacheBook.heightOf k.filtered = b.nHeight) :=
    fun hsame => hf hsame.2
  unfold CacheBook.calculate
  rw [if_neg hp,if_neg (not_lt.mpr hn),hcharge]
  simp only [CacheBook.filter,if_neg (not_lt.mpr hn),if_neg hfilter]

/-- A call of `UpdateOutput` for a block of a new height settles the book. -/
theorem settled_output (hc : CacheBook.heightOf k.cache.charged ≠ b.nHeight)
    (hf : CacheBook.heightOf k.cache.filtered ≠ b.nHeight) (hpos : 0 < n) (hn : n ≤ b.nHeight)
    (hswitch : nDifficultySwitchHeight5 < b.nHeight →
      k.cache.gainsSwitched = true ∧ k.cache.limitsSwitched = true) :
    Settled n (k.output n b nTime) b := by
  have hreq : k.cache.required b nTime = true := by
    unfold CacheBook.required
    simp [hc]
  have hgains := or_switched (fun hlt => (hswitch hlt).1)
  have hlimits := or_switched (fun hlt => (hswitch hlt).2)
  simp only [SourceBook.output,CacheBook.output,SourceBook.nextSource,hreq,if_true,
    calculate_fresh hc hf hpos hn,if_neg (not_lt.mpr hn),hgains,hlimits]
  exact ⟨hpos,hn,rfl,rfl,hswitch,fun _ => rfl⟩

/-- The caches of a settled book after a call for its own block. -/
theorem Settled.calculate_self (h : Settled n k prev) :
    k.cache.calculate n prev nTime = { k.cache with lastTime := nTime } := by
  obtain ⟨hc,hf,hsome⟩ := h.heights
  have hpos := h.positive
  have henough := h.enough
  have hp := PidController.pprev_ne_none (show prev.nHeight ≠ 0 by omega)
  have hcharge : k.cache.charge prev = k.cache := by
    unfold CacheBook.charge
    rw [hc,if_neg (by simp)]
  have hgains := or_switched (fun hlt => (h.switched hlt).1)
  unfold CacheBook.calculate
  rw [if_neg hp,if_neg (not_lt.mpr henough),hcharge]
  simp only [CacheBook.filter,if_neg (not_lt.mpr henough),if_pos (And.intro hsome hf),hgains]

theorem Settled.calculate_other (h : Settled n k prev) (hb : b.nHeight ≠ prev.nHeight)
    (hn : n ≤ b.nHeight) :
    k.cache.calculate n b nTime = { k.cache with
      charged := some (b,k.cache.gainsSwitched)
      filtered := some (b,k.cache.limitsSwitched)
      limitsSwitched := k.cache.limitsSwitched || decide (nDifficultySwitchHeight5 < b.nHeight)
      lastTime := nTime
      gainsSwitched := k.cache.gainsSwitched || decide (nDifficultySwitchHeight5 < b.nHeight) } := by
  obtain ⟨hc,hf,-⟩ := h.heights
  apply calculate_fresh _ _ h.positive hn
  · rw [hc]
    exact hb.symm
  · rw [hf]
    exact hb.symm

theorem Settled.required_other (h : Settled n k prev) (hb : b.nHeight ≠ prev.nHeight) :
    k.cache.required b nTime = true := by
  unfold CacheBook.required
  rw [h.heights.1]
  simp [hb.symm]

/-- In a settled book the next source depends on the block and the time alone. -/
theorem Settled.nextSource (h : Settled n k prev) (ht : nTime ≠ 0)
    (hb : b = prev ∨ b.nHeight ≠ prev.nHeight) :
    k.nextSource n b nTime = if b.nHeight < n then .limit
      else .calculated (some (b,k.cache.gainsSwitched))
        (some (oldLimits (b,k.cache.limitsSwitched)))
        (k.cache.gainsSwitched || decide (nDifficultySwitchHeight5 < b.nHeight)) b nTime := by
  unfold SourceBook.nextSource
  rcases hb with rfl | hb
  · have hgains := or_switched (fun hlt => (h.switched hlt).1)
    simp only [if_neg (not_lt.mpr h.enough),hgains]
    cases hreq : k.cache.required b nTime with
    | true => simp only [if_true,h.calculate_self,h.charged,h.filtered]
    | false =>
      unfold CacheBook.required at hreq
      simp only [Bool.or_eq_false_iff,bne_eq_false_iff_eq] at hreq
      have htime := hreq.1.2
      have htarget := h.target (by rw [htime]; exact ht)
      simp only [Bool.false_eq_true,if_false,htarget,htime,h.charged,h.filtered]
  · rw [h.required_other hb,if_pos rfl]
    split
    · rfl
    · rename_i hn
      rw [h.calculate_other hb (not_lt.mp hn)]
      rfl

/-- A report for the same block, or for one of another height on the same side of the switch,
leaves the book settled. -/
theorem Settled.stats (h : Settled n k prev) (hq : q = prev ∨ q.nHeight ≠ prev.nHeight)
    (hn : n ≤ q.nHeight) (hswitch : nDifficultySwitchHeight5 < q.nHeight →
      k.cache.gainsSwitched = true ∧ k.cache.limitsSwitched = true) :
    Settled n (k.stats n q nStatsTime) prev ∧
      (k.stats n q nStatsTime).cache.gainsSwitched = k.cache.gainsSwitched ∧
      (k.stats n q nStatsTime).cache.limitsSwitched = k.cache.limitsSwitched := by
  have hpos := h.positive
  have henough := h.enough
  have hgains := or_switched (fun hlt => (hswitch hlt).1)
  have hlimits := or_switched (fun hlt => (hswitch hlt).2)
  unfold SourceBook.stats
  rw [h.charged]
  simp only
  rcases hq with rfl | hq
  · have hcharged : (k.output n q nStatsTime).cache.charged = k.cache.charged := by
      simp only [SourceBook.output,CacheBook.output]
      split
      · rw [h.calculate_self]
      · rfl
    rw [hcharged,h.charged,if_neg (by simp)]
    cases hreq : k.cache.required q nStatsTime with
    | false =>
      simp only [SourceBook.output,CacheBook.output,SourceBook.nextSource,hreq,
        Bool.false_eq_true,if_false]
      exact ⟨⟨hpos,henough,h.charged,h.filtered,h.switched,h.target⟩,trivial,trivial⟩
    | true =>
      simp only [SourceBook.output,CacheBook.output,SourceBook.nextSource,hreq,if_true,
        h.calculate_self,if_neg (not_lt.mpr henough)]
      exact ⟨⟨hpos,henough,h.charged,h.filtered,h.switched,fun _ => rfl⟩,trivial,trivial⟩
  · have hp := Option.isSome_iff_ne_none.mpr
      (PidController.pprev_ne_none (show prev.nHeight ≠ 0 by omega))
    have hcache : (k.output n q nStatsTime).cache = { k.cache with
        charged := some (q,k.cache.gainsSwitched)
        filtered := some (q,k.cache.limitsSwitched)
        lastTime := nStatsTime
        lastOutput := some (q,nStatsTime) } := by
      simp only [SourceBook.output,CacheBook.output,h.required_other hq,if_true,
        h.calculate_other hq hn,hgains,hlimits]
    have hne : ¬some q = some prev := by
      intro heq
      rw [Option.some.inj heq] at hq
      exact hq rfl
    have hcharge : ((k.output n q nStatsTime).charge prev).cache = { k.cache with
        charged := some (prev,k.cache.gainsSwitched)
        filtered := some (q,k.cache.limitsSwitched)
        lastTime := nStatsTime
        lastOutput := some (q,nStatsTime) } := by
      simp only [SourceBook.charge,hcache,CacheBook.charge]
      rw [if_pos ⟨hp,hq⟩]
    have hfilter : (((k.output n q nStatsTime).charge prev).filter n prev).cache = { k.cache with
        charged := some (prev,k.cache.gainsSwitched)
        filtered := some (prev,k.cache.limitsSwitched)
        lastTime := 0
        lastOutput := some (q,nStatsTime) } := by
      simp only [SourceBook.filter,hcharge,CacheBook.filter,if_neg (not_lt.mpr henough)]
      rw [if_neg (fun hsame => hq hsame.2),or_switched (fun hlt => (h.switched hlt).2)]
    rw [if_pos (by rw [hcache]; exact hne)]
    refine ⟨⟨hpos,henough,?_,?_,?_,?_⟩,?_,?_⟩
    · rw [hfilter]
    · rw [hfilter]
      rfl
    · rw [hfilter]
      exact h.switched
    · rw [hfilter]
      exact fun ht => absurd rfl ht
    · rw [hfilter]
    · rw [hfilter]

/-- In a settled book such a report leaves the source of the next call as it is. -/
theorem Settled.nextSource_stats (h : Settled n k prev)
    (hq : q = prev ∨ q.nHeight ≠ prev.nHeight) (hn : n ≤ q.nHeight)
    (hswitch : nDifficultySwitchHeight5 < q.nHeight →
      k.cache.gainsSwitched = true ∧ k.cache.limitsSwitched = true)
    (ht : nTime ≠ 0) (hb : b = prev ∨ b.nHeight ≠ prev.nHeight) :
    (k.stats n q nStatsTime).nextSource n b nTime = k.nextSource n b nTime := by
  obtain ⟨hstats,hgains,hlimits⟩ := @Settled.stats n k prev q nStatsTime h hq hn hswitch
  rw [hstats.nextSource ht hb,h.nextSource ht hb,hgains,hlimits]

end SourceBook

theorem CBlockIndex.downTo_nHeight {m : Nat} {b : CBlockIndex} (h : m ≤ b.nHeight) :
    (b.downTo m).nHeight = m := by
  induction b with
  | genesis d =>
    have hz : m = 0 := by simpa [nHeight] using h
    rw [hz]
    rfl
  | child d pprev ih =>
    unfold downTo
    split
    · rename_i hlt
      exact ih (by simp only [nHeight] at hlt; omega)
    · omega

theorem statsCharge_nHeight {n nHeight : Nat} {pIndexAtTip : Option CBlockIndex}
    {nAdjustedTime : Uint32} {charge : CBlockIndex × Int}
    (h : statsCharge n nHeight pIndexAtTip nAdjustedTime = some charge) : n ≤ charge.1.nHeight := by
  unfold statsCharge at h
  cases pIndexAtTip with
  | none => contradiction
  | some tip =>
    simp only at h
    split_ifs at h with hearly hat
    · obtain rfl := Option.some.inj h
      exact not_lt.mp fun hlt => hearly (.inl hlt)
    · obtain ⟨pprev,hp,rfl⟩ := Option.map_eq_some_iff.mp h
      have hheight := CBlockIndex.downTo_nHeight (show nHeight ≤ tip.nHeight by omega)
      cases hd : tip.downTo nHeight with
      | genesis d => simp [hd,CBlockIndex.pprev] at hp
      | child d q =>
        simp only [hd,CBlockIndex.pprev,Option.some.injEq] at hp
        simp only [hd,CBlockIndex.nHeight] at hheight
        simp only [← hp]
        omega

/-- After a run that left both caches to one block, a report for that block or for one of
another height, that does not cross the switch, changes no target of that block or of
another height. -/
theorem ChargedPid.getRetargetStats_settled {D : Type} {F : Platform D} {p : PidParams D}
    {calls : List StatsCall} {s s' : ChargedPid D}
    (hrun : statsRun F p (ChargedPid.new F p) calls = some s) {nHeight : Nat}
    {pIndexAtTip : Option CBlockIndex} {nAdjustedTime : Uint32}
    (hstats : s.getRetargetStats F p nHeight pIndexAtTip nAdjustedTime = some s')
    {k : SourceBook} (hk : k = SourceBook.empty.notes p.nTipFilterBlocks calls)
    {prev b : CBlockIndex} {nTime : Int} (hsettled : k.Settled p.nTipFilterBlocks prev)
    (hcharge : ∀ charge,
      statsCharge p.nTipFilterBlocks nHeight pIndexAtTip nAdjustedTime = some charge →
      (charge.1 = prev ∨ charge.1.nHeight ≠ prev.nHeight) ∧
      (nDifficultySwitchHeight5 < charge.1.nHeight →
        k.cache.gainsSwitched = true ∧ k.cache.limitsSwitched = true))
    (ht : nTime ≠ 0) (hb : b = prev ∨ b.nHeight ≠ prev.nHeight) :
    (s'.updateOutputAt F p b nTime).map (fun r => r.pid.uintTargetAfterLimits) =
      (s.updateOutputAt F p b nTime).map (fun r => r.pid.uintTargetAfterLimits) := by
  have hnew : Holds F p .empty (ChargedPid.new F p) := ⟨SourceBook.holds_new,rfl⟩
  have h := hnew.run hrun
  rw [← hk] at h
  apply h.target_eq (h.getRetargetStats hstats)
  unfold SourceBook.afterStats
  cases hc : statsCharge p.nTipFilterBlocks nHeight pIndexAtTip nAdjustedTime with
  | none => rfl
  | some charge =>
    obtain ⟨hq,hswitch⟩ := hcharge charge hc
    exact hsettled.nextSource_stats hq (statsCharge_nHeight hc) hswitch ht hb

namespace ChargedPid

/-- A report at the tip between two calls on one chain. -/
theorem getRetargetStats_even :
    ∃ s s', statsRun ratPlatform mainPidParams (new ratPlatform mainPidParams)
        [.updateOutput (evenChain 0x1d00ffff 21) (evenHeader 22)] = some s ∧
      s.getRetargetStats ratPlatform mainPidParams 0 (some (evenChain 0x1d00ffff 22)) 5000 =
        some s' ∧
      (s'.updateOutputAt ratPlatform mainPidParams (evenChain 0x1d00ffff 22)
          (evenHeader 23).nTime.toNat).map (fun r => r.pid.uintTargetAfterLimits) =
        (s.updateOutputAt ratPlatform mainPidParams (evenChain 0x1d00ffff 22)
          (evenHeader 23).nTime.toNat).map (fun r => r.pid.uintTargetAfterLimits) := by
  obtain ⟨s,hs⟩ := Option.isSome_iff_exists.mp (by decide +kernel :
    (statsRun ratPlatform mainPidParams (new ratPlatform mainPidParams)
      [.updateOutput (evenChain 0x1d00ffff 21) (evenHeader 22)]).isSome = true)
  obtain ⟨s',hs'⟩ := Option.isSome_iff_exists.mp (by decide +kernel :
    ((statsRun ratPlatform mainPidParams (new ratPlatform mainPidParams)
      [.updateOutput (evenChain 0x1d00ffff 21) (evenHeader 22)]).bind fun s =>
        s.getRetargetStats ratPlatform mainPidParams 0 (some (evenChain 0x1d00ffff 22))
          5000).isSome = true)
  rw [hs,Option.bind_some] at hs'
  exact ⟨s,s',hs,hs',getRetargetStats_frame hs hs' (by decide +kernel)⟩

/-- A report for the tip of another branch in a new controller stays behind: the block of the
same height is then answered from the other branch's filter. -/
theorem getRetargetStats_disturbs :
    ∃ s', (new ratPlatform mainPidParams).getRetargetStats ratPlatform mainPidParams 0
        (some (evenChain 0x1e0ffff0 21)) 4000 = some s' ∧
      (s'.updateOutputAt ratPlatform mainPidParams (evenChain 0x1d00ffff 21)
          (evenHeader 22).nTime.toNat).map (fun r => r.pid.uintTargetAfterLimits) ≠
        ((new ratPlatform mainPidParams).updateOutputAt ratPlatform mainPidParams
          (evenChain 0x1d00ffff 21) (evenHeader 22).nTime.toNat).map
            (fun r => r.pid.uintTargetAfterLimits) := by
  have hdisturbs : ((new ratPlatform mainPidParams).getRetargetStats ratPlatform mainPidParams 0
      (some (evenChain 0x1e0ffff0 21)) 4000).any (fun s' =>
        (s'.updateOutputAt ratPlatform mainPidParams (evenChain 0x1d00ffff 21)
          (evenHeader 22).nTime.toNat).map (fun r => r.pid.uintTargetAfterLimits) !=
        ((new ratPlatform mainPidParams).updateOutputAt ratPlatform mainPidParams
          (evenChain 0x1d00ffff 21) (evenHeader 22).nTime.toNat).map
            (fun r => r.pid.uintTargetAfterLimits)) = true := by decide +kernel
  obtain ⟨s',hs',hne⟩ := (Option.any_eq_true _ _).mp hdisturbs
  exact ⟨s',hs',bne_iff_ne.mp hne⟩

end ChargedPid

end Anoncoin
