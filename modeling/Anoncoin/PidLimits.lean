import Anoncoin.PidCache

/-!
The limits on a change of difficulty after a slow block: when the forced decrease of the
difficulty holds, and where the average over the tip takes it back.
-/

set_option autoImplicit false

namespace Anoncoin

namespace PidController
variable {D : Type} {F : Platform D} {p : PidParams D} {c : PidController D}
  {pIndex previous beforePrevious : CBlockIndex}

/-- The target of the last block, or the limit where that is harder. -/
def lastTargetOrLimit (p : PidParams D) (pIndex : CBlockIndex) : Uint256 :=
  if p.uintPOWlimit < (setCompact pIndex.data.nBits).target then p.uintPOWlimit
  else (setCompact pIndex.data.nBits).target

/-- The calculated output is an increase of difficulty that is not capped. -/
def UncappedIncrease (c : PidController D) (uintCalculated : Uint256) : Prop :=
  c.uintDiffAtMaxIncreaseTip ≤ uintCalculated ∧ uintCalculated < c.uintPrevDiffForLimitsLast

/-- The header came so late that the extended decrease applies. -/
def ExtDecrease (c : PidController D) (pIndex beforePrevious : CBlockIndex) : Prop :=
  10*nTargetSpacing ≤ c.nLastCalculationTime-pIndex.getBlockTime ∧
    nDifficultySwitchHeight5 < beforePrevious.nHeight

instance (c : PidController D) (uintCalculated : Uint256) :
    Decidable (UncappedIncrease c uintCalculated) := by
  unfold UncappedIncrease
  infer_instance

instance (c : PidController D) (pIndex beforePrevious : CBlockIndex) :
    Decidable (ExtDecrease c pIndex beforePrevious) := by
  unfold ExtDecrease
  infer_instance

/-- What the limits leave after a slow block, before the extended decrease and the limit. -/
def forcedDecrease (c : PidController D) (uintCalculated : Uint256) : Uint256 :=
  if UncappedIncrease c uintCalculated ∧ ¬c.uintDiffAtMaxDecreaseLast < c.uintDiffAtMaxDecreaseTip
  then c.uintDiffAtMaxDecreaseTip else c.uintDiffAtMaxDecreaseLast

def extendedDecrease (c : PidController D) (uintCalculated : Uint256)
    (pIndex beforePrevious : CBlockIndex) : Uint256 :=
  if c.forcedDecrease uintCalculated < c.uintDiffAtMaxDecreaseTip ∧
    ExtDecrease c pIndex beforePrevious then c.uintDiffAtMaxDecreaseTip
  else c.forcedDecrease uintCalculated

theorem limitOutputDifficultyChange_slow (hprev : pIndex.pprev = some previous)
    (hbefore : previous.pprev = some beforePrevious)
    (hslow : 3*nTargetSpacing ≤ (pIndex.getBlockTime : Int)-previous.getBlockTime)
    (uintCalculated : Uint256) :
    c.limitOutputDifficultyChange p uintCalculated pIndex =
      some (if p.uintPOWlimit < c.extendedDecrease uintCalculated pIndex beforePrevious then
        p.uintPOWlimit else c.extendedDecrease uintCalculated pIndex beforePrevious) := by
  have hquick : ¬(pIndex.getBlockTime : Int)-previous.getBlockTime < nTargetSpacing := by
    simp only [nTargetSpacing] at hslow ⊢
    omega
  have hforced : c.forcedDecrease uintCalculated =
      if uintCalculated < c.uintPrevDiffForLimitsLast then
        if uintCalculated < c.uintDiffAtMaxIncreaseTip then c.uintDiffAtMaxDecreaseLast
        else if c.uintDiffAtMaxDecreaseLast < c.uintDiffAtMaxDecreaseTip then
          c.uintDiffAtMaxDecreaseLast
        else c.uintDiffAtMaxDecreaseTip
      else c.uintDiffAtMaxDecreaseLast := by
    unfold forcedDecrease UncappedIncrease
    simp only [← BitVec.not_lt]
    split_ifs <;> simp_all
  unfold limitOutputDifficultyChange extendedDecrease ExtDecrease
  simp only [hprev,hbefore,Option.bind_eq_bind,Option.bind_some,hslow,not_lt.mpr hslow,hquick,
    false_and,and_false,if_true,if_false,true_or,hforced]

/-- A bound that the limit meets is met by a value exactly when it is met under the limit. -/
theorem le_capped_iff {limit m x : Uint256} (hm : m ≤ limit) :
    m ≤ (if limit < x then limit else x) ↔ m ≤ x := by
  split
  · rename_i hlt
    have hle : limit ≤ x := BitVec.le_of_lt hlt
    exact ⟨fun _ => BitVec.le_trans hm hle,fun _ => hm⟩
  · exact Iff.rfl

theorem lastTargetOrLimit_le (p : PidParams D) (pIndex : CBlockIndex) :
    lastTargetOrLimit p pIndex ≤ p.uintPOWlimit := by
  unfold lastTargetOrLimit
  split
  · exact BitVec.le_refl _
  · rename_i hlt
    exact BitVec.not_lt.mp hlt

theorem le_forcedDecrease_iff (c : PidController D) (uintCalculated m : Uint256) :
    m ≤ c.forcedDecrease uintCalculated ↔ m ≤ c.uintDiffAtMaxDecreaseLast ∧
      (UncappedIncrease c uintCalculated → m ≤ c.uintDiffAtMaxDecreaseTip) := by
  unfold forcedDecrease
  by_cases hu : UncappedIncrease c uintCalculated
  · by_cases hlt : c.uintDiffAtMaxDecreaseLast < c.uintDiffAtMaxDecreaseTip
    · simp only [hu,hlt,not_true_eq_false,and_false,if_false,true_imp_iff]
      exact ⟨fun h => ⟨h,BitVec.le_trans h (BitVec.le_of_lt hlt)⟩,And.left⟩
    · simp only [hu,hlt,not_false_eq_true,and_self,if_true,true_imp_iff]
      exact ⟨fun h => ⟨BitVec.le_trans h (BitVec.not_lt.mp hlt),h⟩,And.right⟩
  · simp [hu]

theorem le_extendedDecrease_iff (c : PidController D) (uintCalculated m : Uint256)
    (pIndex beforePrevious : CBlockIndex) :
    m ≤ c.extendedDecrease uintCalculated pIndex beforePrevious ↔
      m ≤ c.forcedDecrease uintCalculated ∨
        (ExtDecrease c pIndex beforePrevious ∧ m ≤ c.uintDiffAtMaxDecreaseTip) := by
  unfold extendedDecrease
  by_cases hext : ExtDecrease c pIndex beforePrevious
  · by_cases hlt : c.forcedDecrease uintCalculated < c.uintDiffAtMaxDecreaseTip
    · simp only [hext,hlt,and_self,if_true,true_and]
      exact ⟨.inr,fun h => h.elim (fun h => BitVec.le_trans h (BitVec.le_of_lt hlt)) id⟩
    · simp only [hext,hlt,and_true,if_false,true_and]
      exact ⟨.inl,fun h => h.elim id fun h => BitVec.le_trans h (BitVec.not_lt.mp hlt)⟩
  · simp [hext]

/-- After a slow block the limited result is as easy as the last block, or at the limit,
exactly when the decrease from the last block or the extended one is, and an increase
that is not capped finds the average over the tip as easy too. -/
theorem slow_block_eases_iff (hprev : pIndex.pprev = some previous)
    (hbefore : previous.pprev = some beforePrevious)
    (hslow : 3*nTargetSpacing ≤ (pIndex.getBlockTime : Int)-previous.getBlockTime)
    (uintCalculated : Uint256) :
    (∃ result, c.limitOutputDifficultyChange p uintCalculated pIndex = some result ∧
        lastTargetOrLimit p pIndex ≤ result) ↔
      (lastTargetOrLimit p pIndex ≤ c.uintDiffAtMaxDecreaseLast ∨
        (ExtDecrease c pIndex beforePrevious ∧
          lastTargetOrLimit p pIndex ≤ c.uintDiffAtMaxDecreaseTip)) ∧
      (UncappedIncrease c uintCalculated →
        lastTargetOrLimit p pIndex ≤ c.uintDiffAtMaxDecreaseTip) := by
  rw [limitOutputDifficultyChange_slow hprev hbefore hslow]
  simp only [Option.some.injEq,exists_eq_left',le_capped_iff (lastTargetOrLimit_le p pIndex),
    le_extendedDecrease_iff,le_forcedDecrease_iff]
  tauto

theorem maxDiff_snd (c : PidController D) (b : CBlockIndex) : 101 ≤ (c.maxDiff b).2 := by
  by_cases hb : nDifficultySwitchHeight5 < b.nHeight
  · simp [maxDiff,hb]
  · simp only [maxDiff,hb,if_false]
    split
    · exact Nat.le_refl 101
    · omega

/-- In a filter just set the decrease from the last block is one, unless it wraps. -/
theorem lastTargetOrLimit_le_decreaseLast (c : PidController D) (pIndex : CBlockIndex)
    (h : (setCompact pIndex.data.nBits).target.toNat*(c.maxDiff pIndex).2 < 2^256) :
    lastTargetOrLimit p pIndex ≤ (c.setTipFilter F p pIndex).uintDiffAtMaxDecreaseLast := by
  have hd := maxDiff_snd c pIndex
  have hlast : lastTargetOrLimit p pIndex ≤ (setCompact pIndex.data.nBits).target := by
    unfold lastTargetOrLimit
    split
    · rename_i hlt
      exact BitVec.le_of_lt hlt
    · exact BitVec.le_refl _
  apply BitVec.le_trans hlast
  simp only [setTipFilter,BitVec.le_def,BitVec.toNat_udiv,BitVec.toNat_mul,BitVec.toNat_ofNat]
  have hmod : (setCompact pIndex.data.nBits).target.toNat*((c.maxDiff pIndex).2%2^256)%2^256 =
      (setCompact pIndex.data.nBits).target.toNat*(c.maxDiff pIndex).2 := by
    rw [← Nat.mul_mod_mod,Nat.mod_mod,Nat.mul_mod_mod,Nat.mod_eq_of_lt h]
  have hle : (setCompact pIndex.data.nBits).target.toNat*100 ≤
      (setCompact pIndex.data.nBits).target.toNat*(c.maxDiff pIndex).2 :=
    Nat.mul_le_mul_left _ (by omega)
  rw [hmod]
  exact (Nat.le_div_iff_mul_le (by decide)).mpr hle

/-- With a filter just set for the block only the average over the tip can take the decrease
back, and only from an increase that is not capped. -/
theorem slow_block_eases_fresh {c' : PidController D} (hprev : pIndex.pprev = some previous)
    (hbefore : previous.pprev = some beforePrevious)
    (hslow : 3*nTargetSpacing ≤ (pIndex.getBlockTime : Int)-previous.getBlockTime)
    (hlast : c'.uintDiffAtMaxDecreaseLast = (c.setTipFilter F p pIndex).uintDiffAtMaxDecreaseLast)
    (h : (setCompact pIndex.data.nBits).target.toNat*(c.maxDiff pIndex).2 < 2^256)
    (uintCalculated : Uint256) :
    (∃ result, c'.limitOutputDifficultyChange p uintCalculated pIndex = some result ∧
        lastTargetOrLimit p pIndex ≤ result) ↔
      (UncappedIncrease c' uintCalculated →
        lastTargetOrLimit p pIndex ≤ c'.uintDiffAtMaxDecreaseTip) := by
  have hle : lastTargetOrLimit p pIndex ≤ c'.uintDiffAtMaxDecreaseLast := by
    rw [hlast]
    exact lastTargetOrLimit_le_decreaseLast c pIndex h
  rw [limitOutputDifficultyChange_slow hprev hbefore hslow]
  simp only [Option.some.injEq,exists_eq_left',le_capped_iff (lastTargetOrLimit_le p pIndex),
    le_extendedDecrease_iff,le_forcedDecrease_iff,hle,true_and]
  tauto

end PidController

/-- Six slow blocks behind an even chain, each but the first eased by the most that the limits
allow. -/
def easedChain : CBlockIndex :=
  [0x1d00ffff,0x1d01b331,0x1d02e3d3,0x1d04e9b3,0x1d085a16,0x1d0e32bf].foldl
    (fun b nBits => .child ⟨2,0,b.data.nTime+540,nBits,0,0,0⟩ b) (evenChain 0x1d00ffff 16)

namespace PidController

/-- A slow block behind an even chain keeps the decrease, whatever the output calculated. -/
theorem slow_block_eases_even :
    ∃ pIndex, pIndex = CBlockIndex.child ⟨2,0,4320,0x1d00ffff,0,0,0⟩ (evenChain 0x1d00ffff 21) ∧
      ∀ uintCalculated, ∃ result,
        ((new ratPlatform mainPidParams).setTipFilter ratPlatform mainPidParams
            pIndex).limitOutputDifficultyChange mainPidParams uintCalculated pIndex = some result ∧
          lastTargetOrLimit mainPidParams pIndex ≤ result := by
  refine ⟨_,rfl,fun uintCalculated => ?_⟩
  exact (slow_block_eases_iff rfl rfl (by decide +kernel) uintCalculated).mpr
    ⟨.inl (by decide +kernel),fun _ => by decide +kernel⟩

/-- The seventh target after six slow blocks is harder than the one of the sixth. -/
theorem slow_block_hardens :
    (∃ previous, easedChain.pprev = some previous ∧
      3*nTargetSpacing ≤ (easedChain.getBlockTime : Int)-previous.getBlockTime) ∧
    ∃ c, ((new ratPlatform mainPidParams).updateOutput ratPlatform mainPidParams easedChain
        (evenHeader 40)).map Prod.snd = some c ∧
      c.uintTargetAfterLimits < lastTargetOrLimit mainPidParams easedChain := by
  refine ⟨⟨_,rfl,by decide +kernel⟩,?_⟩
  have hharder : (((new ratPlatform mainPidParams).updateOutput ratPlatform mainPidParams easedChain
      (evenHeader 40)).map Prod.snd).any (fun c =>
        decide (c.uintTargetAfterLimits < lastTargetOrLimit mainPidParams easedChain)) = true := by
    decide +kernel
  obtain ⟨c,hc,hlt⟩ := (Option.any_eq_true _ _).mp hharder
  exact ⟨c,hc,of_decide_eq_true hlt⟩

end PidController

end Anoncoin
