import Anoncoin.KgwExact

/-!
The running average of the Kimoto gravity well over the passes of its loop.
-/

set_option autoImplicit false

namespace Anoncoin

/-- One pass of the loop of `NextWorkRequiredKgwV2`: the sample and the average around it. -/
structure KgwPass where
  nBlockMass : Nat
  uintNextSample : Uint256
  uintAvgBefore : Uint256
  uintAvgAfter : Uint256

section Passes
variable (test : Nat → KgwSamples → Bool)

/-- The passes of the loop, for any test that ends it. -/
def kgwPasses (nLastBlockSolvedTime : Nat) : CBlockIndex → Nat → KgwSamples → List KgwPass
  | .genesis _,_,_ => []
  | .child d p,nBlockMass,s =>
      if nMaxBlocksToAvg < nBlockMass then []
      else
        let s' := kgwSample nLastBlockSolvedTime nBlockMass d s
        ⟨nBlockMass,(setCompact d.nBits).target,s.uintDifficultyAvg,s'.uintDifficultyAvg⟩ ::
          if nMinBlocksToAvg ≤ nBlockMass && test nBlockMass s' then []
          else kgwPasses nLastBlockSolvedTime p (nBlockMass+1) s'

/-- The loop ends with the average after its last pass. -/
theorem kgwLoopWith_passes (last : Nat) (i : CBlockIndex) (nBlockMass : Nat) (s : KgwSamples) :
    (kgwLoopWith test last i nBlockMass s).uintDifficultyAvg =
      (((kgwPasses test last i nBlockMass s).getLast?).map KgwPass.uintAvgAfter).getD
        s.uintDifficultyAvg := by
  induction i generalizing nBlockMass s with
  | genesis d => rfl
  | child d p ih =>
    unfold kgwLoopWith kgwPasses
    split
    · rfl
    · simp only
      split
      · rfl
      · rw [ih,List.getLast?_cons]
        cases (kgwPasses test last p (nBlockMass+1) (kgwSample last nBlockMass d s)).getLast? with
        | none => rfl
        | some pass => rfl

end Passes

/-- Whether a subtraction of the update falls below zero or its addition leaves the 256 bits. -/
def kgwWraps (nBlockMass : Nat) (uintDifficultyAvg uintNextSample : Uint256) : Bool :=
  if nBlockMass = 1 then false
  else if uintNextSample < uintDifficultyAvg then
    uintDifficultyAvg.usubOverflow uintNextSample ||
      uintDifficultyAvg.usubOverflow
        ((uintDifficultyAvg-uintNextSample)/BitVec.ofNat 256 nBlockMass)
  else
    uintNextSample.usubOverflow uintDifficultyAvg ||
      uintDifficultyAvg.uaddOverflow
        ((uintNextSample-uintDifficultyAvg)/BitVec.ofNat 256 nBlockMass)

/-- A share of the difference is at most the difference. -/
theorem toNat_share_le {x y : Uint256} (h : y.toNat ≤ x.toNat) (n : Nat) :
    ((x-y)/BitVec.ofNat 256 n).toNat ≤ x.toNat-y.toNat := by
  rw [BitVec.toNat_udiv,BitVec.toNat_sub_of_le (BitVec.le_def.mpr h)]
  exact Nat.div_le_self _ _

/-- An update between two bounds stays between them, without a wrap. -/
theorem kgwAverage_between {nBlockMass lo hi : Nat} {avg sample : Uint256}
    (havg : nBlockMass = 1 ∨ lo ≤ avg.toNat ∧ avg.toNat ≤ hi)
    (hsample : lo ≤ sample.toNat ∧ sample.toNat ≤ hi) :
    lo ≤ (kgwAverage nBlockMass avg sample).toNat ∧
      (kgwAverage nBlockMass avg sample).toNat ≤ hi ∧ kgwWraps nBlockMass avg sample = false := by
  unfold kgwAverage kgwWraps
  by_cases hone : nBlockMass = 1
  · simp [hone,hsample]
  · obtain ⟨hlo,hhi⟩ := havg.resolve_left hone
    simp only [if_neg hone]
    by_cases hlt : sample < avg
    · have hle : sample.toNat ≤ avg.toNat := Nat.le_of_lt hlt
      have hshare := toNat_share_le hle nBlockMass
      simp only [if_pos hlt]
      generalize (avg-sample)/BitVec.ofNat 256 nBlockMass = share at hshare
      rw [BitVec.toNat_sub_of_le (BitVec.le_def.mpr (by omega))]
      simp [BitVec.usubOverflow]
      omega
    · have hle : avg.toNat ≤ sample.toNat := Nat.le_of_not_lt hlt
      have hshare := toNat_share_le hle nBlockMass
      have hfits := sample.isLt
      simp only [if_neg hlt]
      generalize (sample-avg)/BitVec.ofNat 256 nBlockMass = share at hshare
      rw [BitVec.toNat_add_of_lt (by omega)]
      simp [BitVec.usubOverflow,BitVec.uaddOverflow]
      omega

/-- Bounds of the samples so far are bounds of the average after each pass. -/
theorem kgwPasses_between {test : Nat → KgwSamples → Bool} {last nBlockMass lo hi k : Nat}
    {i : CBlockIndex} {s : KgwSamples} {pass : KgwPass}
    (havg : nBlockMass = 1 ∨ lo ≤ s.uintDifficultyAvg.toNat ∧ s.uintDifficultyAvg.toNat ≤ hi)
    (hpass : (kgwPasses test last i nBlockMass s)[k]? = some pass)
    (hsamples : ∀ q ∈ (kgwPasses test last i nBlockMass s).take (k+1),
      lo ≤ q.uintNextSample.toNat ∧ q.uintNextSample.toNat ≤ hi) :
    lo ≤ pass.uintAvgAfter.toNat ∧ pass.uintAvgAfter.toNat ≤ hi ∧
      kgwWraps pass.nBlockMass pass.uintAvgBefore pass.uintNextSample = false := by
  induction i generalizing nBlockMass s k with
  | genesis d => simp [kgwPasses] at hpass
  | child d p ih =>
    unfold kgwPasses at hpass hsamples
    split at hpass
    · simp at hpass
    · rename_i hmass
      simp only [if_neg hmass,List.take_succ_cons,List.forall_mem_cons] at hpass hsamples
      obtain ⟨hfirst,hrest⟩ := hsamples
      have hbetween := kgwAverage_between havg hfirst
      cases k with
      | zero =>
        obtain rfl := Option.some.inj hpass
        exact hbetween
      | succ k =>
        rw [List.getElem?_cons_succ] at hpass
        split at hpass
        · simp at hpass
        · rename_i hgo
          rw [if_neg hgo] at hrest
          exact ih (.inr ⟨hbetween.1,hbetween.2.1⟩) hpass hrest

/-- After each pass of the loop the average lies between the least and the greatest target that
was sampled, and the update of the pass did not wrap. -/
theorem kgw_average_inside (test : Nat → KgwSamples → Bool) (i : CBlockIndex) (k : Nat)
    (pass : KgwPass) (s : KgwSamples)
    (hpass : (kgwPasses test i.getBlockTime i 1 s)[k]? = some pass) :
    ∃ lo hi, let sampled := ((kgwPasses test i.getBlockTime i 1 s).take (k+1)).map fun q =>
        q.uintNextSample.toNat
      sampled.min? = some lo ∧ sampled.max? = some hi ∧
      lo ≤ pass.uintAvgAfter.toNat ∧ pass.uintAvgAfter.toNat ≤ hi ∧
      kgwWraps pass.nBlockMass pass.uintAvgBefore pass.uintNextSample = false := by
  generalize hsampled : ((kgwPasses test i.getBlockTime i 1 s).take (k+1)).map
    (fun q => q.uintNextSample.toNat) = sampled
  have hne : sampled ≠ [] := by
    rw [← hsampled]
    cases hpasses : kgwPasses test i.getBlockTime i 1 s with
    | nil => simp [hpasses] at hpass
    | cons q rest => simp
  have hmem : ∀ q ∈ (kgwPasses test i.getBlockTime i 1 s).take (k+1),
      q.uintNextSample.toNat ∈ sampled := by
    intro q hq
    rw [← hsampled]
    exact List.mem_map_of_mem hq
  obtain ⟨lo,hlo⟩ := Option.isSome_iff_exists.mp (List.isSome_min?_of_ne_nil hne)
  obtain ⟨hi,hhi⟩ := Option.isSome_iff_exists.mp (List.isSome_max?_of_ne_nil hne)
  exact ⟨lo,hi,hlo,hhi,kgwPasses_between (.inl rfl) hpass fun q hq =>
    ⟨(List.min?_eq_some_iff.mp hlo).2 _ (hmem q hq),(List.max?_eq_some_iff.mp hhi).2 _ (hmem q hq)⟩⟩

theorem kgw_average_inside_pacedChain : ∃ pass lo hi,
    (kgwPasses (fun _ _ => false) (pacedChain 3).getBlockTime (pacedChain 3) 1
      ⟨BitVec.allOnes 256,0,0⟩)[2]? = some pass ∧
    lo ≤ pass.uintAvgAfter.toNat ∧ pass.uintAvgAfter.toNat ≤ hi := by
  obtain ⟨lo,hi,_,_,hlo,hhi,_⟩ := kgw_average_inside (fun _ _ => false) (pacedChain 3) 2 _
    ⟨BitVec.allOnes 256,0,0⟩ rfl
  exact ⟨_,lo,hi,rfl,hlo,hhi⟩

end Anoncoin
