import Anoncoin.NextWork

/-!
The arithmetic of the Kimoto gravity well, for any test that ends its loop: when the 256-bit
computation gives what unbounded integers give.
-/

set_option autoImplicit false

namespace Anoncoin

/-- The blocks above the genesis block, the last one first. -/
def CBlockIndex.solved : CBlockIndex → List IndexData
  | .genesis _ => []
  | .child d p => d :: p.solved

/-- The targets of all blocks are at most the limit. -/
def Network.WithinLimit (n : Network) (i : CBlockIndex) : Prop :=
  ∀ d ∈ i.solved, (setCompact d.nBits).target.toNat ≤ n.powLimitScrypt.toNat

section Loop
variable (test : Nat → KgwSamples → Bool)

/-- The loop of the gravity well with any test in place of the one on the event horizons. -/
def kgwLoopWith (nLastBlockSolvedTime : Nat) : CBlockIndex → Nat → KgwSamples → KgwSamples
  | .genesis _,_,s => s
  | .child d p,nBlockMass,s =>
      if nMaxBlocksToAvg < nBlockMass then s
      else
        let s := kgwSample nLastBlockSolvedTime nBlockMass d s
        if nMinBlocksToAvg ≤ nBlockMass && test nBlockMass s then s
        else kgwLoopWith nLastBlockSolvedTime p (nBlockMass+1) s

def kgwSamplesWith (pindexLast : CBlockIndex) : KgwSamples :=
  if nMinBlocksToAvg ≤ pindexLast.nHeight then
    kgwLoopWith test pindexLast.getBlockTime pindexLast 1 ⟨BitVec.allOnes 256,0,0⟩
  else ⟨BitVec.allOnes 256,0,0⟩

end Loop

/-- The end of the gravity well, with the limit. -/
def KgwSamples.limited (n : Network) (s : KgwSamples) : Uint256 :=
  if n.powLimitScrypt < s.uintNewDifficulty then n.powLimitScrypt else s.uintNewDifficulty

def nextWorkRequiredKgwWith (n : Network) (test : Nat → KgwSamples → Bool)
    (pindexLast : CBlockIndex) : Uint256 := (kgwSamplesWith test pindexLast).limited n

section Instance
variable {D : Type} (F : Platform D) (kgw_blockmass_curve : Nat → D)

theorem kgwLoop_eq (last : Nat) (i : CBlockIndex) (nBlockMass : Nat) (s : KgwSamples) :
    kgwLoop F kgw_blockmass_curve last i nBlockMass s =
      kgwLoopWith (kgwLeaves F kgw_blockmass_curve) last i nBlockMass s := by
  induction i generalizing nBlockMass s with
  | genesis d => rfl
  | child d p ih =>
    have hleaves : ∀ s, (decide (nMinBlocksToAvg ≤ nBlockMass) &&
        kgwLeaves F kgw_blockmass_curve nBlockMass s) =
          kgwLeaves F kgw_blockmass_curve nBlockMass s := by
      intro s
      unfold kgwLeaves
      rw [← Bool.and_assoc,Bool.and_self]
    simp only [kgwLoop,kgwLoopWith,hleaves,ih]

/-- `NextWorkRequiredKgwV2` is the case of its own test. -/
theorem nextWorkRequiredKgwV2_eq (n : Network) (pindexLast : CBlockIndex) :
    nextWorkRequiredKgwV2 F kgw_blockmass_curve n pindexLast =
      nextWorkRequiredKgwWith n (kgwLeaves F kgw_blockmass_curve) pindexLast := by
  unfold nextWorkRequiredKgwV2 nextWorkRequiredKgwWith kgwSamples kgwSamplesWith
  rw [kgwLoop_eq]
  rfl

end Instance

section Samples

/-- The samples of these blocks, one pass after the other. -/
def kgwTake (last : Nat) : List IndexData → Nat → KgwSamples → KgwSamples
  | [],_,s => s
  | d :: rest,nBlockMass,s => kgwTake last rest (nBlockMass+1) (kgwSample last nBlockMass d s)

theorem length_solved (i : CBlockIndex) : i.solved.length = i.nHeight := by
  induction i with
  | genesis d => rfl
  | child d p ih => rw [CBlockIndex.solved,List.length_cons,ih]; rfl

/-- The loop ends after some number of blocks, not before the least number if there are that
many. -/
theorem kgwLoopWith_exits (test : Nat → KgwSamples → Bool) (last : Nat) (i : CBlockIndex) (nBlockMass : Nat) (s : KgwSamples)
    (hmass : 1 ≤ nBlockMass ∧ nBlockMass ≤ nMaxBlocksToAvg+1)
    (henough : nMinBlocksToAvg < nBlockMass+i.nHeight) :
    ∃ m, kgwLoopWith test last i nBlockMass s = kgwTake last (i.solved.take m) nBlockMass s ∧
      m ≤ i.nHeight ∧ nMinBlocksToAvg < nBlockMass+m ∧ nBlockMass+m ≤ nMaxBlocksToAvg+1 := by
  induction i generalizing nBlockMass s with
  | genesis d => exact ⟨0,rfl,le_refl 0,henough,hmass.2⟩
  | child d p ih =>
    rw [CBlockIndex.nHeight] at henough
    unfold kgwLoopWith
    split
    · next hmax =>
      refine ⟨0,rfl,Nat.zero_le _,?_,hmass.2⟩
      have hless : nMinBlocksToAvg < nMaxBlocksToAvg := by decide
      omega
    · next hmax =>
      dsimp only
      split
      · next hleave =>
        rw [Bool.and_eq_true,decide_eq_true_eq] at hleave
        refine ⟨1,rfl,?_,by omega,by omega⟩
        rw [CBlockIndex.nHeight]
        omega
      · obtain ⟨m,hrun,hm,hmin,hmax'⟩ := ih (nBlockMass+1)
          (kgwSample last nBlockMass d s) (by omega) (by omega)
        refine ⟨m+1,hrun,?_,by omega,by omega⟩
        rw [CBlockIndex.nHeight]
        omega

/-- A test that ends the loop after the given number of blocks. -/
theorem kgwLoopWith_at (last : Nat) (i : CBlockIndex) (nBlockMass m : Nat) (s : KgwSamples)
    (hm : 1 ≤ m) (hheight : m ≤ i.nHeight) (hmin : nMinBlocksToAvg < nBlockMass+m)
    (hmax : nBlockMass+m ≤ nMaxBlocksToAvg+1) :
    kgwLoopWith (fun k _ => k+1 == nBlockMass+m) last i nBlockMass s =
      kgwTake last (i.solved.take m) nBlockMass s := by
  obtain ⟨target,htarget⟩ : ∃ t, t = nBlockMass+m := ⟨_,rfl⟩
  rw [← htarget]
  induction i generalizing nBlockMass m s with
  | genesis d =>
    rw [CBlockIndex.nHeight] at hheight
    omega
  | child d p ih =>
    rw [CBlockIndex.nHeight] at hheight
    rw [kgwLoopWith,if_neg (by omega)]
    dsimp only
    obtain ⟨k,rfl⟩ : ∃ k, m = k+1 := ⟨m-1,by omega⟩
    rw [CBlockIndex.solved,List.take_succ_cons,kgwTake]
    cases k with
    | zero =>
      rw [if_pos]
      · rfl
      · rw [Bool.and_eq_true,decide_eq_true_eq,beq_iff_eq]
        exact ⟨by omega,by omega⟩
    | succ k =>
      rw [if_neg]
      · exact ih (nBlockMass+1) (k+1) _ (by omega) (by omega) (by omega) (by omega) (by omega)
      · rw [Bool.and_eq_true,decide_eq_true_eq,beq_iff_eq]
        omega

/-- The average of targets in unbounded integers: each one, older and older, moves it by its share
of the difference. -/
def gravityMean : List Nat → Nat → Nat → Nat
  | [],_,avg => avg
  | sample :: rest,nBlockMass,avg => gravityMean rest (nBlockMass+1)
      (if nBlockMass = 1 then sample
      else if sample < avg then avg-(avg-sample)/nBlockMass
      else avg+(sample-avg)/nBlockMass)

/-- The average target of the last `m` blocks. -/
def CBlockIndex.meanTarget (i : CBlockIndex) (m : Nat) : Nat :=
  gravityMean ((i.solved.take m).map fun d => (setCompact d.nBits).target.toNat) 1 0

/-- The seconds between the last block and the first one of the last `m`. -/
def CBlockIndex.elapsed (i : CBlockIndex) (m : Nat) : Nat :=
  match (i.solved.take m).getLast? with
  | none => 0
  | some d => ((i.getBlockTime : Int)-d.nTime.toNat).natAbs

theorem kgwAverage_toNat {nBlockMass limit : Nat} {avg sample : Uint256}
    (hmass : 1 ≤ nBlockMass ∧ nBlockMass < 2^256) (hsample : sample.toNat ≤ limit)
    (havg : nBlockMass = 1 ∨ avg.toNat ≤ limit) :
    (kgwAverage nBlockMass avg sample).toNat = (if nBlockMass = 1 then sample.toNat
      else if sample.toNat < avg.toNat then avg.toNat-(avg.toNat-sample.toNat)/nBlockMass
      else avg.toNat+(sample.toNat-avg.toNat)/nBlockMass) ∧
      (kgwAverage nBlockMass avg sample).toNat ≤ limit := by
  have hwidth : (BitVec.ofNat 256 nBlockMass).toNat = nBlockMass := by
    rw [BitVec.toNat_ofNat,Nat.mod_eq_of_lt hmass.2]
  unfold kgwAverage
  by_cases hone : nBlockMass = 1
  · rw [if_pos hone,if_pos hone]
    exact ⟨rfl,hsample⟩
  · have havg' := havg.resolve_left hone
    rw [if_neg hone,if_neg hone]
    by_cases hlt : sample < avg
    · have hlt' : sample.toNat < avg.toNat := hlt
      have hshare : (avg.toNat-sample.toNat)/nBlockMass ≤ avg.toNat-sample.toNat := Nat.div_le_self _ _
      have hdiff : ((avg-sample)/BitVec.ofNat 256 nBlockMass).toNat =
          (avg.toNat-sample.toNat)/nBlockMass := by
        rw [BitVec.toNat_udiv,BitVec.toNat_sub_of_le (BitVec.le_def.mpr hlt'.le),hwidth]
      rw [if_pos hlt,if_pos hlt',BitVec.toNat_sub_of_le (BitVec.le_def.mpr (by omega)),hdiff]
      exact ⟨rfl,by omega⟩
    · have hge : avg.toNat ≤ sample.toNat := Nat.le_of_not_lt hlt
      have hshare : (sample.toNat-avg.toNat)/nBlockMass ≤ sample.toNat-avg.toNat := Nat.div_le_self _ _
      have hdiff : ((sample-avg)/BitVec.ofNat 256 nBlockMass).toNat =
          (sample.toNat-avg.toNat)/nBlockMass := by
        rw [BitVec.toNat_udiv,BitVec.toNat_sub_of_le (BitVec.le_def.mpr hge),hwidth]
      have hfits := sample.isLt
      rw [if_neg hlt,if_neg (by omega),BitVec.toNat_add_of_lt (by omega),hdiff]
      exact ⟨rfl,by omega⟩

theorem kgwTake_average (last limit : Nat) (l : List IndexData) (nBlockMass : Nat) (s : KgwSamples)
    (hl : ∀ d ∈ l, (setCompact d.nBits).target.toNat ≤ limit) (hpos : 1 ≤ nBlockMass)
    (hmass : nBlockMass+l.length < 2^256)
    (hs : nBlockMass = 1 ∨ s.uintDifficultyAvg.toNat ≤ limit) :
    (kgwTake last l nBlockMass s).uintDifficultyAvg.toNat =
      gravityMean (l.map fun d => (setCompact d.nBits).target.toNat) nBlockMass
        s.uintDifficultyAvg.toNat := by
  induction l generalizing nBlockMass s with
  | nil => rfl
  | cons d rest ih =>
    rw [List.length_cons] at hmass
    obtain ⟨hstep,hle⟩ := kgwAverage_toNat ⟨hpos,by omega⟩ (hl d (by simp)) hs
    rw [kgwTake,ih _ _ (fun e he => hl e (by simp [he])) (by omega) (by omega) (.inr hle)]
    show gravityMean _ _ (kgwAverage nBlockMass s.uintDifficultyAvg _).toNat = _
    rw [hstep]
    rfl

/-- The first sample does not depend on what was there before. -/
theorem gravityMean_start {l : List Nat} (hl : l ≠ []) (avg avg' : Nat) :
    gravityMean l 1 avg = gravityMean l 1 avg' := by
  cases l with
  | nil => exact absurd rfl hl
  | cons t rest => rfl

theorem kgwTake_target (last : Nat) (l : List IndexData) (nBlockMass : Nat) (s : KgwSamples) :
    (kgwTake last l nBlockMass s).nTargetRateSecs = s.nTargetRateSecs+180*l.length := by
  induction l generalizing nBlockMass s with
  | nil => rfl
  | cons d rest ih =>
    rw [kgwTake,ih,List.length_cons]
    show s.nTargetRateSecs+180+180*rest.length = _
    omega

theorem kgwTake_actual (last : Nat) (l : List IndexData) (nBlockMass : Nat) (s : KgwSamples) :
    (kgwTake last l nBlockMass s).nActualRateSecs = match l.getLast? with
      | none => s.nActualRateSecs
      | some d => ((last : Int)-d.nTime.toNat).natAbs := by
  induction l generalizing nBlockMass s with
  | nil => rfl
  | cons d rest ih =>
    rw [kgwTake,ih,List.getLast?_cons]
    cases hrest : rest.getLast? with
    | none => rfl
    | some e => rfl

end Samples

/-- What the gravity well should give, in unbounded integers. -/
def KgwSamples.exact (n : Network) (s : KgwSamples) : Nat :=
  min n.powLimitScrypt.toNat (if s.nActualRateSecs = 0 then s.uintDifficultyAvg.toNat
    else s.uintDifficultyAvg.toNat*s.nActualRateSecs/s.nTargetRateSecs)

/-- The result is exact, the product does not wrap, and less time, if any is measured, gives no
easier target. -/
def KgwExact (n : Network) (test : Nat → KgwSamples → Bool) (pindexLast : CBlockIndex) : Prop :=
  let s := kgwSamplesWith test pindexLast
  (nextWorkRequiredKgwWith n test pindexLast).toNat = s.exact n ∧
    s.uintDifficultyAvg.toNat*s.nActualRateSecs < 2^256 ∧
    ∀ secs, 0 < secs → secs ≤ s.nActualRateSecs →
      { s with nActualRateSecs := secs }.limited n ≤ nextWorkRequiredKgwWith n test pindexLast

/-- A word that is limited has the smaller value. -/
theorem toNat_capped (limit x : Uint256) :
    (if limit < x then limit else x).toNat = min limit.toNat x.toNat := by
  by_cases h : limit < x
  · have hlt : limit.toNat < x.toNat := h
    rw [if_pos h]
    omega
  · have hle : x.toNat ≤ limit.toNat := Nat.le_of_not_lt h
    rw [if_neg h]
    omega

/-- Without a wrap the words compute the quotient. -/
theorem toNat_mul_div {x : Uint256} {s d : Nat} (hs : s < 2^256) (hd : d < 2^256)
    (hfits : x.toNat*s < 2^256) :
    (x*BitVec.ofNat 256 s/BitVec.ofNat 256 d).toNat = x.toNat*s/d := by
  rw [BitVec.toNat_udiv,BitVec.toNat_mul,BitVec.toNat_ofNat,BitVec.toNat_ofNat,
    Nat.mod_eq_of_lt hs,Nat.mod_eq_of_lt hfits,Nat.mod_eq_of_lt hd]

section Exact
variable {n : Network} {s : KgwSamples} {i : CBlockIndex}

theorem KgwSamples.limited_toNat (n : Network) (s : KgwSamples) :
    (s.limited n).toNat = min n.powLimitScrypt.toNat s.uintNewDifficulty.toNat :=
  toNat_capped n.powLimitScrypt s.uintNewDifficulty

/-- Without a wrap the difficulty is the quotient. -/
theorem KgwSamples.uintNewDifficulty_toNat (hproduct : s.uintDifficultyAvg.toNat*s.nActualRateSecs < 2^256)
    (hactual : s.nActualRateSecs < 2^32) (htarget : s.nTargetRateSecs < 2^32)
    (hsome : s.nActualRateSecs ≠ 0 → s.nTargetRateSecs ≠ 0) :
    s.uintNewDifficulty.toNat = if s.nActualRateSecs = 0 then s.uintDifficultyAvg.toNat
      else s.uintDifficultyAvg.toNat*s.nActualRateSecs/s.nTargetRateSecs := by
  unfold uintNewDifficulty
  by_cases hzero : s.nActualRateSecs = 0
  · rw [if_neg (by omega),if_pos hzero]
  · rw [if_pos ⟨hzero,hsome hzero⟩,if_neg hzero]
    exact toNat_mul_div (by omega) (by omega) hproduct

theorem KgwSamples.exact_of_fits (hproduct : s.uintDifficultyAvg.toNat*s.nActualRateSecs < 2^256)
    (hactual : s.nActualRateSecs < 2^32) (htarget : s.nTargetRateSecs < 2^32)
    (hsome : s.nActualRateSecs ≠ 0 → s.nTargetRateSecs ≠ 0) :
    (s.limited n).toNat = s.exact n ∧ ∀ secs, 0 < secs → secs ≤ s.nActualRateSecs →
      { s with nActualRateSecs := secs }.limited n ≤ s.limited n := by
  have hvalue := uintNewDifficulty_toNat hproduct hactual htarget hsome
  refine ⟨by rw [limited_toNat,hvalue]; rfl,fun secs hpos hle => ?_⟩
  have hless : s.uintDifficultyAvg.toNat*secs ≤ s.uintDifficultyAvg.toNat*s.nActualRateSecs :=
    Nat.mul_le_mul_left _ hle
  have hfewer : ({ s with nActualRateSecs := secs } : KgwSamples).uintNewDifficulty.toNat =
      if secs = 0 then s.uintDifficultyAvg.toNat else s.uintDifficultyAvg.toNat*secs/s.nTargetRateSecs :=
    uintNewDifficulty_toNat (s := { s with nActualRateSecs := secs }) (hless.trans_lt hproduct)
      (hle.trans_lt hactual) htarget fun _ => hsome (by omega)
  rw [if_neg (by omega)] at hvalue hfewer
  have hquotient := Nat.div_le_div_right (c := s.nTargetRateSecs) hless
  rw [BitVec.le_def,limited_toNat,limited_toNat,hvalue,hfewer]
  omega

theorem CBlockIndex.elapsed_lt (i : CBlockIndex) (m : Nat) : i.elapsed m < 2^32 := by
  have htime : i.getBlockTime < 2^32 := i.data.nTime.isLt
  unfold elapsed
  split
  · decide
  · next d hd =>
    have hother := d.nTime.isLt
    omega

/-- What the loop has when it ends after `m` blocks. -/
theorem kgwTake_eq (h : n.WithinLimit i) {m : Nat} (hm : 1 ≤ m) (hheight : m ≤ i.nHeight)
    (hmax : m ≤ nMaxBlocksToAvg) :
    (kgwTake i.getBlockTime (i.solved.take m) 1 ⟨BitVec.allOnes 256,0,0⟩).uintDifficultyAvg.toNat =
        i.meanTarget m ∧
      (kgwTake i.getBlockTime (i.solved.take m) 1 ⟨BitVec.allOnes 256,0,0⟩).nActualRateSecs =
        i.elapsed m ∧
      (kgwTake i.getBlockTime (i.solved.take m) 1 ⟨BitVec.allOnes 256,0,0⟩).nTargetRateSecs = 180*m := by
  have hlength : (i.solved.take m).length = m := by
    rw [List.length_take,length_solved]
    omega
  have hsmall : nMaxBlocksToAvg+1 < 2^256 := by decide
  refine ⟨?_,?_,?_⟩
  · rw [kgwTake_average _ n.powLimitScrypt.toNat _ _ _
      (fun d hd => h d (List.mem_of_mem_take hd)) (le_refl 1) (by omega) (.inl rfl)]
    refine gravityMean_start (fun hnil => ?_) _ _
    have hzero := congrArg List.length hnil
    rw [List.length_map,hlength] at hzero
    exact absurd hzero (by simp; omega)
  · rw [kgwTake_actual]
    rfl
  · rw [kgwTake_target,hlength]
    exact Nat.zero_add _

end Exact

/-- The gravity well is exact, whatever ends its loop, if and only if at every depth at which it
may end the average target times the elapsed seconds has 256 bits. -/
theorem kgwExact_iff (n : Network) (i : CBlockIndex) (h : n.WithinLimit i) :
    (∀ test, KgwExact n test i) ↔ ∀ m, nMinBlocksToAvg ≤ m → m ≤ nMaxBlocksToAvg → m ≤ i.nHeight →
      i.meanTarget m*i.elapsed m < 2^256 := by
  have hmin : 1 ≤ nMinBlocksToAvg := by decide
  constructor
  · intro hall m hleast hmost hheight
    obtain ⟨-,hfits,-⟩ := hall fun k _ => k+1 == 1+m
    have hexit := kgwLoopWith_at i.getBlockTime i 1 m ⟨BitVec.allOnes 256,0,0⟩ (by omega) hheight
      (by omega) (by omega)
    obtain ⟨havg,hactual,-⟩ := kgwTake_eq h (hmin.trans hleast) hheight hmost
    unfold kgwSamplesWith at hfits
    rw [if_pos (hleast.trans hheight),hexit,havg,hactual] at hfits
    exact hfits
  · intro hall test
    by_cases hheight : nMinBlocksToAvg ≤ i.nHeight
    · obtain ⟨m,hexit,hm,hleast,hmost⟩ := kgwLoopWith_exits test i.getBlockTime i 1
        ⟨BitVec.allOnes 256,0,0⟩ ⟨le_refl 1,by decide⟩ (by omega)
      obtain ⟨havg,hactual,htarget⟩ := kgwTake_eq h (show 1 ≤ m by omega) hm (by omega)
      have hsamples : kgwSamplesWith test i =
          kgwTake i.getBlockTime (i.solved.take m) 1 ⟨BitVec.allOnes 256,0,0⟩ := by
        rw [kgwSamplesWith,if_pos hheight,hexit]
      have hfits := hall m (by omega) (by omega) hm
      rw [← havg,← hactual,← hsamples] at hfits
      rw [← hsamples] at hactual htarget
      have hweek : 180*nMaxBlocksToAvg < 2^32 := by decide
      obtain ⟨hexact,hless⟩ := KgwSamples.exact_of_fits (n := n) hfits
        (by rw [hactual]; exact i.elapsed_lt m) (by omega) (by omega)
      exact ⟨hexact,hfits,hless⟩
    · have hsamples : kgwSamplesWith test i = ⟨BitVec.allOnes 256,0,0⟩ := if_neg hheight
      obtain ⟨hexact,hless⟩ := KgwSamples.exact_of_fits (n := n) (s := ⟨BitVec.allOnes 256,0,0⟩)
        (by decide) (by decide) (by decide) (by decide)
      unfold KgwExact nextWorkRequiredKgwWith
      rw [hsamples]
      exact ⟨hexact,by decide,hless⟩

section Chains

/-- Blocks of the least difficulty, three minutes apart. -/
def pacedChain : Nat → CBlockIndex
  | 0 => .genesis ⟨3,0,0,0x1e0ffff0,0,0,0⟩
  | k+1 => .child ⟨3,0,BitVec.ofNat 32 (180*(k+1)),0x1e0ffff0,0,0,0⟩ (pacedChain k)

instance (n : Network) (i : CBlockIndex) : Decidable (n.WithinLimit i) :=
  inferInstanceAs (Decidable (∀ d ∈ i.solved,_))

theorem kgwExact_pacedChain : Network.main.WithinLimit (pacedChain 121) ∧
    ∀ test, KgwExact .main test (pacedChain 121) := by
  have hlimit : Network.main.WithinLimit (pacedChain 121) := by decide +kernel
  refine ⟨hlimit,(kgwExact_iff .main (pacedChain 121) hlimit).mpr ?_⟩
  intro m hleast _ hheight
  have hheight' : m ≤ 121 := hheight
  have hleast' : 120 ≤ m := hleast
  obtain rfl | rfl : m = 120 ∨ m = 121 := by omega
  · decide +kernel
  · decide +kernel

/-- The next block after that takes twelve days. -/
def stalledChain : CBlockIndex :=
  .child ⟨3,0,BitVec.ofNat 32 (360+2^20+17),0x1e0ffff0,0,0,0⟩ (pacedChain 120)

/-- After twelve days the product wraps, and the next block is made harder, not easier. -/
theorem stalled_not_exact : ¬∀ (n : Network) (test : Nat → KgwSamples → Bool) (i : CBlockIndex),
    n.WithinLimit i → KgwExact n test i := by
  intro h
  have hexact := (h .main (fun _ _ => true) stalledChain (by decide +kernel)).1
  exact absurd hexact (by decide +kernel)

end Chains

end Anoncoin
