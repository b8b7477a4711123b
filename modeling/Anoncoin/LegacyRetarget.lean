import Anoncoin.KgwExact

/-!
`OriginalGetNextWorkRequired` (consensus.cpp) against the rules of its three protocols over
integers.
-/

set_option autoImplicit false

namespace Anoncoin

/-- A protocol of the time before the gravity well: the bounds on the timespan of an interval,
and what the retarget divides by. -/
structure LegacyProtocol where
  least : Nat
  most : Nat
  divisor : Nat
  deriving DecidableEq, Repr

/-- The protocol in force at a height. The first switch has bounds of its own. -/
def legacyProtocol (nHeight : Nat) : LegacyProtocol :=
  if nHeight < 15420 then ⟨60938,121888,86184⟩
  else if nHeight = 15420 then ⟨86184,1378944,86184⟩
  else if nHeight < 77777 then ⟨21546,1378944,86184⟩
  else ⟨1449,2899,2050⟩

def LegacyProtocol.clamp (p : LegacyProtocol) (timespan : Int) : Int :=
  max p.least (min p.most timespan)

/-- The target that a protocol asks for, over integers. -/
def LegacyProtocol.next (p : LegacyProtocol) (limit oldTarget : Nat) (timespan : Int) : Nat :=
  min limit (oldTarget*(p.clamp timespan).toNat/p.divisor)

/-- The seconds from the first block of the interval to the last. -/
def CBlockIndex.legacyTimespan (i : CBlockIndex) : Option Int :=
  (i.goBack (blocksToGoBack (i.nHeight+1))).map fun pindexFirst =>
    (i.getBlockTime : Int)-pindexFirst.getBlockTime

/-- The assertion holds, and at a retarget height the result is that of the protocol, with a
multiplier that is not negative and a product that does not wrap. -/
def LegacyExact (n : Network) (i : CBlockIndex) : Prop :=
  ∃ r, originalGetNextWorkRequired n i = some r ∧
    (changesDifficulty (i.nHeight+1) = true → ∃ timespan, i.legacyTimespan = some timespan ∧
      r.toNat = (legacyProtocol (i.nHeight+1)).next n.powLimitScrypt.toNat
        (setCompact i.data.nBits).target.toNat timespan ∧
      0 ≤ (legacyProtocol (i.nHeight+1)).clamp timespan ∧
      (setCompact i.data.nBits).target.toNat*
        ((legacyProtocol (i.nHeight+1)).clamp timespan).toNat < 2^256)

section Legacy
variable {n : Network} {i : CBlockIndex}

theorem averagedTimespans_eq (nHeight : Nat) : averagedTimespans nHeight =
    ((legacyProtocol nHeight).least,(legacyProtocol nHeight).most) := by
  unfold averagedTimespans legacyProtocol targetTimespanCurrent newDifficultyProtocol
    newDifficultyProtocol2 legacyTargetTimespan nDifficultySwitchHeight1 nDifficultySwitchHeight2
  simp only [decide_eq_true_eq,Bool.and_eq_true]
  split_ifs <;> first | rfl | omega

theorem retargetDivisor_eq (nHeight : Nat) :
    retargetDivisor nHeight = (legacyProtocol nHeight).divisor := by
  unfold retargetDivisor legacyProtocol targetTimespanCurrent newDifficultyProtocol
    newDifficultyProtocol2 legacyTargetTimespan nDifficultySwitchHeight1 nDifficultySwitchHeight2
  simp only [decide_eq_true_eq,Bool.and_eq_true]
  split_ifs <;> first | rfl | omega

theorem legacyProtocol_ordered (nHeight : Nat) :
    (legacyProtocol nHeight).least ≤ (legacyProtocol nHeight).most := by
  unfold legacyProtocol
  split_ifs <;> decide

theorem limitSetpoint_eq (nHeight : Nat) (timespan : Int) :
    limitSetpoint nHeight timespan = (legacyProtocol nHeight).clamp timespan := by
  have hordered := legacyProtocol_ordered nHeight
  unfold limitSetpoint LegacyProtocol.clamp
  rw [averagedTimespans_eq]
  simp only
  split_ifs <;> omega

/-- The walk back to the first block of the interval does not leave the chain. -/
theorem exists_legacyTimespan (h : changesDifficulty (i.nHeight+1) = true) :
    ∃ pindexFirst, i.goBack (blocksToGoBack (i.nHeight+1)) = some pindexFirst ∧
      i.legacyTimespan = some ((i.getBlockTime : Int)-pindexFirst.getBlockTime) := by
  obtain ⟨pindexFirst,hfirst⟩ := CBlockIndex.goBack_isSome (blocksToGoBack_le h)
  refine ⟨pindexFirst,hfirst,?_⟩
  unfold CBlockIndex.legacyTimespan
  rw [hfirst,Option.map_some]

theorem clamp_bounds (nHeight : Nat) (timespan : Int) :
    0 ≤ (legacyProtocol nHeight).clamp timespan ∧
      (legacyProtocol nHeight).clamp timespan ≤ 1378944 := by
  have hbounds := limitSetpoint_bounds nHeight timespan
  rw [limitSetpoint_eq] at hbounds
  omega

theorem originalGetNextWorkRequired_eq {timespan : Int}
    (h : changesDifficulty (i.nHeight+1) = true) (ht : i.legacyTimespan = some timespan) :
    originalGetNextWorkRequired n i =
      let bnNew := (setCompact i.data.nBits).target*
        BitVec.ofNat 256 ((legacyProtocol (i.nHeight+1)).clamp timespan).toNat/
          BitVec.ofNat 256 (legacyProtocol (i.nHeight+1)).divisor
      some (if n.powLimitScrypt < bnNew then n.powLimitScrypt else bnNew) := by
  obtain ⟨pindexFirst,hfirst,hspan⟩ := exists_legacyTimespan h
  obtain rfl := Option.some.inj (hspan.symm.trans ht)
  have hbounds := clamp_bounds (i.nHeight+1) ((i.getBlockTime : Int)-pindexFirst.getBlockTime)
  have hword : ((legacyProtocol (i.nHeight+1)).clamp
      ((i.getBlockTime : Int)-pindexFirst.getBlockTime)).toNat%2^32 =
      ((legacyProtocol (i.nHeight+1)).clamp
        ((i.getBlockTime : Int)-pindexFirst.getBlockTime)).toNat := Nat.mod_eq_of_lt (by omega)
  unfold originalGetNextWorkRequired
  simp only [h,hfirst,Bool.not_true,Bool.false_eq_true,if_false,Option.bind_eq_bind,
    Option.bind_some,limitSetpoint_eq,retargetDivisor_eq,hword]

/-- The original retarget is exact if and only if the old target times the limited timespan has
256 bits. -/
theorem legacyExact_iff (n : Network) (i : CBlockIndex) :
    LegacyExact n i ↔ (changesDifficulty (i.nHeight+1) = true →
      ∀ timespan, i.legacyTimespan = some timespan → (setCompact i.data.nBits).target.toNat*
        ((legacyProtocol (i.nHeight+1)).clamp timespan).toNat < 2^256) := by
  constructor
  · rintro ⟨r,-,hexact⟩ hchanges timespan ht
    obtain ⟨timespan',ht',-,-,hfits⟩ := hexact hchanges
    obtain rfl := Option.some.inj (ht.symm.trans ht')
    exact hfits
  · intro hfits
    by_cases hchanges : changesDifficulty (i.nHeight+1) = true
    · obtain ⟨pindexFirst,-,ht⟩ := exists_legacyTimespan hchanges
      have hfits := hfits hchanges _ ht
      have hbounds := clamp_bounds (i.nHeight+1) ((i.getBlockTime : Int)-pindexFirst.getBlockTime)
      have hdivisor := retargetDivisor_bounds (i.nHeight+1)
      rw [retargetDivisor_eq] at hdivisor
      refine ⟨_,originalGetNextWorkRequired_eq hchanges ht,fun _ => ⟨_,ht,?_,hbounds.1,hfits⟩⟩
      rw [toNat_capped,toNat_mul_div (by omega) (by omega) hfits]
      rfl
    · refine ⟨(setCompact i.data.nBits).target,?_,fun h => absurd h hchanges⟩
      unfold originalGetNextWorkRequired
      simp [hchanges]

/-- On the main network only the middle protocol lets an interval take so long that the product
can wrap. -/
theorem legacyExact_main (htarget : (setCompact i.data.nBits).target.toNat ≤
      Network.main.powLimitScrypt.toNat)
    (hheight : i.nHeight+1 < nDifficultySwitchHeight1 ∨ nDifficultySwitchHeight2 ≤ i.nHeight+1) :
    LegacyExact .main i := by
  rw [legacyExact_iff]
  intro _ timespan _
  have hlimit : Network.main.powLimitScrypt.toNat < 2^236 := by decide +kernel
  have hclamp : ((legacyProtocol (i.nHeight+1)).clamp timespan).toNat < 2^20 := by
    unfold LegacyProtocol.clamp legacyProtocol
    unfold nDifficultySwitchHeight1 nDifficultySwitchHeight2 at hheight
    split_ifs <;> simp only <;> omega
  calc (setCompact i.data.nBits).target.toNat*((legacyProtocol (i.nHeight+1)).clamp timespan).toNat
      < 2^236*2^20 := Nat.mul_lt_mul'' (by omega) hclamp
    _ = 2^256 := by decide

end Legacy

section Chains

/-- Blocks of the least difficulty, 640 seconds apart. -/
def idleChain : Nat → CBlockIndex
  | 0 => .genesis ⟨2,0,0,0x1e0ffff0,0,0,0⟩
  | k+1 => .child ⟨2,0,BitVec.ofNat 32 (640*(k+1)),0x1e0ffff0,0,0,0⟩ (idleChain k)

theorem nHeight_idleChain (k : Nat) : (idleChain k).nHeight = k := by
  induction k with
  | zero => rfl
  | succ k ih => simp only [idleChain,CBlockIndex.nHeight,ih]

theorem goBack_idleChain (m k : Nat) : (idleChain (k+m)).goBack m = some (idleChain k) := by
  induction m with
  | zero => rfl
  | succ m ih => exact ih

theorem data_idleChain (k : Nat) :
    (idleChain k).data = ⟨2,0,BitVec.ofNat 32 (640*k),0x1e0ffff0,0,0,0⟩ := by
  cases k <;> rfl

theorem solved_idleChain {k : Nat} {d : IndexData} (h : d ∈ (idleChain k).solved) :
    d.nBits = 0x1e0ffff0 := by
  induction k with
  | zero => exact absurd h List.not_mem_nil
  | succ k ih =>
    rcases List.mem_cons.mp h with rfl | h
    · rfl
    · exact ih h

theorem legacyTimespan_idleChain : (idleChain 15419).legacyTimespan = some 1075840 := by
  have hback : (idleChain 15419).goBack (blocksToGoBack ((idleChain 15419).nHeight+1)) =
      some (idleChain 13738) := by
    rw [nHeight_idleChain]
    exact goBack_idleChain 1681 13738
  unfold CBlockIndex.legacyTimespan CBlockIndex.getBlockTime
  rw [hback,Option.map_some,data_idleChain,data_idleChain]
  decide +kernel

/-- The interval before the first switch takes twelve and a half days, and the target falls to
a third where it should stay at the limit. -/
theorem legacy_retarget_wraps : ¬∀ (n : Network) (i : CBlockIndex),
    n.WithinLimit i → i.nHeight ≤ nDifficultySwitchHeight3 → LegacyExact n i := by
  intro h
  have hwithin : Network.main.WithinLimit (idleChain 15419) := by
    intro d hd
    rw [solved_idleChain hd]
    decide +kernel
  have hheight : (idleChain 15419).nHeight ≤ nDifficultySwitchHeight3 := by
    rw [nHeight_idleChain]
    decide
  have hchanges : changesDifficulty ((idleChain 15419).nHeight+1) = true := by
    rw [nHeight_idleChain]
    decide +kernel
  obtain ⟨r,hr,hexact⟩ := h .main (idleChain 15419) hwithin hheight
  obtain ⟨timespan,ht,hvalue,-,-⟩ := hexact hchanges
  obtain rfl := Option.some.inj (legacyTimespan_idleChain.symm.trans ht)
  rw [originalGetNextWorkRequired_eq hchanges ht] at hr
  obtain rfl := Option.some.inj hr
  rw [nHeight_idleChain,data_idleChain] at hvalue
  exact absurd hvalue (by decide +kernel)

end Chains

end Anoncoin
