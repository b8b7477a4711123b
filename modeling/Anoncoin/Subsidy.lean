import Mathlib.Tactic.Ring
import Anoncoin.ConnectBlock

/-!
The subsidy schedule of `GetBlockValue` (consensus.cpp): the shift of its halvings, and the sum
of all subsidies.
-/

set_option autoImplicit false

namespace Anoncoin

/-- `>>=` on an `int64_t`, which has no meaning for 64 bits or more. -/
def shiftRight64 (x : Int) (bits : Nat) : Option Int := if bits < 64 then some (x >>> bits) else none

/-- `GetBlockValue`, as far as the language defines it. -/
def getBlockValue64 (nHeight : Nat) (nFees : Int) : Option Int := do
  let nSubsidy ←
    if nHeight < 42000 then some 420000000
    else if nHeight < 77777 then some (7*COIN)
    else if nHeight = 77778 then some (10*COIN)
    else shiftRight64 (5*COIN) (nHeight/306600)
  some (nSubsidy+nFees)

/-- The height comes to the branch that shifts. -/
def Halves (nHeight : Nat) : Prop := 77777 ≤ nHeight ∧ nHeight ≠ 77778

/-- The sum of the subsidies of the first `n` blocks, if each of them is defined. -/
def subsidySum : Nat → Option Int
  | 0 => some 0
  | n+1 => do
      let sum ← subsidySum n
      let nSubsidy ← getBlockValue64 n 0
      some (sum+nSubsidy)

/-- At this height the shift is by fewer than 64 bits, and the subsidies up to it stay within
the limit on money. -/
def SubsidyBounded (nHeight : Nat) : Prop :=
  (Halves nHeight → nHeight/306600 < 64) ∧
    ∃ sum, subsidySum (nHeight+1) = some sum ∧ sum ≤ MAX_MONEY

theorem getBlockValue64_eq {nHeight : Nat} (h : nHeight/306600 < 64) (nFees : Int) :
    getBlockValue64 nHeight nFees = some (getBlockValue nHeight nFees) := by
  unfold getBlockValue64 getBlockValue shiftRight64
  rw [if_pos h]
  split
  · rfl
  · split
    · rfl
    · split <;> rfl

theorem getBlockValue64_eq_none {nHeight : Nat} (h : 64 ≤ nHeight/306600) (nFees : Int) :
    getBlockValue64 nHeight nFees = none := by
  unfold getBlockValue64 shiftRight64
  rw [if_neg (show ¬nHeight < 42000 by omega),if_neg (show ¬nHeight < 77777 by omega),
    if_neg (show ¬nHeight = 77778 by omega),if_neg (show ¬nHeight/306600 < 64 by omega)]
  rfl

/-- The subsidy after the early adjustments. -/
def halved (k : Nat) : Nat := 500000000/2^k

theorem two_mul_halved_succ (k : Nat) : 2*halved (k+1) ≤ halved k := by
  unfold halved
  rw [pow_succ,← Nat.div_div_eq_div_mul]
  omega

theorem getBlockValue_halved {nHeight : Nat} (h : Halves nHeight) :
    getBlockValue nHeight 0 = halved (nHeight/306600) := by
  obtain ⟨hlow,hne⟩ := h
  unfold getBlockValue halved COIN
  simp only [if_neg (show ¬nHeight < 42000 by omega),if_neg (show ¬nHeight < 77777 by omega),
    if_neg hne,Int.shiftRight_eq_div_pow]
  norm_cast

/-- The sum of the first subsidies over all heights. -/
def plainSum : Nat → Int
  | 0 => 0
  | n+1 => plainSum n+getBlockValue n 0

theorem subsidySum_eq {n : Nat} (h : n ≤ 64*306600) : subsidySum n = some (plainSum n) := by
  induction n with
  | zero => rfl
  | succ n ih =>
    rw [subsidySum,ih (by omega),getBlockValue64_eq (by omega)]
    rfl

theorem subsidySum_eq_none {n : Nat} (h : 64*306600 < n) : subsidySum n = none := by
  induction n with
  | zero => omega
  | succ n ih =>
    rw [subsidySum]
    by_cases hn : 64*306600 < n
    · rw [ih hn]
      rfl
    · rw [subsidySum_eq (by omega),getBlockValue64_eq_none (by omega)]
      rfl

/-- The early adjustments: 4.2 coins, then 7. -/
theorem plainSum_early {n : Nat} (h : n ≤ 77777) :
    plainSum n = 420000000*(min n 42000 : Nat)+700000000*(n-42000 : Nat) := by
  induction n with
  | zero => rfl
  | succ n ih =>
    have hvalue : getBlockValue n 0 = if n < 42000 then 420000000 else 700000000 := by
      unfold getBlockValue COIN
      simp only [if_pos (show n < 77777 by omega)]
      split <;> rfl
    rw [plainSum,ih (by omega),hvalue]
    split <;> omega

/-- The most that the subsidies from a height on can come to: the rest of its halving period,
and as much again as that period for all that follow. -/
def remaining (n : Nat) : Nat :=
  (306600-n%306600)*halved (n/306600)+306600*halved (n/306600)

/-- What a subsidy adds to the sum, it takes from what remains. -/
theorem halved_add_remaining (n : Nat) : halved (n/306600)+remaining (n+1) ≤ remaining n := by
  unfold remaining
  have hlt := Nat.mod_lt n (show 0 < 306600 by decide)
  by_cases hlast : n%306600 = 306599
  · have hnext := two_mul_halved_succ (n/306600)
    have hdiv : (n+1)/306600 = n/306600+1 := by omega
    have hmod : (n+1)%306600 = 0 := by omega
    rw [hdiv,hmod,hlast]
    omega
  · have hdiv : (n+1)/306600 = n/306600 := by omega
    have hmod : 306600-n%306600 = 306600-(n+1)%306600+1 := by omega
    rw [hdiv,hmod,Nat.add_mul (306600-(n+1)%306600) 1]
    omega

theorem plainSum_late {n : Nat} (h : 77779 ≤ n) :
    plainSum n+remaining n ≤ plainSum 77779+remaining 77779 := by
  induction n, h using Nat.le_induction with
  | base => exact le_refl _
  | succ n hn ih =>
    have hstep := halved_add_remaining n
    rw [plainSum,getBlockValue_halved ⟨by omega,by omega⟩]
    omega

theorem plainSum_start : plainSum 77779+remaining 77779 ≤ MAX_MONEY := by
  have hearly := plainSum_early (le_refl 77777)
  have hsum : plainSum 77779 = plainSum 77777+getBlockValue 77777 0+getBlockValue 77778 0 := rfl
  rw [hsum,hearly]
  decide +kernel

theorem plainSum_le (n : Nat) : plainSum n ≤ MAX_MONEY := by
  unfold MAX_MONEY COIN
  rcases Nat.lt_or_ge n 77778 with hearly | hlate
  · have hsum := plainSum_early (show n ≤ 77777 by omega)
    omega
  · rcases Nat.lt_or_ge n 77779 with hswitch | hlate
    · obtain rfl : n = 77778 := by omega
      have hsum : plainSum 77778 = plainSum 77777+getBlockValue 77777 0 := rfl
      rw [hsum,plainSum_early (le_refl 77777)]
      decide +kernel
    · have hstart := plainSum_start
      have hrest := plainSum_late hlate
      unfold MAX_MONEY COIN at hstart
      omega

/-- The schedule is defined and bounded up to the 64th halving, and no further. -/
theorem subsidyBounded_iff (nHeight : Nat) : SubsidyBounded nHeight ↔ nHeight < 64*306600 := by
  constructor
  · rintro ⟨-,sum,hsum,-⟩
    by_contra hlate
    rw [subsidySum_eq_none (by omega)] at hsum
    contradiction
  · intro h
    exact ⟨fun _ => by omega,_,subsidySum_eq h,plainSum_le _⟩

/-- After the 64th halving the shift is by 64 bits. -/
theorem subsidy_shift_64 : ¬∀ nHeight : Nat, nHeight < 2^31 → SubsidyBounded nHeight := by
  intro h
  have hshift := (h 19622400 (by decide)).1 ⟨by decide,by decide⟩
  exact absurd hshift (by decide)

end Anoncoin
