import Mathlib.Logic.Equiv.Defs
import Anoncoin.Compressor

/-!
The code of amounts (compressor.cpp) as a bijection of the natural numbers, and where its
computation in `uint64_t` stays exact.
-/

set_option autoImplicit false

namespace Anoncoin

/-- A result of `uint64_t` arithmetic, when it is the exact one. -/
def fit64 (n : Nat) : Option Nat := if n < 2^64 then some n else none

theorem fit64_eq_some {n m : Nat} : fit64 n = some m ↔ n = m ∧ m < 2^64 := by
  unfold fit64
  split
  · rename_i h
    simp only [Option.some.injEq]
    exact ⟨fun heq => ⟨heq,heq ▸ h⟩,fun heq => heq.1⟩
  · rename_i h
    simp only [reduceCtorEq,false_iff]
    rintro ⟨rfl,hlt⟩
    exact h hlt

/-- `CompressAmount`, step by step: `none` is an overflow or the assertion on the digit. -/
def compressChecked (n : Nat) : Option Nat :=
  if n = 0 then some 0
  else
    let (n,e) := stripZeros n 0
    if e < 9 then do
      let d := n%10
      guard (1 ≤ d ∧ d ≤ 9)
      let product ← fit64 (n/10*9)
      let sum ← fit64 (product+d)
      let scaled ← fit64 ((sum-1)*10)
      let code ← fit64 (1+scaled)
      fit64 (code+e)
    else do
      let scaled ← fit64 ((n-1)*10)
      let code ← fit64 (1+scaled)
      fit64 (code+9)

/-- The last loop of `DecompressAmount`. -/
def timesTen : Nat → Nat → Option Nat
  | 0,n => some n
  | e+1,n => (fit64 (n*10)).bind (timesTen e)

/-- `DecompressAmount`, step by step: `none` is an overflow. -/
def decompressChecked (x : Nat) : Option Nat :=
  if x = 0 then some 0
  else
    let x := x-1
    let e := x%10
    let x := x/10
    if e < 9 then do
      let d := x%9+1
      let scaled ← fit64 (x/9*10)
      let n ← fit64 (scaled+d)
      timesTen e n
    else do
      let n ← fit64 (x+1)
      timesTen e n

/-- The code of an amount, without a bound on it. -/
def amountCode (n : Nat) : Nat :=
  if n = 0 then 0
  else
    let (n,e) := stripZeros n 0
    if e < 9 then 1+(n/10*9+n%10-1)*10+e else 1+(n-1)*10+9

/-- The amount with a code. -/
def codedAmount (x : Nat) : Nat :=
  if x = 0 then 0
  else
    let e := (x-1)%10
    let x := (x-1)/10
    (if e < 9 then x/9*10+(x%9+1) else x+1)*10^e

/-- Zeros that were appended are the ones that are stripped. -/
theorem stripZeros_mul {n e k : Nat} (hk : e+k ≤ 9) (hn : e+k < 9 → n%10 ≠ 0) :
    stripZeros (n*10^k) e = (n,e+k) := by
  induction k generalizing e with
  | zero =>
    unfold stripZeros
    rw [pow_zero,Nat.mul_one,if_neg (by omega),Nat.add_zero]
  | succ k ih =>
    have hten : n*10^(k+1) = n*10^k*10 := by rw [pow_succ,Nat.mul_assoc]
    unfold stripZeros
    rw [hten,if_pos (by omega),Nat.mul_div_cancel _ (by decide),ih (by omega) (by omega),
      Nat.add_assoc,Nat.add_comm 1]

theorem codedAmount_amountCode (n : Nat) : codedAmount (amountCode n) = n := by
  unfold amountCode
  split
  · rename_i hz
    rw [hz]
    rfl
  · rename_i hz
    obtain ⟨n',e,hstrip,heq,he,hpos,hlast⟩ := stripZeros_zero hz
    rw [hstrip]
    unfold codedAmount
    simp only
    split
    · rename_i hlt
      have hd := hlast hlt
      rw [if_neg (by omega),
        show (1+(n'/10*9+n'%10-1)*10+e-1)%10 = e by omega,
        show (1+(n'/10*9+n'%10-1)*10+e-1)/10 = n'/10*9+n'%10-1 by omega,if_pos hlt,
        show (n'/10*9+n'%10-1)/9*10+((n'/10*9+n'%10-1)%9+1) = n' by omega]
      exact heq.symm
    · rename_i hlt
      obtain rfl : e = 9 := by omega
      rw [if_neg (by omega),show (1+(n'-1)*10+9-1)%10 = 9 by omega,
        show (1+(n'-1)*10+9-1)/10 = n'-1 by omega,if_neg (by decide),
        show n'-1+1 = n' by omega]
      exact heq.symm

theorem amountCode_codedAmount (x : Nat) : amountCode (codedAmount x) = x := by
  unfold codedAmount
  split
  · rename_i hz
    rw [hz]
    rfl
  · rename_i hz
    have he : (x-1)%10 < 10 := Nat.mod_lt _ (by decide)
    simp only
    generalize hexp : (x-1)%10 = e at *
    generalize hrest : (x-1)/10 = y at *
    unfold amountCode
    split
    · rename_i hlt
      have hpos : (y/9*10+(y%9+1))*10^e ≠ 0 := by positivity
      rw [if_neg hpos,stripZeros_mul (by omega) (by omega),Nat.zero_add]
      simp only
      rw [if_pos hlt]
      omega
    · rename_i hlt
      obtain rfl : e = 9 := by omega
      rw [if_neg (by positivity),stripZeros_mul (by omega) (by omega)]
      simp only
      rw [if_neg (by decide)]
      omega

/-- Every amount has a code of its own, and every number is one. -/
def amountCoding : Nat ≃ Nat where
  toFun := amountCode
  invFun := codedAmount
  left_inv := codedAmount_amountCode
  right_inv := amountCode_codedAmount

section Machine

theorem compressAmount_eq (n : Nat) : compressAmount n = amountCode n%2^64 := by
  unfold compressAmount amountCode
  split
  · rfl
  · simp only
    split <;> rfl

theorem foldl_timesTen (n e : Nat) :
    (List.range e).foldl (fun n _ => n*10%2^64) (n%2^64) = n*10^e%2^64 := by
  induction e with
  | zero => simp
  | succ e ih =>
    rw [List.range_succ,List.foldl_append,ih]
    simp only [List.foldl_cons,List.foldl_nil]
    rw [Nat.mod_mul_mod,Nat.mul_assoc,← pow_succ]

theorem decompressAmount_eq (x : Nat) : decompressAmount x = codedAmount x%2^64 := by
  unfold decompressAmount codedAmount
  split
  · rfl
  · simp only
    split
    · exact foldl_timesTen _ _
    · exact foldl_timesTen _ _

/-- The steps of `CompressAmount` are exact when their result is: none is above it. -/
theorem compressChecked_eq_some {n c : Nat} :
    compressChecked n = some c ↔ c = amountCode n ∧ c < 2^64 := by
  unfold compressChecked amountCode
  split
  · simp only [Option.some.injEq]
    constructor
    · rintro rfl
      exact ⟨rfl,by decide⟩
    · exact fun h => h.1.symm
  · rename_i hz
    obtain ⟨n',e,hstrip,-,he,hpos,hlast⟩ := stripZeros_zero hz
    rw [hstrip]
    simp only
    split
    · rename_i hlt
      have hd := hlast hlt
      simp only [Option.bind_eq_bind,Option.bind_eq_some_iff,fit64_eq_some,
        Option.guard_eq_some']
      constructor
      · rintro ⟨_,-,_,⟨rfl,-⟩,_,⟨rfl,-⟩,_,⟨rfl,-⟩,_,⟨rfl,-⟩,rfl,hc⟩
        exact ⟨rfl,hc⟩
      · rintro ⟨rfl,hc⟩
        exact ⟨(),by omega,_,⟨rfl,by omega⟩,_,⟨rfl,by omega⟩,_,⟨rfl,by omega⟩,_,
          ⟨rfl,by omega⟩,rfl,hc⟩
    · simp only [Option.bind_eq_bind,Option.bind_eq_some_iff,fit64_eq_some]
      constructor
      · rintro ⟨_,⟨rfl,-⟩,_,⟨rfl,-⟩,rfl,hc⟩
        exact ⟨rfl,hc⟩
      · rintro ⟨rfl,hc⟩
        exact ⟨_,⟨rfl,by omega⟩,_,⟨rfl,by omega⟩,rfl,hc⟩

theorem timesTen_eq_some {e n m : Nat} (hn : n < 2^64) :
    timesTen e n = some m ↔ m = n*10^e ∧ m < 2^64 := by
  induction e generalizing n with
  | zero =>
    simp only [timesTen,pow_zero,Nat.mul_one,Option.some.injEq]
    constructor
    · rintro rfl
      exact ⟨rfl,hn⟩
    · exact fun h => h.1.symm
  | succ e ih =>
    have hstep : n*10^(e+1) = n*10*10^e := by rw [pow_succ',Nat.mul_assoc]
    rw [timesTen,Option.bind_eq_some_iff,hstep]
    constructor
    · rintro ⟨k,hk,hm⟩
      obtain ⟨rfl,hlt⟩ := fit64_eq_some.mp hk
      exact (ih hlt).mp hm
    · rintro ⟨rfl,hm⟩
      have hlt : n*10 < 2^64 :=
        Nat.lt_of_le_of_lt (Nat.le_mul_of_pos_right _ (Nat.pow_pos (by decide))) hm
      exact ⟨n*10,fit64_eq_some.mpr ⟨rfl,hlt⟩,(ih hlt).mpr ⟨rfl,hm⟩⟩

/-- The steps of `DecompressAmount` are exact when the amount fits. -/
theorem decompressChecked_eq_some {x n : Nat} :
    decompressChecked x = some n ↔ n = codedAmount x ∧ n < 2^64 := by
  have hgrow : ∀ a k : Nat, a ≤ a*10^k := fun a k =>
    Nat.le_mul_of_pos_right _ (Nat.pow_pos (by decide))
  unfold decompressChecked codedAmount
  split
  · simp only [Option.some.injEq]
    constructor
    · rintro rfl
      exact ⟨rfl,by decide⟩
    · exact fun h => h.1.symm
  · simp only
    generalize (x-1)%10 = e
    generalize (x-1)/10 = y
    split
    · simp only [Option.bind_eq_bind,Option.bind_eq_some_iff,fit64_eq_some]
      constructor
      · rintro ⟨_,⟨rfl,-⟩,_,⟨rfl,hlt⟩,hn⟩
        exact (timesTen_eq_some hlt).mp hn
      · rintro ⟨rfl,hn⟩
        have hle := hgrow (y/9*10+(y%9+1)) e
        exact ⟨_,⟨rfl,by omega⟩,_,⟨rfl,by omega⟩,(timesTen_eq_some (by omega)).mpr ⟨rfl,hn⟩⟩
    · simp only [Option.bind_eq_bind,Option.bind_eq_some_iff,fit64_eq_some]
      constructor
      · rintro ⟨_,⟨rfl,hlt⟩,hn⟩
        exact (timesTen_eq_some hlt).mp hn
      · rintro ⟨rfl,hn⟩
        have hle := hgrow (y+1) e
        exact ⟨_,⟨rfl,by omega⟩,(timesTen_eq_some (by omega)).mpr ⟨rfl,hn⟩⟩

/-- The code of an amount has at most one digit more. -/
theorem amountCode_le (n : Nat) : amountCode n ≤ 10*n := by
  unfold amountCode
  split
  · exact Nat.zero_le _
  · rename_i hz
    obtain ⟨n',e,hstrip,heq,he,hpos,hlast⟩ := stripZeros_zero hz
    rw [hstrip]
    simp only
    split
    · rename_i hlt
      have hd := hlast hlt
      rcases Nat.eq_zero_or_pos e with rfl | hep
      · rw [pow_zero,Nat.mul_one] at heq
        omega
      · have hten : n'*10 ≤ n'*10^e :=
          Nat.mul_le_mul_left n' (Nat.le_self_pow (Nat.pos_iff_ne_zero.mp hep) 10)
        omega
    · have hle : n' ≤ n'*10^e := Nat.le_mul_of_pos_right _ (Nat.pow_pos (by decide))
      omega

/-- Amount compression loses nothing: amounts below 2^60, and so all amounts of money, are found
again, and a code whose decompression does not overflow is the code of the amount it gives; no
step overflows in either direction. -/
theorem amount_codec :
    (∀ n < 2^60, ∃ c, compressChecked n = some c ∧ compressAmount n = c ∧
      decompressChecked c = some n ∧ decompressAmount c = n) ∧
    (∀ n : Int, moneyRange n = true → n.toNat < 2^60) ∧
    (∀ x < 2^64, ∀ n, decompressChecked x = some n →
      decompressAmount x = n ∧ compressChecked n = some x ∧ compressAmount n = x) := by
  refine ⟨?_,?_,?_⟩
  · intro n hn
    have hle := amountCode_le n
    have hc : amountCode n < 2^64 := by omega
    have hback : codedAmount (amountCode n) = n := codedAmount_amountCode n
    refine ⟨amountCode n,compressChecked_eq_some.mpr ⟨rfl,hc⟩,?_,
      decompressChecked_eq_some.mpr ⟨hback.symm,by omega⟩,?_⟩
    · rw [compressAmount_eq,Nat.mod_eq_of_lt hc]
    · rw [decompressAmount_eq,hback,Nat.mod_eq_of_lt (by omega)]
  · intro n hn
    have hr := (moneyRange_iff n).mp hn
    simp only [MAX_MONEY,COIN] at hr
    omega
  · intro x hx n hn
    obtain ⟨rfl,hfit⟩ := decompressChecked_eq_some.mp hn
    have hback : amountCode (codedAmount x) = x := amountCode_codedAmount x
    refine ⟨?_,compressChecked_eq_some.mpr ⟨hback.symm,hx⟩,?_⟩
    · rw [decompressAmount_eq,Nat.mod_eq_of_lt hfit]
    · rw [compressAmount_eq,hback,Nat.mod_eq_of_lt hx]

end Machine

end Anoncoin
