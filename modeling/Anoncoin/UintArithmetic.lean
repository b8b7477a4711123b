import Anoncoin.BaseUint

/-!
The remaining operators of uint256.h and uint256.cpp, limb by limb: the products and
`operator--`, and the arithmetic of all operators modulo the power of two of the width.
-/

set_option autoImplicit false

namespace Anoncoin
open Lib

namespace BaseUint
variable {WIDTH : Nat}

/-- The loop of `operator--`, which goes on past a limb that wraps and is not the last. -/
def decrementFrom : List Uint32 → List Uint32
  | [] => []
  | [x] => [x-1]
  | x :: y :: rest =>
      if x-1 = -1 then (x-1) :: decrementFrom (y :: rest) else (x-1) :: y :: rest

/-- The loop of `operator*=` with a `uint32_t`; a product of limbs and the carry has 64 bits. -/
def mul32From (b32 : Uint32) (carry : Uint64) : List Uint32 → List Uint32
  | [] => []
  | x :: xs =>
      let n := carry+b32.setWidth 64*x.setWidth 64
      n.setWidth 32 :: mul32From b32 (n >>> 32) xs

theorem length_decrementFrom (xs : List Uint32) : (decrementFrom xs).length = xs.length := by
  induction xs with
  | nil => rfl
  | cons x xs ih =>
    cases xs with
    | nil => rfl
    | cons y rest =>
      unfold decrementFrom
      split
      · rw [List.length_cons,ih]
        rfl
      · rfl

theorem length_mul32From (b32 : Uint32) (carry : Uint64) (xs : List Uint32) :
    (mul32From b32 carry xs).length = xs.length := by
  induction xs generalizing carry with
  | nil => rfl
  | cons x xs ih => simp [mul32From,ih]

def decrement (a : BaseUint WIDTH) : BaseUint WIDTH :=
  ⟨decrementFrom a.pn,by rw [length_decrementFrom,a.length_pn]⟩

def mul32 (a : BaseUint WIDTH) (b32 : Uint32) : BaseUint WIDTH :=
  ⟨mul32From b32 0#64 a.pn,by rw [length_mul32From,a.length_pn]⟩

/-- `pn[i] = x`. -/
def setLimb (a : BaseUint WIDTH) (i : Nat) (x : Uint32) : BaseUint WIDTH :=
  ⟨a.pn.set i x,by rw [List.length_set,a.length_pn]⟩

/-- What the reference on the right of an operator refers to: another number, or the one on its
left. -/
inductive Operand (WIDTH : Nat) where
  | other (b : BaseUint WIDTH)
  | self
  deriving DecidableEq, Repr

/-- What is read through the reference while the number on the left is `pn`. -/
def Operand.read : Operand WIDTH → BaseUint WIDTH → BaseUint WIDTH
  | .other b,_ => b
  | .self,pn => pn

/-- One round of the inner loop of `operator*=`, on the result so far and the carry. -/
def mulColumn (a : BaseUint WIDTH) (b : Operand WIDTH) (j : Nat) (row : BaseUint WIDTH × Uint64)
    (i : Nat) : BaseUint WIDTH × Uint64 :=
  let (pn,carry) := row
  let n := carry+(pn.limb (i+j)).setWidth 64+(a.limb j).setWidth 64*((b.read pn).limb i).setWidth 64
  (pn.setLimb (i+j) (n.setWidth 32),n >>> 32)

/-- One round of the outer loop. -/
def mulRow (a : BaseUint WIDTH) (b : Operand WIDTH) (pn : BaseUint WIDTH) (j : Nat) :
    BaseUint WIDTH :=
  ((List.range (WIDTH-j)).foldl (a.mulColumn b j) (pn,0#64)).1

/-- `operator*=`, which copies the left operand and then clears it. -/
def mul (a : BaseUint WIDTH) (b : Operand WIDTH) : BaseUint WIDTH :=
  (List.range WIDTH).foldl (a.mulRow b) zero

/-- A product of limbs leaves room for two more limbs in 64 bits. -/
theorem limbProduct_le {x y : Nat} (hx : x < 2^32) (hy : y < 2^32) : x*y ≤ 2^64-2^33+1 := by
  have hmul : x*y ≤ (2^32-1)*(2^32-1) := Nat.mul_le_mul (by omega) (by omega)
  omega

theorem decrementFrom_value (xs : List Uint32) :
    limbsValue (decrementFrom xs) = (limbsValue xs+(2^(32*xs.length)-1))%2^(32*xs.length) := by
  induction xs with
  | nil => simp [decrementFrom]
  | cons x xs ih =>
    have hx := x.isLt
    have hdec : (x-1).toNat = (x.toNat+(2^32-1))%2^32 := by
      rw [BitVec.toNat_sub,Nat.add_comm]
      rfl
    cases xs with
    | nil => simp [decrementFrom,Nat.add_comm]
    | cons y rest =>
      have hlt := limbsValue_lt (y :: rest)
      have hpos := Nat.two_pow_pos (32*(y :: rest).length)
      unfold decrementFrom
      rw [List.length_cons,Nat.mul_add 32,Nat.mul_one,Nat.add_comm (32*_),pow_add]
      split
      · rename_i hwrap
        have hzero : x.toNat = 0 := by
          have h := congrArg BitVec.toNat hwrap
          rw [hdec] at h
          change _ = 2^32-1 at h
          omega
        rw [limbsValue_cons (x-1),ih,hdec,limbsValue_cons x,hzero]
        generalize 2^(32*(y :: rest).length) = q at *
        rw [show 0+2^32*limbsValue (y :: rest)+(2^32*q-1) =
            2^32-1+2^32*(limbsValue (y :: rest)+(q-1)) by omega,Nat.mod_mul,
          Nat.add_mul_mod_self_left,Nat.add_mul_div_left _ _ (by decide)]
        simp
      · rename_i hkeep
        have hsome : 0 < x.toNat := by
          refine Nat.pos_of_ne_zero fun h => hkeep (BitVec.eq_of_toNat_eq ?_)
          rw [hdec,h]
          rfl
        rw [limbsValue_cons (x-1),limbsValue_cons x,hdec]
        generalize 2^(32*(y :: rest).length) = q at *
        rw [show x.toNat+2^32*limbsValue (y :: rest)+(2^32*q-1) =
            x.toNat-1+2^32*(limbsValue (y :: rest)+q) by omega,Nat.mod_mul,
          Nat.add_mul_mod_self_left,Nat.add_mul_div_left _ _ (by decide),
          Nat.div_eq_of_lt (by omega),Nat.zero_add,Nat.add_mod_right,Nat.mod_eq_of_lt hlt]
        omega

theorem value_decrement (a : BaseUint WIDTH) :
    a.decrement.value = (a.value+(2^(32*WIDTH)-1))%2^(32*WIDTH) := by
  have h := decrementFrom_value a.pn
  rwa [a.length_pn] at h

theorem mul32From_value (b32 : Uint32) (carry : Uint64) (xs : List Uint32)
    (hcarry : carry.toNat < 2^32) : limbsValue (mul32From b32 carry xs) =
      (carry.toNat+b32.toNat*limbsValue xs)%2^(32*xs.length) := by
  induction xs generalizing carry with
  | nil => simp [mul32From,Nat.mod_one]
  | cons x xs ih =>
    have hb := b32.isLt
    have hx := x.isLt
    have hmul := limbProduct_le hb hx
    have hn : (carry+b32.setWidth 64*x.setWidth 64).toNat = carry.toNat+b32.toNat*x.toNat := by
      rw [BitVec.toNat_add,BitVec.toNat_mul,BitVec.toNat_setWidth,BitVec.toNat_setWidth]
      rw [Nat.mod_eq_of_lt (a := b32.toNat) (by omega),Nat.mod_eq_of_lt (a := x.toNat) (by omega)]
      omega
    have hhigh : ((carry+b32.setWidth 64*x.setWidth 64) >>> 32).toNat =
        (carry.toNat+b32.toNat*x.toNat)/2^32 := by
      rw [BitVec.toNat_ushiftRight,hn,Nat.shiftRight_eq_div_pow]
    simp only [mul32From,limbsValue_cons]
    rw [ih _ (by rw [hhigh]; omega),hhigh,BitVec.toNat_setWidth,hn,List.length_cons,
      Nat.mul_add 32,Nat.mul_one,Nat.add_comm (32*_),pow_add,Nat.mod_mul,
      show carry.toNat+b32.toNat*(x.toNat+2^32*limbsValue xs) =
        carry.toNat+b32.toNat*x.toNat+2^32*(b32.toNat*limbsValue xs) by ring,
      Nat.add_mul_mod_self_left,Nat.add_mul_div_left _ _ (by decide)]

theorem value_mul32 (a : BaseUint WIDTH) (b32 : Uint32) :
    (a.mul32 b32).value = a.value*b32.toNat%2^(32*WIDTH) := by
  have h := mul32From_value b32 0#64 a.pn (by decide)
  rw [a.length_pn,BitVec.toNat_zero,Nat.zero_add,Nat.mul_comm] at h
  exact h

section Product
variable {a b pn : BaseUint WIDTH} {i j : Nat} {x : Uint32}

theorem limb_setLimb (a : BaseUint WIDTH) (x : Uint32) (hi : i < WIDTH) (j : Nat) :
    (a.setLimb i x).limb j = if i = j then x else a.limb j := by
  have hlen : i < a.pn.length := by rw [a.length_pn]; exact hi
  unfold limb setLimb
  simp only [List.getD_eq_getElem?_getD,List.getElem?_set]
  by_cases hij : i = j
  · simp [← hij,hlen]
  · simp [hij]

/-- A limb that is set does not change the number below it. -/
theorem below_setLimb (a : BaseUint WIDTH) (i : Nat) (x : Uint32) :
    (a.setLimb i x).below i = a.below i := by
  unfold below setLimb
  rw [List.take_set_of_le (le_refl i)]

theorem value_split (a : BaseUint WIDTH) {i : Nat} (h : i ≤ WIDTH) :
    ∃ high, a.value = a.below i+2^(32*i)*high := by
  refine ⟨limbsValue (a.pn.drop i),?_⟩
  have happend := limbsValue_append (a.pn.take i) (a.pn.drop i)
  rw [List.take_append_drop,List.length_take_of_le (by rw [a.length_pn]; exact h)] at happend
  exact happend

/-- What the first `n` columns of a row leave: with the carry they are the exact sum, and the
limbs above are the old ones. -/
structure Columns (a b pn : BaseUint WIDTH) (j n : Nat) (row : BaseUint WIDTH × Uint64) : Prop where
  carry : row.2.toNat < 2^32
  sum : row.1.below (n+j)+2^(32*(n+j))*row.2.toNat =
    pn.below (n+j)+2^(32*j)*((a.limb j).toNat*b.below n)
  above : ∀ k, n+j ≤ k → row.1.limb k = pn.limb k

theorem Columns.step {n : Nat} {row : BaseUint WIDTH × Uint64} (h : Columns a b pn j n row)
    (hn : n+j < WIDTH) : Columns a b pn j (n+1) (a.mulColumn (.other b) j row n) := by
  obtain ⟨pn',carry⟩ := row
  obtain ⟨hcarry,hsum,habove⟩ := h
  simp only at hcarry hsum habove
  have hp := (pn.limb (n+j)).isLt
  have hmul := limbProduct_le (a.limb j).isLt (b.limb n).isLt
  have hm : (carry+(pn'.limb (n+j)).setWidth 64+(a.limb j).setWidth 64*(b.limb n).setWidth 64).toNat =
      carry.toNat+(pn.limb (n+j)).toNat+(a.limb j).toNat*(b.limb n).toNat := by
    rw [habove _ (le_refl _)]
    simp only [BitVec.toNat_add,BitVec.toNat_mul,BitVec.toNat_setWidth]
    rw [Nat.mod_eq_of_lt (a := (a.limb j).toNat) (by omega),
      Nat.mod_eq_of_lt (a := (b.limb n).toNat) (by omega)]
    omega
  have hpow : 2^(32*(n+j+1)) = 2^(32*(n+j))*2^32 := by rw [Nat.mul_add 32,Nat.mul_one,pow_add]
  have hshift : 2^(32*(n+j)) = 2^(32*j)*2^(32*n) := by
    rw [Nat.add_comm n,Nat.mul_add 32,pow_add]
  refine ⟨?_,?_,fun k hk => ?_⟩
  · simp only [mulColumn,Operand.read]
    rw [BitVec.toNat_ushiftRight,hm,Nat.shiftRight_eq_div_pow]
    omega
  · simp only [mulColumn,Operand.read]
    rw [show n+1+j = n+j+1 by omega,below_succ _ hn,below_succ _ hn,below_succ b (by omega),
      below_setLimb,limb_setLimb _ _ hn,if_pos rfl,BitVec.toNat_setWidth,BitVec.toNat_ushiftRight,hm,
      Nat.shiftRight_eq_div_pow,hpow]
    generalize hcolumn : carry.toNat+(pn.limb (n+j)).toNat+(a.limb j).toNat*(b.limb n).toNat = m
    have hdiv := Nat.mod_add_div m (2^32)
    calc pn'.below (n+j)+2^(32*(n+j))*(m%2^32)+2^(32*(n+j))*2^32*(m/2^32)
        = pn'.below (n+j)+2^(32*(n+j))*(m%2^32+2^32*(m/2^32)) := by ring
      _ = pn'.below (n+j)+2^(32*(n+j))*carry.toNat+2^(32*(n+j))*(pn.limb (n+j)).toNat+
            2^(32*(n+j))*((a.limb j).toNat*(b.limb n).toNat) := by rw [hdiv,← hcolumn]; ring
      _ = _ := by rw [hsum,hshift]; ring
  · simp only [mulColumn,Operand.read]
    rw [limb_setLimb _ _ hn,if_neg (by omega)]
    exact habove k (by omega)

theorem mulRow_value (hj : j < WIDTH) : (a.mulRow (.other b) pn j).value =
    (pn.value+2^(32*j)*((a.limb j).toNat*b.value))%2^(32*WIDTH) := by
  have hcolumns : ∀ n, n+j ≤ WIDTH → Columns a b pn j n
      ((List.range n).foldl (a.mulColumn (.other b) j) (pn,0#64)) := by
    intro n hn
    induction n with
    | zero =>
      refine ⟨?_,by simp [below],fun k _ => rfl⟩
      show (0#64).toNat < 2^32
      decide
    | succ n ih =>
      rw [List.range_succ,List.foldl_append,List.foldl_cons,List.foldl_nil]
      exact (ih (by omega)).step (by omega)
  obtain ⟨-,hsum,-⟩ := hcolumns (WIDTH-j) (by omega)
  obtain ⟨high,hhigh⟩ := b.value_split (i := WIDTH-j) (by omega)
  rw [Nat.sub_add_cancel hj.le,below_width,below_width] at hsum
  have hpow : 2^(32*WIDTH) = 2^(32*j)*2^(32*(WIDTH-j)) := by
    rw [← pow_add,← Nat.mul_add,Nat.add_sub_cancel' hj.le]
  unfold mulRow
  generalize (List.range (WIDTH-j)).foldl (a.mulColumn (.other b) j) (pn,0#64) = row at hsum ⊢
  have hexact : pn.value+2^(32*j)*((a.limb j).toNat*b.value) =
      row.1.value+2^(32*WIDTH)*(row.2.toNat+(a.limb j).toNat*high) :=
    calc pn.value+2^(32*j)*((a.limb j).toNat*b.value)
        = pn.value+2^(32*j)*((a.limb j).toNat*b.below (WIDTH-j))+
            2^(32*j)*2^(32*(WIDTH-j))*((a.limb j).toNat*high) := by rw [hhigh]; ring
      _ = row.1.value+2^(32*WIDTH)*row.2.toNat+
            2^(32*j)*2^(32*(WIDTH-j))*((a.limb j).toNat*high) := by rw [hsum]
      _ = _ := by rw [← hpow]; ring
  rw [hexact,Nat.add_mul_mod_self_left,Nat.mod_eq_of_lt row.1.value_lt]

/-- Row by row, the product by the limbs of `a` that were taken. -/
theorem mul_other (a b : BaseUint WIDTH) :
    (a.mul (.other b)).value = a.value*b.value%2^(32*WIDTH) := by
  have hrows : ∀ n ≤ WIDTH, ((List.range n).foldl (a.mulRow (.other b)) zero).value =
      a.below n*b.value%2^(32*WIDTH) := by
    intro n hn
    induction n with
    | zero => simp [below]
    | succ n ih =>
      rw [List.range_succ,List.foldl_append,List.foldl_cons,List.foldl_nil,mulRow_value (by omega),
        ih (by omega),Nat.mod_add_mod,below_succ _ (by omega)]
      congr 1
      ring
  rw [← below_width a]
  exact hrows WIDTH (le_refl _)

/-- The number on the left is cleared before it is read as the one on the right. -/
theorem mul_self (a : BaseUint WIDTH) : a.mul .self = zero := by
  have hlimb (i : Nat) : (zero : BaseUint WIDTH).limb i = 0 := by
    unfold limb zero
    by_cases hi : i < WIDTH
    · rw [List.getD_eq_getElem _ _ (by simpa using hi),List.getElem_replicate]
      rfl
    · rw [List.getD_eq_default _ _ (by simpa using hi)]
  have hset (i : Nat) : (zero : BaseUint WIDTH).setLimb i 0#32 = zero := by
    unfold setLimb zero
    congr 1
    exact List.set_replicate_self
  have hrow (j : Nat) : a.mulRow .self zero j = zero := by
    have hcolumn (i : Nat) : a.mulColumn .self j (zero,0#64) i = (zero,0#64) := by
      simp [mulColumn,Operand.read,hlimb,hset]
    unfold mulRow
    rw [List.foldl_fixed' hcolumn]
  exact List.foldl_fixed' hrow _

end Product

section Modulo

/-- Every operator performs its operation modulo the power of two of the width. The binary ones
read the number that the reference on the right refers to. -/
structure ComputesModulo (a : BaseUint WIDTH) (b : Operand WIDTH) (b32 : Uint32) (shift : Nat) :
    Prop where
  add : (a.add (b.read a)).value = (a.value+(b.read a).value)%2^(32*WIDTH)
  sub : ((a.sub (b.read a)).value : Int) = ((a.value : Int)-(b.read a).value)%2^(32*WIDTH)
  mul : (a.mul b).value = a.value*(b.read a).value%2^(32*WIDTH)
  mul32 : (a.mul32 b32).value = a.value*b32.toNat%2^(32*WIDTH)
  neg : (a.neg.value : Int) = -(a.value : Int)%2^(32*WIDTH)
  increment : a.increment.value = (a.value+1)%2^(32*WIDTH)
  decrement : (a.decrement.value : Int) = ((a.value : Int)-1)%2^(32*WIDTH)
  shiftLeft : (a.shiftLeft shift).value = a.value*2^shift%2^(32*WIDTH)
  shiftRight : (a.shiftRight shift).value = a.value/2^shift
  shiftedOut : 32*WIDTH ≤ shift → a.shiftLeft shift = zero ∧ a.shiftRight shift = zero
  compareTo : a.compareTo (b.read a) = ((a.value : Int)-(b.read a).value).sign

theorem cast_sub_mod {x y m : Nat} (h : y ≤ m) :
    (((x+(m-y))%m : Nat) : Int) = ((x : Int)-y)%m := by
  rw [Int.natCast_emod,Nat.cast_add,Nat.cast_sub h,
    show (x : Int)+((m : Int)-y) = x-y+m by ring,Int.add_emod_right]

theorem shiftLeft_out (a : BaseUint WIDTH) {shift : Nat} (h : 32*WIDTH ≤ shift) :
    a.shiftLeft shift = zero := by
  apply value_inj
  rw [value_shiftLeft,value_zero,← Nat.sub_add_cancel h,pow_add,← Nat.mul_assoc,Nat.mul_mod_left]

theorem shiftRight_out (a : BaseUint WIDTH) {shift : Nat} (h : 32*WIDTH ≤ shift) :
    a.shiftRight shift = zero := by
  apply value_inj
  rw [value_shiftRight,value_zero]
  exact Nat.div_eq_of_lt (a.value_lt.trans_le (Nat.pow_le_pow_right (by decide) h))

theorem compareTo_eq (a b : BaseUint WIDTH) :
    a.compareTo b = ((a.value : Int)-b.value).sign := by
  unfold compareTo
  rw [compareFrom_eq a b (le_refl _),below_width,below_width]
  split
  · rw [Int.sign_eq_neg_one_of_neg (by omega)]
  · split
    · rw [Int.sign_eq_one_of_pos (by omega)]
    · rw [show (a.value : Int)-b.value = 0 by omega,Int.sign_zero]

/-- All operators do, except for a number that is multiplied by itself in place. -/
theorem computesModulo_iff (a : BaseUint WIDTH) (b : Operand WIDTH) (b32 : Uint32) (shift : Nat) :
    a.ComputesModulo b b32 shift ↔ (b = .self → a.value*a.value%2^(32*WIDTH) = 0) := by
  constructor
  · rintro h rfl
    have hmul := h.mul
    rw [mul_self,value_zero] at hmul
    exact hmul.symm
  · intro h
    have hsub (y : BaseUint WIDTH) := @cast_sub_mod a.value y.value _ y.value_lt.le
    have hneg := @cast_sub_mod 0 a.value _ a.value_lt.le
    have hdec := @cast_sub_mod a.value 1 (2^(32*WIDTH)) (Nat.two_pow_pos _)
    refine ⟨value_add _ _,?_,?_,value_mul32 _ _,?_,value_increment _,?_,value_shiftLeft _ _,
      value_shiftRight _ _,fun hout => ⟨shiftLeft_out a hout,shiftRight_out a hout⟩,
      compareTo_eq _ _⟩
    · rw [sub,value_add,value_neg,Nat.add_mod_mod,hsub]
      norm_cast
    · cases b with
      | other b => exact mul_other a b
      | self =>
        rw [mul_self,value_zero]
        exact (h rfl).symm
    · rw [value_neg,← Nat.zero_add (2^(32*WIDTH)-a.value),hneg]
      norm_num
    · rw [value_decrement,hdec]
      norm_num

/-- One times itself, in place, is zero. -/
theorem one_times_itself : ¬∀ (a : BaseUint 8) (b : Operand 8) (b32 : Uint32) (shift : Nat),
    a.ComputesModulo b b32 shift := by
  intro h
  have hmul := (h (ofUint64 1) .self 0 0).mul
  rw [mul_self,value_zero] at hmul
  exact absurd hmul (by decide)

end Modulo

end BaseUint

end Anoncoin
