import Anoncoin.Lib.Limbs
import Anoncoin.Chain

/-!
The big integers of uint256.h and uint256.cpp, limb by limb: `base_uint` with its addition,
shifts, comparison and long division, and the arithmetic that each operator performs.
-/

set_option autoImplicit false

namespace Anoncoin
open Lib

/-- `base_uint<BITS>`, with `WIDTH` limbs of 32 bits. -/
structure BaseUint (WIDTH : Nat) where
  pn : List Uint32
  length_pn : pn.length = WIDTH
  deriving DecidableEq, Repr

namespace BaseUint
variable {WIDTH : Nat}

def limb (a : BaseUint WIDTH) (i : Nat) : Uint32 := a.pn.getD i 0

def isNull (a : BaseUint WIDTH) : Bool := a.pn.all fun x => x == 0

/-- The default constructor. -/
def zero : BaseUint WIDTH := ⟨List.replicate WIDTH 0#32,List.length_replicate⟩

/-- The constructor from a `uint64_t`. -/
def ofUint64 (b : Uint64) : BaseUint (WIDTH+2) :=
  ⟨b.setWidth 32 :: (b >>> 32).setWidth 32 :: List.replicate WIDTH 0#32,by simp⟩

/-- `operator~`. -/
def complement (a : BaseUint WIDTH) : BaseUint WIDTH :=
  ⟨a.pn.map fun x => ~~~x,by rw [List.length_map,a.length_pn]⟩

/-- The loop of `operator++`, which goes on past a limb that wraps and is not the last. -/
def incrementFrom : List Uint32 → List Uint32
  | [] => []
  | [x] => [x+1]
  | x :: y :: rest => if x+1 = 0 then (x+1) :: incrementFrom (y :: rest) else (x+1) :: y :: rest

/-- The loop of `operator+=`; the sum of two limbs and the carry has 64 bits. -/
def addFrom (carry : Uint64) : List Uint32 → List Uint32 → List Uint32
  | x :: xs,y :: ys =>
      let n := carry+x.setWidth 64+y.setWidth 64
      n.setWidth 32 :: addFrom (n >>> 32) xs ys
  | _,_ => []

theorem length_incrementFrom (xs : List Uint32) : (incrementFrom xs).length = xs.length := by
  induction xs with
  | nil => rfl
  | cons x xs ih =>
    cases xs with
    | nil => rfl
    | cons y rest =>
      unfold incrementFrom
      split
      · rw [List.length_cons,ih]
        rfl
      · rfl

theorem length_addFrom (carry : Uint64) (xs ys : List Uint32) :
    (addFrom carry xs ys).length = min xs.length ys.length := by
  induction xs generalizing carry ys with
  | nil => simp [addFrom]
  | cons x xs ih =>
    cases ys with
    | nil => simp [addFrom]
    | cons y ys =>
      simp only [addFrom,List.length_cons,ih]
      omega

def increment (a : BaseUint WIDTH) : BaseUint WIDTH :=
  ⟨incrementFrom a.pn,by rw [length_incrementFrom,a.length_pn]⟩

/-- `operator-` of one argument. -/
def neg (a : BaseUint WIDTH) : BaseUint WIDTH := a.complement.increment

def add (a b : BaseUint WIDTH) : BaseUint WIDTH :=
  ⟨addFrom 0#64 a.pn b.pn,by rw [length_addFrom,a.length_pn,b.length_pn,min_self]⟩

def sub (a b : BaseUint WIDTH) : BaseUint WIDTH := a.add b.neg

/-- `pn[i] |= x`. -/
def orLimb (a : BaseUint WIDTH) (i : Nat) (x : Uint32) : BaseUint WIDTH :=
  ⟨a.pn.modify i fun y => y ||| x,by rw [List.length_modify,a.length_pn]⟩

/-- One round of `operator<<=`, on the result so far. -/
def shiftLeftLimb (a : BaseUint WIDTH) (k shift : Nat) (pn : BaseUint WIDTH) (i : Nat) :
    BaseUint WIDTH :=
  let pn := if i+k+1 < WIDTH ∧ shift ≠ 0 then pn.orLimb (i+k+1) (a.limb i >>> (32-shift)) else pn
  if i+k < WIDTH then pn.orLimb (i+k) (a.limb i <<< shift) else pn

def shiftLeft (a : BaseUint WIDTH) (shift : Nat) : BaseUint WIDTH :=
  (List.range WIDTH).foldl (a.shiftLeftLimb (shift/32) (shift%32)) zero

/-- One round of `operator>>=`, on the result so far. -/
def shiftRightLimb (a : BaseUint WIDTH) (k shift : Nat) (pn : BaseUint WIDTH) (i : Nat) :
    BaseUint WIDTH :=
  let pn := if k+1 ≤ i ∧ shift ≠ 0 then pn.orLimb (i-k-1) (a.limb i <<< (32-shift)) else pn
  if k ≤ i then pn.orLimb (i-k) (a.limb i >>> shift) else pn

def shiftRight (a : BaseUint WIDTH) (shift : Nat) : BaseUint WIDTH :=
  (List.range WIDTH).foldl (a.shiftRightLimb (shift/32) (shift%32)) zero

/-- The loop of `CompareTo` over the limbs below `i`, from the top. -/
def compareFrom (a b : BaseUint WIDTH) : Nat → Int
  | 0 => 0
  | i+1 =>
      if a.limb i < b.limb i then -1 else if b.limb i < a.limb i then 1 else compareFrom a b i

def compareTo (a b : BaseUint WIDTH) : Int := compareFrom a b WIDTH

/-- The inner loop of `bits`, from bit number `bits` of the limb down. -/
def topBit (x : Uint32) : Nat → Nat
  | 0 => 1
  | bits+1 => if x &&& 1#32 <<< (bits+1) ≠ 0 then bits+1+1 else topBit x bits

/-- The outer loop of `bits`, over the limbs below `pos`, from the top. -/
def bitsFrom (a : BaseUint WIDTH) : Nat → Nat
  | 0 => 0
  | pos+1 => if a.limb pos ≠ 0 then 32*pos+topBit (a.limb pos) 31 else bitsFrom a pos

def bits (a : BaseUint WIDTH) : Nat := bitsFrom a WIDTH

def getLow64 (a : BaseUint WIDTH) : Uint64 :=
  (a.limb 0).setWidth 64 ||| (a.limb 1).setWidth 64 <<< 32

/-- The loop of `operator/=` on `num`, `div` and the quotient, for the shifts below the given
number. -/
def divideLoop : Nat → BaseUint WIDTH → BaseUint WIDTH → BaseUint WIDTH → BaseUint WIDTH
  | 0,_,_,pn => pn
  | shift+1,num,div,pn =>
      if 0 ≤ num.compareTo div then
        divideLoop shift (num.sub div) (div.shiftRight 1)
          (pn.orLimb (shift/32) (1#32 <<< (shift%32)))
      else divideLoop shift num (div.shiftRight 1) pn

/-- `operator/=`; the error is the text of the `uint_error`. -/
def divide (a b : BaseUint WIDTH) : Except String (BaseUint WIDTH) :=
  let num_bits := a.bits
  let div_bits := b.bits
  if div_bits = 0 then throw "Division by zero"
  else if num_bits < div_bits then pure zero
  else
    let shift := num_bits-div_bits
    pure (divideLoop (shift+1) a (b.shiftLeft shift) zero)

/-- The same loop with all that it ends with: `num` and the quotient. -/
def divideRounds : Nat → BaseUint WIDTH → BaseUint WIDTH → BaseUint WIDTH →
    BaseUint WIDTH × BaseUint WIDTH
  | 0,num,_,pn => (num,pn)
  | shift+1,num,div,pn =>
      if 0 ≤ num.compareTo div then
        divideRounds shift (num.sub div) (div.shiftRight 1)
          (pn.orLimb (shift/32) (1#32 <<< (shift%32)))
      else divideRounds shift num (div.shiftRight 1) pn

/-- `num` at the end of `operator/=`, also where the loop is not entered. -/
def divideNum (a b : BaseUint WIDTH) : BaseUint WIDTH :=
  if a.bits < b.bits then a
  else
    let shift := a.bits-b.bits
    (divideRounds (shift+1) a (b.shiftLeft shift) zero).1

/-- The number that the limbs stand for. -/
def value (a : BaseUint WIDTH) : Nat := limbsValue a.pn

theorem value_lt (a : BaseUint WIDTH) : a.value < 2^(32*WIDTH) := by
  have h := limbsValue_lt a.pn
  rwa [a.length_pn] at h

theorem value_inj {a b : BaseUint WIDTH} (h : a.value = b.value) : a = b := by
  have hpn : a.pn = b.pn := limbsValue_inj (by rw [a.length_pn,b.length_pn]) h
  cases a
  cases b
  simpa using hpn

theorem testBit_value (a : BaseUint WIDTH) (i : Nat) :
    a.value.testBit i = (a.limb (i/32)).getLsbD (i%32) :=
  testBit_limbsValue (by decide) a.pn i

theorem limb_of_le (a : BaseUint WIDTH) {i : Nat} (h : WIDTH ≤ i) : a.limb i = 0 := by
  unfold limb
  rw [List.getD_eq_default _ _ (by rw [a.length_pn]; exact h)]

@[simp] theorem value_zero : (zero : BaseUint WIDTH).value = 0 := limbsValue_zeros WIDTH

theorem isNull_iff (a : BaseUint WIDTH) : a.isNull = true ↔ a.value = 0 := by
  unfold isNull value
  rw [limbsValue_eq_zero,List.all_eq_true]
  simp

theorem value_ofUint64 (b : Uint64) : (ofUint64 b : BaseUint (WIDTH+2)).value = b.toNat := by
  have hb := b.isLt
  unfold value ofUint64
  simp only [limbsValue_cons,BitVec.toNat_setWidth,BitVec.toNat_ushiftRight,
    Nat.shiftRight_eq_div_pow]
  rw [limbsValue_zeros]
  omega

theorem value_complement (a : BaseUint WIDTH) : a.complement.value+a.value+1 = 2^(32*WIDTH) := by
  have h := limbsValue_complement a.pn
  rwa [a.length_pn] at h

theorem incrementFrom_value (xs : List Uint32) :
    limbsValue (incrementFrom xs) = (limbsValue xs+1)%2^(32*xs.length) := by
  induction xs with
  | nil => simp [incrementFrom]
  | cons x xs ih =>
    have hx := x.isLt
    have hinc : (x+1).toNat = (x.toNat+1)%2^32 := by rw [BitVec.toNat_add]; rfl
    cases xs with
    | nil => simp [incrementFrom]
    | cons y rest =>
      unfold incrementFrom
      rw [List.length_cons,Nat.mul_add 32,Nat.mul_one,Nat.add_comm (32*_),pow_add,Nat.mod_mul]
      split
      · rename_i hwrap
        have hlast : x.toNat = 2^32-1 := by
          have h := congrArg BitVec.toNat hwrap
          rw [hinc] at h
          change _ = 0 at h
          omega
        rw [limbsValue_cons (x+1),ih,hinc,limbsValue_cons x,hlast,
          show 2^32-1+2^32*limbsValue (y :: rest)+1 = 2^32*(limbsValue (y :: rest)+1) by omega,
          Nat.mul_mod_right,Nat.mul_div_cancel_left _ (by decide)]
        simp
      · rename_i hkeep
        have hlast : x.toNat+1 < 2^32 := by
          refine Nat.lt_of_le_of_ne hx fun h => hkeep (BitVec.eq_of_toNat_eq ?_)
          rw [hinc,h]
          rfl
        have hlt := limbsValue_lt (y :: rest)
        rw [limbsValue_cons (x+1),limbsValue_cons x,hinc,Nat.mod_eq_of_lt hlast,
          show x.toNat+2^32*limbsValue (y :: rest)+1 = x.toNat+1+2^32*limbsValue (y :: rest) by
            omega,Nat.add_mul_mod_self_left,Nat.mod_eq_of_lt hlast,
          Nat.add_mul_div_left _ _ (by decide),Nat.div_eq_of_lt hlast,Nat.zero_add,
          Nat.mod_eq_of_lt hlt]

theorem value_increment (a : BaseUint WIDTH) : a.increment.value = (a.value+1)%2^(32*WIDTH) := by
  have h := incrementFrom_value a.pn
  rwa [a.length_pn] at h

theorem addFrom_value (carry : Uint64) {xs ys : List Uint32} (hlen : xs.length = ys.length)
    (hcarry : carry.toNat ≤ 1) : limbsValue (addFrom carry xs ys) =
      (carry.toNat+limbsValue xs+limbsValue ys)%2^(32*xs.length) := by
  induction xs generalizing carry ys with
  | nil => simp [addFrom,Nat.mod_one]
  | cons x xs ih =>
    cases ys with
    | nil => simp at hlen
    | cons y ys =>
      have hx := x.isLt
      have hy := y.isLt
      have hn : (carry+x.setWidth 64+y.setWidth 64).toNat = carry.toNat+x.toNat+y.toNat := by
        simp only [BitVec.toNat_add,BitVec.toNat_setWidth]
        omega
      have hhigh : ((carry+x.setWidth 64+y.setWidth 64) >>> 32).toNat =
          (carry.toNat+x.toNat+y.toNat)/2^32 := by
        rw [BitVec.toNat_ushiftRight,hn,Nat.shiftRight_eq_div_pow]
      simp only [addFrom,limbsValue_cons]
      rw [ih _ (by simpa using hlen) (by rw [hhigh]; omega),hhigh,BitVec.toNat_setWidth,hn,
        List.length_cons,Nat.mul_add 32,Nat.mul_one,Nat.add_comm (32*_),pow_add,Nat.mod_mul,
        show carry.toNat+(x.toNat+2^32*limbsValue xs)+(y.toNat+2^32*limbsValue ys) =
          carry.toNat+x.toNat+y.toNat+2^32*(limbsValue xs+limbsValue ys) by omega,
        Nat.add_mul_mod_self_left,Nat.add_mul_div_left _ _ (by decide),Nat.add_assoc (_/_)]

theorem value_add (a b : BaseUint WIDTH) : (a.add b).value = (a.value+b.value)%2^(32*WIDTH) := by
  have h := addFrom_value 0#64 (a.length_pn.trans b.length_pn.symm) (by decide)
  rw [a.length_pn,BitVec.toNat_zero,Nat.zero_add] at h
  exact h

theorem value_neg (a : BaseUint WIDTH) : a.neg.value = (2^(32*WIDTH)-a.value)%2^(32*WIDTH) := by
  have h := a.value_complement
  unfold neg
  rw [value_increment]
  congr 1
  omega

theorem value_sub {a b : BaseUint WIDTH} (h : b.value ≤ a.value) :
    (a.sub b).value = a.value-b.value := by
  have ha := a.value_lt
  have hb := b.value_lt
  unfold sub
  rw [value_add,value_neg,Nat.add_mod_mod,
    show a.value+(2^(32*WIDTH)-b.value) = a.value-b.value+2^(32*WIDTH) by omega,
    Nat.add_mod_right,Nat.mod_eq_of_lt (by omega)]

theorem limb_orLimb (a : BaseUint WIDTH) (i : Nat) (x : Uint32) (j : Nat) :
    (a.orLimb i x).limb j = if i = j ∧ j < WIDTH then a.limb j ||| x else a.limb j := by
  unfold limb orLimb
  simp only [List.getD_eq_getElem?_getD,List.getElem?_modify]
  by_cases hj : j < WIDTH
  · have hlen : j < a.pn.length := by rw [a.length_pn]; exact hj
    rw [List.getElem?_eq_getElem hlen]
    by_cases hij : i = j <;> simp [hij,hj]
  · have hlen : ¬j < a.pn.length := by rw [a.length_pn]; exact hj
    rw [List.getElem?_eq_none (by omega)]
    simp [hj]

theorem testBit_orLimb (a : BaseUint WIDTH) {i : Nat} (hi : i < WIDTH) (x : Uint32) (p : Nat) :
    (a.orLimb i x).value.testBit p =
      (a.value.testBit p || (decide (p/32 = i) && x.getLsbD (p%32))) := by
  rw [testBit_value,testBit_value,limb_orLimb]
  by_cases hp : p/32 = i
  · rw [if_pos ⟨hp.symm,by omega⟩,BitVec.getLsbD_or]
    simp [hp]
  · rw [if_neg fun h => hp h.1.symm]
    simp [hp]

/-- A round of the left shift moves the bits of one limb. -/
theorem testBit_shiftLeftLimb (a pn : BaseUint WIDTH) {i k shift : Nat} (hshift : shift < 32)
    (p : Nat) : (a.shiftLeftLimb k shift pn i).value.testBit p = (pn.value.testBit p ||
      (decide (p < 32*WIDTH ∧ 32*k+shift ≤ p ∧ (p-(32*k+shift))/32 = i) &&
        a.value.testBit (p-(32*k+shift)))) := by
  have hsource : (p-(32*k+shift))/32 = i → a.value.testBit (p-(32*k+shift)) =
      (a.limb i).getLsbD ((p-(32*k+shift))%32) := fun h => by rw [testBit_value,h]
  have hupper : (if i+k+1 < WIDTH ∧ shift ≠ 0 then
      pn.orLimb (i+k+1) (a.limb i >>> (32-shift)) else pn).value.testBit p =
        (pn.value.testBit p || (decide (i+k+1 < WIDTH ∧ shift ≠ 0 ∧ p/32 = i+k+1) &&
          (a.limb i).getLsbD (32-shift+p%32))) := by
    split
    · rename_i h
      rw [testBit_orLimb _ h.1,BitVec.getLsbD_ushiftRight]
      simp [h]
    · rename_i h
      rw [decide_eq_false fun hp => h ⟨hp.1,hp.2.1⟩]
      simp
  unfold shiftLeftLimb
  simp only
  generalize (if i+k+1 < WIDTH ∧ shift ≠ 0 then
      pn.orLimb (i+k+1) (a.limb i >>> (32-shift)) else pn) = pn' at *
  have hlower : (if i+k < WIDTH then pn'.orLimb (i+k) (a.limb i <<< shift) else pn').value.testBit p =
      (pn'.value.testBit p || (decide (i+k < WIDTH ∧ p/32 = i+k ∧ shift ≤ p%32) &&
        (a.limb i).getLsbD (p%32-shift))) := by
    split
    · rename_i h
      rw [testBit_orLimb _ h,BitVec.getLsbD_shiftLeft,decide_eq_true (Nat.mod_lt p (by decide))]
      by_cases ht : p%32 < shift
      · simp [ht]
      · simp [ht,h,Nat.le_of_not_lt ht]
    · rename_i h
      rw [decide_eq_false fun hp => h hp.1]
      simp
  rw [hlower,hupper,Bool.or_assoc]
  congr 1
  by_cases hhere : p < 32*WIDTH ∧ 32*k+shift ≤ p ∧ (p-(32*k+shift))/32 = i
  · rw [decide_eq_true hhere,hsource hhere.2.2]
    by_cases ht : shift ≤ p%32
    · rw [decide_eq_false (by omega),decide_eq_true (by omega),
        show (p-(32*k+shift))%32 = p%32-shift by omega]
      rfl
    · rw [decide_eq_true (by omega),decide_eq_false (by omega),
        show (p-(32*k+shift))%32 = 32-shift+p%32 by omega]
      simp
  · rw [decide_eq_false hhere,decide_eq_false (show ¬(i+k < WIDTH ∧ p/32 = i+k ∧ shift ≤ p%32) by
      omega)]
    by_cases hup : i+k+1 < WIDTH ∧ shift ≠ 0 ∧ p/32 = i+k+1
    · rw [BitVec.getLsbD_of_ge _ _ (by omega)]
      simp
    · rw [decide_eq_false hup]
      simp

theorem testBit_shiftLeft (a : BaseUint WIDTH) (shift p : Nat) :
    (a.shiftLeft shift).value.testBit p =
      (decide (p < 32*WIDTH ∧ shift ≤ p) && a.value.testBit (p-shift)) := by
  have hrounds : ∀ n, ((List.range n).foldl (a.shiftLeftLimb (shift/32) (shift%32))
      zero).value.testBit p = (decide (p < 32*WIDTH ∧ shift ≤ p ∧ (p-shift)/32 < n) &&
        a.value.testBit (p-shift)) := by
    intro n
    induction n with
    | zero => simp
    | succ n ih =>
      rw [List.range_succ,List.foldl_append,List.foldl_cons,List.foldl_nil,
        testBit_shiftLeftLimb _ _ (Nat.mod_lt shift (by decide)),ih,Nat.div_add_mod,
        ← Bool.and_or_distrib_right]
      congr 1
      rw [← Bool.decide_or]
      exact decide_eq_decide.mpr (by omega)
  unfold shiftLeft
  rw [hrounds WIDTH]
  congr 1
  exact decide_eq_decide.mpr (by omega)

theorem value_shiftLeft (a : BaseUint WIDTH) (shift : Nat) :
    (a.shiftLeft shift).value = a.value*2^shift%2^(32*WIDTH) := by
  apply Nat.eq_of_testBit_eq
  intro p
  rw [testBit_shiftLeft,Nat.testBit_mod_two_pow,← Nat.shiftLeft_eq,Nat.testBit_shiftLeft]
  by_cases hp : p < 32*WIDTH <;> by_cases hs : shift ≤ p <;> simp [hp,hs]

/-- A round of the right shift moves the bits of one limb. -/
theorem testBit_shiftRightLimb (a pn : BaseUint WIDTH) {i k shift : Nat} (hi : i < WIDTH)
    (hshift : shift < 32) (p : Nat) : (a.shiftRightLimb k shift pn i).value.testBit p =
      (pn.value.testBit p || (decide ((p+(32*k+shift))/32 = i) &&
        a.value.testBit (p+(32*k+shift)))) := by
  have hsource : (p+(32*k+shift))/32 = i → a.value.testBit (p+(32*k+shift)) =
      (a.limb i).getLsbD ((p+(32*k+shift))%32) := fun h => by rw [testBit_value,h]
  have hlower : (if k+1 ≤ i ∧ shift ≠ 0 then
      pn.orLimb (i-k-1) (a.limb i <<< (32-shift)) else pn).value.testBit p =
        (pn.value.testBit p || (decide (k+1 ≤ i ∧ shift ≠ 0 ∧ p/32 = i-k-1 ∧ 32-shift ≤ p%32) &&
          (a.limb i).getLsbD (p%32-(32-shift)))) := by
    split
    · rename_i h
      rw [testBit_orLimb _ (by omega),BitVec.getLsbD_shiftLeft,
        decide_eq_true (Nat.mod_lt p (by decide))]
      by_cases ht : p%32 < 32-shift
      · have hout : decide (k+1 ≤ i ∧ shift ≠ 0 ∧ p/32 = i-k-1 ∧ 32-shift ≤ p%32) = false :=
          decide_eq_false (by omega)
        rw [decide_eq_true ht,hout]
        simp
      · rw [decide_eq_false ht]
        simp [h,Nat.le_of_not_lt ht]
    · rename_i h
      rw [decide_eq_false fun hp => h ⟨hp.1,hp.2.1⟩]
      simp
  unfold shiftRightLimb
  simp only
  generalize (if k+1 ≤ i ∧ shift ≠ 0 then
      pn.orLimb (i-k-1) (a.limb i <<< (32-shift)) else pn) = pn' at *
  have hupper : (if k ≤ i then pn'.orLimb (i-k) (a.limb i >>> shift) else pn').value.testBit p =
      (pn'.value.testBit p || (decide (k ≤ i ∧ p/32 = i-k) &&
        (a.limb i).getLsbD (shift+p%32))) := by
    split
    · rename_i h
      rw [testBit_orLimb _ (by omega),BitVec.getLsbD_ushiftRight]
      simp [h]
    · rename_i h
      rw [decide_eq_false fun hp => h hp.1]
      simp
  rw [hupper,hlower,Bool.or_assoc]
  congr 1
  by_cases hhere : (p+(32*k+shift))/32 = i
  · rw [decide_eq_true hhere,hsource hhere]
    by_cases ht : p%32+shift < 32
    · rw [decide_eq_false (by omega),decide_eq_true (by omega),
        show (p+(32*k+shift))%32 = shift+p%32 by omega]
      rfl
    · rw [decide_eq_true (by omega),decide_eq_false (by omega),
        show (p+(32*k+shift))%32 = p%32-(32-shift) by omega]
      simp
  · rw [decide_eq_false hhere,
      decide_eq_false (show ¬(k+1 ≤ i ∧ shift ≠ 0 ∧ p/32 = i-k-1 ∧ 32-shift ≤ p%32) by omega)]
    by_cases hup : k ≤ i ∧ p/32 = i-k
    · rw [BitVec.getLsbD_of_ge (a.limb i) (shift+p%32) (by omega)]
      simp
    · rw [decide_eq_false hup]
      simp

theorem testBit_shiftRight (a : BaseUint WIDTH) (shift p : Nat) :
    (a.shiftRight shift).value.testBit p = a.value.testBit (p+shift) := by
  have hrounds : ∀ n ≤ WIDTH, ((List.range n).foldl (a.shiftRightLimb (shift/32) (shift%32))
      zero).value.testBit p = (decide ((p+shift)/32 < n) && a.value.testBit (p+shift)) := by
    intro n hn
    induction n with
    | zero => simp
    | succ n ih =>
      rw [List.range_succ,List.foldl_append,List.foldl_cons,List.foldl_nil,
        testBit_shiftRightLimb _ _ (by omega) (Nat.mod_lt shift (by decide)),ih (by omega),
        Nat.div_add_mod,← Bool.and_or_distrib_right]
      congr 1
      rw [← Bool.decide_or]
      exact decide_eq_decide.mpr (by omega)
  unfold shiftRight
  rw [hrounds WIDTH (Nat.le_refl _)]
  by_cases hp : (p+shift)/32 < WIDTH
  · simp [hp]
  · rw [testBit_value,limb_of_le a (Nat.le_of_not_lt hp)]
    simp

theorem value_shiftRight (a : BaseUint WIDTH) (shift : Nat) :
    (a.shiftRight shift).value = a.value/2^shift := by
  apply Nat.eq_of_testBit_eq
  intro p
  rw [testBit_shiftRight,← Nat.shiftRight_eq_div_pow,Nat.testBit_shiftRight,Nat.add_comm]

section Below

/-- The number in the limbs below `i`. -/
def below (a : BaseUint WIDTH) (i : Nat) : Nat := limbsValue (a.pn.take i)

theorem below_width (a : BaseUint WIDTH) : a.below WIDTH = a.value := by
  unfold below value
  rw [List.take_of_length_le (Nat.le_of_eq a.length_pn)]

theorem below_succ (a : BaseUint WIDTH) {i : Nat} (h : i < WIDTH) :
    a.below (i+1) = a.below i+2^(32*i)*(a.limb i).toNat :=
  limbsValue_take_succ a.pn (by rw [a.length_pn]; exact h)

theorem below_lt (a : BaseUint WIDTH) {i : Nat} (h : i ≤ WIDTH) : a.below i < 2^(32*i) := by
  have hlt := limbsValue_lt (a.pn.take i)
  rwa [List.length_take_of_le (by rw [a.length_pn]; exact h)] at hlt

theorem compareFrom_eq (a b : BaseUint WIDTH) {i : Nat} (h : i ≤ WIDTH) :
    compareFrom a b i =
      if a.below i < b.below i then -1 else if b.below i < a.below i then 1 else 0 := by
  induction i with
  | zero => simp [compareFrom,below]
  | succ i ih =>
    have ha := a.below_lt (i := i) (by omega)
    have hb := b.below_lt (i := i) (by omega)
    have hpos := Nat.two_pow_pos (32*i)
    unfold compareFrom
    rw [ih (by omega),a.below_succ (by omega),b.below_succ (by omega)]
    simp only [BitVec.lt_def]
    generalize (a.limb i).toNat = x
    generalize (b.limb i).toNat = y
    generalize 2^(32*i) = q at *
    rcases Nat.lt_trichotomy x y with hlt | heq | hgt
    · have hmul : q*(x+1) ≤ q*y := Nat.mul_le_mul_left q hlt
      rw [Nat.mul_add,Nat.mul_one] at hmul
      rw [if_pos hlt,if_pos (by omega)]
    · rw [heq,if_neg (Nat.lt_irrefl y),if_neg (Nat.lt_irrefl y)]
      simp only [Nat.add_lt_add_iff_right]
    · have hmul : q*(y+1) ≤ q*x := Nat.mul_le_mul_left q hgt
      rw [Nat.mul_add,Nat.mul_one] at hmul
      rw [if_neg (by omega),if_pos hgt,if_neg (by omega),if_pos (by omega)]

theorem compareTo_nonneg (a b : BaseUint WIDTH) : 0 ≤ a.compareTo b ↔ b.value ≤ a.value := by
  unfold compareTo
  rw [compareFrom_eq a b (Nat.le_refl _),below_width,below_width]
  split
  · simp; omega
  · split <;> simp <;> omega

/-- The loop of `bits` over one limb, when the bits above are clear. -/
theorem topBit_eq {x : Uint32} (hx : x ≠ 0) {n : Nat} (hn : n < 32) (h : x.toNat < 2^(n+1)) :
    topBit x n = Nat.size x.toNat := by
  have hpos : 0 < x.toNat := Nat.pos_of_ne_zero fun h => hx (BitVec.eq_of_toNat_eq h)
  induction n with
  | zero =>
    have hone : x.toNat = 1 := by omega
    rw [hone]
    rfl
  | succ n ih =>
    have hone : (1#32 <<< (n+1)).toNat = 2^(n+1) := by
      rw [BitVec.toNat_shiftLeft,Nat.shiftLeft_eq,BitVec.toNat_ofNat,Nat.one_mod,Nat.one_mul]
      exact Nat.mod_eq_of_lt (Nat.pow_lt_pow_right (by decide) hn)
    have hbit : x &&& 1#32 <<< (n+1) ≠ 0 ↔ 2^(n+1) ≤ x.toNat := by
      rw [ne_eq,← BitVec.toNat_inj,BitVec.toNat_and,hone,Nat.and_two_pow]
      constructor
      · intro hne
        cases hset : x.toNat.testBit (n+1) with
        | false => simp [hset] at hne
        | true => exact Nat.ge_two_pow_of_testBit hset
      · intro hle
        rw [Nat.testBit_of_two_pow_le_and_two_pow_add_one_gt hle h]
        simp
    unfold topBit
    split
    · rename_i hset
      refine (Nat.le_antisymm (Nat.size_le.mpr h) ?_).symm
      exact Nat.lt_size.mpr (hbit.mp hset)
    · rename_i hclear
      exact ih (by omega) (Nat.lt_of_not_le fun hle => hclear (hbit.mpr hle))

theorem bitsFrom_eq (a : BaseUint WIDTH) {i : Nat} (h : i ≤ WIDTH) :
    bitsFrom a i = Nat.size (a.below i) := by
  induction i with
  | zero => simp [bitsFrom,below]
  | succ i ih =>
    have hlow := a.below_lt (i := i) (by omega)
    unfold bitsFrom
    rw [a.below_succ (by omega)]
    split
    · rename_i hne
      have hlimb := (a.limb i).isLt
      have hpos : 0 < (a.limb i).toNat := Nat.pos_of_ne_zero fun h => hne (BitVec.eq_of_toNat_eq h)
      rw [topBit_eq hne (by decide) hlimb]
      generalize (a.limb i).toNat = x at *
      have hsize : 2^(Nat.size x-1) ≤ x := Nat.lt_size.mp (by
        have := Nat.size_pos.mpr hpos
        omega)
      have hlt := Nat.lt_size_self x
      have hx := Nat.size_pos.mpr hpos
      apply Nat.le_antisymm
      · have hle : 2^(32*i+(Nat.size x-1)) ≤ a.below i+2^(32*i)*x := by
          rw [pow_add]
          exact Nat.le_trans (Nat.mul_le_mul_left _ hsize) (Nat.le_add_left _ _)
        have := Nat.lt_size.mpr hle
        omega
      · refine Nat.size_le.mpr ?_
        rw [pow_add]
        calc a.below i+2^(32*i)*x
            < 2^(32*i)+2^(32*i)*x := by omega
          _ = 2^(32*i)*(x+1) := by ring
          _ ≤ 2^(32*i)*2^(Nat.size x) := Nat.mul_le_mul_left _ hlt
    · rename_i hzero
      rw [ih (by omega),not_not.mp hzero]
      simp

theorem bits_eq (a : BaseUint WIDTH) : a.bits = Nat.size a.value := by
  unfold bits
  rw [bitsFrom_eq a (Nat.le_refl _),below_width]

end Below

section Division

/-- Setting a bit of the quotient below all those that are set. -/
theorem value_setBit (a : BaseUint WIDTH) {s : Nat} (hs : s < 32*WIDTH)
    (h : a.value%2^(s+1) = 0) :
    (a.orLimb (s/32) (1#32 <<< (s%32))).value = a.value+2^s := by
  have hor : (a.orLimb (s/32) (1#32 <<< (s%32))).value = a.value ||| 2^s := by
    apply Nat.eq_of_testBit_eq
    intro p
    rw [testBit_orLimb _ (by omega),Nat.testBit_or,Nat.testBit_two_pow,BitVec.getLsbD_shiftLeft,
      decide_eq_true (Nat.mod_lt p (by decide)),BitVec.getLsbD_one]
    congr 1
    rw [Bool.eq_iff_iff]
    simp only [Bool.and_eq_true,decide_eq_true_eq,Bool.not_eq_true',decide_eq_false_iff_not,
      true_and]
    omega
  have hsplit : a.value = 2^(s+1)*(a.value/2^(s+1)) := by
    have := Nat.div_add_mod a.value (2^(s+1))
    omega
  have hlt : 2^s < 2^(s+1) := Nat.pow_lt_pow_right (by decide) (Nat.lt_succ_self s)
  rw [hor,hsplit,Nat.two_pow_add_eq_or_of_lt hlt]

theorem divideLoop_eq (n : Nat) (num div pn : BaseUint WIDTH) :
    divideLoop n num div pn = (divideRounds n num div pn).2 := by
  induction n generalizing num div pn with
  | zero => rfl
  | succ n ih => simp only [divideLoop,divideRounds,ih,apply_ite Prod.snd]

/-- The loop performs long division: the divisor is shifted by the number of the round. -/
theorem divideRounds_value {d n : Nat} {num div pn : BaseUint WIDTH} (hn : n ≤ 32*WIDTH)
    (hdiv : 0 < n → div.value = d*2^(n-1)) (hpn : pn.value%2^n = 0) :
    ((divideRounds n num div pn).2.value,(divideRounds n num div pn).1.value) =
      longDivision d n num.value pn.value := by
  induction n generalizing num div pn with
  | zero => rfl
  | succ n ih =>
    have hd : div.value = d*2^n := hdiv (Nat.succ_pos n)
    have hdiv' : 0 < n → (div.shiftRight 1).value = d*2^(n-1) := by
      intro hpos
      rw [value_shiftRight,hd,show n = n-1+1 by omega,pow_succ,← Nat.mul_assoc]
      exact Nat.mul_div_cancel _ (by decide)
    have hpn' : pn.value%2^n = 0 :=
      Nat.mod_eq_zero_of_dvd (Nat.dvd_trans (Nat.pow_dvd_pow 2 (Nat.le_succ n))
        (Nat.dvd_of_mod_eq_zero hpn))
    unfold divideRounds longDivision
    simp only [compareTo_nonneg,hd]
    split
    · rename_i hle
      have hset := pn.value_setBit hn hpn
      rw [ih (by omega) hdiv' (by rw [hset,Nat.add_mod_right,hpn']),hset,
        value_sub (by rw [hd]; exact hle),hd]
    · exact ih (by omega) hdiv' hpn'

/-- The counts of bits align the divisor: no bit of it is lost, and twice the shifted divisor is
above the dividend. -/
theorem divideRounds_aligned {a b : BaseUint WIDTH} (h : b.value ≠ 0) (hge : ¬a.bits < b.bits) :
    let rounds := divideRounds (a.bits-b.bits+1) a (b.shiftLeft (a.bits-b.bits)) zero
    rounds.2.value = a.value/b.value ∧ rounds.1.value = a.value%b.value := by
  have hb : 0 < Nat.size b.value := Nat.size_pos.mpr (Nat.pos_of_ne_zero h)
  have hwidth : Nat.size a.value ≤ 32*WIDTH := Nat.size_le.mpr a.value_lt
  have hsize : 2^(Nat.size b.value-1) ≤ b.value := Nat.lt_size.mp (by omega)
  rw [bits_eq,bits_eq] at hge ⊢
  have hfits : b.value*2^(Nat.size a.value-Nat.size b.value) < 2^(32*WIDTH) :=
    calc b.value*2^(Nat.size a.value-Nat.size b.value)
        < 2^Nat.size b.value*2^(Nat.size a.value-Nat.size b.value) :=
          Nat.mul_lt_mul_of_pos_right (Nat.lt_size_self _) (Nat.two_pow_pos _)
      _ = 2^Nat.size a.value := by rw [← pow_add]; congr 1; omega
      _ ≤ 2^(32*WIDTH) := Nat.pow_le_pow_right (by decide) hwidth
  have hnum : a.value < b.value*2^(Nat.size a.value-Nat.size b.value+1) :=
    calc a.value < 2^Nat.size a.value := Nat.lt_size_self _
      _ = 2^(Nat.size b.value-1)*2^(Nat.size a.value-Nat.size b.value+1) := by
          rw [← pow_add]; congr 1; omega
      _ ≤ _ := Nat.mul_le_mul_right _ hsize
  have hrounds := @divideRounds_value WIDTH b.value (Nat.size a.value-Nat.size b.value+1) a
    (b.shiftLeft (Nat.size a.value-Nat.size b.value)) zero (by omega)
    (fun _ => by rw [value_shiftLeft,Nat.mod_eq_of_lt hfits,Nat.add_sub_cancel]) (by simp)
  rw [longDivision_eq (Nat.pos_of_ne_zero h) hnum,value_zero,Nat.zero_add] at hrounds
  exact Prod.mk.inj hrounds

theorem divide_zero (a : BaseUint WIDTH) {b : BaseUint WIDTH} (h : b.value = 0) :
    a.divide b = .error "Division by zero" := by
  unfold divide
  simp only [bits_eq,h,Nat.size_zero,if_true]
  rfl

/-- A divisor with more bits is larger. -/
theorem value_lt_of_bits {a b : BaseUint WIDTH} (h : a.bits < b.bits) : a.value < b.value := by
  rw [bits_eq,bits_eq] at h
  exact Nat.lt_of_not_le fun hle => Nat.not_le_of_lt h (Nat.size_le_size hle)

theorem divide_value (a : BaseUint WIDTH) {b : BaseUint WIDTH} (h : b.value ≠ 0) :
    ∃ q, a.divide b = .ok q ∧ q.value = a.value/b.value := by
  have hb : b.bits ≠ 0 := by
    rw [bits_eq]
    exact fun hzero => h (Nat.size_eq_zero.mp hzero)
  unfold divide
  simp only [if_neg hb]
  split
  · rename_i hlt
    exact ⟨zero,rfl,by rw [value_zero,Nat.div_eq_of_lt (value_lt_of_bits hlt)]⟩
  · rename_i hge
    refine ⟨_,rfl,?_⟩
    rw [divideLoop_eq]
    exact (divideRounds_aligned h hge).1

/-- "num now contains the remainder of the division". -/
theorem divideNum_value (a : BaseUint WIDTH) {b : BaseUint WIDTH} (h : b.value ≠ 0) :
    (a.divideNum b).value = a.value%b.value := by
  unfold divideNum
  split
  · rename_i hlt
    exact (Nat.mod_eq_of_lt (value_lt_of_bits hlt)).symm
  · rename_i hge
    exact (divideRounds_aligned h hge).2

/-- Long division throws exactly for a divisor of 0, and leaves the quotient, and the remainder
in `num`. -/
theorem divide_exact (a b : BaseUint WIDTH) :
    match a.divide b with
    | .error e => e = "Division by zero" ∧ b.value = 0
    | .ok q => b.value ≠ 0 ∧ q.value = a.value/b.value ∧ (a.divideNum b).value = a.value%b.value := by
  by_cases h : b.value = 0
  · rw [divide_zero a h]
    exact ⟨rfl,h⟩
  · obtain ⟨q,hq,hvalue⟩ := divide_value a h
    rw [hq]
    exact ⟨h,hvalue,divideNum_value a h⟩

end Division

end BaseUint

end Anoncoin
