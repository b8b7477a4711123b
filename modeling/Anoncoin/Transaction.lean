import Mathlib.Data.List.DropRight
import Mathlib.Data.BitVec

/-!
Amounts, scripts, outpoints and transactions (amount.h, transaction.h), with the
serialized sizes that the consensus limits are stated in (serialize.h).
-/

set_option autoImplicit false

namespace Anoncoin

abbrev Uint256 := BitVec 256

abbrev Uint64 := BitVec 64

/-- Amounts are `int64_t`. The accumulations of amounts that no range test of the
source covers go through `addInt64` below, so overflow is never silent. -/
def COIN : Int := 100000000

def MAX_MONEY : Int := 3105156*COIN

def moneyRange (nValue : Int) : Bool := 0 ≤ nValue && nValue ≤ MAX_MONEY

theorem moneyRange_iff (n : Int) : moneyRange n = true ↔ 0 ≤ n ∧ n ≤ MAX_MONEY := by
  simp [moneyRange]

/-- Signed 64-bit addition. Overflow is undefined behaviour in the source, so the
model has no value for it. -/
def addInt64 (a b : Int) : Option Int :=
  if -2^63 ≤ a+b ∧ a+b < 2^63 then some (a+b) else none

theorem addInt64_eq_some {a b c : Int} (h : addInt64 a b = some c) : c = a+b := by
  unfold addInt64 at h
  split at h
  · exact (Option.some.inj h).symm
  · contradiction

theorem addInt64_of_bounds {a b : Int} (hl : -2^63 ≤ a+b) (hu : a+b < 2^63) :
    addInt64 a b = some (a+b) := by
  simp only [addInt64,hl,hu,and_self,if_true]

abbrev CScript := List UInt8

def OP_RETURN : UInt8 := 0x6a

def CScript.isUnspendable (s : CScript) : Bool := s.head? == some OP_RETURN

structure COutPoint where
  hash : Uint256
  n : Nat
  deriving DecidableEq, Repr

/-- `n == (uint32_t) -1` together with a zero hash. -/
def COutPoint.isNull (o : COutPoint) : Bool := o.hash == 0 && o.n == 4294967295

structure CTxIn where
  prevout : COutPoint
  scriptSig : CScript
  nSequence : Nat
  deriving DecidableEq, Repr

structure CTxOut where
  nValue : Int
  scriptPubKey : CScript
  deriving DecidableEq, Repr

/-- `CTxOut::SetNull`. -/
def CTxOut.null : CTxOut := ⟨-1,[]⟩

def CTxOut.isNull (o : CTxOut) : Bool := o.nValue == -1

@[simp] theorem CTxOut.isNull_null : CTxOut.null.isNull = true := rfl

structure CTransaction where
  nVersion : Int
  vin : List CTxIn
  vout : List CTxOut
  nLockTime : Nat
  deriving DecidableEq, Repr

def CTransaction.isCoinBase (tx : CTransaction) : Bool :=
  match tx.vin with
  | [txin] => txin.prevout.isNull
  | _ => false

/-- The loop of `CTransaction::GetValueOut`; `none` is its thrown
`runtime_error`. The range test of the running sum keeps it inside 64 bits. -/
def valueOutFrom (nValueOut : Int) : List CTxOut → Option Int
  | [] => some nValueOut
  | o :: rest =>
      if moneyRange o.nValue && moneyRange (nValueOut+o.nValue) then
        valueOutFrom (nValueOut+o.nValue) rest
      else none

def CTransaction.getValueOut (tx : CTransaction) : Option Int := valueOutFrom 0 tx.vout

/-- Plain sum of the values of a list of outputs. -/
def sumValue (vout : List CTxOut) : Int := (vout.map CTxOut.nValue).sum

@[simp] theorem sumValue_nil : sumValue [] = 0 := rfl

@[simp] theorem sumValue_cons (o : CTxOut) (os : List CTxOut) :
    sumValue (o :: os) = o.nValue+sumValue os := by simp [sumValue]

theorem valueOutFrom_eq_some {n v : Int} {vout : List CTxOut}
    (h : valueOutFrom n vout = some v) : v = n+sumValue vout := by
  induction vout generalizing n with
  | nil => simp [valueOutFrom] at h; simp [h]
  | cons o rest ih =>
    unfold valueOutFrom at h
    split at h
    · rw [ih h,sumValue_cons,Int.add_assoc]
    · contradiction

theorem valueOutFrom_range {n v : Int} {vout : List CTxOut}
    (hn : moneyRange n = true) (h : valueOutFrom n vout = some v) :
    moneyRange v = true := by
  induction vout generalizing n with
  | nil =>
    simp only [valueOutFrom,Option.some.injEq] at h
    exact h ▸ hn
  | cons o rest ih =>
    unfold valueOutFrom at h
    split at h
    · rename_i hr
      exact ih (Bool.and_eq_true_iff.mp hr).2 h
    · contradiction

theorem CTransaction.getValueOut_eq {tx : CTransaction} {v : Int}
    (h : tx.getValueOut = some v) : v = sumValue tx.vout := by
  have hv := valueOutFrom_eq_some h
  omega

theorem CTransaction.getValueOut_range {tx : CTransaction} {v : Int}
    (h : tx.getValueOut = some v) : moneyRange v = true :=
  valueOutFrom_range (by decide) h

def MAX_BLOCK_SIZE : Nat := 1000000

def MAX_BLOCK_SIGOPS : Nat := MAX_BLOCK_SIZE/50

def COINBASE_MATURITY : Nat := 100

def getSizeOfCompactSize (nSize : Nat) : Nat :=
  if nSize < 253 then 1 else if nSize ≤ 0xffff then 3 else if nSize ≤ 0xffffffff then 5 else 9

theorem getSizeOfCompactSize_pos (n : Nat) : 0 < getSizeOfCompactSize n := by
  unfold getSizeOfCompactSize; split_ifs <;> decide

def scriptSerializeSize (s : CScript) : Nat := getSizeOfCompactSize s.length+s.length

/-- A prevout takes 36 bytes and the sequence number 4. -/
def CTxIn.getSerializeSize (i : CTxIn) : Nat := 36+scriptSerializeSize i.scriptSig+4

def CTxOut.getSerializeSize (o : CTxOut) : Nat := 8+scriptSerializeSize o.scriptPubKey

def CTransaction.getSerializeSize (tx : CTransaction) : Nat :=
  4+(getSizeOfCompactSize tx.vin.length+(tx.vin.map CTxIn.getSerializeSize).sum)+
    (getSizeOfCompactSize tx.vout.length+(tx.vout.map CTxOut.getSerializeSize).sum)+4

theorem CTxIn.getSerializeSize_ge (i : CTxIn) : 41 ≤ i.getSerializeSize := by
  have h := getSizeOfCompactSize_pos i.scriptSig.length
  simp only [getSerializeSize,scriptSerializeSize]; omega

/-- An input costs at least 41 bytes, which bounds how many a block can hold. -/
theorem CTransaction.inputs_le_size (tx : CTransaction) :
    41*tx.vin.length ≤ tx.getSerializeSize := by
  have h : 41*tx.vin.length ≤ (tx.vin.map CTxIn.getSerializeSize).sum := by
    induction tx.vin with
    | nil => simp
    | cons i rest ih =>
      have hi := i.getSerializeSize_ge
      simp only [List.length_cons,List.map_cons,List.sum_cons]; omega
  simp only [getSerializeSize]; omega

end Anoncoin
