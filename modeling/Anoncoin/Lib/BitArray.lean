import Mathlib.Data.Set.Insert
import Mathlib.Data.Nat.Bitwise

/-!
Strings of bytes as arrays of bits, and filters that keep the bits of the keys added to them.
-/

set_option autoImplicit false

namespace Anoncoin.Lib

section Bits

/-- The mask of bit `n` in its byte. -/
def byteBit (n : Nat) : UInt8 := UInt8.ofNat (1 <<< (7 &&& n))

/-- Bit `n`; `none` is an index outside of the array. -/
def testBitAt (bytes : List UInt8) (n : Nat) : Option Bool :=
  bytes[n >>> 3]?.map fun byte => byte &&& byteBit n != 0

def setBitAt (bytes : List UInt8) (n : Nat) : Option (List UInt8) :=
  bytes[n >>> 3]?.map fun byte => bytes.set (n >>> 3) (byte ||| byteBit n)

/-- The bits that are set. -/
def bitSet (bytes : List UInt8) : Set Nat := {n | testBitAt bytes n = some true}

variable {bytes : List UInt8} {n m : Nat}

theorem toNat_byteBit (n : Nat) : (byteBit n).toNat = 2^(n%8) := by
  have hlow : 7 &&& n = n%8 := by
    rw [Nat.and_comm]
    exact Nat.and_two_pow_sub_one_eq_mod n 3
  have hlt : 2^(n%8) < 2^8 := Nat.pow_lt_pow_right (by decide) (Nat.mod_lt _ (by decide))
  unfold byteBit
  rw [hlow,Nat.one_shiftLeft,UInt8.toNat_ofNat',Nat.mod_eq_of_lt hlt]

theorem and_byteBit (byte : UInt8) (n : Nat) :
    (byte &&& byteBit n != 0) = byte.toNat.testBit (n%8) := by
  have hiff : byte &&& byteBit n = 0 ↔ byte.toNat.testBit (n%8) = false := by
    rw [← UInt8.toNat_inj,UInt8.toNat_and,toNat_byteBit,Nat.and_two_pow]
    cases byte.toNat.testBit (n%8) <;> simp
  rw [bne,beq_eq_decide]
  cases hbit : byte.toNat.testBit (n%8) <;> simp [hiff,hbit]

theorem testBitAt_of_lt (h : n < bytes.length*8) : ∃ bit, testBitAt bytes n = some bit := by
  have hindex : n >>> 3 < bytes.length := by
    rw [Nat.shiftRight_eq_div_pow]
    omega
  exact ⟨_,by rw [testBitAt,List.getElem?_eq_getElem hindex]; rfl⟩

/-- A bit is set beside those that are. -/
theorem setBitAt_of_lt (h : n < bytes.length*8) : ∃ bytes', setBitAt bytes n = some bytes' ∧
    bytes'.length = bytes.length ∧ bitSet bytes' = insert n (bitSet bytes) := by
  have hindex : n >>> 3 < bytes.length := by
    rw [Nat.shiftRight_eq_div_pow]
    omega
  refine ⟨_,by rw [setBitAt,List.getElem?_eq_getElem hindex]; rfl,List.length_set,?_⟩
  ext m
  have hsame : m = n ↔ m >>> 3 = n >>> 3 ∧ m%8 = n%8 := by
    rw [Nat.shiftRight_eq_div_pow,Nat.shiftRight_eq_div_pow]
    omega
  simp only [bitSet,testBitAt,Set.mem_insert_iff,Set.mem_ofPred_eq,List.getElem?_set]
  by_cases hbyte : n >>> 3 = m >>> 3
  · rw [← hbyte,if_pos rfl,if_pos hindex,List.getElem?_eq_getElem hindex]
    simp only [Option.map_some,Option.some.injEq,and_byteBit,UInt8.toNat_or,toNat_byteBit,
      Nat.testBit_or,Nat.testBit_two_pow,hsame,hbyte,true_and,Bool.or_eq_true,decide_eq_true_eq]
    rw [or_comm,eq_comm]
  · rw [if_neg hbyte]
    have hne : m ≠ n := fun heq => hbyte (by rw [heq])
    simp [hne]

/-- Bits are set one after the other. -/
theorem setBitsAt_of_lt {positions : List Nat} (h : ∀ n ∈ positions, n < bytes.length*8) :
    ∃ bytes', positions.foldlM setBitAt bytes = some bytes' ∧ bytes'.length = bytes.length ∧
      bitSet bytes' = {n | n ∈ positions} ∪ bitSet bytes := by
  induction positions generalizing bytes with
  | nil => exact ⟨bytes,rfl,rfl,by simp⟩
  | cons n positions ih =>
    obtain ⟨hn,hrest⟩ := List.forall_mem_cons.mp h
    obtain ⟨mid,hset,hlen,hbits⟩ := setBitAt_of_lt hn
    obtain ⟨bytes',hfold,hlen',hbits'⟩ := ih (by rwa [hlen])
    refine ⟨bytes',by rw [List.foldlM_cons,hset]; exact hfold,hlen'.trans hlen,?_⟩
    rw [hbits',hbits]
    ext m
    simp only [Set.mem_union,Set.mem_insert_iff,Set.mem_ofPred_eq,List.mem_cons]
    tauto

end Bits

section Filter
variable {κ ι : Type}

/-- What is in a filter with these bits: the keys all of whose positions are set. -/
def InFilter (positions : κ → Set ι) (bits : Set ι) (key : κ) : Prop := positions key ⊆ bits

variable {positions : κ → Set ι} {bits bits' : Set ι} {key : κ}

theorem InFilter.mono (h : InFilter positions bits key) (hsub : bits ⊆ bits') :
    InFilter positions bits' key := Set.Subset.trans h hsub

theorem inFilter_add (bits : Set ι) (key : κ) :
    InFilter positions (positions key ∪ bits) key := Set.subset_union_left

end Filter

end Anoncoin.Lib
