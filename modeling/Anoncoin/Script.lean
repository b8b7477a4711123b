import Anoncoin.Compressor

/-!
Scripts as byte strings (script.h, script.cpp): the instructions that `GetOp2` reads, pushes
of data, `FindAndDelete`, and the numbers on the stack.
-/

set_option autoImplicit false

namespace Anoncoin
open Lib

abbrev Valtype := List UInt8

def MAX_SCRIPT_ELEMENT_SIZE : Nat := 520

def OP_PUSHDATA1 : UInt8 := 0x4c

def OP_PUSHDATA2 : UInt8 := 0x4d

def OP_PUSHDATA4 : UInt8 := 0x4e

def OP_1 : UInt8 := 0x51

def OP_16 : UInt8 := 0x60

def OP_CODESEPARATOR : UInt8 := 0xab

def OP_CHECKSIGVERIFY : UInt8 := 0xad

def OP_CHECKMULTISIG : UInt8 := 0xae

def OP_CHECKMULTISIGVERIFY : UInt8 := 0xaf

/-- An opcode and its immediate operand. -/
structure Op where
  opcode : UInt8
  data : Valtype
  deriving DecidableEq, Repr

/-- How many bytes after the opcode hold the size of the operand. -/
def sizeBytes (opcode : UInt8) : Nat :=
  if opcode < OP_PUSHDATA1 then 0
  else if opcode = OP_PUSHDATA1 then 1
  else if opcode = OP_PUSHDATA2 then 2
  else 4

/-- The size of the operand. -/
def pushSize (opcode : UInt8) (size : List UInt8) : Nat :=
  if opcode < OP_PUSHDATA1 then opcode.toNat else fromLittleEndian size

/-- `GetOp2`: the instruction, if there is one, and where the iterator then stands. -/
def getOp : CScript → Option Op × CScript
  | [] => (none,[])
  | opcode :: pc =>
      if OP_PUSHDATA4 < opcode then (some ⟨opcode,[]⟩,pc)
      else if pc.length < sizeBytes opcode then (none,pc)
      else
        let nSize := pushSize opcode (pc.take (sizeBytes opcode))
        let pc := pc.drop (sizeBytes opcode)
        if pc.length < nSize then (none,pc) else (some ⟨opcode,pc.take nSize⟩,pc.drop nSize)

theorem getOp_large {opcode : UInt8} (h : OP_PUSHDATA4 < opcode) (pc : CScript) :
    getOp (opcode :: pc) = (some ⟨opcode,[]⟩,pc) := if_pos h

theorem getOp_push {opcode : UInt8} (h : ¬OP_PUSHDATA4 < opcode) {size data : List UInt8}
    (hsize : size.length = sizeBytes opcode) (hdata : data.length = pushSize opcode size)
    (rest : CScript) : getOp (opcode :: (size ++ (data ++ rest))) = (some ⟨opcode,data⟩,rest) := by
  have hshort : ¬(size ++ (data ++ rest)).length < sizeBytes opcode := by
    rw [List.length_append]
    omega
  have htake : (size ++ (data ++ rest)).take (sizeBytes opcode) = size := by
    rw [← hsize,List.take_left]
  have hdrop : (size ++ (data ++ rest)).drop (sizeBytes opcode) = data ++ rest := by
    rw [← hsize,List.drop_left]
  have hlong : ¬(data ++ rest).length < pushSize opcode size := by
    rw [List.length_append]
    omega
  show (if OP_PUSHDATA4 < opcode then _ else _) = _
  rw [if_neg h,if_neg hshort]
  simp only
  rw [htake,hdrop,if_neg hlong,← hdata,List.take_left,List.drop_left]

/-- What `GetOp2` reads: an opcode alone, or one with its size and its operand. -/
theorem getOp_cases {script pc : CScript} {op : Op} (h : getOp script = (some op,pc)) :
    (OP_PUSHDATA4 < op.opcode ∧ script = op.opcode :: pc ∧ op.data = []) ∨
    (¬OP_PUSHDATA4 < op.opcode ∧ ∃ size, size.length = sizeBytes op.opcode ∧
      op.data.length = pushSize op.opcode size ∧ script = op.opcode :: (size ++ (op.data ++ pc))) := by
  cases script with
  | nil => exact absurd (congrArg Prod.fst h) (by simp [getOp])
  | cons opcode tail =>
    by_cases hlarge : OP_PUSHDATA4 < opcode
    · rw [getOp_large hlarge] at h
      obtain ⟨hop,rfl⟩ := Prod.mk.inj h
      rw [← Option.some.inj hop]
      exact .inl ⟨hlarge,rfl,rfl⟩
    · replace h : (if OP_PUSHDATA4 < opcode then _ else _) = _ := h
      rw [if_neg hlarge] at h
      by_cases hshort : tail.length < sizeBytes opcode
      · rw [if_pos hshort] at h
        exact absurd (congrArg Prod.fst h) (by simp)
      · rw [if_neg hshort] at h
        simp only at h
        split_ifs at h with hdata
        · exact absurd (congrArg Prod.fst h) (by simp)
        · obtain ⟨hop,rfl⟩ := Prod.mk.inj h
          rw [← Option.some.inj hop]
          refine .inr ⟨hlarge,tail.take (sizeBytes opcode),
            List.length_take_of_le (Nat.le_of_not_lt hshort),
            List.length_take_of_le (Nat.le_of_not_lt hdata),?_⟩
          rw [List.take_append_drop,List.take_append_drop]

/-- An instruction is read from a first part of the script, whatever follows it. -/
theorem getOp_eq_some {script pc : CScript} {op : Op} (h : getOp script = (some op,pc)) :
    ∃ bytes, bytes ≠ [] ∧ script = bytes ++ pc ∧ ∀ rest, getOp (bytes ++ rest) = (some op,rest) := by
  rcases getOp_cases h with ⟨hlarge,hscript,hdata⟩ | ⟨hlarge,size,hsize,hdata,hscript⟩
  · refine ⟨[op.opcode],List.cons_ne_nil _ _,hscript,fun rest => ?_⟩
    rw [List.singleton_append,getOp_large hlarge,← hdata]
  · refine ⟨op.opcode :: (size ++ op.data),List.cons_ne_nil _ _,?_,fun rest => ?_⟩
    · rw [hscript,List.cons_append,List.append_assoc]
    · rw [List.cons_append,List.append_assoc]
      exact getOp_push hlarge hsize hdata rest

theorem getOp_length {script pc : CScript} {op : Op} (h : getOp script = (some op,pc)) :
    pc.length < script.length := by
  obtain ⟨bytes,hne,rfl,-⟩ := getOp_eq_some h
  rw [List.length_append]
  have := List.length_pos_iff.mpr hne
  omega

theorem getOp_ne_nil {pc rest : CScript} {op : Op} (h : getOp pc = (some op,rest)) : pc ≠ [] := by
  rintro rfl
  exact absurd (congrArg Prod.fst h) (by simp [getOp])

theorem getOp_not_none {pc rest rest' : CScript} {op : Op} (hnone : getOp pc = (none,rest))
    (hsome : getOp pc = (some op,rest')) : False :=
  absurd (congrArg Prod.fst (hnone.symm.trans hsome)) (by simp)

theorem getOp_unique {pc rest rest' : CScript} {op op' : Op} (h : getOp pc = (some op,rest))
    (h' : getOp pc = (some op',rest')) : op = op' ∧ rest = rest' := by
  obtain ⟨hop,hrest⟩ := Prod.mk.inj (h.symm.trans h')
  exact ⟨Option.some.inj hop,hrest⟩

/-- The bytes that an instruction was read from, `pc` being what is left. -/
def consumed (script pc : CScript) : CScript := script.take (script.length-pc.length)

@[simp] theorem consumed_append (bytes pc : CScript) : consumed (bytes ++ pc) pc = bytes := by
  unfold consumed
  rw [List.length_append,Nat.add_sub_cancel,List.take_left]

/-- `CScript << vch`. -/
def pushData (b : Valtype) : CScript :=
  if b.length < OP_PUSHDATA1.toNat then UInt8.ofNat b.length :: b
  else if b.length ≤ 0xff then OP_PUSHDATA1 :: UInt8.ofNat b.length :: b
  else if b.length ≤ 0xffff then OP_PUSHDATA2 :: (littleEndian 2 b.length ++ b)
  else OP_PUSHDATA4 :: (littleEndian 4 b.length ++ b)

/-- The loop of `FindAndDelete`, from an instruction on. -/
def deleteFrom (b : UInt8) (bs : List UInt8) (pc : CScript) : CScript :=
  if (b :: bs).isPrefixOf pc then deleteFrom b bs (pc.drop (bs.length+1))
  else
    match _h : getOp pc with
    | (none,_) => pc
    | (some _,rest) => consumed pc rest ++ deleteFrom b bs rest
  termination_by pc.length
  decreasing_by
  · rename_i hpre
    have := (List.isPrefixOf_iff_prefix.mp hpre).length_le
    rw [List.length_cons] at this
    rw [List.length_drop]
    omega
  · exact getOp_length _h

def findAndDelete (script b : CScript) : CScript :=
  match b with
  | [] => script
  | b :: bs => deleteFrom b bs script

/-- The bytes of the absolute value, the lowest first. -/
def absBytes (absvalue : Nat) : List UInt8 :=
  if h : absvalue = 0 then []
  else UInt8.ofNat (absvalue%256) :: absBytes (absvalue/256)
  termination_by absvalue
  decreasing_by exact Nat.div_lt_self (Nat.pos_of_ne_zero h) (by decide)

namespace CScriptNum

def nMaxNumSize : Nat := 4

/-- `CScriptNum::serialize`: the sign takes the highest bit of the last byte, or a byte of
its own where that bit is in use. -/
def serialize (value : Int) : Valtype :=
  let neg := decide (value < 0)
  let result := absBytes value.natAbs
  match result.getLast? with
  | none => []
  | some last =>
      if last &&& 0x80 ≠ 0 then result ++ [if neg then 0x80 else 0]
      else if neg then result.dropLast ++ [last ||| 0x80]
      else result

/-- `CScriptNum::set_vch`. -/
def setVch (vch : Valtype) : Int :=
  match vch.getLast? with
  | none => 0
  | some last =>
      let result := fromLittleEndian vch
      if last &&& 0x80 ≠ 0 then -(result%(128*256^(vch.length-1)) : Nat) else result

/-- The number takes no more bytes than it needs. -/
def isMinimal (vch : Valtype) : Bool :=
  match vch.reverse with
  | [] => true
  | last :: rest => last &&& 0x7f != 0 || (match rest with
      | [] => false
      | before :: _ => before &&& 0x80 != 0)

def getint (value : Int) : Int :=
  if 2^31-1 < value then 2^31-1
  else if value < -2^31 then -2^31
  else value

theorem length_absBytes {n k : Nat} (h : n < 256^k) : (absBytes n).length ≤ k := by
  induction k generalizing n with
  | zero =>
    unfold absBytes
    rw [dif_pos (by simpa using h)]
    exact Nat.le_refl 0
  | succ k ih =>
    unfold absBytes
    split
    · exact Nat.zero_le _
    · rw [List.length_cons]
      have hdiv : n/256 < 256^k := Nat.div_lt_of_lt_mul (by rw [pow_succ] at h; omega)
      have := ih hdiv
      omega

theorem length_serialize {value : Int} (h : value.natAbs < 256^8) : (serialize value).length ≤ 9 := by
  have hbytes := length_absBytes h
  unfold serialize
  simp only
  split
  · exact Nat.zero_le _
  · split
    · rw [List.length_append,List.length_singleton]
      omega
    · split
      · rw [List.length_append,List.length_singleton,List.length_dropLast]
        omega
      · omega

/-- A number of at most four bytes is far from the ends of `int64_t`. -/
theorem setVch_bound {vch : Valtype} (h : vch.length ≤ nMaxNumSize) :
    (setVch vch).natAbs < 256^4 := by
  have hbytes : fromLittleEndian vch < 256^4 :=
    Nat.lt_of_lt_of_le (fromLittleEndian_lt vch) (Nat.pow_le_pow_right (by decide) h)
  unfold setVch
  cases vch.getLast? with
  | none => exact (by decide : (0 : Int).natAbs < 256^4)
  | some last =>
    simp only
    split
    · have hmod := Nat.mod_le (fromLittleEndian vch) (128*256^(vch.length-1))
      rw [Int.natAbs_neg,Int.natAbs_natCast]
      omega
    · rw [Int.natAbs_natCast]
      exact hbytes

end CScriptNum

end Anoncoin
