import Anoncoin.Script

/-!
Writing scripts and reading them back (script.h): `operator<<` for the elements of a script, and
`GetOp2` over the positions of a byte string, with its comparison in 32 bits.
-/

set_option autoImplicit false

namespace Anoncoin
open Lib

/-- The `n` bytes at `pc`; there is no result when the script ends before. -/
def readBytes (script : CScript) (pc n : Nat) : Option (List UInt8) :=
  if pc+n ≤ script.length then some ((script.drop pc).take n) else none

/-- The operand; what is left of the script is counted in an `unsigned int`. -/
def readOperand (script : CScript) (opcode : UInt8) (nSize pc : Nat) : Option (Option Op × Nat) :=
  if (script.length-pc)%2^32 < nSize then some (none,pc)
  else do
    let data ← readBytes script pc nSize
    pure (some ⟨opcode,data⟩,pc+nSize)

/-- The part of `GetOp2` behind the opcode: the immediate operand, if it has one. -/
def readInstruction (script : CScript) (opcode : UInt8) (pc : Nat) : Option (Option Op × Nat) :=
  if OP_PUSHDATA4 < opcode then some (some ⟨opcode,[]⟩,pc)
  else if script.length-pc < sizeBytes opcode then some (none,pc)
  else do
    let size ← readBytes script pc (sizeBytes opcode)
    readOperand script opcode (pushSize opcode size) (pc+sizeBytes opcode)

/-- `GetOp2` at a position of the script: the instruction, if there is one, and where the
iterator then stands. -/
def getOp2 (script : CScript) (pc : Nat) : Option (Option Op × Nat) :=
  if script.length ≤ pc then some (none,pc)
  else do
    let first ← readBytes script pc 1
    readInstruction script (first.headD 0) (pc+1)

/-- `push_int64`. -/
def pushInt64 (n : Int) : CScript :=
  if n = -1 ∨ (1 ≤ n ∧ n ≤ 16) then [UInt8.ofNat (n+(OP_1.toNat-1)).toNat]
  else if n = 0 then [0]
  else pushData (CScriptNum.serialize n)

/-- What can be appended to a script. -/
inductive Element where
  | data (b : Valtype)
  | int64 (n : Int)
  | scriptNum (n : Int)
  | opcode (opcode : UInt8)
  deriving DecidableEq, Repr

namespace Element

/-- A vector below 2^32 bytes, a number of `int64_t`, or an opcode that pushes nothing. -/
def Valid : Element → Prop
  | .data b => b.length < 2^32
  | .int64 n => -2^63 < n ∧ n < 2^63
  | .scriptNum n => -2^63 ≤ n ∧ n < 2^63
  | .opcode o => OP_PUSHDATA4 < o

instance (e : Element) : Decidable e.Valid :=
  match e with
  | .data b => inferInstanceAs (Decidable (b.length < 2^32))
  | .int64 n => inferInstanceAs (Decidable (-2^63 < n ∧ n < 2^63))
  | .scriptNum n => inferInstanceAs (Decidable (-2^63 ≤ n ∧ n < 2^63))
  | .opcode o => inferInstanceAs (Decidable (OP_PUSHDATA4 < o))

/-- `operator<<`. -/
def append : Element → CScript
  | .data b => pushData b
  | .int64 n => pushInt64 n
  | .scriptNum n => pushData (CScriptNum.serialize n)
  | .opcode o => [o]

/-- The opcode that announces so many bytes. -/
def pushOpcode (size : Nat) : UInt8 :=
  if size < OP_PUSHDATA1.toNat then UInt8.ofNat size
  else if size ≤ 0xff then OP_PUSHDATA1
  else if size ≤ 0xffff then OP_PUSHDATA2
  else OP_PUSHDATA4

def pushOp (b : Valtype) : Op := ⟨pushOpcode b.length,b⟩

/-- The instruction that an element is. -/
def op : Element → Op
  | .data b => pushOp b
  | .int64 n =>
    if n = -1 ∨ (1 ≤ n ∧ n ≤ 16) then ⟨UInt8.ofNat (n+(OP_1.toNat-1)).toNat,[]⟩
    else pushOp (CScriptNum.serialize n)
  | .scriptNum n => pushOp (CScriptNum.serialize n)
  | .opcode o => ⟨o,[]⟩

end Element

/-- The script after the elements are appended. -/
def build (elements : List Element) : CScript := elements.flatMap Element.append

section Written
variable {op : Op} {bytes : CScript}

/-- The bytes of an instruction. -/
def Written (op : Op) (bytes : CScript) : Prop :=
  (OP_PUSHDATA4 < op.opcode ∧ op.data = [] ∧ bytes = [op.opcode]) ∨
  (¬OP_PUSHDATA4 < op.opcode ∧ ∃ size, size.length = sizeBytes op.opcode ∧
    op.data.length = pushSize op.opcode size ∧ bytes = op.opcode :: (size ++ op.data))

theorem Written.getOp (h : Written op bytes) (rest : CScript) :
    getOp (bytes ++ rest) = (some op,rest) := by
  obtain ⟨opcode,data⟩ := op
  rcases h with ⟨hlarge,hdata,rfl⟩ | ⟨hsmall,size,hsize,hdata,rfl⟩
  · dsimp only at hlarge hdata
    rw [hdata]
    exact getOp_large hlarge rest
  · rw [List.cons_append,List.append_assoc]
    exact getOp_push hsmall hsize hdata rest

theorem written_of_getOp {pc rest : CScript} (h : getOp pc = (some op,rest)) :
    ∃ bytes, Written op bytes ∧ pc = bytes ++ rest := by
  rcases getOp_cases h with ⟨hlarge,hpc,hdata⟩ | ⟨hsmall,size,hsize,hdata,hpc⟩
  · exact ⟨_,.inl ⟨hlarge,hdata,rfl⟩,hpc⟩
  · exact ⟨_,.inr ⟨hsmall,size,hsize,hdata,rfl⟩,by rw [hpc]; simp⟩

theorem ofNat_lt_pushData1 {size : Nat} (h : size < OP_PUSHDATA1.toNat) :
    (UInt8.ofNat size).toNat = size ∧ UInt8.ofNat size < OP_PUSHDATA1 := by
  have hlimit : OP_PUSHDATA1.toNat = 76 := rfl
  have hnat : (UInt8.ofNat size).toNat = size :=
    UInt8.toNat_ofNat_of_lt' (show size < 256 by omega)
  exact ⟨hnat,UInt8.lt_iff_toNat_lt.mpr (by rwa [hnat])⟩

theorem pushOpcode_small (size : Nat) : ¬OP_PUSHDATA4 < Element.pushOpcode size := by
  unfold Element.pushOpcode
  split_ifs with hdirect hone htwo
  · intro hlarge
    have hless := UInt8.lt_trans (ofNat_lt_pushData1 hdirect).2
      (UInt8.lt_trans (by decide : OP_PUSHDATA1 < OP_PUSHDATA4) hlarge)
    exact UInt8.lt_irrefl _ hless
  · decide
  · decide
  · decide

/-- Each of the four encodings is an instruction with that operand. -/
theorem written_pushData {b : Valtype} (h : b.length < 2^32) :
    Written (Element.pushOp b) (pushData b) := by
  have hlimit : OP_PUSHDATA1.toNat = 76 := rfl
  refine .inr ⟨pushOpcode_small _,?_⟩
  unfold Element.pushOp Element.pushOpcode pushData
  split_ifs with hdirect hone htwo
  · obtain ⟨hnat,hless⟩ := ofNat_lt_pushData1 hdirect
    refine ⟨[],?_,?_,rfl⟩
    · unfold sizeBytes
      rw [if_pos hless]
      rfl
    · unfold pushSize
      rw [if_pos hless,hnat]
  · refine ⟨[UInt8.ofNat b.length],rfl,?_,rfl⟩
    show b.length = (UInt8.ofNat b.length).toNat+256*0
    rw [UInt8.toNat_ofNat_of_lt' (show b.length < 256 by omega)]
    omega
  · refine ⟨littleEndian 2 b.length,littleEndian_length 2 _,?_,rfl⟩
    show b.length = fromLittleEndian (littleEndian 2 b.length)
    rw [fromLittleEndian_littleEndian (by omega)]
  · refine ⟨littleEndian 4 b.length,littleEndian_length 4 _,?_,rfl⟩
    show b.length = fromLittleEndian (littleEndian 4 b.length)
    rw [fromLittleEndian_littleEndian (by omega)]

theorem length_serialize_lt {n : Int} (hlow : -2^63 ≤ n) (hhigh : n < 2^63) :
    (CScriptNum.serialize n).length < 2^32 := by
  have hnine := CScriptNum.length_serialize (show n.natAbs < 256^8 by omega)
  omega

theorem pushData_serialize_zero : pushData (CScriptNum.serialize 0) = [0] := by
  have hzero : CScriptNum.serialize 0 = [] := by simp [CScriptNum.serialize,absBytes]
  rw [hzero]
  rfl

/-- Every element is written as its instruction. -/
theorem Element.Valid.written {e : Element} (h : e.Valid) : Written e.op e.append := by
  cases e with
  | data b => exact written_pushData h
  | int64 n =>
    simp only [Element.op,Element.append,pushInt64]
    split_ifs with hsmall hzero
    · have hrange : ∀ k : Nat, k < 18 → k ≠ 1 → OP_PUSHDATA4 < UInt8.ofNat (k+79) := by decide
      have hcode : (n+(OP_1.toNat-1)).toNat = (n+1).toNat+79 := by
        have hone : OP_1.toNat = 81 := rfl
        omega
      refine .inl ⟨?_,rfl,rfl⟩
      dsimp only
      rw [hcode]
      exact hrange _ (by omega) (by omega)
    · rw [hzero,← pushData_serialize_zero]
      exact written_pushData (length_serialize_lt (by decide) (by decide))
    · exact written_pushData (length_serialize_lt (Int.le_of_lt h.1) h.2)
  | scriptNum n => exact written_pushData (length_serialize_lt h.1 h.2)
  | opcode opcode => exact .inl ⟨h,rfl,rfl⟩

end Written

section Reading
variable {script : CScript} {pc pc' : Nat} {op : Op} {bytes : CScript}

theorem readBytes_append (before bytes after : List UInt8) :
    readBytes (before ++ (bytes ++ after)) before.length bytes.length = some bytes := by
  unfold readBytes
  rw [if_pos,List.drop_left,List.take_left]
  rw [List.length_append,List.length_append]
  omega

/-- An operand for which enough bytes are counted is read. -/
theorem readOperand_append {opcode : UInt8} (before data after : List UInt8)
    (h : data.length ≤ (data.length+after.length)%2^32) :
    readOperand (before ++ (data ++ after)) opcode data.length before.length =
      some (some ⟨opcode,data⟩,before.length+data.length) := by
  have hleft : (before ++ (data ++ after)).length-before.length = data.length+after.length := by
    rw [List.length_append,List.length_append,Nat.add_sub_cancel_left]
  unfold readOperand
  rw [hleft,if_neg (Nat.not_lt.mpr h),readBytes_append]
  rfl

theorem readOperand_few {opcode : UInt8} (before data after : List UInt8)
    (h : (data.length+after.length)%2^32 < data.length) :
    readOperand (before ++ (data ++ after)) opcode data.length before.length =
      some (none,before.length) := by
  have hleft : (before ++ (data ++ after)).length-before.length = data.length+after.length := by
    rw [List.length_append,List.length_append,Nat.add_sub_cancel_left]
  unfold readOperand
  rw [hleft,if_pos h]

theorem getOp2_cons (before : List UInt8) (opcode : UInt8) (tail : List UInt8) :
    getOp2 (before ++ (opcode :: tail)) before.length =
      readInstruction (before ++ (opcode :: tail)) opcode (before.length+1) := by
  have hfirst := readBytes_append before [opcode] tail
  have hlength : (before ++ (opcode :: tail)).length = before.length+(tail.length+1) := by
    rw [List.length_append,List.length_cons]
  unfold getOp2
  rw [if_neg (by omega)]
  rw [List.length_singleton,List.singleton_append] at hfirst
  rw [hfirst]
  rfl

/-- At an instruction with an operand, `GetOp2` comes to read the operand. -/
theorem getOp2_operand {opcode : UInt8} (hsmall : ¬OP_PUSHDATA4 < opcode) {size : List UInt8}
    (hsize : size.length = sizeBytes opcode) (before rest : List UInt8) :
    getOp2 (before ++ (opcode :: (size ++ rest))) before.length =
      readOperand ((before ++ opcode :: size) ++ rest) opcode (pushSize opcode size)
        (before ++ opcode :: size).length := by
  have hread := readBytes_append (before ++ [opcode]) size rest
  have hlength : (before ++ (opcode :: (size ++ rest))).length =
      before.length+(size.length+rest.length+1) := by
    simp only [List.length_append,List.length_cons]
  have hscript : (before ++ [opcode]) ++ (size ++ rest) = before ++ (opcode :: (size ++ rest)) := by
    simp
  rw [hscript,List.length_append,List.length_singleton] at hread
  have hwhole : (before ++ opcode :: size) ++ rest = before ++ (opcode :: (size ++ rest)) := by
    simp
  have hposition : (before ++ opcode :: size).length = before.length+1+sizeBytes opcode := by
    rw [List.length_append,List.length_cons]
    omega
  rw [hwhole,hposition,getOp2_cons]
  unfold readInstruction
  rw [if_neg hsmall,if_neg (by omega),← hsize,hread]
  rfl

theorem Written.getOp2 (h : Written op bytes) (before after : List UInt8)
    (henough : op.data.length ≤ (op.data.length+after.length)%2^32) :
    getOp2 (before ++ (bytes ++ after)) before.length =
      some (some op,before.length+bytes.length) := by
  obtain ⟨opcode,data⟩ := op
  rcases h with ⟨hlarge,hdata,rfl⟩ | ⟨hsmall,size,hsize,hdata,rfl⟩
  · dsimp only at hlarge hdata
    rw [List.singleton_append,getOp2_cons]
    unfold readInstruction
    rw [if_pos hlarge,hdata]
    rfl
  · dsimp only at hsmall hsize hdata henough ⊢
    rw [List.cons_append,List.append_assoc,getOp2_operand hsmall hsize,← hdata,
      readOperand_append _ _ _ henough]
    simp only [List.length_append,List.length_cons,Nat.add_assoc,Nat.add_comm,Nat.add_left_comm]

theorem Written.getOp2_few (h : Written op bytes) (before after : List UInt8)
    (hfew : (op.data.length+after.length)%2^32 < op.data.length) :
    ∃ pc, Anoncoin.getOp2 (before ++ (bytes ++ after)) before.length = some (none,pc) := by
  obtain ⟨opcode,data⟩ := op
  rcases h with ⟨-,hdata,-⟩ | ⟨hsmall,size,hsize,hdata,rfl⟩
  · dsimp only at hdata
    rw [hdata] at hfew
    exact absurd hfew (Nat.not_lt_zero _)
  · dsimp only at hsmall hsize hdata hfew ⊢
    refine ⟨(before ++ opcode :: size).length,?_⟩
    rw [List.cons_append,List.append_assoc,getOp2_operand hsmall hsize,← hdata]
    exact readOperand_few _ _ _ hfew

theorem readBytes_some {n : Nat} (h : pc+n ≤ script.length) :
    ∃ bytes, readBytes script pc n = some bytes := ⟨_,if_pos h⟩

/-- No read lies outside the script, the iterator stays inside, and it moves on when there is
an instruction. -/
theorem getOp2_advances (h : pc ≤ script.length) :
    ∃ found pc', getOp2 script pc = some (found,pc') ∧ pc' ≤ script.length ∧
      (found.isSome = true → pc < pc') := by
  have hnone : (none : Option Op).isSome = true → ∀ pc', pc < pc' :=
    fun hfalse => absurd hfalse Bool.false_ne_true
  unfold getOp2
  split_ifs with hend
  · exact ⟨none,pc,rfl,h,fun hfalse => hnone hfalse _⟩
  · obtain ⟨first,hfirst⟩ := readBytes_some (show pc+1 ≤ script.length by omega)
    rw [hfirst,Option.bind_eq_bind,Option.bind_some]
    unfold readInstruction
    split_ifs with hlarge hshort
    · exact ⟨_,pc+1,rfl,by omega,fun _ => Nat.lt_succ_self pc⟩
    · exact ⟨none,pc+1,rfl,by omega,fun hfalse => hnone hfalse _⟩
    · obtain ⟨size,hsize⟩ := readBytes_some
        (show pc+1+sizeBytes (first.headD 0) ≤ script.length by omega)
      rw [hsize,Option.bind_eq_bind,Option.bind_some]
      unfold readOperand
      split_ifs with hfew
      · exact ⟨none,_,rfl,by omega,fun hfalse => hnone hfalse _⟩
      · have hmod := Nat.mod_le (script.length-(pc+1+sizeBytes (first.headD 0))) (2^32)
        obtain ⟨data,hdata⟩ := readBytes_some (show pc+1+sizeBytes (first.headD 0)+
          pushSize (first.headD 0) size ≤ script.length by omega)
        rw [hdata]
        exact ⟨_,_,rfl,by omega,fun _ => by omega⟩

theorem getOp2_lt (h : getOp2 script pc = some (some op,pc')) : pc < pc' := by
  by_cases hpc : pc ≤ script.length
  · obtain ⟨found,pc'',hget,-,hmove⟩ := getOp2_advances hpc
    obtain ⟨rfl,rfl⟩ := Prod.mk.inj (Option.some.inj (hget.symm.trans h))
    exact hmove rfl
  · unfold getOp2 at h
    rw [if_pos (by omega)] at h
    exact absurd (congrArg Prod.fst (Option.some.inj h)) (by simp)

theorem readBytes_drop {n : Nat} {tail : List UInt8} (htail : script.drop pc = tail)
    (hpc : pc ≤ script.length) (hn : n ≤ tail.length) :
    readBytes script pc n = some (tail.take n) := by
  have hlength := congrArg List.length htail
  rw [List.length_drop] at hlength
  unfold readBytes
  rw [if_pos (by omega),htail]

theorem getOp_small {opcode : UInt8} (h : ¬OP_PUSHDATA4 < opcode) (tail : CScript) :
    getOp (opcode :: tail) =
      if tail.length < sizeBytes opcode then (none,tail)
      else if (tail.drop (sizeBytes opcode)).length <
          pushSize opcode (tail.take (sizeBytes opcode)) then
        (none,tail.drop (sizeBytes opcode))
      else (some ⟨opcode,(tail.drop (sizeBytes opcode)).take
          (pushSize opcode (tail.take (sizeBytes opcode)))⟩,
        (tail.drop (sizeBytes opcode)).drop (pushSize opcode (tail.take (sizeBytes opcode)))) :=
  if_neg h

/-- Where at most 2^32 bytes are left, `GetOp2` is the function on what is left. -/
theorem getOp2_eq_getOp (hpc : pc ≤ script.length) (hshort : script.length-pc ≤ 2^32) :
    getOp2 script pc =
      some ((getOp (script.drop pc)).1,script.length-(getOp (script.drop pc)).2.length) := by
  cases htail : script.drop pc with
  | nil =>
    have hend := List.drop_eq_nil_iff.mp htail
    unfold getOp2
    rw [if_pos hend]
    simp only [getOp,List.length_nil,Option.some.injEq,Prod.mk.injEq,true_and]
    omega
  | cons opcode tail =>
    have hlength := congrArg List.length htail
    rw [List.length_drop,List.length_cons] at hlength
    have hnext : script.drop (pc+1) = tail := by rw [← List.tail_drop,htail,List.tail_cons]
    have hfirst := readBytes_drop htail hpc (Nat.succ_le_succ (Nat.zero_le tail.length))
    unfold getOp2
    rw [if_neg (by omega),hfirst]
    show readInstruction script opcode (pc+1) = _
    unfold readInstruction
    by_cases hlarge : OP_PUSHDATA4 < opcode
    · rw [if_pos hlarge,getOp_large hlarge]
      simp only [Option.some.injEq,Prod.mk.injEq,true_and]
      omega
    · rw [if_neg hlarge,getOp_small hlarge]
      by_cases hheader : tail.length < sizeBytes opcode
      · rw [if_pos (by omega),if_pos hheader]
        simp only [Option.some.injEq,Prod.mk.injEq,true_and]
        omega
      · have hsize := readBytes_drop hnext (by omega) (Nat.le_of_not_lt hheader)
        have hdata : script.drop (pc+1+sizeBytes opcode) = tail.drop (sizeBytes opcode) := by
          rw [← List.drop_drop,hnext]
        have hleft := List.length_drop (i := sizeBytes opcode) (l := tail)
        have hmod : (script.length-(pc+1+sizeBytes opcode))%2^32 =
            (tail.drop (sizeBytes opcode)).length := by
          rw [Nat.mod_eq_of_lt (by omega)]
          omega
        rw [if_neg (by omega),if_neg hheader,hsize]
        show readOperand script opcode _ _ = _
        unfold readOperand
        rw [hmod]
        by_cases hfew : (tail.drop (sizeBytes opcode)).length <
            pushSize opcode (tail.take (sizeBytes opcode))
        · rw [if_pos hfew,if_pos hfew]
          simp only [Option.some.injEq,Prod.mk.injEq,true_and]
          omega
        · rw [if_neg hfew,if_neg hfew,readBytes_drop hdata (by omega) (Nat.le_of_not_lt hfew)]
          simp only [Option.bind_eq_bind,Option.bind_some,Option.pure_def,Option.some.injEq,
            Prod.mk.injEq,true_and,List.length_drop]
          omega

end Reading

/-- The instructions from a position to the end, when all of them are read. -/
def getOps (script : CScript) (pc : Nat) : Option (List Op) :=
  if script.length ≤ pc then some []
  else
    match _h : getOp2 script pc with
    | some (some op,pc') => (getOps script pc').map (op :: ·)
    | some (none,_) => none
    | none => none
  termination_by script.length-pc
  decreasing_by
    have := getOp2_lt _h
    omega

section GetOps
variable {script : CScript} {pc pc' : Nat} {op : Op}

theorem getOps_some (hpc : pc < script.length) (h : getOp2 script pc = some (some op,pc')) :
    getOps script pc = (getOps script pc').map (op :: ·) := by
  conv_lhs => unfold getOps
  rw [if_neg (Nat.not_le.mpr hpc)]
  split
  · rename_i heq
    obtain ⟨hop,rfl⟩ := Prod.mk.inj (Option.some.inj (heq.symm.trans h))
    rw [Option.some.inj hop]
  · rename_i heq
    exact absurd (congrArg Prod.fst (Option.some.inj (heq.symm.trans h))) (by simp)
  · rename_i heq
    exact absurd (heq.symm.trans h) (by simp)

theorem getOps_none (hpc : pc < script.length) (h : getOp2 script pc = some (none,pc')) :
    getOps script pc = none := by
  unfold getOps
  rw [if_neg (Nat.not_le.mpr hpc)]
  split
  · rename_i heq
    exact absurd (congrArg Prod.fst (Option.some.inj (heq.symm.trans h))) (by simp)
  · rfl
  · rfl

end GetOps

section Build
variable {elements : List Element}

/-- At every push of the sequence the bytes from its data on, counted in 32 bits, are not fewer
than its data. -/
def Counted (elements : List Element) : Prop :=
  ∀ before e after, elements = before ++ e :: after →
    e.op.data.length ≤ (e.op.data.length+(build after).length)%2^32

theorem counted_cons {e : Element} :
    Counted (e :: elements) ↔
      e.op.data.length ≤ (e.op.data.length+(build elements).length)%2^32 ∧ Counted elements := by
  constructor
  · intro h
    refine ⟨h [] e elements rfl,fun before e' after heq => ?_⟩
    exact h (e :: before) e' after (by rw [heq]; rfl)
  · rintro ⟨hfirst,hlater⟩ before e' after heq
    cases before with
    | nil =>
      obtain ⟨rfl,rfl⟩ := List.cons.inj heq
      exact hfirst
    | cons e'' before => exact hlater before e' after (List.cons.inj heq).2

theorem build_cons (e : Element) (elements : List Element) :
    build (e :: elements) = e.append ++ build elements := List.flatMap_cons

theorem Written.ne_nil {op : Op} {bytes : CScript} (h : Written op bytes) :
    0 < bytes.length := by
  rcases h with ⟨-,-,rfl⟩ | ⟨-,size,-,-,rfl⟩ <;> exact Nat.succ_pos _

/-- The sequence is read back behind any bytes, if every push is counted right. -/
theorem getOps_build (hvalid : ∀ e ∈ elements, e.Valid) (before : List UInt8) :
    getOps (before ++ build elements) before.length = some (elements.map Element.op) ↔
      Counted elements := by
  induction elements generalizing before with
  | nil =>
    have hcounted : Counted [] := fun before e after h => by simp at h
    have hread : getOps (before ++ build []) before.length = some [] := by
      unfold getOps
      rw [if_pos]
      simp [build]
    exact iff_of_true hread hcounted
  | cons e elements ih =>
    have hwritten := (hvalid e List.mem_cons_self).written
    have hrest := ih (fun e' he => hvalid e' (List.mem_cons_of_mem _ he)) (before ++ e.append)
    have hpos := hwritten.ne_nil
    rw [List.append_assoc,List.length_append] at hrest
    have hopen : before.length < (before ++ (e.append ++ build elements)).length := by
      rw [List.length_append,List.length_append]
      omega
    rw [counted_cons,build_cons,List.map_cons]
    by_cases henough : e.op.data.length ≤ (e.op.data.length+(build elements).length)%2^32
    · rw [getOps_some hopen (hwritten.getOp2 before (build elements) henough),← hrest,
        and_iff_right henough,Option.map_eq_some_iff]
      simp
    · obtain ⟨pc,hget⟩ := hwritten.getOp2_few before (build elements) (Nat.lt_of_not_le henough)
      rw [getOps_none hopen hget]
      exact iff_of_false (by simp) fun h => henough h.1

end Build

/-- The elements are read back as they were written, and every read of an instruction stays in
the script and moves on. -/
def ReadBack (elements : List Element) : Prop :=
  getOps (build elements) 0 = some (elements.map Element.op) ∧
    ∀ script pc, pc ≤ script.length → ∃ found pc', getOp2 script pc = some (found,pc') ∧
      pc' ≤ script.length ∧ (found.isSome = true → pc < pc')

/-- The parser inverts the builder exactly on the sequences whose pushes are counted right. -/
theorem readBack_iff {elements : List Element} (hvalid : ∀ e ∈ elements, e.Valid) :
    ReadBack elements ↔ Counted elements := by
  have hread := getOps_build hvalid []
  rw [List.nil_append,List.length_nil] at hread
  rw [← hread]
  exact and_iff_left fun script pc hpc => getOp2_advances hpc

/-- A number, a negative number, an opcode and a vector. -/
theorem readBack_iff_short :
    ReadBack [.int64 5,.scriptNum (-255),.opcode OP_CHECKSIGVERIFY,.data [1,2,3]] ↔
      Counted [.int64 5,.scriptNum (-255),.opcode OP_CHECKSIGVERIFY,.data [1,2,3]] :=
  readBack_iff (by decide)

/-- Two vectors whose script is ten bytes longer than 2^32, behind the first push. -/
def longElements : List Element :=
  [.data (List.replicate 75 0),.data (List.replicate (2^32-70) 0)]

theorem longElements_valid : ∀ e ∈ longElements, e.Valid := by
  intro e he
  rcases List.mem_pair.mp he with rfl | rfl
  · show (List.replicate 75 (0 : UInt8)).length < 2^32
    rw [List.length_replicate]
    omega
  · show (List.replicate (2^32-70) (0 : UInt8)).length < 2^32
    rw [List.length_replicate]
    omega

theorem longElements_not_readBack :
    (∀ e ∈ longElements, e.Valid) ∧ ¬ReadBack longElements := by
  refine ⟨longElements_valid,fun h => ?_⟩
  have hread := getOps_build longElements_valid []
  rw [List.nil_append,List.length_nil] at hread
  have hcounted := hread.mp h.1 [] _ _ rfl
  have hfirst : (Element.data (List.replicate 75 0)).op.data.length = 75 := List.length_replicate
  have hlimit : OP_PUSHDATA1.toNat = 76 := rfl
  have hsecond : (build [.data (List.replicate (2^32-70) 0)]).length = 2^32-65 := by
    show (pushData (List.replicate (2^32-70) 0) ++ []).length = _
    unfold pushData
    rw [List.append_nil,List.length_replicate,if_neg (by omega),if_neg (by omega),
      if_neg (by omega),List.length_cons,List.length_append,littleEndian_length,
      List.length_replicate]
    omega
  rw [hfirst,hsecond] at hcounted
  omega

end Anoncoin
