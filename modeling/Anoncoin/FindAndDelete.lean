import Anoncoin.SignatureHash
import Anoncoin.ScriptBuilder

/-!
`FindAndDelete` over the bytes of a script (script.h): the bytes that are equal to the given ones
where an instruction begins are erased under the iterator, and `GetOp2` moves it on.
-/

set_option autoImplicit false

namespace Anoncoin

namespace CScript

/-- `++nFound`, in an `int`. -/
def nextFound (nFound : Nat) : Option Nat := if nFound+1 < 2^31 then some (nFound+1) else none

/-- `erase(pc, pc + n)`. -/
def eraseRange (script : CScript) (pc n : Nat) : CScript := script.take pc ++ script.drop (pc+n)

theorem length_eraseRange {script b : CScript} {pc : Nat} (hb : b ≠ [])
    (h : readBytes script pc b.length = some b) :
    (eraseRange script pc b.length).length < script.length := by
  have hpos := List.length_pos_iff.mpr hb
  unfold readBytes at h
  split_ifs at h with hend
  unfold eraseRange
  rw [List.length_append,List.length_take,List.length_drop]
  omega

/-- The inner loop of `FindAndDelete`, which erases at the iterator. -/
def eraseEqual (b : CScript) (hb : b ≠ []) (script : CScript) (pc nFound : Nat) :
    Option (CScript × Nat) :=
  if _h : readBytes script pc b.length = some b then do
    let nFound ← nextFound nFound
    eraseEqual b hb (eraseRange script pc b.length) pc nFound
  else some (script,nFound)
  termination_by script.length
  decreasing_by exact length_eraseRange hb _h

theorem eraseEqual_length {b : CScript} {hb : b ≠ []} {script script' : CScript}
    {pc nFound nFound' : Nat} (h : eraseEqual b hb script pc nFound = some (script',nFound')) :
    script'.length ≤ script.length := by
  induction hn : script.length using Nat.strong_induction_on generalizing script nFound with
  | _ n ih =>
    unfold eraseEqual at h
    split_ifs at h with hequal
    · obtain ⟨found,-,hrest⟩ := Option.bind_eq_some_iff.mp h
      have hless := length_eraseRange hb hequal
      exact (ih _ (by omega) hrest rfl).trans (by omega)
    · obtain ⟨rfl,-⟩ := Prod.mk.inj (Option.some.inj h)
      exact Nat.le_of_eq hn

theorem getOp2_inside {script : CScript} {pc pc' : Nat} {op : Op}
    (h : getOp2 script pc = some (some op,pc')) : pc < script.length := by
  by_contra hend
  unfold getOp2 at h
  rw [if_pos (Nat.le_of_not_lt hend)] at h
  exact absurd (congrArg Prod.fst (Option.some.inj h)) (by simp)

/-- The outer loop, from an iterator on. -/
def findAndDeleteFrom (b : CScript) (hb : b ≠ []) (script : CScript) (pc nFound : Nat) :
    Option (CScript × Nat) :=
  match _h : eraseEqual b hb script pc nFound with
  | none => none
  | some (script',nFound') =>
    match _g : getOp2 script' pc with
    | none => none
    | some (none,_) => some (script',nFound')
    | some (some _,pc') => findAndDeleteFrom b hb script' pc' nFound'
  termination_by script.length-pc
  decreasing_by
    have := eraseEqual_length _h
    have := getOp2_lt _g
    have := getOp2_inside _g
    omega

/-- `CScript::FindAndDelete`: the script that is left, and the number that is returned. There is
no result when the number does not fit an `int`. -/
def findAndDelete (script b : CScript) : Option (CScript × Nat) :=
  if hb : b = [] then some (script,0) else findAndDeleteFrom b hb script 0 0

/-- The instructions of a script, each as the bytes that it was read from. -/
def instructions (script : CScript) : List CScript :=
  match _h : getOp script with
  | (none,_) => []
  | (some _,rest) => consumed script rest :: instructions rest
  termination_by script.length
  decreasing_by exact getOp_length _h

/-- What is left of a script where no instruction can be read. -/
def malformedTail (script : CScript) : CScript :=
  match _h : getOp script with
  | (none,_) => script
  | (some _,rest) => malformedTail rest
  termination_by script.length
  decreasing_by exact getOp_length _h

section Instructions
variable {op op' : Op} {script b bytes rest : CScript}

theorem instructions_none {pc : CScript} (h : getOp script = (none,pc)) :
    instructions script = [] := by
  unfold instructions
  split
  · rfl
  · rename_i heq
    exact (getOp_not_none h heq).elim

theorem malformedTail_none {pc : CScript} (h : getOp script = (none,pc)) :
    malformedTail script = script := by
  unfold malformedTail
  split
  · rfl
  · rename_i heq
    exact (getOp_not_none h heq).elim

theorem instructions_append (h : Written op bytes) (rest : CScript) :
    instructions (bytes ++ rest) = bytes :: instructions rest := by
  have hget := h.getOp rest
  conv_lhs => unfold instructions
  split
  · rename_i heq
    exact (getOp_not_none heq hget).elim
  · rename_i heq
    obtain ⟨-,rfl⟩ := getOp_unique hget heq
    rw [consumed_append]

theorem malformedTail_append (h : Written op bytes) (rest : CScript) :
    malformedTail (bytes ++ rest) = malformedTail rest := by
  have hget := h.getOp rest
  conv_lhs => unfold malformedTail
  split
  · rename_i heq
    exact (getOp_not_none heq hget).elim
  · rename_i heq
    obtain ⟨-,rfl⟩ := getOp_unique hget heq
    rfl

/-- A property of scripts holds if it holds where no instruction can be read, and for an
instruction with what is behind it. -/
theorem induction_instructions {P : CScript → Prop}
    (tail : ∀ {script pc : CScript}, getOp script = (none,pc) → P script)
    (instruction : ∀ {op : Op} {bytes rest : CScript}, Written op bytes → P rest →
      P (bytes ++ rest)) (script : CScript) : P script := by
  induction hn : script.length using Nat.strong_induction_on generalizing script with
  | _ n ih =>
    cases hget : getOp script with
    | mk found pc =>
      cases found with
      | none => exact tail hget
      | some op =>
        have hless := getOp_length hget
        obtain ⟨bytes,hwritten,rfl⟩ := written_of_getOp hget
        exact instruction hwritten (ih pc.length (by omega) pc rfl)

/-- The instructions and the malformed tail are the script. -/
theorem flatten_instructions (script : CScript) :
    (instructions script).flatten ++ malformedTail script = script := by
  induction script using induction_instructions with
  | tail h => rw [instructions_none h,malformedTail_none h,List.flatten_nil,List.nil_append]
  | instruction h ih =>
    rw [instructions_append h,malformedTail_append h,List.flatten_cons,List.append_assoc,ih]

/-- An instruction in front of bytes is the instruction that is read there. -/
theorem written_unique (h : Written op b) (h' : Written op' bytes)
    (hpre : b <+: bytes ++ rest) : b = bytes ∧ op = op' := by
  obtain ⟨more,heq⟩ := hpre
  have hget := h.getOp more
  rw [heq,h'.getOp rest] at hget
  obtain ⟨hop,rfl⟩ := Prod.mk.inj hget
  exact ⟨List.append_cancel_right heq,(Option.some.inj hop).symm⟩

end Instructions

section Steps
variable {op op' : Op} {script b bytes rest : CScript} {hb : b ≠ []} {nFound : Nat}

theorem readBytes_eq_self (before pc : CScript) :
    readBytes (before ++ pc) before.length b.length = some b ↔ b <+: pc := by
  constructor
  · intro h
    unfold readBytes at h
    split_ifs at h
    rw [List.drop_left,Option.some.injEq] at h
    rw [← h]
    exact List.take_prefix _ _
  · rintro ⟨more,rfl⟩
    exact readBytes_append before b more

theorem eraseRange_append (before b more : CScript) :
    eraseRange (before ++ (b ++ more)) before.length b.length = before ++ more := by
  unfold eraseRange
  rw [List.take_left,← List.drop_drop,List.drop_left,List.drop_left]

theorem eraseEqual_of_not {before pc : CScript} (h : ¬b <+: pc) :
    eraseEqual b hb (before ++ pc) before.length nFound = some (before ++ pc,nFound) := by
  unfold eraseEqual
  rw [dif_neg fun hread => h ((readBytes_eq_self before pc).mp hread)]

theorem eraseEqual_append (before rest : CScript) :
    eraseEqual b hb (before ++ (b ++ rest)) before.length nFound =
      (nextFound nFound).bind fun found =>
        eraseEqual b hb (before ++ rest) before.length found := by
  conv_lhs => unfold eraseEqual
  rw [dif_pos (readBytes_append before b rest),eraseRange_append]
  rfl

/-- One round of the outer loop. -/
theorem findAndDeleteFrom_eq (script : CScript) (pc : Nat) :
    findAndDeleteFrom b hb script pc nFound =
      (eraseEqual b hb script pc nFound).bind fun erased =>
        (getOp2 erased.1 pc).bind fun read =>
          match read with
          | (none,_) => some erased
          | (some _,pc') => findAndDeleteFrom b hb erased.1 pc' erased.2 := by
  conv_lhs => unfold findAndDeleteFrom
  split
  · rename_i h
    rw [h]
    rfl
  · rename_i h
    rw [h,Option.bind_some]
    split
    · rename_i hread
      rw [hread]
      rfl
    · rename_i hread
      rw [hread]
      rfl
    · rename_i hread
      rw [hread]
      rfl

theorem findAndDeleteFrom_match (before rest : CScript) :
    findAndDeleteFrom b hb (before ++ (b ++ rest)) before.length nFound =
      (nextFound nFound).bind fun found =>
        findAndDeleteFrom b hb (before ++ rest) before.length found := by
  rw [findAndDeleteFrom_eq,eraseEqual_append]
  cases nextFound nFound with
  | none => rfl
  | some found => rw [Option.bind_some,Option.bind_some,findAndDeleteFrom_eq]

/-- `GetOp2` reads no instruction where the bytes hold none. -/
theorem getOp2_none {pc : CScript} (before : CScript) (h : getOp script = (none,pc)) :
    ∃ pc', getOp2 (before ++ script) before.length = some (none,pc') := by
  cases script with
  | nil =>
    refine ⟨before.length,?_⟩
    unfold getOp2
    rw [if_pos (by simp)]
  | cons opcode tail =>
    by_cases hlarge : OP_PUSHDATA4 < opcode
    · rw [getOp_large hlarge] at h
      exact absurd (congrArg Prod.fst h) (by simp)
    · rw [getOp_small hlarge] at h
      by_cases hshort : tail.length < sizeBytes opcode
      · refine ⟨before.length+1,?_⟩
        have hleft : (before ++ (opcode :: tail)).length-(before.length+1) = tail.length := by
          rw [List.length_append,List.length_cons]
          omega
        rw [getOp2_cons]
        unfold readInstruction
        rw [if_neg hlarge,hleft,if_pos hshort]
      · obtain ⟨size,rest,hsize,rfl⟩ : ∃ size rest, size.length = sizeBytes opcode ∧
            tail = size ++ rest :=
          ⟨_,_,List.length_take_of_le (Nat.le_of_not_lt hshort),(List.take_append_drop _ _).symm⟩
        rw [if_neg hshort,← hsize,List.drop_left,List.take_left] at h
        by_cases hfew : rest.length < pushSize opcode size
        · have hleft : (before ++ opcode :: size ++ rest).length-(before ++ opcode :: size).length =
              rest.length := by
            rw [List.length_append,Nat.add_sub_cancel_left]
          have hmod := Nat.mod_le rest.length (2^32)
          rw [getOp2_operand hlarge hsize]
          refine ⟨(before ++ opcode :: size).length,?_⟩
          unfold readOperand
          rw [hleft,if_pos (by omega)]
        · rw [if_neg hfew] at h
          exact absurd (congrArg Prod.fst h) (by simp)

end Steps

/-- Every instruction other than `b` with one equal to `b` behind it has an operand that is not
longer than the bytes from the operand to the end, counted in 32 bits. -/
def CountedBefore (b script : CScript) : Prop :=
  ∀ before bytes after op, instructions script = before ++ bytes :: after → Written op bytes →
    bytes ≠ b → b ∈ after →
      op.data.length ≤ (op.data.length+(after.flatten ++ malformedTail script).length)%2^32

section Counting
variable {op op' : Op} {script b bytes rest : CScript} {hb : b ≠ []} {nFound : Nat}

theorem countedBefore_none {pc : CScript} (h : getOp script = (none,pc)) :
    CountedBefore b script := by
  intro before bytes after op heq
  rw [instructions_none h] at heq
  exact absurd heq (by simp)

theorem countedBefore_append (h : Written op bytes) :
    CountedBefore b (bytes ++ rest) ↔
      (bytes ≠ b → b ∈ instructions rest →
        op.data.length ≤ (op.data.length+rest.length)%2^32) ∧ CountedBefore b rest := by
  have hsplit := instructions_append h rest
  have htail := malformedTail_append h rest
  constructor
  · intro hall
    constructor
    · intro hne hmem
      have hfirst := hall [] bytes (instructions rest) op hsplit h hne hmem
      rwa [htail,flatten_instructions] at hfirst
    · intro before bytes' after op' heq hwritten hne hmem
      rw [← htail]
      exact hall (bytes :: before) bytes' after op' (by rw [hsplit,heq]; rfl) hwritten hne hmem
  · rintro ⟨hfirst,hlater⟩ before bytes' after op' heq hwritten hne hmem
    rw [hsplit] at heq
    rw [htail]
    cases before with
    | nil =>
      obtain ⟨rfl,rfl⟩ := List.cons.inj heq
      have hself : bytes <+: bytes ++ [] := List.prefix_append _ _
      rw [flatten_instructions,← (written_unique h hwritten hself).2]
      exact hfirst hne hmem
    | cons bytes'' before =>
      exact hlater before bytes' after op' (List.cons.inj heq).2 hwritten hne hmem

/-- From an iterator on, the instructions other than `b` and the tail are what is left, exactly
when the count fits and `GetOp2` comes to the last of the instructions `b`. -/
theorem findAndDeleteFrom_iff (h : Written op b) (script before : CScript)
    (hn : nFound < 2^31) :
    findAndDeleteFrom b hb (before ++ script) before.length nFound =
        some (before ++ (((instructions script).filter (· ≠ b)).flatten ++ malformedTail script),
          nFound+(instructions script).count b) ↔
      nFound+(instructions script).count b < 2^31 ∧ CountedBefore b script := by
  induction script using induction_instructions generalizing before nFound with
  | tail hnone =>
    rename_i script pc
    have hnot : ¬b <+: script := by
      rintro ⟨more,rfl⟩
      rw [h.getOp more] at hnone
      exact absurd (congrArg Prod.fst hnone) (by simp)
    obtain ⟨pc',hread⟩ := getOp2_none before hnone
    rw [instructions_none hnone,malformedTail_none hnone,findAndDeleteFrom_eq,
      eraseEqual_of_not hnot,Option.bind_some,hread,Option.bind_some]
    exact iff_of_true (by simp) ⟨by simpa using hn,countedBefore_none hnone⟩
  | instruction hwritten ih =>
    rename_i op' bytes rest
    rw [instructions_append hwritten,malformedTail_append hwritten,countedBefore_append hwritten]
    by_cases hequal : bytes = b
    · rw [hequal,findAndDeleteFrom_match,List.filter_cons_of_neg (by simp),List.count_cons_self]
      unfold nextFound
      by_cases hmax : nFound+1 < 2^31
      · have hrest := ih before hmax
        rw [Nat.add_assoc,Nat.add_comm 1] at hrest
        rw [if_pos hmax,Option.bind_some,hrest]
        simp
      · rw [if_neg hmax,Option.bind_none]
        exact iff_of_false (by simp) fun hfits => by omega
    · have hnot : ¬b <+: bytes ++ rest := fun hpre =>
        hequal (written_unique h hwritten hpre).1.symm
      rw [findAndDeleteFrom_eq,eraseEqual_of_not hnot,Option.bind_some,
        List.filter_cons_of_pos (by simpa using hequal),List.flatten_cons,List.append_assoc,
        List.count_cons_of_ne hequal]
      by_cases hcounted : op'.data.length ≤ (op'.data.length+rest.length)%2^32
      · have hrest := ih (before ++ bytes) hn
        rw [List.append_assoc,List.append_assoc,List.length_append] at hrest
        rw [hwritten.getOp2 before rest hcounted,Option.bind_some]
        simp only
        rw [hrest,and_iff_right fun _ _ => hcounted]
      · obtain ⟨pc',hread⟩ := hwritten.getOp2_few before rest (Nat.lt_of_not_le hcounted)
        rw [hread,Option.bind_some]
        by_cases hmem : b ∈ instructions rest
        · have hcount := List.count_pos_iff.mpr hmem
          refine iff_of_false (fun hstop => ?_) fun hall => hcounted (hall.2.1 hequal hmem)
          have := (Prod.mk.inj (Option.some.inj hstop)).2
          omega
        · have hlater : CountedBefore b rest := by
            intro before' bytes' after op'' heq _ _ hafter
            exact absurd (heq ▸ List.mem_append_right _ (List.mem_cons_of_mem _ hafter)) hmem
          have hkept : (instructions rest).filter (· ≠ b) = instructions rest := by
            rw [List.filter_eq_self]
            intro bytes' hbytes
            have hne : bytes' ≠ b := by
              rintro rfl
              exact hmem hbytes
            simpa using hne
          rw [hkept,flatten_instructions,List.count_eq_zero.mpr hmem]
          exact iff_of_true (by simp) ⟨by simpa using hn,fun _ hin => absurd hin hmem,hlater⟩

end Counting

/-- The instructions other than `b` and the malformed tail are left, in order, and the number of
the instructions `b` is returned. -/
def DeletesInstructions (script b : CScript) : Prop :=
  findAndDelete script b =
    some (((instructions script).filter (· ≠ b)).flatten ++ malformedTail script,
      (instructions script).count b)

/-- `FindAndDelete` deletes instructions exactly when their number fits an `int` and `GetOp2`
comes to the last of them. -/
theorem deletesInstructions_iff {op : Op} {b : CScript} (h : Written op b) (script : CScript) :
    DeletesInstructions script b ↔
      (instructions script).count b < 2^31 ∧ CountedBefore b script := by
  have hb : b ≠ [] := List.length_pos_iff.mp h.ne_nil
  have hloop := @findAndDeleteFrom_iff op b hb 0 h script [] (by decide)
  rw [List.nil_append,List.nil_append,List.length_nil,Nat.zero_add] at hloop
  unfold DeletesInstructions findAndDelete
  rw [dif_neg hb]
  exact hloop

/-- One of two code separators, before a push that is cut off. -/
theorem deletesInstructions_iff_cut :
    DeletesInstructions [OP_CODESEPARATOR,0x51,OP_CODESEPARATOR,0x02,OP_CODESEPARATOR]
        [OP_CODESEPARATOR] ↔
      (instructions [OP_CODESEPARATOR,0x51,OP_CODESEPARATOR,0x02,OP_CODESEPARATOR]).count
          [OP_CODESEPARATOR] < 2^31 ∧
        CountedBefore [OP_CODESEPARATOR]
          [OP_CODESEPARATOR,0x51,OP_CODESEPARATOR,0x02,OP_CODESEPARATOR] :=
  deletesInstructions_iff (show Written ⟨OP_CODESEPARATOR,[]⟩ [OP_CODESEPARATOR] from
    .inl ⟨by decide,rfl,rfl⟩) _

theorem mem_instructions_replicate {op : Op} {bytes b rest : CScript} (h : Written op bytes)
    (hmem : b ∈ instructions rest) (n : Nat) :
    b ∈ instructions ((List.replicate n bytes).flatten ++ rest) := by
  induction n with
  | zero => exact hmem
  | succ n ih =>
    rw [List.replicate_succ,List.flatten_cons,List.append_assoc,instructions_append h]
    exact List.mem_cons_of_mem _ ih

/-- A push of 75 bytes, 2^32-70 opcodes of one byte, and a code separator. -/
def longScript : CScript :=
  pushData (List.replicate 75 0) ++
    ((List.replicate (2^32-70) [OP_RETURN]).flatten ++ [OP_CODESEPARATOR])

theorem longScript_not_deleted :
    Written ⟨OP_CODESEPARATOR,[]⟩ [OP_CODESEPARATOR] ∧
      ¬DeletesInstructions longScript [OP_CODESEPARATOR] := by
  have hseparator : Written ⟨OP_CODESEPARATOR,[]⟩ [OP_CODESEPARATOR] := .inl ⟨by decide,rfl,rfl⟩
  have hreturn : Written ⟨OP_RETURN,[]⟩ [OP_RETURN] := .inl ⟨by decide,rfl,rfl⟩
  have hpush : Written (Element.pushOp (List.replicate 75 0)) (pushData (List.replicate 75 0)) :=
    written_pushData (by rw [List.length_replicate]; decide)
  refine ⟨hseparator,fun hdeletes => ?_⟩
  have hcounted := ((deletesInstructions_iff hseparator longScript).mp hdeletes).2
  have hlast : [OP_CODESEPARATOR] ∈ instructions [OP_CODESEPARATOR] := by
    rw [← List.append_nil [OP_CODESEPARATOR],instructions_append hseparator]
    exact List.mem_cons_self
  have hne : pushData (List.replicate 75 0) ≠ [OP_CODESEPARATOR] := by decide
  have hfirst := ((countedBefore_append hpush).mp hcounted).1 hne
    (mem_instructions_replicate hreturn hlast _)
  have hlength : ∀ n, ((List.replicate n [OP_RETURN]).flatten ++ [OP_CODESEPARATOR]).length =
      n+1 := by simp
  have hdata : (Element.pushOp (List.replicate 75 0)).data.length = 75 := List.length_replicate
  rw [hlength,hdata] at hfirst
  exact absurd hfirst (by decide)

section Short
variable {op op' : Op} {script b bytes rest : CScript}

theorem length_instructions_le (script : CScript) :
    (instructions script).length ≤ script.length := by
  induction script using induction_instructions with
  | tail h => rw [instructions_none h]; exact Nat.zero_le _
  | instruction h ih =>
    have hpos := h.ne_nil
    rw [instructions_append h,List.length_cons,List.length_append]
    omega

/-- Below 2^32 bytes every instruction is counted right. -/
theorem countedBefore_of_length_lt (h : script.length < 2^32) : CountedBefore b script := by
  intro before bytes after op heq hwritten _ _
  have hlength := congrArg List.length (flatten_instructions script)
  have hdata : op.data.length ≤ bytes.length := by
    rcases hwritten with ⟨-,hdata,-⟩ | ⟨-,size,-,-,hbytes⟩
    · rw [hdata]
      exact Nat.zero_le _
    · rw [hbytes,List.length_cons,List.length_append]
      omega
  rw [heq,List.flatten_append,List.flatten_cons,List.append_assoc,List.append_assoc] at hlength
  simp only [List.length_append] at hlength ⊢
  rw [Nat.mod_eq_of_lt (by omega)]
  omega

/-- On the scripts that fit an `int` the instructions `b` are deleted. -/
theorem deletesInstructions_of_length_lt (h : Written op b) (hshort : script.length < 2^31) :
    DeletesInstructions script b := by
  have hcount : (instructions script).count b ≤ (instructions script).length := List.count_le_length
  have hle := length_instructions_le script
  exact (deletesInstructions_iff h script).mpr
    ⟨by omega,countedBefore_of_length_lt (by omega)⟩

/-- The function on the script alone leaves the same. -/
theorem findAndDelete_eq_filter (h : Written op b) (script : CScript) :
    Anoncoin.findAndDelete script b =
      ((instructions script).filter (· ≠ b)).flatten ++ malformedTail script := by
  obtain ⟨first,bs,rfl⟩ := List.exists_cons_of_ne_nil (List.length_pos_iff.mp h.ne_nil)
  show deleteFrom first bs script = _
  induction script using induction_instructions with
  | tail hnone =>
    rename_i script pc
    have hnot : ¬(first :: bs).isPrefixOf script := by
      intro hpre
      obtain ⟨more,rfl⟩ := List.isPrefixOf_iff_prefix.mp hpre
      rw [h.getOp more] at hnone
      exact absurd (congrArg Prod.fst hnone) (by simp)
    rw [instructions_none hnone,malformedTail_none hnone,List.filter_nil,List.flatten_nil,
      List.nil_append]
    unfold deleteFrom
    rw [if_neg hnot]
    split
    · rfl
    · rename_i heq
      exact (getOp_not_none hnone heq).elim
  | instruction hwritten ih =>
    rename_i op' bytes rest
    rw [instructions_append hwritten,malformedTail_append hwritten]
    by_cases hequal : bytes = first :: bs
    · rw [hequal,deleteFrom_match,List.filter_cons_of_neg (by simp)]
      exact ih
    · have hnot : ¬first :: bs <+: bytes ++ rest := fun hpre =>
        hequal (written_unique h hwritten hpre).1.symm
      rw [deleteFrom_some hnot (hwritten.getOp rest),consumed_append,
        List.filter_cons_of_pos (by simpa using hequal),List.flatten_cons,List.append_assoc,ih]

/-- On the scripts that fit an `int` the function on the vector is the one on the script alone. -/
theorem findAndDelete_eq (h : Written op b) (hshort : script.length < 2^31) :
    findAndDelete script b =
      some (Anoncoin.findAndDelete script b,(instructions script).count b) := by
  rw [findAndDelete_eq_filter h]
  exact deletesInstructions_of_length_lt h hshort

end Short

end CScript

end Anoncoin
