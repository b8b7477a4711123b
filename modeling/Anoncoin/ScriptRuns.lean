import Anoncoin.Lib.Matching
import Anoncoin.SigOps
import Anoncoin.Verdict

/-!
Scripts that run to their end: what the instructions of the standard scripts leave on the
stack, one rule for each, and the runs that these rules compose.
-/

set_option autoImplicit false

namespace Anoncoin
open Lib

/-- The flags of `SignSignature`. -/
def STANDARD_SCRIPT_VERIFY_FLAGS : Nat := SCRIPT_VERIFY_P2SH ||| SCRIPT_VERIFY_STRICTENC

/-- `GetOp` reads these instructions and then stands in front of `rest`. -/
inductive ReadsTo (rest : CScript) : CScript → List Op → Prop
  | nil : ReadsTo rest rest []
  | cons {pc mid : CScript} {op : Op} {ops : List Op} :
      getOp pc = (some op,mid) → ReadsTo rest mid ops → ReadsTo rest pc (op :: ops)

def IsPush (op : Op) : Prop := ¬OP_PUSHDATA4 < op.opcode ∧ Small op.data

theorem IsPush.not_large {op : Op} (h : IsPush op) : ¬OP_16 < op.opcode :=
  fun hlarge => h.1 (UInt8.lt_trans (by decide) hlarge)

section Reads
variable {pc mid rest : CScript} {op : Op} {ops : List Op}

theorem ReadsTo.append {ops' : List Op} (h : ReadsTo mid pc ops) (h' : ReadsTo rest mid ops') :
    ReadsTo rest pc (ops ++ ops') := by
  induction h with
  | nil => exact h'
  | cons hop _ ih => exact .cons hop ih

theorem ReadsTo.split {ops' : List Op} (h : ReadsTo rest pc (ops ++ ops')) :
    ∃ mid, ReadsTo mid pc ops ∧ ReadsTo rest mid ops' := by
  induction ops generalizing pc with
  | nil => exact ⟨pc,.nil,h⟩
  | cons op ops ih =>
    cases h with
    | cons hop hlater =>
      obtain ⟨mid,hfirst,hsecond⟩ := ih hlater
      exact ⟨mid,.cons hop hfirst,hsecond⟩

/-- The pushes that `CScript << vch` writes are read back. -/
theorem readsTo_pushData {datas : List Valtype} (h : AllSmall datas) (rest : CScript) :
    ∃ ops, ReadsTo rest (datas.flatMap pushData ++ rest) ops ∧ ops.map Op.data = datas ∧
      ∀ op ∈ ops, IsPush op := by
  induction datas with
  | nil => exact ⟨[],.nil,rfl,fun op hop => absurd hop List.not_mem_nil⟩
  | cons vch datas ih =>
    obtain ⟨ops,hreads,hdatas,hpush⟩ := ih fun v hv => h v (List.mem_cons_of_mem _ hv)
    obtain ⟨op,hop,hdata,hsmall⟩ := getOp_pushData (h vch List.mem_cons_self)
      (datas.flatMap pushData ++ rest)
    rw [List.flatMap_cons,List.append_assoc]
    refine ⟨op :: ops,.cons hop hreads,by rw [List.map_cons,hdata,hdatas],?_⟩
    intro op' hop'
    rcases List.mem_cons.mp hop' with rfl | hlater
    · exact ⟨hsmall,hdata ▸ h vch List.mem_cons_self⟩
    · exact hpush op' hlater

/-- Only a push has data. -/
theorem ReadsTo.data_nil (h : ReadsTo rest pc ops) {op : Op} (hop : op ∈ ops)
    (hlarge : OP_PUSHDATA4 < op.opcode) : op.data = [] := by
  induction h with
  | nil => exact absurd hop List.not_mem_nil
  | cons hget _ ih =>
    rcases List.mem_cons.mp hop with rfl | hlater
    · rcases getOp_cases hget with ⟨-,-,hdata⟩ | ⟨hsmall,-⟩
      · exact hdata
      · exact absurd hlarge hsmall
    · exact ih hlater

/-- What has data, but not too many, is a push. -/
theorem ReadsTo.isPush (h : ReadsTo rest pc ops)
    (hsizes : ∀ op ∈ ops, 0 < op.data.length ∧ op.data.length ≤ MAX_SCRIPT_ELEMENT_SIZE) :
    ∀ op ∈ ops, IsPush op := by
  intro op hop
  refine ⟨fun hlarge => ?_,(hsizes op hop).2⟩
  have hpos := (hsizes op hop).1
  rw [h.data_nil hop hlarge] at hpos
  exact Nat.lt_irrefl 0 hpos

theorem large_of_smallInteger {opcode : UInt8} (h : OP_1 ≤ opcode ∧ opcode ≤ OP_16) :
    OP_PUSHDATA4 < opcode := UInt8.lt_of_lt_of_le (by decide : OP_PUSHDATA4 < OP_1) h.1

theorem ReadsTo.isPushOnly (h : ReadsTo [] pc ops) (hpush : ∀ op ∈ ops, IsPush op) :
    isPushOnly pc = true := by
  induction h with
  | nil =>
    unfold Anoncoin.isPushOnly
    rfl
  | @cons pc mid op ops hop _ ih =>
    unfold Anoncoin.isPushOnly
    rw [if_neg (getOp_ne_nil hop)]
    split
    · rename_i heq
      exact (getOp_not_none heq hop).elim
    · rename_i heq
      obtain ⟨rfl,rfl⟩ := getOp_unique hop heq
      rw [if_neg (hpush op List.mem_cons_self).not_large]
      exact ih fun op' hop' => hpush op' (List.mem_cons_of_mem _ hop')

/-- An instruction takes at most five bytes besides its operand. -/
theorem getOp_length_le (h : getOp pc = (some op,rest)) :
    pc.length ≤ 5+op.data.length+rest.length := by
  rcases getOp_cases h with ⟨-,hscript,-⟩ | ⟨-,size,hsize,-,hscript⟩
  · rw [hscript,List.length_cons]
    omega
  · have hbytes : sizeBytes op.opcode ≤ 4 := by
      unfold sizeBytes
      split_ifs <;> omega
    rw [hscript,List.length_cons,List.length_append,List.length_append]
    omega

theorem ReadsTo.length_le {bound : Nat} (h : ReadsTo rest pc ops)
    (hbound : ∀ op ∈ ops, op.data.length ≤ bound) :
    pc.length ≤ (5+bound)*ops.length+rest.length := by
  induction h with
  | nil => simp
  | @cons pc mid op ops hop _ ih =>
    have hfirst := getOp_length_le hop
    have hdata := hbound op List.mem_cons_self
    have hlater := ih fun op' hop' => hbound op' (List.mem_cons_of_mem _ hop')
    rw [List.length_cons,Nat.mul_succ]
    omega

/-- A push is no other instruction. -/
theorem not_prefix_of_getOp {vch : Valtype} (hlen : vch.length < 2^32)
    (h : getOp pc = (some op,rest)) (hne : op ≠ Element.pushOp vch) : ¬pushData vch <+: pc := by
  rintro ⟨tail,rfl⟩
  have hread := (written_pushData hlen).getOp tail
  obtain ⟨hop,-⟩ := Prod.mk.inj (hread.symm.trans h)
  exact hne (Option.some.inj hop).symm

theorem pushData_ne_nil (vch : Valtype) : pushData vch ≠ [] := by
  unfold pushData
  split_ifs <;> exact List.cons_ne_nil _ _

/-- Nothing is deleted from a script that does not push the data this way. -/
theorem ReadsTo.findAndDelete {vch : Valtype} (h : ReadsTo [] pc ops) (hlen : vch.length < 2^32)
    (hne : ∀ op ∈ ops, op ≠ Element.pushOp vch) : findAndDelete pc (pushData vch) = pc := by
  obtain ⟨b,bs,hpush⟩ := List.exists_cons_of_ne_nil (pushData_ne_nil vch)
  unfold Anoncoin.findAndDelete
  rw [hpush]
  simp only
  induction h with
  | nil => exact deleteFrom_nil _ _
  | @cons pc mid op ops hop _ ih =>
    have hpre := not_prefix_of_getOp hlen hop (hne op List.mem_cons_self)
    rw [hpush] at hpre
    rw [deleteFrom_some hpre hop,ih fun op' hop' => hne op' (List.mem_cons_of_mem _ hop')]
    obtain ⟨bytes,-,rfl,-⟩ := getOp_eq_some hop
    rw [consumed_append]

/-- The script pushes these data, within the limits. -/
structure Pushes (scriptSig : CScript) (datas : List Valtype) : Prop where
  reads : ∃ ops, ReadsTo [] scriptSig ops ∧ ops.map Op.data = datas ∧ ∀ op ∈ ops, IsPush op
  length : scriptSig.length ≤ 10000
  count : datas.length ≤ 1000

theorem Pushes.allSmall {scriptSig : CScript} {datas : List Valtype} (h : Pushes scriptSig datas) :
    AllSmall datas := by
  obtain ⟨ops,-,rfl,hpush⟩ := h.reads
  intro vch hv
  obtain ⟨op,hop,rfl⟩ := List.mem_map.mp hv
  exact (hpush op hop).2

theorem Pushes.isPushOnly {scriptSig : CScript} {datas : List Valtype} (h : Pushes scriptSig datas) :
    isPushOnly scriptSig = true := by
  obtain ⟨ops,hreads,-,hpush⟩ := h.reads
  exact hreads.isPushOnly hpush

/-- What `CScript << vch` writes pushes it. -/
theorem pushes_pushData {datas : List Valtype} (hsmall : AllSmall datas)
    (hcount : datas.length ≤ 18) : Pushes (datas.flatMap pushData) datas := by
  obtain ⟨ops,hreads,hdatas,hpush⟩ := readsTo_pushData hsmall []
  rw [List.append_nil] at hreads
  have hops : ops.length = datas.length := by rw [← hdatas,List.length_map]
  have hlen := hreads.length_le fun op hop => (hpush op hop).2
  have hlimit : MAX_SCRIPT_ELEMENT_SIZE = 520 := rfl
  rw [hlimit,List.length_nil,hops] at hlen
  exact ⟨⟨ops,hreads,hdatas,hpush⟩,by omega,by omega⟩

end Reads

section Yield
variable {stack rest : List Valtype}

theorem yields_require {p : Bool} (h : p = true) (serror : ScriptError) :
    Yields (require p serror) () := by
  subst h
  exact yields_pure ()

theorem yields_need {k : Nat} (h : k ≤ stack.length) : Yields (need stack k) () := by
  unfold need
  rw [if_neg (by omega)]
  exact yields_pure ()

theorem yields_stacktop {i : Nat} {vch : Valtype} (h : stack[i-1]? = some vch) :
    Yields (stacktop stack i) vch := by
  unfold stacktop
  rw [h]
  exact yields_pure vch

theorem yields_popMany (above rest : List Valtype) :
    Yields (popMany above.length (above ++ rest)) rest := by
  induction above with
  | nil => exact yields_pure rest
  | cons vch above ih => exact (yields_pure (above ++ rest)).bind ih

end Yield

namespace ScriptEnv
variable {env : ScriptEnv} {code pc rest : CScript} {op : Op} {stack result : List Valtype}
  {nOpCount : Nat}

/-- Without conditionals and with an empty second stack, the script goes on from `pc` to its
end and leaves this stack. -/
def Runs (env : ScriptEnv) (code pc : CScript) (nOpCount : Nat) (stack result : List Valtype) :
    Prop :=
  ∃ count, Yields (env.evalFrom pc ⟨stack,[],[],nOpCount,code⟩) ⟨result,[],[],count,code⟩

theorem Runs.nil (code : CScript) (nOpCount : Nat) (stack : List Valtype) :
    env.Runs code [] nOpCount stack stack := by
  refine ⟨nOpCount,?_⟩
  rw [evalFrom_nil]
  exact yields_pure _

theorem yields_step {m m' : Machine} (hsmall : Small op.data)
    (hdisabled : isDisabled op.opcode = false) (hcount : OP_16 < op.opcode → m.nOpCount < 201)
    (hdispatch : Yields (env.dispatch op rest { m with nOpCount :=
      if OP_16 < op.opcode then m.nOpCount+1 else m.nOpCount }) m')
    (hdepth : m'.stack.length+m'.altstack.length ≤ 1000) : Yields (env.step op rest m) m' := by
  have hlen : ¬MAX_SCRIPT_ELEMENT_SIZE < op.data.length := Nat.not_lt_of_le hsmall
  unfold step
  refine (yields_require (by simp [hlen]) _).bind ?_
  refine (yields_require ?_ _).bind ?_
  · by_cases hlarge : OP_16 < op.opcode
    · have := hcount hlarge
      simp only [hlarge,if_true,decide_true,Bool.true_and,Bool.not_eq_true',decide_eq_false_iff_not]
      omega
    · simp [hlarge]
  · refine (yields_require (by rw [hdisabled]; rfl) _).bind (hdispatch.bind ?_)
    refine (yields_require ?_ _).bind (yields_pure m')
    simp only [Bool.not_eq_true',decide_eq_false_iff_not]
    omega

theorem isDisabled_push (h : ¬OP_PUSHDATA4 < op.opcode) : isDisabled op.opcode = false := by
  have hall : ∀ opcode : UInt8, ¬OP_PUSHDATA4 < opcode → isDisabled opcode = false :=
    forall_opcode (by decide +kernel)
  exact hall op.opcode h

/-- A push leaves its data. -/
theorem Runs.push (h : getOp pc = (some op,rest)) (hpush : IsPush op)
    (hminimal : env.fRequireMinimal = false) (hdepth : stack.length < 1000)
    (hrest : env.Runs code rest nOpCount (op.data :: stack) result) :
    env.Runs code pc nOpCount stack result := by
  obtain ⟨count,hrest⟩ := hrest
  refine ⟨count,?_⟩
  rw [evalFrom_some env h]
  refine Yields.bind ?_ hrest
  refine yields_step hpush.2 (isDisabled_push hpush.1) (fun hlarge => absurd hlarge hpush.not_large)
    ?_ (by simp only [List.length_cons,List.length_nil]; omega)
  have hle : op.opcode ≤ OP_PUSHDATA4 := UInt8.not_lt.mp hpush.1
  unfold dispatch
  rw [if_neg hpush.not_large,if_pos (by simp [fExec,hle])]
  exact (yields_require (by rw [hminimal]; rfl) _).bind (yields_pure _)

theorem Runs.pushes {ops : List Op} (h : ReadsTo rest pc ops) (hpush : ∀ op ∈ ops, IsPush op)
    (hminimal : env.fRequireMinimal = false) (hdepth : stack.length+ops.length ≤ 1000)
    (hrest : env.Runs code rest nOpCount ((ops.map Op.data).reverse ++ stack) result) :
    env.Runs code pc nOpCount stack result := by
  induction h generalizing stack with
  | nil => exact hrest
  | @cons pc mid op ops hop _ ih =>
    rw [List.length_cons] at hdepth
    rw [List.map_cons,List.reverse_cons,List.append_assoc] at hrest
    refine .push hop (hpush op List.mem_cons_self) hminimal (by omega) ?_
    refine ih (fun op' hop' => hpush op' (List.mem_cons_of_mem _ hop')) ?_ hrest
    rw [List.length_cons]
    omega

/-- The count of the operations after an instruction. -/
def countAfter (opcode : UInt8) (nOpCount : Nat) : Nat :=
  if OP_16 < opcode then nOpCount+1 else nOpCount

/-- Any other instruction does what the switch does. -/
theorem Runs.exec {stack₁ : List Valtype} {nOpCount₁ : Nat} (h : getOp pc = (some op,rest))
    (hlarge : OP_PUSHDATA4 < op.opcode) (hdisabled : isDisabled op.opcode = false)
    (hcount : OP_16 < op.opcode → nOpCount < 201)
    (hexec : Yields (env.exec true rest ⟨stack,[],[],countAfter op.opcode nOpCount,code⟩
      (instruction op.opcode)) ⟨stack₁,[],[],nOpCount₁,code⟩) (hdepth : stack₁.length ≤ 1000)
    (hrest : env.Runs code rest nOpCount₁ stack₁ result) : env.Runs code pc nOpCount stack result := by
  obtain ⟨count,hrest⟩ := hrest
  refine ⟨count,?_⟩
  have hdata : op.data = [] := by
    rcases getOp_cases h with ⟨-,-,hdata⟩ | ⟨hsmall,-⟩
    · exact hdata
    · exact absurd hlarge hsmall
  have hsmall : Small op.data := by
    rw [hdata]
    exact Nat.zero_le _
  have hnot : ¬op.opcode ≤ OP_PUSHDATA4 := UInt8.not_le.mpr hlarge
  rw [evalFrom_some env h]
  refine Yields.bind ?_ hrest
  refine yields_step hsmall hdisabled hcount ?_ (by simpa using hdepth)
  unfold dispatch
  rw [if_neg (by simp [hnot]),if_pos (by simp [fExec])]
  exact hexec

/-- A small integer opcode leaves its number. -/
theorem Runs.smallInteger (hop : getOp pc = (some op,rest))
    (hsmall : OP_1 ≤ op.opcode ∧ op.opcode ≤ OP_16) (hdepth : stack.length < 1000)
    (hrest : env.Runs code rest 0 (CScriptNum.serialize (decodeOpN op.opcode) :: stack) result) :
    env.Runs code pc 0 stack result := by
  have hnot : ¬OP_16 < op.opcode := UInt8.not_lt.mpr hsmall.2
  have hall : ∀ opcode : UInt8, OP_1 ≤ opcode ∧ opcode ≤ OP_16 → isDisabled opcode = false :=
    forall_opcode (by decide +kernel)
  refine .exec hop (large_of_smallInteger hsmall) (hall _ hsmall) (fun h => absurd h hnot) ?_
    (by rw [List.length_cons]; omega) hrest
  rw [instruction_smallInteger hsmall,countAfter,if_neg hnot]
  exact yields_pure _

theorem Runs.evalScript (h : env.Runs code code 0 stack result) (hlen : code.length ≤ 10000) :
    Yields (env.evalScript stack code) result := by
  obtain ⟨count,hrun⟩ := h
  unfold ScriptEnv.evalScript
  refine (yields_require (by simp only [Bool.not_eq_true',decide_eq_false_iff_not]; omega) _).bind ?_
  exact hrun.bind ((yields_require rfl _).bind (yields_pure result))

theorem yields_onStack {m : Machine} {x : ScriptM (List Valtype)} (h : Yields x stack) :
    Yields (onStack m x) { m with stack := stack } := h.bind (yields_pure _)

theorem yields_dup (vch : Valtype) (stack : List Valtype) :
    Yields (env.execStack (vch :: stack) .dup) (vch :: vch :: stack) :=
  (yields_need (by simp)).bind ((yields_stacktop rfl).bind (yields_pure _))

theorem yields_hash160 (vch : Valtype) (stack : List Valtype) :
    Yields (env.execHash (vch :: stack) .hash160) (env.hashes.hash160 vch :: stack) :=
  (yields_need (by simp)).bind ((yields_stacktop rfl).bind ((yields_pure _).bind (yields_pure _)))

theorem yields_equal (vch : Valtype) (stack : List Valtype) (verify : Bool) :
    Yields (execEqual verify (vch :: vch :: stack)) (if verify then stack else vchOf true :: stack) := by
  unfold execEqual
  refine (yields_need (by simp)).bind ((yields_stacktop rfl).bind ((yields_stacktop rfl).bind ?_))
  refine Yields.bind (yields_pure (vch :: stack)) (Yields.bind (yields_pure stack) ?_)
  rw [beq_self_eq_true]
  cases verify <;> exact yields_pure _

/-- The signature has a form that every flag but the one for low values lets pass. -/
def CanonicalSignature (vchSig : Valtype) : Prop :=
  isValidSignatureEncoding vchSig = true ∧ isDefinedHashtypeSignature vchSig = true

theorem CanonicalSignature.length_le {vchSig : Valtype} (h : CanonicalSignature vchSig) :
    vchSig.length ≤ 73 := by
  have hvalid := h.1
  unfold isValidSignatureEncoding at hvalid
  simp only [Bool.and_eq_true,decide_eq_true_eq] at hvalid
  tauto

theorem yields_checkSignatureEncoding {vchSig : Valtype}
    (hlow : env.hasFlag SCRIPT_VERIFY_LOW_S = false) (hsig : CanonicalSignature vchSig) :
    Yields (env.checkSignatureEncoding vchSig) () := by
  unfold checkSignatureEncoding
  simp only [hsig.1,hsig.2,hlow,Bool.not_true,Bool.and_false,Bool.false_eq_true,if_false]
  split <;> exact yields_pure ()

theorem yields_checkPubKeyEncoding {vchPubKey : Valtype}
    (hpub : isCompressedOrUncompressedPubKey vchPubKey = true) :
    Yields (env.checkPubKeyEncoding vchPubKey) () :=
  yields_require (by rw [hpub]; simp) _

/-- A pair in canonical form is given to the checker. -/
theorem yields_checkPair {vchSig vchPubKey : Valtype} {scriptCode : CScript} {fOk : Bool}
    (hlow : env.hasFlag SCRIPT_VERIFY_LOW_S = false) (hsig : CanonicalSignature vchSig)
    (hpub : isCompressedOrUncompressedPubKey vchPubKey = true)
    (hcheck : ∀ n, env.checkSig n vchSig vchPubKey scriptCode = fOk) :
    Yields (env.checkPair vchSig vchPubKey scriptCode) fOk := by
  unfold checkPair
  refine (yields_checkSignatureEncoding hlow hsig).bind
    ((yields_checkPubKeyEncoding hpub).bind fun n => ?_)
  exact ⟨n+1,by rw [← hcheck n]; rfl⟩

theorem yields_checkSig {vchSig vchPubKey : Valtype} (hlow : env.hasFlag SCRIPT_VERIFY_LOW_S = false)
    (hsig : CanonicalSignature vchSig) (hpub : isCompressedOrUncompressedPubKey vchPubKey = true)
    (hcode : findAndDelete code (pushData vchSig) = code)
    (hcheck : ∀ n, env.checkSig n vchSig vchPubKey code = true) (nOpCount : Nat) :
    Yields (env.execCheckSig false ⟨vchPubKey :: vchSig :: stack,[],[],nOpCount,code⟩)
      ⟨vchOf true :: stack,[],[],nOpCount,code⟩ := by
  unfold execCheckSig
  refine (yields_need (by simp)).bind ((yields_stacktop rfl).bind ((yields_stacktop rfl).bind ?_))
  rw [hcode]
  refine (yields_checkPair hlow hsig hpub hcheck).bind ?_
  exact (yields_pure (vchSig :: stack)).bind ((yields_pure stack).bind
    ((yields_pure (vchOf true :: stack)).bind (yields_pure _)))

/-- The script without the signatures. -/
def withoutSignatures (scriptCode : CScript) (sigs : List Valtype) : CScript :=
  sigs.foldl (fun scriptCode vchSig => findAndDelete scriptCode (pushData vchSig)) scriptCode

theorem withoutSignatures_of_forall {scriptCode : CScript} {sigs : List Valtype}
    (h : ∀ vchSig ∈ sigs, findAndDelete scriptCode (pushData vchSig) = scriptCode) :
    withoutSignatures scriptCode sigs = scriptCode := by
  induction sigs with
  | nil => rfl
  | cons vchSig sigs ih =>
    unfold withoutSignatures at ih ⊢
    rw [List.foldl_cons,h vchSig List.mem_cons_self]
    exact ih fun v hv => h v (List.mem_cons_of_mem _ hv)

section MultiSig
variable {sigs keys : List Valtype} {scriptCode : CScript} {checks : Valtype → Valtype → Bool}
  {vch : Valtype} {i j : Nat}

theorem yields_stacktop_front (h : vch :: sigs <+: stack.drop i) :
    Yields (stacktop stack (i+1)) vch := by
  obtain ⟨below,hsplit⟩ := h
  refine yields_stacktop ?_
  rw [Nat.add_sub_cancel,← List.head?_drop,← hsplit]
  rfl

theorem prefix_next (h : vch :: sigs <+: stack.drop i) : sigs <+: stack.drop (i+1) := by
  obtain ⟨below,hsplit⟩ := h
  refine ⟨below,?_⟩
  rw [← List.tail_drop,← hsplit]
  rfl

theorem yields_dropSignatures (h : sigs <+: stack.drop i) :
    Yields (dropSignatures stack sigs.length (i+1) scriptCode)
      (withoutSignatures scriptCode sigs) := by
  induction sigs generalizing i scriptCode with
  | nil => exact yields_pure scriptCode
  | cons vchSig sigs ih => exact (yields_stacktop_front h).bind (ih (prefix_next h))

/-- What the encodings and the checker say to each signature with each key. -/
def Answers (env : ScriptEnv) (scriptCode : CScript) (sigs keys : List Valtype)
    (checks : Valtype → Valtype → Bool) : Prop :=
  ∀ vchSig ∈ sigs, ∀ vchPubKey ∈ keys,
    Yields (env.checkPair vchSig vchPubKey scriptCode) (checks vchSig vchPubKey)

/-- The loop over the keys is the greedy pass: where it stops early, too few keys are left. -/
theorem yields_checkKeys (hsigs : sigs <+: stack.drop i) (hkeys : keys <+: stack.drop j)
    (hle : sigs.length ≤ keys.length) (h : Answers env scriptCode sigs keys checks) :
    Yields (env.checkKeys stack scriptCode keys.length sigs.length (i+1) (j+1))
      (greedyMatch checks sigs keys) := by
  induction keys generalizing sigs i j with
  | nil =>
    obtain rfl := List.eq_nil_of_length_eq_zero (Nat.le_zero.mp hle)
    exact yields_pure true
  | cons key keys ih =>
    cases sigs with
    | nil => exact yields_pure true
    | cons sig sigs =>
      have hpair := h sig List.mem_cons_self key List.mem_cons_self
      have hlater : Answers env scriptCode (sig :: sigs) keys checks :=
        fun s hs k hk => h s hs k (List.mem_cons_of_mem _ hk)
      rw [List.length_cons,List.length_cons] at hle
      rw [List.length_cons,List.length_cons]
      unfold checkKeys greedyMatch
      refine (yields_stacktop_front hsigs).bind ?_
      refine (yields_stacktop_front hkeys).bind (hpair.bind ?_)
      cases checks sig key with
      | true =>
        rw [if_pos rfl,if_pos rfl,if_neg (by omega)]
        exact ih (prefix_next hsigs) (prefix_next hkeys) (by omega)
          fun s hs => hlater s (List.mem_cons_of_mem _ hs)
      | false =>
        rw [if_neg Bool.false_ne_true,if_neg Bool.false_ne_true]
        by_cases hfew : keys.length < sigs.length+1
        · rw [if_pos hfew,greedyMatch_of_length_lt (by rwa [List.length_cons])]
          exact yields_pure false
        · rw [if_neg hfew]
          exact ih hsigs (prefix_next hkeys) (by rw [List.length_cons]; omega) hlater

/-- A small number is read back from the stack. -/
theorem yields_scriptNum (hminimal : env.fRequireMinimal = false) {k : Nat} (hk : k ≤ 16) :
    Yields (env.scriptNum (CScriptNum.serialize k)) k := by
  have hall : ∀ k : Nat, k < 17 → (CScriptNum.serialize k).length ≤ CScriptNum.nMaxNumSize ∧
      CScriptNum.setVch (CScriptNum.serialize k) = k := by decide +kernel
  obtain ⟨hlen,hvalue⟩ := hall k (by omega)
  unfold scriptNum
  rw [if_neg (Nat.not_lt.mpr hlen),if_neg (by rw [hminimal]; simp),hvalue]
  exact yields_pure _

theorem getint_natCast {k : Nat} (hk : k ≤ 20) : CScriptNum.getint k = k := by
  unfold CScriptNum.getint
  rw [if_neg (by omega),if_neg (by omega)]

variable {vchN vchM dummy : Valtype} {rest : List Valtype} {altstack : List Valtype}
  {vfExec : List Bool}

theorem yields_multiSigCounts (hN : Yields (env.scriptNum vchN) keys.length)
    (hM : Yields (env.scriptNum vchM) sigs.length) (hkeys : keys.length ≤ 20)
    (hle : sigs.length ≤ keys.length) (hcount : nOpCount+keys.length ≤ 201) :
    Yields (env.multiSigCounts
      ⟨vchN :: (keys ++ vchM :: (sigs ++ dummy :: rest)),altstack,vfExec,nOpCount,code⟩)
      (keys.length,sigs.length) := by
  have hlength : (vchN :: (keys ++ vchM :: (sigs ++ dummy :: rest))).length =
      keys.length+sigs.length+3+rest.length := by
    simp only [List.length_cons,List.length_append]
    omega
  have hcounted : (vchN :: (keys ++ vchM :: (sigs ++ dummy :: rest)))[2+keys.length-1]? =
      some vchM := by
    have hindex : 2+keys.length-1 = keys.length+1 := by omega
    rw [hindex,List.getElem?_cons_succ,List.getElem?_append_right (Nat.le_refl _),Nat.sub_self]
    rfl
  have hsigs : sigs.length ≤ 20 := by omega
  unfold multiSigCounts
  dsimp only
  refine (yields_need (by omega)).bind ((yields_stacktop rfl).bind (hN.bind ?_))
  simp only [getint_natCast hkeys,Int.toNat_natCast]
  refine (yields_require (by simp; omega) _).bind ((yields_require (by simp; omega) _).bind ?_)
  refine (yields_need (by omega)).bind ((yields_stacktop hcounted).bind (hM.bind ?_))
  simp only [getint_natCast hsigs,Int.toNat_natCast]
  exact (yields_require (by simp; omega) _).bind ((yields_need (by omega)).bind (yields_pure _))

/-- OP_CHECKMULTISIG takes everything down to the element in excess, and leaves what the greedy
pass says. -/
theorem yields_checkMultiSig (hN : Yields (env.scriptNum vchN) keys.length)
    (hM : Yields (env.scriptNum vchM) sigs.length) (hkeys : keys.length ≤ 20)
    (hle : sigs.length ≤ keys.length) (hcount : nOpCount+keys.length ≤ 201)
    (hdummy : env.hasFlag SCRIPT_VERIFY_NULLDUMMY = true → dummy = [])
    (h : Answers env (withoutSignatures code sigs) sigs keys checks) :
    Yields (env.execCheckMultiSig false
      ⟨vchN :: (keys ++ vchM :: (sigs ++ dummy :: rest)),altstack,vfExec,nOpCount,code⟩)
      ⟨vchOf (greedyMatch checks sigs keys) :: rest,altstack,vfExec,nOpCount+keys.length,code⟩ := by
  have hsplit : vchN :: (keys ++ vchM :: (sigs ++ dummy :: rest)) =
      (vchN :: (keys ++ vchM :: sigs)) ++ dummy :: rest := by simp
  have hkeysAt : keys <+: (vchN :: (keys ++ vchM :: (sigs ++ dummy :: rest))).drop 1 :=
    List.prefix_append _ _
  have hsigsAt : sigs <+: (vchN :: (keys ++ vchM :: (sigs ++ dummy :: rest))).drop
      (2+keys.length) := by
    have hindex : 2+keys.length = keys.length+1+1 := by omega
    refine ⟨dummy :: rest,?_⟩
    rw [hindex,List.drop_succ_cons]
    simp [List.drop_append]
  have hfirst : 3+keys.length = 2+keys.length+1 := by omega
  have hpop := yields_popMany (vchN :: (keys ++ vchM :: sigs)) (dummy :: rest)
  have hlength : (vchN :: (keys ++ vchM :: sigs)).length = 2+keys.length+sigs.length := by
    simp only [List.length_cons,List.length_append]
    omega
  rw [← hsplit,hlength] at hpop
  unfold execCheckMultiSig
  refine (yields_multiSigCounts hN hM hkeys hle hcount).bind ?_
  simp only [hfirst]
  refine (yields_dropSignatures hsigsAt).bind ((yields_checkKeys hsigsAt hkeysAt hle h).bind ?_)
  refine hpop.bind ((yields_need (by simp)).bind ((yields_stacktop rfl).bind ?_))
  refine (yields_require ?_ _).bind ((yields_pure rest).bind ?_)
  · cases hflag : env.hasFlag SCRIPT_VERIFY_NULLDUMMY with
    | false => rfl
    | true =>
      rw [hdummy hflag]
      rfl
  · exact (yields_pure (_ :: rest)).bind (yields_pure _)

end MultiSig

end ScriptEnv

section Judgement
variable {α : Type} {x : ScriptM Unit} {fOk : Bool}

/-- From every state on the verdict is this. -/
def Judges (x : ScriptM Unit) (fOk : Bool) : Prop :=
  ∀ n, (match x n with
    | .ok _ _ => true
    | .error _ _ => false) = fOk

theorem Judges.accepts (h : Judges x fOk) : x.accepts = fOk := h 0

theorem judges_bind {y : ScriptM α} {a : α} {f : α → ScriptM Unit} (h : Yields y a)
    (hf : Judges (f a) fOk) : Judges (y >>= f) fOk := by
  intro n
  obtain ⟨n',hy⟩ := h n
  have hbind : (y >>= f) n = f a n' := by
    show EStateM.bind y f n = _
    unfold EStateM.bind
    rw [hy]
  rw [hbind]
  exact hf n'

theorem judges_pure : Judges (pure ()) true := fun _ => rfl

theorem judges_requireTrue (stack : List Valtype) :
    Judges (ScriptEnv.requireTrue (vchOf fOk :: stack)) fOk := by
  intro n
  cases fOk <;> rfl

end Judgement

namespace ScriptEnv
variable {env : ScriptEnv} {scriptSig code subscript : CScript} {datas rest : List Valtype}
  {fOk : Bool}

/-- What is pushed lies on the stack. -/
theorem yields_pushes (h : Pushes scriptSig datas) (hminimal : env.fRequireMinimal = false) :
    Yields (env.evalScript [] scriptSig) datas.reverse := by
  obtain ⟨ops,hreads,hdatas,hpush⟩ := h.reads
  have hcount := h.count
  rw [← hdatas,List.length_map] at hcount
  refine Runs.evalScript (.pushes hreads hpush hminimal ?_ ?_) h.length
  · rw [List.length_nil]
    omega
  · rw [hdatas,List.append_nil]
    exact .nil _ 0 _

/-- The verdict over pushes is what the output script leaves. -/
theorem accepts_pushes (h : Pushes scriptSig datas) (hminimal : env.fRequireMinimal = false)
    (hruns : Yields (env.evalScript datas.reverse code) (vchOf fOk :: rest))
    (hnot : CScript.isPayToScriptHash code = false) :
    (env.verifyScript scriptSig code).accepts = fOk := by
  apply Judges.accepts
  unfold verifyScript
  rw [hnot,Bool.and_false]
  refine judges_bind (yields_require (by rw [h.isPushOnly]; simp) _) ?_
  refine judges_bind (yields_pushes h hminimal) (judges_bind hruns ?_)
  cases fOk with
  | true => exact judges_bind (yields_require rfl _) judges_pure
  | false => exact fun n => rfl

end ScriptEnv

end Anoncoin
