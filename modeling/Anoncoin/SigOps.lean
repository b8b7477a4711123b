import Anoncoin.ScriptLimits
import Anoncoin.Serialize

/-!
The counts of signature operations (script.cpp): `GetSigOpCount`, and how it bounds the
signatures that `VerifyScript` checks.
-/

set_option autoImplicit false

namespace Anoncoin
open Lib

def OP_INVALIDOPCODE : UInt8 := 0xff

def decodeOpN (opcode : UInt8) : Nat :=
  if opcode = 0 then 0 else opcode.toNat-(OP_1.toNat-1)

/-- What one instruction adds to the count. -/
def opSigOps (fAccurate : Bool) (lastOpcode opcode : UInt8) : Nat :=
  if opcode = OP_CHECKSIG ∨ opcode = OP_CHECKSIGVERIFY then 1
  else if opcode = OP_CHECKMULTISIG ∨ opcode = OP_CHECKMULTISIGVERIFY then
    if fAccurate = true ∧ OP_1 ≤ lastOpcode ∧ lastOpcode ≤ OP_16 then decodeOpN lastOpcode else 20
  else 0

/-- The loop of `GetSigOpCount`, from an instruction on. -/
def sigOpsFrom (fAccurate : Bool) (lastOpcode : UInt8) (pc : CScript) : Nat :=
  if pc = [] then 0
  else
    match _h : getOp pc with
    | (none,_) => 0
    | (some op,rest) => opSigOps fAccurate lastOpcode op.opcode+sigOpsFrom fAccurate op.opcode rest
  termination_by pc.length
  decreasing_by exact getOp_length _h

def getSigOpCount (script : CScript) (fAccurate : Bool) : Nat :=
  sigOpsFrom fAccurate OP_INVALIDOPCODE script

/-- The data of the last instruction of a script of pushes. -/
def lastPush (data : Valtype) (pc : CScript) : Option Valtype :=
  if pc = [] then some data
  else
    match _h : getOp pc with
    | (none,_) => none
    | (some op,rest) => if OP_16 < op.opcode then none else lastPush op.data rest
  termination_by pc.length
  decreasing_by exact getOp_length _h

/-- `scriptPubKey.GetSigOpCount(scriptSig)`. -/
def getSigOpCountOf (scriptPubKey scriptSig : CScript) : Nat :=
  if CScript.isPayToScriptHash scriptPubKey then
    match lastPush [] scriptSig with
    | none => 0
    | some subscript => getSigOpCount subscript true
  else getSigOpCount scriptPubKey true

section Count
variable {fAccurate : Bool} {lastOpcode : UInt8} {pc rest : CScript} {op : Op}

theorem sigOpsFrom_some (h : getOp pc = (some op,rest)) :
    sigOpsFrom fAccurate lastOpcode pc =
      opSigOps fAccurate lastOpcode op.opcode+sigOpsFrom fAccurate op.opcode rest := by
  conv_lhs => unfold sigOpsFrom
  rw [if_neg (getOp_ne_nil h)]
  split
  · rename_i heq
    exact (getOp_not_none heq h).elim
  · rename_i heq
    obtain ⟨rfl,rfl⟩ := getOp_unique h heq
    rfl

theorem lastPush_some (h : getOp pc = (some op,rest)) (hpush : ¬OP_16 < op.opcode) (data : Valtype) :
    lastPush data pc = lastPush op.data rest := by
  conv_lhs => unfold lastPush
  rw [if_neg (getOp_ne_nil h)]
  split
  · rename_i heq
    exact (getOp_not_none heq h).elim
  · rename_i heq
    obtain ⟨rfl,rfl⟩ := getOp_unique h heq
    rw [if_neg hpush]

theorem isPushOnly_some (h : getOp pc = (some op,rest)) (hpush : isPushOnly pc = true) :
    ¬OP_16 < op.opcode ∧ isPushOnly rest = true := by
  unfold isPushOnly at hpush
  rw [if_neg (getOp_ne_nil h)] at hpush
  split at hpush
  · exact absurd hpush (by decide)
  · rename_i heq
    obtain ⟨rfl,rfl⟩ := getOp_unique h heq
    by_cases hlarge : OP_16 < op.opcode
    · rw [if_pos hlarge] at hpush
      exact absurd hpush (by decide)
    · rw [if_neg hlarge] at hpush
      exact ⟨hlarge,hpush⟩

theorem decodeOpN_le (h : OP_1 ≤ lastOpcode ∧ lastOpcode ≤ OP_16) : decodeOpN lastOpcode ≤ 16 := by
  have hle := UInt8.le_iff_toNat_le.mp h.2
  have h1 : OP_1.toNat = 81 := rfl
  have h16 : OP_16.toNat = 96 := rfl
  unfold decodeOpN
  split
  · exact Nat.zero_le _
  · omega

theorem opSigOps_accurate_le (lastOpcode opcode : UInt8) :
    opSigOps true lastOpcode opcode ≤ opSigOps false lastOpcode opcode := by
  have hfalse : ¬(false = true ∧ OP_1 ≤ lastOpcode ∧ lastOpcode ≤ OP_16) := fun h =>
    absurd h.1 (by decide)
  unfold opSigOps
  rw [if_neg hfalse]
  split
  · exact Nat.le_refl 1
  · split
    · split
      · rename_i h
        have := decodeOpN_le h.2
        omega
      · exact Nat.le_refl 20
    · exact Nat.le_refl 0

theorem opSigOps_le (fAccurate : Bool) (lastOpcode opcode : UInt8) :
    opSigOps fAccurate lastOpcode opcode ≤ 20 := by
  unfold opSigOps
  split
  · decide
  · split
    · split
      · rename_i h
        have := decodeOpN_le h.2
        omega
      · exact Nat.le_refl 20
    · decide

/-- What holds of the counts at the end of a script, and is carried back over each
instruction, holds of the counts of every script. -/
theorem sigOpsFrom_induct {motive : UInt8 → CScript → Prop}
    (hend : ∀ lastOpcode pc, (∀ fAccurate, sigOpsFrom fAccurate lastOpcode pc = 0) →
      motive lastOpcode pc)
    (hop : ∀ lastOpcode pc op rest, getOp pc = (some op,rest) → motive op.opcode rest →
      motive lastOpcode pc) (lastOpcode : UInt8) (pc : CScript) : motive lastOpcode pc := by
  induction hlen : pc.length using Nat.strong_induction_on generalizing lastOpcode pc with
  | _ len ih =>
    by_cases hpc : pc = []
    · refine hend _ _ fun fAccurate => ?_
      unfold sigOpsFrom
      rw [if_pos hpc]
    · cases hget : getOp pc with
      | mk op rest =>
        cases op with
        | none =>
          refine hend _ _ fun fAccurate => ?_
          unfold sigOpsFrom
          rw [if_neg hpc]
          split
          · rfl
          · rename_i heq
            exact (getOp_not_none hget heq).elim
        | some op => exact hop _ _ op rest hget (ih rest.length (hlen ▸ getOp_length hget) _ _ rfl)

theorem sigOpsFrom_accurate_le (lastOpcode : UInt8) (pc : CScript) :
    sigOpsFrom true lastOpcode pc ≤ sigOpsFrom false lastOpcode pc := by
  induction lastOpcode, pc using sigOpsFrom_induct with
  | hend lastOpcode pc h => rw [h true,h false]
  | hop lastOpcode pc op rest h ih =>
    rw [sigOpsFrom_some h,sigOpsFrom_some h]
    exact Nat.add_le_add (opSigOps_accurate_le lastOpcode op.opcode) ih

theorem sigOpsFrom_le (fAccurate : Bool) (lastOpcode : UInt8) (pc : CScript) :
    sigOpsFrom fAccurate lastOpcode pc ≤ 20*pc.length := by
  induction lastOpcode, pc using sigOpsFrom_induct with
  | hend lastOpcode pc h =>
    rw [h fAccurate]
    exact Nat.zero_le _
  | hop lastOpcode pc op rest h ih =>
    have hlen := getOp_length h
    have hop := opSigOps_le fAccurate lastOpcode op.opcode
    rw [sigOpsFrom_some h]
    omega

end Count

/-- What the table of the instructions says about signatures and small numbers. -/
theorem opcode_facts : ∀ opcode : UInt8,
    (instruction opcode = .checkSig false ∨ instruction opcode = .checkSig true →
      opcode = OP_CHECKSIG ∨ opcode = OP_CHECKSIGVERIFY) ∧
    (instruction opcode = .checkMultiSig false ∨ instruction opcode = .checkMultiSig true →
      opcode = OP_CHECKMULTISIG ∨ opcode = OP_CHECKMULTISIGVERIFY) ∧
    (OP_1 ≤ opcode ∧ opcode ≤ OP_16 → instruction opcode = .value (decodeOpN opcode) ∧
      keysOnTop [CScriptNum.serialize (decodeOpN opcode)] = decodeOpN opcode) :=
  forall_opcode (by decide +kernel)

theorem instruction_sigCost (opcode : UInt8) (stack : List Valtype) :
    (instruction opcode).sigCost stack =
      if opcode = OP_CHECKSIG ∨ opcode = OP_CHECKSIGVERIFY then 1
      else if opcode = OP_CHECKMULTISIG ∨ opcode = OP_CHECKMULTISIGVERIFY then
        min 20 (keysOnTop stack)
      else 0 := by
  obtain ⟨hcheckSig,hcheckMultiSig,-⟩ := opcode_facts opcode
  split
  · rename_i h
    rcases h with rfl | rfl <;> rfl
  · rename_i hsig
    split
    · rename_i h
      rcases h with rfl | rfl <;> rfl
    · rename_i hmulti
      cases hi : instruction opcode with
      | checkSig verify =>
        refine absurd (hcheckSig ?_) hsig
        cases verify <;> simp [hi]
      | checkMultiSig verify =>
        refine absurd (hcheckMultiSig ?_) hmulti
        cases verify <;> simp [hi]
      | _ => rfl

/-- The small numbers. -/
theorem instruction_smallInteger {opcode : UInt8} (h : OP_1 ≤ opcode ∧ opcode ≤ OP_16) :
    instruction opcode = .value (decodeOpN opcode) := ((opcode_facts opcode).2.2 h).1

/-- The small numbers, and what they leave on the stack. -/
theorem instruction_opN {opcode : UInt8} (h : OP_1 ≤ opcode ∧ opcode ≤ OP_16) :
    ∃ value, instruction opcode = .value value ∧
      keysOnTop [CScriptNum.serialize value] = decodeOpN opcode :=
  ⟨_,instruction_smallInteger h,((opcode_facts opcode).2.2 h).2⟩

/-- Where the last instruction was a small number and is executed, it is on the stack. -/
def CountsKeys (lastOpcode : UInt8) (m : Machine) : Prop :=
  ScriptEnv.fExec m = true → OP_1 ≤ lastOpcode ∧ lastOpcode ≤ OP_16 →
    keysOnTop m.stack = decodeOpN lastOpcode

theorem countsKeys_invalid (m : Machine) : CountsKeys OP_INVALIDOPCODE m :=
  fun _ h => absurd h.2 (by decide)

theorem stepCost_le {lastOpcode : UInt8} {m : Machine} (h : CountsKeys lastOpcode m) (op : Op) :
    ScriptEnv.stepCost op m ≤ opSigOps true lastOpcode op.opcode := by
  unfold ScriptEnv.stepCost
  cases hexec : ScriptEnv.fExec m with
  | false => exact Nat.zero_le _
  | true =>
    rw [if_pos rfl,instruction_sigCost]
    unfold opSigOps
    split
    · exact Nat.le_refl 1
    · split
      · split
        · rename_i hlast
          rw [h hexec hlast.2]
          exact Nat.min_le_right _ _
        · exact Nat.min_le_left _ _
      · exact Nat.le_refl 0

section Calls
variable {env : ScriptEnv} {n : Nat} {m : Machine} {pc : CScript} {op : Op}

/-- A small number that is executed lies on the stack after the pass. -/
theorem step_countsKeys : Ends (fun _ _ => True) (env.step op pc m) n
    fun m' _ => CountsKeys op.opcode m' := by
  by_cases hrange : OP_1 ≤ op.opcode ∧ op.opcode ≤ OP_16
  · obtain ⟨value,hvalue,hkeys⟩ := instruction_opN hrange
    have hf : ∀ n, Allows env (fun _ _ => True) n := fun _ _ _ => trivial
    have hpush : ¬op.opcode ≤ OP_PUSHDATA4 := fun h =>
      absurd (UInt8.le_trans hrange.1 h) (by decide)
    have hcond : ¬(0x63 ≤ op.opcode) := fun h => absurd (UInt8.le_trans h hrange.2) (by decide)
    unfold ScriptEnv.step
    refine ends_require (hf n) fun _ => ends_require (hf n) fun _ => ends_require (hf n) fun _ => ?_
    unfold ScriptEnv.dispatch
    rw [decide_eq_false hpush,Bool.and_false,if_neg Bool.false_ne_true,decide_eq_false hcond,
      Bool.false_and,Bool.or_false]
    cases hexec : ScriptEnv.fExec m with
    | true =>
      have hexec' : ScriptEnv.fExec { m with nOpCount :=
          if OP_16 < op.opcode then m.nOpCount+1 else m.nOpCount } = true := hexec
      rw [if_pos hexec',hvalue]
      exact ends_require (hf n) fun _ => ends_pure.mpr fun _ _ => hkeys
    | false =>
      have hexec' : ScriptEnv.fExec { m with nOpCount :=
          if OP_16 < op.opcode then m.nOpCount+1 else m.nOpCount } = false := hexec
      rw [hexec',if_neg Bool.false_ne_true]
      refine ends_require (hf n) fun _ => ends_pure.mpr fun htrue => ?_
      rw [hexec'] at htrue
      exact absurd htrue Bool.false_ne_true
  · exact ends_of_forall (fun _ _ => trivial) fun _ _ _ h => absurd h hrange

theorem evalFrom_calls {lastOpcode : UInt8} (hkeys : CountsKeys lastOpcode m) (hm : m.Limited) :
    Ends (fun _ n' => n' ≤ n+sigOpsFrom true lastOpcode pc) (env.evalFrom pc m) n
      fun m' n' => m'.Limited ∧ n' ≤ n+sigOpsFrom true lastOpcode pc := by
  generalize hbound : n+sigOpsFrom true lastOpcode pc = bound
  have hinv : ∃ lastOpcode, CountsKeys lastOpcode m ∧ m.Limited ∧
      n+sigOpsFrom true lastOpcode pc ≤ bound := ⟨lastOpcode,hkeys,hm,Nat.le_of_eq hbound⟩
  refine (evalFrom_ends (fun pc m n => ∃ lastOpcode, CountsKeys lastOpcode m ∧ m.Limited ∧
    n+sigOpsFrom true lastOpcode pc ≤ bound) (fun pc m n h => ?_)
    (fun op pc rest m n hop h => ?_) hinv).mono fun m' n' h => ?_
  · obtain ⟨lastOpcode,-,-,hle⟩ := h
    omega
  · obtain ⟨lastOpcode,hkeys,hm,hle⟩ := h
    rw [sigOpsFrom_some hop] at hle
    have hcost := stepCost_le hkeys op
    have hf : AllowsUpTo env (fun _ n' => n' ≤ bound) n (ScriptEnv.stepCost op m) :=
      fun n' _ hn' _ _ => (by omega : n' ≤ bound)
    refine ((step_ends hf hm).and step_countsKeys).mono fun m' n' h => ?_
    exact ⟨op.opcode,h.2,h.1.1.limited,by omega⟩
  · obtain ⟨lastOpcode,-,hm,hle⟩ := h
    exact ⟨hm,by omega⟩

/-- An evaluation checks no more signatures than are counted. -/
theorem evalScript_calls {stack : List Valtype} (hstack : Loaded stack) (script : CScript) :
    Ends (fun _ n' => n' ≤ n+getSigOpCount script true) (env.evalScript stack script) n
      fun stack' n' => Loaded stack' ∧ n' ≤ n+getSigOpCount script true := by
  have hf : ∀ n', n' ≤ n+getSigOpCount script true →
      Allows env (fun _ n' => n' ≤ n+getSigOpCount script true) n' := fun _ hn' _ _ => hn'
  unfold ScriptEnv.evalScript
  refine ends_require (hf n (Nat.le_add_right _ _)) fun _ => ?_
  refine (evalFrom_calls (countsKeys_invalid _) (hstack.start script)).bind fun m n' h => ?_
  obtain ⟨hm,hn'⟩ := h
  exact ends_require (hf n' hn') fun _ => ends_pure.mpr ⟨hm.loaded,hn'⟩

/-- What a small number leaves on the stack; as a script it fails at its only byte. -/
def idle : Valtype → Bool
  | [b] => b == 0x81 || (decide (1 ≤ b) && decide (b ≤ 16))
  | _ => false

theorem evalScript_idle {vch : Valtype} (h : idle vch = true) (stack : List Valtype) :
    Ends (fun _ n' => n' = n) (env.evalScript stack vch) n fun _ _ => False := by
  have hf : Allows env (fun _ n' => n' = n) n := fun _ _ => rfl
  have hfrom : ∀ m, Ends (fun _ n' => n' = n) (env.evalFrom vch m) n fun _ _ => False := by
    intro m
    match vch, h with
    | [b], h =>
      simp only [idle,Bool.or_eq_true,beq_iff_eq,Bool.and_eq_true,decide_eq_true_iff] at h
      rcases h with rfl | ⟨hge,hle⟩
      · rw [env.evalFrom_some (getOp_large (by decide) [])]
        unfold ScriptEnv.step
        simp only [bind_assoc]
        refine ends_require hf fun _ => ends_require hf fun _ => ?_
        exact ends_require hf fun hdisabled => absurd hdisabled (by decide)
      · have hpush : getOp [b] = (none,[]) := by
          have hall : ∀ b : UInt8, 1 ≤ b → b ≤ 16 → getOp [b] = (none,[]) :=
            forall_opcode (by decide +kernel)
          exact hall b hge hle
        rw [env.evalFrom_none (List.cons_ne_nil b []) hpush]
        exact ends_throw.mpr rfl
  unfold ScriptEnv.evalScript
  exact ends_require hf fun _ => (hfrom _).bind fun _ _ h => h.elim

/-- The top of the stack is the data of the last push, unless this was a small number. -/
def Tip (data : Valtype) : List Valtype → Prop
  | [] => True
  | vch :: _ => vch = data ∨ idle vch = true

def Instruction.leavesIdle : Instruction → Bool
  | .value k => idle (CScriptNum.serialize k)
  | .unknown => true
  | _ => false

theorem instruction_leavesIdle {opcode : UInt8} (h : OP_PUSHDATA4 < opcode) (hle : ¬OP_16 < opcode) :
    (instruction opcode).leavesIdle = true := by
  have hall : ∀ opcode : UInt8, OP_PUSHDATA4 < opcode → ¬OP_16 < opcode →
      (instruction opcode).leavesIdle = true := forall_opcode (by decide +kernel)
  exact hall opcode h hle

theorem step_push (hexec : m.vfExec = []) (hop : ¬OP_16 < op.opcode) :
    Ends (fun _ _ => True) (env.step op pc m) n fun m' _ => m'.vfExec = [] ∧ Tip op.data m'.stack := by
  have hf : ∀ n, Allows env (fun _ _ => True) n := fun _ _ _ => trivial
  unfold ScriptEnv.step
  refine ends_require (hf n) fun _ => ends_require (hf n) fun _ => ends_require (hf n) fun _ => ?_
  have htrue : ∀ nOpCount, ScriptEnv.fExec { m with nOpCount := nOpCount } = true := fun _ => by
    unfold ScriptEnv.fExec
    rw [hexec]
    rfl
  unfold ScriptEnv.dispatch
  rw [htrue,Bool.true_and,Bool.true_or,if_pos rfl]
  by_cases hpush : op.opcode ≤ OP_PUSHDATA4
  · rw [decide_eq_true hpush,if_pos rfl,bind_assoc]
    refine ends_require (hf n) fun _ => ends_require (hf n) fun _ => ends_pure.mpr ⟨hexec,.inl rfl⟩
  · have hidle := instruction_leavesIdle (UInt8.not_le.mp hpush) hop
    rw [decide_eq_false hpush,if_neg Bool.false_ne_true]
    cases hi : instruction op.opcode with
    | value value =>
      rw [hi] at hidle
      exact ends_require (hf n) fun _ => ends_pure.mpr ⟨hexec,.inr hidle⟩
    | unknown => exact trivial
    | _ =>
      rw [hi] at hidle
      exact absurd hidle Bool.false_ne_true

/-- A script of pushes leaves what the count of a pay-to-script-hash output looks at. -/
theorem evalScript_pushes {script : CScript} (h : isPushOnly script = true) :
    Ends (fun _ _ => True) (env.evalScript [] script) n
      fun stack _ => ∃ data, lastPush [] script = some data ∧ Tip data stack := by
  have hf : ∀ n, Allows env (fun _ _ => True) n := fun _ _ _ => trivial
  have hstart : Tip [] (Machine.stack ⟨[],[],[],0,script⟩) := trivial
  unfold ScriptEnv.evalScript
  refine ends_require (hf n) fun _ => ?_
  refine (evalFrom_ends (fun pc m _ => isPushOnly pc = true ∧ m.vfExec = [] ∧
    ∃ data, Tip data m.stack ∧ lastPush data pc = lastPush [] script) (fun _ _ _ _ => trivial)
    (fun op pc rest m n hop hinv => ?_) ⟨h,rfl,[],hstart,rfl⟩).bind fun m n' hinv => ?_
  · obtain ⟨hpush,hexec,data,-,hlast⟩ := hinv
    obtain ⟨hsmall,hrest⟩ := isPushOnly_some hop hpush
    rw [lastPush_some hop hsmall] at hlast
    exact (step_push hexec hsmall).mono fun m' _ h => ⟨hrest,h.1,op.data,h.2,hlast⟩
  · obtain ⟨-,-,data,htip,hlast⟩ := hinv
    refine ends_require (hf n') fun _ => ends_pure.mpr ⟨data,?_,htip⟩
    rw [← hlast]
    unfold lastPush
    rw [if_pos rfl]

theorem requireTrue_ends {fail : ScriptFailure → Nat → Prop} (hf : Allows env fail n)
    (stack : List Valtype) : Ends fail (ScriptEnv.requireTrue stack) n fun _ n' => n' = n := by
  cases stack with
  | nil => exact hf.error .evalFalse
  | cons vch stack => exact ends_last (ends_require hf fun _ => ends_pure.mpr rfl)

/-- The script that a pay-to-script-hash output commits to. -/
theorem verifyRedeemScript_calls {scriptPubKey scriptSig : CScript} {stackCopy : List Valtype}
    (hp2sh : CScript.isPayToScriptHash scriptPubKey = true) (hstack : Loaded stackCopy)
    (htip : isPushOnly scriptSig = true →
      ∃ data, lastPush [] scriptSig = some data ∧ Tip data stackCopy) :
    Ends (fun _ n' => n' ≤ n+getSigOpCountOf scriptPubKey scriptSig)
      (env.verifyRedeemScript scriptSig stackCopy) n
      fun _ n' => n' ≤ n+getSigOpCountOf scriptPubKey scriptSig := by
  have hf : ∀ n', n' ≤ n+getSigOpCountOf scriptPubKey scriptSig →
      Allows env (fun _ n' => n' ≤ n+getSigOpCountOf scriptPubKey scriptSig) n' :=
    fun _ hn' _ _ => hn'
  unfold ScriptEnv.verifyRedeemScript
  refine ends_require (hf n (Nat.le_add_right _ _)) fun hpush => ?_
  obtain ⟨data,hlast,htip⟩ := htip hpush
  have hcount : getSigOpCountOf scriptPubKey scriptSig = getSigOpCount data true := by
    unfold getSigOpCountOf
    rw [if_pos hp2sh,hlast]
  cases stackCopy with
  | nil => exact ends_throw.mpr (Nat.le_add_right _ _)
  | cons vch stackCopy =>
    have heval : Ends (fun _ n' => n' ≤ n+getSigOpCountOf scriptPubKey scriptSig)
        (env.evalScript stackCopy vch) n
        fun _ n' => n' ≤ n+getSigOpCountOf scriptPubKey scriptSig := by
      rcases htip with rfl | hidle
      · rw [hcount]
        exact (evalScript_calls hstack.tail vch).mono fun _ _ h => h.2
      · exact (evalScript_idle hidle stackCopy).weaken (fun _ n' h => by omega) fun _ _ h => h.elim
    refine heval.bind fun stack n' hn' => ?_
    refine (requireTrue_ends (hf n' hn') stack).mono fun _ n'' h => ?_
    rw [h]
    exact hn'

/-- The number of signatures checked by a computation, also by one that fails. -/
def ScriptM.calls {α : Type} (x : ScriptM α) : Nat :=
  match x 0 with
  | .ok _ n => n
  | .error _ n => n

theorem calls_le {α : Type} {x : ScriptM α} {bound : Nat}
    (h : Ends (fun _ n => n ≤ bound) x 0 fun _ n => n ≤ bound) : ScriptM.calls x ≤ bound := by
  unfold ScriptM.calls
  unfold Ends at h
  cases hx : x 0 with
  | ok a n =>
    rw [hx] at h
    exact h
  | error e n =>
    rw [hx] at h
    exact h

/-- The bound on the signatures that `VerifyScript` checks, with and without the rule for
pay-to-script-hash. -/
def sigOpsOf (fP2SH : Bool) (scriptSig scriptPubKey : CScript) : Nat :=
  getSigOpCount scriptSig true+getSigOpCount scriptPubKey true+
    if fP2SH && CScript.isPayToScriptHash scriptPubKey then getSigOpCountOf scriptPubKey scriptSig
    else 0

theorem verifyScript_ends (scriptSig scriptPubKey : CScript) :
    Ends (fun _ n' => n' ≤ n+sigOpsOf (env.hasFlag SCRIPT_VERIFY_P2SH) scriptSig scriptPubKey)
      (env.verifyScript scriptSig scriptPubKey) n
      fun _ n' => n' ≤ n+sigOpsOf (env.hasFlag SCRIPT_VERIFY_P2SH) scriptSig scriptPubKey := by
  generalize hbound : n+sigOpsOf (env.hasFlag SCRIPT_VERIFY_P2SH) scriptSig scriptPubKey = bound
  unfold sigOpsOf at hbound
  have hf : ∀ n', n' ≤ bound → Allows env (fun _ n' => n' ≤ bound) n' := fun _ hn' _ _ => hn'
  have hpushes : Ends (fun _ _ => True) (env.evalScript [] scriptSig) n fun stack _ =>
      isPushOnly scriptSig = true → ∃ data, lastPush [] scriptSig = some data ∧ Tip data stack := by
    by_cases hpush : isPushOnly scriptSig = true
    · exact (evalScript_pushes hpush).mono fun _ _ h _ => h
    · exact ends_of_forall (fun _ _ => trivial) fun _ _ h => absurd h hpush
  unfold ScriptEnv.verifyScript
  refine ends_require (hf n (by omega)) fun _ => ?_
  refine (((evalScript_calls Loaded.nil scriptSig).and hpushes).weaken (fun _ n' h => by omega)
    fun _ _ h => h).bind fun stackCopy n1 h1 => ?_
  obtain ⟨⟨hloaded,hn1⟩,htip⟩ := h1
  refine ((evalScript_calls hloaded scriptPubKey).weaken (fun _ n' h => by omega)
    fun _ _ h => h).bind fun stack n2 h2 => ?_
  obtain ⟨-,hn2⟩ := h2
  refine (requireTrue_ends (hf n2 (by omega)) stack).bind fun _ n3 hn3 => ?_
  subst hn3
  refine Ends.ite (fun hp2sh => ?_) fun _ => ends_pure.mpr (by omega)
  have hhash : CScript.isPayToScriptHash scriptPubKey = true := (Bool.and_eq_true_iff.mp hp2sh).2
  rw [if_pos hp2sh] at hbound
  exact (verifyRedeemScript_calls hhash hloaded htip).weaken (fun _ n' h => by omega)
    fun _ n' h => by omega

theorem verifyScript_calls (scriptSig scriptPubKey : CScript) :
    ScriptM.calls (env.verifyScript scriptSig scriptPubKey) ≤
      sigOpsOf (env.hasFlag SCRIPT_VERIFY_P2SH) scriptSig scriptPubKey := by
  refine calls_le ?_
  have h : Ends _ (env.verifyScript scriptSig scriptPubKey) 0 _ :=
    verifyScript_ends scriptSig scriptPubKey
  rw [Nat.zero_add] at h
  exact h

end Calls

/-- The operand of an instruction is part of the script. -/
theorem getOp_data_length {pc rest : CScript} {op : Op} (h : getOp pc = (some op,rest)) :
    op.data.length+rest.length ≤ pc.length := by
  rcases getOp_cases h with ⟨-,hscript,hdata⟩ | ⟨-,size,-,-,hscript⟩
  · rw [hscript,hdata,List.length_cons,List.length_nil]
    omega
  · rw [hscript,List.length_cons,List.length_append,List.length_append]
    omega

theorem lastPush_length {data last : Valtype} {pc : CScript} (h : lastPush data pc = some last) :
    last.length ≤ data.length+pc.length := by
  induction hlen : pc.length using Nat.strong_induction_on generalizing data pc with
  | _ len ih =>
    by_cases hpc : pc = []
    · unfold lastPush at h
      rw [if_pos hpc] at h
      rw [Option.some.inj h]
      omega
    · unfold lastPush at h
      rw [if_neg hpc] at h
      split at h
      · contradiction
      · rename_i op rest hop
        have hdata := getOp_data_length hop
        split at h
        · contradiction
        · have hlast := ih rest.length (hlen ▸ getOp_length hop) h rfl
          omega

theorem getSigOpCountOf_le {scriptPubKey : CScript} (h : CScript.isPayToScriptHash scriptPubKey = true)
    (scriptSig : CScript) : getSigOpCountOf scriptPubKey scriptSig ≤ 20*scriptSig.length := by
  unfold getSigOpCountOf
  rw [if_pos h]
  cases hlast : lastPush [] scriptSig with
  | none => exact Nat.zero_le _
  | some data =>
    have hlen := lastPush_length hlast
    have hcount := sigOpsFrom_le true OP_INVALIDOPCODE data
    rw [List.length_nil] at hlen
    show getSigOpCount data true ≤ _
    unfold getSigOpCount
    omega

end Anoncoin
