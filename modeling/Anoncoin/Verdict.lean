import Anoncoin.ScriptBuilder
import Anoncoin.SignatureHash

/-!
`VerifyScript` does not depend on how the signature hash treats scripts that do not parse:
where such a script could be hashed, the evaluation fails at its end in any case.
-/

set_option autoImplicit false

namespace Anoncoin
open Lib

/-- A push is read as one instruction. -/
theorem getOp_pushData {vch : Valtype} (h : Small vch) (rest : CScript) :
    ∃ op, getOp (pushData vch ++ rest) = (some op,rest) ∧ op.data = vch ∧
      ¬OP_PUSHDATA4 < op.opcode := by
  have hlen : vch.length ≤ 520 := h
  have hwritten := written_pushData (show vch.length < 2^32 by omega)
  exact ⟨_,hwritten.getOp rest,rfl,pushOpcode_small _⟩

/-- Deleting a push from a script that parses leaves one that parses. -/
theorem Parses.deleteFrom {b : UInt8} {bs : List UInt8}
    (hpush : ∀ rest, ∃ op, getOp (b :: bs ++ rest) = (some op,rest)) {pc : CScript} (h : Parses pc) :
    Parses (deleteFrom b bs pc) := by
  induction h with
  | nil =>
    rw [deleteFrom_nil]
    exact .nil
  | @op pc rest op hop _ ih =>
    by_cases hpre : (b :: bs) <+: pc
    · obtain ⟨tail,rfl⟩ := hpre
      obtain ⟨op',hop'⟩ := hpush tail
      obtain ⟨-,rfl⟩ := Prod.mk.inj (hop'.symm.trans hop)
      rw [deleteFrom_match]
      exact ih
    · rw [deleteFrom_some hpre hop]
      obtain ⟨bytes,-,rfl,hread⟩ := getOp_eq_some hop
      rw [consumed_append]
      exact .op (hread _) ih

theorem Parses.findAndDelete {vch : Valtype} (hsmall : Small vch) {script : CScript}
    (h : Parses script) : Parses (findAndDelete script (pushData vch)) := by
  have hpush (rest : CScript) : ∃ op, getOp (pushData vch ++ rest) = (some op,rest) := by
    obtain ⟨op,hop,-,-⟩ := getOp_pushData hsmall rest
    exact ⟨op,hop⟩
  unfold Anoncoin.findAndDelete
  split
  · exact h
  · rename_i heq
    rw [heq] at hpush
    exact h.deleteFrom hpush

/-- Two checkers that answer alike for the scripts that parse. -/
def Agree (checkSig checkSig' : SignatureChecker) : Prop :=
  ∀ n vchSig vchPubKey scriptCode, Parses scriptCode →
    checkSig n vchSig vchPubKey scriptCode = checkSig' n vchSig vchPubKey scriptCode

section Lockstep
variable {env : ScriptEnv} {checkSig : SignatureChecker} {α : Type} {stack : List Valtype}

/-- The same machine with another checker. -/
def ScriptEnv.withChecker (env : ScriptEnv) (checkSig : SignatureChecker) : ScriptEnv :=
  { env with checkSig := checkSig }

theorem stacktop_congr {i : Nat} {f g : Valtype → ScriptM α} (h : ∀ vch ∈ stack, f vch = g vch) :
    (stacktop stack i >>= f) = (stacktop stack i >>= g) := by
  unfold stacktop
  cases hget : stack[i-1]? with
  | none => rfl
  | some vch => exact h vch (List.mem_of_getElem? hget)

theorem checkPair_congr (h : Agree env.checkSig checkSig) {scriptCode : CScript}
    (hcode : Parses scriptCode) (vchSig vchPubKey : Valtype) :
    env.checkPair vchSig vchPubKey scriptCode =
      (env.withChecker checkSig).checkPair vchSig vchPubKey scriptCode := by
  have hcall : env.callCheckSig vchSig vchPubKey scriptCode =
      (env.withChecker checkSig).callCheckSig vchSig vchPubKey scriptCode := by
    funext n
    unfold ScriptEnv.callCheckSig
    rw [h n vchSig vchPubKey scriptCode hcode]
    rfl
  unfold ScriptEnv.checkPair
  rw [hcall]
  rfl

theorem dropSignatures_congr (hs : AllSmall stack) {f g : CScript → ScriptM α}
    (h : ∀ scriptCode, Parses scriptCode → f scriptCode = g scriptCode) {scriptCode : CScript}
    (hcode : Parses scriptCode) (nSigsCount isig : Nat) :
    (ScriptEnv.dropSignatures stack nSigsCount isig scriptCode >>= f) =
      (ScriptEnv.dropSignatures stack nSigsCount isig scriptCode >>= g) := by
  induction nSigsCount generalizing isig scriptCode with
  | zero => exact h scriptCode hcode
  | succ nSigsCount ih =>
    unfold ScriptEnv.dropSignatures
    rw [bind_assoc,bind_assoc]
    exact stacktop_congr fun vchSig hsig => ih (hcode.findAndDelete (hs vchSig hsig)) (isig+1)

theorem checkKeys_congr (h : Agree env.checkSig checkSig) {scriptCode : CScript}
    (hcode : Parses scriptCode) (nKeysCount nSigsCount isig ikey : Nat) :
    env.checkKeys stack scriptCode nKeysCount nSigsCount isig ikey =
      (env.withChecker checkSig).checkKeys stack scriptCode nKeysCount nSigsCount isig ikey := by
  induction nKeysCount generalizing nSigsCount isig ikey with
  | zero =>
    cases nSigsCount with
    | zero => rfl
    | succ nSigsCount =>
      unfold ScriptEnv.checkKeys
      simp only [checkPair_congr h hcode]
  | succ nKeysCount ih =>
    cases nSigsCount with
    | zero => rfl
    | succ nSigsCount =>
      unfold ScriptEnv.checkKeys
      simp only [checkPair_congr h hcode,ih]

theorem execCheckSig_congr (h : Agree env.checkSig checkSig) {m : Machine} (hs : AllSmall m.stack)
    (hcode : Parses m.pbegincodehash) (verify : Bool) :
    env.execCheckSig verify m = (env.withChecker checkSig).execCheckSig verify m := by
  unfold ScriptEnv.execCheckSig
  refine congrArg (need m.stack 2 >>= ·) (funext fun _ => stacktop_congr fun vchSig hsig => ?_)
  refine stacktop_congr fun vchPubKey _ => ?_
  simp only [checkPair_congr h (hcode.findAndDelete (hs vchSig hsig))]

theorem execCheckMultiSig_congr (h : Agree env.checkSig checkSig) {m : Machine}
    (hs : AllSmall m.stack) (hcode : Parses m.pbegincodehash) (verify : Bool) :
    env.execCheckMultiSig verify m = (env.withChecker checkSig).execCheckMultiSig verify m := by
  unfold ScriptEnv.execCheckMultiSig
  refine congrArg (env.multiSigCounts m >>= ·) (funext fun counts => ?_)
  refine dropSignatures_congr hs (fun scriptCode hparses => ?_) hcode _ _
  rw [checkKeys_congr h hparses]
  rfl

/-- A case of the switch depends on the checker only for scripts that parse. -/
theorem exec_congr (h : Agree env.checkSig checkSig) {m : Machine} (hs : AllSmall m.stack)
    (hcode : Parses m.pbegincodehash) (fExec : Bool) (pc : CScript) (i : Instruction) :
    env.exec fExec pc m i = (env.withChecker checkSig).exec fExec pc m i := by
  cases i with
  | control op => cases op <;> rfl
  | stack op => cases op <;> rfl
  | hash op => cases op <;> rfl
  | checkSig verify => exact execCheckSig_congr h hs hcode verify
  | checkMultiSig verify => exact execCheckMultiSig_congr h hs hcode verify
  | _ => rfl

theorem dispatch_congr (h : Agree env.checkSig checkSig) {m : Machine} (hs : AllSmall m.stack)
    (hcode : Parses m.pbegincodehash) (op : Op) (pc : CScript) :
    env.dispatch op pc m = (env.withChecker checkSig).dispatch op pc m := by
  unfold ScriptEnv.dispatch
  rw [exec_congr h hs hcode]
  rfl

theorem step_congr (h : Agree env.checkSig checkSig) {m : Machine} (hs : AllSmall m.stack)
    (hcode : Parses m.pbegincodehash) (op : Op) (pc : CScript) :
    env.step op pc m = (env.withChecker checkSig).step op pc m := by
  have hdispatch : ∀ nOpCount, env.dispatch op pc { m with nOpCount := nOpCount } =
      (env.withChecker checkSig).dispatch op pc { m with nOpCount := nOpCount } :=
    fun nOpCount => dispatch_congr (m := { m with nOpCount := nOpCount }) h hs hcode op pc
  unfold ScriptEnv.step
  simp only [hdispatch]

/-- The loop over a script that parses runs in lockstep. -/
theorem evalFrom_congr (h : Agree env.checkSig checkSig) {pc : CScript} (hpc : Parses pc)
    {m : Machine} (hm : m.Limited) (hcode : Parses m.pbegincodehash) (n : Nat) :
    env.evalFrom pc m n = (env.withChecker checkSig).evalFrom pc m n := by
  induction hpc generalizing m n with
  | nil => rw [ScriptEnv.evalFrom_nil,ScriptEnv.evalFrom_nil]
  | @op pc rest op hop hrest ih =>
    have hf : AllowsUpTo env (fun _ _ => True) n (ScriptEnv.stepCost op m) :=
      fun _ _ _ _ _ => trivial
    rw [env.evalFrom_some hop,(env.withChecker checkSig).evalFrom_some hop,
      ← step_congr h hm.small hcode]
    show EStateM.bind _ _ n = EStateM.bind _ _ n
    unfold EStateM.bind
    cases hstep : env.step op rest m n with
    | error e n' => rfl
    | ok m' n' =>
      obtain ⟨hsteps,-⟩ := (step_ends hf hm).result hstep
      refine ih hsteps.limited ?_ n'
      rcases hsteps.code with hsame | hmoved
      · rw [hsame]
        exact hcode
      · rw [hmoved]
        exact hrest

/-- A script that does not parse fails, if not earlier then where it stops parsing. -/
theorem evalFrom_fails {pc : CScript} (hpc : ¬Parses pc) (m : Machine) (n : Nat) :
    Fails (env.evalFrom pc m) n := by
  refine (evalFrom_ends (fun pc _ _ => ¬Parses pc) (fun _ _ _ _ => trivial)
    (fun op pc rest m n hop hinv => ?_) hpc).mono fun _ _ hend => hend .nil
  exact ends_of_forall (fun _ _ => trivial) fun _ _ hrest => hinv (.op hop hrest)

theorem evalScript_alike (h : Agree env.checkSig checkSig) (hstack : Loaded stack)
    (script : CScript) (n : Nat) :
    Alike (env.evalScript stack script) ((env.withChecker checkSig).evalScript stack script) n := by
  unfold ScriptEnv.evalScript
  refine (Alike.refl _ n).bind fun _ n' _ => ?_
  refine Alike.bind ?_ fun m n' _ => Alike.refl _ n'
  by_cases hparses : Parses script
  · exact .inl (evalFrom_congr h hparses (hstack.start script) hparses n')
  · exact .inr ⟨evalFrom_fails hparses _ n',evalFrom_fails hparses _ n'⟩

theorem verifyRedeemScript_alike (h : Agree env.checkSig checkSig) (hstack : Loaded stack)
    (scriptSig : CScript) (n : Nat) :
    Alike (env.verifyRedeemScript scriptSig stack)
      ((env.withChecker checkSig).verifyRedeemScript scriptSig stack) n := by
  unfold ScriptEnv.verifyRedeemScript
  refine (Alike.refl _ n).bind fun _ n' _ => ?_
  cases stack with
  | nil => exact Alike.refl _ n'
  | cons vch stack =>
    exact (evalScript_alike h hstack.tail vch n').bind fun stack n'' _ => Alike.refl _ n''

theorem verifyScript_alike (h : Agree env.checkSig checkSig) (scriptSig scriptPubKey : CScript)
    (n : Nat) :
    Alike (env.verifyScript scriptSig scriptPubKey)
      ((env.withChecker checkSig).verifyScript scriptSig scriptPubKey) n := by
  have hflag : (env.withChecker checkSig).hasFlag SCRIPT_VERIFY_P2SH =
      env.hasFlag SCRIPT_VERIFY_P2SH := rfl
  unfold ScriptEnv.verifyScript
  rw [hflag]
  refine Alike.bind (.inl rfl) fun _ n' _ => ?_
  refine (evalScript_alike h .nil scriptSig n').bind fun stackCopy n1 hcopy => ?_
  have hloaded := (evalScript_expected .nil).result hcopy
  refine (evalScript_alike h hloaded scriptPubKey n1).bind fun stack n2 _ => ?_
  refine (Alike.refl _ n2).bind fun _ n3 _ => ?_
  by_cases hp2sh : (env.hasFlag SCRIPT_VERIFY_P2SH && CScript.isPayToScriptHash scriptPubKey) = true
  · rw [if_pos hp2sh,if_pos hp2sh]
    exact verifyRedeemScript_alike h hloaded scriptSig n3
  · rw [if_neg hp2sh,if_neg hp2sh]
    exact Alike.refl _ n3

end Lockstep

theorem accepts_of_fails {x : ScriptM Unit} (h : Fails x 0) : x.accepts = false := by
  unfold Fails Ends at h
  unfold ScriptM.accepts
  cases hx : x 0 with
  | ok a n =>
    rw [hx] at h
    exact h.elim
  | error e n => rfl

theorem accepts_of_alike {x y : ScriptM Unit} (h : Alike x y 0) : x.accepts = y.accepts := by
  rcases h with heq | ⟨hx,hy⟩
  · unfold ScriptM.accepts
    rw [heq]
  · rw [accepts_of_fails hx,accepts_of_fails hy]

theorem agree_signatureHash (hash : List UInt8 → Uint256)
    (verifySignature : Valtype → Valtype → Uint256 → Bool) (txTo : CTransaction) (nIn : Nat) :
    Agree (transactionChecker (fun code t => signatureHash hash code txTo nIn t) verifySignature)
      (transactionChecker (fun code t => signatureHashOld hash code txTo nIn t) verifySignature) := by
  intro n vchSig vchPubKey scriptCode hcode
  unfold transactionChecker signatureHash signatureHashOld
  simp only [preimage_parses hcode]

/-- The transaction checker with either signature hash. -/
def checkerEnv (flags : Nat) (hashes : ScriptHashes) (sighash : CScript → UInt32 → Uint256)
    (verifySignature : Valtype → Valtype → Uint256 → Bool) : ScriptEnv :=
  ⟨flags,hashes,transactionChecker sighash verifySignature⟩

/-- Hashing in place gives every script the verdict that hashing a blanked copy gives it, and
the same bytes for every script that parses. -/
theorem verifyScript_signatureHash (flags : Nat) (hashes : ScriptHashes)
    (hash : List UInt8 → Uint256) (verifySignature : Valtype → Valtype → Uint256 → Bool)
    (txTo : CTransaction) (nIn : Nat) :
    (∀ scriptSig scriptPubKey : CScript,
      ((checkerEnv flags hashes (fun code t => signatureHash hash code txTo nIn t)
        verifySignature).verifyScript scriptSig scriptPubKey).accepts =
      ((checkerEnv flags hashes (fun code t => signatureHashOld hash code txTo nIn t)
        verifySignature).verifyScript scriptSig scriptPubKey).accepts) ∧
    (∀ scriptCode : CScript, Parses scriptCode → ∀ nHashType : UInt32,
      signaturePreimage scriptCode txTo nIn nHashType =
        signaturePreimageOld scriptCode txTo nIn nHashType) ∧
    ∀ (scriptCode : CScript) (nHashType : UInt32), txTo.vin.length ≤ nIn ∨
        (nHashType &&& 0x1f = SIGHASH_SINGLE ∧ txTo.vout.length ≤ nIn) →
      signatureHash hash scriptCode txTo nIn nHashType = 1 ∧
        signatureHashOld hash scriptCode txTo nIn nHashType = 1 := by
  refine ⟨fun scriptSig scriptPubKey => ?_,fun scriptCode hcode nHashType =>
    preimage_parses hcode txTo nIn nHashType,fun scriptCode nHashType hrange => ?_⟩
  · exact accepts_of_alike (verifyScript_alike
      (agree_signatureHash hash verifySignature txTo nIn) scriptSig scriptPubKey 0)
  · have hnew : signaturePreimage scriptCode txTo nIn nHashType = none := by
      unfold signaturePreimage
      rcases hrange with hin | hout
      · rw [if_pos hin]
      · rw [if_pos hout,ite_self]
    have hold : signaturePreimageOld scriptCode txTo nIn nHashType = none := by
      unfold signaturePreimageOld
      rcases hrange with hin | ⟨hsingle,hout⟩
      · rw [if_pos hin]
      · have hnone : ¬nHashType &&& 0x1f = SIGHASH_NONE := by
          rw [hsingle]
          decide
        simp only
        rw [if_pos hsingle,if_pos hout,if_neg hnone,ite_self]
    unfold signatureHash signatureHashOld
    rw [hnew,hold]
    exact ⟨rfl,rfl⟩

end Anoncoin
