import Anoncoin.EvalScript

/-!
What an instruction of the script machine can do: which failures it ends with, how many
signatures it checks, and how it keeps the stacks within their limits.
-/

set_option autoImplicit false

namespace Anoncoin
open Lib

/-- The failures that are no fault of the machine: an error it reports, a number it refuses,
and the assertion against a flag that it does not support. -/
def Expected (env : ScriptEnv) (e : ScriptFailure) : Prop :=
  (∃ serror, e = .error serror) ∨ e = .scriptnumError ∨
    (e = .assertion ∧ env.hasFlag SCRIPT_VERIFY_LOW_S = true)

/-- The expected failures are allowed while so many signatures have been checked. -/
def Allows (env : ScriptEnv) (fail : ScriptFailure → Nat → Prop) (n : Nat) : Prop :=
  ∀ e, Expected env e → fail e n

theorem Allows.error {env : ScriptEnv} {fail : ScriptFailure → Nat → Prop} {n : Nat}
    (h : Allows env fail n) (serror : ScriptError) : fail (.error serror) n :=
  h _ (.inl ⟨serror,rfl⟩)

def Small (vch : Valtype) : Prop := vch.length ≤ MAX_SCRIPT_ELEMENT_SIZE

/-- Every element of a stack is small. -/
def AllSmall (stack : List Valtype) : Prop := ∀ vch ∈ stack, Small vch

theorem AllSmall.cons {vch : Valtype} {stack : List Valtype} (h : Small vch) (hs : AllSmall stack) :
    AllSmall (vch :: stack) := by
  intro v hv
  rcases List.mem_cons.mp hv with rfl | hv
  · exact h
  · exact hs v hv

theorem AllSmall.sub {stack stack' : List Valtype} (hs : AllSmall stack)
    (hsub : ∀ v ∈ stack', v ∈ stack) : AllSmall stack' := fun v hv => hs v (hsub v hv)

theorem AllSmall.tail {stack : List Valtype} (hs : AllSmall stack) : AllSmall stack.tail :=
  hs.sub fun _ hv => List.mem_of_mem_tail hv

theorem small_vchOf (f : Bool) : Small (vchOf f) := by
  unfold Small
  cases f <;> decide

theorem small_serialize {value : Int} (h : value.natAbs < 256^8) :
    Small (CScriptNum.serialize value) :=
  Nat.le_trans (CScriptNum.length_serialize h) (by decide)

section Rules
variable {env : ScriptEnv} {fail : ScriptFailure → Nat → Prop} {n : Nat} {α : Type}
  {stack : List Valtype} {post : α → Nat → Prop}

theorem ends_require (hf : Allows env fail n) {p : Bool} {serror : ScriptError}
    {f : Unit → ScriptM α} (h : p = true → Ends fail (f ()) n post) :
    Ends fail (require p serror >>= f) n post := by
  cases p with
  | false => exact hf.error serror
  | true => exact h rfl

theorem ends_need (hf : Allows env fail n) {k : Nat} {f : Unit → ScriptM α}
    (h : k ≤ stack.length → Ends fail (f ()) n post) :
    Ends fail (need stack k >>= f) n post := by
  unfold need
  split
  · exact hf.error .invalidStackOperation
  · rename_i hlen
    exact h (Nat.le_of_not_lt hlen)

theorem ends_stacktop {i : Nat} {f : Valtype → ScriptM α} (hi : i-1 < stack.length)
    (h : ∀ vch ∈ stack, stack[i-1]? = some vch → Ends fail (f vch) n post) :
    Ends fail (stacktop stack i >>= f) n post := by
  have hget := List.getElem?_eq_getElem hi
  unfold stacktop
  rw [hget]
  exact h stack[i-1] (List.getElem_mem hi) hget

theorem ends_popstack {f : List Valtype → ScriptM α} (hlen : 0 < stack.length)
    (h : Ends fail (f stack.tail) n post) : Ends fail (popstack stack >>= f) n post := by
  cases stack with
  | nil => exact absurd hlen (Nat.lt_irrefl 0)
  | cons v stack => exact h

theorem ends_popMany {k : Nat} {f : List Valtype → ScriptM α} (hlen : k ≤ stack.length)
    (h : Ends fail (f (stack.drop k)) n post) : Ends fail (popMany k stack >>= f) n post := by
  induction k generalizing stack with
  | zero => exact h
  | succ k ih =>
    cases stack with
    | nil => exact absurd hlen (Nat.not_succ_le_zero k)
    | cons v stack => exact ih (Nat.le_of_succ_le_succ hlen) h

theorem ends_eraseAt {i : Nat} {f : List Valtype → ScriptM α} (hi : 1 ≤ i)
    (hlen : i ≤ stack.length) (h : Ends fail (f (stack.eraseIdx (i-1))) n post) :
    Ends fail (eraseAt stack i >>= f) n post := by
  unfold eraseAt
  rw [if_pos ⟨hi,hlen⟩]
  exact h

theorem ends_insertAt {i : Nat} {vch : Valtype} {f : List Valtype → ScriptM α}
    (hlen : i ≤ stack.length) (h : Ends fail (f (stack.insertIdx i vch)) n post) :
    Ends fail (insertAt stack i vch >>= f) n post := by
  unfold insertAt
  rw [if_pos hlen]
  exact h

theorem ends_scriptNum (hf : Allows env fail n) {vch : Valtype} {f : Int → ScriptM α}
    (h : vch.length ≤ CScriptNum.nMaxNumSize →
      Ends fail (f (CScriptNum.setVch vch)) n post) :
    Ends fail (env.scriptNum vch >>= f) n post := by
  unfold ScriptEnv.scriptNum
  split_ifs with hlong hmin
  · exact hf _ (.inr (.inl rfl))
  · exact hf _ (.inr (.inl rfl))
  · exact h (Nat.le_of_not_lt hlong)

theorem ends_checked {value : Int} {f : Int → ScriptM α} (hval : value.natAbs < 2^63)
    (h : Ends fail (f value) n post) : Ends fail (ScriptEnv.checked value >>= f) n post := by
  unfold ScriptEnv.checked
  rw [if_pos (by omega)]
  exact h

theorem ends_last {x : ScriptM α} (h : Ends fail (x >>= pure) n post) : Ends fail x n post := by
  rw [bind_pure] at h
  exact h

theorem ends_swapAt {i j : Nat} {f : List Valtype → ScriptM α} (hi : i-1 < stack.length)
    (hj : j-1 < stack.length)
    (h : ∀ stack', stack'.length = stack.length → (AllSmall stack → AllSmall stack') →
      Ends fail (f stack') n post) : Ends fail (swapAt stack i j >>= f) n post := by
  unfold swapAt
  simp only [bind_assoc]
  refine ends_stacktop hi fun vch1 h1 _ => ends_stacktop hj fun vch2 h2 _ => ?_
  rw [pure_bind]
  refine h _ (by rw [List.length_set,List.length_set]) fun hs v hv => ?_
  rcases List.mem_or_eq_of_mem_set hv with hv | rfl
  · rcases List.mem_or_eq_of_mem_set hv with hv | rfl
    · exact hs v hv
    · exact hs v h2
  · exact hs v h1

theorem ends_verifyResult (hf : Allows env fail n) {verify fSuccess : Bool} {serror : ScriptError}
    {vch : Valtype} {f : List Valtype → ScriptM α} (hpop : Ends fail (f stack) n post)
    (hkeep : Ends fail (f (vch :: stack)) n post) :
    Ends fail (verifyResult verify fSuccess serror (vch :: stack) >>= f) n post := by
  cases verify with
  | false => exact hkeep
  | true =>
    cases fSuccess with
    | false => exact hf.error serror
    | true => exact hpop

end Rules

section Stack
variable {env : ScriptEnv} {fail : ScriptFailure → Nat → Prop} {n : Nat} {stack : List Valtype}

/-- A stack of small elements comes out, and no signature was checked. -/
def Settles (n : Nat) (stack : List Valtype) (n' : Nat) : Prop := AllSmall stack ∧ n' = n

theorem Settles.pure (hs : AllSmall stack) :
    Ends fail (pure stack : ScriptM (List Valtype)) n (Settles n) := ⟨hs,rfl⟩

theorem execPick_ends (hf : Allows env fail n) (hs : AllSmall stack) (roll : Bool) :
    Ends fail (env.execPick roll stack) n (Settles n) := by
  unfold ScriptEnv.execPick
  refine ends_need hf fun hlen => ?_
  refine ends_stacktop (by omega) fun top _ _ => ?_
  refine ends_scriptNum hf fun _ => ?_
  refine ends_popstack (by omega) ?_
  refine ends_require hf fun hrange => ?_
  have hidx : (CScriptNum.getint (CScriptNum.setVch top)).toNat < stack.tail.length := by
    simp only [Bool.not_eq_true',Bool.or_eq_false_iff,decide_eq_false_iff_not] at hrange
    omega
  refine ends_stacktop (by omega) fun vch hvch _ => ?_
  have hsmall := hs.tail vch hvch
  cases roll with
  | false => exact Settles.pure (hs.tail.cons hsmall)
  | true =>
    refine ends_eraseAt (by omega) (by omega) ?_
    exact Settles.pure ((hs.tail.sub fun v hv => List.mem_of_mem_eraseIdx hv).cons hsmall)

theorem execEqual_ends (hf : Allows env fail n) (hs : AllSmall stack) (verify : Bool) :
    Ends fail (ScriptEnv.execEqual verify stack) n (Settles n) := by
  unfold ScriptEnv.execEqual
  refine ends_need hf fun hlen => ?_
  refine ends_stacktop (by omega) fun vch1 _ _ => ends_stacktop (by omega) fun vch2 _ _ => ?_
  refine ends_popstack (by omega) (ends_popstack (by rw [List.length_tail]; omega) ?_)
  refine ends_last (ends_verifyResult hf ?_ ?_)
  · exact Settles.pure hs.tail.tail
  · exact Settles.pure (hs.tail.tail.cons (small_vchOf _))

theorem execStack_ends (hf : Allows env fail n) (hs : AllSmall stack) (hdepth : stack.length < 256^8)
    (op : StackOp) : Ends fail (env.execStack stack op) n (Settles n) := by
  cases op with
  | drop2 =>
    refine ends_need hf fun hlen => ends_popstack (by omega) ?_
    refine ends_last (ends_popstack (by rw [List.length_tail]; omega) ?_)
    exact Settles.pure hs.tail.tail
  | dup2 =>
    refine ends_need hf fun hlen => ?_
    refine ends_stacktop (by omega) fun vch1 h1 _ => ends_stacktop (by omega) fun vch2 h2 _ => ?_
    exact Settles.pure ((hs.cons (hs vch1 h1)).cons (hs vch2 h2))
  | dup3 =>
    refine ends_need hf fun hlen => ends_stacktop (by omega) fun vch1 h1 _ => ?_
    refine ends_stacktop (by omega) fun vch2 h2 _ => ends_stacktop (by omega) fun vch3 h3 _ => ?_
    exact Settles.pure (((hs.cons (hs vch1 h1)).cons (hs vch2 h2)).cons (hs vch3 h3))
  | over2 =>
    refine ends_need hf fun hlen => ?_
    refine ends_stacktop (by omega) fun vch1 h1 _ => ends_stacktop (by omega) fun vch2 h2 _ => ?_
    exact Settles.pure ((hs.cons (hs vch1 h1)).cons (hs vch2 h2))
  | rot2 =>
    refine ends_need hf fun hlen => ?_
    refine ends_stacktop (by omega) fun vch1 h1 _ => ends_stacktop (by omega) fun vch2 h2 _ => ?_
    refine ends_eraseAt (by omega) (by omega) (ends_eraseAt (by omega) ?_ ?_)
    · rw [List.length_eraseIdx_of_lt (by omega)]
      omega
    · have hrest : AllSmall ((stack.eraseIdx 5).eraseIdx 4) := hs.sub fun v hv =>
        List.mem_of_mem_eraseIdx (List.mem_of_mem_eraseIdx hv)
      exact Settles.pure ((hrest.cons (hs vch1 h1)).cons (hs vch2 h2))
  | swap2 =>
    refine ends_need hf fun hlen => ends_swapAt (by omega) (by omega) fun stack1 hlen1 hs1 => ?_
    refine ends_last (ends_swapAt (by omega) (by omega) fun stack2 _ hs2 => ?_)
    exact Settles.pure (hs2 (hs1 hs))
  | ifDup =>
    refine ends_need hf fun hlen => ends_stacktop (by omega) fun vch hvch _ => ?_
    cases hc : castToBool vch with
    | false => exact Settles.pure hs
    | true => exact Settles.pure (hs.cons (hs vch hvch))
  | depth => exact Settles.pure (hs.cons (small_serialize (by omega)))
  | drop =>
    refine ends_need hf fun hlen => ends_last (ends_popstack (by omega) ?_)
    exact Settles.pure hs.tail
  | dup =>
    refine ends_need hf fun hlen => ends_stacktop (by omega) fun vch hvch _ => ?_
    exact Settles.pure (hs.cons (hs vch hvch))
  | nip =>
    refine ends_need hf fun hlen => ends_last (ends_eraseAt (by omega) (by omega) ?_)
    exact Settles.pure (hs.sub fun v hv => List.mem_of_mem_eraseIdx hv)
  | «over» =>
    refine ends_need hf fun hlen => ends_stacktop (by omega) fun vch hvch _ => ?_
    exact Settles.pure (hs.cons (hs vch hvch))
  | pick => exact execPick_ends hf hs false
  | roll => exact execPick_ends hf hs true
  | rot =>
    refine ends_need hf fun hlen => ends_swapAt (by omega) (by omega) fun stack1 hlen1 hs1 => ?_
    refine ends_last (ends_swapAt (by omega) (by omega) fun stack2 _ hs2 => ?_)
    exact Settles.pure (hs2 (hs1 hs))
  | swap =>
    refine ends_need hf fun hlen => ?_
    refine ends_last (ends_swapAt (by omega) (by omega) fun stack1 _ hs1 => ?_)
    exact Settles.pure (hs1 hs)
  | tuck =>
    refine ends_need hf fun hlen => ends_stacktop (by omega) fun vch hvch _ => ?_
    refine ends_last (ends_insertAt hlen ?_)
    refine Settles.pure fun v hv => ?_
    rcases (List.mem_insertIdx hlen).mp hv with rfl | hv
    · exact hs v hvch
    · exact hs v hv
  | size =>
    refine ends_need hf fun hlen => ends_stacktop (by omega) fun vch hvch _ => ?_
    have hsmall : vch.length ≤ 520 := hs vch hvch
    exact Settles.pure (hs.cons (small_serialize (by omega)))
  | equal => exact execEqual_ends hf hs false
  | equalVerify => exact execEqual_ends hf hs true

theorem unaryResult_ends {bn : Int} (hbn : bn.natAbs < 256^4) (op : UnaryOp) :
    Ends fail (ScriptEnv.unaryResult bn op) n fun value n' => value.natAbs < 256^8 ∧ n' = n := by
  have hbool : ∀ f, (ScriptEnv.ofBool f).natAbs < 256^8 := by decide
  cases op with
  | add1 => exact ends_last (ends_checked (by omega) (ends_pure.mpr ⟨by omega,rfl⟩))
  | sub1 => exact ends_last (ends_checked (by omega) (ends_pure.mpr ⟨by omega,rfl⟩))
  | negate => exact ends_last (ends_checked (by omega) (ends_pure.mpr ⟨by omega,rfl⟩))
  | abs =>
    refine Ends.ite (fun _ => ?_) fun _ => ?_
    · exact ends_last (ends_checked (by omega) (ends_pure.mpr ⟨by omega,rfl⟩))
    · exact ends_pure.mpr ⟨by omega,rfl⟩
  | not => exact ends_pure.mpr ⟨hbool _,rfl⟩
  | notEqual0 => exact ends_pure.mpr ⟨hbool _,rfl⟩

theorem execUnary_ends (hf : Allows env fail n) (hs : AllSmall stack) (op : UnaryOp) :
    Ends fail (env.execUnary stack op) n (Settles n) := by
  unfold ScriptEnv.execUnary
  refine ends_need hf fun hlen => ends_stacktop (by omega) fun vch _ _ => ?_
  refine ends_scriptNum hf fun hshort => ?_
  refine (unaryResult_ends (CScriptNum.setVch_bound hshort) op).bind fun value n' hvalue => ?_
  obtain ⟨hbound,rfl⟩ := hvalue
  refine ends_popstack (by omega) ?_
  exact Settles.pure (hs.tail.cons (small_serialize hbound))

theorem binaryResult_ends {bn1 bn2 : Int} (h1 : bn1.natAbs < 256^4) (h2 : bn2.natAbs < 256^4)
    (op : BinaryOp) :
    Ends fail (ScriptEnv.binaryResult bn1 bn2 op) n fun value n' => value.natAbs < 256^8 ∧ n' = n := by
  have hbool : ∀ f, (ScriptEnv.ofBool f).natAbs < 256^8 := by decide
  cases op with
  | add => exact ends_last (ends_checked (by omega) (ends_pure.mpr ⟨by omega,rfl⟩))
  | sub => exact ends_last (ends_checked (by omega) (ends_pure.mpr ⟨by omega,rfl⟩))
  | min =>
    refine ends_pure.mpr ⟨?_,rfl⟩
    split <;> omega
  | max =>
    refine ends_pure.mpr ⟨?_,rfl⟩
    split <;> omega
  | _ => exact ends_pure.mpr ⟨hbool _,rfl⟩

theorem execBinary_ends (hf : Allows env fail n) (hs : AllSmall stack) (op : BinaryOp) :
    Ends fail (env.execBinary stack op) n (Settles n) := by
  unfold ScriptEnv.execBinary
  refine ends_need hf fun hlen => ?_
  refine ends_stacktop (by omega) fun vch1 _ _ => ends_stacktop (by omega) fun vch2 _ _ => ?_
  refine ends_scriptNum hf fun hshort1 => ends_scriptNum hf fun hshort2 => ?_
  refine (binaryResult_ends (CScriptNum.setVch_bound hshort1) (CScriptNum.setVch_bound hshort2)
    op).bind fun value n' hvalue => ?_
  obtain ⟨hbound,rfl⟩ := hvalue
  refine ends_popstack (by omega) (ends_popstack (by rw [List.length_tail]; omega) ?_)
  refine ends_last (ends_verifyResult hf ?_ ?_)
  · exact Settles.pure hs.tail.tail
  · exact Settles.pure (hs.tail.tail.cons (small_serialize hbound))

theorem execWithin_ends (hf : Allows env fail n) (hs : AllSmall stack) :
    Ends fail (env.execWithin stack) n (Settles n) := by
  unfold ScriptEnv.execWithin
  refine ends_need hf fun hlen => ends_stacktop (by omega) fun vch1 _ _ => ?_
  refine ends_stacktop (by omega) fun vch2 _ _ => ends_stacktop (by omega) fun vch3 _ _ => ?_
  refine ends_scriptNum hf fun _ => ends_scriptNum hf fun _ => ends_scriptNum hf fun _ => ?_
  refine ends_popMany hlen ?_
  exact Settles.pure ((hs.sub fun v hv => List.mem_of_mem_drop hv).cons (small_vchOf _))

theorem small_digest (vch : Valtype) (op : HashOp) : Small (env.digest vch op) := by
  unfold Small MAX_SCRIPT_ELEMENT_SIZE
  cases op with
  | ripemd160 =>
    have := env.hashes.length_ripemd160 vch
    exact (by omega : (env.hashes.ripemd160 vch).length ≤ 520)
  | sha1 =>
    have := env.hashes.length_sha1 vch
    exact (by omega : (env.hashes.sha1 vch).length ≤ 520)
  | sha256 =>
    have := env.hashes.length_sha256 vch
    exact (by omega : (env.hashes.sha256 vch).length ≤ 520)
  | hash160 =>
    have := env.hashes.length_hash160 vch
    exact (by omega : (env.hashes.hash160 vch).length ≤ 520)
  | hash256 =>
    have := env.hashes.length_hash256 vch
    exact (by omega : (env.hashes.hash256 vch).length ≤ 520)

theorem execHash_ends (hf : Allows env fail n) (hs : AllSmall stack) (op : HashOp) :
    Ends fail (env.execHash stack op) n (Settles n) := by
  unfold ScriptEnv.execHash
  refine ends_need hf fun hlen => ends_stacktop (by omega) fun vch _ _ => ?_
  refine ends_popstack (by omega) ?_
  exact Settles.pure (hs.tail.cons (small_digest vch op))

end Stack

/-- The number of keys that OP_CHECKMULTISIG finds on the stack. -/
def keysOnTop : List Valtype → Nat
  | [] => 0
  | vch :: _ => (CScriptNum.getint (CScriptNum.setVch vch)).toNat

/-- How many signatures an instruction can check. -/
def Instruction.sigCost (stack : List Valtype) : Instruction → Nat
  | .checkSig _ => 1
  | .checkMultiSig _ => min 20 (keysOnTop stack)
  | _ => 0

section Signatures
variable {env : ScriptEnv} {fail : ScriptFailure → Nat → Prop} {n : Nat} {α : Type}
  {stack : List Valtype} {post : α → Nat → Prop} {m : Machine}

/-- The expected failures are allowed while at most `k` more signatures have been checked. -/
def AllowsUpTo (env : ScriptEnv) (fail : ScriptFailure → Nat → Prop) (n k : Nat) : Prop :=
  ∀ n', n ≤ n' → n' ≤ n+k → Allows env fail n'

theorem AllowsUpTo.now {k : Nat} (hf : AllowsUpTo env fail n k) : Allows env fail n :=
  hf n (Nat.le_refl n) (Nat.le_add_right n k)

theorem ends_checkPair (hf : Allows env fail n) {vchSig vchPubKey : Valtype} {scriptCode : CScript}
    {f : Bool → ScriptM α} (h : ∀ fOk, Ends fail (f fOk) (n+1) post) :
    Ends fail (env.checkPair vchSig vchPubKey scriptCode >>= f) n post := by
  unfold ScriptEnv.checkPair
  simp only [bind_assoc]
  have henc : Ends fail (env.checkSignatureEncoding vchSig) n fun _ n' => n' = n := by
    unfold ScriptEnv.checkSignatureEncoding
    refine Ends.ite (fun _ => ends_pure.mpr rfl) fun _ => ?_
    refine Ends.ite (fun _ => hf.error .sigDer) fun _ => ?_
    refine Ends.ite (fun _ => hf.error .sigHashtype) fun _ => ?_
    exact Ends.ite (fun hlow => hf _ (.inr (.inr ⟨rfl,hlow⟩))) fun _ => ends_pure.mpr rfl
  refine henc.bind fun _ n' hn => ?_
  subst hn
  exact ends_require hf fun _ => h _

theorem execCheckSig_ends (hf : AllowsUpTo env fail n 1) (hs : AllSmall m.stack) (verify : Bool) :
    Ends fail (env.execCheckSig verify m) n fun m' n' =>
      ∃ stack, AllSmall stack ∧ m' = { m with stack := stack } ∧ n ≤ n' ∧ n' ≤ n+1 := by
  have hf1 : Allows env fail (n+1) := hf (n+1) (Nat.le_succ n) (Nat.le_refl _)
  unfold ScriptEnv.execCheckSig
  refine ends_need hf.now fun hlen => ends_stacktop (by omega) fun vchSig _ _ => ?_
  refine ends_stacktop (by omega) fun vchPubKey _ _ => ends_checkPair hf.now fun fSuccess => ?_
  refine ends_popstack (by omega) (ends_popstack (by rw [List.length_tail]; omega) ?_)
  have hn : n ≤ n+1 ∧ n+1 ≤ n+1 := ⟨Nat.le_succ n,Nat.le_refl _⟩
  refine ends_verifyResult hf1 ?_ ?_
  · exact ends_pure.mpr ⟨_,hs.tail.tail,rfl,hn⟩
  · exact ends_pure.mpr ⟨_,hs.tail.tail.cons (small_vchOf _),rfl,hn⟩

theorem dropSignatures_ends {nSigsCount isig : Nat} {scriptCode : CScript} {f : CScript → ScriptM α}
    (hpos : 0 < isig) (hlen : isig+nSigsCount ≤ stack.length+1)
    (h : ∀ scriptCode, Ends fail (f scriptCode) n post) :
    Ends fail (ScriptEnv.dropSignatures stack nSigsCount isig scriptCode >>= f) n post := by
  induction nSigsCount generalizing isig scriptCode with
  | zero => exact h scriptCode
  | succ nSigsCount ih =>
    unfold ScriptEnv.dropSignatures
    simp only [bind_assoc]
    refine ends_stacktop (by omega) fun vchSig _ _ => ?_
    exact ih (Nat.succ_pos isig) (by omega)

/-- The loop over the keys checks at most one signature for each key. -/
theorem checkKeys_ends {scriptCode : CScript} {nKeysCount nSigsCount isig ikey : Nat}
    (hf : AllowsUpTo env fail n nKeysCount) (hsigs : nSigsCount ≤ nKeysCount)
    (hsig : 0 < isig) (hsiglen : isig+nSigsCount ≤ stack.length+1)
    (hkey : 0 < ikey) (hkeylen : ikey+nKeysCount ≤ stack.length+1) :
    Ends fail (env.checkKeys stack scriptCode nKeysCount nSigsCount isig ikey) n
      fun _ n' => n ≤ n' ∧ n' ≤ n+nKeysCount := by
  induction nKeysCount generalizing n nSigsCount isig ikey with
  | zero =>
    obtain rfl : nSigsCount = 0 := Nat.le_zero.mp hsigs
    unfold ScriptEnv.checkKeys
    exact ends_pure.mpr ⟨Nat.le_refl n,Nat.le_refl n⟩
  | succ nKeysCount ih =>
    cases nSigsCount with
    | zero =>
      unfold ScriptEnv.checkKeys
      exact ends_pure.mpr ⟨Nat.le_refl n,Nat.le_add_right n _⟩
    | succ nSigsCount =>
      have hf1 : AllowsUpTo env fail (n+1) nKeysCount := fun n' hge hle =>
        hf n' (by omega) (by omega)
      have hdone : ∀ f : Bool, Ends fail (pure f : ScriptM Bool) (n+1)
          fun _ n' => n ≤ n' ∧ n' ≤ n+(nKeysCount+1) := fun f =>
        ends_pure.mpr ⟨Nat.le_succ n,by omega⟩
      have hmore : ∀ (_ : Bool) n', n+1 ≤ n' ∧ n' ≤ n+1+nKeysCount →
          n ≤ n' ∧ n' ≤ n+(nKeysCount+1) := fun _ n' hn => by omega
      unfold ScriptEnv.checkKeys
      refine ends_stacktop (by omega) fun vchSig _ _ => ends_stacktop (by omega) fun vchPubKey _ _ => ?_
      refine ends_checkPair hf.now fun fOk => ?_
      cases fOk with
      | true =>
        refine Ends.ite (fun _ => Ends.ite (fun _ => hdone false) fun hleft => ?_) (absurd rfl)
        exact (ih hf1 (by omega) (by omega) (by omega) (by omega) (by omega)).mono hmore
      | false =>
        refine Ends.ite (fun h => absurd h (by decide)) fun _ => ?_
        refine Ends.ite (fun _ => hdone false) fun hleft => ?_
        exact (ih hf1 (by omega) (by omega) (by omega) (by omega) (by omega)).mono hmore

/-- What the counts that OP_CHECKMULTISIG reads meet. -/
structure CountsFit (m : Machine) (nKeysCount nSigsCount : Nat) : Prop where
  top : nKeysCount = keysOnTop m.stack
  keys : nKeysCount ≤ 20
  ops : m.nOpCount+nKeysCount ≤ 201
  sigs : nSigsCount ≤ nKeysCount
  depth : 3+nKeysCount+nSigsCount ≤ m.stack.length

theorem ends_multiSigCounts (hf : Allows env fail n) {f : Nat × Nat → ScriptM α}
    (h : ∀ nKeysCount nSigsCount, CountsFit m nKeysCount nSigsCount →
      Ends fail (f (nKeysCount,nSigsCount)) n post) :
    Ends fail (env.multiSigCounts m >>= f) n post := by
  unfold ScriptEnv.multiSigCounts
  simp only [bind_assoc]
  refine ends_need hf fun hlen1 => ends_stacktop (by omega) fun vch _ hvch => ?_
  refine ends_scriptNum hf fun _ => ends_require hf fun hkeys => ?_
  have htop : keysOnTop m.stack = (CScriptNum.getint (CScriptNum.setVch vch)).toNat := by
    cases hstack : m.stack with
    | nil =>
      rw [hstack] at hlen1
      exact absurd hlen1 (by decide)
    | cons v stack =>
      rw [hstack] at hvch
      obtain rfl : v = vch := Option.some.inj hvch
      rfl
  refine ends_require hf fun hops => ends_need hf fun hlen2 => ?_
  refine ends_stacktop (by omega) fun vch2 _ _ => ends_scriptNum hf fun _ => ?_
  refine ends_require hf fun hsigs => ends_need hf fun hlen3 => ?_
  rw [pure_bind]
  simp only [Bool.not_eq_true',Bool.or_eq_false_iff,decide_eq_false_iff_not] at hkeys hops hsigs
  exact h _ _ ⟨htop.symm,by omega,by omega,by omega,hlen3⟩

theorem execCheckMultiSig_ends (hf : AllowsUpTo env fail n (min 20 (keysOnTop m.stack)))
    (hs : AllSmall m.stack) (verify : Bool) :
    Ends fail (env.execCheckMultiSig verify m) n fun m' n' =>
      ∃ stack nKeysCount, AllSmall stack ∧ m.nOpCount+nKeysCount ≤ 201 ∧
        m' = { m with stack := stack, nOpCount := m.nOpCount+nKeysCount } ∧
        n ≤ n' ∧ n' ≤ n+min 20 (keysOnTop m.stack) := by
  unfold ScriptEnv.execCheckMultiSig
  refine ends_multiSigCounts hf.now fun nKeysCount nSigsCount hfit => ?_
  have hcost : nKeysCount = min 20 (keysOnTop m.stack) := by
    rw [← hfit.top]
    exact (Nat.min_eq_right hfit.keys).symm
  have hdepth := hfit.depth
  rw [← hcost] at hf ⊢
  refine dropSignatures_ends (by omega) (by omega) fun scriptCode => ?_
  refine (checkKeys_ends hf hfit.sigs (by omega) (by omega) (by omega) (by omega)).bind
    fun fSuccess n' hn => ?_
  have hf' : Allows env fail n' := hf n' hn.1 hn.2
  refine ends_popMany (by omega) (ends_need hf' fun hlen => ?_)
  have hrest : AllSmall (m.stack.drop (2+nKeysCount+nSigsCount)) :=
    hs.sub fun v hv => List.mem_of_mem_drop hv
  refine ends_stacktop (by omega) fun dummy _ _ => ends_require hf' fun _ => ?_
  refine ends_popstack (by omega) (ends_verifyResult hf' ?_ ?_)
  · exact ends_pure.mpr ⟨_,nKeysCount,hrest.tail,hfit.ops,rfl,hn⟩
  · exact ends_pure.mpr ⟨_,nKeysCount,hrest.tail.cons (small_vchOf _),hfit.ops,rfl,hn⟩

end Signatures

def Instruction.opens : Instruction → Nat
  | .control (.ifOp _) => 1
  | _ => 0

def Instruction.closes : Instruction → Nat
  | .control .endif => 1
  | _ => 0

def Instruction.isSmall : Instruction → Bool
  | .value n => decide (n.natAbs ≤ 16)
  | _ => true

/-- What is shown for every byte holds of every opcode. -/
theorem forall_opcode {P : UInt8 → Prop} (h : ∀ k < 256, P (UInt8.ofNat k)) (opcode : UInt8) :
    P opcode := by
  have hop := h opcode.toNat opcode.toNat_lt
  rwa [UInt8.ofNat_toNat] at hop

/-- The numbers in the table are small, and only the opcodes that run in every case open or
close a conditional. -/
theorem instruction_facts : ∀ opcode : UInt8, (instruction opcode).isSmall = true ∧
    (¬(0x63 ≤ opcode ∧ opcode ≤ 0x68) →
      (instruction opcode).opens = 0 ∧ (instruction opcode).closes = 0) :=
  forall_opcode (by decide +kernel)

theorem instruction_isSmall (opcode : UInt8) : (instruction opcode).isSmall = true :=
  (instruction_facts opcode).1

theorem instruction_unconditional {opcode : UInt8} (h : ¬(0x63 ≤ opcode ∧ opcode ≤ 0x68)) :
    (instruction opcode).opens = 0 ∧ (instruction opcode).closes = 0 :=
  (instruction_facts opcode).2 h

/-- The opcodes that run in every case check no signature. -/
theorem instruction_conditional {opcode : UInt8} (h : 0x63 ≤ opcode ∧ opcode ≤ 0x68)
    (stack : List Valtype) : (instruction opcode).sigCost stack = 0 := by
  have hbytes : opcode.toNat = 0x63 ∨ opcode.toNat = 0x64 ∨ opcode.toNat = 0x65 ∨
      opcode.toNat = 0x66 ∨ opcode.toNat = 0x67 ∨ opcode.toNat = 0x68 := by
    have h1 := UInt8.le_iff_toNat_le.mp h.1
    have h2 := UInt8.le_iff_toNat_le.mp h.2
    simp only [UInt8.reduceToNat] at h1 h2
    omega
  unfold instruction
  rcases hbytes with h | h | h | h | h | h <;> rw [h] <;> rfl

/-- Between two instructions the machine is within its limits. -/
structure Machine.Limited (m : Machine) : Prop where
  size : m.stack.length+m.altstack.length ≤ 1000
  small : AllSmall m.stack
  altSmall : AllSmall m.altstack
  opCount : m.nOpCount ≤ 201

/-- What an instruction does to a machine. -/
structure Machine.Moves (pc : CScript) (i : Instruction) (m m' : Machine) : Prop where
  small : AllSmall m'.stack
  altSmall : AllSmall m'.altstack
  opCount : m'.nOpCount ≤ 201
  opCount_le : m.nOpCount ≤ m'.nOpCount
  depth : m'.vfExec.length+i.closes = m.vfExec.length+i.opens
  code : m'.pbegincodehash = m.pbegincodehash ∨ m'.pbegincodehash = pc

section Machine
variable {env : ScriptEnv} {fail : ScriptFailure → Nat → Prop} {n : Nat} {m : Machine} {pc : CScript}

theorem Machine.Limited.moves_stack (hm : m.Limited) {i : Instruction} (hopens : i.opens = 0)
    (hcloses : i.closes = 0) {stack : List Valtype} (hs : AllSmall stack) :
    Machine.Moves pc i m { m with stack := stack } := by
  refine ⟨hs,hm.altSmall,hm.opCount,Nat.le_refl _,?_,.inl rfl⟩
  rw [hopens,hcloses]

theorem execControl_ends (hf : Allows env fail n) (hm : m.Limited) (pc : CScript) (fExec : Bool)
    (op : ControlOp) :
    Ends fail (env.execControl fExec m op) n
      fun m' n' => Machine.Moves pc (.control op) m m' ∧ n' = n := by
  have hstay : ∀ vfExec : List Bool,
      vfExec.length+(Instruction.control op).closes = m.vfExec.length+(Instruction.control op).opens →
      ∀ stack, AllSmall stack →
        Machine.Moves pc (.control op) m { m with stack := stack, vfExec := vfExec } :=
    fun vfExec hdepth stack hs =>
      ⟨hs,hm.altSmall,hm.opCount,Nat.le_refl _,hdepth,.inl rfl⟩
  cases op with
  | nop => exact ends_pure.mpr ⟨hm.moves_stack rfl rfl hm.small,rfl⟩
  | upgradableNop =>
    refine Ends.ite (fun _ => hf.error .discourageUpgradableNops) fun _ => ?_
    exact ends_pure.mpr ⟨hm.moves_stack rfl rfl hm.small,rfl⟩
  | ifOp negated =>
    refine Ends.ite (fun _ => ?_) fun _ => ends_pure.mpr ⟨hstay _ rfl _ hm.small,rfl⟩
    refine ends_require hf fun hlen => ?_
    simp only [Bool.not_eq_true',decide_eq_false_iff_not] at hlen
    refine ends_stacktop (by omega) fun vch _ _ => ends_popstack (by omega) ?_
    exact ends_pure.mpr ⟨hstay _ rfl _ hm.small.tail,rfl⟩
  | elseOp =>
    unfold ScriptEnv.execControl
    cases hv : m.vfExec with
    | nil => exact hf.error .unbalancedConditional
    | cons f vfExec =>
      refine ends_pure.mpr ⟨hstay _ ?_ _ hm.small,rfl⟩
      rw [hv]
      rfl
  | endif =>
    unfold ScriptEnv.execControl
    cases hv : m.vfExec with
    | nil => exact hf.error .unbalancedConditional
    | cons f vfExec =>
      refine ends_pure.mpr ⟨hstay _ ?_ _ hm.small,rfl⟩
      rw [hv]
      rfl
  | verify =>
    refine ends_need hf fun hlen => ends_stacktop (by omega) fun vch _ _ => ?_
    refine Ends.ite (fun _ => ends_popstack (by omega) ?_) fun _ => hf.error .verify
    exact ends_pure.mpr ⟨hm.moves_stack rfl rfl hm.small.tail,rfl⟩
  | returnOp => exact hf.error .opReturn

theorem onStack_ends (hm : m.Limited) {x : ScriptM (List Valtype)} (hx : Ends fail x n (Settles n))
    {i : Instruction} (hopens : i.opens = 0) (hcloses : i.closes = 0) :
    Ends fail (ScriptEnv.onStack m x) n fun m' n' => Machine.Moves pc i m m' ∧ n ≤ n' ∧
      n' ≤ n+i.sigCost m.stack := by
  refine hx.bind fun stack n' hn => ?_
  obtain ⟨hs,rfl⟩ := hn
  exact ends_pure.mpr ⟨hm.moves_stack hopens hcloses hs,Nat.le_refl _,Nat.le_add_right _ _⟩

/-- One case of the switch. -/
theorem exec_ends {i : Instruction} (hf : AllowsUpTo env fail n (i.sigCost m.stack))
    (hm : m.Limited) (hi : i.isSmall = true) (fExec : Bool) :
    Ends fail (env.exec fExec pc m i) n fun m' n' => Machine.Moves pc i m m' ∧ n ≤ n' ∧
      n' ≤ n+i.sigCost m.stack := by
  have hsize := hm.size
  have hn : ∀ k, n ≤ n ∧ n ≤ n+k := fun k => ⟨Nat.le_refl n,Nat.le_add_right n k⟩
  cases i with
  | value value =>
    have hvalue : value.natAbs ≤ 16 := of_decide_eq_true hi
    have hsmall : Small (CScriptNum.serialize value) := small_serialize (by omega)
    exact ends_pure.mpr ⟨hm.moves_stack rfl rfl (hm.small.cons hsmall),hn _⟩
  | control op =>
    refine (execControl_ends hf.now hm pc fExec op).mono fun m' n' h => ?_
    obtain ⟨hmove,rfl⟩ := h
    exact ⟨hmove,hn _⟩
  | toAltStack =>
    refine ends_need hf.now fun hlen => ends_stacktop (by omega) fun vch hvch _ => ?_
    refine ends_popstack (by omega) (ends_pure.mpr ⟨?_,hn _⟩)
    exact ⟨hm.small.tail,hm.altSmall.cons (hm.small vch hvch),hm.opCount,Nat.le_refl _,rfl,.inl rfl⟩
  | fromAltStack =>
    refine ends_require hf.now fun hlen => ?_
    simp only [Bool.not_eq_true',decide_eq_false_iff_not] at hlen
    refine ends_stacktop (by omega) fun vch hvch _ => ?_
    refine ends_popstack (by omega) (ends_pure.mpr ⟨?_,hn _⟩)
    exact ⟨hm.small.cons (hm.altSmall vch hvch),hm.altSmall.tail,hm.opCount,Nat.le_refl _,rfl,.inl rfl⟩
  | stack op => exact onStack_ends hm (execStack_ends hf.now hm.small (by omega) op) rfl rfl
  | unary op => exact onStack_ends hm (execUnary_ends hf.now hm.small op) rfl rfl
  | binary op => exact onStack_ends hm (execBinary_ends hf.now hm.small op) rfl rfl
  | within => exact onStack_ends hm (execWithin_ends hf.now hm.small) rfl rfl
  | hash op => exact onStack_ends hm (execHash_ends hf.now hm.small op) rfl rfl
  | codeSeparator =>
    refine ends_pure.mpr ⟨?_,hn _⟩
    exact ⟨hm.small,hm.altSmall,hm.opCount,Nat.le_refl _,rfl,.inr rfl⟩
  | checkSig verify =>
    refine (execCheckSig_ends hf hm.small verify).mono fun m' n' h => ?_
    obtain ⟨stack,hs,rfl,hn'⟩ := h
    exact ⟨hm.moves_stack rfl rfl hs,hn'⟩
  | checkMultiSig verify =>
    refine (execCheckMultiSig_ends hf hm.small verify).mono fun m' n' h => ?_
    obtain ⟨stack,nKeysCount,hs,hops,rfl,hn'⟩ := h
    exact ⟨⟨hs,hm.altSmall,hops,Nat.le_add_right _ _,rfl,.inl rfl⟩,hn'⟩
  | unknown => exact hf.now.error .badOpcode

/-- How many signatures one pass of the loop can check. -/
def ScriptEnv.stepCost (op : Op) (m : Machine) : Nat :=
  if ScriptEnv.fExec m then (instruction op.opcode).sigCost m.stack else 0

theorem dispatch_ends {op : Op} (hf : AllowsUpTo env fail n (ScriptEnv.stepCost op m))
    (hm : m.Limited) (hdata : Small op.data) :
    Ends fail (env.dispatch op pc m) n fun m' n' => Machine.Moves pc (instruction op.opcode) m m' ∧
      n ≤ n' ∧ n' ≤ n+ScriptEnv.stepCost op m := by
  have hn : n ≤ n ∧ n ≤ n+ScriptEnv.stepCost op m := ⟨Nat.le_refl n,Nat.le_add_right n _⟩
  unfold ScriptEnv.dispatch
  refine Ends.ite (fun hpush => ?_) fun _ => Ends.ite (fun hrun => ?_) fun hskip => ?_
  · have hop : op.opcode ≤ OP_PUSHDATA4 := of_decide_eq_true (Bool.and_eq_true_iff.mp hpush).2
    have hcond : (instruction op.opcode).opens = 0 ∧ (instruction op.opcode).closes = 0 :=
      instruction_unconditional fun h =>
      absurd (UInt8.le_trans h.1 hop) (by decide)
    refine ends_require hf.now fun _ => ends_pure.mpr ⟨?_,hn⟩
    exact hm.moves_stack hcond.1 hcond.2 (hm.small.cons hdata)
  · have hcost : (instruction op.opcode).sigCost m.stack = ScriptEnv.stepCost op m := by
      unfold ScriptEnv.stepCost
      cases hexec : ScriptEnv.fExec m with
      | true => rfl
      | false =>
        rw [hexec,Bool.false_or,Bool.and_eq_true,decide_eq_true_iff,decide_eq_true_iff] at hrun
        exact instruction_conditional hrun m.stack
    rw [← hcost] at hf ⊢
    exact exec_ends hf hm (instruction_isSmall op.opcode) _
  · have hcond : (instruction op.opcode).opens = 0 ∧ (instruction op.opcode).closes = 0 :=
      instruction_unconditional fun h => hskip (by
      rw [decide_eq_true h.1,decide_eq_true h.2,Bool.and_self,Bool.or_true])
    exact ends_pure.mpr ⟨hm.moves_stack hcond.1 hcond.2 hm.small,hn⟩

/-- What one pass of the loop does to a machine. -/
structure Machine.Steps (op : Op) (pc : CScript) (m m' : Machine) : Prop where
  limited : m'.Limited
  opCount_le : (if OP_16 < op.opcode then m.nOpCount+1 else m.nOpCount) ≤ m'.nOpCount
  depth : m'.vfExec.length+(instruction op.opcode).closes =
    m.vfExec.length+(instruction op.opcode).opens
  code : m'.pbegincodehash = m.pbegincodehash ∨ m'.pbegincodehash = pc

/-- One pass of the loop keeps the machine within its limits. -/
theorem step_ends {op : Op} (hf : AllowsUpTo env fail n (ScriptEnv.stepCost op m)) (hm : m.Limited) :
    Ends fail (env.step op pc m) n fun m' n' => Machine.Steps op pc m m' ∧
      n ≤ n' ∧ n' ≤ n+ScriptEnv.stepCost op m := by
  unfold ScriptEnv.step
  refine ends_require hf.now fun hdata => ends_require hf.now fun hops => ?_
  refine ends_require hf.now fun _ => ?_
  simp only [Bool.not_eq_true',Bool.and_eq_false_iff,decide_eq_false_iff_not] at hdata hops
  have hcount : (if OP_16 < op.opcode then m.nOpCount+1 else m.nOpCount) ≤ 201 := by
    have := hm.opCount
    by_cases hop : OP_16 < op.opcode
    · exact Nat.le_of_not_lt (hops.resolve_left (not_not_intro hop))
    · rwa [if_neg hop]
  have hm' : Machine.Limited { m with nOpCount :=
      if OP_16 < op.opcode then m.nOpCount+1 else m.nOpCount } :=
    ⟨hm.size,hm.small,hm.altSmall,hcount⟩
  refine Ends.bind (dispatch_ends hf hm' (Nat.le_of_not_lt hdata)) fun m' n' h => ?_
  obtain ⟨hmove,hn⟩ := h
  have hf' : Allows env fail n' := hf n' hn.1 hn.2
  refine ends_require hf' fun hsize =>
    ends_pure.mpr ⟨⟨?_,hmove.opCount_le,hmove.depth,hmove.code⟩,hn⟩
  rw [Bool.not_eq_true',decide_eq_false_iff_not] at hsize
  exact ⟨Nat.le_of_not_lt hsize,hmove.small,hmove.altSmall,hmove.opCount⟩

end Machine

/-- The rule for the loop: what each pass keeps holds at its end. -/
theorem evalFrom_ends {env : ScriptEnv} {fail : ScriptFailure → Nat → Prop}
    (inv : CScript → Machine → Nat → Prop)
    (hnone : ∀ pc m n, inv pc m n → fail (.error .badOpcode) n)
    (hstep : ∀ op pc rest m n, getOp pc = (some op,rest) → inv pc m n →
      Ends fail (env.step op rest m) n (inv rest)) {pc : CScript} {m : Machine} {n : Nat}
    (h : inv pc m n) : Ends fail (env.evalFrom pc m) n (inv []) := by
  induction hlen : pc.length using Nat.strong_induction_on generalizing pc m n with
  | _ len ih =>
    by_cases hpc : pc = []
    · subst hpc
      rw [ScriptEnv.evalFrom_nil]
      exact ends_pure.mpr h
    · cases hop : getOp pc with
      | mk op rest =>
        cases op with
        | none =>
          rw [env.evalFrom_none hpc hop]
          exact ends_throw.mpr (hnone pc m n h)
        | some op =>
          rw [env.evalFrom_some hop]
          refine (hstep op pc rest m n hop h).bind fun m' n' h' => ?_
          exact ih rest.length (hlen ▸ getOp_length hop) h' rfl

/-- A run of the loop of `EvalScript` that has come to `pc`, past these instructions. -/
inductive Reaches (env : ScriptEnv) (stack : List Valtype) (script : CScript) (n : Nat) :
    List Op → CScript → Machine → Nat → Prop
  | start : script.length ≤ 10000 → Reaches env stack script n [] script ⟨stack,[],[],0,script⟩ n
  | next {ops : List Op} {op : Op} {pc rest : CScript} {m m' : Machine} {k k' : Nat} :
      Reaches env stack script n ops pc m k → getOp pc = (some op,rest) →
      env.step op rest m k = .ok m' k' → Reaches env stack script n (ops ++ [op]) rest m' k'

/-- The conditionals that are open after these instructions. -/
def openIfs (ops : List Op) : Nat :=
  (ops.map fun op => (instruction op.opcode).opens).sum-
    (ops.map fun op => (instruction op.opcode).closes).sum

/-- What an evaluation leaves on the stack. -/
structure Loaded (stack : List Valtype) : Prop where
  depth : stack.length ≤ 1000
  small : AllSmall stack

theorem Loaded.nil : Loaded [] := ⟨Nat.zero_le _,fun _ hv => absurd hv List.not_mem_nil⟩

theorem Loaded.tail {stack : List Valtype} (h : Loaded stack) : Loaded stack.tail := by
  have hdepth := h.depth
  refine ⟨?_,h.small.tail⟩
  rw [List.length_tail]
  omega

theorem Machine.Limited.loaded {m : Machine} (hm : m.Limited) : Loaded m.stack := by
  have hsize := hm.size
  exact ⟨by omega,hm.small⟩

section Limits
variable {env : ScriptEnv} {stack : List Valtype} {script : CScript} {n : Nat}

theorem Loaded.start (h : Loaded stack) (script : CScript) :
    Machine.Limited ⟨stack,[],[],0,script⟩ :=
  ⟨h.depth,h.small,fun _ hv => absurd hv List.not_mem_nil,Nat.zero_le _⟩

/-- An evaluation ends with an expected failure only. -/
theorem evalScript_expected (h : Loaded stack) :
    Ends (fun e _ => Expected env e) (env.evalScript stack script) n
      fun stack' _ => Loaded stack' := by
  have hf : ∀ n, Allows env (fun e _ => Expected env e) n := fun _ _ he => he
  unfold ScriptEnv.evalScript
  refine ends_require (hf n) fun _ => ?_
  refine (evalFrom_ends (fun _ m _ => m.Limited) (fun _ _ _ _ => .inl ⟨_,rfl⟩)
    (fun op _ rest m n' _ hm => ?_) (h.start script)).bind fun m n' hm => ?_
  · exact (step_ends (fun k _ _ => hf k) hm).mono fun _ _ h => h.1.limited
  · exact ends_require (hf n') fun _ => ends_pure.mpr hm.loaded

/-- What holds at the boundaries of a run. -/
structure Boundary (script : CScript) (ops : List Op) (pc : CScript) (m : Machine) : Prop where
  limited : m.Limited
  counted : ops.countP (fun op => decide (OP_16 < op.opcode)) ≤ m.nOpCount
  depth : m.vfExec.length+(ops.map fun op => (instruction op.opcode).closes).sum =
    (ops.map fun op => (instruction op.opcode).opens).sum
  progress : ops.length+pc.length ≤ script.length

theorem Reaches.boundary (hstack : Loaded stack) {ops : List Op} {pc : CScript} {m : Machine}
    {k : Nat} (h : Reaches env stack script n ops pc m k) : Boundary script ops pc m := by
  induction h with
  | start => exact ⟨hstack.start script,Nat.le_refl 0,rfl,by rw [List.length_nil]; omega⟩
  | @next ops op pc rest m m' k k' _ hop hstep ih =>
    have hf : AllowsUpTo env (fun e _ => Expected env e) k (ScriptEnv.stepCost op m) :=
      fun _ _ _ _ he => he
    obtain ⟨hsteps,-⟩ := (step_ends hf ih.limited).result hstep
    refine ⟨hsteps.limited,?_,?_,?_⟩
    · have := ih.counted
      have hcount := hsteps.opCount_le
      rw [List.countP_append,List.countP_singleton]
      by_cases hlarge : OP_16 < op.opcode
      · rw [if_pos hlarge] at hcount
        rw [if_pos (decide_eq_true hlarge)]
        omega
      · rw [if_neg hlarge] at hcount
        rw [if_neg (by simpa using hlarge)]
        omega
    · have := ih.depth
      have hopen := hsteps.depth
      simp only [List.map_append,List.map_cons,List.map_nil,List.sum_append,List.sum_cons,
        List.sum_nil]
      omega
    · have := ih.progress
      have := getOp_length hop
      rw [List.length_append,List.length_singleton]
      omega

/-- What is left of the loop at a boundary decides how it ends. -/
theorem Reaches.evalFrom_eq {ops : List Op} {pc : CScript} {m : Machine} {k : Nat}
    (h : Reaches env stack script n ops pc m k) :
    env.evalFrom script ⟨stack,[],[],0,script⟩ n = env.evalFrom pc m k := by
  induction h with
  | start => rfl
  | next _ hop hstep ih =>
    rw [ih,env.evalFrom_some hop]
    show EStateM.bind _ _ _ = _
    unfold EStateM.bind
    rw [hstep]

end Limits

/-- No script takes the machine outside its stacks or its limits, and every run comes to an
end: each instruction shortens what is left of the script. -/
theorem evalScript_limits (env : ScriptEnv) (stack : List Valtype) (script : CScript) (n : Nat)
    (hflags : env.hasFlag SCRIPT_VERIFY_LOW_S = false) (hdepth : stack.length ≤ 1000)
    (hsmall : ∀ vch ∈ stack, vch.length ≤ 520) :
    (∀ e n', env.evalScript stack script n = .error e n' → e ≠ .outOfRange ∧ e ≠ .assertion) ∧
    ∀ ops pc m k, Reaches env stack script n ops pc m k →
      env.evalFrom script ⟨stack,[],[],0,script⟩ n = env.evalFrom pc m k ∧
      ops.length+pc.length ≤ script.length ∧
      m.stack.length+m.altstack.length ≤ 1000 ∧
      (∀ vch ∈ m.stack ++ m.altstack, vch.length ≤ 520) ∧
      m.vfExec.length = openIfs ops ∧
      ops.countP (fun op => decide (OP_16 < op.opcode)) ≤ m.nOpCount ∧ m.nOpCount ≤ 201 := by
  constructor
  · intro e n' heval
    rcases (evalScript_expected ⟨hdepth,hsmall⟩).failure heval with ⟨serror,rfl⟩ | rfl | ⟨-,hlow⟩
    · exact ⟨by simp,by simp⟩
    · exact ⟨by simp,by simp⟩
    · rw [hflags] at hlow
      exact absurd hlow (by decide)
  · intro ops pc m k hreach
    have hb := hreach.boundary ⟨hdepth,hsmall⟩
    have hopen : m.vfExec.length = openIfs ops := by
      have := hb.depth
      unfold openIfs
      omega
    refine ⟨hreach.evalFrom_eq,hb.progress,hb.limited.size,fun vch hv => ?_,hopen,hb.counted,
      hb.limited.opCount⟩
    rcases List.mem_append.mp hv with hv | hv
    · exact hb.limited.small vch hv
    · exact hb.limited.altSmall vch hv

def zeroHashes : ScriptHashes where
  ripemd160 _ := List.replicate 20 0
  sha1 _ := List.replicate 20 0
  sha256 _ := List.replicate 32 0
  hash160 _ := List.replicate 20 0
  hash256 _ := List.replicate 32 0
  length_ripemd160 _ := rfl
  length_sha1 _ := rfl
  length_sha256 _ := rfl
  length_hash160 _ := rfl
  length_hash256 _ := rfl

/-- No flags, and a checker that refuses every signature. -/
def refusingEnv : ScriptEnv := ⟨0,zeroHashes,fun _ _ _ _ => false⟩

/-- OP_DUP OP_IF OP_1 OP_ENDIF on a true element. -/
theorem evalScript_limits_branch :
    refusingEnv.hasFlag SCRIPT_VERIFY_LOW_S = false ∧
    (refusingEnv.evalScript [[7]] [0x76,0x63,0x51,0x68]).run' 0 = some [[1],[7]] ∧
    ∀ ops pc m k, Reaches refusingEnv [[7]] [0x76,0x63,0x51,0x68] 0 ops pc m k →
      m.stack.length+m.altstack.length ≤ 1000 ∧ m.vfExec.length = openIfs ops := by
  refine ⟨by decide,by decide +kernel,fun ops pc m k hreach => ?_⟩
  have h := (evalScript_limits refusingEnv [[7]] [0x76,0x63,0x51,0x68] 0 (by decide) (by decide)
    (by decide)).2 ops pc m k hreach
  exact ⟨h.2.2.1,h.2.2.2.2.1⟩

end Anoncoin
