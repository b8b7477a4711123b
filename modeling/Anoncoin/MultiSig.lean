import Anoncoin.ScriptLimits
import Anoncoin.ScriptRuns

/-!
OP_CHECKMULTISIG as a decision (script.cpp): its loop over the keys says whether the
signatures can be assigned to keys in order.
-/

set_option autoImplicit false

namespace Anoncoin
open Lib

namespace ScriptEnv
variable {env : ScriptEnv}

/-- The number of the keys, the keys, the number of the signatures, the signatures and the
element in excess; of the keys and of the signatures the last is on top. -/
def multiSigStack (vchN : Valtype) (keys : List Valtype) (vchM : Valtype) (sigs : List Valtype)
    (dummy : Valtype) (rest : List Valtype) : List Valtype :=
  vchN :: (keys.reverse ++ vchM :: (sigs.reverse ++ dummy :: rest))

/-- The machine takes these bytes for the number. -/
def ReadsAs (env : ScriptEnv) (vch : Valtype) (k : Nat) : Prop :=
  vch.length ≤ CScriptNum.nMaxNumSize ∧ CScriptNum.setVch vch = k ∧
    (env.fRequireMinimal = true → CScriptNum.isMinimal vch = true)

theorem ReadsAs.yields {vch : Valtype} {k : Nat} (h : env.ReadsAs vch k) :
    Yields (env.scriptNum vch) k := by
  unfold scriptNum
  rw [if_neg (Nat.not_lt.mpr h.1),if_neg,h.2.1]
  · exact yields_pure _
  · rw [Bool.and_eq_true,Bool.not_eq_true']
    rintro ⟨hminimal,hlong⟩
    rw [h.2.2 hminimal] at hlong
    contradiction

/-- No flag asks for an encoding of the signatures or of the keys, or for an empty element. -/
structure Permissive (env : ScriptEnv) : Prop where
  derSig : env.hasFlag SCRIPT_VERIFY_DERSIG = false
  lowS : env.hasFlag SCRIPT_VERIFY_LOW_S = false
  strictEnc : env.hasFlag SCRIPT_VERIFY_STRICTENC = false
  nullDummy : env.hasFlag SCRIPT_VERIFY_NULLDUMMY = false

theorem hasFlag_or (flag flag' : Nat) :
    env.hasFlag (flag ||| flag') = (env.hasFlag flag || env.hasFlag flag') := by
  unfold hasFlag
  rw [Nat.and_or_distrib_left,Bool.eq_iff_iff]
  simp only [bne_iff_ne,Bool.or_eq_true,ne_eq,Nat.or_eq_zero_iff]
  tauto

theorem Permissive.answers {checks : Valtype → Valtype → Bool} {sigs keys : List Valtype}
    {scriptCode : CScript} (h : env.Permissive)
    (hchecker : ∀ n vchSig vchPubKey scriptCode,
      env.checkSig n vchSig vchPubKey scriptCode = checks vchSig vchPubKey) :
    env.Answers scriptCode sigs keys checks := by
  intro vchSig _ vchPubKey _
  refine Yields.bind (a := ()) ?_ (Yields.bind (a := ()) ?_ ?_)
  · unfold checkSignatureEncoding
    simp only [hasFlag_or,h.derSig,h.lowS,h.strictEnc,Bool.or_false,Bool.false_and,
      Bool.false_eq_true,if_false,ite_self]
    exact yields_pure ()
  · exact yields_require (by rw [h.strictEnc]; rfl) _
  · intro n
    exact ⟨n+1,by rw [← hchecker n vchSig vchPubKey scriptCode]; rfl⟩

/-- Whatever the checker answers, the instruction leaves true if and only if the signatures can
be assigned to keys in order, each to one with which it checks. -/
theorem checkMultiSig_decides {checks : Valtype → Valtype → Bool} (hflags : env.Permissive)
    (hchecker : ∀ n vchSig vchPubKey scriptCode,
      env.checkSig n vchSig vchPubKey scriptCode = checks vchSig vchPubKey)
    {m : Machine} {vchN vchM dummy : Valtype} {keys sigs rest : List Valtype}
    (hstack : m.stack = multiSigStack vchN keys vchM sigs dummy rest)
    (hN : env.ReadsAs vchN keys.length) (hM : env.ReadsAs vchM sigs.length)
    (hkeys : keys.length ≤ 20) (hle : sigs.length ≤ keys.length)
    (hcount : m.nOpCount+1+keys.length ≤ 201) (hexec : fExec m = true)
    (hdepth : m.stack.length+m.altstack.length ≤ 1000) (pc : CScript) :
    ∃ fSuccess, (fSuccess = true ↔ OrderedMatch checks sigs keys) ∧
      Yields (env.step ⟨OP_CHECKMULTISIG,[]⟩ pc m)
        { m with
          stack := vchOf fSuccess :: m.stack.drop (sigs.length+keys.length+3)
          nOpCount := m.nOpCount+1+keys.length } := by
  obtain ⟨stack,altstack,vfExec,nOpCount,code⟩ := m
  dsimp only at hstack hcount hdepth ⊢
  subst hstack
  have hlength : (multiSigStack vchN keys vchM sigs dummy rest).length =
      sigs.length+keys.length+3+rest.length := by
    simp only [multiSigStack,List.length_cons,List.length_append,List.length_reverse]
    omega
  have hdrop : (multiSigStack vchN keys vchM sigs dummy rest).drop (sigs.length+keys.length+3) =
      rest := by
    have hsplit : multiSigStack vchN keys vchM sigs dummy rest =
        (vchN :: (keys.reverse ++ vchM :: (sigs.reverse ++ [dummy]))) ++ rest := by
      simp [multiSigStack]
    have htaken : (vchN :: (keys.reverse ++ vchM :: (sigs.reverse ++ [dummy]))).length =
        sigs.length+keys.length+3 := by
      simp only [List.length_cons,List.length_append,List.length_reverse,List.length_nil]
      omega
    rw [hsplit,← htaken]
    exact List.drop_left
  rw [hdrop]
  refine ⟨_,greedyMatch_reverse_iff,?_⟩
  have hlarge : OP_16 < OP_CHECKMULTISIG := by decide
  have hswitch : instruction OP_CHECKMULTISIG = .checkMultiSig false := rfl
  have hrun : Yields (env.execCheckMultiSig false
      ⟨multiSigStack vchN keys vchM sigs dummy rest,altstack,vfExec,nOpCount+1,code⟩)
      ⟨vchOf (greedyMatch checks sigs.reverse keys.reverse) :: rest,altstack,vfExec,
        nOpCount+1+keys.reverse.length,code⟩ := by
    rw [← List.length_reverse] at hN hM hkeys
    refine yields_checkMultiSig hN.yields hM.yields hkeys ?_ ?_ ?_ (hflags.answers hchecker)
    · rwa [List.length_reverse,List.length_reverse]
    · rwa [List.length_reverse]
    · rw [hflags.nullDummy]
      exact fun hfalse => absurd hfalse Bool.false_ne_true
  rw [List.length_reverse] at hrun
  refine yields_step (Nat.zero_le _) (by decide) (fun _ => by dsimp only; omega) ?_ ?_
  · unfold dispatch
    have hnot : ¬OP_CHECKMULTISIG ≤ OP_PUSHDATA4 := by decide
    have hrunning : fExec ⟨multiSigStack vchN keys vchM sigs dummy rest,altstack,vfExec,nOpCount+1,
      code⟩ = true := hexec
    simp only [if_pos hlarge,hrunning,hnot,decide_false,Bool.and_false,Bool.true_or,
      Bool.false_eq_true,if_false,if_true,hswitch]
    exact hrun
  · dsimp only
    rw [List.length_cons]
    omega

/-- A signature fits the keys whose first byte is not less. -/
def fitsKey (vchSig vchPubKey : Valtype) : Bool := decide (vchSig.headD 0 ≤ vchPubKey.headD 0)

/-- Two signatures, of which the first fits three keys and the second the last two. -/
theorem checkMultiSig_decides_overlap :
    ∃ fSuccess, (fSuccess = true ↔ OrderedMatch fitsKey [[1],[2]] [[1],[2],[3]]) ∧
      Yields (ScriptEnv.step ⟨0,zeroHashes,fun _ vchSig vchPubKey _ => fitsKey vchSig vchPubKey⟩
          ⟨OP_CHECKMULTISIG,[]⟩ []
          ⟨[[3],[3],[2],[1],[2],[2],[1],[],[7]],[],[],0,[OP_CHECKMULTISIG]⟩)
        ⟨[vchOf fSuccess,[7]],[],[],4,[OP_CHECKMULTISIG]⟩ := by
  have hstack : [[3],[3],[2],[1],[2],[2],[1],[],[7]] =
      multiSigStack [3] [[1],[2],[3]] [2] [[1],[2]] [] [[7]] := rfl
  exact checkMultiSig_decides ⟨rfl,rfl,rfl,rfl⟩ (fun _ _ _ _ => rfl) hstack
    ⟨by decide,by decide,fun _ => by decide⟩ ⟨by decide,by decide,fun _ => by decide⟩ (by decide)
    (by decide) (by decide) rfl (by decide) []

end ScriptEnv

end Anoncoin
