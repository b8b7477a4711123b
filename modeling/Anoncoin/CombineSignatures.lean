import Anoncoin.SignatureCache
import Anoncoin.StandardForms

/-!
Merging two scriptSigs of one input (sign.cpp): `CombineSignatures` matches the signatures of a
multisignature script to its keys by trial and writes them in the order of the keys.
-/

set_option autoImplicit false

namespace Anoncoin
open Lib

instance : StrictLess bytesLess := Sigdata.totalLess_bytesLess.toStrictLess

/-- `PushAll`, of a stack whose top comes first. -/
def pushAll (values : List Valtype) : CScript := values.reverse.flatMap pushData

/-- The signatures of one stack that are no placeholders. -/
def insertSigs (allsigs : OrderedSet bytesLess) (sigs : List Valtype) : OrderedSet bytesLess :=
  sigs.foldr (fun v allsigs => if v = [] then allsigs else allsigs.insert v) allsigs

/-- The loop over the keys for one signature: the first without a signature that it is by. -/
def matchSig (checkSig : Valtype → Valtype → Bool) (sig : Valtype)
    (sigs : List (Valtype × Valtype)) : List Valtype → List (Valtype × Valtype)
  | [] => sigs
  | pubkey :: keys =>
    if (sigs.lookup pubkey).isSome then matchSig checkSig sig sigs keys
    else if checkSig sig pubkey then (pubkey,sig) :: sigs
    else matchSig checkSig sig sigs keys

/-- The map of pubkey to signature. -/
def matchSigs (checkSig : Valtype → Valtype → Bool) (keys allsigs : List Valtype) :
    List (Valtype × Valtype) :=
  allsigs.foldl (fun sigs sig => matchSig checkSig sig sigs keys) []

/-- The loop that writes the signatures, with nSigsHave and the script. -/
def mergeSigs (sigs : List (Valtype × Valtype)) (nSigsRequired : Nat) :
    List Valtype → Nat → CScript → Nat × CScript
  | [],nSigsHave,result => (nSigsHave,result)
  | pubkey :: keys,nSigsHave,result =>
    if nSigsHave < nSigsRequired then
      match sigs.lookup pubkey with
      | some sig => mergeSigs sigs nSigsRequired keys (nSigsHave+1) (result ++ pushData sig)
      | none => mergeSigs sigs nSigsRequired keys nSigsHave result
    else (nSigsHave,result)

/-- `CombineMultisig`, with the checker for the script. -/
def combineMultisig (checkSig : Valtype → Valtype → Bool)
    (vSolutions sigs1 sigs2 : List Valtype) : CScript :=
  let allsigs := insertSigs (insertSigs .empty sigs1) sigs2
  let nSigsRequired := ((vSolutions.headD []).headD 0).toNat
  let keys := (vSolutions.drop 1).dropLast
  let r := mergeSigs (matchSigs checkSig keys allsigs.elements) nSigsRequired keys 0 [0]
  r.2 ++ List.replicate (nSigsRequired-r.1) 0

namespace SignerEnv
variable (env : SignerEnv)

/-- The machine that verifies an input under these flags. -/
def checker (flags : Nat) (txTo : CTransaction) (nIn : Nat) : ScriptEnv :=
  checkerEnv flags env.hashes (fun code t => signatureHash env.hash code txTo nIn t)
    env.verifySignature

/-- `TransactionSignatureChecker::CheckSig`. -/
def checkSig (txTo : CTransaction) (nIn : Nat) (scriptCode : CScript)
    (vchSig vchPubKey : Valtype) : Bool :=
  transactionChecker (fun code t => signatureHash env.hash code txTo nIn t) env.verifySignature 0
    vchSig vchPubKey scriptCode

/-- `CombineSignatures` of two stacks, after `Solver`. -/
def combineStacks (txTo : CTransaction) (nIn : Nat) (scriptPubKey : CScript) (txType : TxnOutType)
    (vSolutions sigs1 sigs2 : List Valtype) : CScript :=
  match txType, sigs1 with
  | .nonstandard, sigs1 | .nullData, sigs1 =>
    if sigs2.length ≤ sigs1.length then pushAll sigs1 else pushAll sigs2
  | .pubkey, sigs1 | .pubkeyhash, sigs1 =>
    if sigs1.getLastD [] = [] then pushAll sigs2 else pushAll sigs1
  | .scripthash, [] => pushAll sigs2
  | .scripthash, spk :: sigs1 =>
    if spk = [] then pushAll sigs2
    else if sigs2.headD [] = [] then pushAll (spk :: sigs1)
    else
      let (_,txType2,vSolutions2) := solver env.fDataCarrier spk
      combineStacks txTo nIn spk txType2 vSolutions2 sigs1 sigs2.tail ++ pushData spk
  | .multisig, sigs1 => combineMultisig (env.checkSig txTo nIn scriptPubKey) vSolutions sigs1 sigs2

/-- What a scriptSig leaves on the stack, with the checker that takes no signature. -/
def stackOf (scriptSig : CScript) : Option (List Valtype) :=
  match (⟨SCRIPT_VERIFY_STRICTENC,env.hashes,fun _ _ _ _ => false⟩ : ScriptEnv).evalScript []
      scriptSig 0 with
  | .ok stack _ => some stack
  | .error _ _ => none

/-- There is no result where a scriptSig fails: the code then goes on with what the failed
instruction left. -/
def combineSignatures (scriptPubKey : CScript) (txTo : CTransaction) (nIn : Nat)
    (scriptSig1 scriptSig2 : CScript) : Option CScript :=
  let (_,txType,vSolutions) := solver env.fDataCarrier scriptPubKey
  match env.stackOf scriptSig1, env.stackOf scriptSig2 with
  | some stack1, some stack2 =>
    some (env.combineStacks txTo nIn scriptPubKey txType vSolutions stack1 stack2)
  | _, _ => none

end SignerEnv

section Matched
variable {checkSig : Valtype → Valtype → Bool} {sig key : Valtype} {sigs : List (Valtype × Valtype)}
  {keys allsigs stack : List Valtype} {set : OrderedSet bytesLess}

theorem mem_insertSigs :
    sig ∈ (insertSigs set stack).elements ↔ sig ∈ set.elements ∨ (sig ∈ stack ∧ sig ≠ []) := by
  induction stack with
  | nil => simp [insertSigs]
  | cons v stack ih =>
    unfold insertSigs at ih ⊢
    rw [List.foldr_cons]
    split_ifs with hempty
    · rw [ih,hempty]
      simp only [List.mem_cons]
      tauto
    · constructor
      · intro h
        rcases OrderedSet.mem_of_mem_insert h with rfl | hold
        · exact .inr ⟨List.mem_cons_self,hempty⟩
        · exact (ih.mp hold).imp_right fun hmem => ⟨List.mem_cons_of_mem _ hmem.1,hmem.2⟩
      · rintro (hset | ⟨hmem,hne⟩)
        · exact OrderedSet.mem_insert_of_mem v (ih.mpr (.inl hset))
        · rcases List.mem_cons.mp hmem with rfl | hmem
          · exact OrderedSet.mem_insert_self Sigdata.totalLess_bytesLess _ sig
          · exact OrderedSet.mem_insert_of_mem v (ih.mpr (.inr ⟨hmem,hne⟩))

/-- The signature goes to a key without one, or every key that it is by has one. -/
theorem matchSig_cases :
    (∃ key ∈ keys, sigs.lookup key = none ∧ checkSig sig key = true ∧
      matchSig checkSig sig sigs keys = (key,sig) :: sigs) ∨
    (matchSig checkSig sig sigs keys = sigs ∧
      ∀ key ∈ keys, checkSig sig key = true → (sigs.lookup key).isSome = true) := by
  induction keys with
  | nil => exact .inr ⟨rfl,fun key hkey => absurd hkey List.not_mem_nil⟩
  | cons pubkey keys ih =>
    by_cases hfirst : (sigs.lookup pubkey).isSome = false ∧ checkSig sig pubkey = true
    · obtain ⟨hnone,hcheck⟩ := hfirst
      refine .inl ⟨pubkey,List.mem_cons_self,?_,hcheck,by rw [matchSig,hnone,hcheck]; rfl⟩
      exact Option.not_isSome_iff_eq_none.mp (by rw [hnone]; exact Bool.false_ne_true)
    · have hlater : matchSig checkSig sig sigs (pubkey :: keys) =
          matchSig checkSig sig sigs keys := by
        rw [matchSig]
        split_ifs with hhas hcheck
        · rfl
        · exact absurd ⟨Bool.not_eq_true _ ▸ hhas,hcheck⟩ hfirst
        · rfl
      rw [hlater]
      rcases ih with ⟨key,hmem,hfound⟩ | ⟨hsame,hall⟩
      · exact .inl ⟨key,List.mem_cons_of_mem _ hmem,hfound⟩
      · refine .inr ⟨hsame,List.forall_mem_cons.mpr ⟨fun hcheck => ?_,hall⟩⟩
        by_contra hnone
        exact hfirst ⟨Bool.not_eq_true _ ▸ hnone,hcheck⟩

/-- Each signature in the map is by its key, and no key that one of these is by is missing. -/
structure Matched (checkSig : Valtype → Valtype → Bool) (keys allsigs : List Valtype)
    (sigs : List (Valtype × Valtype)) : Prop where
  sound : ∀ key sig, sigs.lookup key = some sig → sig ∈ allsigs ∧ checkSig sig key = true
  complete : ∀ sig ∈ allsigs, ∀ key ∈ keys, checkSig sig key = true →
    (sigs.lookup key).isSome = true

theorem lookup_cons_ne {key' : Valtype} (h : key' ≠ key) :
    List.lookup key' ((key,sig) :: sigs) = List.lookup key' sigs := by
  rw [List.lookup_cons,beq_eq_false_iff_ne.mpr h]

/-- A signature that is by at most one of the keys is not lost. -/
theorem Matched.step (h : Matched checkSig keys allsigs sigs)
    (hsingle : ∀ key ∈ keys, ∀ key' ∈ keys, checkSig sig key = true → checkSig sig key' = true →
      key = key') :
    Matched checkSig keys (allsigs ++ [sig]) (matchSig checkSig sig sigs keys) := by
  have hold {sig' : Valtype} (hmem : sig' ∈ allsigs) : sig' ∈ allsigs ++ [sig] :=
    List.mem_append_left _ hmem
  rcases @matchSig_cases checkSig sig sigs keys with ⟨key,hkey,hnone,hcheck,heq⟩ | ⟨heq,hall⟩
  · rw [heq]
    constructor
    · intro key' sig' hlookup
      by_cases hsame : key' = key
      · subst hsame
        rw [List.lookup_cons_self] at hlookup
        obtain rfl := Option.some.inj hlookup
        exact ⟨List.mem_append_right _ List.mem_cons_self,hcheck⟩
      · rw [lookup_cons_ne hsame] at hlookup
        exact ⟨hold (h.sound key' sig' hlookup).1,(h.sound key' sig' hlookup).2⟩
    · intro sig' hsig key' hkey' hcheck'
      by_cases hsame : key' = key
      · rw [hsame,List.lookup_cons_self]
        rfl
      · rw [lookup_cons_ne hsame]
        rcases List.mem_append.mp hsig with hmem | hnew
        · exact h.complete sig' hmem key' hkey' hcheck'
        · rw [List.mem_singleton.mp hnew] at hcheck'
          exact absurd (hsingle key' hkey' key hkey hcheck' hcheck) hsame
  · rw [heq]
    constructor
    · intro key' sig' hlookup
      exact ⟨hold (h.sound key' sig' hlookup).1,(h.sound key' sig' hlookup).2⟩
    · intro sig' hsig key' hkey' hcheck'
      rcases List.mem_append.mp hsig with hmem | hnew
      · exact h.complete sig' hmem key' hkey' hcheck'
      · rw [List.mem_singleton.mp hnew] at hcheck'
        exact hall key' hkey' hcheck'

theorem Matched.run {done : List Valtype} (h : Matched checkSig keys done sigs)
    (hsingle : ∀ sig ∈ allsigs, ∀ key ∈ keys, ∀ key' ∈ keys, checkSig sig key = true →
      checkSig sig key' = true → key = key') :
    Matched checkSig keys (done ++ allsigs)
      (allsigs.foldl (fun sigs sig => matchSig checkSig sig sigs keys) sigs) := by
  induction allsigs generalizing done sigs with
  | nil => simpa using h
  | cons sig allsigs ih =>
    have hnext := h.step (hsingle sig List.mem_cons_self)
    have hlater := ih hnext fun sig' hsig => hsingle sig' (List.mem_cons_of_mem _ hsig)
    simpa using hlater

theorem matched_matchSigs (hsingle : ∀ sig ∈ allsigs, ∀ key ∈ keys, ∀ key' ∈ keys,
      checkSig sig key = true → checkSig sig key' = true → key = key') :
    Matched checkSig keys allsigs (matchSigs checkSig keys allsigs) := by
  have hempty : Matched checkSig keys [] [] :=
    ⟨fun key sig h => absurd h (by simp),fun sig hsig => absurd hsig List.not_mem_nil⟩
  exact hempty.run hsingle

/-- A key has a signature in the map when some signature is by it. -/
theorem Matched.isSome_iff (h : Matched checkSig keys allsigs sigs) (hkey : key ∈ keys) :
    (sigs.lookup key).isSome = true ↔ ∃ sig ∈ allsigs, checkSig sig key = true := by
  constructor
  · intro hsome
    obtain ⟨sig,hlookup⟩ := Option.isSome_iff_exists.mp hsome
    exact ⟨sig,h.sound key sig hlookup⟩
  · rintro ⟨sig,hsig,hcheck⟩
    exact h.complete sig hsig key hkey hcheck

/-- The signatures are written in the order of the keys, as many as are required. -/
theorem mergeSigs_eq {nSigsRequired nSigsHave : Nat} (hle : nSigsHave ≤ nSigsRequired)
    (result : CScript) :
    mergeSigs sigs nSigsRequired keys nSigsHave result =
      (nSigsHave+((keys.filterMap fun key => sigs.lookup key).take
          (nSigsRequired-nSigsHave)).length,
        result ++ ((keys.filterMap fun key => sigs.lookup key).take
          (nSigsRequired-nSigsHave)).flatMap pushData) := by
  induction keys generalizing nSigsHave result with
  | nil => simp [mergeSigs]
  | cons pubkey keys ih =>
    unfold mergeSigs
    by_cases hmore : nSigsHave < nSigsRequired
    · rw [if_pos hmore]
      cases hlookup : sigs.lookup pubkey with
      | none =>
        dsimp only
        rw [ih hle,List.filterMap_cons_none (f := fun key => sigs.lookup key) hlookup]
      | some sig =>
        have hnext : nSigsRequired-nSigsHave = nSigsRequired-(nSigsHave+1)+1 := by omega
        dsimp only
        rw [ih (by omega : nSigsHave+1 ≤ nSigsRequired),
          List.filterMap_cons_some (f := fun key => sigs.lookup key) hlookup,hnext,
          List.take_succ_cons,List.length_cons,List.flatMap_cons,List.append_assoc]
        simp only [Prod.mk.injEq,and_true]
        omega
    · have hnone : nSigsRequired-nSigsHave = 0 := by omega
      rw [if_neg hmore,hnone]
      simp

end Matched

section Combined
variable {checkSig : Valtype → Valtype → Bool} {script : CScript} {m : Nat}
  {keys sigs sigs1 sigs2 : List Valtype}

theorem flatMap_placeholders (k : Nat) :
    (List.replicate k ([] : Valtype)).flatMap pushData = List.replicate k 0 := by
  induction k with
  | zero => rfl
  | succ k ih =>
    rw [List.replicate_succ,List.flatMap_cons,ih]
    rfl

/-- The signature that the map holds for a key. -/
def sigFor (checkSig : Valtype → Valtype → Bool) (keys sigs1 sigs2 : List Valtype) (key : Valtype) :
    Option Valtype :=
  (matchSigs checkSig keys (insertSigs (insertSigs .empty sigs1) sigs2).elements).lookup key

/-- The signatures for the keys, in their order, filled up with placeholders. -/
theorem combineMultisig_eq (hm : m ≤ 16) (vchN : Valtype) :
    combineMultisig checkSig ([UInt8.ofNat m] :: (keys ++ [vchN])) sigs1 sigs2 =
      ([] :: filled [] m (keys.filterMap (sigFor checkSig keys sigs1 sigs2))).flatMap pushData := by
  have hfront : (UInt8.ofNat m).toNat = m := UInt8.toNat_ofNat_of_lt' (show m < 256 by omega)
  unfold combineMultisig filled
  simp only [List.headD_cons,hfront,List.drop_succ_cons,List.drop_zero,List.dropLast_concat,
    mergeSigs_eq (Nat.zero_le m),Nat.sub_zero,Nat.zero_add,List.length_take,List.flatMap_cons,
    List.flatMap_append,flatMap_placeholders,← Nat.sub_eq_sub_min,List.append_assoc]
  rfl

theorem mem_allsigs {sig : Valtype} :
    sig ∈ (insertSigs (insertSigs OrderedSet.empty sigs1) sigs2).elements ↔
      sig ∈ sigs1 ++ sigs2 ∧ sig ≠ [] := by
  rw [mem_insertSigs,mem_insertSigs,List.mem_append]
  simp only [OrderedSet.empty,List.not_mem_nil,false_or]
  tauto

/-- What is found for a key is a given signature by it, and one is found if there is any. -/
theorem sigFor_spec (hempty : ∀ key, checkSig [] key = false)
    (hsingle : ∀ sig ∈ sigs1 ++ sigs2, ∀ key ∈ keys, ∀ key' ∈ keys, checkSig sig key = true →
      checkSig sig key' = true → key = key') :
    (∀ key sig, sigFor checkSig keys sigs1 sigs2 key = some sig →
      sig ∈ sigs1 ++ sigs2 ∧ checkSig sig key = true) ∧
    ∀ key ∈ keys, (sigFor checkSig keys sigs1 sigs2 key).isSome =
      (sigs1 ++ sigs2).any fun sig => checkSig sig key := by
  have hmatched := matched_matchSigs fun sig hsig => hsingle sig (mem_allsigs.mp hsig).1
  constructor
  · intro key sig hlookup
    obtain ⟨hsig,hcheck⟩ := hmatched.sound key sig hlookup
    exact ⟨(mem_allsigs.mp hsig).1,hcheck⟩
  · intro key hkey
    rw [sigFor,Bool.eq_iff_iff,hmatched.isSome_iff hkey,List.any_eq_true]
    constructor
    · rintro ⟨sig,hsig,hcheck⟩
      exact ⟨sig,(mem_allsigs.mp hsig).1,hcheck⟩
    · rintro ⟨sig,hsig,hcheck⟩
      refine ⟨sig,mem_allsigs.mpr ⟨hsig,?_⟩,hcheck⟩
      rintro rfl
      rw [hempty] at hcheck
      exact Bool.false_ne_true hcheck

/-- The machine takes the encodings of the keys and of the signatures by them, and no such
signature is a key. -/
structure Admits (machine : ScriptEnv) (checkSig : Valtype → Valtype → Bool)
    (keys sigs : List Valtype) : Prop where
  key : ∀ key ∈ keys, Yields (machine.checkPubKeyEncoding key) ()
  signature : ∀ sig ∈ sigs, ∀ key ∈ keys, checkSig sig key = true →
    Yields (machine.checkSignatureEncoding sig) ()
  apart : ∀ sig ∈ sigs, ∀ key ∈ keys, checkSig sig key = true → sig ∉ keys

/-- What the script leaves over signatures that are none of its keys. -/
theorem IsMultiSigScript.runs {machine : ScriptEnv} (h : IsMultiSigScript script m keys)
    (hminimal : machine.fRequireMinimal = false) (hcount : sigs.length = m)
    (hapart : ∀ sig ∈ sigs, Small sig ∧ sig ∉ keys)
    (hanswers : ScriptEnv.Answers machine script sigs.reverse keys.reverse checkSig) :
    Yields (machine.evalScript ([] :: sigs).reverse script)
      [vchOf (greedyMatch checkSig sigs.reverse keys.reverse)] := by
  obtain ⟨kops,rfl,hform⟩ := h.form
  obtain ⟨hpos,hle,hsixteen,-⟩ := h
  have hdecode := (encodeOpN_small hpos (by omega)).2
  have hcode : ScriptEnv.withoutSignatures script sigs.reverse = script :=
    ScriptEnv.withoutSignatures_of_forall fun sig hsig => by
      obtain ⟨hsmall,hne⟩ := hapart sig (List.mem_reverse.mp hsig)
      exact hform.findAndDelete hsmall hne
  have hrest : ([] : List Valtype).length ≤ 900 := Nat.zero_le 900
  have heval := hform.evalScript hminimal (hcount.trans hdecode.symm) (fun _ => rfl) hrest
    (by rwa [hcode])
  rwa [← List.reverse_cons] at heval

end Combined

namespace SignerEnv
variable {env : SignerEnv} {flags : Nat} {txTo : CTransaction} {nIn : Nat}
  {script scriptPubKey scriptSig scriptSig1 scriptSig2 : CScript} {m : Nat}
  {keys datas redeem sigs1 sigs2 : List Valtype}

/-- The output pays to the script, or to its hash; a scriptSig then ends with the script. -/
inductive PaysTo (env : SignerEnv) (script : CScript) : CScript → List Valtype → Prop
  | direct : PaysTo env script script []
  | scriptHash {scriptPubKey : CScript} : CScript.isPayToScriptHash scriptPubKey = true →
      env.hashes.hash160 script = (scriptPubKey.drop 2).take 20 →
      PaysTo env script scriptPubKey [script]

theorem checkSig_nil (key : Valtype) : env.checkSig txTo nIn script [] key = false := by
  unfold checkSig transactionChecker
  split <;> rfl

theorem stackOf_pushes (h : Pushes scriptSig datas) :
    env.stackOf scriptSig = some datas.reverse := by
  have hminimal : (⟨SCRIPT_VERIFY_STRICTENC,env.hashes,fun _ _ _ _ => false⟩ :
      ScriptEnv).fRequireMinimal = false := by
    show (SCRIPT_VERIFY_STRICTENC &&& SCRIPT_VERIFY_MINIMALDATA != 0) = false
    decide
  obtain ⟨n,heval⟩ := ScriptEnv.yields_pushes h hminimal 0
  unfold stackOf
  rw [heval]

/-- For either output the merged signatures are those of the script, with the script behind
them. -/
theorem combineSignatures_eq (hscript : IsMultiSigScript script m keys)
    (hpays : env.PaysTo script scriptPubKey redeem) (h1 : Pushes scriptSig1 (sigs1 ++ redeem))
    (h2 : Pushes scriptSig2 (sigs2 ++ redeem)) :
    env.combineSignatures scriptPubKey txTo nIn scriptSig1 scriptSig2 =
      some (combineMultisig (env.checkSig txTo nIn script)
        ([UInt8.ofNat m] :: (keys ++ [[UInt8.ofNat keys.length]])) sigs1.reverse sigs2.reverse ++
          redeem.flatMap pushData) := by
  have hsolver : solver env.fDataCarrier script =
      (true,.multisig,[UInt8.ofNat m] :: (keys ++ [[UInt8.ofNat keys.length]])) :=
    solver_multisig_iff.mpr ⟨m,keys,hscript,rfl⟩
  unfold combineSignatures
  rw [stackOf_pushes h1,stackOf_pushes h2]
  cases hpays with
  | direct =>
    rw [hsolver]
    unfold combineStacks
    simp
  | scriptHash hp2sh _ =>
    have hne : script ≠ [] := by
      obtain ⟨-,-,-,-,pushes,-,rfl⟩ := hscript
      exact List.cons_ne_nil _ _
    rw [solver_scripthash_iff.mpr ⟨hp2sh,rfl⟩]
    simp only [List.reverse_append,List.reverse_singleton,List.singleton_append]
    unfold combineStacks
    simp only [hne,if_false,List.headD_cons,hsolver,List.tail_cons]
    unfold combineStacks
    simp

/-- What is merged is taken by the script when the keys with a signature are enough. -/
theorem merged_runs (hscript : IsMultiSigScript script m keys)
    (hminimal : (env.checker flags txTo nIn).fRequireMinimal = false)
    (hsmall : AllSmall (sigs1 ++ sigs2))
    (hsingle : ∀ sig ∈ sigs1 ++ sigs2, ∀ key ∈ keys, ∀ key' ∈ keys,
      env.checkSig txTo nIn script sig key = true → env.checkSig txTo nIn script sig key' = true →
        key = key')
    (hadmits : Admits (env.checker flags txTo nIn) (env.checkSig txTo nIn script) keys
      (sigs1 ++ sigs2)) :
    ∃ sigs fOk, AllSmall sigs ∧ sigs.length = m ∧
      combineMultisig (env.checkSig txTo nIn script)
        ([UInt8.ofNat m] :: (keys ++ [[UInt8.ofNat keys.length]])) sigs1 sigs2 =
          ([] :: sigs).flatMap pushData ∧
      Yields ((env.checker flags txTo nIn).evalScript ([] :: sigs).reverse script) [vchOf fOk] ∧
      (fOk = true ↔ m ≤ keys.countP fun key =>
        (sigs1 ++ sigs2).any fun sig => env.checkSig txTo nIn script sig key) := by
  obtain ⟨hfound,hsome⟩ := sigFor_spec (@checkSig_nil env txTo nIn script) hsingle
  have hsigs {sig : Valtype} (hsig : sig ∈ filled [] m (keys.filterMap
      (sigFor (env.checkSig txTo nIn script) keys sigs1 sigs2))) :
      sig = [] ∨ ∃ key ∈ keys, sig ∈ sigs1 ++ sigs2 ∧
        env.checkSig txTo nIn script sig key = true := by
    rcases mem_of_mem_filled hsig with hchosen | hpad
    · obtain ⟨key,hkey,hlookup⟩ := List.mem_filterMap.mp hchosen
      exact .inr ⟨key,hkey,hfound key sig hlookup⟩
    · exact .inl hpad
  have hkeySizes := hscript.2.2.2.1
  have hlow := hscript.1
  have hcount := hscript.2.1
  have hsixteen := hscript.2.2.1
  have hsmallAll : AllSmall (filled [] m (keys.filterMap
      (sigFor (env.checkSig txTo nIn script) keys sigs1 sigs2))) := by
    intro sig hsig
    rcases hsigs hsig with rfl | ⟨key,-,hmem,-⟩
    · exact Nat.zero_le _
    · exact hsmall sig hmem
  have hapart : ∀ sig ∈ filled [] m (keys.filterMap
      (sigFor (env.checkSig txTo nIn script) keys sigs1 sigs2)), Small sig ∧ sig ∉ keys := by
    intro sig hsig
    refine ⟨hsmallAll sig hsig,fun hin => ?_⟩
    rcases hsigs hsig with rfl | ⟨key,hkey,hmem,hcheck⟩
    · have := (hkeySizes [] hin).1
      rw [List.length_nil] at this
      omega
    · exact hadmits.apart sig hmem key hkey hcheck hin
  have hanswers : ScriptEnv.Answers (env.checker flags txTo nIn) script (filled [] m
      (keys.filterMap (sigFor (env.checkSig txTo nIn script) keys sigs1 sigs2))).reverse
      keys.reverse (env.checkSig txTo nIn script) := by
    intro sig hsig key hkey
    refine Yields.bind (a := ()) ?_ (Yields.bind (a := ())
      (hadmits.key key (List.mem_reverse.mp hkey)) fun n => ⟨n+1,rfl⟩)
    rcases hsigs (List.mem_reverse.mp hsig) with rfl | ⟨key',hkey',hmem,hcheck⟩
    · exact yields_pure ()
    · exact hadmits.signature sig hmem key' hkey' hcheck
  refine ⟨_,_,hsmallAll,length_filled,combineMultisig_eq (by omega) _,
    hscript.runs hminimal length_filled hapart hanswers,?_⟩
  rw [greedyMatch_iff,matches_reverse,
    matches_filled_iff (fun key sig h => (hfound key sig h).2) fun key _ => checkSig_nil key,
    List.length_filterMap_eq_countP]
  refine iff_of_eq (congrArg (m ≤ ·) (List.countP_congr fun key hkey => ?_))
  rw [hsome key hkey]

/-- The merged scriptSig is accepted if and only if enough keys have a valid signature in one of
the two. -/
theorem combineSignatures_accepts (hscript : IsMultiSigScript script m keys)
    (hpays : env.PaysTo script scriptPubKey redeem) (h1 : Pushes scriptSig1 (sigs1 ++ redeem))
    (h2 : Pushes scriptSig2 (sigs2 ++ redeem))
    (hp2sh : redeem ≠ [] → (env.checker flags txTo nIn).hasFlag SCRIPT_VERIFY_P2SH = true)
    (hminimal : (env.checker flags txTo nIn).fRequireMinimal = false)
    (hsingle : ∀ sig ∈ sigs1 ++ sigs2, ∀ key ∈ keys, ∀ key' ∈ keys,
      env.checkSig txTo nIn script sig key = true → env.checkSig txTo nIn script sig key' = true →
        key = key')
    (hadmits : Admits (env.checker flags txTo nIn) (env.checkSig txTo nIn script) keys
      (sigs1 ++ sigs2)) :
    ∃ scriptSig, env.combineSignatures scriptPubKey txTo nIn scriptSig1 scriptSig2 =
        some scriptSig ∧
      (((env.checker flags txTo nIn).verifyScript scriptSig scriptPubKey).accepts = true ↔
        m ≤ keys.countP fun key =>
          (sigs1 ++ sigs2).any fun sig => env.checkSig txTo nIn script sig key) := by
  have hmem {sig : Valtype} : sig ∈ sigs1.reverse ++ sigs2.reverse ↔ sig ∈ sigs1 ++ sigs2 := by
    simp
  have hsmall : AllSmall (sigs1.reverse ++ sigs2.reverse) := by
    intro sig hsig
    rcases List.mem_append.mp (hmem.mp hsig) with hfirst | hsecond
    · exact h1.allSmall sig (List.mem_append_left _ hfirst)
    · exact h2.allSmall sig (List.mem_append_left _ hsecond)
  obtain ⟨sigs,fOk,hsigsSmall,hlength,hmerged,hruns,hiff⟩ := merged_runs hscript hminimal hsmall
    (fun sig hsig => hsingle sig (hmem.mp hsig))
    ⟨hadmits.key,fun sig hsig => hadmits.signature sig (hmem.mp hsig),
      fun sig hsig => hadmits.apart sig (hmem.mp hsig)⟩
  refine ⟨_,combineSignatures_eq hscript hpays h1 h2,?_⟩
  have hcount := hscript.2.1
  have hsixteen := hscript.2.2.1
  have hpushed : AllSmall ([] :: sigs) := List.forall_mem_cons.mpr ⟨Nat.zero_le _,hsigsSmall⟩
  have hpushedCount : ([] :: sigs).length = m+1 := by rw [List.length_cons,hlength]
  have haccepts : ((env.checker flags txTo nIn).verifyScript
      (([] :: sigs).flatMap pushData ++ redeem.flatMap pushData) scriptPubKey).accepts = fOk := by
    rw [← List.flatMap_append]
    cases hpays with
    | direct =>
      rw [List.append_nil]
      exact ScriptEnv.accepts_pushes (pushes_pushData hpushed (by omega)) hminimal hruns
        hscript.not_scripthash
    | scriptHash hpayTo hhash =>
      have hscriptSmall : Small script := h1.allSmall script (by simp)
      have hall : AllSmall ([] :: sigs ++ [script]) :=
        List.forall_mem_append.mpr ⟨hpushed,List.forall_mem_singleton.mpr hscriptSmall⟩
      have hpushes := pushes_pushData hall (by
        rw [List.length_append,hpushedCount,List.length_singleton]
        omega)
      exact ScriptEnv.accepts_redeem hpushes hminimal (hp2sh (List.cons_ne_nil _ _)) hpayTo hhash
        (by omega) hruns
  rw [hmerged,haccepts]
  simpa [or_comm] using hiff

end SignerEnv

/-- A digest that only counts the bytes. -/
def countBytes (preimage : List UInt8) : Uint256 := BitVec.ofNat 256 preimage.length

/-- These signatures verify, each with its key and for its digest. -/
def knowing (signs : List (Valtype × Valtype × Uint256)) : SignerEnv :=
  { generatorEnv with
    hashes := zeroHashes
    hash := countBytes
    verifySignature := fun vchSig vchPubKey hash => decide ((vchSig,vchPubKey,hash) ∈ signs) }

/-- A key in compressed form, and a signature in canonical form. -/
def compressedKey (x : UInt8) : Valtype := 2 :: List.replicate 32 x

def canonicalSig (r : UInt8) : Valtype := [0x30,6,2,1,r,2,1,1]

def multiSigOf (m : Nat) (keys : List Valtype) : CScript :=
  encodeOpN m :: ((keys.map pushData).flatten ++ [encodeOpN keys.length,OP_CHECKMULTISIG])

theorem pushes_few {datas : List Valtype} (hsmall : ∀ vch ∈ datas, vch.length ≤ 520)
    (hcount : datas.length ≤ 18) : Pushes (datas.flatMap pushData) datas :=
  pushes_pushData hsmall hcount

def threeKeys : List Valtype := [compressedKey 1,compressedKey 2,compressedKey 3]

/-- Signatures by the first and by the last key, over one digest. -/
def firstAndLast : List (Valtype × Valtype × Uint256) :=
  [(canonicalSig 1,compressedKey 1,signatureHash countBytes (multiSigOf 2 threeKeys) spendTx 0 1),
    (canonicalSig 3,compressedKey 3,signatureHash countBytes (multiSigOf 2 threeKeys) spendTx 0 1)]

def payToZeroHash : CScript := [OP_HASH160,0x14] ++ List.replicate 20 0 ++ [OP_EQUAL]

/-- One signature in each scriptSig, the later one first, and an output that pays to the hash of
the script. -/
theorem combineSignatures_accepts_merged :
    ∃ scriptSig, (knowing firstAndLast).combineSignatures payToZeroHash spendTx 0
        (([[],canonicalSig 3 ++ [1]] ++ [multiSigOf 2 threeKeys]).flatMap pushData)
        (([[],canonicalSig 1 ++ [1]] ++ [multiSigOf 2 threeKeys]).flatMap pushData) =
          some scriptSig ∧
      (((knowing firstAndLast).checker STANDARD_SCRIPT_VERIFY_FLAGS spendTx 0).verifyScript
        scriptSig payToZeroHash).accepts = true := by
  have hscript : IsMultiSigScript (multiSigOf 2 threeKeys) 2 threeKeys :=
    isMultiSigScript_pushData (by decide) (by decide) (by decide) (by decide)
  have hcommon : ∀ key ∈ threeKeys,
      ScriptEnv.isCompressedOrUncompressedPubKey key = true := by decide
  have hcanonical : ∀ sig ∈ [[],canonicalSig 3 ++ [1]] ++ [[],canonicalSig 1 ++ [1]], sig = [] ∨
      (ScriptEnv.isValidSignatureEncoding sig = true ∧
        ScriptEnv.isDefinedHashtypeSignature sig = true) := by decide
  have hpays : (knowing firstAndLast).PaysTo (multiSigOf 2 threeKeys) payToZeroHash
      [multiSigOf 2 threeKeys] := .scriptHash (by decide) (by decide)
  have h1 := @pushes_few ([[],canonicalSig 3 ++ [1]] ++ [multiSigOf 2 threeKeys]) (by decide)
    (by decide)
  have h2 := @pushes_few ([[],canonicalSig 1 ++ [1]] ++ [multiSigOf 2 threeKeys]) (by decide)
    (by decide)
  have hadmits : Admits ((knowing firstAndLast).checker STANDARD_SCRIPT_VERIFY_FLAGS spendTx 0)
      ((knowing firstAndLast).checkSig spendTx 0 (multiSigOf 2 threeKeys)) threeKeys
      ([[],canonicalSig 3 ++ [1]] ++ [[],canonicalSig 1 ++ [1]]) := by
    refine ⟨fun key hkey => ScriptEnv.yields_checkPubKeyEncoding (hcommon key hkey),?_,
      by decide +kernel⟩
    intro sig hsig key _ _
    rcases hcanonical sig hsig with rfl | hsig
    · exact yields_pure ()
    · exact ScriptEnv.yields_checkSignatureEncoding (by decide) hsig
  obtain ⟨scriptSig,hcombined,hiff⟩ := SignerEnv.combineSignatures_accepts hscript hpays h1 h2
    (fun _ => by decide) (by decide) (by decide +kernel) hadmits
  exact ⟨scriptSig,hcombined,hiff.mpr (by decide +kernel)⟩

/-- The keys of the script with a signature are enough, each signature is by at most one key, and
yet what is merged from the two scriptSigs is rejected. -/
def Lost (env : SignerEnv) (flags : Nat) (txTo : CTransaction) (nIn m : Nat)
    (keys sigs1 sigs2 : List Valtype) : Prop :=
  ∃ script scriptSig1 scriptSig2, IsMultiSigScript script m keys ∧
    Pushes scriptSig1 sigs1 ∧ Pushes scriptSig2 sigs2 ∧
    (∀ sig ∈ sigs1 ++ sigs2, ∀ key ∈ keys, ∀ key' ∈ keys,
      env.checkSig txTo nIn script sig key = true → env.checkSig txTo nIn script sig key' = true →
        key = key') ∧
    m ≤ keys.countP (fun key =>
      (sigs1 ++ sigs2).any fun sig => env.checkSig txTo nIn script sig key) ∧
    (env.combineSignatures script txTo nIn scriptSig1 scriptSig2).map (fun scriptSig =>
      ((env.checker flags txTo nIn).verifyScript scriptSig script).accepts) = some false

/-- The second of these keys is a signature for the first, over the digest that does not depend on
the script. -/
def signatureAsKey : Valtype := List.replicate 32 9 ++ [SIGHASH_SINGLE.toUInt8]

def keysWithSignature : List Valtype := [compressedKey 1,signatureAsKey,compressedKey 3]

def lastSignature (txTo : CTransaction) : Valtype × Valtype × Uint256 :=
  ([8],compressedKey 3,signatureHash countBytes (multiSigOf 2 keysWithSignature) txTo 0 SIGHASH_ALL)

/-- An input without an output of its own. -/
def spendSingle : CTransaction := { spendTx with vout := [] }

/-- A key that no strict encoding allows, a signature that none allows in front of one that is
fine, and a signature that the interpreter deletes from the script as one of the keys. -/
theorem combineSignatures_loses :
    Lost generatorEnv STANDARD_SCRIPT_VERIFY_FLAGS spendTx 0 1
      [generatorKey,List.replicate 33 9] [[],generatorSignature ++ [1]] [] ∧
    Lost generatorEnv STANDARD_SCRIPT_VERIFY_FLAGS spendTx 0 1
      [generatorKey] [[],generatorSignature ++ [0]] [[],generatorSignature ++ [1]] ∧
    Lost (knowing [(signatureAsKey.dropLast,compressedKey 1,1),lastSignature spendSingle])
      SCRIPT_VERIFY_P2SH spendSingle 0 2 keysWithSignature [[],signatureAsKey] [[],[8,1]] := by
  refine ⟨?_,?_,?_⟩
  · exact ⟨_,_,_,isMultiSigScript_pushData (by decide) (by decide) (by decide) (by decide),
      pushes_few (by decide) (by decide),pushes_few (by decide) (by decide),by decide +kernel,
      by decide +kernel,by decide +kernel⟩
  · exact ⟨_,_,_,isMultiSigScript_pushData (by decide) (by decide) (by decide) (by decide),
      pushes_few (by decide) (by decide),pushes_few (by decide) (by decide),by decide +kernel,
      by decide +kernel,by decide +kernel⟩
  · exact ⟨_,_,_,isMultiSigScript_pushData (by decide) (by decide) (by decide) (by decide),
      pushes_few (by decide) (by decide),pushes_few (by decide) (by decide),by decide +kernel,
      by decide +kernel,by decide +kernel⟩

end Anoncoin
