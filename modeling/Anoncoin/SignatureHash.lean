import Anoncoin.ScriptLimits
import Anoncoin.Serialize

/-!
What a signature signs: the serializer of script.cpp that leaves out parts of a transaction
in place, the hash over a blanked copy in sighash_tests.cpp, and the checker of
sigcache.cpp over either of them.
-/

set_option autoImplicit false

namespace Anoncoin
open Lib

def SIGHASH_NONE : UInt32 := 2

def SIGHASH_SINGLE : UInt32 := 3

def SIGHASH_ANYONECANPAY : UInt32 := 0x80

/-- The first loop of `SerializeScriptCode`. -/
def codeSeparators (it : CScript) : Nat :=
  match _h : getOp it with
  | (none,_) => 0
  | (some op,rest) =>
      if op.opcode = OP_CODESEPARATOR then codeSeparators rest+1 else codeSeparators rest
  termination_by it.length
  decreasing_by all_goals exact getOp_length _h

/-- The second loop of `SerializeScriptCode`, which writes from `itBegin` up to each code
separator, and at the end up to where the iterator stands. -/
def writeCode (itBegin it : CScript) : List UInt8 :=
  match _h : getOp it with
  | (none,it) => consumed itBegin it
  | (some op,it) =>
      if op.opcode = OP_CODESEPARATOR then
        itBegin.take (itBegin.length-it.length-1) ++ writeCode it it
      else writeCode itBegin it
  termination_by it.length
  decreasing_by all_goals exact getOp_length _h

def serializeScriptCode (scriptCode : CScript) : List UInt8 :=
  writeCompactSize (scriptCode.length-codeSeparators scriptCode) ++ writeCode scriptCode scriptCode

structure CTransactionSignatureSerializer where
  txTo : CTransaction
  scriptCode : CScript
  nIn : Nat
  fAnyoneCanPay : Bool
  fHashSingle : Bool
  fHashNone : Bool

namespace CTransactionSignatureSerializer

/-- The constructor; `nHashType` stands for the `int` of these bits. -/
def new (txTo : CTransaction) (scriptCode : CScript) (nIn : Nat) (nHashType : UInt32) :
    CTransactionSignatureSerializer where
  txTo := txTo
  scriptCode := scriptCode
  nIn := nIn
  fAnyoneCanPay := nHashType &&& SIGHASH_ANYONECANPAY != 0
  fHashSingle := nHashType &&& 0x1f == SIGHASH_SINGLE
  fHashNone := nHashType &&& 0x1f == SIGHASH_NONE

variable (s : CTransactionSignatureSerializer)

def serializeInput (nInput : Nat) : List UInt8 :=
  let nInput := if s.fAnyoneCanPay then s.nIn else nInput
  match s.txTo.vin[nInput]? with
  | none => []
  | some txin =>
      txin.prevout.serialize ++
        ((if nInput ≠ s.nIn then serializeBytes [] else serializeScriptCode s.scriptCode) ++
          if nInput ≠ s.nIn ∧ (s.fHashSingle = true ∨ s.fHashNone = true) then littleEndian 4 0
          else littleEndian 4 txin.nSequence)

def serializeOutput (nOutput : Nat) : List UInt8 :=
  if s.fHashSingle = true ∧ nOutput ≠ s.nIn then CTxOut.null.serialize
  else
    match s.txTo.vout[nOutput]? with
    | none => []
    | some txout => txout.serialize

def nInputs : Nat := if s.fAnyoneCanPay then 1 else s.txTo.vin.length

def nOutputs : Nat :=
  if s.fHashNone then 0 else if s.fHashSingle then s.nIn+1 else s.txTo.vout.length

def serialize : List UInt8 :=
  writeInt 4 s.txTo.nVersion ++
    ((writeCompactSize s.nInputs ++ (List.range s.nInputs).flatMap s.serializeInput) ++
      ((writeCompactSize s.nOutputs ++ (List.range s.nOutputs).flatMap s.serializeOutput) ++
        littleEndian 4 s.txTo.nLockTime))

end CTransactionSignatureSerializer

/-- What `SignatureHash` hashes, unless it returns 1. -/
def signaturePreimage (scriptCode : CScript) (txTo : CTransaction) (nIn : Nat) (nHashType : UInt32) :
    Option (List UInt8) :=
  if txTo.vin.length ≤ nIn then none
  else if nHashType &&& 0x1f = SIGHASH_SINGLE ∧ txTo.vout.length ≤ nIn then none
  else
    some ((CTransactionSignatureSerializer.new txTo scriptCode nIn nHashType).serialize ++
      littleEndian 4 nHashType.toNat)

/-- The other inputs may be updated at will. -/
def releaseSequences (nIn : Nat) (vin : List CTxIn) : List CTxIn :=
  vin.mapIdx fun i txin => if i ≠ nIn then { txin with nSequence := 0 } else txin

/-- What `SignatureHashOld` hashes, unless it returns 1. -/
def signaturePreimageOld (scriptCode : CScript) (txTo : CTransaction) (nIn : Nat)
    (nHashType : UInt32) : Option (List UInt8) :=
  if txTo.vin.length ≤ nIn then none
  else
    let scriptCode := findAndDelete scriptCode [OP_CODESEPARATOR]
    let vin := txTo.vin.mapIdx fun i (txin : CTxIn) =>
      { txin with scriptSig := if i = nIn then scriptCode else [] }
    let finish (vin : List CTxIn) (vout : List CTxOut) : List UInt8 :=
      let vin := if nHashType &&& SIGHASH_ANYONECANPAY ≠ 0 then vin[nIn]?.toList else vin
      CTransaction.serialize { txTo with vin := vin, vout := vout } ++ littleEndian 4 nHashType.toNat
    if nHashType &&& 0x1f = SIGHASH_NONE then some (finish (releaseSequences nIn vin) [])
    else if nHashType &&& 0x1f = SIGHASH_SINGLE then
      if txTo.vout.length ≤ nIn then none
      else some (finish (releaseSequences nIn vin)
        ((txTo.vout.take (nIn+1)).mapIdx fun i txout => if i < nIn then .null else txout))
    else some (finish vin txTo.vout)

/-- The hash that is signed, from what there is to hash. -/
def hashOrOne (hash : List UInt8 → Uint256) : Option (List UInt8) → Uint256
  | none => 1
  | some preimage => hash preimage

def signatureHash (hash : List UInt8 → Uint256) (scriptCode : CScript) (txTo : CTransaction)
    (nIn : Nat) (nHashType : UInt32) : Uint256 :=
  hashOrOne hash (signaturePreimage scriptCode txTo nIn nHashType)

def signatureHashOld (hash : List UInt8 → Uint256) (scriptCode : CScript) (txTo : CTransaction)
    (nIn : Nat) (nHashType : UInt32) : Uint256 :=
  hashOrOne hash (signaturePreimageOld scriptCode txTo nIn nHashType)

/-- `CPubKey::GetLen`. -/
def pubKeyLen (chHeader : UInt8) : Nat :=
  if chHeader = 2 ∨ chHeader = 3 then 33
  else if chHeader = 4 ∨ chHeader = 6 ∨ chHeader = 7 then 65
  else 0

/-- `CPubKey(vchPubKey).IsValid()`. -/
def isValidPubKey : Valtype → Bool
  | [] => false
  | chHeader :: rest => pubKeyLen chHeader == rest.length+1

/-- `TransactionSignatureChecker::CheckSig` over a signature hash and a predicate for
`VerifySignature`. -/
def transactionChecker (sighash : CScript → UInt32 → Uint256)
    (verifySignature : Valtype → Valtype → Uint256 → Bool) : SignatureChecker :=
  fun _ vchSigIn vchPubKey scriptCode =>
    if isValidPubKey vchPubKey then
      match vchSigIn.getLast? with
      | none => false
      | some nHashType =>
          verifySignature vchSigIn.dropLast vchPubKey (sighash scriptCode nHashType.toUInt32)
    else false

/-- `GetOp` reads the script to its end. -/
inductive Parses : CScript → Prop
  | nil : Parses []
  | op {pc rest : CScript} {op : Op} : getOp pc = (some op,rest) → Parses rest → Parses pc

theorem Parses.rest {pc rest : CScript} {op : Op} (h : Parses pc) (hop : getOp pc = (some op,rest)) :
    Parses rest := by
  cases h with
  | nil => exact absurd rfl (getOp_ne_nil hop)
  | op hop' hrest =>
    obtain ⟨-,rfl⟩ := getOp_unique hop hop'
    exact hrest

section CodeSeparators
variable {pc rest : CScript} {op : Op}

theorem codeSeparators_some (h : getOp pc = (some op,rest)) :
    codeSeparators pc =
      if op.opcode = OP_CODESEPARATOR then codeSeparators rest+1 else codeSeparators rest := by
  conv_lhs => unfold codeSeparators
  split
  · rename_i heq
    exact (getOp_not_none heq h).elim
  · rename_i heq
    obtain ⟨rfl,rfl⟩ := getOp_unique h heq
    rfl

theorem writeCode_some (h : getOp pc = (some op,rest)) (itBegin : CScript) :
    writeCode itBegin pc =
      if op.opcode = OP_CODESEPARATOR then
        itBegin.take (itBegin.length-rest.length-1) ++ writeCode rest rest
      else writeCode itBegin rest := by
  conv_lhs => unfold writeCode
  split
  · rename_i heq
    exact (getOp_not_none heq h).elim
  · rename_i heq
    obtain ⟨rfl,rfl⟩ := getOp_unique h heq
    rfl

theorem deleteFrom_nil (b : UInt8) (bs : List UInt8) : deleteFrom b bs [] = [] := by
  unfold deleteFrom
  rfl

theorem deleteFrom_match (b : UInt8) (bs : List UInt8) (rest : CScript) :
    deleteFrom b bs (b :: bs ++ rest) = deleteFrom b bs rest := by
  conv_lhs => unfold deleteFrom
  rw [if_pos (List.isPrefixOf_iff_prefix.mpr (List.prefix_append _ _)),← List.length_cons,
    List.drop_left]

theorem deleteFrom_some {b : UInt8} {bs : List UInt8} (hpre : ¬(b :: bs) <+: pc)
    (h : getOp pc = (some op,rest)) :
    deleteFrom b bs pc = consumed pc rest ++ deleteFrom b bs rest := by
  conv_lhs => unfold deleteFrom
  rw [if_neg (fun hp => hpre (List.isPrefixOf_iff_prefix.mp hp))]
  split
  · rename_i heq
    exact (getOp_not_none heq h).elim
  · rename_i heq
    obtain ⟨-,rfl⟩ := getOp_unique h heq
    rfl

/-- The first byte of an instruction is its opcode. -/
theorem getOp_head (h : getOp pc = (some op,rest)) : pc.head? = some op.opcode := by
  rcases getOp_cases h with ⟨-,hscript,-⟩ | ⟨-,size,-,-,hscript⟩
  · rw [hscript]
    rfl
  · rw [hscript]
    rfl

/-- A code separator is deleted, and every other instruction is kept. -/
theorem deleteSeparators_some (h : getOp pc = (some op,rest)) :
    deleteFrom OP_CODESEPARATOR [] pc =
      if op.opcode = OP_CODESEPARATOR then deleteFrom OP_CODESEPARATOR [] rest
      else consumed pc rest ++ deleteFrom OP_CODESEPARATOR [] rest := by
  have hhead := getOp_head h
  split
  · rename_i hsep
    rcases getOp_cases h with ⟨-,hscript,-⟩ | ⟨hsmall,-⟩
    · rw [hscript,hsep]
      exact deleteFrom_match OP_CODESEPARATOR [] rest
    · rw [hsep] at hsmall
      exact absurd hsmall (by decide)
  · rename_i hsep
    refine deleteFrom_some (fun hpre => hsep ?_) h
    obtain ⟨tail,rfl⟩ := hpre
    exact (Option.some.inj hhead).symm

theorem writeCode_parses (h : Parses pc) (segment : CScript) :
    writeCode (segment ++ pc) pc = segment ++ deleteFrom OP_CODESEPARATOR [] pc := by
  induction h generalizing segment with
  | nil =>
    rw [deleteFrom_nil]
    unfold writeCode
    show consumed (segment ++ []) [] = _
    rw [consumed_append,List.append_nil]
  | @op pc rest op hop _ ih =>
    rw [writeCode_some hop,deleteSeparators_some hop]
    obtain ⟨bytes,-,rfl,-⟩ := getOp_eq_some hop
    split
    · rename_i hsep
      have hbytes : bytes = [OP_CODESEPARATOR] := by
        rcases getOp_cases hop with ⟨-,hscript,-⟩ | ⟨hsmall,-⟩
        · rw [hsep] at hscript
          exact List.append_cancel_right hscript
        · rw [hsep] at hsmall
          exact absurd hsmall (by decide)
      have hlen : (segment ++ (bytes ++ rest)).length-rest.length-1 = segment.length := by
        rw [hbytes,List.length_append,List.length_append,List.length_singleton]
        omega
      rw [hlen,List.take_left]
      exact congrArg (segment ++ ·) (ih [])
    · rw [consumed_append,← List.append_assoc,ih (segment ++ bytes),List.append_assoc]

theorem length_deleteSeparators (h : Parses pc) :
    (deleteFrom OP_CODESEPARATOR [] pc).length+codeSeparators pc = pc.length := by
  induction h with
  | nil =>
    rw [deleteFrom_nil]
    unfold codeSeparators
    rfl
  | @op pc rest op hop _ ih =>
    rw [deleteSeparators_some hop,codeSeparators_some hop]
    obtain ⟨bytes,-,rfl,-⟩ := getOp_eq_some hop
    split
    · rename_i hsep
      rcases getOp_cases hop with ⟨-,hscript,-⟩ | ⟨hsmall,-⟩
      · rw [hscript,List.length_cons]
        omega
      · rw [hsep] at hsmall
        exact absurd hsmall (by decide)
    · rw [consumed_append,List.length_append,List.length_append]
      omega

/-- For a script that parses, skipping the code separators in place writes the script
without them. -/
theorem serializeScriptCode_parses (h : Parses pc) :
    serializeScriptCode pc = serializeBytes (findAndDelete pc [OP_CODESEPARATOR]) := by
  have hlen := length_deleteSeparators h
  have hsize : pc.length-codeSeparators pc = (deleteFrom OP_CODESEPARATOR [] pc).length := by omega
  unfold serializeScriptCode serializeBytes findAndDelete
  rw [hsize]
  exact congrArg (writeCompactSize _ ++ ·) (writeCode_parses h [])

end CodeSeparators

/-- A loop over the positions of a list writes what the elements write. -/
theorem flatMap_range {α β : Type} {l : List α} {F : Nat → List β} {g : α → List β}
    (h : ∀ i x, l[i]? = some x → F i = g x) : (List.range l.length).flatMap F = l.flatMap g := by
  rw [List.flatMap_def,List.flatMap_def]
  refine congrArg List.flatten (List.ext_getElem? fun i => ?_)
  rw [List.getElem?_map,List.getElem?_map]
  by_cases hi : i < l.length
  · rw [List.getElem?_range hi,List.getElem?_eq_getElem hi]
    exact congrArg some (h i _ (List.getElem?_eq_getElem hi))
  · rw [List.getElem?_eq_none (Nat.le_of_not_lt hi),
      List.getElem?_eq_none (by rw [List.length_range]; exact Nat.le_of_not_lt hi)]
    rfl

section Preimage
variable {scriptCode : CScript} {txTo : CTransaction} {nIn : Nat} {nHashType : UInt32}

/-- The inputs of the blanked copy. -/
def blankInputs (scriptCode : CScript) (nIn : Nat) (release : Bool) (vin : List CTxIn) : List CTxIn :=
  vin.mapIdx fun i txin => ⟨txin.prevout,if i = nIn then scriptCode else [],
    if i ≠ nIn ∧ release = true then 0 else txin.nSequence⟩

theorem serializeInput_blank (h : Parses scriptCode) {s : CTransactionSignatureSerializer}
    (hcode : s.scriptCode = scriptCode) {i : Nat} {txin : CTxIn}
    (hget : (blankInputs (findAndDelete scriptCode [OP_CODESEPARATOR]) s.nIn
      (s.fHashSingle || s.fHashNone) s.txTo.vin)[if s.fAnyoneCanPay then s.nIn else i]? = some txin) :
    s.serializeInput i = txin.serialize := by
  unfold CTransactionSignatureSerializer.serializeInput
  unfold blankInputs at hget
  rw [List.getElem?_mapIdx,Option.map_eq_some_iff] at hget
  obtain ⟨orig,horig,rfl⟩ := hget
  simp only [horig]
  unfold CTxIn.serialize
  by_cases hi : (if s.fAnyoneCanPay = true then s.nIn else i) = s.nIn
  · simp only [hi,hcode,ne_eq,not_true_eq_false,if_false,false_and,if_true,
      serializeScriptCode_parses h]
  · simp only [hi,ne_eq,not_false_eq_true,if_true,if_false,true_and,Bool.or_eq_true]
    split <;> rfl

@[simp] theorem length_blankInputs (release : Bool) (vin : List CTxIn) :
    (blankInputs scriptCode nIn release vin).length = vin.length := List.length_mapIdx

theorem serializeInputs_blank (h : Parses scriptCode) {s : CTransactionSignatureSerializer}
    (hcode : s.scriptCode = scriptCode) (hin : s.nIn < s.txTo.vin.length) {vin : List CTxIn}
    (hvin : vin = blankInputs (findAndDelete scriptCode [OP_CODESEPARATOR]) s.nIn
      (s.fHashSingle || s.fHashNone) s.txTo.vin) :
    writeCompactSize s.nInputs ++ (List.range s.nInputs).flatMap s.serializeInput =
      serializeVector CTxIn.serialize (if s.fAnyoneCanPay then vin[s.nIn]?.toList else vin) := by
  subst hvin
  unfold serializeVector CTransactionSignatureSerializer.nInputs
  cases hany : s.fAnyoneCanPay with
  | false =>
    rw [if_neg Bool.false_ne_true,if_neg Bool.false_ne_true,length_blankInputs]
    refine congrArg (writeCompactSize _ ++ ·) ?_
    rw [← length_blankInputs (s.fHashSingle || s.fHashNone) s.txTo.vin]
    refine flatMap_range fun i txin hget => serializeInput_blank h hcode ?_
    rw [hany]
    exact hget
  | true =>
    rw [if_pos rfl,if_pos rfl]
    have hlen : s.nIn < (blankInputs (findAndDelete scriptCode [OP_CODESEPARATOR]) s.nIn
        (s.fHashSingle || s.fHashNone) s.txTo.vin).length := by
      rw [length_blankInputs]
      exact hin
    have hget := List.getElem?_eq_getElem hlen
    rw [hget]
    refine congrArg (writeCompactSize 1 ++ ·) ?_
    refine congrArg (· ++ []) (serializeInput_blank h hcode (i := 0) ?_)
    rw [hany]
    exact hget

/-- The outputs of the blanked copy. -/
def blankOutputs (s : CTransactionSignatureSerializer) : List CTxOut :=
  if s.fHashNone then []
  else if s.fHashSingle then
    (s.txTo.vout.take (s.nIn+1)).mapIdx fun i txout => if i < s.nIn then .null else txout
  else s.txTo.vout

theorem serializeOutputs_blank {s : CTransactionSignatureSerializer}
    (hout : s.fHashSingle = true → s.nIn < s.txTo.vout.length) :
    writeCompactSize s.nOutputs ++ (List.range s.nOutputs).flatMap s.serializeOutput =
      serializeVector CTxOut.serialize (blankOutputs s) := by
  have hlen : s.nOutputs = (blankOutputs s).length := by
    unfold CTransactionSignatureSerializer.nOutputs blankOutputs
    split
    · rfl
    · split
      · rename_i hsingle
        have := hout hsingle
        rw [List.length_mapIdx,List.length_take]
        omega
      · rfl
  unfold serializeVector
  rw [hlen]
  refine congrArg (writeCompactSize _ ++ ·) (flatMap_range fun i txout hget => ?_)
  unfold CTransactionSignatureSerializer.serializeOutput
  unfold blankOutputs at hget
  split at hget
  · exact absurd hget (by simp)
  · split at hget
    · rename_i hsingle
      rw [List.getElem?_mapIdx,Option.map_eq_some_iff] at hget
      obtain ⟨orig,horig,rfl⟩ := hget
      rw [List.getElem?_take] at horig
      by_cases hi : i = s.nIn
      · rw [if_neg (fun hne => hne.2 hi)]
        rw [if_pos (by omega)] at horig
        rw [horig,if_neg (by omega)]
      · have hlt : i < s.nIn := by
          by_contra hge
          rw [if_neg (by omega)] at horig
          contradiction
        rw [if_pos ⟨hsingle,hi⟩,if_pos hlt]
    · rename_i hsingle
      rw [if_neg (fun hne => hsingle hne.1),hget]

theorem releaseSequences_blank (code : CScript) (vin : List CTxIn) :
    releaseSequences nIn (vin.mapIdx fun i (txin : CTxIn) =>
      { txin with scriptSig := if i = nIn then code else [] }) = blankInputs code nIn true vin := by
  unfold releaseSequences blankInputs
  rw [List.mapIdx_mapIdx]
  refine congrArg (List.mapIdx · vin) (funext fun i => funext fun txin => ?_)
  by_cases hi : i = nIn
  · simp [hi]
  · simp [hi]

theorem keepSequences_blank (code : CScript) (vin : List CTxIn) :
    (vin.mapIdx fun i (txin : CTxIn) => { txin with scriptSig := if i = nIn then code else [] }) =
      blankInputs code nIn false vin := by
  unfold blankInputs
  refine congrArg (List.mapIdx · vin) (funext fun i => funext fun txin => ?_)
  simp

theorem serialize_blank (h : Parses scriptCode) {s : CTransactionSignatureSerializer}
    (hcode : s.scriptCode = scriptCode) (hin : s.nIn < s.txTo.vin.length)
    (hout : s.fHashSingle = true → s.nIn < s.txTo.vout.length) {vin : List CTxIn}
    (hvin : vin = blankInputs (findAndDelete scriptCode [OP_CODESEPARATOR]) s.nIn
      (s.fHashSingle || s.fHashNone) s.txTo.vin) {vout : List CTxOut} (hvout : vout = blankOutputs s) :
    s.serialize = CTransaction.serialize { s.txTo with
      vin := if s.fAnyoneCanPay then vin[s.nIn]?.toList else vin, vout := vout } := by
  unfold CTransactionSignatureSerializer.serialize CTransaction.serialize
  rw [serializeInputs_blank h hcode hin hvin,serializeOutputs_blank hout,hvout]

/-- For a script that parses and every hash type, both functions hash the same bytes, or
return 1 alike. -/
theorem preimage_parses (h : Parses scriptCode) (txTo : CTransaction) (nIn : Nat)
    (nHashType : UInt32) :
    signaturePreimage scriptCode txTo nIn nHashType =
      signaturePreimageOld scriptCode txTo nIn nHashType := by
  have hany : ∀ (vin : List CTxIn), (if nHashType &&& SIGHASH_ANYONECANPAY ≠ 0 then vin[nIn]?.toList
      else vin) = if (nHashType &&& SIGHASH_ANYONECANPAY != 0) = true then vin[nIn]?.toList
      else vin := fun vin => by simp only [bne_iff_ne]
  unfold signaturePreimage signaturePreimageOld
  by_cases hin : txTo.vin.length ≤ nIn
  · rw [if_pos hin,if_pos hin]
  · rw [if_neg hin,if_neg hin]
    simp only [hany]
    rw [releaseSequences_blank,keepSequences_blank]
    by_cases hnone : nHashType &&& 0x1f = SIGHASH_NONE
    · have hsingle : ¬nHashType &&& 0x1f = SIGHASH_SINGLE := by
        rw [hnone]
        decide
      rw [if_neg (fun hs => hsingle hs.1),if_pos hnone]
      refine congrArg (fun bytes => some (bytes ++ _)) ?_
      refine serialize_blank (s := .new txTo scriptCode nIn nHashType) h rfl (Nat.lt_of_not_le hin)
        (fun hs => absurd (eq_of_beq hs) hsingle) ?_ ?_
      · simp [CTransactionSignatureSerializer.new,hnone]
      · simp [blankOutputs,CTransactionSignatureSerializer.new,hnone]
    · by_cases hsingle : nHashType &&& 0x1f = SIGHASH_SINGLE
      · rw [if_neg hnone,if_pos hsingle]
        by_cases hout : txTo.vout.length ≤ nIn
        · rw [if_pos ⟨hsingle,hout⟩,if_pos hout]
        · rw [if_neg (fun hs => hout hs.2),if_neg hout]
          refine congrArg (fun bytes => some (bytes ++ _)) ?_
          refine serialize_blank (s := .new txTo scriptCode nIn nHashType) h rfl
            (Nat.lt_of_not_le hin) (fun _ => Nat.lt_of_not_le hout) ?_ ?_
          · simp [CTransactionSignatureSerializer.new,hsingle]
          · simp [blankOutputs,CTransactionSignatureSerializer.new,hsingle,SIGHASH_NONE,
              SIGHASH_SINGLE]
      · rw [if_neg hnone,if_neg hsingle,if_neg (fun hs => hsingle hs.1)]
        refine congrArg (fun bytes => some (bytes ++ _)) ?_
        refine serialize_blank (s := .new txTo scriptCode nIn nHashType) h rfl
          (Nat.lt_of_not_le hin) (fun hs => absurd (eq_of_beq hs) hsingle) ?_ ?_
        · have hflags : (nHashType &&& 0x1f == SIGHASH_SINGLE ||
              nHashType &&& 0x1f == SIGHASH_NONE) = false := by
            rw [beq_false_of_ne hsingle,beq_false_of_ne hnone]
            rfl
          exact congrArg (blankInputs _ nIn · txTo.vin) hflags.symm
        · simp [blankOutputs,CTransactionSignatureSerializer.new,hsingle,hnone]

end Preimage

end Anoncoin
