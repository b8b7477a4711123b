import Anoncoin.ScriptRuns
import Anoncoin.Standard

/-!
Signing with the wallet's keys (sign.cpp): which of the outputs that `IsMine` calls spendable
`SignSignature` can spend.
-/

set_option autoImplicit false

namespace Anoncoin
open Lib

def SIGHASH_ALL : UInt32 := 1

/-- `ToByteVector` of a public key. -/
def CPubKey.toByteVector (pubkey : CPubKey) : Valtype := pubkey.vch.take pubkey.size

/-- What other libraries compute for a signer: the keys, the digests, the hash that is signed,
and the signatures over the curve; and whether data outputs are standard. -/
structure SignerEnv where
  crypto : KeyCrypto
  hashes : ScriptHashes
  hash : List UInt8 → Uint256
  ecdsaSign : List UInt8 → Uint256 → Option Valtype
  verifySignature : Valtype → Valtype → Uint256 → Bool
  fDataCarrier : Bool

/-- The script of one input. -/
def CTransaction.withScriptSig (txTo : CTransaction) (nIn : Nat) (scriptSig : CScript) :
    CTransaction :=
  { txTo with vin := txTo.vin.modify nIn fun txin => { txin with scriptSig := scriptSig } }

namespace SignerEnv
variable (env : SignerEnv)

/-- `CKey::Sign`. -/
def sign (key : CKey) (hash : Uint256) : Option Valtype :=
  if key.fValid then env.ecdsaSign key.vch hash else none

/-- `GetPubKey` of the key store; there is none either when the key fails its assertion. -/
def getPubKey (keystore : CWalletKeys) (address : CKeyID) : Option CPubKey :=
  if !keystore.keys.isCrypted then
    (keystore.keys.mapKeys.lookup address).bind fun key => key.getPubKey env.crypto
  else (keystore.keys.mapCryptedKeys.lookup address).map Prod.fst

def sign1 (keystore : CWalletKeys) (address : CKeyID) (hash : Uint256) (nHashType : UInt32)
    (scriptSigRet : CScript) : Bool × CScript :=
  match keystore.keys.getKey env.crypto address with
  | none => (false,scriptSigRet)
  | some key =>
    match env.sign key hash with
    | none => (false,scriptSigRet)
    | some vchSig => (true,scriptSigRet ++ pushData (vchSig ++ [nHashType.toUInt8]))

/-- The loop of `SignN` over the keys. -/
def signLoop (keystore : CWalletKeys) (hash : Uint256) (nHashType : UInt32) (nRequired : Nat) :
    List Valtype → Nat → CScript → Nat × CScript
  | [],nSigned,scriptSigRet => (nSigned,scriptSigRet)
  | pubkey :: keys,nSigned,scriptSigRet =>
    if nSigned < nRequired then
      let r := env.sign1 keystore (env.crypto.getID (.ofBytes pubkey)) hash nHashType scriptSigRet
      signLoop keystore hash nHashType nRequired keys (if r.1 then nSigned+1 else nSigned) r.2
    else (nSigned,scriptSigRet)

def signN (keystore : CWalletKeys) (multisigdata : List Valtype) (hash : Uint256)
    (nHashType : UInt32) (scriptSigRet : CScript) : Bool × CScript :=
  let nRequired := ((multisigdata.headD []).headD 0).toNat
  let r := env.signLoop keystore hash nHashType nRequired (multisigdata.drop 1).dropLast 0
    scriptSigRet
  (r.1 == nRequired,r.2)

/-- `Solver` over a key store, with scriptSigRet and whichTypeRet. -/
def solverSign (keystore : CWalletKeys) (scriptPubKey : CScript) (hash : Uint256)
    (nHashType : UInt32) : Bool × CScript × TxnOutType :=
  match solver env.fDataCarrier scriptPubKey with
  | (false,whichTypeRet,_) => (false,[],whichTypeRet)
  | (true,.nonstandard,_) => (false,[],.nonstandard)
  | (true,.nullData,_) => (false,[],.nullData)
  | (true,.pubkey,vSolutions) =>
    let r := env.sign1 keystore (env.crypto.getID (.ofBytes (vSolutions.headD []))) hash nHashType []
    (r.1,r.2,.pubkey)
  | (true,.pubkeyhash,vSolutions) =>
    let keyID := uint160 (vSolutions.headD [])
    let r := env.sign1 keystore keyID hash nHashType []
    if r.1 then
      let vch := (env.getPubKey keystore keyID).getD ⟨[0xff]⟩
      (true,r.2 ++ pushData vch.toByteVector,.pubkeyhash)
    else (false,r.2,.pubkeyhash)
  | (true,.scripthash,vSolutions) =>
    match keystore.getCScript (uint160 (vSolutions.headD [])) with
    | none => (false,[],.scripthash)
    | some subscript => (true,subscript,.scripthash)
  | (true,.multisig,vSolutions) =>
    let r := env.signN keystore vSolutions hash nHashType [0]
    (r.1,r.2,.multisig)

/-- The machine that tests the solution. -/
def verifier (txTo : CTransaction) (nIn : Nat) : ScriptEnv :=
  checkerEnv STANDARD_SCRIPT_VERIFY_FLAGS env.hashes
    (fun code t => signatureHash env.hash code txTo nIn t) env.verifySignature

def testSolution (fromPubKey : CScript) (txTo : CTransaction) (nIn : Nat) (scriptSig : CScript) :
    Bool × CTransaction :=
  let txTo := txTo.withScriptSig nIn scriptSig
  (((env.verifier txTo nIn).verifyScript scriptSig fromPubKey).accepts,txTo)

/-- There is no result when the assertion that the input is there fails. -/
def signSignature (keystore : CWalletKeys) (fromPubKey : CScript) (txTo : CTransaction) (nIn : Nat)
    (nHashType : UInt32) : Option (Bool × CTransaction) :=
  if txTo.vin.length ≤ nIn then none
  else
    let hash := signatureHash env.hash fromPubKey txTo nIn nHashType
    let (fSolved,scriptSig,whichType) := env.solverSign keystore fromPubKey hash nHashType
    let txTo := txTo.withScriptSig nIn scriptSig
    if !fSolved then some (false,txTo)
    else if whichType = .scripthash then
      let subscript := scriptSig
      let hash2 := signatureHash env.hash subscript txTo nIn nHashType
      let (fSolved,scriptSig,subType) := env.solverSign keystore subscript hash2 nHashType
      let scriptSig := scriptSig ++ pushData subscript
      if !(fSolved && subType != .scripthash) then some (false,txTo.withScriptSig nIn scriptSig)
      else some (env.testSolution fromPubKey txTo nIn scriptSig)
    else some (env.testSolution fromPubKey txTo nIn scriptSig)

end SignerEnv

section Templates
variable {fDataCarrier : Bool} {code : CScript} {vSolutions vSolutions' : List Valtype}

/-- What the inner loop at OP_PUBKEYS takes. -/
theorem takePubKeys_reads {fuel : Nat} {op1 op : Op} {pc0 pc pc' : CScript}
    (hop : getOp pc0 = (some op1,pc))
    (h : takePubKeys fuel op1 pc vSolutions = (op,pc',vSolutions')) :
    op = ⟨OP_INVALIDOPCODE,[]⟩ ∨ ∃ kops mid, ReadsTo mid pc0 kops ∧ getOp mid = (some op,pc') ∧
      vSolutions' = vSolutions ++ kops.map Op.data ∧
      ∀ k ∈ kops, 33 ≤ k.data.length ∧ k.data.length ≤ 65 := by
  induction fuel generalizing op1 pc0 pc vSolutions with
  | zero =>
    obtain ⟨rfl,rfl,rfl⟩ := by simpa only [takePubKeys,Prod.mk.injEq] using h
    exact .inr ⟨[],pc0,.nil,hop,by simp,fun k hk => absurd hk List.not_mem_nil⟩
  | succ fuel ih =>
    unfold takePubKeys at h
    split at h
    · rename_i hsize
      cases hnext : getOp pc with
      | mk found pc1 =>
        rw [hnext] at h
        cases found with
        | none =>
          simp only [Prod.mk.injEq] at h
          exact .inl h.1.symm
        | some op2 =>
          rcases ih hnext h with hinvalid | ⟨kops,mid,hreads,hmid,hsolutions,hsizes⟩
          · exact .inl hinvalid
          · refine .inr ⟨op1 :: kops,mid,.cons hop hreads,hmid,?_,?_⟩
            · rw [hsolutions,List.map_cons,List.append_assoc]
              rfl
            · intro k hk
              rcases List.mem_cons.mp hk with rfl | hlater
              · exact hsize
              · exact hsizes k hlater
    · obtain ⟨rfl,rfl,rfl⟩ := by simpa only [Prod.mk.injEq] using h
      exact .inr ⟨[],pc0,.nil,hop,by simp,fun k hk => absurd hk List.not_mem_nil⟩

theorem matchTemplate_nil (h : matchTemplate [] code vSolutions = some vSolutions') :
    code = [] ∧ vSolutions' = vSolutions := by
  unfold matchTemplate at h
  split at h
  · rename_i hempty
    exact ⟨hempty,(Option.some.inj h).symm⟩
  · contradiction

theorem matchTemplate_cons {opcode2 : UInt8} {pc2 : List UInt8} (hne : opcode2 ≠ OP_PUBKEYS)
    (h : matchTemplate (opcode2 :: pc2) code vSolutions = some vSolutions') :
    ∃ op rest mid, getOp code = (some op,rest) ∧ matchOp opcode2 op vSolutions = some mid ∧
      matchTemplate pc2 rest mid = some vSolutions' := by
  unfold matchTemplate at h
  cases hget : getOp code with
  | mk found rest =>
    rw [hget] at h
    cases found with
    | none => contradiction
    | some op =>
      simp only [hne,if_false] at h
      obtain ⟨mid,hmid,hrest⟩ := Option.bind_eq_some_iff.mp h
      exact ⟨op,rest,mid,rfl,hmid,hrest⟩

/-- The keys, and the instruction behind them against the next opcode. -/
theorem matchTemplate_keys {opcode2 : UInt8} {pc2 : List UInt8}
    (hinvalid : ∀ vSolutions, matchOp opcode2 ⟨OP_INVALIDOPCODE,[]⟩ vSolutions = none)
    (h : matchTemplate (OP_PUBKEYS :: opcode2 :: pc2) code vSolutions = some vSolutions') :
    ∃ kops pc op rest mid, ReadsTo pc code kops ∧ getOp pc = (some op,rest) ∧
      (∀ k ∈ kops, 33 ≤ k.data.length ∧ k.data.length ≤ 65) ∧
      matchOp opcode2 op (vSolutions ++ kops.map Op.data) = some mid ∧
      matchTemplate pc2 rest mid = some vSolutions' := by
  unfold matchTemplate at h
  cases hget : getOp code with
  | mk found rest =>
    rw [hget] at h
    cases found with
    | none => contradiction
    | some op1 =>
      simp only [if_true] at h
      cases htake : takePubKeys (rest.length+1) op1 rest vSolutions with
      | mk op r =>
        obtain ⟨pc',taken⟩ := r
        rw [htake] at h
        obtain ⟨mid,hmid,hrest⟩ := Option.bind_eq_some_iff.mp h
        rcases takePubKeys_reads hget htake with hbad | ⟨kops,pc,hreads,hop,hsolutions,hsizes⟩
        · rw [hbad,hinvalid] at hmid
          contradiction
        · rw [hsolutions] at hmid
          exact ⟨kops,pc,op,pc',mid,hreads,hop,hsizes,hmid,hrest⟩

theorem matchOp_pubkey {op : Op} (h : matchOp OP_PUBKEY op vSolutions = some vSolutions') :
    (33 ≤ op.data.length ∧ op.data.length ≤ 65) ∧ vSolutions' = vSolutions ++ [op.data] := by
  unfold matchOp at h
  rw [if_pos rfl] at h
  split at h
  · contradiction
  · rename_i hsize
    exact ⟨by omega,(Option.some.inj h).symm⟩

theorem matchOp_pubkeyhash {op : Op} (h : matchOp OP_PUBKEYHASH op vSolutions = some vSolutions') :
    op.data.length = 20 ∧ vSolutions' = vSolutions ++ [op.data] := by
  unfold matchOp at h
  rw [if_neg (by decide),if_pos rfl] at h
  split at h
  · contradiction
  · rename_i hsize
    exact ⟨by omega,(Option.some.inj h).symm⟩

theorem matchOp_smallInteger {op : Op}
    (h : matchOp OP_SMALLINTEGER op vSolutions = some vSolutions') :
    (op.opcode = 0 ∨ (OP_1 ≤ op.opcode ∧ op.opcode ≤ OP_16)) ∧
      vSolutions' = vSolutions ++ [[UInt8.ofNat (decodeOpN op.opcode)]] := by
  unfold matchOp at h
  rw [if_neg (by decide),if_neg (by decide),if_pos rfl] at h
  split at h
  · rename_i hsmall
    exact ⟨hsmall,(Option.some.inj h).symm⟩
  · contradiction

/-- An opcode that stands for itself. -/
def IsLiteral (opcode : UInt8) : Prop :=
  opcode ≠ OP_PUBKEY ∧ opcode ≠ OP_PUBKEYHASH ∧ opcode ≠ OP_SMALLINTEGER ∧ opcode ≠ OP_SMALLDATA ∧
    opcode ≠ OP_PUBKEYS

instance (opcode : UInt8) : Decidable (IsLiteral opcode) := by
  unfold IsLiteral
  infer_instance

theorem matchOp_literal {opcode2 : UInt8} {op : Op} (hliteral : IsLiteral opcode2)
    (h : matchOp opcode2 op vSolutions = some vSolutions') :
    op = ⟨opcode2,[]⟩ ∧ vSolutions' = vSolutions := by
  unfold matchOp at h
  rw [if_neg hliteral.1,if_neg hliteral.2.1,if_neg hliteral.2.2.1,if_neg hliteral.2.2.2.1] at h
  split at h
  · contradiction
  · rename_i hsame
    push Not at hsame
    obtain ⟨opcode,data⟩ := op
    obtain ⟨rfl,rfl⟩ := hsame
    exact ⟨rfl,(Option.some.inj h).symm⟩

theorem matchTemplate_literal {opcode2 : UInt8} {pc2 : List UInt8} (hliteral : IsLiteral opcode2)
    (h : matchTemplate (opcode2 :: pc2) code vSolutions = some vSolutions') :
    ∃ rest, getOp code = (some ⟨opcode2,[]⟩,rest) ∧
      matchTemplate pc2 rest vSolutions = some vSolutions' := by
  obtain ⟨op,rest,mid,hop,hmid,hrest⟩ := matchTemplate_cons hliteral.2.2.2.2 h
  obtain ⟨rfl,rfl⟩ := matchOp_literal hliteral hmid
  exact ⟨rest,hop,hrest⟩

/-- A result of the templates comes from one of them. -/
theorem scanTemplates_eq {l : List (TxnOutType × List UInt8)} {whichType : TxnOutType}
    (h : scanTemplates code l = (true,whichType,vSolutions)) :
    ∃ pc2, (whichType,pc2) ∈ l ∧ matchTemplate pc2 code [] = some vSolutions ∧
      (whichType = .multisig → multisigChecked vSolutions = true) := by
  induction l with
  | nil => exact absurd (congrArg Prod.fst h) (by simp [scanTemplates])
  | cons tplate rest ih =>
    unfold scanTemplates at h
    cases hmatch : matchTemplate tplate.2 code [] with
    | none =>
      rw [hmatch] at h
      obtain ⟨pc2,hmem,hfound⟩ := ih h
      exact ⟨pc2,List.mem_cons_of_mem _ hmem,hfound⟩
    | some found =>
      rw [hmatch] at h
      simp only at h
      split at h
      · rename_i hmulti
        simp only [Prod.mk.injEq] at h
        obtain ⟨hchecked,rfl,rfl⟩ := h
        exact ⟨tplate.2,hmulti ▸ List.mem_cons_self,hmatch,fun _ => hchecked⟩
      · rename_i hmulti
        simp only [Prod.mk.injEq,true_and] at h
        obtain ⟨rfl,rfl⟩ := h
        exact ⟨tplate.2,List.mem_cons_self,hmatch,fun heq => absurd heq hmulti⟩

theorem solver_template {whichType : TxnOutType} (hne : whichType ≠ .scripthash)
    (h : solver fDataCarrier code = (true,whichType,vSolutions)) :
    ∃ pc2, (whichType,pc2) ∈ templates fDataCarrier ∧ matchTemplate pc2 code [] = some vSolutions ∧
      (whichType = .multisig → multisigChecked vSolutions = true) := by
  unfold solver at h
  split at h
  · simp only [Prod.mk.injEq,true_and] at h
    exact absurd h.1.symm hne
  · exact scanTemplates_eq h

theorem solver_pubkey (h : solver fDataCarrier code = (true,.pubkey,vSolutions)) :
    ∃ op, ReadsTo [] code [op,⟨OP_CHECKSIG,[]⟩] ∧
      (33 ≤ op.data.length ∧ op.data.length ≤ 65) ∧ vSolutions = [op.data] := by
  obtain ⟨pc2,hmem,hmatch,-⟩ := solver_template (by decide) h
  obtain rfl : pc2 = [OP_PUBKEY,OP_CHECKSIG] := by
    cases fDataCarrier <;> simpa [templates] using hmem
  obtain ⟨op,rest,mid,hop,hmid,hmatch⟩ := matchTemplate_cons (by decide) hmatch
  obtain ⟨hsize,rfl⟩ := matchOp_pubkey hmid
  obtain ⟨last,hlast,hmatch⟩ := matchTemplate_literal (by decide) hmatch
  obtain ⟨rfl,rfl⟩ := matchTemplate_nil hmatch
  exact ⟨op,.cons hop (.cons hlast .nil),hsize,rfl⟩

theorem solver_pubkeyhash (h : solver fDataCarrier code = (true,.pubkeyhash,vSolutions)) :
    ∃ op, ReadsTo [] code [⟨OP_DUP,[]⟩,⟨OP_HASH160,[]⟩,op,⟨OP_EQUALVERIFY,[]⟩,⟨OP_CHECKSIG,[]⟩] ∧
      op.data.length = 20 ∧ vSolutions = [op.data] := by
  obtain ⟨pc2,hmem,hmatch,-⟩ := solver_template (by decide) h
  obtain rfl : pc2 = [OP_DUP,OP_HASH160,OP_PUBKEYHASH,OP_EQUALVERIFY,OP_CHECKSIG] := by
    cases fDataCarrier <;> simpa [templates] using hmem
  obtain ⟨pc₁,hdup,hmatch⟩ := matchTemplate_literal (by decide) hmatch
  obtain ⟨pc₂,hhash,hmatch⟩ := matchTemplate_literal (by decide) hmatch
  obtain ⟨op,pc₃,mid,hop,hmid,hmatch⟩ := matchTemplate_cons (by decide) hmatch
  obtain ⟨hsize,rfl⟩ := matchOp_pubkeyhash hmid
  obtain ⟨pc₄,hequal,hmatch⟩ := matchTemplate_literal (by decide) hmatch
  obtain ⟨pc₅,hcheck,hmatch⟩ := matchTemplate_literal (by decide) hmatch
  obtain ⟨rfl,rfl⟩ := matchTemplate_nil hmatch
  exact ⟨op,.cons hdup (.cons hhash (.cons hop (.cons hequal (.cons hcheck .nil)))),hsize,rfl⟩

/-- The script of `m` signatures by any of `kops.length` keys. -/
structure MultiSigForm (code : CScript) (vSolutions : List Valtype) (opM opN : Op)
    (kops : List Op) : Prop where
  reads : ReadsTo [] code (opM :: (kops ++ [opN,⟨OP_CHECKMULTISIG,[]⟩]))
  smallM : OP_1 ≤ opM.opcode ∧ opM.opcode ≤ OP_16
  smallN : OP_1 ≤ opN.opcode ∧ opN.opcode ≤ OP_16
  keySizes : ∀ k ∈ kops, 33 ≤ k.data.length ∧ k.data.length ≤ 65
  keyCount : kops.length = decodeOpN opN.opcode
  enough : decodeOpN opM.opcode ≤ kops.length
  solutions : vSolutions = [UInt8.ofNat (decodeOpN opM.opcode)] :: (kops.map Op.data ++
    [[UInt8.ofNat (decodeOpN opN.opcode)]])

theorem solver_multisig (h : solver fDataCarrier code = (true,.multisig,vSolutions)) :
    ∃ opM opN kops, MultiSigForm code vSolutions opM opN kops := by
  obtain ⟨pc2,hmem,hmatch,hchecked⟩ := solver_template (by decide) h
  obtain rfl : pc2 = [OP_SMALLINTEGER,OP_PUBKEYS,OP_SMALLINTEGER,OP_CHECKMULTISIG] := by
    cases fDataCarrier <;> simpa [templates] using hmem
  obtain ⟨opM,pc₁,mid,hopM,hmid,hmatch⟩ := matchTemplate_cons (by decide) hmatch
  obtain ⟨hsmallM,rfl⟩ := matchOp_smallInteger hmid
  obtain ⟨kops,pc₂,opN,pc₃,mid,hkeys,hopN,hsizes,hmid,hmatch⟩ :=
    matchTemplate_keys (fun _ => rfl) hmatch
  obtain ⟨hsmallN,rfl⟩ := matchOp_smallInteger hmid
  obtain ⟨pc₄,hcheck,hmatch⟩ := matchTemplate_literal (by decide) hmatch
  obtain ⟨rfl,rfl⟩ := matchTemplate_nil hmatch
  have hall := hchecked rfl
  have hbound : ∀ opcode : UInt8, (opcode = 0 ∨ (OP_1 ≤ opcode ∧ opcode ≤ OP_16)) →
      (UInt8.ofNat (decodeOpN opcode)).toNat = decodeOpN opcode := forall_opcode (by decide +kernel)
  unfold multisigChecked at hall
  simp only [List.nil_append,List.cons_append,List.headD_cons,
    List.getLastD_cons,List.getLastD_concat,List.length_cons,List.length_append,List.length_map,
    List.length_nil,Bool.not_eq_true',Bool.or_eq_false_iff,decide_eq_false_iff_not,
    UInt8.lt_iff_toNat_lt,hbound _ hsmallM,hbound _ hsmallN] at hall
  obtain ⟨⟨⟨hm,hn⟩,hle⟩,hcount⟩ := hall
  have hone : UInt8.toNat 1 = 1 := rfl
  have hnonzero (opcode : UInt8) (h : ¬decodeOpN opcode < UInt8.toNat 1) : opcode ≠ 0 := by
    rintro rfl
    exact h (by decide)
  exact ⟨opM,opN,kops,.cons hopM (hkeys.append (.cons hopN (.cons hcheck .nil))),
    hsmallM.resolve_left (hnonzero _ hm),hsmallN.resolve_left (hnonzero _ hn),hsizes,by omega,
    by omega,by simp⟩

namespace MultiSigForm
variable {opM opN : Op} {kops : List Op}

/-- The data of such a script are its keys. -/
theorem data_cases (h : MultiSigForm code vSolutions opM opN kops) {op : Op}
    (hop : op ∈ opM :: (kops ++ [opN,⟨OP_CHECKMULTISIG,[]⟩])) :
    op.data = [] ∨ op.data ∈ kops.map Op.data := by
  have hother (hlarge : OP_PUSHDATA4 < op.opcode) := h.reads.data_nil hop hlarge
  rcases List.mem_cons.mp hop with rfl | hop
  · exact .inl (hother (large_of_smallInteger h.smallM))
  · rcases List.mem_append.mp hop with hk | hlast
    · exact .inr (List.mem_map_of_mem hk)
    · rcases List.mem_pair.mp hlast with rfl | rfl
      · exact .inl (hother (large_of_smallInteger h.smallN))
      · exact .inl rfl

theorem keyCount_le (h : MultiSigForm code vSolutions opM opN kops) : kops.length ≤ 16 := by
  rw [h.keyCount]
  exact decodeOpN_le h.smallN

theorem length_le (h : MultiSigForm code vSolutions opM opN kops) : code.length ≤ 10000 := by
  have hbound : ∀ op ∈ opM :: (kops ++ [opN,⟨OP_CHECKMULTISIG,[]⟩]), op.data.length ≤ 65 := by
    intro op hop
    rcases h.data_cases hop with hnil | hkey
    · rw [hnil]
      exact Nat.zero_le _
    · obtain ⟨k,hk,heq⟩ := List.mem_map.mp hkey
      rw [← heq]
      exact (h.keySizes k hk).2
  have hlen := h.reads.length_le hbound
  have hcount := h.keyCount_le
  simp only [List.length_cons,List.length_append,List.length_nil] at hlen
  omega

/-- Only its own keys can be deleted from such a script. -/
theorem findAndDelete (h : MultiSigForm code vSolutions opM opN kops) {vch : Valtype}
    (hsmall : Small vch) (hne : vch ∉ kops.map Op.data) :
    findAndDelete code (pushData vch) = code := by
  have hlen : vch.length ≤ 520 := hsmall
  have hlarge {op : Op} (hop : OP_PUSHDATA4 < op.opcode) : op ≠ Element.pushOp vch := by
    rintro rfl
    exact pushOpcode_small _ hop
  refine h.reads.findAndDelete (by omega) fun op hop => ?_
  rcases List.mem_cons.mp hop with rfl | hop
  · exact hlarge (large_of_smallInteger h.smallM)
  · rcases List.mem_append.mp hop with hk | hlast
    · rintro rfl
      exact hne (List.mem_map_of_mem hk)
    · rcases List.mem_pair.mp hlast with rfl | rfl
      · exact hlarge (large_of_smallInteger h.smallN)
      · exact hlarge (by decide)

/-- On top of the signatures the script puts the keys, and leaves what the greedy pass says. -/
theorem evalScript (h : MultiSigForm code vSolutions opM opN kops) {env : ScriptEnv}
    {sigs rest : List Valtype} {dummy : Valtype} {checks : Valtype → Valtype → Bool}
    (hminimal : env.fRequireMinimal = false) (hcount : sigs.length = decodeOpN opM.opcode)
    (hdummy : env.hasFlag SCRIPT_VERIFY_NULLDUMMY = true → dummy = []) (hrest : rest.length ≤ 900)
    (hanswers : ScriptEnv.Answers env (ScriptEnv.withoutSignatures code sigs.reverse) sigs.reverse
      (kops.map Op.data).reverse checks) :
    Yields (env.evalScript (sigs.reverse ++ dummy :: rest) code)
      (vchOf (greedyMatch checks sigs.reverse (kops.map Op.data).reverse) :: rest) := by
  have hkeys := h.keyCount_le
  have henough := h.enough
  refine ScriptEnv.Runs.evalScript ?_ h.length_le
  obtain ⟨pc₁,hM,hreads⟩ : ∃ pc₁, getOp code = (some opM,pc₁) ∧
      ReadsTo [] pc₁ (kops ++ [opN,⟨OP_CHECKMULTISIG,[]⟩]) := by
    cases h.reads with
    | cons hop hlater => exact ⟨_,hop,hlater⟩
  obtain ⟨pc₂,hkeysRead,hlast⟩ := hreads.split
  obtain ⟨pc₃,hN,hcheck⟩ : ∃ pc₃, getOp pc₂ = (some opN,pc₃) ∧
      getOp pc₃ = (some ⟨OP_CHECKMULTISIG,[]⟩,[]) := by
    cases hlast with
    | cons hop hlater =>
      cases hlater with
      | cons hop' hlater' =>
        cases hlater'
        exact ⟨_,hop,hop'⟩
  have hbelow : (sigs.reverse ++ dummy :: rest).length = sigs.length+1+rest.length := by
    rw [List.length_append,List.length_reverse,List.length_cons]
    omega
  refine .smallInteger hM h.smallM (by omega) ?_
  refine .pushes hkeysRead (hkeysRead.isPush fun k hk => ?_) hminimal ?_ ?_
  · have hsize := h.keySizes k hk
    exact ⟨by omega,Nat.le_trans hsize.2 (by decide)⟩
  · rw [List.length_cons]
    omega
  · refine .smallInteger hN h.smallN ?_ ?_
    · rw [List.length_append,List.length_cons,List.length_reverse,List.length_map]
      omega
    · refine .exec hcheck (by decide) (by decide) (fun _ => by decide)
        (ScriptEnv.yields_checkMultiSig ?_ ?_ ?_ ?_ ?_ hdummy hanswers) ?_ (.nil _ _ _)
      · rw [List.length_reverse,List.length_map,h.keyCount]
        exact ScriptEnv.yields_scriptNum hminimal (decodeOpN_le h.smallN)
      · rw [List.length_reverse,hcount]
        exact ScriptEnv.yields_scriptNum hminimal (decodeOpN_le h.smallM)
      · rw [List.length_reverse,List.length_map]
        omega
      · rw [List.length_reverse,List.length_reverse,List.length_map]
        omega
      · rw [List.length_reverse,List.length_map]
        have hfirst : ScriptEnv.countAfter OP_CHECKMULTISIG 0 = 1 := rfl
        rw [hfirst]
        omega
      · rw [List.length_cons]
        omega

end MultiSigForm

theorem solver_scripthash_iff :
    solver fDataCarrier code = (true,.scripthash,vSolutions) ↔
      code.isPayToScriptHash = true ∧ vSolutions = [(code.drop 2).take 20] := by
  constructor
  · intro h
    by_cases hp2sh : CScript.isPayToScriptHash code = true
    · unfold solver at h
      rw [if_pos hp2sh] at h
      simp only [Prod.mk.injEq,true_and] at h
      exact ⟨hp2sh,h.symm⟩
    · unfold solver at h
      rw [if_neg hp2sh] at h
      obtain ⟨pc2,hmem,-⟩ := scanTemplates_eq h
      cases fDataCarrier <;> simp [templates] at hmem
  · rintro ⟨hp2sh,rfl⟩
    unfold solver
    rw [if_pos hp2sh]

theorem payToScriptHash_eq (h : CScript.isPayToScriptHash code = true) :
    code = OP_HASH160 :: 0x14 :: ((code.drop 2).take 20 ++ [OP_EQUAL]) ∧
      ((code.drop 2).take 20).length = 20 := by
  unfold CScript.isPayToScriptHash at h
  simp only [Bool.and_eq_true,beq_iff_eq] at h
  obtain ⟨⟨⟨hlen,hfirst⟩,hsecond⟩,hlast⟩ := h
  constructor
  · match code, hlen, hfirst, hsecond, hlast with
    | a :: b :: tail, hlen, hfirst, hsecond, hlast =>
      obtain rfl := Option.some.inj hfirst
      obtain rfl := Option.some.inj hsecond
      have htail : tail.length = 21 := by simpa using hlen
      have hend : tail.drop 20 = [OP_EQUAL] := by
        apply List.ext_getElem?
        intro k
        rw [List.getElem?_drop]
        cases k with
        | zero => exact hlast
        | succ k =>
          rw [List.getElem?_eq_none (by omega),List.getElem?_cons_succ,List.getElem?_nil]
      simp only [List.drop_succ_cons,List.drop_zero]
      rw [← hend,List.take_append_drop]
  · rw [List.length_take,List.length_drop]
    omega

/-- A script that pays to a script hash: the hash is its only data. -/
theorem scripthash_reads (h : CScript.isPayToScriptHash code = true) :
    ∃ op, ReadsTo [] code [⟨OP_HASH160,[]⟩,op,⟨OP_EQUAL,[]⟩] ∧ IsPush op ∧
      op.data = (code.drop 2).take 20 ∧ op.data.length = 20 := by
  obtain ⟨hcode,hdata⟩ := payToScriptHash_eq h
  have hpush : getOp (0x14 :: ((code.drop 2).take 20 ++ [OP_EQUAL])) =
      (some ⟨0x14,(code.drop 2).take 20⟩,[OP_EQUAL]) := by
    have hnot : ¬OP_PUSHDATA4 < 0x14 := by decide
    exact getOp_push hnot (rfl : ([] : List UInt8).length = sizeBytes 0x14) hdata [OP_EQUAL]
  refine ⟨⟨0x14,(code.drop 2).take 20⟩,?_,⟨(by decide : ¬OP_PUSHDATA4 < 0x14),?_⟩,rfl,hdata⟩
  · rw [hcode]
    refine .cons (getOp_large (by decide) _) (.cons ?_ (.cons (getOp_large (by decide) _) .nil))
    rw [← hcode]
    exact hpush
  · show ((code.drop 2).take 20).length ≤ MAX_SCRIPT_ELEMENT_SIZE
    rw [hdata]
    decide

end Templates

namespace ScriptEnv
variable {env : ScriptEnv} {scriptSig code subscript : CScript} {datas stack rest : List Valtype}
  {fOk : Bool}

/-- A script that pays to the hash of what is on top is satisfied. -/
theorem yields_scriptHash (hp2sh : CScript.isPayToScriptHash code = true)
    (hhash : env.hashes.hash160 subscript = (code.drop 2).take 20)
    (hminimal : env.fRequireMinimal = false) (hdepth : stack.length ≤ 900) :
    Yields (env.evalScript (subscript :: stack) code) (vchOf true :: stack) := by
  obtain ⟨op,hreads,hpush,hdata,-⟩ := scripthash_reads hp2sh
  have hlen : code.length = 23 := by
    unfold CScript.isPayToScriptHash at hp2sh
    simp only [Bool.and_eq_true,beq_iff_eq] at hp2sh
    exact hp2sh.1.1.1
  refine Runs.evalScript ?_ (by omega)
  obtain _ | ⟨hhash160,_ | ⟨hop,_ | ⟨hequal,_ | _⟩⟩⟩ := hreads
  refine .exec hhash160 (by decide) (by decide) (fun _ => by decide)
    (yields_onStack (yields_hash160 _ _)) ?_ ?_
  · rw [List.length_cons]
    omega
  · rw [hhash,← hdata]
    refine .push hop hpush hminimal ?_ ?_
    · rw [List.length_cons]
      omega
    · refine .exec hequal (by decide) (by decide) (fun _ => (by decide : 1 < 201))
        (yields_onStack (yields_equal _ _ false)) ?_ (.nil _ 2 _)
      simp only [Bool.false_eq_true,if_false,List.length_cons]
      omega

/-- The verdict over a redeem script is what the redeem script leaves. -/
theorem accepts_redeem (h : Pushes scriptSig (datas ++ [subscript]))
    (hminimal : env.fRequireMinimal = false) (hflag : env.hasFlag SCRIPT_VERIFY_P2SH = true)
    (hp2sh : CScript.isPayToScriptHash code = true)
    (hhash : env.hashes.hash160 subscript = (code.drop 2).take 20) (hdepth : datas.length ≤ 900)
    (hruns : Yields (env.evalScript datas.reverse subscript) (vchOf fOk :: rest)) :
    (env.verifyScript scriptSig code).accepts = fOk := by
  have hpushes := yields_pushes h hminimal
  rw [List.reverse_append,List.reverse_singleton,List.singleton_append] at hpushes
  have hlock : Yields (env.evalScript (subscript :: datas.reverse) code)
      (vchOf true :: datas.reverse) :=
    yields_scriptHash hp2sh hhash hminimal (by rwa [List.length_reverse])
  apply Judges.accepts
  unfold verifyScript
  refine judges_bind (yields_require (by rw [h.isPushOnly]; simp) _) ?_
  refine judges_bind hpushes (judges_bind hlock (judges_bind (yields_require rfl _) ?_))
  rw [hp2sh,hflag,Bool.and_true,if_pos rfl]
  unfold verifyRedeemScript
  exact judges_bind (yields_require h.isPushOnly _) (judges_bind hruns (judges_requireTrue rest))

end ScriptEnv

/-- What a signer relies on: an id is the digest of the public key, a public key has one of the
two common forms, and a valid key signs, canonically and so that its public key verifies it. -/
structure SignerEnv.Works (env : SignerEnv) : Prop where
  getID : ∀ pubkey, env.crypto.getID pubkey = uint160 (env.hashes.hash160 pubkey.toByteVector)
  pubKeyOf : ∀ secret fCompressed, ScriptEnv.isCompressedOrUncompressedPubKey
    (env.crypto.pubKeyOf secret fCompressed).vch = true
  signs : ∀ key pubkey hash, key.getPubKey env.crypto = some pubkey → ∃ vchSig,
    env.sign key hash = some vchSig ∧
      ScriptEnv.CanonicalSignature (vchSig ++ [SIGHASH_ALL.toUInt8]) ∧
      env.verifySignature vchSig pubkey.vch hash = true

/-- Keys are stored under the ids of their public keys, and redeem scripts of at most 520 bytes
under theirs; a store that is not locked gives out its keys. -/
structure CWalletKeys.Stores (keystore : CWalletKeys) (env : SignerEnv) : Prop where
  key : ∀ address, keystore.haveKey address = true → ∃ pubkey,
    env.getPubKey keystore address = some pubkey ∧ env.crypto.getID pubkey = address ∧
      ScriptEnv.isCompressedOrUncompressedPubKey pubkey.vch = true ∧
      (keystore.keys.isLocked = false → ∃ key,
        keystore.keys.getKey env.crypto address = some key ∧
          key.getPubKey env.crypto = some pubkey)
  script : ∀ hash redeemScript, keystore.getCScript hash = some redeemScript →
    Small redeemScript ∧ uint160 (env.hashes.hash160 redeemScript) = hash

/-- A key in the script is the key of the store with its id, and no data of the script is a
signature: the digest has no collision, and nothing signs itself. -/
structure SignerEnv.Apart (env : SignerEnv) (keystore : CWalletKeys) (code : CScript) : Prop where
  key : ∀ vch ∈ (solver env.fDataCarrier code).2.2, 33 ≤ vch.length → ∀ pubkey,
    env.getPubKey keystore (env.crypto.getID (.ofBytes vch)) = some pubkey → pubkey.vch = vch
  signature : ∀ vch ∈ (solver env.fDataCarrier code).2.2, ∀ key hash vchSig,
    env.sign key hash = some vchSig → vch ≠ vchSig ++ [SIGHASH_ALL.toUInt8]

namespace SignerEnv
variable {env : SignerEnv} {keystore : CWalletKeys} {code : CScript} {vSolutions : List Valtype}
  {txTo : CTransaction} {nIn : Nat} {hash : Uint256}

theorem isValidPubKey_of_common {vch : Valtype}
    (h : ScriptEnv.isCompressedOrUncompressedPubKey vch = true) :
    isValidPubKey vch = true ∧ (⟨vch⟩ : CPubKey).toByteVector = vch := by
  unfold ScriptEnv.isCompressedOrUncompressedPubKey at h
  cases vch with
  | nil => simp at h
  | cons chHeader tail =>
    simp only [List.getD_cons_zero,List.length_cons] at h
    unfold isValidPubKey CPubKey.toByteVector CPubKey.size
    simp only [List.headD_cons,beq_iff_eq]
    split_ifs at h with hshort hfour htwo
    · have hlen : tail.length+1 = 65 := by simpa using h
      subst hfour
      refine ⟨by rw [hlen]; rfl,?_⟩
      exact List.take_of_length_le (by rw [List.length_cons,hlen]; decide)
    · have hlen : tail.length+1 = 33 := by simpa using h
      rcases htwo with rfl | rfl
      · exact ⟨by rw [hlen]; rfl,List.take_of_length_le (by rw [List.length_cons,hlen]; decide)⟩
      · exact ⟨by rw [hlen]; rfl,List.take_of_length_le (by rw [List.length_cons,hlen]; decide)⟩

theorem length_le_of_common {vch : Valtype}
    (h : ScriptEnv.isCompressedOrUncompressedPubKey vch = true) : vch.length ≤ 65 := by
  unfold ScriptEnv.isCompressedOrUncompressedPubKey at h
  split_ifs at h
  · exact Nat.le_of_eq (eq_of_beq h)
  · have := eq_of_beq h
    omega

/-- The hash that is signed does not depend on the scripts of the inputs. -/
theorem signatureHash_withScriptSig (scriptCode scriptSig : CScript) (nHashType : UInt32) :
    signatureHash env.hash scriptCode (txTo.withScriptSig nIn scriptSig) nIn nHashType =
      signatureHash env.hash scriptCode txTo nIn nHashType := by
  have hinput (i : Nat) :
      (CTransactionSignatureSerializer.new (txTo.withScriptSig nIn scriptSig) scriptCode nIn
        nHashType).serializeInput i =
      (CTransactionSignatureSerializer.new txTo scriptCode nIn nHashType).serializeInput i := by
    unfold CTransactionSignatureSerializer.serializeInput CTransactionSignatureSerializer.new
    simp only [CTransaction.withScriptSig,List.getElem?_modify]
    cases txTo.vin[if (nHashType &&& SIGHASH_ANYONECANPAY != 0) = true then nIn else i]? with
    | none => rfl
    | some txin =>
      simp only [Option.map_eq_map,Option.map_some,apply_ite CTxIn.prevout,
        apply_ite CTxIn.nSequence,ite_self]
  have houtput (i : Nat) :
      (CTransactionSignatureSerializer.new (txTo.withScriptSig nIn scriptSig) scriptCode nIn
        nHashType).serializeOutput i =
      (CTransactionSignatureSerializer.new txTo scriptCode nIn nHashType).serializeOutput i := rfl
  have hlength : (txTo.withScriptSig nIn scriptSig).vin.length = txTo.vin.length :=
    List.length_modify ..
  have hcount : (CTransactionSignatureSerializer.new (txTo.withScriptSig nIn scriptSig) scriptCode
      nIn nHashType).nInputs =
      (CTransactionSignatureSerializer.new txTo scriptCode nIn nHashType).nInputs := by
    unfold CTransactionSignatureSerializer.nInputs CTransactionSignatureSerializer.new
    simp only [hlength]
  have hall : (CTransactionSignatureSerializer.new (txTo.withScriptSig nIn scriptSig) scriptCode nIn
      nHashType).serialize =
      (CTransactionSignatureSerializer.new txTo scriptCode nIn nHashType).serialize := by
    unfold CTransactionSignatureSerializer.serialize
    simp only [hcount,funext hinput,funext houtput]
    rfl
  unfold signatureHash signaturePreimage
  simp only [hlength,hall]
  rfl

theorem verifier_withScriptSig (scriptSig : CScript) :
    env.verifier (txTo.withScriptSig nIn scriptSig) nIn = env.verifier txTo nIn := by
  unfold verifier
  simp only [signatureHash_withScriptSig]

/-- The checker takes a signature that was made for the script. -/
theorem verifier_checkSig {vchSig vchPubKey : Valtype} {code : CScript}
    (hpub : ScriptEnv.isCompressedOrUncompressedPubKey vchPubKey = true)
    (hverify : env.verifySignature vchSig vchPubKey
      (signatureHash env.hash code txTo nIn SIGHASH_ALL) = true) (n : Nat) :
    (env.verifier txTo nIn).checkSig n (vchSig ++ [SIGHASH_ALL.toUInt8]) vchPubKey code = true := by
  have htype : SIGHASH_ALL.toUInt8.toUInt32 = SIGHASH_ALL := rfl
  unfold verifier checkerEnv transactionChecker
  simp only [(isValidPubKey_of_common hpub).1,if_true,List.getLast?_concat,List.dropLast_concat,
    htype,hverify]

/-- The signature, with its hash type, is by the key of the store that has the id of this one. -/
structure SignedBy (env : SignerEnv) (keystore : CWalletKeys) (hash : Uint256)
    (address : CKeyID) (pubkey : CPubKey) (vchSig : Valtype) : Prop where
  stored : env.getPubKey keystore address = some pubkey
  address : env.crypto.getID pubkey = address
  common : ScriptEnv.isCompressedOrUncompressedPubKey pubkey.vch = true
  made : ∃ key, env.sign key hash = some vchSig
  canonical : ScriptEnv.CanonicalSignature (vchSig ++ [SIGHASH_ALL.toUInt8])
  verifies : env.verifySignature vchSig pubkey.vch hash = true

theorem sign1_stored (hw : env.Works) (hs : keystore.Stores env)
    (hunlocked : keystore.keys.isLocked = false) {address : CKeyID}
    (hhave : keystore.haveKey address = true) (hash : Uint256) :
    ∃ pubkey vchSig, env.SignedBy keystore hash address pubkey vchSig ∧
      ∀ scriptSigRet, env.sign1 keystore address hash SIGHASH_ALL scriptSigRet =
        (true,scriptSigRet ++ pushData (vchSig ++ [SIGHASH_ALL.toUInt8])) := by
  obtain ⟨pubkey,hpubkey,haddress,hcommon,hkey⟩ := hs.key address hhave
  obtain ⟨key,hget,hof⟩ := hkey hunlocked
  obtain ⟨vchSig,hsign,hcanonical,hverifies⟩ := hw.signs key pubkey hash hof
  refine ⟨pubkey,vchSig,⟨hpubkey,haddress,hcommon,⟨key,hsign⟩,hcanonical,hverifies⟩,?_⟩
  intro scriptSigRet
  unfold sign1
  simp only [hget,hsign]

theorem getKey_locked (hlocked : keystore.keys.isLocked = true) (address : CKeyID) :
    keystore.keys.getKey env.crypto address = none := by
  unfold CCryptoKeyStore.isLocked at hlocked
  cases hcrypted : keystore.keys.isCrypted with
  | false => simp [hcrypted] at hlocked
  | true =>
    have hempty : keystore.keys.vMasterKey = [] := by simpa [hcrypted] using hlocked
    have hlen : keystore.keys.vMasterKey.length ≠ WALLET_CRYPTO_KEY_SIZE := by
      rw [hempty]
      decide
    unfold CCryptoKeyStore.getKey
    simp only [hcrypted,Bool.not_true,Bool.false_eq_true,if_false]
    cases keystore.keys.mapCryptedKeys.lookup address with
    | none => rfl
    | some entry =>
      unfold decryptSecret
      simp only [withKey_none hlen]

/-- A locked store signs nothing. -/
theorem sign1_locked (hlocked : keystore.keys.isLocked = true) (address : CKeyID) (hash : Uint256)
    (nHashType : UInt32) (scriptSigRet : CScript) :
    env.sign1 keystore address hash nHashType scriptSigRet = (false,scriptSigRet) := by
  unfold sign1
  simp only [getKey_locked hlocked]

/-- What a script that spends the code pushes. -/
structure Satisfies (env : SignerEnv) (txTo : CTransaction) (nIn : Nat) (code : CScript)
    (datas : List Valtype) : Prop where
  small : AllSmall datas
  count : datas.length ≤ 17
  runs : Yields ((env.verifier txTo nIn).evalScript datas.reverse code) [vchOf true]

theorem fRequireMinimal_verifier : (env.verifier txTo nIn).fRequireMinimal = false := by
  show (STANDARD_SCRIPT_VERIFY_FLAGS &&& SCRIPT_VERIFY_MINIMALDATA != 0) = false
  decide

theorem lowS_verifier : (env.verifier txTo nIn).hasFlag SCRIPT_VERIFY_LOW_S = false := by
  show (STANDARD_SCRIPT_VERIFY_FLAGS &&& SCRIPT_VERIFY_LOW_S != 0) = false
  decide

theorem isPush_of_getOp {pc rest : CScript} {op : Op} (h : getOp pc = (some op,rest))
    (hpos : 0 < op.data.length) (hlen : op.data.length ≤ 65) : IsPush op := by
  have hsizes : ∀ op' ∈ [op],
      0 < op'.data.length ∧ op'.data.length ≤ MAX_SCRIPT_ELEMENT_SIZE := by
    simp only [List.mem_singleton,forall_eq]
    exact ⟨hpos,Nat.le_trans hlen (by decide)⟩
  exact (ReadsTo.cons h .nil).isPush hsizes op List.mem_cons_self

/-- The code holds no signature, so that nothing is deleted from it. -/
theorem Apart.findAndDelete {ops : List Op} (happart : env.Apart keystore code)
    (hreads : ReadsTo [] code ops)
    (hdata : ∀ op ∈ ops, op.data = [] ∨ op.data ∈ (solver env.fDataCarrier code).2.2)
    {key : CKey} {vchSig : Valtype} (hsign : env.sign key hash = some vchSig)
    (hcanonical : ScriptEnv.CanonicalSignature (vchSig ++ [SIGHASH_ALL.toUInt8])) :
    findAndDelete code (pushData (vchSig ++ [SIGHASH_ALL.toUInt8])) = code := by
  have hlen := hcanonical.length_le
  refine hreads.findAndDelete (by omega) fun op hop heq => ?_
  have hsame : op.data = vchSig ++ [SIGHASH_ALL.toUInt8] := congrArg Op.data heq
  rcases hdata op hop with hnil | hmem
  · rw [hnil] at hsame
    exact absurd hsame.symm (by simp)
  · exact happart.signature _ hmem key hash vchSig hsign hsame

theorem pubkey_satisfied (hw : env.Works) (hs : keystore.Stores env)
    (happart : env.Apart keystore code) (hunlocked : keystore.keys.isLocked = false)
    (hsolver : solver env.fDataCarrier code = (true,.pubkey,vSolutions))
    (hhave : keystore.haveKey (env.crypto.getID (.ofBytes (vSolutions.headD []))) = true) :
    ∃ datas, env.solverSign keystore code (signatureHash env.hash code txTo nIn SIGHASH_ALL)
      SIGHASH_ALL = (true,datas.flatMap pushData,.pubkey) ∧ env.Satisfies txTo nIn code datas := by
  obtain ⟨op,hreads,hsize,rfl⟩ := solver_pubkey hsolver
  obtain ⟨pubkey,vchSig,hsigned,hsign1⟩ := sign1_stored hw hs hunlocked hhave
    (signatureHash env.hash code txTo nIn SIGHASH_ALL)
  have hmem : op.data ∈ (solver env.fDataCarrier code).2.2 := by simp [hsolver]
  have hsame : pubkey.vch = op.data := happart.key _ hmem hsize.1 pubkey hsigned.stored
  have hcommon := hsigned.common
  have hverifies := hsigned.verifies
  rw [hsame] at hcommon hverifies
  obtain ⟨key,hsign⟩ := hsigned.made
  have hcode := happart.findAndDelete hreads (by simp [hmem]) hsign hsigned.canonical
  have hbound : ∀ op' ∈ [op,⟨OP_CHECKSIG,[]⟩], op'.data.length ≤ 65 := by simp [hsize.2]
  have hlen := hreads.length_le hbound
  refine ⟨[vchSig ++ [SIGHASH_ALL.toUInt8]],?_,?_,by simp,?_⟩
  · unfold solverSign
    simp only [hsolver,hsign1]
    simp
  · intro v hv
    rw [List.mem_singleton.mp hv]
    exact Nat.le_trans hsigned.canonical.length_le (by decide)
  · refine ScriptEnv.Runs.evalScript ?_ (by simp at hlen; omega)
    cases hreads with
    | cons hop hreads =>
      cases hreads with
      | cons hcheck hreads =>
        cases hreads
        refine .push hop (isPush_of_getOp hop (by omega) hsize.2) fRequireMinimal_verifier
          (by simp) ?_
        refine .exec hcheck (by decide) (by decide) (fun _ => by decide) ?_ (by simp)
          (.nil _ (ScriptEnv.countAfter OP_CHECKSIG 0) _)
        exact ScriptEnv.yields_checkSig lowS_verifier hsigned.canonical hcommon hcode
          (verifier_checkSig hcommon hverifies) _

theorem uint160_injective {vch vch' : Valtype} (hlen : vch.length = 20) (hlen' : vch'.length = 20)
    (h : uint160 vch = uint160 vch') : vch = vch' := by
  have hlt := fromLittleEndian_lt vch
  have hlt' := fromLittleEndian_lt vch'
  rw [hlen] at hlt
  rw [hlen'] at hlt'
  have hpow : 256^20 = 2^160 := by decide
  have hnat := congrArg BitVec.toNat h
  unfold uint160 at hnat
  rw [BitVec.toNat_ofNat,BitVec.toNat_ofNat,Nat.mod_eq_of_lt (hpow ▸ hlt),
    Nat.mod_eq_of_lt (hpow ▸ hlt')] at hnat
  rw [← littleEndian_fromLittleEndian vch,← littleEndian_fromLittleEndian vch',hnat,hlen,hlen']

theorem pubkeyhash_satisfied (hw : env.Works) (hs : keystore.Stores env)
    (happart : env.Apart keystore code) (hunlocked : keystore.keys.isLocked = false)
    (hsolver : solver env.fDataCarrier code = (true,.pubkeyhash,vSolutions))
    (hhave : keystore.haveKey (uint160 (vSolutions.headD [])) = true) :
    ∃ datas, env.solverSign keystore code (signatureHash env.hash code txTo nIn SIGHASH_ALL)
      SIGHASH_ALL = (true,datas.flatMap pushData,.pubkeyhash) ∧
        env.Satisfies txTo nIn code datas := by
  obtain ⟨op,hreads,hsize,rfl⟩ := solver_pubkeyhash hsolver
  obtain ⟨pubkey,vchSig,hsigned,hsign1⟩ := sign1_stored hw hs hunlocked hhave
    (signatureHash env.hash code txTo nIn SIGHASH_ALL)
  have hmem : op.data ∈ (solver env.fDataCarrier code).2.2 := by simp [hsolver]
  have hvector : pubkey.toByteVector = pubkey.vch := (isValidPubKey_of_common hsigned.common).2
  have hdigest : env.hashes.hash160 pubkey.vch = op.data := by
    have haddress := hsigned.address
    rw [hw.getID,hvector] at haddress
    exact uint160_injective (env.hashes.length_hash160 _) hsize haddress
  obtain ⟨key,hsign⟩ := hsigned.made
  have hcode := happart.findAndDelete hreads (by simp [hmem]) hsign hsigned.canonical
  have hpubkey := length_le_of_common hsigned.common
  have hbound : ∀ op' ∈ [⟨OP_DUP,[]⟩,⟨OP_HASH160,[]⟩,op,⟨OP_EQUALVERIFY,[]⟩,⟨OP_CHECKSIG,[]⟩],
      op'.data.length ≤ 65 := by simp [hsize]
  have hlen := hreads.length_le hbound
  refine ⟨[vchSig ++ [SIGHASH_ALL.toUInt8],pubkey.vch],?_,?_,by simp,?_⟩
  · unfold solverSign
    simp only [hsolver,hsign1,hsigned.stored,if_true,Option.getD_some,hvector]
    simp
  · intro v hv
    rcases List.mem_pair.mp hv with rfl | rfl
    · exact Nat.le_trans hsigned.canonical.length_le (by decide)
    · exact Nat.le_trans hpubkey (by decide)
  · refine ScriptEnv.Runs.evalScript ?_ (by simp at hlen; omega)
    obtain _ | ⟨hdup,_ | ⟨hhash,_ | ⟨hop,_ | ⟨hequal,_ | ⟨hcheck,_ | _⟩⟩⟩⟩⟩ := hreads
    refine .exec hdup (by decide) (by decide) (fun _ => by decide)
      (ScriptEnv.yields_onStack (ScriptEnv.yields_dup _ _)) (by simp) ?_
    refine .exec hhash (by decide) (by decide) (fun _ => (by decide : 1 < 201))
      (ScriptEnv.yields_onStack (ScriptEnv.yields_hash160 _ _)) (by simp) ?_
    refine .push hop (isPush_of_getOp hop (by omega) (by omega)) fRequireMinimal_verifier
      (by simp) ?_
    have hsame : (env.verifier txTo nIn).hashes.hash160 pubkey.vch = op.data := hdigest
    rw [hsame]
    refine .exec hequal (by decide) (by decide) (fun _ => (by decide : 2 < 201))
      (ScriptEnv.yields_onStack (ScriptEnv.yields_equal _ _ true)) (by simp) ?_
    refine .exec hcheck (by decide) (by decide) (fun _ => (by decide : 3 < 201)) ?_ (by simp)
      (.nil _ (ScriptEnv.countAfter OP_CHECKSIG 3) _)
    exact ScriptEnv.yields_checkSig lowS_verifier hsigned.canonical hsigned.common hcode
      (verifier_checkSig hsigned.common hsigned.verifies) _

/-- The loop signs with the first keys, as many as are required. -/
theorem signLoop_stored (hw : env.Works) (hs : keystore.Stores env)
    (hunlocked : keystore.keys.isLocked = false) {keys : List Valtype}
    (hhave : ∀ vch ∈ keys, keystore.haveKey (env.crypto.getID (.ofBytes vch)) = true)
    (hash : Uint256) {nSigned nRequired : Nat} (hle : nSigned ≤ nRequired)
    (henough : nRequired ≤ nSigned+keys.length) (scriptSigRet : CScript) :
    ∃ sigs : List Valtype, nSigned+sigs.length = nRequired ∧
      env.signLoop keystore hash SIGHASH_ALL nRequired keys nSigned scriptSigRet =
        (nRequired,scriptSigRet ++ sigs.flatMap fun vchSig =>
          pushData (vchSig ++ [SIGHASH_ALL.toUInt8])) ∧
      ∀ j < sigs.length, ∃ pubkey, env.SignedBy keystore hash
        (env.crypto.getID (.ofBytes (keys.getD j []))) pubkey (sigs.getD j []) := by
  induction keys generalizing nSigned scriptSigRet with
  | nil =>
    obtain rfl : nSigned = nRequired := by
      rw [List.length_nil] at henough
      omega
    exact ⟨[],rfl,by simp [signLoop],fun j hj => absurd hj (Nat.not_lt_zero j)⟩
  | cons pubkey keys ih =>
    by_cases hmore : nSigned < nRequired
    · obtain ⟨stored,vchSig,hsigned,hsign1⟩ := sign1_stored hw hs hunlocked
        (hhave pubkey List.mem_cons_self) hash
      rw [List.length_cons] at henough
      obtain ⟨sigs,hcount,hloop,hall⟩ := ih (fun vch hv => hhave vch (List.mem_cons_of_mem _ hv))
        (by omega : nSigned+1 ≤ nRequired) (by omega)
        (scriptSigRet ++ pushData (vchSig ++ [SIGHASH_ALL.toUInt8]))
      refine ⟨vchSig :: sigs,by rw [List.length_cons]; omega,?_,?_⟩
      · unfold signLoop
        simp only [hmore,if_true,hsign1,hloop,List.flatMap_cons,List.append_assoc]
      · intro j hj
        cases j with
        | zero => exact ⟨stored,hsigned⟩
        | succ j => exact hall j (by simpa using hj)
    · obtain rfl : nSigned = nRequired := by omega
      refine ⟨[],rfl,?_,fun j hj => absurd hj (Nat.not_lt_zero j)⟩
      unfold signLoop
      simp

theorem signLoop_locked (hlocked : keystore.keys.isLocked = true) (keys : List Valtype)
    (hash : Uint256) (nHashType : UInt32) (nRequired nSigned : Nat) (scriptSigRet : CScript) :
    env.signLoop keystore hash nHashType nRequired keys nSigned scriptSigRet =
      (nSigned,scriptSigRet) := by
  induction keys with
  | nil => rfl
  | cons pubkey keys ih =>
    unfold signLoop
    simp only [sign1_locked hlocked,Bool.false_eq_true,if_false,ih,ite_self]

theorem getD_of_lt {l : List Valtype} {j : Nat} (hj : j < l.length) : l.getD j [] = l[j] := by
  rw [List.getD_eq_getElem?_getD,List.getElem?_eq_getElem hj]
  rfl

theorem multisig_satisfied (hw : env.Works) (hs : keystore.Stores env)
    (happart : env.Apart keystore code) (hunlocked : keystore.keys.isLocked = false)
    (hsolver : solver env.fDataCarrier code = (true,.multisig,vSolutions))
    (hhave : ∀ vch ∈ (vSolutions.drop 1).dropLast,
      keystore.haveKey (env.crypto.getID (.ofBytes vch)) = true) :
    ∃ datas, env.solverSign keystore code (signatureHash env.hash code txTo nIn SIGHASH_ALL)
      SIGHASH_ALL = (true,datas.flatMap pushData,.multisig) ∧
        env.Satisfies txTo nIn code datas := by
  obtain ⟨opM,opN,kops,hform⟩ := solver_multisig hsolver
  have hkeys : (vSolutions.drop 1).dropLast = kops.map Op.data := by
    rw [hform.solutions]
    simp
  have hfront : ((vSolutions.headD []).headD 0).toNat = decodeOpN opM.opcode := by
    have hle := decodeOpN_le hform.smallM
    rw [hform.solutions]
    exact UInt8.toNat_ofNat_of_lt' (show decodeOpN opM.opcode < 256 by omega)
  rw [hkeys] at hhave
  obtain ⟨sigs,hcount,hloop,hsigned⟩ := signLoop_stored hw hs hunlocked hhave
    (signatureHash env.hash code txTo nIn SIGHASH_ALL) (Nat.zero_le (decodeOpN opM.opcode))
    (by rw [List.length_map,Nat.zero_add]; exact hform.enough) [0]
  rw [Nat.zero_add] at hcount
  have hmem {vch : Valtype} (hv : vch ∈ kops.map Op.data) :
      vch ∈ (solver env.fDataCarrier code).2.2 := by
    rw [hsolver,hform.solutions]
    exact List.mem_cons_of_mem _ (List.mem_append_left _ hv)
  have hstored {vch : Valtype} (hv : vch ∈ kops.map Op.data) {pubkey : CPubKey}
      (hpubkey : env.getPubKey keystore (env.crypto.getID (.ofBytes vch)) = some pubkey) :
      pubkey.vch = vch := by
    obtain ⟨k,hk,rfl⟩ := List.mem_map.mp hv
    exact happart.key _ (hmem hv) (hform.keySizes k hk).1 pubkey hpubkey
  have hcommon {vch : Valtype} (hv : vch ∈ kops.map Op.data) :
      ScriptEnv.isCompressedOrUncompressedPubKey vch = true := by
    obtain ⟨pubkey,hpubkey,-,hcommon,-⟩ := hs.key _ (hhave vch hv)
    rwa [← hstored hv hpubkey]
  have hmade : ∀ vchSig ∈ sigs.map (· ++ [SIGHASH_ALL.toUInt8]),
      ∃ made key, vchSig = made ++ [SIGHASH_ALL.toUInt8] ∧
        env.sign key (signatureHash env.hash code txTo nIn SIGHASH_ALL) = some made ∧
        ScriptEnv.CanonicalSignature vchSig := by
    intro vchSig hv
    obtain ⟨made,hmade,rfl⟩ := List.mem_map.mp hv
    obtain ⟨j,hj,rfl⟩ := List.mem_iff_getElem.mp hmade
    obtain ⟨pubkey,hby⟩ := hsigned j hj
    rw [getD_of_lt hj] at hby
    obtain ⟨key,hsign⟩ := hby.made
    exact ⟨_,key,rfl,hsign,hby.canonical⟩
  have hcode : ∀ vchSig ∈ sigs.map (· ++ [SIGHASH_ALL.toUInt8]),
      findAndDelete code (pushData vchSig) = code := by
    intro vchSig hv
    obtain ⟨made,key,rfl,hsign,hcanonical⟩ := hmade vchSig hv
    exact happart.findAndDelete hform.reads
      (fun op hop => (hform.data_cases hop).imp_right hmem) hsign hcanonical
  have hkeyMem {j : Nat} (hj : j < (kops.map Op.data).length) :
      (kops.map Op.data).getD j [] ∈ kops.map Op.data := by
    rw [getD_of_lt hj]
    exact List.getElem_mem hj
  have hcanonical : ∀ vchSig ∈ sigs.map (· ++ [SIGHASH_ALL.toUInt8]),
      ScriptEnv.CanonicalSignature vchSig := by
    intro vchSig hv
    obtain ⟨made,key,-,-,hcanonical⟩ := hmade vchSig hv
    exact hcanonical
  have hanswers : ScriptEnv.Answers (env.verifier txTo nIn)
      (ScriptEnv.withoutSignatures code (sigs.map (· ++ [SIGHASH_ALL.toUInt8])).reverse)
      (sigs.map (· ++ [SIGHASH_ALL.toUInt8])).reverse (kops.map Op.data).reverse
      fun vchSig vchPubKey => (env.verifier txTo nIn).checkSig 0 vchSig vchPubKey code := by
    intro vchSig hv vchPubKey hk
    rw [ScriptEnv.withoutSignatures_of_forall fun s hs => hcode s (List.mem_reverse.mp hs)]
    exact ScriptEnv.yields_checkPair lowS_verifier (hcanonical _ (List.mem_reverse.mp hv))
      (hcommon (List.mem_reverse.mp hk)) fun n => rfl
  have hfit : greedyMatch
      (fun vchSig vchPubKey => (env.verifier txTo nIn).checkSig 0 vchSig vchPubKey code)
      (sigs.map (· ++ [SIGHASH_ALL.toUInt8])).reverse (kops.map Op.data).reverse = true := by
    rw [greedyMatch_reverse_iff]
    have hle : (sigs.map (· ++ [SIGHASH_ALL.toUInt8])).length ≤ (kops.map Op.data).length := by
      have := hform.enough
      rw [List.length_map,List.length_map]
      omega
    refine orderedMatch_of_getElem hle fun j hj => ?_
    have hjs : j < sigs.length := by rwa [List.length_map] at hj
    obtain ⟨pubkey,hby⟩ := hsigned j hjs
    have hverifies := hby.verifies
    have hjk : j < (kops.map Op.data).length := Nat.lt_of_lt_of_le hj hle
    rw [hstored (hkeyMem hjk) hby.stored,getD_of_lt hjs,getD_of_lt hjk] at hverifies
    rw [List.get_eq_getElem,List.getElem_map]
    exact verifier_checkSig (hcommon (List.getElem_mem hjk)) hverifies 0
  refine ⟨[] :: sigs.map (· ++ [SIGHASH_ALL.toUInt8]),?_,?_,?_,?_⟩
  · unfold solverSign signN
    simp only [hsolver,hfront,hkeys,hloop,beq_self_eq_true,List.flatMap_cons,List.flatMap_map]
    rfl
  · intro v hv
    rcases List.mem_cons.mp hv with rfl | hv
    · exact Nat.zero_le _
    · obtain ⟨made,hmade,rfl⟩ := List.mem_map.mp hv
      obtain ⟨j,hj,rfl⟩ := List.mem_iff_getElem.mp hmade
      obtain ⟨pubkey,hby⟩ := hsigned j hj
      rw [getD_of_lt hj] at hby
      exact Nat.le_trans hby.canonical.length_le (by decide)
  · have henough := hform.enough
    have hsixteen := hform.keyCount_le
    rw [List.length_cons,List.length_map]
    omega
  · have hnone : ([] : List Valtype).length ≤ 900 := Nat.zero_le 900
    have heval := hform.evalScript fRequireMinimal_verifier
      (by rw [List.length_map]; exact hcount) (fun _ => rfl) hnone hanswers
    rw [hfit,← List.reverse_cons] at heval
    exact heval

/-- The forms that `IsMine` calls spendable without another script. -/
inductive Holds (env : SignerEnv) (keystore : CWalletKeys) (code : CScript) : Prop
  | pubkey {vSolutions : List Valtype} :
      solver env.fDataCarrier code = (true,.pubkey,vSolutions) →
      keystore.haveKey (env.crypto.getID (.ofBytes (vSolutions.headD []))) = true →
      Holds env keystore code
  | pubkeyhash {vSolutions : List Valtype} :
      solver env.fDataCarrier code = (true,.pubkeyhash,vSolutions) →
      keystore.haveKey (uint160 (vSolutions.headD [])) = true → Holds env keystore code
  | multisig {vSolutions : List Valtype} :
      solver env.fDataCarrier code = (true,.multisig,vSolutions) →
      (∀ vch ∈ (vSolutions.drop 1).dropLast,
        keystore.haveKey (env.crypto.getID (.ofBytes vch)) = true) → Holds env keystore code

theorem watched_ne_spendable (s : CWalletKeys) (scriptPubKey : CScript) :
    watched s scriptPubKey ≠ .spendable := by
  unfold watched
  split <;> simp

/-- What `IsMine` calls spendable is one of these forms, or pays to a redeem script of the store
that is spendable again. -/
theorem isMineFrom_spendable {fuel : Nat}
    (h : isMineFrom env.crypto.getID env.fDataCarrier keystore (fuel+1) code = some .spendable) :
    env.Holds keystore code ∨ CScript.isPayToScriptHash code = true ∧ ∃ subscript,
      keystore.getCScript (uint160 ((code.drop 2).take 20)) = some subscript ∧
        isMineFrom env.crypto.getID env.fDataCarrier keystore fuel subscript =
          some .spendable := by
  have hwatched : some (watched keystore code) ≠ some .spendable := fun heq =>
    watched_ne_spendable keystore code (Option.some.inj heq)
  unfold isMineFrom at h
  split at h
  · exact absurd h hwatched
  · exact absurd h hwatched
  · exact absurd h hwatched
  · rename_i vSolutions hsolver
    split at h
    · exact .inl (.pubkey hsolver (by assumption))
    · exact absurd h hwatched
  · rename_i vSolutions hsolver
    split at h
    · exact .inl (.pubkeyhash hsolver (by assumption))
    · exact absurd h hwatched
  · rename_i vSolutions hsolver
    obtain ⟨hp2sh,rfl⟩ := solver_scripthash_iff.mp hsolver
    simp only [List.headD_cons] at h
    cases hget : keystore.getCScript (uint160 ((code.drop 2).take 20)) with
    | none =>
      rw [hget] at h
      exact absurd h hwatched
    | some subscript =>
      rw [hget] at h
      obtain ⟨ret,hret,hsame⟩ := Option.map_eq_some_iff.mp h
      by_cases hspendable : ret = .spendable
      · exact .inr ⟨hp2sh,subscript,rfl,by rw [hret,hspendable]⟩
      · rw [if_neg hspendable] at hsame
        exact absurd hsame (watched_ne_spendable keystore code)
  · rename_i vSolutions hsolver
    simp only at h
    split at h
    · rename_i hall
      exact .inl (.multisig hsolver (List.countP_eq_length.mp hall))
    · exact absurd h hwatched

theorem Holds.not_scripthash (h : env.Holds keystore code) :
    CScript.isPayToScriptHash code = false := by
  cases hp2sh : CScript.isPayToScriptHash code with
  | false => rfl
  | true =>
    have hsolver : solver env.fDataCarrier code = _ := solver_scripthash_iff.mpr ⟨hp2sh,rfl⟩
    cases h with
    | pubkey h _ | pubkeyhash h _ | multisig h _ =>
      rw [hsolver] at h
      simp at h

/-- The keys of an unlocked store satisfy each form. -/
theorem Holds.satisfied (h : env.Holds keystore code) (hw : env.Works) (hs : keystore.Stores env)
    (happart : env.Apart keystore code) (hunlocked : keystore.keys.isLocked = false) :
    ∃ datas whichType, whichType ≠ .scripthash ∧
      env.solverSign keystore code (signatureHash env.hash code txTo nIn SIGHASH_ALL) SIGHASH_ALL =
        (true,datas.flatMap pushData,whichType) ∧ env.Satisfies txTo nIn code datas := by
  cases h with
  | pubkey hsolver hhave =>
    obtain ⟨datas,hsolved,hsatisfies⟩ := pubkey_satisfied hw hs happart hunlocked hsolver hhave
    exact ⟨datas,.pubkey,by decide,hsolved,hsatisfies⟩
  | pubkeyhash hsolver hhave =>
    obtain ⟨datas,hsolved,hsatisfies⟩ := pubkeyhash_satisfied hw hs happart hunlocked hsolver hhave
    exact ⟨datas,.pubkeyhash,by decide,hsolved,hsatisfies⟩
  | multisig hsolver hhave =>
    obtain ⟨datas,hsolved,hsatisfies⟩ := multisig_satisfied hw hs happart hunlocked hsolver hhave
    exact ⟨datas,.multisig,by decide,hsolved,hsatisfies⟩

theorem Holds.locked (h : env.Holds keystore code) (hlocked : keystore.keys.isLocked = true)
    (hash : Uint256) (nHashType : UInt32) :
    (env.solverSign keystore code hash nHashType).1 = false := by
  unfold solverSign
  cases h with
  | pubkey hsolver hhave => simp only [hsolver,sign1_locked hlocked]
  | pubkeyhash hsolver hhave =>
    simp only [hsolver,sign1_locked hlocked,Bool.false_eq_true,if_false]
  | multisig hsolver hhave =>
    obtain ⟨opM,opN,kops,hform⟩ := solver_multisig hsolver
    have hle := decodeOpN_le hform.smallM
    have hpos : decodeOpN opM.opcode ≠ 0 := by
      have hall : ∀ opcode : UInt8, OP_1 ≤ opcode ∧ opcode ≤ OP_16 → decodeOpN opcode ≠ 0 :=
        forall_opcode (by decide +kernel)
      exact hall _ hform.smallM
    unfold signN
    simp only [hsolver,signLoop_locked hlocked,hform.solutions,List.headD_cons,beq_eq_false_iff_ne]
    rw [UInt8.toNat_ofNat_of_lt' (show decodeOpN opM.opcode < 256 by omega)]
    exact hpos.symm

theorem Satisfies.accepts {datas : List Valtype} (h : env.Satisfies txTo nIn code datas)
    (hnot : CScript.isPayToScriptHash code = false) :
    ((env.verifier txTo nIn).verifyScript (datas.flatMap pushData) code).accepts = true := by
  have hpushes := pushes_pushData h.small (Nat.le_succ_of_le h.count)
  exact ScriptEnv.accepts_pushes hpushes fRequireMinimal_verifier h.runs hnot

/-- What satisfies a redeem script, and the script itself, satisfy the hash of the script. -/
theorem Satisfies.accepts_redeem {subscript : CScript} {datas : List Valtype}
    (h : env.Satisfies txTo nIn subscript datas) (hsmall : Small subscript)
    (hp2sh : CScript.isPayToScriptHash code = true)
    (hdigest : uint160 (env.hashes.hash160 subscript) = uint160 ((code.drop 2).take 20)) :
    ((env.verifier txTo nIn).verifyScript (datas.flatMap pushData ++ pushData subscript)
      code).accepts = true := by
  have hcount := h.count
  have hhash : (env.verifier txTo nIn).hashes.hash160 subscript = (code.drop 2).take 20 :=
    uint160_injective (env.hashes.length_hash160 _) (payToScriptHash_eq hp2sh).2 hdigest
  have hall : AllSmall (datas ++ [subscript]) := by
    intro v hv
    rcases List.mem_append.mp hv with hold | hnew
    · exact h.small v hold
    · rw [List.mem_singleton.mp hnew]
      exact hsmall
  have hscriptSig : datas.flatMap pushData ++ pushData subscript =
      (datas ++ [subscript]).flatMap pushData := by simp
  have hpushes := pushes_pushData hall (by rw [List.length_append,List.length_singleton]; omega)
  have hp2shFlag : (env.verifier txTo nIn).hasFlag SCRIPT_VERIFY_P2SH = true := by
    show (STANDARD_SCRIPT_VERIFY_FLAGS &&& SCRIPT_VERIFY_P2SH != 0) = true
    decide
  rw [hscriptSig]
  exact ScriptEnv.accepts_redeem hpushes fRequireMinimal_verifier hp2shFlag hp2sh hhash (by omega)
    h.runs

end SignerEnv

/-- The redeem script of an output pays to a script hash again. -/
def CWalletKeys.NestedScriptHash (keystore : CWalletKeys) (scriptPubKey : CScript) : Prop :=
  CScript.isPayToScriptHash scriptPubKey = true ∧ ∃ subscript,
    keystore.getCScript (uint160 ((scriptPubKey.drop 2).take 20)) = some subscript ∧
      CScript.isPayToScriptHash subscript = true

namespace SignerEnv
variable {env : SignerEnv} {keystore : CWalletKeys} {scriptPubKey : CScript} {txTo : CTransaction}
  {nIn : Nat}

theorem testSolution_eq (fromPubKey : CScript) (txTo : CTransaction) (nIn : Nat)
    (scriptSig : CScript) (before : CScript) :
    env.testSolution fromPubKey (txTo.withScriptSig nIn before) nIn scriptSig =
      (((env.verifier txTo nIn).verifyScript scriptSig fromPubKey).accepts,
        (txTo.withScriptSig nIn before).withScriptSig nIn scriptSig) := by
  unfold testSolution
  simp only [verifier_withScriptSig]

/-- A form that needs no other script is signed for exactly by an unlocked store. -/
theorem Holds.signed_iff (h : env.Holds keystore scriptPubKey) (hw : env.Works)
    (hs : keystore.Stores env) (happart : env.Apart keystore scriptPubKey)
    (hin : nIn < txTo.vin.length) :
    (∃ txTo', env.signSignature keystore scriptPubKey txTo nIn SIGHASH_ALL = some (true,txTo')) ↔
      keystore.keys.isLocked = false := by
  unfold signSignature
  rw [if_neg (Nat.not_le.mpr hin)]
  cases hlocked : keystore.keys.isLocked with
  | true =>
    have hfails := h.locked hlocked (signatureHash env.hash scriptPubKey txTo nIn SIGHASH_ALL)
      SIGHASH_ALL
    simp [hfails]
  | false =>
    obtain ⟨datas,whichType,htype,hsolved,hsatisfies⟩ :=
      @Holds.satisfied env keystore scriptPubKey txTo nIn h hw hs happart hlocked
    have haccepts := hsatisfies.accepts h.not_scripthash
    simp only [hsolved,Bool.not_true,Bool.false_eq_true,if_false,htype,testSolution_eq,haccepts]
    simp

/-- A redeem script of the store is signed for when its own form is. -/
theorem redeem_signed_iff (hw : env.Works) (hs : keystore.Stores env) {subscript : CScript}
    (hp2sh : CScript.isPayToScriptHash scriptPubKey = true)
    (hget : keystore.getCScript (uint160 ((scriptPubKey.drop 2).take 20)) = some subscript)
    (happart : env.Apart keystore subscript) (hin : nIn < txTo.vin.length)
    (hspendable : env.Holds keystore subscript ∨ CScript.isPayToScriptHash subscript = true) :
    (∃ txTo', env.signSignature keystore scriptPubKey txTo nIn SIGHASH_ALL = some (true,txTo')) ↔
      keystore.keys.isLocked = false ∧ CScript.isPayToScriptHash subscript = false := by
  have hsolver : solver env.fDataCarrier scriptPubKey =
      (true,.scripthash,[(scriptPubKey.drop 2).take 20]) := solver_scripthash_iff.mpr ⟨hp2sh,rfl⟩
  have hfirst : env.solverSign keystore scriptPubKey
      (signatureHash env.hash scriptPubKey txTo nIn SIGHASH_ALL) SIGHASH_ALL =
        (true,subscript,.scripthash) := by
    unfold solverSign
    simp only [hsolver,List.headD_cons,hget]
  obtain ⟨hsmall,hdigest⟩ := hs.script _ _ hget
  unfold signSignature
  rw [if_neg (Nat.not_le.mpr hin)]
  simp only [hfirst,Bool.not_true,Bool.false_eq_true,if_false,if_true,signatureHash_withScriptSig]
  rcases hspendable with hholds | hnested
  · rw [hholds.not_scripthash]
    cases hlocked : keystore.keys.isLocked with
    | true =>
      have hfails := hholds.locked hlocked (signatureHash env.hash subscript txTo nIn SIGHASH_ALL)
        SIGHASH_ALL
      simp [hfails]
    | false =>
      obtain ⟨datas,whichType,htype,hsolved,hsatisfies⟩ :=
        @Holds.satisfied env keystore subscript txTo nIn hholds hw hs happart hlocked
      have haccepts := hsatisfies.accepts_redeem hsmall hp2sh hdigest
      simp only [hsolved,bne_iff_ne.mpr htype,Bool.and_self,Bool.not_true,Bool.false_eq_true,
        if_false,testSolution_eq,haccepts]
      simp
  · have hagain : solver env.fDataCarrier subscript = _ := solver_scripthash_iff.mpr ⟨hnested,rfl⟩
    have htype : (env.solverSign keystore subscript
        (signatureHash env.hash subscript txTo nIn SIGHASH_ALL) SIGHASH_ALL).2.2 = .scripthash := by
      unfold solverSign
      simp only [hagain]
      split <;> rfl
    simp [htype,hnested]

/-- What `IsMine` calls spendable is signed for exactly by an unlocked store and where no redeem
script pays to a script hash again. -/
theorem signSignature_iff (hw : env.Works) (hs : keystore.Stores env)
    (happart : env.Apart keystore scriptPubKey)
    (hredeem : ∀ subscript, keystore.getCScript (uint160 ((scriptPubKey.drop 2).take 20)) =
      some subscript → env.Apart keystore subscript)
    (hmine : keystore.isMine env.crypto.getID env.fDataCarrier scriptPubKey = some .spendable)
    (hin : nIn < txTo.vin.length) :
    (∃ txTo', env.signSignature keystore scriptPubKey txTo nIn SIGHASH_ALL = some (true,txTo')) ↔
      keystore.keys.isLocked = false ∧ ¬keystore.NestedScriptHash scriptPubKey := by
  rcases isMineFrom_spendable hmine with hholds | ⟨hp2sh,subscript,hget,hagain⟩
  · have hnot : ¬keystore.NestedScriptHash scriptPubKey := by
      rintro ⟨hp2sh,-⟩
      rw [hholds.not_scripthash] at hp2sh
      contradiction
    rw [hholds.signed_iff hw hs happart hin]
    exact (and_iff_left hnot).symm
  · have hspendable : env.Holds keystore subscript ∨
        CScript.isPayToScriptHash subscript = true := by
      cases hfuel : keystore.mapScripts.entries.length with
      | zero =>
        rw [hfuel] at hagain
        contradiction
      | succ fuel =>
        rw [hfuel] at hagain
        exact (isMineFrom_spendable hagain).imp_right And.left
    have hnested : ¬keystore.NestedScriptHash scriptPubKey ↔
        CScript.isPayToScriptHash subscript = false := by
      unfold CWalletKeys.NestedScriptHash
      simp [hp2sh,hget]
    rw [redeem_signed_iff hw hs hp2sh hget (hredeem subscript hget) hin hspendable,hnested]

end SignerEnv

/-- The public key of the secret one. -/
def generatorKey : Valtype :=
  [0x02,0x79,0xbe,0x66,0x7e,0xf9,0xdc,0xbb,0xac,0x55,0xa0,0x62,0x95,0xce,0x87,0x0b,0x07,0x02,
    0x9b,0xfc,0xdb,0x2d,0xce,0x28,0xd9,0x59,0xf2,0x81,0x5b,0x16,0xf8,0x17,0x98]

def generatorID : Valtype :=
  [0x75,0x1e,0x76,0xe8,0x19,0x91,0x96,0xd4,0x54,0x94,0x1c,0x45,0xd1,0xb3,0xa3,0x23,0xf1,0x43,
    0x3b,0xd6]

/-- A signature with it over `spendHash`. -/
def generatorSignature : Valtype :=
  [0x30,0x45,0x02,0x21,0x00,0xf0,0x1d,0x6b,0x90,0x18,0xab,0x42,0x1d,0xd4,0x10,0x40,0x4c,0xb8,
    0x69,0x07,0x20,0x65,0x52,0x2b,0xf8,0x57,0x34,0x00,0x8f,0x10,0x5c,0xf3,0x85,0xa0,0x23,0xa8,
    0x0f,0x02,0x20,0x7c,0xd3,0xf5,0x9d,0x44,0x4c,0x17,0x4e,0x13,0xc8,0x7d,0x4a,0xcd,0x56,0x82,
    0xff,0x6c,0x3a,0xf2,0x03,0x0b,0x15,0x43,0xfe,0x4a,0xbd,0x18,0x7d,0x46,0x60,0x09,0x99]

def spendHash : Uint256 := 0x31a1715a5302b97f140194e461893ee9256a38dbab112bfa91a46042c12199

def payToGenerator : CScript := [0x76,0xa9,0x14] ++ generatorID ++ [0x88,0xac]

def payToGeneratorID : Valtype :=
  [0xcd,0x7b,0x44,0xd0,0xb0,0x3f,0x2d,0x02,0x6d,0x1e,0x58,0x6d,0x7a,0xe1,0x89,0x03,0xb0,0xd3,
    0x85,0xf6]

def payToScript : CScript := [0xa9,0x14] ++ payToGeneratorID ++ [0x87]

def payToScriptID : Valtype :=
  [0x38,0xe5,0xe2,0xb8,0x75,0x93,0x44,0x2f,0xc2,0x02,0xcd,0xb8,0xfe,0xd6,0x49,0x35,0x04,0xac,
    0xe8,0xf2]

/-- The redeem script of this output pays to a script hash itself. -/
def payToNested : CScript := [0xa9,0x14] ++ payToScriptID ++ [0x87]

/-- The digests of the key and of the two redeem scripts. -/
def generatorHashes : ScriptHashes :=
  { zeroHashes with
    hash160 := fun v =>
      if v = generatorKey then generatorID
      else if v = payToGenerator then payToGeneratorID
      else if v = payToScript then payToScriptID
      else List.replicate 20 0
    length_hash160 := by
      intro v
      split_ifs <;> rfl }

/-- Every valid key is the secret one, and everything that is signed hashes to `spendHash`. -/
def generatorEnv : SignerEnv where
  crypto := { prefixCrypto with
    pubKeyOf := fun _ _ => ⟨generatorKey⟩
    getID := fun pubkey => uint160 (generatorHashes.hash160 pubkey.toByteVector) }
  hashes := generatorHashes
  hash _ := spendHash
  ecdsaSign _ _ := some generatorSignature
  verifySignature vchSig vchPubKey _ := vchSig == generatorSignature && vchPubKey == generatorKey
  fDataCarrier := true

def secretOne : CKey := CKey.create.set (List.replicate 31 0 ++ [1]) true

/-- A store with the key and the two redeem scripts. -/
def generatorStore : CWalletKeys where
  keys := { CCryptoKeyStore.create with mapKeys := AList.singleton (uint160 generatorID) secretOne }
  mapScripts := (AList.singleton (uint160 payToScriptID) payToScript).insert
    (uint160 payToGeneratorID) payToGenerator
  setWatchOnly := []

def spendTx : CTransaction := ⟨1,[⟨⟨1,0⟩,[],0xffffffff⟩],[⟨1000,[0x51]⟩],0⟩

theorem generatorKey_common : ScriptEnv.isCompressedOrUncompressedPubKey generatorKey = true := by
  decide

theorem generatorEnv_works : generatorEnv.Works := by
  refine ⟨fun pubkey => rfl,fun _ _ => generatorKey_common,?_⟩
  intro key pubkey hash h
  obtain ⟨hvalid,rfl,-⟩ := CKey.getPubKey_eq_some h
  refine ⟨generatorSignature,?_,⟨by decide +kernel,by decide⟩,?_⟩
  · unfold SignerEnv.sign
    rw [if_pos hvalid]
    rfl
  · show (generatorSignature == generatorSignature && generatorKey == generatorKey) = true
    rw [beq_self_eq_true,beq_self_eq_true,Bool.and_self]

theorem generatorStore_key {address : CKeyID} (h : generatorStore.haveKey address = true) :
    address = uint160 generatorID ∧
      generatorStore.keys.mapKeys.lookup address = some secretOne := by
  by_cases hsame : address = uint160 generatorID
  · subst hsame
    exact ⟨rfl,by decide⟩
  · have hnone : generatorStore.keys.mapKeys.lookup address = none :=
      AList.lookup_eq_none.mpr (by simpa [generatorStore,AList.mem_keys] using hsame)
    have hhave : (generatorStore.keys.mapKeys.lookup address).isSome = true := h
    rw [hnone] at hhave
    contradiction

theorem generatorStore_stores : generatorStore.Stores generatorEnv := by
  constructor
  · intro address hhave
    obtain ⟨rfl,hlookup⟩ := generatorStore_key hhave
    exact ⟨⟨generatorKey⟩,by decide,by decide,generatorKey_common,
      fun _ => ⟨secretOne,hlookup,by decide⟩⟩
  · intro hash redeemScript hget
    have hmem : (⟨hash,redeemScript⟩ : Σ _ : CScriptID, CScript) ∈
        generatorStore.mapScripts.entries := AList.mem_lookup_iff.mp hget
    have hentries : generatorStore.mapScripts.entries =
        [⟨uint160 payToGeneratorID,payToGenerator⟩,⟨uint160 payToScriptID,payToScript⟩] := by decide
    rw [hentries] at hmem
    rcases List.mem_pair.mp hmem with heq | heq
    · cases heq
      exact ⟨(by decide : payToGenerator.length ≤ MAX_SCRIPT_ELEMENT_SIZE),by decide⟩
    · cases heq
      exact ⟨(by decide : payToScript.length ≤ MAX_SCRIPT_ELEMENT_SIZE),by decide⟩

theorem generatorStore_apart {code : CScript}
    (h : ∀ vch ∈ (solver true code).2.2, vch.length = 20) :
    generatorEnv.Apart generatorStore code := by
  constructor
  · intro vch hv hlen
    have := h vch hv
    omega
  · intro vch hv key hash vchSig hsign heq
    have hlen := h vch hv
    unfold SignerEnv.sign at hsign
    split at hsign
    · obtain rfl := Option.some.inj hsign
      rw [heq] at hlen
      exact absurd hlen (by decide)
    · contradiction

/-- An output to the hash of a script that pays to the key. -/
theorem payToScript_signed :
    ∃ txTo', generatorEnv.signSignature generatorStore payToScript spendTx 0 SIGHASH_ALL =
      some (true,txTo') := by
  have hget : generatorStore.getCScript (uint160 ((payToScript.drop 2).take 20)) =
      some payToGenerator := by decide
  refine (SignerEnv.signSignature_iff generatorEnv_works generatorStore_stores
    (generatorStore_apart (by decide)) (fun subscript hsub => ?_) (by decide) (by decide)).mpr
    ⟨by decide,?_⟩
  · obtain rfl := Option.some.inj (hget.symm.trans hsub)
    exact generatorStore_apart (by decide)
  · rintro ⟨-,subscript,hsub,hnested⟩
    obtain rfl := Option.some.inj (hget.symm.trans hsub)
    exact absurd hnested (by decide)

/-- An output to the hash of a script that pays to a script hash is called spendable and is not
signed. -/
theorem payToNested_not_signed :
    (generatorEnv.Works ∧ generatorStore.Stores generatorEnv ∧
      generatorEnv.Apart generatorStore payToNested ∧
      (∀ subscript, generatorStore.getCScript (uint160 ((payToNested.drop 2).take 20)) =
        some subscript → generatorEnv.Apart generatorStore subscript) ∧
      generatorStore.keys.isLocked = false ∧
      generatorStore.isMine generatorEnv.crypto.getID generatorEnv.fDataCarrier payToNested =
        some .spendable) ∧
    ¬∃ txTo', generatorEnv.signSignature generatorStore payToNested spendTx 0 SIGHASH_ALL =
      some (true,txTo') := by
  have hget : generatorStore.getCScript (uint160 ((payToNested.drop 2).take 20)) =
      some payToScript := by decide
  have hfails : (generatorEnv.signSignature generatorStore payToNested spendTx 0 SIGHASH_ALL).map
      Prod.fst = some false := by decide +kernel
  refine ⟨⟨generatorEnv_works,generatorStore_stores,generatorStore_apart (by decide),?_,by decide,
    by decide⟩,?_⟩
  · intro subscript hsub
    obtain rfl := Option.some.inj (hget.symm.trans hsub)
    exact generatorStore_apart (by decide)
  · rintro ⟨txTo',h⟩
    rw [h] at hfails
    simp at hfails

end Anoncoin
