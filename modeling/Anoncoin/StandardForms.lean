import Anoncoin.CreateTransaction
import Anoncoin.Signing

/-!
The standard scripts as byte strings (script.cpp): `Solver` recognizes exactly these, and
`ExtractDestination` inverts `GetScriptForDestination`.
-/

set_option autoImplicit false

namespace Anoncoin
open Lib

/-- The four ways to push a vector. -/
inductive PushOf (vch : Valtype) : CScript → Prop
  | direct : vch.length < 76 → PushOf vch (UInt8.ofNat vch.length :: vch)
  | pushData1 : vch.length < 2^8 → PushOf vch (OP_PUSHDATA1 :: (littleEndian 1 vch.length ++ vch))
  | pushData2 : vch.length < 2^16 → PushOf vch (OP_PUSHDATA2 :: (littleEndian 2 vch.length ++ vch))
  | pushData4 : vch.length < 2^32 → PushOf vch (OP_PUSHDATA4 :: (littleEndian 4 vch.length ++ vch))

/-- A key of at most 65 bytes, and OP_CHECKSIG. -/
def IsPubKeyScript (script : CScript) (vch : Valtype) : Prop :=
  33 ≤ vch.length ∧ vch.length ≤ 65 ∧ ∃ push, PushOf vch push ∧ script = push ++ [OP_CHECKSIG]

def IsPubKeyHashScript (script : CScript) (vch : Valtype) : Prop :=
  vch.length = 20 ∧ ∃ push, PushOf vch push ∧
    script = [OP_DUP,OP_HASH160] ++ (push ++ [OP_EQUALVERIFY,OP_CHECKSIG])

def IsScriptHashScript (script : CScript) (vch : Valtype) : Prop :=
  vch.length = 20 ∧ script = [OP_HASH160,0x14] ++ (vch ++ [OP_EQUAL])

/-- `EncodeOP_N`. -/
def encodeOpN (n : Nat) : UInt8 := if n = 0 then 0 else UInt8.ofNat (OP_1.toNat+n-1)

def IsMultiSigScript (script : CScript) (m : Nat) (keys : List Valtype) : Prop :=
  1 ≤ m ∧ m ≤ keys.length ∧ keys.length ≤ 16 ∧
    (∀ k ∈ keys, 33 ≤ k.length ∧ k.length ≤ 65) ∧
    ∃ pushes, List.Forall₂ PushOf keys pushes ∧
      script = encodeOpN m :: (pushes.flatten ++ [encodeOpN keys.length,OP_CHECKMULTISIG])

section Pushes
variable {vch : Valtype} {push : CScript} {opcode : UInt8}

theorem sizeBytes_direct (h : opcode < OP_PUSHDATA1) : sizeBytes opcode = 0 := if_pos h

theorem PushOf.written (h : PushOf vch push) :
    ∃ opcode, ¬OP_PUSHDATA4 < opcode ∧ Written ⟨opcode,vch⟩ push := by
  cases h with
  | direct h =>
    have hshort : vch.length < OP_PUSHDATA1.toNat := h
    have hwritten := written_pushData (show vch.length < 2^32 by omega)
    rw [pushData,if_pos hshort] at hwritten
    exact ⟨_,pushOpcode_small _,hwritten⟩
  | pushData1 h =>
    have hsmall : ¬OP_PUSHDATA4 < OP_PUSHDATA1 := by decide
    refine ⟨OP_PUSHDATA1,hsmall,.inr ⟨hsmall,_,littleEndian_length 1 _,?_,rfl⟩⟩
    exact (fromLittleEndian_littleEndian (by omega)).symm
  | pushData2 h =>
    have hsmall : ¬OP_PUSHDATA4 < OP_PUSHDATA2 := by decide
    refine ⟨OP_PUSHDATA2,hsmall,.inr ⟨hsmall,_,littleEndian_length 2 _,?_,rfl⟩⟩
    exact (fromLittleEndian_littleEndian (by omega)).symm
  | pushData4 h =>
    have hsmall : ¬OP_PUSHDATA4 < OP_PUSHDATA4 := by decide
    refine ⟨OP_PUSHDATA4,hsmall,.inr ⟨hsmall,_,littleEndian_length 4 _,?_,rfl⟩⟩
    exact (fromLittleEndian_littleEndian (by omega)).symm

theorem pushOf_short (h : vch.length < OP_PUSHDATA1.toNat) : PushOf vch (pushData vch) := by
  unfold pushData
  rw [if_pos h]
  exact .direct h

/-- What has data is a push. -/
theorem Written.pushOf (h : Written ⟨opcode,vch⟩ push) (hne : 0 < vch.length) : PushOf vch push := by
  rcases h with ⟨-,hdata,-⟩ | ⟨hsmall,size,hsize,hdata,rfl⟩
  · dsimp only at hdata
    rw [hdata] at hne
    exact absurd hne (Nat.lt_irrefl 0)
  · dsimp only at hsmall hsize hdata ⊢
    have hle := UInt8.le_iff_toNat_le.mp (UInt8.not_lt.mp hsmall)
    have hfour : OP_PUSHDATA4.toNat = 78 := rfl
    by_cases hdirect : opcode < OP_PUSHDATA1
    · have hlow := UInt8.lt_iff_toNat_lt.mp hdirect
      have hone : OP_PUSHDATA1.toNat = 76 := rfl
      rw [sizeBytes_direct hdirect] at hsize
      obtain rfl := List.eq_nil_of_length_eq_zero hsize
      unfold pushSize at hdata
      rw [if_pos hdirect] at hdata
      have hcode : opcode = UInt8.ofNat vch.length := by
        rw [hdata]
        exact (UInt8.ofNat_toNat).symm
      rw [hcode]
      exact .direct (by omega)
    · have hwhich : opcode = OP_PUSHDATA1 ∨ opcode = OP_PUSHDATA2 ∨ opcode = OP_PUSHDATA4 := by
        have hall : ∀ o : UInt8, ¬o < OP_PUSHDATA1 → ¬OP_PUSHDATA4 < o →
            o = OP_PUSHDATA1 ∨ o = OP_PUSHDATA2 ∨ o = OP_PUSHDATA4 :=
          forall_opcode (by decide +kernel)
        exact hall opcode hdirect hsmall
      have hback := littleEndian_fromLittleEndian size
      have hlt := fromLittleEndian_lt size
      unfold pushSize at hdata
      rw [if_neg hdirect] at hdata
      rw [← hback,← hdata]
      rcases hwhich with rfl | rfl | rfl
      · have hlength : size.length = 1 := hsize
        rw [hlength] at hlt ⊢
        exact .pushData1 (by omega)
      · have hlength : size.length = 2 := hsize
        rw [hlength] at hlt ⊢
        exact .pushData2 (by omega)
      · have hlength : size.length = 4 := hsize
        rw [hlength] at hlt ⊢
        exact .pushData4 (by omega)

/-- What is read from a script with data is one of these pushes. -/
theorem pushOf_of_getOp {op : Op} {pc rest : CScript} (h : getOp pc = (some op,rest))
    (hne : 0 < op.data.length) : ∃ push, PushOf op.data push ∧ pc = push ++ rest := by
  obtain ⟨push,hwritten,hpc⟩ := written_of_getOp h
  exact ⟨push,hwritten.pushOf hne,hpc⟩

theorem getOp_alone {rest pc : CScript} {op : Op} (h : getOp pc = (some op,rest))
    (hlarge : OP_PUSHDATA4 < op.opcode) : pc = op.opcode :: rest := by
  rcases getOp_cases h with ⟨-,hpc,-⟩ | ⟨hsmall,-⟩
  · exact hpc
  · exact absurd hlarge hsmall

theorem ReadsTo.uncons {pc rest : CScript} {op : Op} {ops : List Op}
    (h : ReadsTo rest pc (op :: ops)) : ∃ mid, getOp pc = (some op,mid) ∧ ReadsTo rest mid ops := by
  cases h with
  | cons hop hlater => exact ⟨_,hop,hlater⟩

theorem ReadsTo.pushes {pc rest : CScript} {ops : List Op} (h : ReadsTo rest pc ops)
    (hne : ∀ op ∈ ops, 0 < op.data.length) :
    ∃ pushes, List.Forall₂ PushOf (ops.map Op.data) pushes ∧ pc = pushes.flatten ++ rest := by
  induction h with
  | nil => exact ⟨[],.nil,rfl⟩
  | cons hop _ ih =>
    obtain ⟨push,hpush,hpc⟩ := pushOf_of_getOp hop (hne _ List.mem_cons_self)
    obtain ⟨pushes,hpushes,hmid⟩ := ih fun op hmem => hne op (List.mem_cons_of_mem _ hmem)
    exact ⟨push :: pushes,.cons hpush hpushes,by
      rw [hpc,hmid,List.flatten_cons,List.append_assoc]⟩

theorem readsTo_of_pushes {keys : List Valtype} {pushes : List CScript}
    (h : List.Forall₂ PushOf keys pushes) (rest : CScript) :
    ∃ ops, ReadsTo rest (pushes.flatten ++ rest) ops ∧ ops.map Op.data = keys := by
  induction h with
  | nil => exact ⟨[],.nil,rfl⟩
  | @cons key push keys pushes hpush _ ih =>
    obtain ⟨ops,hreads,hdatas⟩ := ih
    obtain ⟨opcode,-,hwritten⟩ := hpush.written
    refine ⟨⟨opcode,key⟩ :: ops,?_,by rw [List.map_cons,hdatas]⟩
    rw [List.flatten_cons,List.append_assoc]
    exact .cons (hwritten.getOp _) hreads

end Pushes

section Complete
variable {fDataCarrier : Bool} {code rest pc : CScript} {op : Op} {opcode2 : UInt8}
  {pc2 : List UInt8} {vSolutions : List Valtype}

theorem matchTemplate_step (hne : opcode2 ≠ OP_PUBKEYS) (hop : getOp code = (some op,rest)) :
    matchTemplate (opcode2 :: pc2) code vSolutions =
      (matchOp opcode2 op vSolutions).bind (matchTemplate pc2 rest) := by
  rw [matchTemplate,hop]
  simp only [hne,if_false]

theorem matchOp_pubkey_eq (h : 33 ≤ op.data.length ∧ op.data.length ≤ 65) :
    matchOp OP_PUBKEY op vSolutions = some (vSolutions ++ [op.data]) := by
  unfold matchOp
  rw [if_pos rfl,if_neg (by omega)]

theorem matchOp_pubkey_none (h : op.data = []) : matchOp OP_PUBKEY op vSolutions = none := by
  unfold matchOp
  rw [if_pos rfl,if_pos (by rw [h]; exact .inl (by decide))]

theorem matchOp_pubkeyhash_eq (h : op.data.length = 20) :
    matchOp OP_PUBKEYHASH op vSolutions = some (vSolutions ++ [op.data]) := by
  unfold matchOp
  rw [if_neg (by decide),if_pos rfl,if_neg (by omega)]

theorem matchOp_smallInteger_eq (h : OP_1 ≤ op.opcode ∧ op.opcode ≤ OP_16) :
    matchOp OP_SMALLINTEGER op vSolutions =
      some (vSolutions ++ [[UInt8.ofNat (decodeOpN op.opcode)]]) := by
  unfold matchOp
  rw [if_neg (by decide),if_neg (by decide),if_pos rfl,if_pos (.inr h)]

theorem matchOp_literal_eq (hliteral : IsLiteral opcode2) :
    matchOp opcode2 ⟨opcode2,[]⟩ vSolutions = some vSolutions := by
  unfold matchOp
  rw [if_neg hliteral.1,if_neg hliteral.2.1,if_neg hliteral.2.2.1,if_neg hliteral.2.2.2.1,
    if_neg (by simp)]

theorem matchOp_literal_none (hliteral : IsLiteral opcode2) (h : op.opcode ≠ opcode2) :
    matchOp opcode2 op vSolutions = none := by
  unfold matchOp
  rw [if_neg hliteral.1,if_neg hliteral.2.1,if_neg hliteral.2.2.1,if_neg hliteral.2.2.2.1,
    if_pos (.inl h)]

theorem ReadsTo.count_le {ops : List Op} (h : ReadsTo rest pc ops) :
    ops.length+rest.length ≤ pc.length := by
  induction h with
  | nil => simp
  | cons hop _ ih =>
    have := getOp_length hop
    rw [List.length_cons]
    omega

/-- The inner loop takes keys up to an instruction that is none. -/
theorem takePubKeys_eq {fuel : Nat} {op1 op : Op} {pc0 pc mid : CScript} {kops : List Op}
    (hop1 : getOp pc0 = (some op1,pc)) (hkeys : ReadsTo mid pc0 kops)
    (hop : getOp mid = (some op,rest)) (hsizes : ∀ k ∈ kops, 33 ≤ k.data.length ∧ k.data.length ≤ 65)
    (hend : op.data = []) (hfuel : kops.length ≤ fuel) :
    takePubKeys fuel op1 pc vSolutions = (op,rest,vSolutions ++ kops.map Op.data) := by
  induction kops generalizing fuel op1 pc0 pc vSolutions with
  | nil =>
    cases hkeys
    obtain ⟨heq,rfl⟩ := Prod.mk.inj (hop1.symm.trans hop)
    rw [Option.some.inj heq]
    cases fuel with
    | zero => simp [takePubKeys]
    | succ fuel => simp [takePubKeys,hend]
  | cons k kops ih =>
    cases hkeys with
    | @cons _ next _ _ hk hlater =>
      obtain ⟨heq,rfl⟩ := Prod.mk.inj (hop1.symm.trans hk)
      rw [Option.some.inj heq]
      obtain ⟨op2,pc',hop2⟩ : ∃ op2 pc', getOp pc = (some op2,pc') := by
        cases hlater with
        | nil => exact ⟨op,rest,hop⟩
        | cons hop2 _ => exact ⟨_,_,hop2⟩
      rw [List.length_cons] at hfuel
      cases fuel with
      | zero => omega
      | succ fuel =>
        rw [takePubKeys,if_pos (hsizes k List.mem_cons_self),hop2]
        dsimp only
        rw [ih hop2 hlater (fun k' hk' => hsizes k' (List.mem_cons_of_mem _ hk')) (by omega)]
        rw [List.map_cons,List.append_assoc]
        rfl

theorem matchTemplate_keys_eq {mid : CScript} {kops : List Op} (hkeys : ReadsTo mid code kops)
    (hop : getOp mid = (some op,rest)) (hsizes : ∀ k ∈ kops, 33 ≤ k.data.length ∧ k.data.length ≤ 65)
    (hend : op.data = []) :
    matchTemplate (OP_PUBKEYS :: opcode2 :: pc2) code vSolutions =
      (matchOp opcode2 op (vSolutions ++ kops.map Op.data)).bind (matchTemplate pc2 rest) := by
  obtain ⟨op1,pc,hop1⟩ : ∃ op1 pc, getOp code = (some op1,pc) := by
    cases hkeys with
    | nil => exact ⟨op,rest,hop⟩
    | cons hop1 _ => exact ⟨_,_,hop1⟩
  have hcount := hkeys.count_le
  have hmid := getOp_length hop
  have hfuel : kops.length ≤ pc.length+1 := by
    obtain ⟨bytes,-,hcode,-⟩ := getOp_eq_some hop1
    cases hkeys with
    | nil => exact Nat.zero_le _
    | cons hk hlater =>
      obtain ⟨-,rfl⟩ := Prod.mk.inj (hop1.symm.trans hk)
      have := hlater.count_le
      rw [List.length_cons]
      omega
  rw [matchTemplate,hop1]
  simp only [if_true,takePubKeys_eq hop1 hkeys hop hsizes hend hfuel]

/-- A script that does not begin with OP_HASH160 is compared with the templates. -/
theorem solver_eq_scan (hop : getOp code = (some op,rest)) (hne : op.opcode ≠ OP_HASH160) :
    solver fDataCarrier code = scanTemplates code (templates fDataCarrier) := by
  have hhead := getOp_head hop
  unfold solver
  rw [if_neg]
  unfold CScript.isPayToScriptHash
  rw [← List.head?_eq_getElem?,hhead]
  simp [hne]

theorem scanTemplates_none {tplate : TxnOutType × List UInt8}
    {later : List (TxnOutType × List UInt8)} (h : matchTemplate tplate.2 code [] = none) :
    scanTemplates code (tplate :: later) = scanTemplates code later := by
  rw [scanTemplates,h]

theorem scanTemplates_some {whichType : TxnOutType} {pc2 : List UInt8}
    {later : List (TxnOutType × List UInt8)} (hne : whichType ≠ .multisig)
    (h : matchTemplate pc2 code [] = some vSolutions) :
    scanTemplates code ((whichType,pc2) :: later) = (true,whichType,vSolutions) := by
  rw [scanTemplates,h]
  simp only [hne,if_false]

theorem solver_of_pubkey (hreads : ReadsTo [] code [op,⟨OP_CHECKSIG,[]⟩])
    (hsize : 33 ≤ op.data.length ∧ op.data.length ≤ 65) :
    solver fDataCarrier code = (true,.pubkey,[op.data]) := by
  obtain ⟨pc,hop,hreads⟩ := hreads.uncons
  obtain ⟨last,hlast,hreads⟩ := hreads.uncons
  cases hreads
  have hne : op.opcode ≠ OP_HASH160 := by
    intro heq
    rcases getOp_cases hop with ⟨-,-,hdata⟩ | ⟨hsmall,-⟩
    · rw [hdata,List.length_nil] at hsize
      omega
    · rw [heq] at hsmall
      exact hsmall (by decide)
  rw [solver_eq_scan hop hne]
  refine scanTemplates_some (by decide) ?_
  rw [matchTemplate_step (by decide) hop,matchOp_pubkey_eq hsize,Option.bind_some,
    matchTemplate_step (by decide) hlast,matchOp_literal_eq (by decide),Option.bind_some]
  rfl

/-- The positions between the operations of a script that pays to the hash of a key. -/
theorem reads_pubkeyhash (hreads : ReadsTo [] code
      [⟨OP_DUP,[]⟩,⟨OP_HASH160,[]⟩,op,⟨OP_EQUALVERIFY,[]⟩,⟨OP_CHECKSIG,[]⟩]) :
    ∃ pc₁ pc₂ pc₃ pc₄, getOp code = (some ⟨OP_DUP,[]⟩,pc₁) ∧
      getOp pc₁ = (some ⟨OP_HASH160,[]⟩,pc₂) ∧ getOp pc₂ = (some op,pc₃) ∧
      getOp pc₃ = (some ⟨OP_EQUALVERIFY,[]⟩,pc₄) ∧ getOp pc₄ = (some ⟨OP_CHECKSIG,[]⟩,[]) := by
  obtain ⟨pc₁,hdup,hreads⟩ := hreads.uncons
  obtain ⟨pc₂,hhash,hreads⟩ := hreads.uncons
  obtain ⟨pc₃,hop,hreads⟩ := hreads.uncons
  obtain ⟨pc₄,hequal,hreads⟩ := hreads.uncons
  obtain ⟨pc₅,hcheck,hreads⟩ := hreads.uncons
  cases hreads
  exact ⟨pc₁,pc₂,pc₃,pc₄,hdup,hhash,hop,hequal,hcheck⟩

theorem solver_of_pubkeyhash (hreads : ReadsTo [] code
      [⟨OP_DUP,[]⟩,⟨OP_HASH160,[]⟩,op,⟨OP_EQUALVERIFY,[]⟩,⟨OP_CHECKSIG,[]⟩])
    (hsize : op.data.length = 20) : solver fDataCarrier code = (true,.pubkeyhash,[op.data]) := by
  obtain ⟨pc₁,pc₂,pc₃,pc₄,hdup,hhash,hop,hequal,hcheck⟩ := reads_pubkeyhash hreads
  rw [solver_eq_scan hdup (by decide)]
  unfold templates
  rw [List.append_assoc,List.cons_append,scanTemplates_none]
  · refine scanTemplates_some (by decide) ?_
    rw [matchTemplate_step (by decide) hdup,matchOp_literal_eq (by decide),Option.bind_some,
      matchTemplate_step (by decide) hhash,matchOp_literal_eq (by decide),Option.bind_some,
      matchTemplate_step (by decide) hop,matchOp_pubkeyhash_eq hsize,Option.bind_some,
      matchTemplate_step (by decide) hequal,matchOp_literal_eq (by decide),Option.bind_some,
      matchTemplate_step (by decide) hcheck,matchOp_literal_eq (by decide),Option.bind_some]
    rfl
  · rw [matchTemplate_step (by decide) hdup,matchOp_pubkey_none rfl,Option.bind_none]

theorem MultiSigForm.solver {opM opN : Op} {kops : List Op}
    (h : MultiSigForm code vSolutions opM opN kops) :
    solver fDataCarrier code = (true,.multisig,vSolutions) := by
  obtain ⟨pc₁,hopM,hreads⟩ := h.reads.uncons
  obtain ⟨pc₂,hkeys,hreads'⟩ := hreads.split
  obtain ⟨pc₃,hopN,hreads'⟩ := hreads'.uncons
  obtain ⟨pc₄,hcheck,hreads'⟩ := hreads'.uncons
  cases hreads'
  have hdataM : opM.data = [] :=
    h.reads.data_nil List.mem_cons_self (large_of_smallInteger h.smallM)
  have hdataN : opN.data = [] :=
    h.reads.data_nil (by simp) (large_of_smallInteger h.smallN)
  have hneM (opcode : UInt8) (hlarge : OP_16 < opcode) : opM.opcode ≠ opcode := by
    rintro rfl
    exact absurd (UInt8.lt_of_le_of_lt h.smallM.2 hlarge) (UInt8.lt_irrefl _)
  have hmatch : matchTemplate [OP_SMALLINTEGER,OP_PUBKEYS,OP_SMALLINTEGER,OP_CHECKMULTISIG] code
      [] = some vSolutions := by
    rw [matchTemplate_step (by decide) hopM,matchOp_smallInteger_eq h.smallM,Option.bind_some,
      matchTemplate_keys_eq hkeys hopN h.keySizes hdataN,matchOp_smallInteger_eq h.smallN,
      Option.bind_some,matchTemplate_step (by decide) hcheck,matchOp_literal_eq (by decide),
      Option.bind_some,h.solutions]
    simp [matchTemplate]
  have hchecked : multisigChecked vSolutions = true := by
    have hbound : ∀ opcode : UInt8, (OP_1 ≤ opcode ∧ opcode ≤ OP_16) →
        (UInt8.ofNat (decodeOpN opcode)).toNat = decodeOpN opcode ∧ 1 ≤ decodeOpN opcode :=
      forall_opcode (by decide +kernel)
    obtain ⟨hnatM,hposM⟩ := hbound _ h.smallM
    obtain ⟨hnatN,hposN⟩ := hbound _ h.smallN
    have hone : UInt8.toNat 1 = 1 := rfl
    have henough := h.enough
    have hcount := h.keyCount
    rw [h.solutions]
    unfold multisigChecked
    simp only [List.headD_cons,List.getLastD_cons,List.getLastD_concat,List.length_cons,
      List.length_append,List.length_map,List.length_nil,Bool.not_eq_true',
      Bool.or_eq_false_iff,decide_eq_false_iff_not,UInt8.lt_iff_toNat_lt,hnatM,hnatN]
    omega
  rw [solver_eq_scan hopM (hneM _ (by decide))]
  unfold templates
  rw [List.append_assoc,List.cons_append,scanTemplates_none,List.cons_append,scanTemplates_none,
    List.cons_append,scanTemplates,hmatch]
  · simp only [if_true,hchecked]
  · rw [matchTemplate_step (by decide) hopM,matchOp_literal_none (by decide) (hneM _ (by decide)),
      Option.bind_none]
  · rw [matchTemplate_step (by decide) hopM,matchOp_pubkey_none hdataM,Option.bind_none]

end Complete

section Exact
variable {fDataCarrier : Bool} {script : CScript} {vSolutions : List Valtype}

theorem solver_pubkey_iff :
    solver fDataCarrier script = (true,.pubkey,vSolutions) ↔
      ∃ vch, IsPubKeyScript script vch ∧ vSolutions = [vch] := by
  constructor
  · intro h
    obtain ⟨op,hreads,hsize,rfl⟩ := solver_pubkey h
    obtain ⟨mid,hop,hreads⟩ := hreads.uncons
    obtain ⟨last,hcheck,hreads⟩ := hreads.uncons
    cases hreads
    obtain ⟨push,hpush,hscript⟩ := pushOf_of_getOp hop (by omega)
    refine ⟨op.data,⟨hsize.1,hsize.2,push,hpush,?_⟩,rfl⟩
    rw [hscript,getOp_alone hcheck (by decide)]
  · rintro ⟨vch,⟨hlow,hhigh,push,hpush,rfl⟩,rfl⟩
    obtain ⟨opcode,-,hwritten⟩ := hpush.written
    exact solver_of_pubkey (.cons (hwritten.getOp _) (.cons rfl .nil)) ⟨hlow,hhigh⟩

theorem solver_pubkeyhash_iff :
    solver fDataCarrier script = (true,.pubkeyhash,vSolutions) ↔
      ∃ vch, IsPubKeyHashScript script vch ∧ vSolutions = [vch] := by
  constructor
  · intro h
    obtain ⟨op,hreads,hsize,rfl⟩ := solver_pubkeyhash h
    obtain ⟨pc₁,pc₂,pc₃,pc₄,hdup,hhash,hop,hequal,hcheck⟩ := reads_pubkeyhash hreads
    obtain ⟨push,hpush,hpc⟩ := pushOf_of_getOp hop (by omega)
    refine ⟨op.data,⟨hsize,push,hpush,?_⟩,rfl⟩
    rw [getOp_alone hdup (by decide),getOp_alone hhash (by decide),hpc,
      getOp_alone hequal (by decide),getOp_alone hcheck (by decide)]
    rfl
  · rintro ⟨vch,⟨hsize,push,hpush,rfl⟩,rfl⟩
    obtain ⟨opcode,-,hwritten⟩ := hpush.written
    have hreads : ReadsTo [] ([OP_DUP,OP_HASH160] ++ (push ++ [OP_EQUALVERIFY,OP_CHECKSIG]))
        [⟨OP_DUP,[]⟩,⟨OP_HASH160,[]⟩,⟨opcode,vch⟩,⟨OP_EQUALVERIFY,[]⟩,⟨OP_CHECKSIG,[]⟩] :=
      .cons (getOp_large (by decide) _) (.cons (getOp_large (by decide) _)
        (.cons (hwritten.getOp _) (.cons rfl (.cons rfl .nil))))
    exact solver_of_pubkeyhash hreads hsize

theorem solver_scripthash_bytes :
    solver fDataCarrier script = (true,.scripthash,vSolutions) ↔
      ∃ vch, IsScriptHashScript script vch ∧ vSolutions = [vch] := by
  rw [solver_scripthash_iff]
  constructor
  · rintro ⟨hp2sh,rfl⟩
    obtain ⟨hscript,hlen⟩ := payToScriptHash_eq hp2sh
    exact ⟨_,⟨hlen,hscript⟩,rfl⟩
  · rintro ⟨vch,⟨hlen,rfl⟩,rfl⟩
    have htake : (([OP_HASH160,0x14] ++ (vch ++ [OP_EQUAL])).drop 2).take 20 = vch := by
      rw [← hlen]
      exact List.take_left
    refine ⟨?_,by rw [htake]⟩
    have hlast : ([OP_HASH160,0x14] ++ (vch ++ [OP_EQUAL]))[22]? = some OP_EQUAL := by
      rw [List.getElem?_append_right (by decide),List.getElem?_append_right
        (by rw [hlen]; decide),hlen]
      rfl
    unfold CScript.isPayToScriptHash
    rw [hlast]
    simp [hlen]

theorem smallInteger_encode {opcode : UInt8} (h : OP_1 ≤ opcode ∧ opcode ≤ OP_16) :
    opcode = encodeOpN (decodeOpN opcode) ∧ 1 ≤ decodeOpN opcode := by
  have hall : ∀ opcode : UInt8, OP_1 ≤ opcode ∧ opcode ≤ OP_16 →
      opcode = encodeOpN (decodeOpN opcode) ∧ 1 ≤ decodeOpN opcode :=
    forall_opcode (by decide +kernel)
  exact hall opcode h

theorem encodeOpN_small {n : Nat} (hlow : 1 ≤ n) (hhigh : n ≤ 16) :
    (OP_1 ≤ encodeOpN n ∧ encodeOpN n ≤ OP_16) ∧ decodeOpN (encodeOpN n) = n := by
  have hall : ∀ n : Nat, n < 17 → 1 ≤ n →
      (OP_1 ≤ encodeOpN n ∧ encodeOpN n ≤ OP_16) ∧ decodeOpN (encodeOpN n) = n := by decide
  exact hall n (by omega) hlow

/-- A multisignature script is read as the numbers, with the keys between them. -/
theorem IsMultiSigScript.form {m : Nat} {keys : List Valtype} (h : IsMultiSigScript script m keys) :
    ∃ kops, kops.map Op.data = keys ∧ MultiSigForm script
      ([UInt8.ofNat m] :: (keys ++ [[UInt8.ofNat keys.length]])) ⟨encodeOpN m,[]⟩
      ⟨encodeOpN keys.length,[]⟩ kops := by
  obtain ⟨hpos,hle,hsixteen,hsizes,pushes,hpushes,rfl⟩ := h
  obtain ⟨hsmallM,hdecodeM⟩ := encodeOpN_small hpos (by omega)
  obtain ⟨hsmallN,hdecodeN⟩ := encodeOpN_small (n := keys.length) (by omega) hsixteen
  obtain ⟨kops,hreads,hkeys⟩ := readsTo_of_pushes hpushes [encodeOpN keys.length,OP_CHECKMULTISIG]
  have hcount : kops.length = keys.length := by rw [← hkeys,List.length_map]
  refine ⟨kops,hkeys,?_,hsmallM,hsmallN,fun k hk => ?_,?_,?_,?_⟩
  · refine .cons (getOp_large (large_of_smallInteger hsmallM) _) (hreads.append ?_)
    exact .cons (getOp_large (large_of_smallInteger hsmallN) _) (.cons rfl .nil)
  · exact hsizes _ (hkeys ▸ List.mem_map_of_mem hk)
  · rw [hcount,hdecodeN]
  · rw [hdecodeM,hcount]
    exact hle
  · rw [hdecodeM,hdecodeN,hkeys]

/-- The script that `<<` writes. -/
theorem isMultiSigScript_pushData {m : Nat} {keys : List Valtype} (hpos : 1 ≤ m)
    (hle : m ≤ keys.length) (hsixteen : keys.length ≤ 16)
    (hsizes : ∀ k ∈ keys, 33 ≤ k.length ∧ k.length ≤ 65) :
    IsMultiSigScript (encodeOpN m ::
      ((keys.map pushData).flatten ++ [encodeOpN keys.length,OP_CHECKMULTISIG])) m keys := by
  refine ⟨hpos,hle,hsixteen,hsizes,_,?_,rfl⟩
  rw [List.forall₂_map_right_iff]
  refine List.forall₂_same.mpr fun k hk => pushOf_short ?_
  exact Nat.lt_of_le_of_lt (hsizes k hk).2 (by decide)

theorem IsMultiSigScript.not_scripthash {m : Nat} {keys : List Valtype}
    (h : IsMultiSigScript script m keys) : CScript.isPayToScriptHash script = false := by
  obtain ⟨hpos,hle,hsixteen,-,pushes,-,rfl⟩ := h
  have hall : ∀ n : Nat, n < 17 → encodeOpN n ≠ OP_HASH160 := by decide
  unfold CScript.isPayToScriptHash
  rw [List.getElem?_cons_zero]
  simp [hall m (by omega)]

theorem solver_multisig_iff :
    solver fDataCarrier script = (true,.multisig,vSolutions) ↔
      ∃ m keys, IsMultiSigScript script m keys ∧
        vSolutions = [UInt8.ofNat m] :: (keys ++ [[UInt8.ofNat keys.length]]) := by
  constructor
  · intro h
    obtain ⟨opM,opN,kops,hform⟩ := solver_multisig h
    obtain ⟨pc₁,hopM,hreads⟩ := hform.reads.uncons
    obtain ⟨pc₂,hkeys,hreads⟩ := hreads.split
    obtain ⟨pc₃,hopN,hreads⟩ := hreads.uncons
    obtain ⟨pc₄,hcheck,hreads⟩ := hreads.uncons
    cases hreads
    obtain ⟨pushes,hpushes,hpc⟩ := hkeys.pushes fun k hk => by
      have := (hform.keySizes k hk).1
      omega
    obtain ⟨hcodeM,hposM⟩ := smallInteger_encode hform.smallM
    obtain ⟨hcodeN,-⟩ := smallInteger_encode hform.smallN
    have hcount : (kops.map Op.data).length = decodeOpN opN.opcode := by
      rw [List.length_map,hform.keyCount]
    refine ⟨decodeOpN opM.opcode,kops.map Op.data,⟨hposM,?_,?_,?_,pushes,hpushes,?_⟩,?_⟩
    · rw [List.length_map]
      exact hform.enough
    · rw [hcount]
      exact decodeOpN_le hform.smallN
    · intro k hk
      obtain ⟨op,hop,rfl⟩ := List.mem_map.mp hk
      exact hform.keySizes op hop
    · rw [hcount,← hcodeM,← hcodeN,getOp_alone hopM (large_of_smallInteger hform.smallM),hpc,
        getOp_alone hopN (large_of_smallInteger hform.smallN),getOp_alone hcheck (by decide)]
    · rw [hcount]
      exact hform.solutions
  · rintro ⟨m,keys,hscript,rfl⟩
    obtain ⟨kops,-,hform⟩ := hscript.form
    exact hform.solver

end Exact

/-- `GetScriptForDestination`, by the same visitor as `SetDestination`. -/
def getScriptForDestination (dest : CTxDestination) : CScript := setDestination dest

theorem uint160_littleEndian (id : BitVec 160) : uint160 (littleEndian 20 id.toNat) = id := by
  have hlt : id.toNat < 256^20 := id.isLt
  unfold uint160
  rw [fromLittleEndian_littleEndian hlt,BitVec.ofNat_toNat,BitVec.setWidth_eq]

theorem pushOf_hash (id : BitVec 160) :
    PushOf (littleEndian 20 id.toNat) (pushData (littleEndian 20 id.toNat)) :=
  pushOf_short (by rw [littleEndian_length]; decide)

/-- `Solver` recognizes exactly the standard forms, with the data that they push, and a
destination is found again in its script. -/
theorem solver_exact (getID : CPubKey → CKeyID) (fDataCarrier : Bool) :
    (∀ script vSolutions, solver fDataCarrier script = (true,.pubkey,vSolutions) ↔
      ∃ vch, IsPubKeyScript script vch ∧ vSolutions = [vch]) ∧
    (∀ script vSolutions, solver fDataCarrier script = (true,.pubkeyhash,vSolutions) ↔
      ∃ vch, IsPubKeyHashScript script vch ∧ vSolutions = [vch]) ∧
    (∀ script vSolutions, solver fDataCarrier script = (true,.scripthash,vSolutions) ↔
      ∃ vch, IsScriptHashScript script vch ∧ vSolutions = [vch]) ∧
    (∀ script vSolutions, solver fDataCarrier script = (true,.multisig,vSolutions) ↔
      ∃ m keys, IsMultiSigScript script m keys ∧
        vSolutions = [UInt8.ofNat m] :: (keys ++ [[UInt8.ofNat keys.length]])) ∧
    (∀ id, extractDestination getID fDataCarrier (getScriptForDestination (.keyID id)) =
      some (.keyID id)) ∧
    ∀ id, extractDestination getID fDataCarrier (getScriptForDestination (.scriptID id)) =
      some (.scriptID id) := by
  refine ⟨fun _ _ => solver_pubkey_iff,fun _ _ => solver_pubkeyhash_iff,
    fun _ _ => solver_scripthash_bytes,fun _ _ => solver_multisig_iff,fun id => ?_,fun id => ?_⟩
  · have hform : IsPubKeyHashScript (getScriptForDestination (.keyID id))
        (littleEndian 20 id.toNat) :=
      ⟨littleEndian_length 20 _,_,pushOf_hash id,List.append_assoc _ _ _⟩
    unfold extractDestination
    rw [solver_pubkeyhash_iff.mpr ⟨_,hform,rfl⟩]
    simp only [List.headD_cons,uint160_littleEndian]
  · have hlen := littleEndian_length 20 id.toNat
    have hpush : pushData (littleEndian 20 id.toNat) = 0x14 :: littleEndian 20 id.toNat := by
      unfold pushData
      rw [if_pos (by rw [hlen]; decide),hlen]
      rfl
    have hform : IsScriptHashScript (getScriptForDestination (.scriptID id))
        (littleEndian 20 id.toNat) := by
      refine ⟨hlen,?_⟩
      show [OP_HASH160] ++ pushData (littleEndian 20 id.toNat) ++ [OP_EQUAL] = _
      rw [hpush]
      rfl
    unfold extractDestination
    rw [solver_scripthash_bytes.mpr ⟨_,hform,rfl⟩]
    simp only [List.headD_cons,uint160_littleEndian]

end Anoncoin
