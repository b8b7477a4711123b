import Anoncoin.ScriptRuns

/-!
Two rules for the encodings of pushes (script.cpp): `CheckMinimalPush` of the interpreter and
`HasCanonicalPushes` of the relay policy.
-/

set_option autoImplicit false

namespace Anoncoin

/-- The tests of `HasCanonicalPushes` on one instruction. -/
def isCanonicalPush (op : Op) : Bool :=
  if OP_16 < op.opcode then true
  else if op.opcode < OP_PUSHDATA1 ∧ 0 < op.opcode ∧ op.data.length = 1 ∧ op.data.getD 0 0 ≤ 16 then
    false
  else if op.opcode = OP_PUSHDATA1 ∧ op.data.length < OP_PUSHDATA1.toNat then false
  else if op.opcode = OP_PUSHDATA2 ∧ op.data.length ≤ 0xff then false
  else if op.opcode = OP_PUSHDATA4 ∧ op.data.length ≤ 0xffff then false
  else true

/-- `HasCanonicalPushes`, from an instruction on. -/
def hasCanonicalPushes (pc : CScript) : Bool :=
  if pc = [] then true
  else
    match _h : getOp pc with
    | (none,_) => false
    | (some op,rest) => isCanonicalPush op && hasCanonicalPushes rest
  termination_by pc.length
  decreasing_by exact getOp_length _h

theorem hasCanonicalPushes_some {pc rest : CScript} {op : Op} (h : getOp pc = (some op,rest)) :
    hasCanonicalPushes pc = (isCanonicalPush op && hasCanonicalPushes rest) := by
  conv_lhs => unfold hasCanonicalPushes
  rw [if_neg (getOp_ne_nil h)]
  split
  · rename_i heq
    exact (getOp_not_none heq h).elim
  · rename_i heq
    obtain ⟨rfl,rfl⟩ := getOp_unique h heq
    rfl

theorem ReadsTo.hasCanonicalPushes {pc : CScript} {ops : List Op} (h : ReadsTo [] pc ops) :
    hasCanonicalPushes pc = ops.all isCanonicalPush := by
  induction h with
  | nil => simp [Anoncoin.hasCanonicalPushes]
  | cons hop _ ih => rw [hasCanonicalPushes_some hop,ih,List.all_cons]

/-- The interpreter's rule for an instruction: a push is the shortest for its data. -/
def MinimalPush (op : Op) : Prop :=
  op.opcode ≤ OP_PUSHDATA4 → checkMinimalPush op.data op.opcode = true

instance (op : Op) : Decidable (MinimalPush op) := by
  unfold MinimalPush
  infer_instance

theorem smallInteger_large {b : UInt8} (hlow : 1 ≤ b) (hhigh : b ≤ 16) :
    ¬OP_1+(b-1) ≤ OP_PUSHDATA4 := by
  have hall : ∀ b : UInt8, 1 ≤ b → b ≤ 16 → ¬OP_1+(b-1) ≤ OP_PUSHDATA4 :=
    forall_opcode (by decide +kernel)
  exact hall b hlow hhigh

/-- A minimal push of at most 75 bytes is a direct one, and not one of a small integer. -/
theorem MinimalPush.direct {op : Op} (h : MinimalPush op) (hpush : op.opcode ≤ OP_PUSHDATA4)
    (hlen : op.data.length ≤ 75) :
    op.opcode.toNat = op.data.length ∧ (op.data.length = 1 → op.data.getD 0 0 ≤ 16 →
      op.data.getD 0 0 = 0) := by
  have hmin := h hpush
  unfold checkMinimalPush at hmin
  split_ifs at hmin with hempty hsmall hnegative
  · rw [beq_iff_eq.mp hmin]
    exact ⟨hempty.symm,fun hone => absurd hone (by omega)⟩
  · rw [beq_iff_eq.mp hmin] at hpush
    exact absurd hpush (smallInteger_large hsmall.2.1 hsmall.2.2)
  · rw [beq_iff_eq.mp hmin] at hpush
    exact absurd hpush (by decide)
  · refine ⟨beq_iff_eq.mp hmin,fun hone hle => ?_⟩
    by_contra hne
    refine hsmall ⟨hone,?_,hle⟩
    rw [UInt8.le_iff_toNat_le]
    have hpos : (op.data.getD 0 0).toNat ≠ 0 := fun hzero => hne (UInt8.toNat_inj.mp hzero)
    have hone' : UInt8.toNat 1 = 1 := rfl
    omega

/-- A longer one has the shortest field for the size. -/
theorem MinimalPush.sized {op : Op} (h : MinimalPush op) (hpush : op.opcode ≤ OP_PUSHDATA4)
    (hlen : 75 < op.data.length) :
    (op.data.length ≤ 255 → op.opcode = OP_PUSHDATA1) ∧
      (255 < op.data.length → op.data.length ≤ 65535 → op.opcode = OP_PUSHDATA2) := by
  have hmin := h hpush
  unfold checkMinimalPush at hmin
  rw [if_neg (by omega),if_neg (by omega),if_neg (by omega),if_neg (by omega)] at hmin
  constructor
  · intro hbyte
    rw [if_pos hbyte] at hmin
    exact beq_iff_eq.mp hmin
  · intro hbyte htwo
    rw [if_neg (by omega),if_pos htwo] at hmin
    exact beq_iff_eq.mp hmin

theorem length_one_iff {data : Valtype} :
    data = [0] ↔ data.length = 1 ∧ data.getD 0 0 = 0 := by
  constructor
  · rintro rfl
    exact ⟨rfl,rfl⟩
  · rintro ⟨hlen,hzero⟩
    obtain ⟨b,rfl⟩ := List.length_eq_one_iff.mp hlen
    exact congrArg (fun b => [b]) hzero

theorem refused_unless {p : Prop} [Decidable p] {b : Bool} :
    (if p then false else b) = true ↔ ¬p ∧ b = true := by
  split_ifs with h <;> simp [h]

theorem isCanonicalPush_of_le {op : Op} (h : ¬OP_16 < op.opcode) :
    isCanonicalPush op = true ↔
      ¬(op.opcode < OP_PUSHDATA1 ∧ 0 < op.opcode ∧ op.data.length = 1 ∧ op.data.getD 0 0 ≤ 16) ∧
      ¬(op.opcode = OP_PUSHDATA1 ∧ op.data.length < OP_PUSHDATA1.toNat) ∧
      ¬(op.opcode = OP_PUSHDATA2 ∧ op.data.length ≤ 0xff) ∧
      ¬(op.opcode = OP_PUSHDATA4 ∧ op.data.length ≤ 0xffff) := by
  unfold isCanonicalPush
  rw [if_neg h,refused_unless,refused_unless,refused_unless,refused_unless,eq_self_iff_true,
    and_true]

/-- Of the minimal pushes only the one of a zero byte is not canonical. -/
theorem MinimalPush.isCanonicalPush_iff {op : Op} (h : MinimalPush op)
    (hpush : op.opcode ≤ OP_PUSHDATA4) : isCanonicalPush op = true ↔ op.data ≠ [0] := by
  have hone : OP_PUSHDATA1.toNat = 76 := rfl
  have hlarge : ¬OP_16 < op.opcode :=
    UInt8.not_lt.mpr (UInt8.le_trans hpush (by decide : OP_PUSHDATA4 ≤ OP_16))
  rw [isCanonicalPush_of_le hlarge,Ne,length_one_iff]
  by_cases hlen : op.data.length ≤ 75
  · obtain ⟨hdirect,hsmall⟩ := h.direct hpush hlen
    have hless : op.opcode < OP_PUSHDATA1 := UInt8.lt_iff_toNat_lt.mpr (by omega)
    have hne (opcode : UInt8) (hge : OP_PUSHDATA1 ≤ opcode) : op.opcode ≠ opcode := by
      rintro rfl
      exact absurd (UInt8.lt_of_lt_of_le hless hge) (UInt8.lt_irrefl _)
    constructor
    · rintro ⟨hinteger,-⟩ ⟨hlength,hzero⟩
      have hpos : 0 < op.opcode := UInt8.lt_iff_toNat_lt.mpr (by
        rw [hdirect,hlength]
        decide)
      exact hinteger ⟨hless,hpos,hlength,by rw [hzero]; decide⟩
    · intro hnot
      refine ⟨fun hand => hnot ⟨hand.2.2.1,hsmall hand.2.2.1 hand.2.2.2⟩,
        fun hand => hne OP_PUSHDATA1 (by decide) hand.1,
        fun hand => hne OP_PUSHDATA2 (by decide) hand.1,
        fun hand => hne OP_PUSHDATA4 (by decide) hand.1⟩
  · obtain ⟨hbyte,hshort⟩ := h.sized hpush (by omega)
    refine iff_of_true ⟨fun hand => by omega,fun hand => by omega,?_,?_⟩ (by omega)
    · rintro ⟨hopcode,hle⟩
      exact absurd (hopcode.symm.trans (hbyte hle)) (by decide)
    · rintro ⟨hopcode,hle⟩
      by_cases hone : op.data.length ≤ 255
      · exact absurd (hopcode.symm.trans (hbyte hone)) (by decide)
      · exact absurd (hopcode.symm.trans (hshort (by omega) hle)) (by decide)

/-- What pushes no data of the script is canonical. -/
theorem isCanonicalPush_of_large {op : Op} (hlarge : OP_PUSHDATA4 < op.opcode)
    (hdata : op.data = []) : isCanonicalPush op = true := by
  have hne (opcode : UInt8) (hle : opcode ≤ OP_PUSHDATA4) : op.opcode ≠ opcode := by
    rintro rfl
    exact absurd (UInt8.lt_of_lt_of_le hlarge hle) (UInt8.lt_irrefl _)
  by_cases hsixteen : OP_16 < op.opcode
  · exact if_pos hsixteen
  · refine (isCanonicalPush_of_le hsixteen).mpr ⟨fun hand => ?_,
      fun hand => hne OP_PUSHDATA1 (by decide) hand.1,
      fun hand => hne OP_PUSHDATA2 (by decide) hand.1,
      fun hand => hne OP_PUSHDATA4 (by decide) hand.1⟩
    rw [hdata] at hand
    exact absurd hand.2.2.1 (by decide)

/-- A script of minimal pushes has canonical pushes exactly when it does not push a zero byte. -/
theorem hasCanonicalPushes_iff_of_minimal {script : CScript} {ops : List Op}
    (h : ReadsTo [] script ops) (hminimal : ∀ op ∈ ops, MinimalPush op) :
    hasCanonicalPushes script = true ↔ ∀ op ∈ ops, op.data ≠ [0] := by
  rw [h.hasCanonicalPushes,List.all_eq_true]
  refine forall₂_congr fun op hop => ?_
  by_cases hpush : op.opcode ≤ OP_PUSHDATA4
  · exact (hminimal op hop).isCanonicalPush_iff hpush
  · have hlarge := UInt8.not_le.mp hpush
    have hdata := h.data_nil hop hlarge
    exact iff_of_true (isCanonicalPush_of_large hlarge hdata) (by rw [hdata]; simp)

/-- OP_16 and two bytes. -/
theorem hasCanonicalPushes_iff_of_minimal_two :
    hasCanonicalPushes [0x60,2,0,0] = true ↔
      ∀ op ∈ [(⟨0x60,[]⟩ : Op),⟨2,[0,0]⟩], op.data ≠ [0] :=
  hasCanonicalPushes_iff_of_minimal (.cons rfl (.cons rfl .nil)) (by decide)

theorem zeroByte_not_canonical :
    ReadsTo [] [1,0] [⟨1,[0]⟩] ∧ MinimalPush ⟨1,[0]⟩ ∧ hasCanonicalPushes [1,0] = false := by
  have hread : ReadsTo [] [1,0] [⟨1,[0]⟩] := .cons rfl .nil
  refine ⟨hread,by decide,?_⟩
  rw [hread.hasCanonicalPushes]
  decide

end Anoncoin
