import Anoncoin.Coins
import Anoncoin.Compressor
import Anoncoin.Lib.Bits

/-!
The form in which the coin records of coins.h are stored: the flags and the number of mask
bytes in one code, the mask of the outputs that are left, and these in their compact form.
-/

set_option autoImplicit false

namespace Anoncoin
open Lib

/-- `WriteVarInt` for `int`: of a negative number only the lowest digit is written. -/
def writeVarIntSigned (n : Int) : List UInt8 :=
  if n < 0 then [UInt8.ofNat (n%128).toNat] else writeVarInt n.toNat

def getSizeOfVarIntSigned (n : Int) : Nat := if n < 0 then 1 else getSizeOfVarInt n.toNat

namespace CCoins

/-- Whether an output of the byte `b` of the mask is left. -/
def byteUsed (c : CCoins) (b : Nat) : Bool := (List.range 8).any fun i => c.isAvailable (2+b*8+i)

/-- `CalcMaskSize`: the bytes up to the last one in use, and the bytes in use. -/
def calcMaskSize (c : CCoins) : Nat × Nat :=
  (List.range ((c.vout.length+5)/8)).foldl (fun (nBytes,nNonzeroBytes) b =>
    if c.byteUsed b then (b+1,nNonzeroBytes+1) else (nBytes,nNonzeroBytes)) (0,0)

def maskByte (c : CCoins) (b : Nat) : UInt8 := byteOf fun i => c.isAvailable (2+b*8+i)

/-- The code in front of the mask, or `none` when the assertion before it fails. -/
def headerCode (c : CCoins) : Option Nat :=
  let nMaskCode := c.calcMaskSize.2
  let fFirst := c.isAvailable 0
  let fSecond := c.isAvailable 1
  if fFirst || fSecond || nMaskCode != 0 then
    some ((8*(nMaskCode-(if fFirst || fSecond then 0 else 1))+(if c.fCoinBase then 1 else 0)+
      (if fFirst then 2 else 0)+(if fSecond then 4 else 0))%2^32)
  else none

/-- What is written of the outputs: those that are left. -/
def serializeOuts (keys : PubKeys) (vout : List CTxOut) : List UInt8 :=
  vout.flatMap fun o => if o.isNull then [] else CTxOutCompressor.serialize keys o

def serialize (keys : PubKeys) (c : CCoins) : Option (List UInt8) :=
  c.headerCode.map fun nCode =>
    writeVarIntSigned c.nVersion ++ (writeVarInt nCode ++
      ((List.range c.calcMaskSize.1).map c.maskByte ++
        (serializeOuts keys c.vout ++ writeVarInt c.nHeight)))

def getSerializeSize (keys : PubKeys) (c : CCoins) : Option Nat :=
  c.headerCode.map fun nCode =>
    (getSizeOfVarIntSigned c.nVersion+getSizeOfVarInt nCode+c.calcMaskSize.1+
      (c.vout.map fun o => if o.isNull then 0 else CTxOutCompressor.getSerializeSize keys o).sum+
      getSizeOfVarInt c.nHeight)%2^32

/-- The loop over the mask, which ends after a number of bytes that are not zero. -/
def maskFrom : Nat → List UInt8 → Option (List Bool × List UInt8)
  | 0, input => some ([],input)
  | _+1, [] => none
  | nMaskCode+1, chAvail :: input =>
      (maskFrom (if chAvail ≠ 0 then nMaskCode else nMaskCode+1) input).map fun (vAvail,rest) =>
        (bitsOf chAvail ++ vAvail,rest)

def readMask (nMaskCode : Nat) : Reader ReadFailure (List Bool) := fun s =>
  match maskFrom nMaskCode s.input with
  | none => .error .endOfData s
  | some (vAvail,rest) => .ok vAvail { s with input := rest }

/-- The loop over the outputs; those that are not there stay null. -/
def readOuts (keys : PubKeys) : List Bool → Reader ReadFailure (List CTxOut)
  | [] => pure []
  | false :: vAvail => do
      let rest ← readOuts keys vAvail
      pure (.null :: rest)
  | true :: vAvail => do
      let o ← CTxOutCompressor.unserialize keys .null
      let rest ← readOuts keys vAvail
      pure (o :: rest)

def unserialize (keys : PubKeys) : Reader ReadFailure CCoins := do
  let nVersion ← readVarInt 32
  let nCode ← readVarInt 32
  let fFirst := nCode.testBit 1
  let fSecond := nCode.testBit 2
  let vAvail ← readMask (nCode/8+(if fFirst || fSecond then 0 else 1))
  let vout ← readOuts keys (fFirst :: fSecond :: vAvail)
  let nHeight ← readVarInt 32
  pure (cleanup ⟨nCode.testBit 0,vout,nHeight,(nVersion : Int).bmod (2^32)⟩)

section Mask
variable (c : CCoins)

theorem maskByte_ne_zero (b : Nat) : decide (c.maskByte b ≠ 0) = c.byteUsed b :=
  byteOf_ne_zero fun i => c.isAvailable (2+b*8+i)

theorem maskFrom_append {l rest : List UInt8} (h : l.getLast? ≠ some 0) :
    maskFrom (l.countP fun ch => decide (ch ≠ 0)) (l ++ rest) = some (l.flatMap bitsOf,rest) := by
  induction l with
  | nil => simp [maskFrom]
  | cons ch l ih =>
    have htail : l.getLast? ≠ some 0 := by
      cases l with
      | nil => simp
      | cons b l => simpa using h
    have hrest := ih htail
    by_cases hch : ch = 0
    · have hpos : 0 < l.countP fun ch => decide (ch ≠ 0) := by
        cases l with
        | nil => simp [hch] at h
        | cons b l =>
          rw [List.countP_pos_iff]
          obtain ⟨last,hlast⟩ : ∃ last, (b :: l).getLast? = some last :=
            Option.isSome_iff_exists.mp (by simp)
          refine ⟨last,List.mem_of_getLast? hlast,?_⟩
          rw [hlast] at htail
          simpa using htail
      rw [List.countP_cons_of_neg (by simp [hch]),List.cons_append]
      obtain ⟨n,hn⟩ := Nat.exists_eq_succ_of_ne_zero hpos.ne'
      rw [hn] at hrest ⊢
      simp only [maskFrom,hch,ne_eq,not_true_eq_false,if_false]
      rw [hrest]
      rfl
    · rw [List.countP_cons_of_pos (by simp [hch]),List.cons_append]
      simp only [maskFrom,hch,ne_eq,not_false_eq_true,if_true]
      rw [hrest]
      rfl

theorem countP_range_of_unused {p : Nat → Bool} {m k : Nat} (hle : m ≤ k)
    (h : ∀ b, m ≤ b → b < k → p b = false) : (List.range k).countP p = (List.range m).countP p := by
  induction hle with
  | refl => rfl
  | @step k hle ih =>
    have hle : m ≤ k := hle
    rw [List.range_succ,List.countP_append,ih fun b hb hk => h b hb (by omega)]
    simp [h k hle (by omega)]

/-- The bytes up to the last one in use, and how many of them are in use. -/
theorem calcMaskSize_spec : ∃ m z, c.calcMaskSize = (m,z) ∧
    m ≤ (c.vout.length+5)/8 ∧ z = (List.range m).countP c.byteUsed ∧
    (m = 0 ∨ c.byteUsed (m-1) = true) ∧
    ∀ b, m ≤ b → b < (c.vout.length+5)/8 → c.byteUsed b = false := by
  unfold calcMaskSize
  induction (c.vout.length+5)/8 with
  | zero => exact ⟨0,0,rfl,Nat.le_refl _,rfl,.inl rfl,fun b _ hb => absurd hb (Nat.not_lt_zero b)⟩
  | succ k ih =>
    obtain ⟨m,z,heq,hle,hz,hlast,hunused⟩ := ih
    rw [List.range_succ,List.foldl_append,heq]
    simp only [List.foldl_cons,List.foldl_nil]
    cases hused : c.byteUsed k with
    | true =>
      refine ⟨k+1,z+1,rfl,Nat.le_refl _,?_,.inr hused,fun b hb hb' => by omega⟩
      rw [List.range_succ,List.countP_append,countP_range_of_unused hle hunused,hz]
      simp [hused]
    | false =>
      refine ⟨m,z,rfl,by omega,hz,hlast,fun b hb hb' => ?_⟩
      by_cases hbk : b = k
      · rw [hbk,hused]
      · exact hunused b hb (by omega)

/-- The mask that is written is read back as the outputs after the second. -/
theorem reads_readMask : Reads (readMask c.calcMaskSize.2)
    ((List.range c.calcMaskSize.1).map c.maskByte)
    ((List.range (8*c.calcMaskSize.1)).map fun i => c.isAvailable (2+i)) := by
  obtain ⟨m,z,heq,-,hz,hlast,-⟩ := c.calcMaskSize_spec
  rw [heq]
  simp only
  have hcount : z = ((List.range m).map c.maskByte).countP fun ch => decide (ch ≠ 0) := by
    rw [List.countP_map,hz]
    exact List.countP_congr fun b _ => by
      simp only [Function.comp_apply,maskByte_ne_zero]
  have hend : ((List.range m).map c.maskByte).getLast? ≠ some 0 := by
    cases m with
    | zero => simp
    | succ m =>
      rcases hlast with hm | hused
      · contradiction
      · rw [List.range_succ,List.map_append,List.map_singleton,List.getLast?_concat]
        have hne := c.maskByte_ne_zero m
        rw [Nat.add_sub_cancel] at hused
        rw [hused] at hne
        simpa using hne
  have hbits : ((List.range m).map c.maskByte).flatMap bitsOf =
      (List.range (8*m)).map fun i => c.isAvailable (2+i) := by
    have h := flatMap_bitsOf (fun i => c.isAvailable (2+i)) m
    simp only [← Nat.add_assoc] at h
    exact h
  intro s rest hs
  refine ⟨{ s with input := rest },?_,rfl⟩
  unfold readMask
  rw [hs,hcount,maskFrom_append hend,hbits]

end Mask

section Outs
variable {keys : PubKeys}

theorem reads_readOuts {l : List CTxOut} (hnull : ∀ o ∈ l, o.isNull = true → o = .null)
    (hread : ∀ o ∈ l, o.isNull = false →
      Reads (CTxOutCompressor.unserialize keys .null) (CTxOutCompressor.serialize keys o) o) :
    Reads (readOuts keys (l.map fun o => !o.isNull)) (serializeOuts keys l) l := by
  induction l with
  | nil => exact Reads.pure []
  | cons o l ih =>
    have hl := ih (fun a ha => hnull a (by simp [ha])) fun a ha => hread a (by simp [ha])
    unfold serializeOuts at hl ⊢
    rw [List.map_cons,List.flatMap_cons]
    cases ho : o.isNull with
    | true =>
      rw [hnull o (by simp) ho]
      exact hl.map (Reads.pure _)
    | false => exact (hread o (by simp) ho).bind (hl.map (Reads.pure _))

theorem serializeOuts_pad (n : Nat) (l : List CTxOut) :
    serializeOuts keys (pad .null n l) = serializeOuts keys l := by
  have hnull : ∀ k, serializeOuts keys (List.replicate k .null) = [] := by
    intro k
    unfold serializeOuts
    exact List.flatMap_eq_nil_iff.mpr fun o ho => by rw [List.eq_of_mem_replicate ho]; rfl
  unfold pad
  unfold serializeOuts at hnull ⊢
  rw [List.flatMap_append,hnull,List.append_nil]

theorem rdropWhile_pad (n : Nat) (l : List CTxOut) :
    (pad .null n l).rdropWhile CTxOut.isNull = l.rdropWhile CTxOut.isNull := by
  unfold pad
  induction n-l.length with
  | zero => simp
  | succ k ih =>
    rw [List.replicate_succ',← List.append_assoc,List.rdropWhile_concat_pos _ _ _ rfl,ih]

theorem isAvailable_pad (c : CCoins) {n : Nat} (h : c.vout.length ≤ n) :
    (List.range n).map c.isAvailable = (pad .null n c.vout).map fun o => !o.isNull := by
  apply List.ext_getElem?
  intro i
  rw [List.getElem?_map,List.getElem?_map]
  by_cases hi : i < n
  · rw [List.getElem?_range hi,Option.map_some]
    unfold isAvailable
    by_cases hl : i < c.vout.length
    · have hpad : (pad .null n c.vout)[i]? = c.vout[i]? := by
        unfold pad
        rw [List.getElem?_append_left hl]
      rw [hpad,List.getElem?_eq_getElem hl]
      rfl
    · rw [pad_getElem?_right _ _ _ _ (by omega) hi,List.getElem?_eq_none (by omega)]
      rfl
  · have hlen : (pad CTxOut.null n c.vout).length ≤ i := by
      rw [pad_length]
      omega
    rw [List.getElem?_eq_none hlen,List.getElem?_eq_none (by simp; omega)]
    rfl

end Outs

/-- The last output of a record in order is left, so that the mask covers all of them. -/
theorem length_le_mask {c : CCoins} (h : c.Canonical) : c.vout.length ≤ 2+8*c.calcMaskSize.1 := by
  obtain ⟨m,z,heq,-,-,-,hunused⟩ := c.calcMaskSize_spec
  rw [heq]
  simp only
  by_contra hgt
  have hb := hunused ((c.vout.length-3)/8) (by omega) (by omega)
  have hne : c.vout ≠ [] := by
    intro hnil
    rw [hnil] at hgt
    simp at hgt
  have hlast := List.rdropWhile_eq_self_iff.mp (congrArg CCoins.vout h.clean) hne
  unfold byteUsed at hb
  rw [List.any_eq_false] at hb
  refine hb ((c.vout.length-3)%8) (List.mem_range.mpr (by omega)) ?_
  rw [show 2+(c.vout.length-3)/8*8+(c.vout.length-3)%8 = c.vout.length-1 by omega]
  unfold isAvailable
  rw [← List.getLast?_eq_getElem?,List.getLast?_eq_some_getLast hne]
  simpa using hlast

/-- What a record needs to be stored: it is cleaned up and not fully spent, its version and
height are not negative, its values are in range, and its outputs fit into a message. -/
structure Storable (c : CCoins) : Prop where
  canonical : c.Canonical
  unspent : c.isPruned = false
  version : 0 ≤ c.nVersion ∧ c.nVersion < 2^31
  height : c.nHeight < 2^30
  money : ∀ o ∈ c.vout, o.isNull = false → moneyRange o.nValue = true
  size : (c.vout.map CTxOut.getSerializeSize).sum ≤ MAX_SIZE

section Code
variable {c : CCoins}

theorem Storable.length_le (h : c.Storable) :
    9*c.vout.length+(c.vout.map fun o => o.scriptPubKey.length).sum ≤ MAX_SIZE := by
  refine Nat.le_trans ?_ h.size
  induction c.vout with
  | nil => rfl
  | cons o l ih =>
    have hpos := getSizeOfCompactSize_pos o.scriptPubKey.length
    have ho : o.getSerializeSize = 8+(getSizeOfCompactSize o.scriptPubKey.length+
      o.scriptPubKey.length) := rfl
    simp only [List.length_cons,List.map_cons,List.sum_cons]
    omega

theorem Storable.script_le (h : c.Storable) {o : CTxOut} (ho : o ∈ c.vout) :
    o.scriptPubKey.length ≤ MAX_SIZE := by
  have hle := List.single_le_sum (fun _ _ => Nat.zero_le _) _
    (List.mem_map_of_mem (f := fun o : CTxOut => o.scriptPubKey.length) ho)
  have := h.length_le
  omega

/-- The code of a record that is not fully spent, with the flags in its lowest bits. -/
theorem Storable.headerCode (h : c.Storable) : ∃ nCode, c.headerCode = some nCode ∧
    nCode < 2^32 ∧ nCode.testBit 0 = c.fCoinBase ∧ nCode.testBit 1 = c.isAvailable 0 ∧
    nCode.testBit 2 = c.isAvailable 1 ∧
    nCode/8+(if c.isAvailable 0 || c.isAvailable 1 then 0 else 1) = c.calcMaskSize.2 := by
  obtain ⟨m,z,heq,hm,hz,-,-⟩ := c.calcMaskSize_spec
  have hlen := h.length_le
  have hmax : MAX_SIZE = 33554432 := rfl
  have hzm : z ≤ m := by
    rw [hz]
    exact List.countP_le_length.trans (by simp)
  have hsome : c.isAvailable 0 = false → c.isAvailable 1 = false → z ≠ 0 := by
    intro h₀ h₁ hz0
    obtain ⟨i,hi⟩ : ∃ i, c.isAvailable i = true := by
      have hp := h.unspent
      unfold isPruned at hp
      rw [List.all_eq_false] at hp
      obtain ⟨o,ho,hnull⟩ := hp
      obtain ⟨i,hi,rfl⟩ := List.mem_iff_getElem.mp ho
      refine ⟨i,?_⟩
      unfold isAvailable
      rw [List.getElem?_eq_getElem hi]
      simpa using hnull
    have hi2 : 2 ≤ i := by
      by_contra hlt
      interval_cases i
      · rw [h₀] at hi
        contradiction
      · rw [h₁] at hi
        contradiction
    have hil : i < 2+8*m := by
      have hle := length_le_mask h.canonical
      rw [heq] at hle
      have hil : i < c.vout.length := by
        by_contra hge
        unfold isAvailable at hi
        rw [List.getElem?_eq_none (by omega)] at hi
        contradiction
      simp only at hle
      omega
    have hused : c.byteUsed ((i-2)/8) = true := by
      unfold byteUsed
      rw [List.any_eq_true]
      refine ⟨(i-2)%8,List.mem_range.mpr (by omega),?_⟩
      rw [show 2+(i-2)/8*8+(i-2)%8 = i by omega]
      exact hi
    have hpos : 0 < (List.range m).countP c.byteUsed :=
      List.countP_pos_iff.mpr ⟨(i-2)/8,List.mem_range.mpr (by omega),hused⟩
    omega
  unfold CCoins.headerCode
  rw [heq]
  simp only [Nat.testBit_eq_decide_div_mod_eq]
  cases h₀ : c.isAvailable 0 <;> cases h₁ : c.isAvailable 1 <;> cases c.fCoinBase
  all_goals
    simp only [Bool.or_self,Bool.or_true,Bool.true_or,Bool.false_or,bne_iff_ne,ne_eq,if_true,
      if_false,Bool.false_eq_true]
  all_goals first
    | rw [if_pos (hsome h₀ h₁)]
      have := hsome h₀ h₁
      refine ⟨_,rfl,?_⟩
      rw [Nat.mod_eq_of_lt (by omega)]
      simp only [decide_eq_true_eq,decide_eq_false_iff_not,pow_zero,pow_one]
      omega
    | refine ⟨_,rfl,?_⟩
      rw [Nat.mod_eq_of_lt (by omega)]
      simp only [decide_eq_true_eq,decide_eq_false_iff_not,pow_zero,pow_one]
      omega

end Code

section Record
variable {keys : PubKeys} {c : CCoins}

theorem reads_version (h : c.Storable) :
    Reads (readVarInt 32) (writeVarIntSigned c.nVersion) c.nVersion.toNat := by
  obtain ⟨hlo,hhi⟩ := h.version
  unfold writeVarIntSigned
  rw [if_neg (by omega)]
  exact reads_readVarInt (by omega)

theorem reads_unserialize_outs (hkeys : keys.Inverse) (h : c.Storable) (n : Nat) :
    Reads (readOuts keys ((pad .null n c.vout).map fun o => !o.isNull)) (serializeOuts keys c.vout)
      (pad .null n c.vout) := by
  have hmem : ∀ o ∈ pad .null n c.vout, o ∈ c.vout ∨ o = CTxOut.null := by
    intro o ho
    rcases List.mem_append.mp ho with ho | ho
    · exact .inl ho
    · exact .inr (List.eq_of_mem_replicate ho)
  have hmax : MAX_SIZE = 33554432 := rfl
  have hspecial : CScriptCompressor.nSpecialScripts = 6 := rfl
  rw [← serializeOuts_pad n c.vout]
  refine reads_readOuts ?_ ?_
  · intro o ho hnull
    rcases hmem o ho with ho | ho
    · exact h.canonical.null o ho hnull
    · exact ho
  · intro o ho hnull
    rcases hmem o ho with ho | rfl
    · have hlen := h.script_le ho
      exact CTxOutCompressor.reads_unserialize hkeys (h.money o ho hnull) (by omega) _
    · contradiction

theorem unserialize_cleanup (h : c.Storable) (n : Nat) :
    cleanup ⟨c.fCoinBase,pad .null n c.vout,c.nHeight,(c.nVersion.toNat : Int).bmod (2^32)⟩ = c := by
  obtain ⟨hlo,hhi⟩ := h.version
  have hversion : (c.nVersion.toNat : Int).bmod (2^32) = c.nVersion := by
    rw [Int.toNat_of_nonneg hlo]
    apply Int.bmod_eq_of_le_mul_two
    · omega
    · omega
  have hclean : c.vout.rdropWhile CTxOut.isNull = c.vout := congrArg CCoins.vout h.canonical.clean
  unfold cleanup
  simp only [rdropWhile_pad,hclean,hversion]

theorem length_serializeOuts (l : List CTxOut) : (serializeOuts keys l).length =
    (l.map fun o => if o.isNull then 0 else CTxOutCompressor.getSerializeSize keys o).sum := by
  unfold serializeOuts
  rw [List.length_flatMap]
  congr 1
  refine List.map_congr_left fun o _ => ?_
  split <;> rfl

theorem length_serializeOuts_le (hkeys : keys.Inverse) (l : List CTxOut) :
    (serializeOuts keys l).length ≤ 43*l.length+(l.map fun o => o.scriptPubKey.length).sum := by
  rw [length_serializeOuts]
  induction l with
  | nil => rfl
  | cons o l ih =>
    have ho := CTxOutCompressor.getSerializeSize_le hkeys o
    simp only [List.map_cons,List.sum_cons,List.length_cons]
    split <;> omega

end Record

end CCoins

/-- A record that can be stored is written, and read back from what was written, which has
the size that `GetSerializeSize` gives. -/
theorem coins_codec {keys : PubKeys} (hkeys : keys.Inverse) {c : CCoins} (h : c.Storable) :
    ∃ bytes, c.serialize keys = some bytes ∧ Reads (CCoins.unserialize keys) bytes c ∧
      c.getSerializeSize keys = some bytes.length := by
  obtain ⟨nCode,hcode,hlt,hbase,hfirst,hsecond,hmask⟩ := h.headerCode
  have hheight := h.height
  have hmaskRead := c.reads_readMask
  have houts := CCoins.reads_unserialize_outs hkeys h (2+8*c.calcMaskSize.1)
  have havail : c.isAvailable 0 :: c.isAvailable 1 ::
      (List.range (8*c.calcMaskSize.1)).map (fun i => c.isAvailable (2+i)) =
      (pad .null (2+8*c.calcMaskSize.1) c.vout).map fun o => !o.isNull := by
    rw [← c.isAvailable_pad (CCoins.length_le_mask h.canonical),List.range_add,List.map_append,
      List.map_map]
    rfl
  refine ⟨_,by rw [CCoins.serialize,hcode]; rfl,?_,?_⟩
  · refine (CCoins.reads_version h).bind ((reads_readVarInt hlt).bind ?_)
    simp only [hfirst,hsecond,hmask]
    refine hmaskRead.bind ?_
    rw [havail]
    refine houts.bind ((reads_readVarInt (by omega)).map ?_)
    rw [hbase,CCoins.unserialize_cleanup h]
    exact Reads.pure c
  · have hversion : getSizeOfVarIntSigned c.nVersion = (writeVarIntSigned c.nVersion).length := by
      unfold getSizeOfVarIntSigned writeVarIntSigned
      split
      · rfl
      · rw [length_writeVarInt]
    have hversionLe : getSizeOfVarIntSigned c.nVersion ≤ 4+1 := by
      obtain ⟨hlo,hhi⟩ := h.version
      unfold getSizeOfVarIntSigned
      rw [if_neg (by omega)]
      exact getSizeOfVarInt_le (by omega)
    have hcodeLe : getSizeOfVarInt nCode ≤ 4+1 := getSizeOfVarInt_le (by omega)
    have hheightLe : getSizeOfVarInt c.nHeight ≤ 4+1 := getSizeOfVarInt_le (by omega)
    have houtsLe := CCoins.length_serializeOuts_le hkeys c.vout
    have hlen := h.length_le
    have hmax : MAX_SIZE = 33554432 := rfl
    obtain ⟨m,z,heq,hm,-⟩ := c.calcMaskSize_spec
    unfold CCoins.getSerializeSize
    rw [hcode,Option.map_some,← CCoins.length_serializeOuts,heq]
    simp only [List.length_append,List.length_map,List.length_range,length_writeVarInt,← hversion]
    rw [Nat.mod_eq_of_lt (by omega)]
    congr 1
    omega

/-- The coordinates of the generator of the curve. -/
def generatorX : List UInt8 :=
  [0x79,0xbe,0x66,0x7e,0xf9,0xdc,0xbb,0xac,0x55,0xa0,0x62,0x95,0xce,0x87,0x0b,0x07,
    0x02,0x9b,0xfc,0xdb,0x2d,0xce,0x28,0xd9,0x59,0xf2,0x81,0x5b,0x16,0xf8,0x17,0x98]

def generatorY : List UInt8 :=
  [0x48,0x3a,0xda,0x77,0x26,0xa3,0xc4,0x65,0x5d,0xa4,0xfb,0xfc,0x0e,0x11,0x08,0xa8,
    0xfd,0x17,0xb4,0x48,0xa6,0x85,0x54,0x19,0x9c,0x47,0xd0,0x8f,0xfb,0x10,0xd4,0xb8]

/-- The key functions where the only key is the generator, whose second coordinate is even. -/
def generatorKeys : PubKeys where
  isFullyValid key := key == 4 :: (generatorX ++ generatorY)
  decompress key := if key = 2 :: generatorX then some (4 :: (generatorX ++ generatorY)) else none

theorem generatorKeys_inverse : generatorKeys.Inverse := by
  intro key _ _ hvalid
  have hkey : key = 4 :: (generatorX ++ generatorY) := eq_of_beq hvalid
  rw [hkey]
  decide

/-- A record with two outputs left: one to the hash of a key, and one to a key. -/
def twoKeysCoin : CCoins where
  fCoinBase := false
  vout := [.null,⟨60000000000,[OP_DUP,OP_HASH160,20] ++
      (List.replicate 20 7 ++ [OP_EQUALVERIFY,OP_CHECKSIG])⟩,.null,.null,
    ⟨110397,65 :: 4 :: (generatorX ++ (generatorY ++ [OP_CHECKSIG]))⟩]
  nHeight := 203998
  nVersion := 1

theorem twoKeysCoin_storable : twoKeysCoin.Storable where
  canonical := ⟨by decide,by decide⟩
  unspent := by decide
  version := by decide
  height := by decide
  money := by decide
  size := by decide

theorem coins_codec_twoKeys : ∃ bytes, twoKeysCoin.serialize generatorKeys = some bytes ∧
    Reads (CCoins.unserialize generatorKeys) bytes twoKeysCoin ∧
    twoKeysCoin.getSerializeSize generatorKeys = some bytes.length :=
  coins_codec generatorKeys_inverse twoKeysCoin_storable

end Anoncoin
