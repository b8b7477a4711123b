import Anoncoin.EvalScript

/-!
The two checks of the encoding of a signature (script.cpp), with every index that they use:
`IsCanonicalSignature` and `IsValidSignatureEncoding`.
-/

set_option autoImplicit false

namespace Anoncoin

/-- `if (p) return false;` -/
def rejectIf (p : Bool) (rest : Option Bool) : Option Bool := if p then some false else rest

/-- `sig[i]`; there is no result when the index lies outside. -/
def readAt (sig : Valtype) (i : Nat) (rest : UInt8 → Option Bool) : Option Bool :=
  (sig[i]?).bind rest

/-- `nLen > 1 && X[0] == 0x00 && !(X[1] & 0x80)` for the number at an index. -/
def isPadded (sig : Valtype) (nLen i : Nat) : Option Bool :=
  if 1 < nLen then
    readAt sig i fun x0 =>
      if x0 = 0 then readAt sig (i+1) fun x1 => some (x1 &&& 0x80 == 0) else some false
  else some false

namespace SigBytes

def isValidSignatureEncoding (sig : Valtype) : Option Bool :=
  rejectIf (decide (sig.length < 9)) <|
  rejectIf (decide (73 < sig.length)) <|
  readAt sig 0 fun compound =>
  rejectIf (compound != 0x30) <|
  readAt sig 1 fun total =>
  rejectIf (total.toNat != sig.length-3) <|
  readAt sig 3 fun lenR =>
  rejectIf (decide (sig.length ≤ 5+lenR.toNat)) <|
  readAt sig (5+lenR.toNat) fun lenS =>
  rejectIf (lenR.toNat+lenS.toNat+7 != sig.length) <|
  readAt sig 2 fun typeR =>
  rejectIf (typeR != 0x02) <|
  rejectIf (lenR.toNat == 0) <|
  readAt sig 4 fun r =>
  rejectIf (r &&& 0x80 != 0) <|
  (isPadded sig lenR.toNat 4).bind fun padded =>
  rejectIf padded <|
  readAt sig (lenR.toNat+4) fun typeS =>
  rejectIf (typeS != 0x02) <|
  rejectIf (lenS.toNat == 0) <|
  readAt sig (lenR.toNat+6) fun s =>
  rejectIf (s &&& 0x80 != 0) <|
  (isPadded sig lenS.toNat (lenR.toNat+6)).bind fun padded =>
  rejectIf padded <|
  some true

/-- The byte without SIGHASH_ANYONECANPAY is below SIGHASH_ALL or above SIGHASH_SINGLE. -/
def unknownHashType (last : UInt8) : Bool :=
  let nHashType := last &&& 0x7f
  decide (nHashType < 1) || decide (3 < nHashType)

def isDefinedHashtypeSignature (vchSig : Valtype) : Option Bool :=
  rejectIf (vchSig.length == 0) <|
  readAt vchSig (vchSig.length-1) fun last =>
  rejectIf (unknownHashType last) <|
  some true

/-- `R` and `S` are pointers into the signature. -/
def isCanonicalSignature (vchSig : Valtype) (flags : Nat) : Option Bool :=
  if flags &&& SCRIPT_VERIFY_STRICTENC = 0 then some true
  else
    rejectIf (decide (vchSig.length < 9)) <|
    rejectIf (decide (73 < vchSig.length)) <|
    readAt vchSig (vchSig.length-1) fun last =>
    rejectIf (unknownHashType last) <|
    readAt vchSig 0 fun compound =>
    rejectIf (compound != 0x30) <|
    readAt vchSig 1 fun total =>
    rejectIf (total.toNat != vchSig.length-3) <|
    readAt vchSig 3 fun nLenR =>
    rejectIf (decide (vchSig.length ≤ 5+nLenR.toNat)) <|
    readAt vchSig (5+nLenR.toNat) fun nLenS =>
    rejectIf (nLenR.toNat+nLenS.toNat+7 != vchSig.length) <|
    let R := 4
    readAt vchSig R fun _ =>
    readAt vchSig (R-2) fun typeR =>
    rejectIf (typeR != 0x02) <|
    rejectIf (nLenR.toNat == 0) <|
    readAt vchSig R fun r =>
    rejectIf (r &&& 0x80 != 0) <|
    (isPadded vchSig nLenR.toNat R).bind fun padded =>
    rejectIf padded <|
    let S := 6+nLenR.toNat
    readAt vchSig S fun _ =>
    readAt vchSig (S-2) fun typeS =>
    rejectIf (typeS != 0x02) <|
    rejectIf (nLenS.toNat == 0) <|
    readAt vchSig S fun s =>
    rejectIf (s &&& 0x80 != 0) <|
    (isPadded vchSig nLenS.toNat S).bind fun padded =>
    rejectIf padded <|
    if flags &&& SCRIPT_VERIFY_DERSIG ≠ 0 then
      readAt vchSig (S+nLenS.toNat-1) fun last =>
      rejectIf (last &&& 1 != 0) <|
      some true
    else some true

end SigBytes

section Decides
variable {sig : Valtype} {k : Option Bool} {q : Prop} {i nLen : Nat}

/-- No index lies outside, and the answer is this. -/
def Decides (k : Option Bool) (q : Prop) : Prop := ∃ b, k = some b ∧ (b = true ↔ q)

theorem decides_true : Decides (some true) True := ⟨true,rfl,by simp⟩

theorem decides_rejectIf {p : Bool} (h : p = false → Decides k q) :
    Decides (rejectIf p k) (p = false ∧ q) := by
  cases p with
  | true => exact ⟨false,rfl,by simp⟩
  | false =>
    obtain ⟨b,hk,hb⟩ := h rfl
    exact ⟨b,hk,by simp [hb]⟩

theorem getElem?_of_lt (hi : i < sig.length) : sig[i]? = some (sig.getD i 0) := by
  rw [List.getD_eq_getElem?_getD,List.getElem?_eq_getElem hi,Option.getD_some]

theorem decides_read {f : UInt8 → Option Bool} (hi : i < sig.length)
    (h : Decides (f (sig.getD i 0)) q) : Decides (readAt sig i f) q := by
  unfold readAt
  rwa [getElem?_of_lt hi,Option.bind_some]

/-- The test of the padding on bytes that are there. -/
def Padded (sig : Valtype) (nLen i : Nat) : Bool :=
  decide (1 < nLen) && sig.getD i 0 == 0 && sig.getD (i+1) 0 &&& 0x80 == 0

theorem decides_padded {f : Bool → Option Bool} (hi : 1 < nLen → i+1 < sig.length)
    (h : Decides (f (Padded sig nLen i)) q) : Decides ((isPadded sig nLen i).bind f) q := by
  have hread : isPadded sig nLen i = some (Padded sig nLen i) := by
    unfold isPadded Padded readAt
    by_cases hlen : 1 < nLen
    · have hnext := hi hlen
      rw [if_pos hlen,getElem?_of_lt hnext,getElem?_of_lt (Nat.lt_of_succ_lt hnext),
        Option.bind_some]
      by_cases hzero : sig.getD i 0 = 0
      · rw [if_pos hzero,hzero]
        simp only [hlen,decide_true,beq_self_eq_true,Bool.true_and,Option.bind_some]
      · have hother : (sig.getD i 0 == 0) = false := beq_eq_false_iff_ne.mpr hzero
        rw [if_neg hzero,hother,Bool.and_false,Bool.false_and]
    · rw [if_neg hlen]
      simp [hlen]
  rwa [hread,Option.bind_some]

/-- The rules for a signature of a possible size, without the one for the hash type. -/
def DerForm (sig : Valtype) : Prop :=
  let lenR := (sig.getD 3 0).toNat
  let lenS := (sig.getD (5+lenR) 0).toNat
  (sig.getD 0 0 != 0x30) = false ∧ ((sig.getD 1 0).toNat != sig.length-3) = false ∧
    decide (sig.length ≤ 5+lenR) = false ∧ (lenR+lenS+7 != sig.length) = false ∧
    (sig.getD 2 0 != 0x02) = false ∧ (lenR == 0) = false ∧ (sig.getD 4 0 &&& 0x80 != 0) = false ∧
    Padded sig lenR 4 = false ∧ (sig.getD (lenR+4) 0 != 0x02) = false ∧ (lenS == 0) = false ∧
    (sig.getD (lenR+6) 0 &&& 0x80 != 0) = false ∧ Padded sig lenS (lenR+6) = false ∧ True

/-- The hash type is one that is defined. -/
def KnownHashType (sig : Valtype) : Prop :=
  SigBytes.unknownHashType (sig.getD (sig.length-1) 0) = false

theorem isValidSignatureEncoding_decides (sig : Valtype) :
    Decides (SigBytes.isValidSignatureEncoding sig)
      (decide (sig.length < 9) = false ∧ decide (73 < sig.length) = false ∧ DerForm sig) := by
  refine decides_rejectIf fun hshort => decides_rejectIf fun _ => ?_
  have hlong := of_decide_eq_false hshort
  refine decides_read (by omega) (decides_rejectIf fun _ => ?_)
  refine decides_read (by omega) (decides_rejectIf fun _ => ?_)
  refine decides_read (by omega) (decides_rejectIf fun hR => ?_)
  have hlenR := of_decide_eq_false hR
  refine decides_read (by omega) (decides_rejectIf fun hsum => ?_)
  have hsize := bne_eq_false_iff_eq.mp hsum
  refine decides_read (by omega) (decides_rejectIf fun _ => decides_rejectIf fun _ => ?_)
  refine decides_read (by omega) (decides_rejectIf fun _ => ?_)
  refine decides_padded (by omega) (decides_rejectIf fun _ => ?_)
  refine decides_read (by omega) (decides_rejectIf fun _ => decides_rejectIf fun hS => ?_)
  have hlenS := beq_eq_false_iff_ne.mp hS
  refine decides_read (by omega) (decides_rejectIf fun _ => ?_)
  exact decides_padded (by omega) (decides_rejectIf fun _ => decides_true)

theorem isDefinedHashtypeSignature_decides (sig : Valtype) :
    Decides (SigBytes.isDefinedHashtypeSignature sig)
      ((sig.length == 0) = false ∧ KnownHashType sig ∧ True) := by
  refine decides_rejectIf fun hempty => ?_
  have hlen := beq_eq_false_iff_ne.mp hempty
  exact decides_read (by omega) (decides_rejectIf fun _ => decides_true)

theorem isCanonicalSignature_decides (sig : Valtype) :
    Decides (SigBytes.isCanonicalSignature sig SCRIPT_VERIFY_STRICTENC)
      (decide (sig.length < 9) = false ∧ decide (73 < sig.length) = false ∧ KnownHashType sig ∧
        DerForm sig) := by
  unfold SigBytes.isCanonicalSignature
  rw [if_neg (by decide)]
  refine decides_rejectIf fun hshort => decides_rejectIf fun _ => ?_
  have hlong := of_decide_eq_false hshort
  refine decides_read (by omega) (decides_rejectIf fun _ => ?_)
  refine decides_read (by omega) (decides_rejectIf fun _ => ?_)
  refine decides_read (by omega) (decides_rejectIf fun _ => ?_)
  refine decides_read (by omega) (decides_rejectIf fun hR => ?_)
  have hlenR := of_decide_eq_false hR
  refine decides_read (by omega) (decides_rejectIf fun hsum => ?_)
  have hsize := bne_eq_false_iff_eq.mp hsum
  dsimp only
  refine decides_read (by omega) (decides_read (by omega) ?_)
  refine decides_rejectIf fun _ => decides_rejectIf fun _ => ?_
  refine decides_read (by omega) (decides_rejectIf fun _ => ?_)
  refine decides_padded (by omega) (decides_rejectIf fun _ => ?_)
  have htype : 6+(sig.getD 3 0).toNat-2 = (sig.getD 3 0).toNat+4 := by omega
  rw [Nat.add_comm 6] at htype ⊢
  rw [htype]
  refine decides_read (by omega) (decides_read (by omega) ?_)
  refine decides_rejectIf fun _ => decides_rejectIf fun hS => ?_
  have hlenS := beq_eq_false_iff_ne.mp hS
  refine decides_read (by omega) (decides_rejectIf fun _ => ?_)
  refine decides_padded (by omega) (decides_rejectIf fun _ => ?_)
  rw [if_neg (by decide)]
  exact decides_true

/-- What is decided to be equivalent to an answer is that answer. -/
theorem Decides.eq_some {b : Bool} (h : Decides k q) (hb : b = true ↔ q) : k = some b := by
  obtain ⟨b',hk,hb'⟩ := h
  rw [hk,Bool.eq_iff_iff.mpr (hb'.trans hb.symm)]

/-- The interpreter's checks are these, read by read. -/
theorem isValidSignatureEncoding_eq (sig : Valtype) :
    SigBytes.isValidSignatureEncoding sig = some (ScriptEnv.isValidSignatureEncoding sig) := by
  refine (isValidSignatureEncoding_decides sig).eq_some ?_
  unfold ScriptEnv.isValidSignatureEncoding DerForm Padded
  simp only [Bool.and_eq_true,decide_eq_true_eq,decide_eq_false_iff_not,bne_eq_false_iff_eq,
    beq_iff_eq,bne_iff_ne,beq_eq_false_iff_ne,Bool.not_eq_true',Nat.not_lt,Nat.not_le,and_true,
    and_assoc]

theorem isDefinedHashtypeSignature_eq (sig : Valtype) :
    SigBytes.isDefinedHashtypeSignature sig = some (ScriptEnv.isDefinedHashtypeSignature sig) := by
  refine (isDefinedHashtypeSignature_decides sig).eq_some ?_
  unfold ScriptEnv.isDefinedHashtypeSignature KnownHashType SigBytes.unknownHashType
  cases sig using List.reverseRecOn with
  | nil => simp
  | append_singleton sig last =>
    have hone : UInt8.toNat 1 = 1 := rfl
    have hzero : UInt8.toNat 0 = 0 := rfl
    have hpos : 1 ≤ last &&& 0x7f ↔ ¬last &&& 0x7f = 0 := by
      rw [UInt8.le_iff_toNat_le,← UInt8.toNat_inj]
      omega
    simp [hpos]

end Decides

/-- Both checkers stay inside the signature, and the older one accepts what the newer one and
the test of the hash type accept. -/
theorem isCanonicalSignature_agrees (sig : Valtype) :
    ∃ canonical valid defined,
      SigBytes.isCanonicalSignature sig SCRIPT_VERIFY_STRICTENC = some canonical ∧
      SigBytes.isValidSignatureEncoding sig = some valid ∧
      SigBytes.isDefinedHashtypeSignature sig = some defined ∧
      (canonical = true ↔ valid = true ∧ defined = true) := by
  obtain ⟨canonical,hcanonical,hc⟩ := isCanonicalSignature_decides sig
  obtain ⟨valid,hvalid,hv⟩ := isValidSignatureEncoding_decides sig
  obtain ⟨defined,hdefined,hd⟩ := isDefinedHashtypeSignature_decides sig
  refine ⟨canonical,valid,defined,hcanonical,hvalid,hdefined,?_⟩
  rw [hc,hv,hd]
  constructor
  · rintro ⟨hshort,hlong,hhash,hform⟩
    have hlen := of_decide_eq_false hshort
    exact ⟨⟨hshort,hlong,hform⟩,beq_eq_false_iff_ne.mpr (by omega),hhash,trivial⟩
  · rintro ⟨⟨hshort,hlong,hform⟩,-,hhash,-⟩
    exact ⟨hshort,hlong,hhash,hform⟩

end Anoncoin
