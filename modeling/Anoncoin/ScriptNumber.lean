import Mathlib.Tactic.Ring
import Anoncoin.ScriptLimits

/-!
The codec of numbers on the stack (script.h): the constructor of `CScriptNum` from bytes,
`serialize`, and `set_vch` as it computes in 64 bits.
-/

set_option autoImplicit false

namespace Anoncoin
open Lib

namespace CScriptNum

/-- The constructor from bytes, with the texts of its exceptions. -/
def fromVch (vch : Valtype) (fRequireMinimal : Bool) : Except String Int :=
  if nMaxNumSize < vch.length then throw "script number overflow"
  else if fRequireMinimal && !isMinimal vch then throw "non-minimally encoded script number"
  else pure (setVch vch)

/-- The constructor is the one that the interpreter uses. -/
theorem scriptNum_eq (env : ScriptEnv) (vch : Valtype) :
    env.scriptNum vch =
      match fromVch vch env.fRequireMinimal with
      | .ok bn => pure bn
      | .error _ => throw .scriptnumError := by
  unfold ScriptEnv.scriptNum fromVch
  split_ifs <;> rfl

/-- The loop of `set_vch` from byte `i` on. A shift by 64 bits or more is undefined. -/
def orBytes : Nat → BitVec 64 → List UInt8 → Option (BitVec 64)
  | _, result, [] => some result
  | i, result, b :: rest =>
      if 64 ≤ 8*i then none
      else orBytes (i+1) (result ||| (BitVec.ofNat 64 b.toNat <<< (8*i))) rest

/-- `set_vch`, as it computes in `int64_t`. -/
def setVchInt64 (vch : Valtype) : Option Int :=
  match vch.getLast? with
  | none => some 0
  | some last => do
      let result ← orBytes 0 0 vch
      if last &&& 0x80 ≠ 0 then
        pure (-(result &&& ~~~(0x80#64 <<< (8*(vch.length-1)))).toInt)
      else pure result.toInt

section Bytes

/-- The sign of a byte, and its bits below the sign. -/
theorem sign_facts : ∀ b : UInt8,
    (b &&& 0x80 = 0 ↔ b.toNat < 128) ∧
    ((b &&& 0x7f).toNat = b.toNat%128 ∧ (b &&& 0x7f) &&& 0x80 = 0 ∧
      (if b &&& 0x80 ≠ 0 then (b &&& 0x7f) ||| 0x80 else b &&& 0x7f) = b) ∧
    (b &&& 0x80 = 0 → (b ||| 0x80).toNat%128 = b.toNat ∧ (b ||| 0x80) &&& 0x80 ≠ 0) ∧
    (b &&& 0x7f = 0 → (if b &&& 0x80 ≠ 0 then 0x80 else 0) = b) :=
  forall_opcode (by decide +kernel)

theorem sign_bit (b : UInt8) : b &&& 0x80 = 0 ↔ b.toNat < 128 := (sign_facts b).1

/-- The bits of a byte below the sign. -/
theorem and_low (b : UInt8) : (b &&& 0x7f).toNat = b.toNat%128 ∧ (b &&& 0x7f) &&& 0x80 = 0 ∧
    (if b &&& 0x80 ≠ 0 then (b &&& 0x7f) ||| 0x80 else b &&& 0x7f) = b := (sign_facts b).2.1

theorem or_sign (b : UInt8) (h : b &&& 0x80 = 0) :
    (b ||| 0x80).toNat%128 = b.toNat ∧ (b ||| 0x80) &&& 0x80 ≠ 0 := (sign_facts b).2.2.1 h

theorem sign_of_low_zero (b : UInt8) (h : b &&& 0x7f = 0) :
    (if b &&& 0x80 ≠ 0 then 0x80 else 0) = b := (sign_facts b).2.2.2 h

end Bytes

section Magnitude
variable {low : List UInt8} {last : UInt8} {value : Int}

theorem fromLittleEndian_append (low : List UInt8) (last : UInt8) :
    fromLittleEndian (low ++ [last]) = fromLittleEndian low+256^low.length*last.toNat := by
  induction low with
  | nil => simp [fromLittleEndian]
  | cons b low ih =>
    simp only [List.cons_append,fromLittleEndian,ih,List.length_cons,pow_succ]
    ring

theorem absBytes_zero : absBytes 0 = [] := by simp [absBytes]

theorem absBytes_pos {n : Nat} (h : n ≠ 0) :
    absBytes n = UInt8.ofNat (n%256) :: absBytes (n/256) := by
  conv_lhs => unfold absBytes
  rw [dif_neg h]

theorem fromLittleEndian_absBytes (n : Nat) : fromLittleEndian (absBytes n) = n := by
  induction n using Nat.strong_induction_on with
  | _ n ih =>
    by_cases h : n = 0
    · rw [h,absBytes_zero]
      rfl
    · rw [absBytes_pos h,fromLittleEndian,ih _ (Nat.div_lt_self (Nat.pos_of_ne_zero h) (by decide)),
        UInt8.toNat_ofNat_of_lt' (Nat.mod_lt n (by decide) : n%256 < UInt8.size)]
      omega

theorem fromLittleEndian_pos (h : last ≠ 0) : fromLittleEndian (low ++ [last]) ≠ 0 := by
  have hlast : last.toNat ≠ 0 := fun hzero => h (UInt8.toNat_inj.mp hzero)
  rw [fromLittleEndian_append]
  have hpos : 0 < 256^low.length*last.toNat :=
    Nat.mul_pos (Nat.pow_pos (by decide)) (Nat.pos_of_ne_zero hlast)
  omega

/-- Bytes that do not end with zero are those of their number. -/
theorem absBytes_fromLittleEndian (h : last ≠ 0) :
    absBytes (fromLittleEndian (low ++ [last])) = low ++ [last] := by
  induction low with
  | nil =>
    have hlast : last.toNat ≠ 0 := fun hzero => h (UInt8.toNat_inj.mp hzero)
    have hless := last.toNat_lt
    rw [List.nil_append,fromLittleEndian,fromLittleEndian,absBytes_pos (by omega),
      show (last.toNat+256*0)%256 = last.toNat by omega,
      show (last.toNat+256*0)/256 = 0 by omega,absBytes_zero,UInt8.ofNat_toNat]
  | cons b low ih =>
    have hpos : fromLittleEndian (low ++ [last]) ≠ 0 := fromLittleEndian_pos h
    have hless := b.toNat_lt
    rw [List.cons_append,fromLittleEndian,absBytes_pos (by omega),
      show (b.toNat+256*fromLittleEndian (low ++ [last]))%256 = b.toNat by omega,
      show (b.toNat+256*fromLittleEndian (low ++ [last]))/256 =
        fromLittleEndian (low ++ [last]) by omega,ih,UInt8.ofNat_toNat]

/-- The bytes of a number other than zero end with one that is not zero. -/
theorem absBytes_eq_append {n : Nat} (h : n ≠ 0) :
    ∃ low last, absBytes n = low ++ [last] ∧ last ≠ 0 := by
  induction n using Nat.strong_induction_on with
  | _ n ih =>
    by_cases hdiv : n/256 = 0
    · refine ⟨[],UInt8.ofNat (n%256),?_,?_⟩
      · rw [absBytes_pos h,hdiv,absBytes_zero]
        rfl
      · intro hzero
        have hnat := congrArg UInt8.toNat hzero
        rw [UInt8.toNat_ofNat_of_lt' (Nat.mod_lt n (by decide))] at hnat
        have : n%256 = 0 := hnat
        omega
    · obtain ⟨low,last,hbytes,hlast⟩ :=
        ih _ (Nat.div_lt_self (Nat.pos_of_ne_zero h) (by decide)) hdiv
      exact ⟨_ :: low,last,by rw [absBytes_pos h,hbytes]; rfl,hlast⟩

/-- The number without its sign. -/
def magnitude (low : List UInt8) (last : UInt8) : Nat :=
  fromLittleEndian low+256^low.length*(last.toNat%128)

theorem magnitude_lt (low : List UInt8) (last : UInt8) :
    magnitude low last < 128*256^low.length := by
  have hlow := fromLittleEndian_lt low
  have hmod : last.toNat%128 ≤ 127 := by omega
  have hmul := Nat.mul_le_mul_left (256^low.length) hmod
  unfold magnitude
  omega

/-- `set_vch` takes the sign from the highest bit of the last byte. -/
theorem setVch_append (low : List UInt8) (last : UInt8) :
    setVch (low ++ [last]) =
      if last &&& 0x80 ≠ 0 then -(magnitude low last : Int) else magnitude low last := by
  have hlow := fromLittleEndian_lt low
  have hsplit : fromLittleEndian (low ++ [last]) =
      magnitude low last+128*256^low.length*(last.toNat/128) := by
    have hdiv := Nat.mod_add_div last.toNat 128
    rw [fromLittleEndian_append]
    unfold magnitude
    calc fromLittleEndian low+256^low.length*last.toNat
        = fromLittleEndian low+256^low.length*(last.toNat%128+128*(last.toNat/128)) := by rw [hdiv]
      _ = _ := by ring
  have hlast : (low ++ [last]).getLast? = some last := by simp
  have hlength : (low ++ [last]).length-1 = low.length := by simp
  unfold setVch
  rw [hlast]
  simp only
  split_ifs with hsign
  · rw [hlength,hsplit,Nat.add_mul_mod_self_left,Nat.mod_eq_of_lt (magnitude_lt low last)]
  · have hsmall := (sign_bit last).mp (not_not.mp hsign)
    rw [hsplit,Nat.div_eq_of_lt hsmall,Nat.mul_zero,Nat.add_zero]

theorem natAbs_setVch_append (low : List UInt8) (last : UInt8) :
    (setVch (low ++ [last])).natAbs = magnitude low last := by
  rw [setVch_append]
  split_ifs <;> simp

theorem setVch_neg (h : magnitude low last ≠ 0) :
    setVch (low ++ [last]) < 0 ↔ last &&& 0x80 ≠ 0 := by
  rw [setVch_append]
  by_cases hsign : last &&& 0x80 ≠ 0
  · rw [if_pos hsign]
    exact iff_of_true (by omega) hsign
  · rw [if_neg hsign]
    exact iff_of_false (by omega) hsign

end Magnitude

section Serialize
variable {low : List UInt8} {last : UInt8} {value : Int}

theorem serialize_zero : serialize 0 = [] := by simp [serialize,absBytes_zero]

/-- Where the highest bit is in use, the sign has a byte of its own. -/
theorem serialize_wide (h : absBytes value.natAbs = low ++ [last]) (hlast : last &&& 0x80 ≠ 0) :
    serialize value = low ++ [last] ++ [if value < 0 then 0x80 else 0] := by
  unfold serialize
  simp only [h,List.getLast?_append,List.getLast?_singleton,Option.some_or]
  rw [if_pos hlast]
  simp

theorem serialize_narrow (h : absBytes value.natAbs = low ++ [last]) (hlast : last &&& 0x80 = 0) :
    serialize value = low ++ [if value < 0 then last ||| 0x80 else last] := by
  unfold serialize
  simp only [h,List.getLast?_append,List.getLast?_singleton,Option.some_or]
  rw [if_neg (not_not.mpr hlast)]
  split_ifs <;> simp_all

/-- `set_vch` inverts `serialize`. -/
theorem setVch_serialize (value : Int) : setVch (serialize value) = value := by
  by_cases hzero : value = 0
  · rw [hzero,serialize_zero]
    rfl
  · obtain ⟨low,last,hbytes,hlast⟩ := absBytes_eq_append (Int.natAbs_ne_zero.mpr hzero)
    have hvalue := fromLittleEndian_absBytes value.natAbs
    rw [hbytes] at hvalue
    by_cases hsign : last &&& 0x80 = 0
    · have hsmall := (sign_bit last).mp hsign
      have hmagnitude : magnitude low last = value.natAbs := by
        unfold magnitude
        rw [Nat.mod_eq_of_lt hsmall,← fromLittleEndian_append,hvalue]
      rw [serialize_narrow hbytes hsign,setVch_append]
      by_cases hneg : value < 0
      · have hor := or_sign last hsign
        have hsame : magnitude low (last ||| 0x80) = magnitude low last := by
          unfold magnitude
          rw [hor.1,Nat.mod_eq_of_lt hsmall]
        rw [if_pos hneg,if_pos hor.2,hsame,hmagnitude]
        omega
      · rw [if_neg hneg,if_neg (not_not.mpr hsign),hmagnitude]
        omega
    · have hmagnitude : ∀ top : UInt8, top.toNat%128 = 0 →
          magnitude (low ++ [last]) top = value.natAbs := by
        intro top htop
        unfold magnitude
        rw [htop,Nat.mul_zero,Nat.add_zero,hvalue]
      rw [serialize_wide hbytes hsign,setVch_append]
      by_cases hneg : value < 0
      · rw [if_pos hneg,if_pos (by decide),hmagnitude _ rfl]
        omega
      · rw [if_neg hneg,if_neg (by decide),hmagnitude _ rfl]
        omega

/-- A number below the sign bit of its last byte takes no more bytes. -/
theorem length_serialize_le {k : Nat} (h : value.natAbs < 128*256^k) :
    (serialize value).length ≤ k+1 := by
  by_cases hzero : value = 0
  · rw [hzero,serialize_zero]
    exact Nat.zero_le _
  · obtain ⟨low,last,hbytes,-⟩ := absBytes_eq_append (Int.natAbs_ne_zero.mpr hzero)
    have hvalue := fromLittleEndian_absBytes value.natAbs
    rw [hbytes,fromLittleEndian_append] at hvalue
    have hlength : (absBytes value.natAbs).length ≤ k+1 := length_absBytes (by
      rw [pow_succ]
      omega)
    rw [hbytes,List.length_append,List.length_singleton] at hlength
    by_cases hsign : last &&& 0x80 = 0
    · rw [serialize_narrow hbytes hsign,List.length_append,List.length_singleton]
      exact hlength
    · rw [serialize_wide hbytes hsign,List.length_append,List.length_append,List.length_singleton,
        List.length_singleton]
      by_contra hlong
      have hk : low.length = k := by omega
      have hbig : 128 ≤ last.toNat :=
        Nat.le_of_not_lt fun hsmall => hsign ((sign_bit last).mpr hsmall)
      have hmul := Nat.mul_le_mul_left (256^k) hbig
      rw [hk] at hvalue
      omega

/-- No vector with the same number is shorter than `serialize`. -/
theorem length_serialize_setVch (vch : Valtype) :
    (serialize (setVch vch)).length ≤ vch.length := by
  rcases List.eq_nil_or_concat' vch with rfl | ⟨low,last,rfl⟩
  · show (serialize 0).length ≤ 0
    rw [serialize_zero]
    exact Nat.le_refl 0
  · have hle : (serialize (setVch (low ++ [last]))).length ≤ low.length+1 := length_serialize_le (by
      rw [natAbs_setVch_append]
      exact magnitude_lt low last)
    rw [List.length_append,List.length_singleton]
    exact hle

end Serialize

section Minimal
variable {low : List UInt8} {last : UInt8}

theorem isMinimal_append (low : List UInt8) (last : UInt8) :
    isMinimal (low ++ [last]) = (last &&& 0x7f != 0 ||
      match low.getLast? with
      | none => false
      | some before => before &&& 0x80 != 0) := by
  unfold isMinimal
  rw [List.reverse_append,List.reverse_singleton,List.singleton_append]
  rcases List.eq_nil_or_concat' low with rfl | ⟨rest,before,rfl⟩
  · rfl
  · simp

/-- Where the last byte has a bit below the sign, the bytes are written again. -/
theorem serialize_setVch_append (h : last &&& 0x7f ≠ 0) :
    serialize (setVch (low ++ [last])) = low ++ [last] := by
  obtain ⟨hnat,hnosign,hagain⟩ := and_low last
  have hmagnitude : magnitude low last = fromLittleEndian (low ++ [last &&& 0x7f]) := by
    rw [fromLittleEndian_append,hnat]
    rfl
  have hpos : magnitude low last ≠ 0 := hmagnitude ▸ fromLittleEndian_pos h
  have hbytes : absBytes (setVch (low ++ [last])).natAbs = low ++ [last &&& 0x7f] := by
    rw [natAbs_setVch_append,hmagnitude,absBytes_fromLittleEndian h]
  rw [serialize_narrow hbytes hnosign]
  simp only [setVch_neg hpos]
  rw [hagain]

/-- Where the last byte has nothing but the sign and the one before uses its highest bit, the
bytes are written again. -/
theorem serialize_setVch_wide {before : UInt8} (h : last &&& 0x7f = 0)
    (hbefore : before &&& 0x80 ≠ 0) :
    serialize (setVch (low ++ [before] ++ [last])) = low ++ [before] ++ [last] := by
  have hne : before ≠ 0 := by
    rintro rfl
    exact hbefore rfl
  have hlast : last.toNat%128 = 0 := by rw [← (and_low last).1,h]; rfl
  have hmagnitude : magnitude (low ++ [before]) last = fromLittleEndian (low ++ [before]) := by
    unfold magnitude
    rw [hlast,Nat.mul_zero,Nat.add_zero]
  have hpos : magnitude (low ++ [before]) last ≠ 0 := hmagnitude ▸ fromLittleEndian_pos hne
  have hbytes : absBytes (setVch (low ++ [before] ++ [last])).natAbs = low ++ [before] := by
    rw [natAbs_setVch_append,hmagnitude,absBytes_fromLittleEndian hne]
  rw [serialize_wide hbytes hbefore]
  simp only [setVch_neg hpos]
  rw [sign_of_low_zero last h]

/-- A minimal vector is what is written for its number. -/
theorem serialize_setVch {vch : Valtype} (h : isMinimal vch = true) :
    serialize (setVch vch) = vch := by
  rcases List.eq_nil_or_concat' vch with rfl | ⟨low,last,rfl⟩
  · exact serialize_zero
  · by_cases hlow : last &&& 0x7f = 0
    · rcases List.eq_nil_or_concat' low with rfl | ⟨low,before,rfl⟩
      · simp [isMinimal,hlow] at h
      · rw [isMinimal_append] at h
        exact serialize_setVch_wide hlow (by simpa [hlow] using h)
    · exact serialize_setVch_append hlow

/-- A vector that is not minimal is longer than what is written for its number. -/
theorem length_serialize_lt {vch : Valtype} (h : isMinimal vch = false) :
    (serialize (setVch vch)).length < vch.length := by
  rcases List.eq_nil_or_concat' vch with rfl | ⟨low,last,rfl⟩
  · exact absurd h (by decide)
  · rw [isMinimal_append,Bool.or_eq_false_iff] at h
    obtain ⟨hlow,hbefore⟩ := h
    have hlast : last.toNat%128 = 0 := by
      rw [← (and_low last).1,show last &&& 0x7f = 0 by simpa using hlow]
      rfl
    have hnat : (setVch (low ++ [last])).natAbs = fromLittleEndian low := by
      rw [natAbs_setVch_append]
      unfold magnitude
      rw [hlast,Nat.mul_zero,Nat.add_zero]
    rw [List.length_append,List.length_singleton]
    rcases List.eq_nil_or_concat' low with rfl | ⟨low,before,rfl⟩
    · have hzero : setVch ([] ++ [last]) = 0 := Int.natAbs_eq_zero.mp hnat
      rw [hzero,serialize_zero]
      exact Nat.succ_pos _
    · have hsmall : before.toNat < 128 := (sign_bit before).mp (by simpa using hbefore)
      have hlt := fromLittleEndian_lt low
      have hmul := Nat.mul_le_mul_left (256^low.length) (Nat.le_of_lt_succ hsmall)
      rw [fromLittleEndian_append] at hnat
      have hle : (serialize (setVch (low ++ [before] ++ [last]))).length ≤ low.length+1 :=
        length_serialize_le (by omega)
      rw [List.length_append,List.length_singleton]
      omega

end Minimal

section Int64
variable {low : List UInt8} {last : UInt8}

/-- Up to eight bytes the loop adds the bytes. -/
theorem orBytes_eq {i : Nat} {result : BitVec 64} {bytes : List UInt8} (hi : i+bytes.length ≤ 8)
    (hresult : result.toNat < 256^i) :
    ∃ sum, orBytes i result bytes = some sum ∧
      sum.toNat = result.toNat+256^i*fromLittleEndian bytes := by
  induction bytes generalizing i result with
  | nil => exact ⟨result,rfl,by simp [fromLittleEndian]⟩
  | cons b rest ih =>
    rw [List.length_cons] at hi
    have hb := b.toNat_lt
    have hpow : 2^(8*i) = 256^i := pow_mul 2 8 i
    have hfit : b.toNat*256^i < 2^64 := by
      have hle : 256^i ≤ 256^7 := Nat.pow_le_pow_right (by decide) (by omega)
      have hmul := Nat.mul_le_mul (Nat.le_of_lt_succ hb) hle
      omega
    have hsum : (result ||| (BitVec.ofNat 64 b.toNat <<< (8*i))).toNat =
        result.toNat+256^i*b.toNat := by
      rw [BitVec.toNat_or,BitVec.toNat_shiftLeft,BitVec.toNat_ofNat,
        Nat.mod_eq_of_lt (by omega : b.toNat < 2^64),Nat.shiftLeft_eq,hpow,Nat.mod_eq_of_lt hfit,
        ← hpow,Nat.mul_comm,Nat.or_comm,← Nat.two_pow_add_eq_or_of_lt (by rwa [hpow]),Nat.add_comm]
    have hnext : (result ||| (BitVec.ofNat 64 b.toNat <<< (8*i))).toNat < 256^(i+1) := by
      have hmul := Nat.mul_le_mul_left (256^i) (Nat.le_of_lt_succ hb)
      rw [hsum,pow_succ]
      omega
    obtain ⟨sum,hrest,heq⟩ := ih (show i+1+rest.length ≤ 8 by omega) hnext
    unfold orBytes
    rw [if_neg (by omega)]
    refine ⟨sum,hrest,?_⟩
    rw [heq,hsum,fromLittleEndian,pow_succ]
    ring

/-- A bit that is set is taken away. -/
theorem clear_bit {x : BitVec 64} {k : Nat} (hk : k < 64) (h : 2^k ≤ x.toNat)
    (hx : x.toNat < 2^(k+1)) : (x &&& ~~~(1#64 <<< k)).toNat = x.toNat-2^k := by
  obtain ⟨y,hy⟩ : ∃ y, x.toNat = 2^k+y := ⟨x.toNat-2^k,by omega⟩
  have hsmall : y < 2^k := by
    rw [pow_succ] at hx
    omega
  have hfit : y < 2^64 := by
    have := x.isLt
    omega
  have hbits : x &&& ~~~(1#64 <<< k) = BitVec.ofNat 64 y := by
    apply BitVec.eq_of_getLsbD_eq
    intro i hi
    have hxi : x.getLsbD i = (2^k+y).testBit i := by rw [← hy]; rfl
    have hyi : (BitVec.ofNat 64 y).getLsbD i = y.testBit i := by
      rw [BitVec.getLsbD_ofNat,decide_eq_true hi,Bool.true_and]
    rw [hyi,BitVec.getLsbD_and,BitVec.getLsbD_not,BitVec.getLsbD_shiftLeft,hxi]
    rcases Nat.lt_trichotomy i k with hless | rfl | hmore
    · rw [Nat.testBit_two_pow_add_gt hless]
      simp [hi,hless]
    · rw [Nat.testBit_two_pow_add_eq]
      simp [hi,Nat.testBit_lt_two_pow hsmall]
    · have hpow : 2^(k+1) ≤ 2^i := Nat.pow_le_pow_right (by decide) hmore
      have hle : 2^k ≤ 2^(k+1) := Nat.pow_le_pow_right (by decide) (Nat.le_succ k)
      rw [Nat.testBit_lt_two_pow (by omega : 2^k+y < 2^i),
        Nat.testBit_lt_two_pow (by omega : y < 2^i)]
      simp
  rw [hbits,BitVec.toNat_ofNat,Nat.mod_eq_of_lt hfit,hy]
  omega

/-- For at most eight bytes the computation in 64 bits gives the number. -/
theorem setVchInt64_eq {vch : Valtype} (h : vch.length ≤ 8) :
    setVchInt64 vch = some (setVch vch) := by
  rcases List.eq_nil_or_concat' vch with rfl | ⟨low,last,rfl⟩
  · rfl
  · have hlength : (low ++ [last]).length = low.length+1 := by simp
    obtain ⟨sum,hloop,hsum⟩ := orBytes_eq
      (show 0+(low ++ [last]).length ≤ 8 by omega) (show (0 : BitVec 64).toNat < 256^0 by decide)
    have hmagnitude := magnitude_lt low last
    have hbound : 256^low.length ≤ 256^7 := Nat.pow_le_pow_right (by decide) (by omega)
    have hvalue : sum.toNat = magnitude low last+128*256^low.length*(last.toNat/128) := by
      have hdiv := Nat.mod_add_div last.toNat 128
      rw [hsum,pow_zero,Nat.one_mul,fromLittleEndian_append]
      unfold magnitude
      calc (0 : BitVec 64).toNat+(fromLittleEndian low+256^low.length*last.toNat)
          = fromLittleEndian low+256^low.length*(last.toNat%128+128*(last.toNat/128)) := by
            rw [hdiv]
            exact Nat.zero_add _
        _ = _ := by ring
    unfold setVchInt64
    rw [setVch_append]
    simp only [List.getLast?_append,List.getLast?_singleton,Option.some_or,hloop,
      Option.bind_eq_bind,Option.bind_some,Option.pure_def]
    by_cases hsign : last &&& 0x80 = 0
    · have hsmall := (sign_bit last).mp hsign
      rw [Nat.div_eq_of_lt hsmall,Nat.mul_zero,Nat.add_zero] at hvalue
      rw [if_neg (not_not.mpr hsign),if_neg (not_not.mpr hsign),
        BitVec.toInt_eq_toNat_of_lt (by omega),hvalue]
    · have hbig : last.toNat/128 = 1 := by
        have := last.toNat_lt
        have : ¬last.toNat < 128 := fun hsmall => hsign ((sign_bit last).mpr hsmall)
        omega
      have hbit : 0x80#64 <<< (8*((low ++ [last]).length-1)) = 1#64 <<< (8*low.length+7) := by
        rw [hlength,Nat.add_sub_cancel,Nat.add_comm,BitVec.shiftLeft_add]
        rfl
      have hpow : 2^(8*low.length+7) = 128*256^low.length := by
        rw [pow_add,pow_mul,Nat.mul_comm]
        rfl
      rw [hbig,Nat.mul_one] at hvalue
      have hclear := clear_bit (x := sum) (k := 8*low.length+7) (by omega) (by omega)
        (by rw [pow_succ]; omega)
      rw [if_pos hsign,if_pos hsign,hbit,BitVec.toInt_eq_toNat_of_lt (by omega),hclear,hvalue,hpow,
        Nat.add_sub_cancel]

end Int64

theorem fromVch_ok {vch : Valtype} (h : vch.length ≤ nMaxNumSize) :
    (∃ value, fromVch vch true = .ok value) ↔ isMinimal vch = true := by
  unfold fromVch
  rw [if_neg (Nat.not_lt.mpr h),Bool.true_and]
  cases isMinimal vch with
  | true => exact iff_of_true ⟨_,rfl⟩ rfl
  | false => exact iff_of_false (fun ⟨_,hok⟩ => by cases hok) (by decide)

theorem fromVch_eq {vch : Valtype} (h : vch.length ≤ nMaxNumSize)
    (hminimal : isMinimal vch = true) : fromVch vch true = .ok (setVch vch) := by
  unfold fromVch
  rw [if_neg (Nat.not_lt.mpr h),hminimal]
  rfl

/-- A vector is minimal exactly when it is what is written for its number. -/
theorem isMinimal_iff (vch : Valtype) : isMinimal vch = true ↔ serialize (setVch vch) = vch := by
  constructor
  · exact serialize_setVch
  · intro hsame
    by_contra hnot
    have hless := length_serialize_lt (Bool.eq_false_iff.mpr hnot)
    rw [hsame] at hless
    exact Nat.lt_irrefl _ hless

theorem isMinimal_serialize (value : Int) : isMinimal (serialize value) = true := by
  rw [isMinimal_iff,setVch_serialize]

/-- An accepted vector is what is written for the value. -/
theorem serialize_of_fromVch {vch : Valtype} {value : Int} (h : fromVch vch true = .ok value) :
    serialize value = vch := by
  unfold fromVch at h
  split_ifs at h with hlong hminimal
  have hvalue : setVch vch = value := Except.ok.inj h
  rw [← hvalue]
  exact serialize_setVch (by simpa using hminimal)

/-- What is written for a number is no longer than any vector that stands for it; where the
number of bytes makes a shift undefined, whatever it stands for. -/
def Shortest (value : Int) : Prop :=
  setVchInt64 (serialize value) = some value ∧
    ∀ vch, setVchInt64 vch = some value ∨ 8 < vch.length →
      (serialize value).length ≤ vch.length

theorem shortest_of_int64 {value : Int} (hlow : -2^63 < value) (hhigh : value < 2^63) :
    Shortest value := by
  have height : (serialize value).length ≤ 8 := length_serialize_le (k := 7) (by omega)
  refine ⟨by rw [setVchInt64_eq height,setVch_serialize],fun vch hvch => ?_⟩
  by_cases hlong : 8 < vch.length
  · omega
  · rcases hvch with hvch | hvch
    · rw [setVchInt64_eq (by omega)] at hvch
      rw [← Option.some.inj hvch]
      exact length_serialize_setVch vch
    · exact absurd hvch hlong

/-- The numbers of 32 bits come back, the vectors of up to four bytes are accepted exactly when
they are written for their number, and no vector is shorter than the one that is written. -/
theorem codec :
    (∀ n : Int, n.natAbs < 2^31 → fromVch (serialize n) true = .ok n) ∧
    (∀ vch : Valtype, vch.length ≤ 4 →
      ((∃ value, fromVch vch true = .ok value) ↔ serialize (setVch vch) = vch) ∧
      ∀ vch' value, fromVch vch true = .ok value → fromVch vch' true = .ok value → vch' = vch) ∧
    ∀ n : Int, -2^63 < n → n < 2^63 → Shortest n := by
  refine ⟨fun n hn => ?_,fun vch hvch => ⟨?_,fun vch' value hok hok' => ?_⟩,
    fun n => shortest_of_int64⟩
  · have hshort : (serialize n).length ≤ 4 := length_serialize_le (k := 3) (by omega)
    rw [fromVch_eq hshort (isMinimal_serialize n),setVch_serialize]
  · rw [fromVch_ok hvch,isMinimal_iff]
  · rw [← serialize_of_fromVch hok,← serialize_of_fromVch hok']

end CScriptNum

end Anoncoin
