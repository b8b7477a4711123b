import Mathlib.Algebra.BigOperators.Intervals
import Mathlib.Algebra.BigOperators.Ring.Finset
import Mathlib.Data.List.GetD
import Anoncoin.Compressor

/-!
Variable-length integers (serialize.h): the buffer that `WriteVarInt` fills, the number that
bytes encode by the documented formula, and for which bytes the code that is read is the only one.
-/

set_option autoImplicit false

namespace Anoncoin
open Lib

section Buffer

/-- The first loop of `WriteVarInt`: the buffer and the last index that is stored to. `none` is a
byte that is stored behind the buffer. -/
def storeVarInt (n : Nat) (tmp : List UInt8) (len : Nat) : Option (List UInt8 × Nat) :=
  if len < tmp.length then
    let tmp := tmp.set len (UInt8.ofNat (n%128+if len = 0 then 0 else 128))
    if n ≤ 0x7f then some (tmp,len) else storeVarInt (n/128-1) tmp (len+1)
  else none
  termination_by n
  decreasing_by omega

/-- The second loop of `WriteVarInt`. -/
def writeDown (tmp : List UInt8) : Nat → Option (List UInt8)
  | 0 => do
      let byte ← tmp[0]?
      pure [byte]
  | len+1 => do
      let byte ← tmp[len+1]?
      let rest ← writeDown tmp len
      pure (byte :: rest)

/-- `WriteVarInt` for an integer type of `w` bits; `garbage` is what the buffer holds before. -/
def writeVarIntChecked (garbage : Nat → UInt8) (w n : Nat) : Option (List UInt8) := do
  let (tmp,len) ← storeVarInt n ((List.range ((w+6)/7)).map garbage) 0
  writeDown tmp len

theorem take_set_self {tmp : List UInt8} {len : Nat} (h : len < tmp.length) (byte : UInt8) :
    (tmp.set len byte).take (len+1) = tmp.take len ++ [byte] := by
  induction tmp generalizing len with
  | nil => simp at h
  | cons head tail ih =>
    cases len with
    | zero => simp
    | succ len =>
      have hlt : len < tail.length := by simpa using h
      simp [ih hlt]

theorem getSizeOfVarInt_pos (n : Nat) : 0 < getSizeOfVarInt n := by
  unfold getSizeOfVarInt
  split <;> omega

/-- The digits are stored behind those that are there, and the loop stops at the last one. -/
theorem storeVarInt_eq (n len : Nat) (tmp : List UInt8)
    (h : len+getSizeOfVarInt n ≤ tmp.length) :
    ∃ tmp', storeVarInt n tmp len = some (tmp',len+getSizeOfVarInt n-1) ∧
      tmp'.length = tmp.length ∧ tmp'.take (len+getSizeOfVarInt n) =
        tmp.take len ++ varIntDigits n (if len = 0 then 0 else 128) := by
  induction n using Nat.strong_induction_on generalizing len tmp with
  | _ n ih =>
    have hpos := getSizeOfVarInt_pos n
    have hlen : len < tmp.length := by omega
    unfold storeVarInt varIntDigits
    rw [if_pos hlen]
    simp only
    by_cases hle : n ≤ 0x7f
    · have hsize : getSizeOfVarInt n = 1 := by
        unfold getSizeOfVarInt
        exact if_pos hle
      rw [if_pos hle,if_pos hle,hsize]
      exact ⟨_,rfl,List.length_set,take_set_self hlen _⟩
    · have hsize : getSizeOfVarInt n = getSizeOfVarInt (n/128-1)+1 := by
        rw [getSizeOfVarInt,if_neg hle]
      rw [if_neg hle,if_neg hle,hsize]
      rw [hsize] at h
      obtain ⟨tmp',hstore,hlength,htake⟩ := ih (n/128-1) (by omega) (len+1)
        (tmp.set len (UInt8.ofNat (n%128+if len = 0 then 0 else 128)))
        (by rw [List.length_set]; omega)
      refine ⟨tmp',?_,?_,?_⟩
      · rw [hstore,show len+1+getSizeOfVarInt (n/128-1) = len+(getSizeOfVarInt (n/128-1)+1) by
          omega]
      · rw [hlength,List.length_set]
      · rw [show len+(getSizeOfVarInt (n/128-1)+1) = len+1+getSizeOfVarInt (n/128-1) by omega,
          htake,take_set_self hlen,if_neg (show ¬len+1 = 0 by omega)]
        simp

theorem writeDown_eq {tmp : List UInt8} {len : Nat} (h : len < tmp.length) :
    writeDown tmp len = some (tmp.take (len+1)).reverse := by
  induction len with
  | zero =>
    cases tmp with
    | nil => simp at h
    | cons head tail => simp [writeDown]
  | succ len ih =>
    have hbyte : tmp[len+1]? = some tmp[len+1] := List.getElem?_eq_getElem h
    have htake : tmp.take (len+1+1) = tmp.take (len+1) ++ [tmp[len+1]] := by
      rw [List.take_add_one,hbyte,Option.toList_some]
    rw [writeDown,hbyte,ih (by omega),htake,List.reverse_append]
    rfl

/-- A number of `w` bits has no more digits than the buffer has bytes. -/
theorem getSizeOfVarInt_le_buffer {w n : Nat} (hw : 0 < w) (h : n < 2^w) :
    getSizeOfVarInt n ≤ (w+6)/7 := by
  obtain ⟨k,hk⟩ : ∃ k, (w+6)/7 = k+1 := ⟨(w+6)/7-1,by omega⟩
  have hpow : 2^w ≤ 128^(k+1) := by
    rw [show 128 = 2^7 by rfl,← pow_mul]
    exact Nat.pow_le_pow_right (by decide) (by omega)
  rw [hk]
  exact getSizeOfVarInt_le (Nat.lt_of_lt_of_le h hpow)

theorem writeVarIntChecked_eq {garbage : Nat → UInt8} {w n : Nat} (hw : 0 < w) (h : n < 2^w) :
    writeVarIntChecked garbage w n = some (writeVarInt n) := by
  have hpos := getSizeOfVarInt_pos n
  have hfit := getSizeOfVarInt_le_buffer hw h
  have hlength : ((List.range ((w+6)/7)).map garbage).length = (w+6)/7 := by simp
  obtain ⟨tmp,hstore,hlen,htake⟩ := storeVarInt_eq n 0
    ((List.range ((w+6)/7)).map garbage) (by omega)
  rw [Nat.zero_add] at hstore htake
  have hlast : getSizeOfVarInt n-1 < tmp.length := by omega
  have hdown := writeDown_eq hlast
  rw [Nat.sub_add_cancel hpos,htake] at hdown
  simp [writeVarIntChecked,hstore,hdown,writeVarInt]

/-- The writer keeps within its buffer and writes as many bytes as announced; the reader finds
the number again and takes those bytes. -/
theorem varInt_round_trip {w n : Nat} (hw : 0 < w) (h : n < 2^w) (garbage : Nat → UInt8) :
    ∃ bytes, writeVarIntChecked garbage w n = some bytes ∧ Reads (readVarInt w) bytes n ∧
      bytes.length = getSizeOfVarInt n ∧ bytes.length ≤ (w+6)/7 := by
  refine ⟨writeVarInt n,writeVarIntChecked_eq hw h,reads_readVarInt h,length_writeVarInt n,?_⟩
  rw [length_writeVarInt]
  exact getSizeOfVarInt_le_buffer hw h

theorem varInt_round_trip_max : ∃ bytes, writeVarIntChecked (fun _ => 0xff) 64 (2^64-1) =
    some bytes ∧ Reads (readVarInt 64) bytes (2^64-1) ∧
      bytes.length = getSizeOfVarInt (2^64-1) ∧ bytes.length ≤ (64+6)/7 :=
  varInt_round_trip (by decide) (by decide) _

end Buffer

/-- The number that a sequence of bytes encodes, by the documented formula. -/
def encodedNumber (a : List UInt8) : Nat :=
  (a.getD (a.length-1) 0).toNat%128+
    ∑ i ∈ Finset.Ico 1 a.length, 128^i*((a.getD (a.length-i-1) 0).toNat%128+1)

/-- The bytes up to the first one without the high bit. -/
def firstVarInt (input : List UInt8) : List UInt8 :=
  input.takeWhile (fun byte => 128 ≤ byte.toNat) ++
    (input.dropWhile (fun byte => 128 ≤ byte.toNat)).take 1

/-- What is read so far, when another byte follows. -/
def numberAbove (n : Nat) (a : List UInt8) : Nat :=
  a.foldl (fun n byte => n*128+byte.toNat%128+1) n

section Unique

theorem numberAbove_eq_sum (a : List UInt8) :
    numberAbove 0 a =
      ∑ i ∈ Finset.range a.length, 128^i*((a.getD (a.length-1-i) 0).toNat%128+1) := by
  induction a using List.reverseRecOn with
  | nil => rfl
  | append_singleton a byte ih =>
    have hshift : ∀ i ∈ Finset.range a.length,
        128^(i+1)*(((a ++ [byte]).getD (a.length-(i+1)) 0).toNat%128+1) =
          128^i*((a.getD (a.length-1-i) 0).toNat%128+1)*128 := by
      intro i hi
      have hlt : i < a.length := Finset.mem_range.mp hi
      rw [List.getD_append _ _ _ _ (by omega),show a.length-(i+1) = a.length-1-i by omega,
        pow_succ,Nat.mul_assoc,Nat.mul_comm 128,Nat.mul_assoc]
    have hlast : (a ++ [byte]).getD a.length 0 = byte := by simp
    unfold numberAbove at ih ⊢
    rw [List.foldl_append,ih,List.length_append,List.length_singleton,Finset.sum_range_succ',
      Nat.add_sub_cancel,Finset.sum_congr rfl hshift,← Finset.sum_mul,Nat.sub_zero,hlast]
    simp [Nat.add_assoc]

theorem encodedNumber_concat (a : List UInt8) (byte : UInt8) :
    encodedNumber (a ++ [byte]) = numberAbove 0 a*128+byte.toNat%128 := by
  have hshift : ∀ i ∈ Finset.range a.length,
      128^(1+i)*(((a ++ [byte]).getD (a.length+1-(1+i)-1) 0).toNat%128+1) =
        128^i*((a.getD (a.length-1-i) 0).toNat%128+1)*128 := by
    intro i hi
    have hlt : i < a.length := Finset.mem_range.mp hi
    rw [show a.length+1-(1+i)-1 = a.length-1-i by omega,List.getD_append _ _ _ _ (by omega),
      Nat.add_comm 1,pow_succ,Nat.mul_assoc,Nat.mul_comm 128,Nat.mul_assoc]
  have hlast : (a ++ [byte]).getD a.length 0 = byte := by simp
  unfold encodedNumber
  rw [List.length_append,List.length_singleton,Nat.add_sub_cancel,hlast,
    Finset.sum_Ico_eq_sum_range,Nat.add_sub_cancel,Finset.sum_congr rfl hshift,
    ← Finset.sum_mul,← numberAbove_eq_sum,Nat.add_comm]

/-- The number above the last byte, when there is one. -/
theorem numberAbove_concat (n : Nat) (a : List UInt8) (byte : UInt8) :
    numberAbove n (a ++ [byte]) = numberAbove n a*128+byte.toNat%128+1 := by
  simp [numberAbove]

/-- The type of the reader wraps around. -/
theorem varIntFrom_eq {w : Nat} {a : List UInt8} (ha : ∀ high ∈ a, 128 ≤ high.toNat)
    {byte : UInt8} (hbyte : byte.toNat < 128) (n : Nat) (rest : List UInt8) :
    varIntFrom w (n%2^w) (a ++ byte :: rest) =
      some ((numberAbove n a*128+byte.toNat%128)%2^w,rest) := by
  induction a generalizing n with
  | nil =>
    rw [List.nil_append,varIntFrom,if_neg (by omega)]
    simp [numberAbove,Nat.add_mod,Nat.mul_mod]
  | cons high a ih =>
    obtain ⟨hhigh,hrest⟩ := List.forall_mem_cons.mp ha
    have hstep : ((n%2^w*128+high.toNat%128)%2^w+1)%2^w = (n*128+high.toNat%128+1)%2^w := by
      simp [Nat.add_mod,Nat.mul_mod]
    rw [List.cons_append,varIntFrom,if_pos hhigh,hstep,ih hrest]
    rfl

theorem varIntFrom_none {w : Nat} {a : List UInt8} (ha : ∀ high ∈ a, 128 ≤ high.toNat)
    (n : Nat) : varIntFrom w n a = none := by
  induction a generalizing n with
  | nil => rfl
  | cons high a ih =>
    obtain ⟨hhigh,hrest⟩ := List.forall_mem_cons.mp ha
    rw [varIntFrom,if_pos hhigh]
    exact ih hrest _

theorem firstVarInt_eq {a : List UInt8} (ha : ∀ high ∈ a, 128 ≤ high.toNat) {byte : UInt8}
    (hbyte : byte.toNat < 128) (rest : List UInt8) :
    firstVarInt (a ++ byte :: rest) = a ++ [byte] := by
  have hall : ∀ high ∈ a, decide (128 ≤ high.toNat) = true := by simpa using ha
  have hlow : ¬128 ≤ byte.toNat := by omega
  unfold firstVarInt
  rw [List.takeWhile_append_of_pos hall,List.dropWhile_append_of_pos hall]
  simp [hlow]

/-- What is read: the number that the bytes encode, as far as the type holds it. -/
theorem readVarInt_eq_ok {w n : Nat} {s s' : Stream} (h : readVarInt w s = .ok n s') :
    ∃ a byte, (∀ high ∈ a, 128 ≤ high.toNat) ∧ byte.toNat < 128 ∧
      s.input = a ++ byte :: s'.input ∧ firstVarInt s.input = a ++ [byte] ∧
      n = encodedNumber (a ++ [byte])%2^w := by
  have hsplit := List.takeWhile_append_dropWhile (p := fun byte : UInt8 => 128 ≤ byte.toNat)
    (l := s.input)
  have hall : ∀ high ∈ s.input.takeWhile (fun byte : UInt8 => 128 ≤ byte.toNat),
      128 ≤ high.toNat := by
    intro high hmem
    simpa using List.mem_takeWhile_imp hmem
  generalize s.input.takeWhile (fun byte : UInt8 => 128 ≤ byte.toNat) = a at hsplit hall
  have hstart : varIntFrom w 0 s.input = varIntFrom w (0%2^w) s.input := by rw [Nat.zero_mod]
  unfold readVarInt at h
  cases hdrop : s.input.dropWhile (fun byte : UInt8 => 128 ≤ byte.toNat) with
  | nil =>
    rw [hdrop,List.append_nil] at hsplit
    rw [← hsplit,varIntFrom_none hall] at h
    contradiction
  | cons byte rest =>
    have hlow : byte.toNat < 128 := by
      have hnot := List.head_dropWhile_not (fun byte : UInt8 => 128 ≤ byte.toNat) (l := s.input)
        (by simp [hdrop])
      simpa [hdrop] using hnot
    rw [hdrop] at hsplit
    rw [hstart,← hsplit,varIntFrom_eq hall hlow] at h
    obtain ⟨rfl,rfl⟩ := EStateM.Result.ok.inj h
    exact ⟨a,byte,hall,hlow,hsplit.symm,by rw [← hsplit,firstVarInt_eq hall hlow],
      by rw [encodedNumber_concat]⟩

theorem varIntDigits_numberAbove {a : List UInt8} (ha : ∀ high ∈ a, 128 ≤ high.toNat)
    {m : Nat} (hm : m < 128) (mark : Nat) :
    (varIntDigits (numberAbove 0 a*128+m) mark).reverse = a ++ [UInt8.ofNat (m+mark)] := by
  induction a using List.reverseRecOn generalizing m mark with
  | nil =>
    unfold varIntDigits
    simp [numberAbove,Nat.mod_eq_of_lt hm,show m ≤ 127 by omega]
  | append_singleton a high ih =>
    have hhigh : 128 ≤ high.toNat := ha high (by simp)
    have hbyte : high.toNat%128+128 = high.toNat := by
      have := high.toNat_lt
      omega
    unfold varIntDigits
    rw [numberAbove_concat,if_neg (by omega),List.reverse_cons,
      show ((numberAbove 0 a*128+high.toNat%128+1)*128+m)/128-1 =
        numberAbove 0 a*128+high.toNat%128 by omega,
      show ((numberAbove 0 a*128+high.toNat%128+1)*128+m)%128 = m by omega,
      ih (fun b hb => ha b (by simp [hb])) (Nat.mod_lt _ (by decide)),hbyte,
      UInt8.ofNat_toNat]

/-- The writer gives the bytes back when the type holds the number that they encode. -/
theorem writeVarInt_encodedNumber {a : List UInt8} (ha : ∀ high ∈ a, 128 ≤ high.toNat)
    {byte : UInt8} (hbyte : byte.toNat < 128) :
    writeVarInt (encodedNumber (a ++ [byte])) = a ++ [byte] := by
  rw [encodedNumber_concat,Nat.mod_eq_of_lt hbyte]
  unfold writeVarInt
  rw [varIntDigits_numberAbove ha hbyte,Nat.add_zero,UInt8.ofNat_toNat]

theorem encodedNumber_writeVarInt (n : Nat) : encodedNumber (writeVarInt n) = n := by
  -- read it with a type that holds both numbers
  have hn : n < 2^(n+encodedNumber (writeVarInt n)) :=
    Nat.lt_of_le_of_lt (Nat.le_add_right _ _) Nat.lt_two_pow_self
  have he : encodedNumber (writeVarInt n) < 2^(n+encodedNumber (writeVarInt n)) :=
    Nat.lt_of_le_of_lt (Nat.le_add_left _ _) Nat.lt_two_pow_self
  obtain ⟨s',hread,hend⟩ := reads_readVarInt hn ⟨writeVarInt n,0,0⟩ [] (by simp)
  obtain ⟨a,byte,-,-,hinput,-,hvalue⟩ := readVarInt_eq_ok hread
  have hbytes : writeVarInt n = a ++ [byte] := by simpa [hend] using hinput
  rw [← hbytes,Nat.mod_eq_of_lt he] at hvalue
  exact hvalue.symm

/-- The code that is read is the one that is written for the number exactly when the type holds
the number that it encodes; among such codes no two are read as the same number. -/
theorem varInt_unique (w : Nat) :
    (∀ s s' n, readVarInt w s = .ok n s' →
      (writeVarInt n ++ s'.input = s.input ↔ encodedNumber (firstVarInt s.input) < 2^w)) ∧
    (∀ s s' t t' n, readVarInt w s = .ok n s' → readVarInt w t = .ok n t' →
      encodedNumber (firstVarInt s.input) < 2^w → encodedNumber (firstVarInt t.input) < 2^w →
      firstVarInt s.input = firstVarInt t.input) := by
  have hwrite : ∀ {s s' : Stream} {n : Nat}, readVarInt w s = .ok n s' →
      encodedNumber (firstVarInt s.input) < 2^w → writeVarInt n = firstVarInt s.input := by
    intro s s' n h hfit
    obtain ⟨a,byte,ha,hbyte,-,hfirst,rfl⟩ := readVarInt_eq_ok h
    rw [hfirst] at hfit ⊢
    rw [Nat.mod_eq_of_lt hfit,writeVarInt_encodedNumber ha hbyte]
  refine ⟨fun s s' n h => ⟨fun heq => ?_,fun hfit => ?_⟩,fun s s' t t' n hs ht hsfit htfit => ?_⟩
  · obtain ⟨a,byte,-,-,hinput,hfirst,hvalue⟩ := readVarInt_eq_ok h
    have hbytes : writeVarInt n = firstVarInt s.input := by
      rw [hinput,← List.singleton_append,← List.append_assoc] at heq
      rw [hfirst]
      exact List.append_cancel_right heq
    have hback := encodedNumber_writeVarInt n
    rw [hbytes] at hback
    rw [hback,hvalue]
    exact Nat.mod_lt _ (by positivity)
  · obtain ⟨a,byte,-,-,hinput,hfirst,-⟩ := readVarInt_eq_ok h
    rw [hwrite h hfit,hfirst,hinput,List.append_assoc,List.singleton_append]
  · rw [← hwrite hs hsfit,← hwrite ht htfit]

/-- The documented code of 2^32 is read as 0 by a type of 32 bits. -/
theorem varInt_wraps : ¬∀ (w : Nat) (s s' : Stream) (n : Nat), w ∈ [8,16,32,64] →
    readVarInt w s = .ok n s' → writeVarInt n ++ s'.input = s.input := by
  intro h
  have hread : readVarInt 32 ⟨[0x8e,0xfe,0xfe,0xff,0x00],0,0⟩ = .ok 0 ⟨[],0,0⟩ := by rfl
  have hwrite := h 32 _ _ 0 (by decide) hread
  rw [List.append_nil,CScriptCompressor.writeVarInt_small (by decide)] at hwrite
  exact absurd hwrite (by decide)

end Unique

end Anoncoin
