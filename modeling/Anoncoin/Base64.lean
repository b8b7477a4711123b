import Anoncoin.Base32

/-!
`EncodeBase64` and `DecodeBase64` of util.cpp on the bytes of a string, and what the decoders of
both bases take for a valid text.
-/

set_option autoImplicit false

namespace Anoncoin
open Lib

/-- The letters, upper case first, the digits, plus and slash. -/
def pbase64 (v : Nat) : UInt8 :=
  if v < 26 then UInt8.ofNat (65+v)
  else if v < 52 then UInt8.ofNat (71+v)
  else if v < 62 then UInt8.ofNat (v-4)
  else if v = 62 then 43
  else 47

def decode64Table (c : UInt8) : Option Nat :=
  if 65 ≤ c ∧ c ≤ 90 then some (c.toNat-65)
  else if 97 ≤ c ∧ c ≤ 122 then some (c.toNat-71)
  else if 48 ≤ c ∧ c ≤ 57 then some (c.toNat+4)
  else if c = 43 then some 62
  else if c = 47 then some 63
  else none

namespace Base64

/-- The digits that a byte completes, and the mode and the bits left after it. -/
def encodeStep (mode left enc : Nat) : List Nat × Nat × Nat :=
  match mode with
  | 0 => ([enc >>> 2],1,(enc &&& 3) <<< 4)
  | 1 => ([left ||| (enc >>> 4)],2,(enc &&& 15) <<< 2)
  | _ => ([left ||| (enc >>> 6),enc &&& 63],0,left)

/-- One sign of padding, and another one after a single byte. -/
def nPadding (mode : Nat) : Nat := if mode = 1 then 2 else 1

def encodeFrom (mode left : Nat) : List UInt8 → List UInt8
  | [] => if mode ≠ 0 then pbase64 left :: List.replicate (nPadding mode) 61 else []
  | enc :: rest =>
      (encodeStep mode left enc.toNat).1.map pbase64 ++
        encodeFrom (encodeStep mode left enc.toNat).2.1 (encodeStep mode left enc.toNat).2.2 rest

/-- The bytes that a digit completes, and the mode and the bits left after it. -/
def decodeStep (mode left dec : Nat) : List Nat × Nat × Nat :=
  match mode with
  | 0 => ([],1,dec)
  | 1 => ([(left <<< 2) ||| (dec >>> 4)],2,dec &&& 15)
  | 2 => ([(left <<< 4) ||| (dec >>> 2)],3,dec &&& 3)
  | _ => ([(left <<< 6) ||| dec],0,left)

/-- `*pfInvalid`; the text ends with a zero. -/
def invalidEnd (mode left : Nat) (p : List UInt8) : Bool :=
  let unpadded := fun n => decide (left ≠ 0 ∨ p.take n ≠ List.replicate n 61 ∨
    (decode64Table (p.getD n 0)).isSome = true)
  match mode with
  | 0 => false
  | 2 => unpadded 2
  | 3 => unpadded 1
  | _ => true

def decodeFrom (mode left : Nat) : List UInt8 → List UInt8 × Bool
  | [] => ([],invalidEnd mode left [])
  | c :: p =>
      match decode64Table c with
      | none => ([],invalidEnd mode left (c :: p))
      | some dec =>
          let rest := decodeFrom (decodeStep mode left dec).2.1 (decodeStep mode left dec).2.2 p
          ((decodeStep mode left dec).1.map UInt8.ofNat ++ rest.1,rest.2)

end Base64

def encodeBase64 (pch : List UInt8) : List UInt8 := Base64.encodeFrom 0 0 pch

def decodeBase64 (p : List UInt8) : List UInt8 × Bool := Base64.decodeFrom 0 0 p

namespace Base64

theorem and_63 (x : Nat) : x &&& 63 = x%64 := Nat.and_two_pow_sub_one_eq_mod x 6

/-- A byte in each mode of the encoder. -/
theorem encodeStep_regroups : Regroups 8 6 [0,2,4] (fun k => 6-k) encodeStep := by
  intro mode left k v d hkept hd
  obtain ⟨hknown,hfits,hshifted⟩ := hkept
  match mode with
  | 0 =>
    obtain rfl := Option.some.inj hknown
    have hstep : encodeStep 0 left d = ([d/2^2],1,(d%4) <<< 4) := by
      rw [encodeStep,Nat.shiftRight_eq_div_pow,and_3]
    exact kept_step 2 (d%4) hstep rfl (by omega) (fun _ => rfl) rfl (by simp; omega)
      (by simp; omega)
  | 1 =>
    obtain rfl := Option.some.inj hknown
    have hleft : left = v <<< 4 := hshifted (by decide)
    have hstep : encodeStep 1 left d = ([v*2^4+d/2^4],2,(d%16) <<< 2) := by
      simp only [hleft,encodeStep,Nat.shiftRight_eq_div_pow,and_15]
      rw [shiftLeft_or (by omega)]
    exact kept_step 4 (d%16) hstep rfl (by omega) (fun _ => rfl) rfl (by simp; omega)
      (by simp; omega)
  | 2 =>
    obtain rfl := Option.some.inj hknown
    have hleft : left = v <<< 2 := hshifted (by decide)
    have hstep : encodeStep 2 left d = ([v*2^2+d/2^6,d%64],0,left) := by
      simp only [encodeStep,Nat.shiftRight_eq_div_pow,and_63]
      rw [hleft,shiftLeft_or (by omega)]
    exact kept_step 0 0 hstep rfl (by omega) (fun hne => absurd rfl hne) rfl (by simp; omega)
      (by simp; omega)
  | mode+3 => simp at hknown

/-- A digit in each mode of the decoder. -/
theorem decodeStep_regroups : Regroups 6 8 [0,6,4,2] (fun _ => 0) decodeStep := by
  intro mode left k v d hkept hd
  obtain ⟨hknown,hfits,hshifted⟩ := hkept
  match mode with
  | 0 =>
    obtain rfl := Option.some.inj hknown
    exact kept_step 6 d rfl rfl hd (fun _ => rfl) rfl (by simp; omega) (by simp)
  | 1 =>
    obtain rfl := Option.some.inj hknown
    obtain rfl : left = v := hshifted (by decide)
    have hstep : decodeStep 1 left d = ([left*2^2+d/2^4],2,d%16) := by
      rw [decodeStep,Nat.shiftRight_eq_div_pow,shiftLeft_or (by omega),and_15]
    exact kept_step 4 (d%16) hstep rfl (by omega) (fun _ => rfl) rfl (by simp; omega)
      (by simp; omega)
  | 2 =>
    obtain rfl := Option.some.inj hknown
    obtain rfl : left = v := hshifted (by decide)
    have hstep : decodeStep 2 left d = ([left*2^4+d/2^2],3,d%4) := by
      rw [decodeStep,Nat.shiftRight_eq_div_pow,shiftLeft_or (by omega),and_3]
    exact kept_step 2 (d%4) hstep rfl (by omega) (fun _ => rfl) rfl (by simp; omega)
      (by simp; omega)
  | 3 =>
    obtain rfl := Option.some.inj hknown
    obtain rfl : left = v := hshifted (by decide)
    have hstep : decodeStep 3 left d = ([left*2^6+d],0,left) := by
      simp only [decodeStep]
      rw [shiftLeft_or hd]
    exact kept_step 0 0 hstep rfl (by omega) (fun hne => absurd rfl hne) rfl (by simp)
      (by simp; omega)
  | mode+4 => simp at hknown

theorem decode64Table_lt (c : UInt8) (d : Nat) (h : decode64Table c = some d) : d < 2^6 := by
  simp only [decode64Table,UInt8.le_iff_toNat_le,UInt8.reduceToNat] at h
  split_ifs at h <;> (obtain rfl := Option.some.inj h; omega)

def alphabet64 : Alphabet UInt8 6 where
  write := pbase64
  table := decode64Table
  pad := 61
  ending := 0
  signs := fun k => [0,0,1,0,2].getD k 0
  table_write := by decide
  table_lt := decode64Table_lt
  table_pad := by decide
  table_ending := by decide

theorem encodeFrom_eq (mode left : Nat) (pch : List UInt8) :
    encodeFrom mode left pch =
      (regroup encodeStep mode left (pch.map UInt8.toNat)).1.map pbase64 ++
        if (regroup encodeStep mode left (pch.map UInt8.toNat)).2.1 ≠ 0 then
          pbase64 (regroup encodeStep mode left (pch.map UInt8.toNat)).2.2 ::
            List.replicate (nPadding (regroup encodeStep mode left (pch.map UInt8.toNat)).2.1) 61
        else [] := by
  induction pch generalizing mode left with
  | nil => rfl
  | cons enc pch ih =>
    rw [encodeFrom,ih]
    simp [regroup]

theorem decodeFrom_eq (mode left : Nat) (p : List UInt8) :
    decodeFrom mode left p =
      ((regroup decodeStep mode left (alphabet64.lead p)).1.map UInt8.ofNat,
        invalidEnd (regroup decodeStep mode left (alphabet64.lead p)).2.1
          (regroup decodeStep mode left (alphabet64.lead p)).2.2 (alphabet64.rest p)) := by
  induction p generalizing mode left with
  | nil => rfl
  | cons c p ih =>
    rw [decodeFrom,Alphabet.lead,Alphabet.rest]
    cases hc : decode64Table c with
    | none => simp [alphabet64,hc,regroup]
    | some dec => simp [alphabet64,hc,regroup,ih]

/-- What the check after the loop takes for the end of a text. -/
theorem invalidEnd_iff {mode left k v : Nat} {p : List UInt8}
    (hkept : Kept [0,6,4,2] (fun _ => 0) mode left k v) (hp : decode64Table (p.headD 0) = none) :
    invalidEnd mode left p = false ↔ alphabet64.Padded p k v := by
  obtain ⟨hknown,hfits,hshifted⟩ := hkept
  match mode with
  | 0 =>
    obtain rfl := Option.some.inj hknown
    cases p <;> simp_all [invalidEnd,Alphabet.Padded,alphabet64]
  | 1 =>
    obtain rfl := Option.some.inj hknown
    simp [invalidEnd,Alphabet.Padded]
  | 2 | 3 =>
    obtain rfl := Option.some.inj hknown
    obtain rfl : left = v := hshifted (by decide)
    simp [invalidEnd,Alphabet.Padded,alphabet64]
  | mode+4 => simp at hknown

theorem codec64 : alphabet64.Codec encodeBase64 decodeBase64 where
  narrow := by decide
  encodes := by
    intro v
    rw [encodeBase64,encodeFrom_eq]
    refine Alphabet.encodes_regroup (A := alphabet64) encodeStep_regroups rfl rfl ?_ v
    intro mode k hk
    match mode with
    | 0 | 1 | 2 =>
      obtain rfl := Option.some.inj hk
      decide
    | mode+3 => simp at hk
  decodes := by
    intro s
    rw [decodeBase64,decodeFrom_eq]
    refine Alphabet.decodes_regroup (A := alphabet64) decodeStep_regroups rfl ?_
      (fun mode left k v p => invalidEnd_iff) s
    intro mode k hk
    match mode with
    | 0 | 1 | 2 | 3 =>
      obtain rfl := Option.some.inj hk
      decide
    | mode+4 => simp at hk

theorem canonical64 (c : UInt8) : alphabet64.canonical c = c := by
  have hlt := c.toNat_lt
  apply UInt8.toNat_inj.mp
  simp only [Alphabet.canonical,alphabet64,decode64Table,UInt8.le_iff_toNat_le,UInt8.reduceToNat]
  split_ifs <;> simp only [pbase64] <;> (try split_ifs) <;> simp_all <;> omega

theorem encodeBase64_length (v : List UInt8) : 4 ∣ (encodeBase64 v).length := by
  obtain ⟨digits,k,hspells,hk,htext⟩ := codec64.exists_digits v
  have hlen := hspells.length
  simp only [htext,List.length_append,List.length_map,List.length_replicate] at hlen ⊢
  match k with
  | 0 | 1 | 2 | 3 | 4 | 5 =>
    simp only [alphabet64,List.getD_cons_zero,List.getD_cons_succ]
    omega

end Base64

/-- Every byte string is read back from both of its texts, which are whole groups of signs. -/
theorem base_texts_round_trip (v : List UInt8) :
    decodeBase64 (encodeBase64 v) = (v,false) ∧ 4 ∣ (encodeBase64 v).length ∧
      decodeBase32 (encodeBase32 v) = (v,false) ∧ 8 ∣ (encodeBase32 v).length :=
  ⟨Base64.codec64.round_trip v,Base64.encodeBase64_length v,codec32.round_trip v,
    encodeBase32_length v⟩

/-- A text that is taken for a valid one is the text of what is read from it, in base 32 up to the
case of its letters, exactly when it is no such text with something behind it. -/
theorem base_texts_strict_iff (s : List UInt8) :
    (((decodeBase64 s).2 = false → encodeBase64 (decodeBase64 s).1 = s) ↔
      ¬∃ v c t, s = encodeBase64 v ++ c :: t ∧ decode64Table c = none) ∧
    (((decodeBase32 s).2 = false →
        (encodeBase32 (decodeBase32 s).1).map lowerCase = s.map lowerCase) ↔
      ¬∃ v c t, s.map lowerCase = encodeBase32 v ++ c :: t ∧ decode32Table c = none) := by
  have h64 := Base64.codec64.strict_iff s
  have h32 := codec32.strict_iff s
  rw [funext Base64.canonical64,List.map_id'] at h64
  rw [funext canonical32] at h32
  rw [encodeBase32_lowerCase]
  exact ⟨h64,h32⟩

/-- `QUJD!` in base 64 and `MFRGGZDF!` in base 32. -/
theorem base_texts_not_strict :
    (¬∀ s : List UInt8, 0 ∉ s →
      (decodeBase64 s).2 = false → encodeBase64 (decodeBase64 s).1 = s) ∧
    ¬∀ s : List UInt8, 0 ∉ s → (decodeBase32 s).2 = false →
      (encodeBase32 (decodeBase32 s).1).map lowerCase = s.map lowerCase := by
  constructor
  · intro h
    exact absurd (h [81,85,74,68,33] (by decide) (by decide)) (by decide)
  · intro h
    exact absurd (h [77,70,82,71,71,90,68,70,33] (by decide) (by decide)) (by decide)

end Anoncoin
