import Mathlib.Data.List.DropRight
import Anoncoin.Block
import Anoncoin.Lib.Radix
import Anoncoin.Lib.Text

/-!
Base58 (base58.cpp): the conversion in buffers of an estimated length, and the form with a
checksum. No result means that an assertion fails.
-/

set_option autoImplicit false

namespace Anoncoin
open Lib

/-- All alphanumeric characters except for "0", "I", "O", and "l". -/
def pszBase58 : List Char := "123456789ABCDEFGHJKLMNPQRSTUVWXYZabcdefghijkmnopqrstuvwxyz".toList

def base58Char (digit : Nat) : Char := pszBase58.getD digit '1'

/-- `strchr` in the alphabet. -/
def base58Digit (c : Char) : Option Nat := pszBase58.findIdx? (· == c)

/-- The loop of `EncodeBase58` over the bytes after the zeros. -/
def encodeLoop : List UInt8 → List Nat → Option (List Nat)
  | [],b58 => some b58
  | byte :: bytes,b58 =>
      let r := mulAdd 58 256 b58 byte.toNat
      if r.2 = 0 then encodeLoop bytes r.1 else none

def encodeBase58 (vch : List UInt8) : Option (List Char) :=
  let zeroes := (vch.takeWhile (· == 0)).length
  let rest := vch.dropWhile (· == 0)
  (encodeLoop rest (List.replicate (rest.length*138/100+1) 0)).map fun b58 =>
    List.replicate zeroes '1' ++ (b58.dropWhile (· == 0)).map base58Char

/-- The loop of `DecodeBase58` over the characters up to the next space. The inner result is
missing where a character is not in the alphabet. -/
def decodeLoop : List Char → List Nat → Option (Option (List Nat))
  | [],b256 => some (some b256)
  | c :: rest,b256 =>
      match base58Digit c with
      | none => some none
      | some digit =>
          let r := mulAdd 256 58 b256 digit
          if r.2 = 0 then decodeLoop rest r.1 else none

/-- `DecodeBase58` on a C string; the inner result is missing where it returns false. -/
def decodeBase58 (psz : List Char) : Option (Option (List UInt8)) :=
  let psz := psz.dropWhile isSpace
  let zeroes := (psz.takeWhile (· == '1')).length
  let psz := psz.dropWhile (· == '1')
  (decodeLoop (psz.takeWhile fun c => !isSpace c) (List.replicate (psz.length*733/1000+1) 0)).map
    fun result =>
      match result with
      | none => none
      | some b256 =>
          if ((psz.dropWhile fun c => !isSpace c).dropWhile isSpace).isEmpty then
            some (List.replicate zeroes 0 ++ (b256.dropWhile (· == 0)).map UInt8.ofNat)
          else none

/-- The characters of a string up to its first NUL. -/
def cStr (str : List Char) : List Char := str.takeWhile (· != Char.ofNat 0)

/-- `DecodeBase58` on a `std::string`. -/
def decodeBase58Str (str : List Char) : Option (Option (List UInt8)) := decodeBase58 (cStr str)

section Check
variable (hash : List UInt8 → Uint256)

/-- The first four bytes of a hash in memory. -/
def checksum (vch : List UInt8) : List UInt8 := (littleEndian 32 (hash vch).toNat).take 4

def encodeBase58Check (vchIn : List UInt8) : Option (List Char) :=
  encodeBase58 (vchIn ++ checksum hash vchIn)

def decodeBase58Check (psz : List Char) : Option (Option (List UInt8)) :=
  (decodeBase58 psz).map fun result =>
    match result with
    | none => none
    | some vchRet =>
        if vchRet.length < 4 then none
        else if checksum hash (vchRet.take (vchRet.length-4)) ≠ vchRet.drop (vchRet.length-4) then
          none
        else some (vchRet.take (vchRet.length-4))

/-- `DecodeBase58Check` on a `std::string`. -/
def decodeBase58CheckStr (str : List Char) : Option (Option (List UInt8)) :=
  decodeBase58Check hash (cStr str)

end Check

section Alphabet

theorem base58Digit_base58Char {d : Nat} (h : d < 58) : base58Digit (base58Char d) = some d := by
  have hall : ∀ d : Fin 58, base58Digit (base58Char d) = some d.val := by decide +kernel
  exact hall ⟨d,h⟩

theorem base58Digit_eq_some {c : Char} {d : Nat} (h : base58Digit c = some d) :
    d < 58 ∧ base58Char d = c := by
  obtain ⟨hlt,hc,-⟩ := List.findIdx?_eq_some_iff_getElem.mp h
  refine ⟨hlt,?_⟩
  unfold base58Char
  rw [List.getD_eq_getElem?_getD,List.getElem?_eq_getElem hlt]
  simpa using hc

theorem base58Char_not_space {d : Nat} (h : d < 58) : isSpace (base58Char d) = false := by
  have hall : ∀ d : Fin 58, isSpace (base58Char d) = false := by decide +kernel
  exact hall ⟨d,h⟩

theorem base58Char_eq_one {d : Nat} (h : d < 58) : base58Char d = '1' ↔ d = 0 := by
  have hall : ∀ d : Fin 58, base58Char d = '1' ↔ d = 0 := by decide +kernel
  have hd := hall ⟨d,h⟩
  rw [hd,Fin.ext_iff]
  rfl

end Alphabet

section Loops

/-- The bytes as digits. -/
def byteDigits (bytes : List UInt8) : List Nat := bytes.map UInt8.toNat

theorem byteDigits_lt {bytes : List UInt8} : ∀ d ∈ byteDigits bytes, d < 256 := by
  intro d hd
  obtain ⟨byte,-,rfl⟩ := List.mem_map.mp hd
  exact byte.toNat_lt

theorem encodeLoop_spec {bytes : List UInt8} {b58 : List Nat} (hlt : ∀ d ∈ b58, d < 58)
    (hroom : (radixValue 58 b58+1)*256^bytes.length ≤ 58^b58.length) :
    ∃ b58', encodeLoop bytes b58 = some b58' ∧ (∀ d ∈ b58', d < 58) ∧
      radixValue 58 b58' = 256^bytes.length*radixValue 58 b58+radixValue 256 (byteDigits bytes) := by
  induction bytes generalizing b58 with
  | nil => exact ⟨b58,rfl,hlt,by simp [byteDigits,radixValue]⟩
  | cons byte bytes ih =>
    obtain ⟨hcarry,hvalue,hroom'⟩ := mulAdd_room byte.toNat_lt hroom
    obtain ⟨b58',hloop,hlt',hvalue'⟩ := ih (mulAdd_lt (by decide) 256 b58 byte.toNat) hroom'
    refine ⟨b58',?_,hlt',?_⟩
    · rw [encodeLoop]
      simp only [hcarry,if_true]
      exact hloop
    · rw [hvalue',hvalue]
      simp only [byteDigits,List.map_cons,radixValue_cons,List.length_map,List.length_cons]
      ring

/-- In a buffer with room, the loop comes to a character that is not in the alphabet, or has all
digits in the end. -/
theorem decodeLoop_spec {psz : List Char} {b256 : List Nat} (hlt : ∀ d ∈ b256, d < 256)
    (hroom : (radixValue 256 b256+1)*58^psz.length ≤ 256^b256.length) :
    ((∃ c ∈ psz, base58Digit c = none) ∧ decodeLoop psz b256 = some none) ∨ ∃ digits b256', psz = digits.map base58Char ∧
      (∀ d ∈ digits, d < 58) ∧ decodeLoop psz b256 = some (some b256') ∧ (∀ d ∈ b256', d < 256) ∧
      radixValue 256 b256' = 58^psz.length*radixValue 256 b256+radixValue 58 digits := by
  induction psz generalizing b256 with
  | nil => exact .inr ⟨[],b256,rfl,by simp,rfl,hlt,by simp [radixValue]⟩
  | cons c rest ih =>
    rw [decodeLoop]
    cases hdigit : base58Digit c with
    | none => exact .inl ⟨⟨c,List.mem_cons_self,hdigit⟩,rfl⟩
    | some digit =>
      obtain ⟨hd,hc⟩ := base58Digit_eq_some hdigit
      obtain ⟨hcarry,hvalue,hroom'⟩ := mulAdd_room hd hroom
      simp only [hcarry,if_true]
      rcases ih (mulAdd_lt (by decide) 58 b256 digit) hroom' with
        ⟨⟨x,hx,hxnone⟩,hnone⟩ | ⟨digits,b256',hrest,hds,hloop,hlt',hvalue'⟩
      · exact .inl ⟨⟨x,List.mem_cons_of_mem _ hx,hxnone⟩,hnone⟩
      · refine .inr ⟨digit :: digits,b256',by rw [List.map_cons,hc,hrest],?_,hloop,hlt',?_⟩
        · intro d hd'
          rcases List.mem_cons.mp hd' with rfl | hd'
          · exact hd
          · exact hds d hd'
        · rw [hvalue',hvalue,hrest]
          simp only [List.length_cons,List.length_map,radixValue_cons]
          ring

theorem radixValue_replicate (b n : Nat) : radixValue b (List.replicate n 0) = 0 := by
  induction n with
  | zero => rfl
  | succ n ih => rw [List.replicate_succ,radixValue_cons,ih,Nat.mul_zero]

theorem replicate_lt {b : Nat} (hb : 0 < b) (n : Nat) : ∀ d ∈ List.replicate n 0, d < b := by
  intro d hd
  rw [List.eq_of_mem_replicate hd]
  exact hb

end Loops

section Estimates

/-- The estimate of the length in base 58. -/
theorem base58_room (n : Nat) : 256^n ≤ 58^(n*138/100+1) :=
  (pow_lt_pow_of_ratio (by decide) (by decide) (by decide +kernel) n).le

/-- The estimate of the length in base 256. -/
theorem base256_room {k n : Nat} (h : k ≤ n) : 58^k ≤ 256^(n*733/1000+1) :=
  (Nat.pow_le_pow_right (by decide) h).trans
    (pow_lt_pow_of_ratio (by decide) (by decide) (by decide +kernel) n).le

end Estimates

section Codec

/-- The characters of a number, most significant first and without zeros in front. -/
def base58Text (n : Nat) : List Char := (Nat.digits 58 n).reverse.map base58Char

/-- The bytes of a number, most significant first and without zeros in front. -/
def base256Bytes (n : Nat) : List UInt8 := (Nat.digits 256 n).reverse.map UInt8.ofNat

/-- `EncodeBase58` passes its assertions: zeros become ones, and what follows is written as a
number. -/
theorem encodeBase58_eq (zeroes : Nat) {rest : List UInt8} (hrest : rest.head? ≠ some 0) :
    encodeBase58 (List.replicate zeroes 0 ++ rest) =
      some (List.replicate zeroes '1' ++ base58Text (radixValue 256 (byteDigits rest))) := by
  obtain ⟨htake,hdrop⟩ := takeWhile_replicate_append zeroes hrest
  have hroom : (radixValue 58 (List.replicate (rest.length*138/100+1) 0)+1)*256^rest.length ≤
      58^(List.replicate (rest.length*138/100+1) 0).length := by
    rw [radixValue_replicate,Nat.zero_add,Nat.one_mul,List.length_replicate]
    exact base58_room rest.length
  obtain ⟨b58,hloop,hlt,hvalue⟩ := encodeLoop_spec (replicate_lt (by decide) _) hroom
  rw [radixValue_replicate,Nat.mul_zero,Nat.zero_add] at hvalue
  unfold encodeBase58 base58Text
  simp only [htake,hdrop,List.length_replicate]
  rw [hloop,Option.map_some,dropWhile_zero_eq (by decide) hlt,hvalue]

theorem byteDigits_base256Bytes (n : Nat) : byteDigits (base256Bytes n) = (Nat.digits 256 n).reverse := by
  unfold byteDigits base256Bytes
  rw [List.map_map]
  conv_rhs => rw [← List.map_id (Nat.digits 256 n).reverse]
  apply List.map_congr_left
  intro d hd
  exact UInt8.toNat_ofNat_of_lt (Nat.digits_lt_base (by decide) (List.mem_reverse.mp hd))

theorem base256Bytes_byteDigits {rest : List UInt8} (h : rest.head? ≠ some 0) :
    base256Bytes (radixValue 256 (byteDigits rest)) = rest := by
  have hfirst : (byteDigits rest).head? ≠ some 0 := by
    cases rest with
    | nil => simp [byteDigits]
    | cons byte rest =>
      intro hzero
      apply h
      have hbyte : byte.toNat = 0 := Option.some.inj hzero
      rw [List.head?_cons,UInt8.toNat_inj.mp (hbyte.trans UInt8.toNat_zero.symm)]
  unfold base256Bytes
  rw [digits_radixValue (by decide) byteDigits_lt hfirst]
  unfold byteDigits
  rw [List.map_map]
  conv_rhs => rw [← List.map_id rest]
  apply List.map_congr_left
  intro byte _
  exact UInt8.ofNat_toNat

/-- Without the spaces around it. -/
def trim (str : List Char) : List Char := (str.dropWhile isSpace).rdropWhile isSpace

theorem trim_append {token spaces : List Char} (htoken : ∀ c ∈ token, isSpace c = false)
    (hspaces : ∀ c ∈ spaces, isSpace c = true) :
    (token ++ spaces).rdropWhile isSpace = token := by
  unfold List.rdropWhile
  rw [List.reverse_append,
    List.dropWhile_append_of_pos fun c hc => hspaces c (List.mem_reverse.mp hc)]
  cases hr : token.reverse with
  | nil => simpa using hr.symm
  | cons c rest =>
    have hc : c ∈ token := List.mem_reverse.mp (hr ▸ List.mem_cons_self)
    rw [List.dropWhile_cons_of_neg (by simp [htoken c hc]),← hr,List.reverse_reverse]

theorem mem_dropWhile_space {psz : List Char}
    (h : (psz.dropWhile isSpace).isEmpty = true) : ∀ c ∈ psz, isSpace c = true :=
  List.dropWhile_eq_nil_iff.mp (List.isEmpty_iff.mp h)

/-- The text after the spaces in front and the run of ones. -/
def afterOnes (psz : List Char) : List Char := (psz.dropWhile isSpace).dropWhile (· == '1')

/-- `DecodeBase58` passes its assertions: the characters up to the next space are the digits of a
number, or one of them is not in the alphabet. -/
theorem decodeBase58_spec (psz : List Char) :
    ((∃ c ∈ (afterOnes psz).takeWhile fun c => !isSpace c, base58Digit c = none) ∧
      decodeBase58 psz = some none) ∨
    ∃ digits, ((afterOnes psz).takeWhile fun c => !isSpace c) = digits.map base58Char ∧
      (∀ d ∈ digits, d < 58) ∧ decodeBase58 psz = some
        (if (((afterOnes psz).dropWhile fun c => !isSpace c).dropWhile isSpace).isEmpty then
          some (List.replicate ((psz.dropWhile isSpace).takeWhile (· == '1')).length 0 ++
            base256Bytes (radixValue 58 digits))
        else none) := by
  have hlength : ((afterOnes psz).takeWhile fun c => !isSpace c).length ≤ (afterOnes psz).length :=
    (List.takeWhile_prefix _).length_le
  have hroom : (radixValue 256 (List.replicate ((afterOnes psz).length*733/1000+1) 0)+1)*
      58^((afterOnes psz).takeWhile fun c => !isSpace c).length ≤
      256^(List.replicate ((afterOnes psz).length*733/1000+1) 0).length := by
    rw [radixValue_replicate,Nat.zero_add,Nat.one_mul,List.length_replicate]
    exact base256_room hlength
  unfold decodeBase58
  rcases decodeLoop_spec (replicate_lt (by decide) _) hroom with
    ⟨hbad,hloop⟩ | ⟨digits,b256,htoken,hdigits,hloop,hlt,hvalue⟩
  · refine .inl ⟨hbad,?_⟩
    unfold afterOnes at hloop
    simp only [hloop,Option.map_some]
  · refine .inr ⟨digits,htoken,hdigits,?_⟩
    rw [radixValue_replicate,Nat.mul_zero,Nat.zero_add] at hvalue
    unfold afterOnes at hloop ⊢
    simp only [hloop,Option.map_some]
    rw [dropWhile_zero_eq (by decide) hlt,hvalue]
    rfl

theorem decodeBase58_total (psz : List Char) : ∃ result, decodeBase58 psz = some result := by
  rcases decodeBase58_spec psz with ⟨-,h⟩ | ⟨digits,-,-,h⟩
  · exact ⟨_,h⟩
  · exact ⟨_,h⟩

theorem map_base58Char_inj {ds ds' : List Nat} (h : ∀ d ∈ ds, d < 58) (h' : ∀ d ∈ ds', d < 58)
    (heq : ds.map base58Char = ds'.map base58Char) : ds = ds' := by
  have hback : ∀ ds : List Nat, (∀ d ∈ ds, d < 58) →
      (ds.map base58Char).map base58Digit = ds.map some := by
    intro ds hds
    rw [List.map_map]
    apply List.map_congr_left
    intro d hd
    exact base58Digit_base58Char (hds d hd)
  have hsome := congrArg (List.map base58Digit) heq
  rw [hback ds h,hback ds' h'] at hsome
  exact List.map_injective_iff.mpr (Option.some_injective _) hsome

theorem head?_map_base58Char {ds : List Nat} (h : ∀ d ∈ ds, d < 58) :
    (ds.map base58Char).head? = some '1' ↔ ds.head? = some 0 := by
  cases ds with
  | nil => simp
  | cons d ds => simp [base58Char_eq_one (h d List.mem_cons_self)]

theorem map_base58Char_not_space {ds : List Nat} (h : ∀ d ∈ ds, d < 58) :
    ∀ c ∈ ds.map base58Char, isSpace c = false := by
  intro c hc
  obtain ⟨d,hd,rfl⟩ := List.mem_map.mp hc
  exact base58Char_not_space (h d hd)

/-- A run of ones and then digits is read as zeros and then a number. -/
theorem decodeBase58_text (ones : Nat) {digits : List Nat} (hdigits : ∀ d ∈ digits, d < 58)
    (hfirst : digits.head? ≠ some 0) :
    decodeBase58 (List.replicate ones '1' ++ digits.map base58Char) =
      some (some (List.replicate ones 0 ++ base256Bytes (radixValue 58 digits))) := by
  have hplain := map_base58Char_not_space hdigits
  have hspaces : (List.replicate ones '1' ++ digits.map base58Char).dropWhile isSpace =
      List.replicate ones '1' ++ digits.map base58Char := by
    apply List.dropWhile_eq_self_iff.mpr
    intro hl
    have hmem := List.getElem_mem hl
    rcases List.mem_append.mp hmem with hone | hdigit
    · rw [List.eq_of_mem_replicate hone]
      decide
    · rw [hplain _ hdigit]
      decide
  obtain ⟨htake,hdrop⟩ := takeWhile_replicate_append ones
    (mt (head?_map_base58Char hdigits).mp hfirst)
  have hafter : afterOnes (List.replicate ones '1' ++ digits.map base58Char) =
      digits.map base58Char := by
    unfold afterOnes
    rw [hspaces,hdrop]
  have htoken : ((digits.map base58Char).takeWhile fun c => !isSpace c) = digits.map base58Char := by
    apply List.takeWhile_eq_self_iff.mpr
    intro c hc
    rw [hplain c hc]
    rfl
  have hend : ((digits.map base58Char).dropWhile fun c => !isSpace c) = [] := by
    apply List.dropWhile_eq_nil_iff.mpr
    intro c hc
    rw [hplain c hc]
    rfl
  rcases decodeBase58_spec (List.replicate ones '1' ++ digits.map base58Char) with
    ⟨⟨c,hc,hbad⟩,-⟩ | ⟨digits',heq,hdigits',hdecode⟩
  · rw [hafter,htoken] at hc
    obtain ⟨d,hd,rfl⟩ := List.mem_map.mp hc
    rw [base58Digit_base58Char (hdigits d hd)] at hbad
    contradiction
  · rw [hafter,htoken] at heq
    rw [hdecode,hafter,hend,hspaces,htake,List.length_replicate,
      map_base58Char_inj hdigits hdigits' heq]
    rfl

/-- A text that is accepted is a run of ones and then digits, with spaces around them. -/
theorem decodeBase58_accepts {psz : List Char} {vch : List UInt8}
    (h : decodeBase58 psz = some (some vch)) :
    ∃ ones digits, (∀ d ∈ digits, d < 58) ∧ digits.head? ≠ some 0 ∧
      trim psz = List.replicate ones '1' ++ digits.map base58Char ∧
      vch = List.replicate ones 0 ++ base256Bytes (radixValue 58 digits) := by
  rcases decodeBase58_spec psz with ⟨-,hnone⟩ | ⟨digits,htoken,hdigits,hdecode⟩
  · rw [hnone] at h
    exact absurd (Option.some.inj h) (Option.some_ne_none vch).symm
  · have hsplit : digits.map base58Char ++ ((afterOnes psz).dropWhile fun c => !isSpace c) =
        afterOnes psz := by
      rw [← htoken]
      exact List.takeWhile_append_dropWhile
    rw [hdecode] at h
    split_ifs at h with hend
    · refine ⟨_,digits,hdigits,?_,?_,(Option.some.inj (Option.some.inj h)).symm⟩
      · intro hzero
        have hone := (head?_map_base58Char hdigits).mpr hzero
        apply head?_dropWhile_beq '1' (psz.dropWhile isSpace)
        show (afterOnes psz).head? = some '1'
        rw [← hsplit,List.head?_append,hone]
        rfl
      · have hones : ∀ c ∈ List.replicate ((psz.dropWhile isSpace).takeWhile (· == '1')).length '1' ++
            digits.map base58Char, isSpace c = false := by
          intro c hc
          rcases List.mem_append.mp hc with hone | hdigit
          · rw [List.eq_of_mem_replicate hone]
            decide
          · exact map_base58Char_not_space hdigits c hdigit
        have hpsz : psz.dropWhile isSpace =
            (List.replicate ((psz.dropWhile isSpace).takeWhile (· == '1')).length '1' ++
              digits.map base58Char) ++ ((afterOnes psz).dropWhile fun c => !isSpace c) := by
          rw [List.append_assoc,hsplit,← takeWhile_beq_eq]
          exact List.takeWhile_append_dropWhile.symm
        unfold trim
        rw [hpsz,trim_append hones (mem_dropWhile_space hend),← hpsz]
    · exact absurd (Option.some.inj h) (Option.some_ne_none vch).symm

/-- Every byte string is zeros and then bytes that do not start with zero. -/
theorem exists_zeros (vch : List UInt8) :
    ∃ zeroes rest, rest.head? ≠ some 0 ∧ vch = List.replicate zeroes 0 ++ rest := by
  refine ⟨(vch.takeWhile (· == 0)).length,vch.dropWhile (· == 0),head?_dropWhile_beq 0 vch,?_⟩
  rw [← takeWhile_beq_eq]
  exact List.takeWhile_append_dropWhile.symm

/-- The text of a number has no NUL. -/
theorem cStr_text (ones : Nat) {digits : List Nat} (hdigits : ∀ d ∈ digits, d < 58) :
    cStr (List.replicate ones '1' ++ digits.map base58Char) =
      List.replicate ones '1' ++ digits.map base58Char := by
  have hall : ∀ d : Fin 58, (base58Char d != Char.ofNat 0) = true := by decide +kernel
  apply List.takeWhile_eq_self_iff.mpr
  intro c hc
  rcases List.mem_append.mp hc with hone | hdigit
  · rw [List.eq_of_mem_replicate hone]
    decide
  · obtain ⟨d,hd,rfl⟩ := List.mem_map.mp hdigit
    exact hall ⟨d,hdigits d hd⟩

theorem decodeBase58_encodeBase58 (vch : List UInt8) :
    ∃ str, encodeBase58 vch = some str ∧ cStr str = str ∧ decodeBase58 str = some (some vch) := by
  obtain ⟨zeroes,rest,hrest,rfl⟩ := exists_zeros vch
  have hdigits : ∀ d ∈ (Nat.digits 58 (radixValue 256 (byteDigits rest))).reverse, d < 58 := by
    intro d hd
    exact Nat.digits_lt_base (by decide) (List.mem_reverse.mp hd)
  refine ⟨_,encodeBase58_eq zeroes hrest,cStr_text zeroes hdigits,?_⟩
  unfold base58Text
  rw [decodeBase58_text zeroes hdigits (head?_digits 58 _),radixValue_digits,
    base256Bytes_byteDigits hrest]

theorem head?_base256Bytes (n : Nat) : (base256Bytes n).head? ≠ some 0 := by
  have hfirst := head?_digits 256 n
  rw [← byteDigits_base256Bytes] at hfirst
  cases hbytes : base256Bytes n with
  | nil => simp
  | cons byte rest =>
    intro hzero
    rw [hbytes] at hfirst
    have hbyte : byte = 0 := Option.some.inj hzero
    apply hfirst
    rw [hbyte]
    rfl

theorem encodeBase58_of_accepted {psz : List Char} {vch : List UInt8}
    (h : decodeBase58 psz = some (some vch)) : encodeBase58 vch = some (trim psz) := by
  obtain ⟨ones,digits,hdigits,hfirst,htrim,rfl⟩ := decodeBase58_accepts h
  rw [encodeBase58_eq ones (head?_base256Bytes _),byteDigits_base256Bytes,radixValue_digits,htrim]
  unfold base58Text
  rw [digits_radixValue (by decide) hdigits hfirst]

theorem length_checksum (hash : List UInt8 → Uint256) (vch : List UInt8) :
    (checksum hash vch).length = 4 := by
  unfold checksum
  rw [List.length_take,littleEndian_length]
  rfl

theorem decodeBase58Check_encodeBase58Check (hash : List UInt8 → Uint256) (vch : List UInt8) :
    ∃ str, encodeBase58Check hash vch = some str ∧
      decodeBase58CheckStr hash str = some (some vch) := by
  obtain ⟨str,hencode,htext,hdecode⟩ := decodeBase58_encodeBase58 (vch ++ checksum hash vch)
  have hsum := length_checksum hash vch
  have hlength : (vch ++ checksum hash vch).length-4 = vch.length := by
    rw [List.length_append]
    omega
  refine ⟨str,hencode,?_⟩
  unfold decodeBase58CheckStr decodeBase58Check
  rw [htext,hdecode,Option.map_some]
  simp only [hlength,List.take_left,List.drop_left]
  rw [if_neg (by rw [List.length_append]; omega),if_neg (by simp)]

end Codec

/-- The codec: what is encoded is decoded again, with and without a checksum; what is decoded from
a string is encoded as the string up to its first NUL without the spaces around it; and no
assertion fails. -/
theorem base58_codec :
    (∀ vch, ∃ str, encodeBase58 vch = some str ∧ decodeBase58Str str = some (some vch)) ∧
    (∀ str vch, decodeBase58Str str = some (some vch) →
      encodeBase58 vch = some (trim (cStr str))) ∧
    (∀ psz, ∃ result, decodeBase58 psz = some result) ∧
    ∀ hash vch, ∃ str, encodeBase58Check hash vch = some str ∧
      decodeBase58CheckStr hash str = some (some vch) := by
  refine ⟨?_,fun str vch h => encodeBase58_of_accepted h,decodeBase58_total,
    decodeBase58Check_encodeBase58Check⟩
  intro vch
  obtain ⟨str,hencode,htext,hdecode⟩ := decodeBase58_encodeBase58 vch
  refine ⟨str,hencode,?_⟩
  unfold decodeBase58Str
  rw [htext,hdecode]

/-- A string with a NUL in it is accepted for the part before the NUL. -/
theorem decodeBase58Str_nul : ¬∀ str vch, decodeBase58Str str = some (some vch) →
    encodeBase58 vch = some (trim str) := by
  intro h
  have hencode := h ['1',Char.ofNat 0,'0'] [0] (by decide +kernel)
  exact absurd hencode (by decide +kernel)

end Anoncoin
