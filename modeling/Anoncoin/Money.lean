import Mathlib.Data.List.GetD
import Anoncoin.AccountingEntry
import Anoncoin.CoinSelection
import Anoncoin.Lib.Decimal

/-!
Amounts as text (amount.cpp): what `FormatMoney` writes, and which strings `ParseMoney` takes
for which amounts.
-/

set_option autoImplicit false

namespace Anoncoin
open Lib

/-- The trimming loop of `FormatMoney`; `none` is an index outside of the string. -/
def trimmedZeros (str : List Char) : Nat → Option Nat
  | i+2 => do
      let last ← str[i+2]?
      if last = '0' then do
        let before ← str[i]?
        if before.isDigit then do
          let nTrim ← trimmedZeros str (i+1)
          pure (nTrim+1)
        else pure 0
      else pure 0
  | i => do
      let last ← str[i]?
      if last = '0' then none else pure 0

/-- `FormatMoney`; `none` also when the amount cannot be negated. -/
def formatMoney (n : Int) (fPlus : Bool) : Option (List UInt8) := do
  guard (n ≠ -2^63)
  let n_abs := if n > 0 then n else -n
  let quotient := n_abs/COIN
  let remainder := n_abs%COIN
  let str := Nat.toDigits 10 quotient.toNat ++ '.' :: padded 8 remainder.toNat
  let nTrim ← trimmedZeros str (str.length-1)
  let str := str.take (str.length-nTrim)
  let str := if n < 0 then '-' :: str else if fPlus ∧ n > 0 then '+' :: str else str
  pure (str.map Char.toUInt8)

inductive MoneyFailure where
  | malformed
  | overflow
  deriving DecidableEq, Repr

/-- A result of `int64_t` arithmetic. -/
def fitInt64 (x : Int) : Except MoneyFailure Int :=
  if -2^63 ≤ x ∧ x < 2^63 then .ok x else .error .overflow

/-- The digits behind the point. -/
def parseUnits (nMult nUnits : Int) : List Char → Except MoneyFailure (Int × List Char)
  | [] => .ok (nUnits,[])
  | c :: p =>
      if c.isDigit ∧ nMult > 0 then do
        let product ← fitInt64 (nMult*(c.toNat - '0'.toNat : Int))
        let nUnits ← fitInt64 (nUnits+product)
        parseUnits (nMult.tdiv 10) nUnits p
      else .ok (nUnits,c :: p)

/-- The loop of `ParseMoney`: the whole digits, the units and what is left. -/
def parseWhole (strWhole : List Char) :
    List Char → Except MoneyFailure (List Char × Int × List Char)
  | [] => .ok (strWhole,0,[])
  | c :: p =>
      if c = '.' then do
        let (nUnits,p) ← parseUnits (CENT*10) 0 p
        .ok (strWhole,nUnits,p)
      else if isSpace c then .ok (strWhole,0,c :: p)
      else if ¬c.isDigit then .error .malformed
      else parseWhole (strWhole ++ [c]) p

/-- `ParseMoney` of the characters up to the NUL. -/
def parseMoneyText (pszIn : List Char) : Except MoneyFailure Int := do
  let (strWhole,nUnits,p) ← parseWhole [] (pszIn.dropWhile isSpace)
  if ¬p.all isSpace then .error .malformed
  else if strWhole.length > 10 then .error .malformed
  else if nUnits < 0 ∨ nUnits > COIN then .error .malformed
  else do
    let nWhole := (atoi64 (strWhole.map Char.toUInt8)).toInt
    let product ← fitInt64 (nWhole*COIN)
    fitInt64 (product+nUnits)

/-- `ParseMoney` of a string. -/
def parseMoney (str : List UInt8) : Except MoneyFailure Int := parseMoneyText (bytesText str)

/-- The texts of amounts: a numeral of at most ten whole digits and eight places, which may
lack its point when there are no places, with spaces around it. -/
structure MoneyText extends Numeral where
  point : Bool
  before : List Char
  behind : List Char
  whole_le : whole.length ≤ 10
  units_le : units.length ≤ 8
  units_nil : point = false → units = []
  before_space : ∀ c ∈ before, isSpace c = true
  behind_space : ∀ c ∈ behind, isSpace c = true

def MoneyText.text (t : MoneyText) : List Char :=
  t.before ++ t.whole ++ (if t.point then '.' :: t.units else []) ++ t.behind

section Parse

theorem fitInt64_eq {n : Nat} (h : n < 2^63) : fitInt64 n = .ok (n : Int) :=
  if_pos (by omega)

theorem parseUnits_cons {c : Char} {p : List Char} {nMult nUnits product sum : Int}
    (hdigit : c.isDigit = true) (hmult : nMult > 0)
    (hproduct : fitInt64 (nMult*(c.toNat - '0'.toNat : Int)) = .ok product)
    (hsum : fitInt64 (nUnits+product) = .ok sum) :
    parseUnits nMult nUnits (c :: p) = parseUnits (nMult.tdiv 10) sum p := by
  rw [parseUnits,if_pos ⟨hdigit,hmult⟩,hproduct]
  simp only [bind,Except.bind]
  rw [hsum]

/-- The digits that `k` places have room for. -/
def places (k : Nat) (p : List Char) : List Char := (p.takeWhile Char.isDigit).take k

theorem isDigit_of_mem_places {k : Nat} {p : List Char} {c : Char} (h : c ∈ places k p) :
    c.isDigit = true := List.mem_takeWhile_imp (List.mem_of_mem_take h)

theorem length_places_le (k : Nat) (p : List Char) : (places k p).length ≤ k :=
  List.length_take_le _ _

theorem places_append_drop (k : Nat) (p : List Char) :
    places k p ++ p.drop (places k p).length = p := by
  have hprefix : places k p <+: p := (List.take_prefix _ _).trans (List.takeWhile_prefix _)
  exact (List.prefix_iff_eq_append.mp hprefix)

theorem parseUnits_eq (k nUnits : Nat) (p : List Char) (h : nUnits+10^k ≤ 10^8) :
    parseUnits ((10^k/10 : Nat) : Int) nUnits p =
      .ok (((nUnits+digitsValue (places k p)*10^(k-(places k p).length) : Nat) : Int),
        p.drop (places k p).length) := by
  induction p generalizing k nUnits with
  | nil => simp [parseUnits,places,digitsValue]
  | cons c p ih =>
    by_cases hc : c.isDigit = true ∧ 0 < k
    · obtain ⟨hdigit,hk⟩ := hc
      obtain ⟨j,rfl⟩ : ∃ j, k = j+1 := ⟨k-1,by omega⟩
      have hbounds := isDigit_bounds hdigit
      obtain ⟨d,hd⟩ : ∃ d, c.toNat = 48+d := Nat.exists_eq_add_of_le hbounds.1
      have hmul : 10^j*d ≤ 10^j*9 := Nat.mul_le_mul_left _ (by omega)
      have hpos : 0 < 10^j := Nat.pow_pos (by decide)
      have hten : 10^(j+1)/10 = 10^j := by rw [pow_succ,Nat.mul_div_cancel _ (by decide)]
      have hplaces : places (j+1) (c :: p) = c :: places j p := by simp [places,hdigit]
      rw [pow_succ] at h
      have hvalue : nUnits+10^j*d+digitsValue (places j p)*10^(j-(places j p).length) =
          nUnits+digitsValue (c :: places j p)*10^(j+1-(c :: places j p).length) := by
        obtain ⟨i,hi⟩ := Nat.exists_eq_add_of_le (length_places_le j p)
        have hpow : 10^j = 10^(places j p).length*10^i := by rw [← pow_add,← hi]
        rw [← List.singleton_append,digitsValue_append,digitsValue_singleton,hd,
          List.length_append,List.length_singleton,show j-(places j p).length = i by omega,
          show j+1-(1+(places j p).length) = i by omega,Nat.add_sub_cancel_left,hpow]
        ring
      have hproduct : fitInt64 (((10^j : Nat) : Int)*(c.toNat - '0'.toNat : Int)) =
          .ok ((10^j*d : Nat) : Int) := by
        rw [hd,show ((48+d : Nat) : Int)-('0'.toNat : Int) = (d : Int) by simp,← Nat.cast_mul]
        exact fitInt64_eq (by omega)
      have htdiv : ((10^j : Nat) : Int).tdiv 10 = ((10^j/10 : Nat) : Int) := by
        rw [Int.natCast_tdiv_eq_ediv,Int.natCast_ediv]
        rfl
      have hsum : fitInt64 ((nUnits : Int)+((10^j*d : Nat) : Int)) =
          .ok ((nUnits+10^j*d : Nat) : Int) := by
        rw [← Nat.cast_add]
        exact fitInt64_eq (by omega)
      rw [hten,parseUnits_cons hdigit (by exact_mod_cast hpos) hproduct hsum,htdiv,
        ih _ _ (by omega),hvalue,hplaces]
      rfl
    · have hplaces : places k (c :: p) = [] := by
        by_cases hdigit : c.isDigit = true
        · have hk : k = 0 := Nat.eq_zero_of_not_pos fun hk => hc ⟨hdigit,hk⟩
          simp [places,hk]
        · simp [places,hdigit]
      have hstop : ¬(c.isDigit = true ∧ ((10^k/10 : Nat) : Int) > 0) := by
        rintro ⟨hdigit,hmult⟩
        refine hc ⟨hdigit,Nat.pos_of_ne_zero ?_⟩
        rintro rfl
        exact absurd hmult (by decide)
      rw [parseUnits,if_neg hstop,hplaces]
      simp [digitsValue]

/-- What `ParseMoney` finds in a text without spaces before it. -/
theorem parseWhole_eq (strWhole p : List Char) : parseWhole strWhole p =
    match p.dropWhile Char.isDigit with
    | [] => .ok (strWhole ++ p.takeWhile Char.isDigit,0,[])
    | c :: q =>
        if c = '.' then
          .ok (strWhole ++ p.takeWhile Char.isDigit,
            ((digitsValue (places 8 q)*10^(8-(places 8 q).length) : Nat) : Int),
            q.drop (places 8 q).length)
        else if isSpace c then .ok (strWhole ++ p.takeWhile Char.isDigit,0,c :: q)
        else .error .malformed := by
  induction p generalizing strWhole with
  | nil => simp [parseWhole]
  | cons c p ih =>
    by_cases hdigit : c.isDigit = true
    · have hpoint : c ≠ '.' := by
        rintro rfl
        exact absurd hdigit (by decide)
      rw [parseWhole,if_neg hpoint,isSpace_of_isDigit hdigit,if_neg (by decide),
        if_neg (by simp [hdigit]),ih,List.dropWhile_cons_of_pos hdigit,
        List.takeWhile_cons_of_pos hdigit,List.append_assoc,List.singleton_append]
    · have hunits := parseUnits_eq 8 0 p (by decide)
      rw [List.dropWhile_cons_of_neg hdigit,List.takeWhile_cons_of_neg hdigit,List.append_nil,
        parseWhole]
      by_cases hpoint : c = '.'
      · have hstart : parseUnits (CENT*10) 0 p = parseUnits ((10^8/10 : Nat) : Int) (0 : Nat) p := by
          rfl
        rw [Nat.zero_add] at hunits
        rw [if_pos hpoint,hstart,hunits]
        simp [bind,Except.bind,hpoint]
      · simp [hpoint,hdigit]

theorem atoi64_digits {digits : List Char} (h : ∀ c ∈ digits, c.isDigit = true)
    (hlen : digits.length ≤ 10) :
    (atoi64 (digits.map Char.toUInt8)).toInt = (digitsValue digits : Int) := by
  have hascii : ∀ c ∈ digits, 0 < c.toNat ∧ c.toNat < 128 := by
    intro c hc
    have hbounds := isDigit_bounds (h c hc)
    omega
  have hlt : digitsValue digits < 10^10 :=
    Nat.lt_of_lt_of_le (digitsValue_lt h) (Nat.pow_le_pow_right (by decide) hlen)
  have hsign : readSign (digits.dropWhile isSpace) = (false,digits) := by
    cases digits with
    | nil => rfl
    | cons c rest =>
      have hc := h c (by simp)
      have hbounds := isDigit_bounds hc
      have hminus : c ≠ '-' := by
        rintro rfl
        exact absurd hbounds.1 (by decide)
      have hplus : c ≠ '+' := by
        rintro rfl
        exact absurd hbounds.1 (by decide)
      rw [List.dropWhile_cons_of_neg (by rw [isSpace_of_isDigit hc]; decide)]
      simp [readSign,hminus,hplus]
  have hvalue : (strtol digits).1 = (digitsValue digits : Int) := by
    unfold strtol
    rw [hsign]
    simp only [List.takeWhile_eq_self_iff.mpr h]
    cases digits with
    | nil => rfl
    | cons c rest =>
      rw [if_neg (by simp),digitsValue,Nat.ofDigitChars_eq_foldl]
      rfl
  unfold atoi64
  rw [bytesText_map hascii,hvalue,Int64.toInt_ofInt_of_le (by omega) (by omega)]
  omega

theorem parseMoneyText_of_parseWhole {pszIn digits rest : List Char} {nUnits : Nat}
    (h : parseWhole [] (pszIn.dropWhile isSpace) = .ok (digits,(nUnits : Int),rest))
    (hdigits : ∀ c ∈ digits, c.isDigit = true) (hunits : nUnits < 10^8) :
    parseMoneyText pszIn =
      if rest.all isSpace ∧ digits.length ≤ 10 then
        .ok ((digitsValue digits*10^8+nUnits : Nat) : Int)
      else .error .malformed := by
  unfold parseMoneyText
  rw [h]
  simp only [bind,Except.bind]
  by_cases hrest : rest.all isSpace = true
  · by_cases hlen : digits.length ≤ 10
    · have hlt : digitsValue digits < 10^10 :=
        Nat.lt_of_lt_of_le (digitsValue_lt hdigits) (Nat.pow_le_pow_right (by decide) hlen)
      have hfit : digitsValue digits*10^8+nUnits < 2^63 := by omega
      have hproduct : fitInt64 ((digitsValue digits : Int)*COIN) =
          .ok ((digitsValue digits*10^8 : Nat) : Int) := by
        rw [← fitInt64_eq (Nat.lt_of_le_of_lt (Nat.le_add_right _ _) hfit),Nat.cast_mul]
        rfl
      have hsum : fitInt64 (((digitsValue digits*10^8 : Nat) : Int)+(nUnits : Int)) =
          .ok ((digitsValue digits*10^8+nUnits : Nat) : Int) := by
        rw [← Nat.cast_add]
        exact fitInt64_eq hfit
      have hrange : ¬((nUnits : Int) < 0 ∨ (nUnits : Int) > COIN) := by
        unfold COIN
        omega
      rw [if_neg (by simp [hrest]),if_neg (by omega),if_neg hrange,
        atoi64_digits hdigits hlen,hproduct]
      simp only
      rw [hsum,if_pos ⟨hrest,hlen⟩]
    · rw [if_neg (by simp [hrest]),if_pos (by omega),if_neg (fun hall => hlen hall.2)]
  · rw [if_pos hrest,if_neg (fun hall => hrest hall.1)]

theorem scaledUnits_lt {units : List Char} (h : ∀ c ∈ units, c.isDigit = true)
    (hlen : units.length ≤ 8) : digitsValue units*10^(8-units.length) < 10^8 := by
  have hpow : 10^units.length*10^(8-units.length) = 10^8 := by
    rw [← pow_add,Nat.add_sub_cancel' hlen]
  rw [← hpow]
  exact Nat.mul_lt_mul_of_pos_right (digitsValue_lt h) (Nat.pow_pos (by decide))

/-- A text whose parts were found is taken, unless something follows or it is too long. -/
theorem malformed_or_text {pszIn before digits units rest : List Char} (point : Bool)
    (htext : pszIn = before ++ digits ++ (if point then '.' :: units else []) ++ rest)
    (hbefore : ∀ c ∈ before, isSpace c = true) (hdigits : ∀ c ∈ digits, c.isDigit = true)
    (hunits : ∀ c ∈ units, c.isDigit = true) (hlen : units.length ≤ 8)
    (hnil : point = false → units = [])
    (hparse : parseWhole [] (pszIn.dropWhile isSpace) =
      .ok (digits,((digitsValue units*10^(8-units.length) : Nat) : Int),rest)) :
    parseMoneyText pszIn = .error .malformed ∨
      ∃ t : MoneyText, pszIn = t.text ∧ parseMoneyText pszIn = .ok (t.scaled 8 : Int) := by
  have heq := parseMoneyText_of_parseWhole hparse hdigits (scaledUnits_lt hunits hlen)
  by_cases hall : rest.all isSpace ∧ digits.length ≤ 10
  · rw [if_pos hall] at heq
    have hrest : ∀ c ∈ rest, isSpace c = true := List.all_eq_true.mp hall.1
    exact .inr ⟨⟨⟨digits,units,hdigits,hunits⟩,point,before,rest,hall.2,hlen,hnil,hbefore,hrest⟩,
      htext,heq⟩
  · rw [if_neg hall] at heq
    exact .inl heq

theorem parseMoneyText_cases (pszIn : List Char) : parseMoneyText pszIn = .error .malformed ∨
    ∃ t : MoneyText, pszIn = t.text ∧ parseMoneyText pszIn = .ok (t.scaled 8 : Int) := by
  have hbefore : ∀ c ∈ pszIn.takeWhile isSpace, isSpace c = true := fun c hc =>
    List.mem_takeWhile_imp hc
  have hdigits : ∀ c ∈ (pszIn.dropWhile isSpace).takeWhile Char.isDigit, c.isDigit = true :=
    fun c hc => List.mem_takeWhile_imp hc
  have hsplit : pszIn = pszIn.takeWhile isSpace ++
      (pszIn.dropWhile isSpace).takeWhile Char.isDigit ++
        (pszIn.dropWhile isSpace).dropWhile Char.isDigit := by
    rw [List.append_assoc,List.takeWhile_append_dropWhile,List.takeWhile_append_dropWhile]
  have hparse := parseWhole_eq [] (pszIn.dropWhile isSpace)
  rw [List.nil_append] at hparse
  cases hrest : (pszIn.dropWhile isSpace).dropWhile Char.isDigit with
  | nil =>
    rw [hrest] at hparse hsplit
    exact malformed_or_text false (by simpa using hsplit) hbefore hdigits (by simp) (by simp)
      (fun _ => rfl) hparse
  | cons c q =>
    rw [hrest] at hparse hsplit
    simp only at hparse
    by_cases hpoint : c = '.'
    · rw [if_pos hpoint] at hparse
      refine malformed_or_text true ?_ hbefore hdigits
        (fun c hc => isDigit_of_mem_places hc) (length_places_le 8 q) (by simp) hparse
      rw [if_pos rfl,List.append_assoc _ _ (q.drop _),List.cons_append,places_append_drop,
        ← hpoint]
      exact hsplit
    · rw [if_neg hpoint] at hparse
      by_cases hspace : isSpace c = true
      · rw [if_pos hspace] at hparse
        exact malformed_or_text false (by simpa using hsplit) hbefore hdigits (by simp) (by simp)
          (fun _ => rfl) hparse
      · rw [if_neg hspace] at hparse
        left
        unfold parseMoneyText
        rw [hparse]
        rfl

theorem span_digits {digits rest : List Char} (h : ∀ c ∈ digits, c.isDigit = true)
    (hrest : ∀ c ∈ rest.head?, c.isDigit = false) :
    (digits ++ rest).takeWhile Char.isDigit = digits ∧
      (digits ++ rest).dropWhile Char.isDigit = rest := by
  rw [List.takeWhile_append_of_pos h,List.dropWhile_append_of_pos h]
  cases rest with
  | nil => simp
  | cons c rest =>
    have hc : c.isDigit = false := hrest c rfl
    simp [hc]

theorem MoneyText.behind_head (t : MoneyText) : ∀ c ∈ t.behind.head?, c.isDigit = false := by
  intro c hc
  have hspace := t.behind_space c (List.mem_of_mem_head? hc)
  by_contra hdigit
  rw [isSpace_of_isDigit (by simpa using hdigit)] at hspace
  exact absurd hspace (by decide)

theorem dropSpaces_digits {digits rest : List Char} (h : ∀ c ∈ digits, c.isDigit = true)
    (hrest : digits = [] → ∀ c ∈ rest.head?, isSpace c = false) :
    (digits ++ rest).dropWhile isSpace = digits ++ rest := by
  cases digits with
  | nil =>
    cases rest with
    | nil => rfl
    | cons c rest =>
      have hc : isSpace c = false := hrest rfl c rfl
      simp [hc]
  | cons c digits =>
    have hc := isSpace_of_isDigit (h c (by simp))
    simp [hc]

theorem places_eq {k : Nat} {digits rest : List Char} (h : ∀ c ∈ digits, c.isDigit = true)
    (hlen : digits.length ≤ k) (hrest : ∀ c ∈ rest.head?, c.isDigit = false) :
    places k (digits ++ rest) = digits := by
  unfold places
  rw [(span_digits h hrest).1,List.take_of_length_le hlen]

theorem MoneyText.parseWhole_text (t : MoneyText) : ∃ rest, (∀ c ∈ rest, isSpace c = true) ∧
    parseWhole [] (t.text.dropWhile isSpace) =
      .ok (t.whole,((digitsValue t.units*10^(8-t.units.length) : Nat) : Int),rest) := by
  have hbehind := t.behind_head
  have htext : t.text.dropWhile isSpace =
      (t.whole ++ ((if t.point then '.' :: t.units else []) ++ t.behind)).dropWhile isSpace := by
    unfold text
    rw [List.append_assoc,List.append_assoc,List.dropWhile_append_of_pos t.before_space]
  rw [htext]
  cases hpoint : t.point with
  | true =>
    refine ⟨t.behind,t.behind_space,?_⟩
    have hhead : ∀ c ∈ ('.' :: (t.units ++ t.behind)).head?, c.isDigit = false := by
      rintro c ⟨⟩
      rfl
    have hspace : ∀ c ∈ ('.' :: (t.units ++ t.behind)).head?, isSpace c = false := by
      rintro c ⟨⟩
      rfl
    rw [if_pos rfl,List.cons_append,dropSpaces_digits t.whole_digits (fun _ => hspace),
      parseWhole_eq,(span_digits t.whole_digits hhead).1,(span_digits t.whole_digits hhead).2,
      List.nil_append]
    simp only
    rw [if_pos trivial,places_eq t.units_digits t.units_le hbehind,List.drop_left]
  | false =>
    rw [if_neg (by decide),List.nil_append,t.units_nil hpoint]
    by_cases hwhole : t.whole = []
    · refine ⟨[],by simp,?_⟩
      rw [hwhole,List.nil_append,List.dropWhile_eq_nil_iff.mpr t.behind_space]
      rfl
    · refine ⟨t.behind,t.behind_space,?_⟩
      rw [dropSpaces_digits t.whole_digits (fun h => absurd h hwhole),parseWhole_eq,
        (span_digits t.whole_digits hbehind).1,(span_digits t.whole_digits hbehind).2,
        List.nil_append]
      cases hlist : t.behind with
      | nil => rfl
      | cons c q =>
        have hspace := t.behind_space c (by rw [hlist]; simp)
        have hc : c ≠ '.' := by
          rintro rfl
          exact absurd hspace (by decide)
        simp only
        rw [if_neg hc,if_pos hspace]
        rfl

theorem MoneyText.parse_text (t : MoneyText) : parseMoneyText t.text = .ok (t.scaled 8 : Int) := by
  obtain ⟨rest,hrest,hparse⟩ := t.parseWhole_text
  rw [parseMoneyText_of_parseWhole hparse t.whole_digits
    (scaledUnits_lt t.units_digits t.units_le),if_pos ⟨List.all_eq_true.mpr hrest,t.whole_le⟩]
  rfl

theorem MoneyText.scaled_eq (t : MoneyText) : ((t.scaled 8 : Int) : ℚ) = t.value*COIN := by
  have hvalue := Numeral.value_mul (x := t.toNumeral) t.units_le
  push_cast
  rw [← hvalue]
  rfl

/-- A string is taken for an amount exactly when its text is a numeral for that amount. -/
theorem parseMoney_eq_ok {str : List UInt8} {n : Int} : parseMoney str = .ok n ↔
    ∃ t : MoneyText, bytesText str = t.text ∧ (n : ℚ) = t.value*COIN := by
  unfold parseMoney
  constructor
  · intro h
    rcases parseMoneyText_cases (bytesText str) with hbad | ⟨t,htext,hok⟩
    · rw [hbad] at h
      contradiction
    · rw [hok] at h
      obtain rfl := Except.ok.inj h
      exact ⟨t,htext,t.scaled_eq⟩
  · rintro ⟨t,htext,hn⟩
    rw [← t.scaled_eq] at hn
    rw [htext,t.parse_text,Int.cast_injective hn]

theorem parseMoney_no_overflow (str : List UInt8) : parseMoney str ≠ .error .overflow := by
  unfold parseMoney
  rcases parseMoneyText_cases (bytesText str) with hbad | ⟨t,-,hok⟩
  · rw [hbad]
    decide
  · rw [hok]
    intro h
    contradiction

end Parse

section Format

/-- The zeros that are trimmed leave two places at least. -/
theorem trimmedZeros_eq (whole : List Char) {units : List Char}
    (h : ∀ c ∈ units, c.isDigit = true) {j : Nat}
    (hj : j+2 ≤ units.length) :
    ∃ t, trimmedZeros (whole ++ '.' :: units) (whole.length+j+2) = some t ∧ t ≤ j ∧
      digitsValue (units.take (j+2)) = digitsValue (units.take (j+2-t))*10^t := by
  have hget : ∀ i < units.length,
      (whole ++ '.' :: units)[whole.length+i+1]? = some (units.getD i '0') := by
    intro i hi
    rw [List.getElem?_append_right (by omega),
      show whole.length+i+1-whole.length = i+1 by omega,List.getElem?_cons_succ,
      List.getElem?_eq_getElem hi,List.getD_eq_getElem _ _ hi]
  induction j with
  | zero =>
    have hpoint : (whole ++ '.' :: units)[whole.length]? = some '.' := by simp
    refine ⟨0,?_,Nat.le_refl _,by simp⟩
    rw [trimmedZeros,hget 1 (by omega),hpoint]
    simp [Char.isDigit]
  | succ j ih =>
    obtain ⟨t,htrim,ht,hvalue⟩ := ih (by omega)
    have hlast : (whole ++ '.' :: units)[whole.length+(j+1)+2]? = some (units.getD (j+2) '0') :=
      hget (j+2) (by omega)
    have hbefore : (whole ++ '.' :: units)[whole.length+(j+1)]? = some (units.getD j '0') :=
      hget j (by omega)
    have hdigit : (units.getD j '0').isDigit = true := by
      rw [List.getD_eq_getElem _ _ (by omega)]
      exact h _ (List.getElem_mem _)
    rw [trimmedZeros,hlast,hbefore]
    by_cases hzero : units.getD (j+2) '0' = '0'
    · have htake : units.take (j+1+2) = units.take (j+2) ++ ['0'] := by
        rw [show j+1+2 = j+2+1 by omega,List.take_add_one,List.getElem?_eq_getElem (by omega),
          Option.toList_some,← List.getD_eq_getElem _ '0' (by omega),hzero]
      refine ⟨t+1,?_,by omega,?_⟩
      · simp only [Option.bind_eq_bind,Option.bind_some,hzero,hdigit,if_true]
        rw [show whole.length+(j+1)+1 = whole.length+j+2 by omega,htrim]
        rfl
      · rw [htake,digitsValue_append,hvalue,show j+1+2-(t+1) = j+2-t by omega]
        simp [digitsValue,pow_succ,Nat.mul_assoc,Nat.ofDigitChars_cons]
    · refine ⟨0,?_,Nat.zero_le _,by simp⟩
      simp only [Option.bind_eq_bind,Option.bind_some,if_neg hzero]
      rfl

theorem bytesText_text {str : List Char} (h : ∀ c ∈ str, c = '.' ∨ c.isDigit = true) :
    bytesText (str.map Char.toUInt8) = str := by
  refine bytesText_map fun c hc => ?_
  rcases h c hc with rfl | hdigit
  · decide
  · have hbounds := isDigit_bounds hdigit
    omega

/-- What is written: the whole part, and two to eight places. -/
theorem formatMoney_eq {m : Nat} (hm : m < 10^18) :
    ∃ units : List Char, (∀ c ∈ units, c.isDigit = true) ∧ units.length ≤ 8 ∧
      digitsValue units*10^(8-units.length) = m%10^8 ∧ formatMoney m false =
        some ((Nat.toDigits 10 (m/10^8) ++ '.' :: units).map Char.toUInt8) := by
  have habs : (if (m : Int) > 0 then (m : Int) else -(m : Int)) = (m : Int) := by
    split <;> omega
  have hquotient : ((m : Int)/COIN).toNat = m/10^8 := by
    unfold COIN
    omega
  have hremainder : ((m : Int)%COIN).toNat = m%10^8 := by
    unfold COIN
    omega
  have hunits : ∀ c ∈ padded 8 (m%10^8), c.isDigit = true := fun c hc => isDigit_of_mem_padded hc
  have hlen : (padded 8 (m%10^8)).length = 8 :=
    length_padded (by decide) (Nat.mod_lt _ (by decide))
  obtain ⟨k,htrim,hk,hvalue⟩ := trimmedZeros_eq (Nat.toDigits 10 (m/10^8)) hunits
    (j := 6) (by omega)
  have hlast : (Nat.toDigits 10 (m/10^8) ++ '.' :: padded 8 (m%10^8)).length-1 =
      (Nat.toDigits 10 (m/10^8)).length+6+2 := by
    rw [List.length_append,List.length_cons,hlen]
    omega
  have hkept : (Nat.toDigits 10 (m/10^8) ++ '.' :: padded 8 (m%10^8)).take
      ((Nat.toDigits 10 (m/10^8) ++ '.' :: padded 8 (m%10^8)).length-k) =
        Nat.toDigits 10 (m/10^8) ++ '.' :: (padded 8 (m%10^8)).take (8-k) := by
    rw [List.length_append,List.length_cons,hlen,
      show (Nat.toDigits 10 (m/10^8)).length+(8+1)-k =
        (Nat.toDigits 10 (m/10^8)).length+(8-k+1) by omega,List.take_length_add_append,
      List.take_succ_cons]
  refine ⟨(padded 8 (m%10^8)).take (8-k),fun c hc => hunits c (List.mem_of_mem_take hc),?_,?_,?_⟩
  · exact Nat.le_trans (List.length_take_le _ _) (Nat.sub_le _ _)
  · have htaken : ((padded 8 (m%10^8)).take (8-k)).length = 8-k := by
      rw [List.length_take,hlen]
      omega
    rw [htaken,show 8-(8-k) = k by omega,← hvalue,List.take_of_length_le (Nat.le_of_eq hlen),
      digitsValue_padded]
  · have hmin : (m : Int) ≠ -2^63 := by omega
    have hneg : ¬(m : Int) < 0 := by omega
    simp only [formatMoney,habs,hquotient,hremainder,hlast,htrim,hmin,hneg,guard,
      Option.bind_eq_bind,Option.pure_def,Option.bind_some,ne_eq,not_false_eq_true,if_true,
      Bool.false_eq_true,false_and,if_false]
    rw [hkept]

/-- What is written for an amount is a text of that amount. -/
theorem formatMoney_text {n : Int} (h : 0 ≤ n) (hn : n < 10^18) :
    ∃ str, ∃ t : MoneyText, formatMoney n false = some str ∧ bytesText str = t.text ∧
      (t.scaled 8 : Int) = n := by
  obtain ⟨m,rfl⟩ := Int.eq_ofNat_of_zero_le h
  have hm : m < 10^18 := by omega
  obtain ⟨units,hunits,hlen,hvalue,hformat⟩ := formatMoney_eq hm
  have hwhole : ∀ c ∈ Nat.toDigits 10 (m/10^8), c.isDigit = true := fun c hc =>
    Nat.isDigit_of_mem_toDigits (by decide) (by decide) hc
  have hwholelen : (Nat.toDigits 10 (m/10^8)).length ≤ 10 :=
    (Nat.length_toDigits_le_iff (by decide) (by decide)).mpr (by omega)
  refine ⟨_,⟨⟨Nat.toDigits 10 (m/10^8),units,hwhole,hunits⟩,true,[],[],hwholelen,hlen,by simp,
    by simp,by simp⟩,hformat,?_,?_⟩
  · rw [bytesText_text]
    · simp [MoneyText.text]
    · intro c hc
      rcases List.mem_append.mp hc with hw | hu
      · exact .inr (hwhole c hw)
      · exact (List.mem_cons.mp hu).imp_right (hunits c)
  · rw [Numeral.scaled,hvalue,digitsValue,Nat.ofDigitChars_ten_toDigits]
    omega

/-- Amounts are found again in what is written for them; a string that is taken is a numeral
for the amount, of which no place is lost; and nothing overflows on the way. -/
theorem money_round_trip :
    (∀ n : Int, 0 ≤ n → n < 10^18 →
      ∃ str, formatMoney n false = some str ∧ parseMoney str = .ok n) ∧
    (∀ str n, parseMoney str = .ok n →
      ∃ t : MoneyText, bytesText str = t.text ∧ (n : ℚ) = t.value*COIN) ∧
    (∀ str, parseMoney str ≠ .error .overflow) := by
  refine ⟨fun n h hn => ?_,fun str n h => parseMoney_eq_ok.mp h,parseMoney_no_overflow⟩
  obtain ⟨str,t,hformat,htext,hvalue⟩ := formatMoney_text h hn
  refine ⟨str,hformat,parseMoney_eq_ok.mpr ⟨t,htext,?_⟩⟩
  rw [← hvalue]
  exact t.scaled_eq

end Format

end Anoncoin
