import Mathlib.Data.List.TakeWhile

/-!
Strings as the C library sees them.
-/

set_option autoImplicit false

namespace Anoncoin.Lib

/-- `isspace`. -/
def isSpace (c : Char) : Bool := c == ' ' || (decide ('\t' ≤ c) && decide (c ≤ '\r'))

/-- The sign that `strtol` takes, and what follows. -/
def readSign : List Char → Bool × List Char
  | [] => (false,[])
  | c :: rest => if c = '-' then (true,rest) else if c = '+' then (false,rest) else (false,c :: rest)

/-- `strtol` in base 10, before the value is cut to a `long`, and the text that it leaves: all of
it where there are no digits. -/
def strtol (str : List Char) : Int × List Char :=
  let (negative,s) := readSign (str.dropWhile isSpace)
  if (s.takeWhile Char.isDigit).isEmpty then (0,str)
  else
    let n : Nat := (s.takeWhile Char.isDigit).foldl (fun n c => 10*n+(c.toNat - '0'.toNat)) 0
    (if negative then -(n : Int) else n,s.dropWhile Char.isDigit)

theorem isDigit_bounds {c : Char} (h : c.isDigit = true) : 48 ≤ c.toNat ∧ c.toNat ≤ 57 := by
  unfold Char.isDigit at h
  simp only [Bool.and_eq_true,decide_eq_true_eq] at h
  exact ⟨UInt32.le_iff_toNat_le.mp h.1,UInt32.le_iff_toNat_le.mp h.2⟩

theorem isSpace_of_isDigit {c : Char} (h : c.isDigit = true) : isSpace c = false := by
  have hbounds := isDigit_bounds h
  unfold isSpace
  rw [Bool.or_eq_false_iff,beq_eq_false_iff_ne,Bool.and_eq_false_iff]
  constructor
  · rintro rfl
    exact absurd hbounds.1 (by decide)
  · refine .inr (decide_eq_false fun hle => ?_)
    have hlow : c.toNat ≤ 13 := hle
    omega

theorem readSign_mem {s : List Char} {c : Char} (h : c ∈ s) :
    c = '-' ∨ c = '+' ∨ c ∈ (readSign s).2 := by
  cases s with
  | nil => exact absurd h List.not_mem_nil
  | cons d rest =>
    unfold readSign
    rcases List.mem_cons.mp h with rfl | hrest
    · by_cases hminus : c = '-'
      · exact .inl hminus
      · by_cases hplus : c = '+'
        · exact .inr (.inl hplus)
        · simp [hminus,hplus]
    · by_cases hminus : d = '-'
      · simp [hminus,hrest]
      · by_cases hplus : d = '+' <;> simp [hminus,hplus,hrest]

theorem mem_dropWhile_or {p : Char → Bool} {s : List Char} {c : Char} (h : c ∈ s) :
    p c = true ∨ c ∈ s.dropWhile p := by
  rw [← List.takeWhile_append_dropWhile (p := p) (l := s)] at h
  rcases List.mem_append.mp h with ht | hd
  · exact .inl (List.mem_takeWhile_imp ht)
  · exact .inr hd

theorem strtol_rest (str : List Char) : (strtol str).2 = str ∨
    (strtol str).2 = (readSign (str.dropWhile isSpace)).2.dropWhile Char.isDigit := by
  unfold strtol
  simp only
  split
  · exact .inl rfl
  · exact .inr rfl

section Runs
variable {α : Type} [BEq α] [LawfulBEq α] {x : α} {l : List α}

/-- A run of one element, and what follows it. -/
theorem takeWhile_replicate_append (n : Nat) (h : l.head? ≠ some x) :
    (List.replicate n x ++ l).takeWhile (· == x) = List.replicate n x ∧
      (List.replicate n x ++ l).dropWhile (· == x) = l := by
  induction n with
  | zero =>
    cases l with
    | nil => simp
    | cons y l =>
      have hy : (y == x) = false := by simpa using h
      simp [hy]
  | succ n ih => simpa [List.replicate_succ] using ih

theorem takeWhile_beq_eq (x : α) (l : List α) :
    l.takeWhile (· == x) = List.replicate (l.takeWhile (· == x)).length x := by
  apply List.eq_replicate_of_mem
  intro y hy
  simpa using List.mem_takeWhile_imp hy

theorem head?_dropWhile_beq (x : α) (l : List α) : (l.dropWhile (· == x)).head? ≠ some x := by
  intro h
  have hnot := List.head?_dropWhile_not (· == x) l
  rw [h] at hnot
  simp at hnot

end Runs

end Anoncoin.Lib
