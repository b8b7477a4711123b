import Mathlib.Data.Nat.Digits.Lemmas

/-!
Numbers as digits in a buffer of fixed length, most significant digit first: multiplication with
addition in place, and how long the buffer has to be when digits of another base come in.
-/

set_option autoImplicit false

namespace Anoncoin.Lib

/-- The number that the digits stand for. -/
def radixValue (b : Nat) (ds : List Nat) : Nat := Nat.ofDigits b ds.reverse

/-- Multiply by `m` and add, in place from the least significant digit on. The second part of the
result is the carry out of the buffer. -/
def mulAdd (b m : Nat) : List Nat → Nat → List Nat × Nat
  | [],carry => ([],carry)
  | d :: ds,carry =>
      let r := mulAdd b m ds carry
      ((r.2+m*d)%b :: r.1,(r.2+m*d)/b)

theorem radixValue_cons (b d : Nat) (ds : List Nat) :
    radixValue b (d :: ds) = radixValue b ds+b^ds.length*d := by
  unfold radixValue
  rw [List.reverse_cons,Nat.ofDigits_append,Nat.ofDigits_singleton,List.length_reverse]

@[simp] theorem radixValue_nil (b : Nat) : radixValue b [] = 0 := by simp [radixValue]

@[simp] theorem radixValue_singleton (b x : Nat) : radixValue b [x] = x := by simp [radixValue]

@[simp] theorem radixValue_pair (b x y : Nat) : radixValue b [x,y] = x*b+y := by
  simp [radixValue_cons,Nat.mul_comm,Nat.add_comm]

theorem radixValue_append (b : Nat) (xs ys : List Nat) :
    radixValue b (xs ++ ys) = radixValue b xs*b^ys.length+radixValue b ys := by
  unfold radixValue
  rw [List.reverse_append,Nat.ofDigits_append,List.length_reverse,Nat.mul_comm,Nat.add_comm]

/-- As many digits with the same value are the same. -/
theorem radixValue_inj {b : Nat} (hb : 1 < b) {xs ys : List Nat} (hlen : xs.length = ys.length)
    (hxs : ∀ d ∈ xs, d < b) (hys : ∀ d ∈ ys, d < b) (h : radixValue b xs = radixValue b ys) :
    xs = ys := by
  have hlen' : xs.reverse.length = ys.reverse.length := by simpa using hlen
  have hrev := Nat.ofDigits_inj_of_len_eq hb hlen' (by simpa using hxs) (by simpa using hys) h
  exact List.reverse_injective hrev

@[simp] theorem length_mulAdd (b m : Nat) (ds : List Nat) (carry : Nat) :
    (mulAdd b m ds carry).1.length = ds.length := by
  induction ds with
  | nil => rfl
  | cons d ds ih => simp [mulAdd,ih]

theorem mulAdd_lt {b : Nat} (hb : 0 < b) (m : Nat) (ds : List Nat) (carry : Nat) :
    ∀ d ∈ (mulAdd b m ds carry).1, d < b := by
  induction ds with
  | nil => simp [mulAdd]
  | cons d ds ih =>
    intro x hx
    rcases List.mem_cons.mp hx with rfl | hx
    · exact Nat.mod_lt _ hb
    · exact ih x hx

/-- The digits with the carry in front are the product and sum. -/
theorem mulAdd_value (b m : Nat) (ds : List Nat) (carry : Nat) :
    radixValue b (mulAdd b m ds carry).1+b^ds.length*(mulAdd b m ds carry).2 =
      m*radixValue b ds+carry := by
  induction ds with
  | nil => simp [mulAdd,radixValue]
  | cons d ds ih =>
    have hdiv := Nat.mod_add_div ((mulAdd b m ds carry).2+m*d) b
    simp only [mulAdd,radixValue_cons,List.length_cons,length_mulAdd]
    calc radixValue b (mulAdd b m ds carry).1+
          b^ds.length*(((mulAdd b m ds carry).2+m*d)%b)+
          b^(ds.length+1)*(((mulAdd b m ds carry).2+m*d)/b)
        = radixValue b (mulAdd b m ds carry).1+b^ds.length*
            (((mulAdd b m ds carry).2+m*d)%b+b*(((mulAdd b m ds carry).2+m*d)/b)) := by ring
      _ = radixValue b (mulAdd b m ds carry).1+b^ds.length*(mulAdd b m ds carry).2+
            m*(b^ds.length*d) := by rw [hdiv]; ring
      _ = m*(radixValue b ds+b^ds.length*d)+carry := by rw [ih]; ring

/-- Nothing is carried out of a buffer that is long enough. -/
theorem mulAdd_fits {b m : Nat} {ds : List Nat} {carry : Nat}
    (h : m*radixValue b ds+carry < b^ds.length) :
    (mulAdd b m ds carry).2 = 0 ∧ radixValue b (mulAdd b m ds carry).1 = m*radixValue b ds+carry := by
  have hvalue := mulAdd_value b m ds carry
  have hzero : (mulAdd b m ds carry).2 = 0 := by
    by_contra hpos
    have hle : b^ds.length*1 ≤ b^ds.length*(mulAdd b m ds carry).2 :=
      Nat.mul_le_mul_left _ (Nat.pos_of_ne_zero hpos)
    omega
  rw [hzero] at hvalue
  exact ⟨hzero,by simpa using hvalue⟩

/-- With room for `k` more digits of base `m` after this one, nothing is carried out, and room for
`k` more is left. -/
theorem mulAdd_room {b m k x : Nat} {ds : List Nat} (hx : x < m)
    (h : (radixValue b ds+1)*m^(k+1) ≤ b^ds.length) :
    (mulAdd b m ds x).2 = 0 ∧ radixValue b (mulAdd b m ds x).1 = m*radixValue b ds+x ∧
      (radixValue b (mulAdd b m ds x).1+1)*m^k ≤ b^(mulAdd b m ds x).1.length := by
  have hstep : (m*radixValue b ds+x+1)*m^k ≤ b^ds.length := by
    calc (m*radixValue b ds+x+1)*m^k ≤ (m*radixValue b ds+m)*m^k :=
          Nat.mul_le_mul_right _ (by omega)
      _ = (radixValue b ds+1)*m^(k+1) := by ring
      _ ≤ b^ds.length := h
  have hpos : 0 < m^k := Nat.pow_pos (by omega)
  have hfits : m*radixValue b ds+x < b^ds.length := by
    have := Nat.le_mul_of_pos_right (m*radixValue b ds+x+1) hpos
    omega
  obtain ⟨hcarry,hvalue⟩ := mulAdd_fits hfits
  refine ⟨hcarry,hvalue,?_⟩
  rw [hvalue,length_mulAdd]
  exact hstep

/-- Without the zeros in front, the digits are those of the number. -/
theorem dropWhile_zero_eq {b : Nat} (hb : 1 < b) {ds : List Nat} (h : ∀ d ∈ ds, d < b) :
    ds.dropWhile (· == 0) = (Nat.digits b (radixValue b ds)).reverse := by
  induction ds with
  | nil => simp [radixValue]
  | cons d ds ih =>
    by_cases hd : d = 0
    · subst hd
      rw [List.dropWhile_cons_of_pos (by simp),ih fun x hx => h x (List.mem_cons_of_mem _ hx),
        radixValue_cons,Nat.mul_zero,Nat.add_zero]
    · rw [List.dropWhile_cons_of_neg (by simpa using hd),radixValue,Nat.digits_ofDigits b hb]
      · rw [List.reverse_reverse]
      · intro x hx
        exact h x (List.mem_reverse.mp hx)
      · intro hne
        rw [List.getLast_reverse]
        simpa using hd

/-- Digits that do not start with zero are those of their number. -/
theorem digits_radixValue {b : Nat} (hb : 1 < b) {ds : List Nat} (h : ∀ d ∈ ds, d < b)
    (hfirst : ds.head? ≠ some 0) : (Nat.digits b (radixValue b ds)).reverse = ds := by
  rw [← dropWhile_zero_eq hb h]
  cases ds with
  | nil => rfl
  | cons d ds =>
    rw [List.dropWhile_cons_of_neg]
    simpa using hfirst

theorem radixValue_digits (b n : Nat) : radixValue b (Nat.digits b n).reverse = n := by
  unfold radixValue
  rw [List.reverse_reverse,Nat.ofDigits_digits]

theorem head?_digits (b n : Nat) : (Nat.digits b n).reverse.head? ≠ some 0 := by
  rw [List.head?_reverse]
  intro hzero
  by_cases hn : n = 0
  · subst hn
    simp at hzero
  · rw [List.getLast?_eq_some_getLast (Nat.digits_ne_nil_iff_ne_zero.mpr hn)] at hzero
    exact Nat.getLast_digit_ne_zero b hn (Option.some.inj hzero)

/-- The approximation of the ratio of two logarithms by `q/p` leaves room for every number of
digits. -/
theorem pow_lt_pow_of_ratio {a c p q : Nat} (hc : 1 < c) (hp : 0 < p) (h : a^p ≤ c^q) (n : Nat) :
    a^n < c^(n*q/p+1) := by
  have hpow : (a^n)^p < (c^(n*q/p+1))^p := by
    calc (a^n)^p = (a^p)^n := by rw [← pow_mul,← pow_mul,Nat.mul_comm]
      _ ≤ (c^q)^n := Nat.pow_le_pow_left h n
      _ = c^(n*q) := by rw [← pow_mul,Nat.mul_comm]
      _ < c^((n*q/p+1)*p) := by
        apply Nat.pow_lt_pow_right hc
        have := Nat.div_add_mod (n*q) p
        have := Nat.mod_lt (n*q) hp
        rw [Nat.add_mul,Nat.mul_comm (n*q/p) p]
        omega
      _ = (c^(n*q/p+1))^p := by rw [pow_mul]
  exact lt_of_pow_lt_pow_left' p hpow

end Anoncoin.Lib
