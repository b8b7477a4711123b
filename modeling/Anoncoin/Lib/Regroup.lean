import Anoncoin.Lib.Radix

/-!
Digits of one width made into digits of another one, most significant bits first, by a machine
that keeps the bits that do not fill a digit yet.
-/

set_option autoImplicit false

namespace Anoncoin.Lib

/-- The digits of `g` bits say the words of `w` bits and have `k` bits more, which are the number
`v`. -/
structure Spells (g w : Nat) (digits words : List Nat) (k v : Nat) : Prop where
  length : g*digits.length = w*words.length+k
  value : radixValue (2^g) digits = radixValue (2^w) words*2^k+v
  spare : v < 2^k
  digits_lt : ∀ d ∈ digits, d < 2^g
  words_lt : ∀ x ∈ words, x < 2^w

section Spelling
variable {g w k k' v v' : Nat} {digits digits' words words' : List Nat}

/-- A quotient and a remainder. -/
theorem mul_add_inj {n a b r r' : Nat} (h : n*a+r = n*b+r') (hr : r < n) (hr' : r' < n) :
    a = b ∧ r = r' := by
  have hn : 0 < n := by omega
  have hdiv := congrArg (· / n) h
  have hmod := congrArg (· % n) h
  simp only [Nat.mul_add_div hn,Nat.mul_add_mod,Nat.div_eq_of_lt,Nat.mod_eq_of_lt,hr,hr',
    Nat.add_zero] at hdiv hmod
  exact ⟨hdiv,hmod⟩

/-- Fewer spare bits than a word: the digits say one list of words only. -/
theorem Spells.words_unique (h : Spells g w digits words k v) (h' : Spells g w digits words' k' v')
    (hk : k < w) (hk' : k' < w) : words = words' ∧ k = k' ∧ v = v' := by
  obtain ⟨hlen,rfl⟩ := mul_add_inj (h.length.symm.trans h'.length) hk hk'
  have hvalue := h.value.symm.trans h'.value
  rw [Nat.mul_comm _ (2^k),Nat.mul_comm _ (2^k)] at hvalue
  obtain ⟨hsame,rfl⟩ := mul_add_inj hvalue h.spare h'.spare
  exact ⟨radixValue_inj (Nat.one_lt_two_pow (by omega)) hlen h.words_lt h'.words_lt hsame,rfl,rfl⟩

/-- Fewer spare bits than a digit, all of them zero: the words are said by one list of digits. -/
theorem Spells.digits_unique (h : Spells g w digits words k 0) (h' : Spells g w digits' words k' 0)
    (hk : k < g) (hk' : k' < g) : digits = digits' ∧ k = k' := by
  have hcross : g*digits.length+k' = g*digits'.length+k := by
    have := h.length
    have := h'.length
    omega
  obtain ⟨hlen,rfl⟩ := mul_add_inj hcross hk' hk
  exact ⟨radixValue_inj (Nat.one_lt_two_pow (by omega)) hlen h.digits_lt h'.digits_lt
    (h.value.trans h'.value.symm),rfl⟩

/-- Seen from the words, whole. -/
theorem Spells.whole (h : Spells w g words digits 0 v) : Spells g w digits words 0 0 where
  length := by have := h.length; omega
  value := by
    have hv := h.spare
    have hvalue := h.value
    simp only [Nat.pow_zero,Nat.lt_one_iff] at hv
    simp [hvalue,hv]
  spare := Nat.one_pos
  digits_lt := h.words_lt
  words_lt := h.digits_lt

/-- The bits that are left over fill a last digit from the top. -/
theorem Spells.complete (h : Spells w g words digits k v) (hk : k < g) :
    Spells g w (digits ++ [v*2^(g-k)]) words (g-k) 0 where
  length := by
    have := h.length
    simp only [List.length_append,List.length_singleton,Nat.mul_add,Nat.mul_one]
    omega
  value := by
    have hpow : 2^g = 2^k*2^(g-k) := by rw [← Nat.pow_add,Nat.add_sub_cancel' hk.le]
    have hlast : radixValue (2^g) [v*2^(g-k)] = v*2^(g-k) := by simp [radixValue]
    rw [radixValue_append,List.length_singleton,Nat.pow_one,hlast,h.value]
    calc radixValue (2^g) digits*2^g+v*2^(g-k)
        = radixValue (2^g) digits*(2^k*2^(g-k))+v*2^(g-k) := by rw [← hpow]
      _ = (radixValue (2^g) digits*2^k+v)*2^(g-k)+0 := by ring
  spare := Nat.two_pow_pos _
  digits_lt := by
    have hlt : v*2^(g-k) < 2^g := by
      calc v*2^(g-k) < 2^k*2^(g-k) := Nat.mul_lt_mul_of_pos_right h.spare (Nat.two_pow_pos _)
        _ = 2^g := by rw [← Nat.pow_add,Nat.add_sub_cancel' hk.le]
    simp only [List.forall_mem_append,List.forall_mem_singleton]
    exact ⟨h.words_lt,hlt⟩
  words_lt := h.digits_lt

end Spelling

section Machines

/-- All digits one after the other: what is put out, and the mode and the bits left at the end. -/
def regroup (step : Nat → Nat → Nat → List Nat × Nat × Nat) (mode left : Nat) :
    List Nat → List Nat × Nat × Nat
  | [] => ([],mode,left)
  | d :: ds =>
      let r := step mode left d
      let rest := regroup step r.2.1 r.2.2 ds
      (r.1 ++ rest.1,rest.2)

/-- In a mode, `left` stands for `k` bits with the number `v`, shifted to where they are needed.
In mode 0 there are none, whatever `left` is. -/
structure Kept (bits : List Nat) (shift : Nat → Nat) (mode left k v : Nat) : Prop where
  known : bits[mode]? = some k
  fits : v < 2^k
  shifted : mode ≠ 0 → left = v <<< shift k

/-- No step loses a bit: what was kept and the digit are what is put out and what is kept then. -/
def Regroups (w g : Nat) (bits : List Nat) (shift : Nat → Nat)
    (step : Nat → Nat → Nat → List Nat × Nat × Nat) : Prop :=
  ∀ mode left k v d, Kept bits shift mode left k v → d < 2^w →
    ∃ k' v', Kept bits shift (step mode left d).2.1 (step mode left d).2.2 k' v' ∧
      k+w = g*(step mode left d).1.length+k' ∧
      v*2^w+d = radixValue (2^g) (step mode left d).1*2^k'+v' ∧
      ∀ x ∈ (step mode left d).1, x < 2^g

variable {w g : Nat} {bits : List Nat} {shift : Nat → Nat}
  {step : Nat → Nat → Nat → List Nat × Nat × Nat}

/-- A step in one mode, by what it comes to. -/
theorem kept_step {mode left k v d mode' left' : Nat} {outs : List Nat} (k' v' : Nat)
    (hstep : step mode left d = (outs,mode',left')) (hknown : bits[mode']? = some k')
    (hfits : v' < 2^k') (hshifted : mode' ≠ 0 → left' = v' <<< shift k')
    (hbits : k+w = g*outs.length+k') (hvalue : v*2^w+d = radixValue (2^g) outs*2^k'+v')
    (hlt : ∀ x ∈ outs, x < 2^g) :
    ∃ k' v', Kept bits shift (step mode left d).2.1 (step mode left d).2.2 k' v' ∧
      k+w = g*(step mode left d).1.length+k' ∧
      v*2^w+d = radixValue (2^g) (step mode left d).1*2^k'+v' ∧
      ∀ x ∈ (step mode left d).1, x < 2^g := by
  rw [hstep]
  exact ⟨k',v',⟨hknown,hfits,hshifted⟩,hbits,hvalue,hlt⟩

theorem Regroups.run (h : Regroups w g bits shift step) {mode left k v : Nat} {ds : List Nat}
    (hkept : Kept bits shift mode left k v) (hds : ∀ d ∈ ds, d < 2^w) :
    ∃ k' v', Kept bits shift (regroup step mode left ds).2.1 (regroup step mode left ds).2.2 k' v' ∧
      k+w*ds.length = g*(regroup step mode left ds).1.length+k' ∧
      v*2^(w*ds.length)+radixValue (2^w) ds =
        radixValue (2^g) (regroup step mode left ds).1*2^k'+v' ∧
      ∀ x ∈ (regroup step mode left ds).1, x < 2^g := by
  induction ds generalizing mode left k v with
  | nil => exact ⟨k,v,hkept,by simp [regroup],by simp [regroup,radixValue],by simp [regroup]⟩
  | cons d ds ih =>
    obtain ⟨hd,hds⟩ := List.forall_mem_cons.mp hds
    obtain ⟨k₁,v₁,hkept₁,hbits₁,hvalue₁,hlt₁⟩ := h mode left k v d hkept hd
    obtain ⟨k₂,v₂,hkept₂,hbits₂,hvalue₂,hlt₂⟩ := ih hkept₁ hds
    refine ⟨k₂,v₂,hkept₂,?_,?_,List.forall_mem_append.mpr ⟨hlt₁,hlt₂⟩⟩
    · simp only [regroup,List.length_append,List.length_cons,Nat.mul_add,Nat.mul_one]
      omega
    · simp only [regroup]
      generalize hr : regroup step (step mode left d).2.1 (step mode left d).2.2 ds = r at *
      have hpow : 2^k₁*2^(w*ds.length) = (2^g)^r.1.length*2^k₂ := by
        rw [← Nat.pow_add,hbits₂,Nat.pow_add,Nat.pow_mul]
      rw [radixValue_append,radixValue_cons,List.length_cons,← Nat.pow_mul]
      calc v*2^(w*(ds.length+1))+(radixValue (2^w) ds+2^(w*ds.length)*d)
          = (v*2^w+d)*2^(w*ds.length)+radixValue (2^w) ds := by
            rw [Nat.mul_add,Nat.mul_one,Nat.pow_add]
            ring
        _ = radixValue (2^g) (step mode left d).1*(2^k₁*2^(w*ds.length))+
              (v₁*2^(w*ds.length)+radixValue (2^w) ds) := by
            rw [hvalue₁]
            ring
        _ = (radixValue (2^g) (step mode left d).1*(2^g)^r.1.length+radixValue (2^g) r.1)*2^k₂+
              v₂ := by
            rw [hpow,hvalue₂]
            ring

/-- From nothing kept, the digits say what is put out. -/
theorem Regroups.spells (h : Regroups w g bits shift step) (hzero : bits[0]? = some 0)
    (left : Nat) {ds : List Nat} (hds : ∀ d ∈ ds, d < 2^w) :
    ∃ k v, Kept bits shift (regroup step 0 left ds).2.1 (regroup step 0 left ds).2.2 k v ∧
      Spells w g ds (regroup step 0 left ds).1 k v := by
  have hnothing : Kept bits shift 0 left 0 0 := ⟨hzero,Nat.one_pos,fun hne => absurd rfl hne⟩
  obtain ⟨k,v,hkept,hbits,hvalue,hlt⟩ := h.run hnothing hds
  exact ⟨k,v,hkept,by omega,by simpa using hvalue,hkept.fits,hds,hlt⟩

end Machines

end Anoncoin.Lib
