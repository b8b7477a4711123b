import Anoncoin.Lib.Regroup

/-!
Bytes written as digits of a few bits with padding behind them: what a writer and a reader of
such texts have to do, and when the one undoes the other.
-/

set_option autoImplicit false

namespace Anoncoin.Lib

/-- A sign for each digit of `g` bits, which a reader may also take from other signs, a sign for
padding, how often that one stands behind `k` spare bits, and what a reader finds behind the end of
a text. -/
structure Alphabet (α : Type) (g : Nat) where
  write : Nat → α
  table : α → Option Nat
  pad : α
  ending : α
  signs : Nat → Nat
  table_write : ∀ d < 2^g, table (write d) = some d
  table_lt : ∀ c d, table c = some d → d < 2^g
  table_pad : table pad = none
  table_ending : table ending = none

namespace Alphabet
variable {α : Type} {g : Nat} (A : Alphabet α g)

/-- The digits in front. -/
def lead : List α → List Nat
  | [] => []
  | c :: s =>
    match A.table c with
    | none => []
    | some d => d :: lead s

/-- What is behind them. -/
def rest : List α → List α
  | [] => []
  | c :: s =>
    match A.table c with
    | none => c :: s
    | some _ => rest s

/-- The sign that is written for the same digit. -/
def canonical (c : α) : α :=
  match A.table c with
  | none => c
  | some d => A.write d

/-- The text that says the bytes. -/
inductive Encodes (bytes : List Nat) : List α → Prop
  | intro {digits : List Nat} {k : Nat} : Spells g 8 digits bytes k 0 → k < g →
      Encodes bytes (digits.map A.write ++ List.replicate (A.signs k) A.pad)

/-- The padding is the one for `k` spare bits, which are zero, and no digit follows. -/
def Padded (p : List α) (k v : Nat) : Prop :=
  k < g ∧ v = 0 ∧ p.take (A.signs k) = List.replicate (A.signs k) A.pad ∧
    A.table (p.getD (A.signs k) A.ending) = none

/-- The bytes that the digits in front say, and whether the text is taken for an invalid one. -/
inductive Decodes (s : List α) (bytes : List Nat) (invalid : Bool) : Prop
  | intro {k v : Nat} : Spells g 8 (A.lead s) bytes k v → k < 8 →
      (invalid = false ↔ A.Padded (A.rest s) k v) → Decodes s bytes invalid

variable {A} {s p : List α} {digits bytes bytes' : List Nat} {invalid : Bool}

theorem lead_lt (s : List α) : ∀ d ∈ A.lead s, d < 2^g := by
  induction s with
  | nil => simp [lead]
  | cons c s ih =>
    unfold lead
    cases hc : A.table c with
    | none => simp
    | some d => exact List.forall_mem_cons.mpr ⟨A.table_lt c d hc,ih⟩

theorem lead_of_none (h : A.table (p.headD A.ending) = none) : A.lead p = [] ∧ A.rest p = p := by
  cases p with
  | nil => simp [lead,rest]
  | cons c p => simp_all [lead,rest]

theorem table_rest (s : List α) : A.table ((A.rest s).headD A.ending) = none := by
  induction s with
  | nil => exact A.table_ending
  | cons c s ih =>
    unfold rest
    cases hc : A.table c with
    | none => exact hc
    | some d => exact ih

/-- A text of digits with something else behind it. -/
theorem lead_append (hdigits : ∀ d ∈ digits, d < 2^g) (h : A.table (p.headD A.ending) = none) :
    A.lead (digits.map A.write ++ p) = digits ∧ A.rest (digits.map A.write ++ p) = p := by
  induction digits with
  | nil => exact lead_of_none h
  | cons d digits ih =>
    obtain ⟨hd,hdigits⟩ := List.forall_mem_cons.mp hdigits
    obtain ⟨hlead,hrest⟩ := ih hdigits
    simp [lead,rest,A.table_write d hd,hlead,hrest]

theorem map_write_inj {digits' : List Nat} (h : ∀ d ∈ digits, d < 2^g) (h' : ∀ d ∈ digits', d < 2^g)
    (heq : digits.map A.write = digits'.map A.write) : digits = digits' := by
  have hlead := (lead_append (A := A) (p := []) h A.table_ending).1
  have hlead' := (lead_append (A := A) (p := []) h' A.table_ending).1
  rw [heq] at hlead
  exact hlead.symm.trans hlead'

theorem lead_length_le (s : List α) : (A.lead s).length ≤ s.length := by
  induction s with
  | nil => exact Nat.le_refl 0
  | cons c s ih =>
    unfold lead
    cases A.table c with
    | none => exact Nat.zero_le _
    | some d => exact Nat.succ_le_succ ih

/-- Only digits. -/
theorem lead_length_eq {s : List α} :
    (A.lead s).length = s.length ↔ ∀ c ∈ s, (A.table c).isSome = true := by
  induction s with
  | nil => simp [lead]
  | cons c s ih =>
    rw [List.forall_mem_cons,lead]
    cases A.table c with
    | none => simp
    | some d => simpa using ih

theorem lead_append_all {s t : List α} (h : ∀ c ∈ s, (A.table c).isSome = true) :
    A.lead (s ++ t) = A.lead s ++ A.lead t ∧ A.rest (s ++ t) = A.rest t := by
  induction s with
  | nil => exact ⟨rfl,rfl⟩
  | cons c s ih =>
    obtain ⟨hc,hs⟩ := List.forall_mem_cons.mp h
    obtain ⟨d,hd⟩ := Option.isSome_iff_exists.mp hc
    obtain ⟨hlead,hrest⟩ := ih hs
    simp [lead,rest,hd,hlead,hrest]

theorem table_canonical (c : α) : A.table (A.canonical c) = A.table c := by
  unfold canonical
  cases hc : A.table c with
  | none => exact hc
  | some d => exact A.table_write d (A.table_lt c d hc)

theorem canonical_pad : A.canonical A.pad = A.pad := by simp [canonical,A.table_pad]

theorem canonical_eq_pad {c : α} : A.canonical c = A.pad ↔ c = A.pad := by
  constructor
  · intro h
    have htable := table_canonical (A := A) c
    rw [h,A.table_pad] at htable
    simpa [canonical,← htable] using h
  · rintro rfl
    exact canonical_pad

theorem lead_canonical (s : List α) :
    A.lead (s.map A.canonical) = A.lead s ∧ A.rest (s.map A.canonical) = (A.rest s).map A.canonical := by
  induction s with
  | nil => simp [lead,rest]
  | cons c s ih =>
    simp only [List.map_cons,lead,rest,table_canonical]
    cases A.table c with
    | none => exact ⟨rfl,rfl⟩
    | some d => exact ⟨congrArg _ ih.1,ih.2⟩

/-- In canonical signs a text is its digits and what is behind them. -/
theorem map_canonical (s : List α) :
    s.map A.canonical = (A.lead s).map A.write ++ (A.rest s).map A.canonical := by
  induction s with
  | nil => simp [lead,rest]
  | cons c s ih =>
    unfold lead rest
    cases hc : A.table c with
    | none => rfl
    | some d =>
      rw [List.map_cons,ih]
      simp [canonical,hc]

theorem padded_canonical {k v : Nat} : A.Padded (p.map A.canonical) k v ↔ A.Padded p k v := by
  have htake : (p.map A.canonical).take (A.signs k) = List.replicate (A.signs k) A.pad ↔
      p.take (A.signs k) = List.replicate (A.signs k) A.pad := by
    simp only [← List.map_take,List.eq_replicate_iff,List.length_map,List.forall_mem_map,
      canonical_eq_pad]
  have hget : A.table ((p.map A.canonical).getD (A.signs k) A.ending) =
      A.table (p.getD (A.signs k) A.ending) := by
    simp only [List.getD_eq_getElem?_getD,List.getElem?_map]
    cases p[A.signs k]? with
    | none => rfl
    | some c => exact table_canonical c
  rw [Padded,Padded,htake,hget]

theorem Decodes.canonical (h : A.Decodes s bytes invalid) :
    A.Decodes (s.map A.canonical) bytes invalid := by
  cases h with
  | intro hspells hk hinvalid =>
    obtain ⟨hlead,hrest⟩ := lead_canonical (A := A) s
    exact .intro (by rw [hlead]; exact hspells) hk (by rw [hrest,padded_canonical]; exact hinvalid)

/-- A text that was written is read back, also with something behind it that is no digit. -/
theorem Encodes.read (he : A.Encodes bytes s) (hg : g ≤ 8) (hp : A.table (p.headD A.ending) = none)
    (hd : A.Decodes (s ++ p) bytes' invalid) : bytes' = bytes ∧ invalid = false := by
  cases he with
  | @intro digits k hspells hk =>
    have hpad : A.table ((List.replicate (A.signs k) A.pad ++ p).headD A.ending) = none := by
      cases A.signs k with
      | zero => simpa using hp
      | succ n => simp [List.replicate_succ,A.table_pad]
    rw [List.append_assoc] at hd
    cases hd with
    | intro hspells' hk' hinvalid =>
      obtain ⟨hlead,hrest⟩ := lead_append (A := A) hspells.digits_lt hpad
      rw [hlead] at hspells'
      rw [hrest] at hinvalid
      obtain ⟨rfl,rfl,rfl⟩ := hspells.words_unique hspells' (by omega) hk'
      refine ⟨rfl,hinvalid.mpr ⟨hk,rfl,?_,?_⟩⟩
      · exact List.take_left' List.length_replicate
      · rw [List.getD_eq_getElem?_getD,List.getElem?_append_right (by simp)]
        simpa [List.headD_eq_head?_getD,List.head?_eq_getElem?] using hp

/-- A text that is taken for a valid one starts with the text that says the same bytes. -/
theorem Decodes.starts (hd : A.Decodes s bytes false) {text : List α} (he : A.Encodes bytes text) :
    ∃ p, s.map A.canonical = text ++ p ∧ A.table (p.headD A.ending) = none := by
  cases he with
  | @intro digits k hspells hk =>
    cases hd with
    | @intro k' v hspells' hk' hinvalid =>
      obtain ⟨hlt,rfl,htake,hget⟩ := padded_canonical.mpr (hinvalid.mp rfl)
      obtain ⟨hdigits,rfl⟩ := hspells'.digits_unique hspells hlt hk
      refine ⟨((A.rest s).map A.canonical).drop (A.signs k'),?_,?_⟩
      · rw [map_canonical,hdigits,List.append_assoc,← htake,List.take_append_drop]
      · simpa [List.headD_eq_head?_getD,List.head?_drop,List.getD_eq_getElem?_getD] using hget

/-- A machine that writes: the digits, and at the end what is left as a last digit, with padding
that depends on the mode. -/
theorem encodes_regroup {bits : List Nat} {step : Nat → Nat → Nat → List Nat × Nat × Nat}
    {nPadding : Nat → Nat} (h : Regroups 8 g bits (fun k => g-k) step) (hzero : bits[0]? = some 0)
    (hsigns : A.signs 0 = 0)
    (hbits : ∀ mode k, bits[mode]? = some k →
      k < g ∧ (mode ≠ 0 → 0 < k ∧ A.signs (g-k) = nPadding mode)) (pch : List UInt8) :
    A.Encodes (pch.map UInt8.toNat) ((regroup step 0 0 (pch.map UInt8.toNat)).1.map A.write ++
      if (regroup step 0 0 (pch.map UInt8.toNat)).2.1 ≠ 0 then
        A.write (regroup step 0 0 (pch.map UInt8.toNat)).2.2 ::
          List.replicate (nPadding (regroup step 0 0 (pch.map UInt8.toNat)).2.1) A.pad
      else []) := by
  have hbytes : ∀ b ∈ pch.map UInt8.toNat, b < 2^8 := by
    intro b hb
    obtain ⟨c,-,rfl⟩ := List.mem_map.mp hb
    exact c.toNat_lt
  obtain ⟨k,v,hkept,hspells⟩ := h.spells hzero 0 hbytes
  obtain ⟨hlt,hpadding⟩ := hbits _ k hkept.known
  split
  · rename_i hmode
    obtain ⟨hpos,hsame⟩ := hpadding hmode
    have hlast := Encodes.intro (A := A) (hspells.complete hlt) (by omega)
    rw [hsame,List.map_append,List.append_assoc,← Nat.shiftLeft_eq,← hkept.shifted hmode] at hlast
    exact hlast
  · rename_i hmode
    have hk : k = 0 := by
      have hknown := hkept.known
      rw [not_not.mp hmode,hzero] at hknown
      exact (Option.some.inj hknown).symm
    subst hk
    have hlast := Encodes.intro (A := A) hspells.whole hlt
    rwa [hsigns] at hlast

/-- A machine that reads: the bytes that the digits in front fill, and a check of the mode, of what
is left and of the rest of the text. -/
theorem decodes_regroup {bits : List Nat} {step : Nat → Nat → Nat → List Nat × Nat × Nat}
    {invalidEnd : Nat → Nat → List α → Bool} (h : Regroups g 8 bits (fun _ => 0) step)
    (hzero : bits[0]? = some 0) (hbits : ∀ mode k : Nat, bits[mode]? = some k → k < 8)
    (hinvalid : ∀ mode left k v p, Kept bits (fun _ => 0) mode left k v →
      A.table (p.headD A.ending) = none → (invalidEnd mode left p = false ↔ A.Padded p k v))
    (s : List α) :
    A.Decodes s (((regroup step 0 0 (A.lead s)).1.map UInt8.ofNat).map UInt8.toNat)
      (invalidEnd (regroup step 0 0 (A.lead s)).2.1 (regroup step 0 0 (A.lead s)).2.2 (A.rest s)) := by
  obtain ⟨k,v,hkept,hspells⟩ := h.spells hzero 0 (A.lead_lt s)
  have hbytes : ((regroup step 0 0 (A.lead s)).1.map UInt8.ofNat).map UInt8.toNat =
      (regroup step 0 0 (A.lead s)).1 := by
    rw [List.map_map]
    exact (List.map_congr_left fun x hx => UInt8.toNat_ofNat_of_lt' (hspells.words_lt x hx)).trans
      (List.map_id _)
  rw [hbytes]
  exact .intro hspells (hbits _ k hkept.known) (hinvalid _ _ k v _ hkept (A.table_rest s))

/-- A writer and a reader of bytes. -/
structure Codec (A : Alphabet α g) (encode : List UInt8 → List α)
    (decode : List α → List UInt8 × Bool) : Prop where
  narrow : g ≤ 8
  encodes : ∀ v, A.Encodes (v.map UInt8.toNat) (encode v)
  decodes : ∀ s, A.Decodes s ((decode s).1.map UInt8.toNat) (decode s).2

variable {encode : List UInt8 → List α} {decode : List α → List UInt8 × Bool}

theorem Codec.read_append (h : A.Codec encode decode) (v : List UInt8)
    (hp : A.table (p.headD A.ending) = none) : decode (encode v ++ p) = (v,false) := by
  obtain ⟨hbytes,hvalid⟩ := (h.encodes v).read h.narrow hp (h.decodes _)
  exact Prod.ext (List.map_injective_iff.mpr (fun a b => UInt8.toNat_inj.mp) hbytes) hvalid

theorem Codec.round_trip (h : A.Codec encode decode) (v : List UInt8) :
    decode (encode v) = (v,false) := by
  have hread := h.read_append (p := []) v A.table_ending
  rwa [List.append_nil] at hread

theorem write_ne_pad {d : Nat} (h : d < 2^g) : A.write d ≠ A.pad := by
  intro hpad
  have htable := A.table_write d h
  rw [hpad,A.table_pad] at htable
  contradiction

theorem Codec.exists_digits (h : A.Codec encode decode) (v : List UInt8) :
    ∃ digits k, Spells g 8 digits (v.map UInt8.toNat) k 0 ∧ k < g ∧
      encode v = digits.map A.write ++ List.replicate (A.signs k) A.pad := by
  have henc := h.encodes v
  generalize encode v = text at henc
  cases henc with
  | intro hspells hk => exact ⟨_,_,hspells,hk,rfl⟩

/-- Without its padding a text is read back too, but it is taken for an invalid one. -/
theorem Codec.read_unpadded [DecidableEq α] (h : A.Codec encode decode) (v : List UInt8) :
    ∃ digits k, Spells g 8 digits (v.map UInt8.toNat) k 0 ∧ k < g ∧
      encode v = digits.map A.write ++ List.replicate (A.signs k) A.pad ∧
      (encode v).filter (fun c => c ≠ A.pad) = digits.map A.write ∧
      (decode (digits.map A.write)).1 = v ∧
      ((decode (digits.map A.write)).2 = false ↔ A.signs k = 0) := by
  obtain ⟨digits,k,hspells,hk,htext⟩ := h.exists_digits v
  have hne : ∀ c ∈ digits.map A.write, c ≠ A.pad := by
    intro c hc
    obtain ⟨d,hd,rfl⟩ := List.mem_map.mp hc
    exact write_ne_pad (hspells.digits_lt d hd)
  obtain ⟨hlead,hrest⟩ := lead_append (A := A) (p := []) hspells.digits_lt A.table_ending
  rw [List.append_nil] at hlead hrest
  cases h.decodes (digits.map A.write) with
  | intro hspells' hk' hinvalid =>
    rw [hlead] at hspells'
    rw [hrest] at hinvalid
    have hg := h.narrow
    obtain ⟨hbytes,rfl,rfl⟩ := hspells'.words_unique hspells hk' (by omega)
    refine ⟨digits,_,hspells,hk,htext,?_,
      List.map_injective_iff.mpr (fun a b => UInt8.toNat_inj.mp) hbytes,hinvalid.trans ?_⟩
    · rw [htext,List.filter_append,List.filter_eq_self.mpr (by simpa using hne)]
      simp
    · simp [Padded,hk,A.table_ending]

theorem Codec.canonical_encode (h : A.Codec encode decode) (v : List UInt8) :
    (encode v).map A.canonical = encode v := by
  obtain ⟨digits,k,hspells,hk,htext⟩ := h.exists_digits v
  rw [htext,List.map_append,List.map_replicate,canonical_pad,List.map_map]
  congr 1
  refine List.map_congr_left fun d hd => ?_
  simp [canonical,A.table_write d (hspells.digits_lt d hd)]

/-- Written again, a text that is taken for a valid one is the same up to its signs, unless it goes
on with something that is no digit. -/
theorem Codec.strict_iff (h : A.Codec encode decode) (s : List α) :
    ((decode s).2 = false → encode (decode s).1 = s.map A.canonical) ↔
      ¬∃ v c t, s.map A.canonical = encode v ++ c :: t ∧ A.table c = none := by
  constructor
  · rintro hstrict ⟨v,c,t,hs,hc⟩
    have hd := (h.decodes s).canonical
    rw [hs] at hd
    obtain ⟨hbytes,hvalid⟩ := (h.encodes v).read h.narrow (p := c :: t) hc hd
    have hv : (decode s).1 = v :=
      List.map_injective_iff.mpr (fun a b => UInt8.toNat_inj.mp) hbytes
    have hsame := hstrict hvalid
    rw [hv,hs] at hsame
    exact List.cons_ne_nil c t (List.append_cancel_left (hsame.symm.trans (List.append_nil _).symm))
  · intro hno hvalid
    obtain ⟨p,hs,hp⟩ := Decodes.starts (hvalid ▸ h.decodes s) (h.encodes (decode s).1)
    cases p with
    | nil => rw [hs,List.append_nil]
    | cons c t => exact absurd ⟨_,c,t,hs,hp⟩ hno

end Alphabet

end Anoncoin.Lib
