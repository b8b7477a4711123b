import Mathlib.Data.List.Nodup
import Mathlib.Order.Lattice
import Mathlib.Tactic.Common

/-!
Tables in the order of their keys, in which a key may stand more than once: entries of one key
are in the order in which they came.
-/

set_option autoImplicit false

namespace Anoncoin.Lib

structure Multimap (ν κ : Type) [LinearOrder ν] where
  entries : List (ν × κ)
  sorted : entries.Pairwise fun a b => a.1 ≤ b.1

namespace Multimap
variable {ν κ : Type} [LinearOrder ν]

def empty : Multimap ν κ := ⟨[],.nil⟩

/-- Behind the entries of the same key. -/
def insertEntry (e : ν × κ) : List (ν × κ) → List (ν × κ)
  | [] => [e]
  | x :: rest => if e.1 < x.1 then e :: x :: rest else x :: insertEntry e rest

theorem insertEntry_perm (e : ν × κ) (entries : List (ν × κ)) :
    (insertEntry e entries).Perm (e :: entries) := by
  induction entries with
  | nil => exact .refl _
  | cons x rest ih =>
    unfold insertEntry
    split
    · exact .refl _
    · exact (ih.cons x).trans (.swap e x rest)

theorem insertEntry_sorted {entries : List (ν × κ)} (e : ν × κ)
    (h : entries.Pairwise fun a b => a.1 ≤ b.1) :
    (insertEntry e entries).Pairwise fun a b => a.1 ≤ b.1 := by
  induction entries with
  | nil => exact List.pairwise_singleton _ e
  | cons x rest ih =>
    obtain ⟨hx,hrest⟩ := List.pairwise_cons.mp h
    unfold insertEntry
    split
    · rename_i hlt
      refine List.pairwise_cons.mpr ⟨fun y hy => ?_,h⟩
      rcases List.mem_cons.mp hy with rfl | hy
      · exact hlt.le
      · exact hlt.le.trans (hx y hy)
    · rename_i hle
      refine List.pairwise_cons.mpr ⟨fun y hy => ?_,ih hrest⟩
      rcases List.mem_cons.mp ((insertEntry_perm e rest).mem_iff.mp hy) with rfl | hy
      · exact not_lt.mp hle
      · exact hx y hy

def insert (t : Multimap ν κ) (v : ν) (k : κ) : Multimap ν κ :=
  ⟨insertEntry (v,k) t.entries,insertEntry_sorted (v,k) t.sorted⟩

/-- The first entry; there is none at the end. -/
def begin (t : Multimap ν κ) : Option (ν × κ) := t.entries.head?

def eraseBegin (t : Multimap ν κ) : Multimap ν κ := ⟨t.entries.tail,t.sorted.tail⟩

def equalRange (t : Multimap ν κ) (v : ν) : List (ν × κ) := t.entries.filter fun e => e.1 = v

section Entries
variable {t : Multimap ν κ} {v : ν} {k : κ} {e x : ν × κ}

@[simp] theorem mem_insert : x ∈ (t.insert v k).entries ↔ x = (v,k) ∨ x ∈ t.entries :=
  (insertEntry_perm (v,k) t.entries).mem_iff.trans List.mem_cons

theorem nodup_insert (h : t.entries.Nodup) (hnew : (v,k) ∉ t.entries) :
    (t.insert v k).entries.Nodup :=
  (insertEntry_perm (v,k) t.entries).nodup_iff.mpr (List.nodup_cons.mpr ⟨hnew,h⟩)

theorem begin_mem (h : t.begin = some e) : e ∈ t.entries := List.mem_of_mem_head? h

/-- The first entry has the lowest key. -/
theorem begin_le (h : t.begin = some e) (hx : x ∈ t.entries) : e.1 ≤ x.1 := by
  obtain ⟨entries,hsorted⟩ := t
  cases entries with
  | nil => contradiction
  | cons y rest =>
    obtain rfl := Option.some.inj h
    rcases List.mem_cons.mp hx with rfl | hx
    · exact le_rfl
    · exact (List.pairwise_cons.mp hsorted).1 x hx

theorem length_eraseBegin (h : t.begin = some e) :
    t.eraseBegin.entries.length < t.entries.length := by
  rw [eraseBegin,List.length_tail]
  have := List.length_pos_of_mem (begin_mem h)
  omega

end Entries

section Keys
variable [DecidableEq κ] {t : Multimap ν κ} {v : ν} {k : κ} {e x : ν × κ}

def eraseEntry (t : Multimap ν κ) (e : ν × κ) : Multimap ν κ :=
  ⟨t.entries.erase e,t.sorted.sublist List.erase_sublist⟩

theorem mem_eraseEntry (h : t.entries.Nodup) :
    x ∈ (t.eraseEntry e).entries ↔ x ≠ e ∧ x ∈ t.entries := h.mem_erase_iff

theorem nodup_eraseEntry (h : t.entries.Nodup) : (t.eraseEntry e).entries.Nodup := h.erase e

/-- Erasing the first entry is erasing an entry. -/
theorem eraseBegin_eq (h : t.begin = some e) : t.eraseBegin = t.eraseEntry e := by
  obtain ⟨entries,hsorted⟩ := t
  cases entries with
  | nil => contradiction
  | cons x rest =>
    obtain rfl := Option.some.inj h
    simp [eraseBegin,eraseEntry]

/-- What a search of the range for an entry finds. -/
theorem find_equalRange (h : (v,k) ∈ t.entries) :
    (t.equalRange v).find? (fun e => e.2 = k) = some (v,k) := by
  have hmem : (v,k) ∈ t.equalRange v := by simpa [equalRange] using h
  cases hfind : (t.equalRange v).find? fun e => e.2 = k with
  | none => exact absurd (List.find?_eq_none.mp hfind _ hmem) (by simp)
  | some e =>
    have hkey := List.find?_some hfind
    have hrange := (List.mem_filter.mp (List.mem_of_find?_eq_some hfind)).2
    simp only [decide_eq_true_eq] at hkey hrange
    rw [← hkey,← hrange]

end Keys

end Multimap

end Anoncoin.Lib
