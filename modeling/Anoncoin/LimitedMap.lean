import Anoncoin.Lib.Multimap
import Anoncoin.Lib.Runs
import Mathlib.Data.List.AList

/-!
The map that keeps the elements with the highest values (limitedmap.h).
-/

set_option autoImplicit false

namespace Anoncoin
open Lib

/-- An iterator in `rmap` is given by its key. -/
structure LimitedMap (K V : Type) [LinearOrder V] where
  map : AList fun _ : K => V
  rmap : Multimap V K
  nMaxSize : Nat

/-- A call of the functions that change the map; the iterator that `update` is given is the one
of a key. -/
inductive LimitedCall (K V : Type) where
  | insert (k : K) (v : V)
  | erase (k : K)
  | update (k : K) (v : V)
  | maxSize (s : Nat)

namespace LimitedMap
variable {K V : Type} [DecidableEq K] [LinearOrder V]

def new (nMaxSizeIn : Nat) : LimitedMap K V := ⟨∅,.empty,nMaxSizeIn⟩

def size (m : LimitedMap K V) : Nat := m.map.keys.length

/-- The element at the beginning of `rmap` goes; `none` is its end dereferenced. -/
def eraseLowest (m : LimitedMap K V) : Option (LimitedMap K V) :=
  m.rmap.begin.map fun lowest =>
    { m with map := m.map.erase lowest.2, rmap := m.rmap.eraseBegin }

def insert (m : LimitedMap K V) (k : K) (v : V) : Option (LimitedMap K V) :=
  if (m.map.lookup k).isSome then some m
  else do
    let m := { m with map := m.map.insert k v }
    let m ← if m.nMaxSize ≠ 0 ∧ m.size = m.nMaxSize then m.eraseLowest else some m
    pure { m with rmap := m.rmap.insert v k }

/-- `none` is the assertion behind the loop. -/
def findEntry (m : LimitedMap K V) (k : K) (v : V) : Option (V × K) :=
  (m.rmap.equalRange v).find? fun e => e.2 = k

def erase (m : LimitedMap K V) (k : K) : Option (LimitedMap K V) :=
  match m.map.lookup k with
  | none => some m
  | some v => do
      let e ← m.findEntry k v
      pure { m with rmap := m.rmap.eraseEntry e, map := m.map.erase k }

def update (m : LimitedMap K V) (k : K) (v : V) : Option (LimitedMap K V) :=
  match m.map.lookup k with
  | none => some m
  | some old => do
      let e ← m.findEntry k old
      pure { m with rmap := (m.rmap.eraseEntry e).insert v k, map := m.map.insert k v }

/-- The loop of `max_size`. -/
def shrink (s : Nat) (m : LimitedMap K V) : Option (LimitedMap K V) :=
  if s < m.size then
    match _h : m.eraseLowest with
    | none => none
    | some m' => shrink s m'
  else some m
  termination_by m.rmap.entries.length
  decreasing_by
    obtain ⟨lowest,hbegin,rfl⟩ := Option.map_eq_some_iff.mp _h
    exact Multimap.length_eraseBegin hbegin

def maxSize (m : LimitedMap K V) (s : Nat) : Option (LimitedMap K V) := do
  let m ← if s ≠ 0 then m.shrink s else some m
  pure { m with nMaxSize := s }

def call (m : LimitedMap K V) : LimitedCall K V → Option (LimitedMap K V)
  | .insert k v => m.insert k v
  | .erase k => m.erase k
  | .update k v => m.update k v
  | .maxSize s => m.maxSize s

section Index

/-- `rmap` is the inverse of `map`. -/
structure Inverse (m : LimitedMap K V) : Prop where
  nodup : m.rmap.entries.Nodup
  entries : ∀ v k, (v,k) ∈ m.rmap.entries ↔ m.map.lookup k = some v

variable {m m' : LimitedMap K V} {k : K} {v : V} {n : Nat}

theorem inverse_new : (new n : LimitedMap K V).Inverse :=
  ⟨.nil,fun v k => by simp [new,Multimap.empty]⟩

theorem Inverse.congr (h : m.Inverse) (hrmap : m'.rmap = m.rmap)
    (hmap : ∀ k, m'.map.lookup k = m.map.lookup k) : m'.Inverse := by
  refine ⟨hrmap ▸ h.nodup,fun v k => ?_⟩
  rw [hrmap,hmap,h.entries]

theorem Inverse.findEntry (h : m.Inverse) (hl : m.map.lookup k = some v) :
    m.findEntry k v = some (v,k) := Multimap.find_equalRange ((h.entries v k).mpr hl)

theorem Inverse.insertNew (h : m.Inverse) (hl : m.map.lookup k = none) (v : V) :
    { m with map := m.map.insert k v, rmap := m.rmap.insert v k }.Inverse := by
  have hnew : ∀ v', (v',k) ∉ m.rmap.entries := fun v' hmem => by
    rw [h.entries,hl] at hmem
    contradiction
  refine ⟨Multimap.nodup_insert h.nodup (hnew v),fun v' k' => ?_⟩
  rw [Multimap.mem_insert,h.entries,Prod.mk.injEq]
  by_cases hk : k' = k
  · subst hk
    simp [hl,eq_comm]
  · simp [hk]

theorem Inverse.eraseKey (h : m.Inverse) (hl : m.map.lookup k = some v) :
    { m with map := m.map.erase k, rmap := m.rmap.eraseEntry (v,k) }.Inverse := by
  refine ⟨Multimap.nodup_eraseEntry h.nodup,fun v' k' => ?_⟩
  rw [Multimap.mem_eraseEntry h.nodup,h.entries,Ne,Prod.mk.injEq]
  by_cases hk : k' = k
  · subst hk
    simp [hl,eq_comm]
  · simp [hk]

/-- What is at the beginning of `rmap`: an element with the lowest value. -/
theorem Inverse.begin_spec (h : m.Inverse) (hbegin : m.rmap.begin = some (v,k)) :
    m.map.lookup k = some v ∧ m.rmap.eraseBegin = m.rmap.eraseEntry (v,k) ∧
      ∀ k' v', m.map.lookup k' = some v' → v ≤ v' :=
  ⟨(h.entries v k).mp (Multimap.begin_mem hbegin),Multimap.eraseBegin_eq hbegin,
    fun k' v' hl => Multimap.begin_le hbegin ((h.entries v' k').mpr hl)⟩

theorem Inverse.exists_begin (h : m.Inverse) (hsize : m.size ≠ 0) :
    ∃ v k, m.rmap.begin = some (v,k) := by
  obtain ⟨k,hk⟩ := List.exists_mem_of_length_pos (Nat.pos_of_ne_zero hsize)
  obtain ⟨v,hl⟩ := Option.isSome_iff_exists.mp (AList.lookup_isSome.mpr hk)
  cases hbegin : m.rmap.begin with
  | some e => exact ⟨e.1,e.2,rfl⟩
  | none =>
    rw [← h.entries,List.head?_eq_none_iff.mp hbegin] at hl
    contradiction

theorem size_insertNew (hl : m.map.lookup k = none) (v : V) :
    (m.map.insert k v).keys.length = m.size+1 := by
  have hk : k ∉ m.map.keys := AList.lookup_eq_none.mp hl
  rw [AList.keys_insert,List.erase_of_not_mem hk]
  rfl

theorem size_eraseKey (hl : m.map.lookup k = some v) :
    (m.map.erase k).keys.length+1 = m.size := by
  have hk : k ∈ m.map.keys := AList.lookup_isSome.mp (by rw [hl]; rfl)
  rw [AList.keys_erase,List.length_erase_of_mem hk,size]
  have := List.length_pos_of_mem hk
  omega

end Index

section Calls
variable {m m' : LimitedMap K V} {k : K} {v : V}

theorem Inverse.erase (h : m.Inverse) (k : K) : ∃ m', m.erase k = some m' ∧ m'.Inverse ∧
    m'.nMaxSize = m.nMaxSize ∧ m'.size ≤ m.size := by
  unfold LimitedMap.erase
  cases hl : m.map.lookup k with
  | none => exact ⟨m,rfl,h,rfl,le_rfl⟩
  | some v =>
    have hsize := size_eraseKey hl
    simp only [h.findEntry hl,Option.bind_eq_bind,Option.bind_some]
    exact ⟨_,rfl,h.eraseKey hl,rfl,by simp only [size] at *; omega⟩

theorem Inverse.update (h : m.Inverse) (k : K) (v : V) : ∃ m', m.update k v = some m' ∧
    m'.Inverse ∧ m'.nMaxSize = m.nMaxSize ∧ m'.size ≤ m.size := by
  unfold LimitedMap.update
  cases hl : m.map.lookup k with
  | none => exact ⟨m,rfl,h,rfl,le_rfl⟩
  | some old =>
    have hsize := size_eraseKey hl
    simp only [h.findEntry hl,Option.bind_eq_bind,Option.bind_some]
    refine ⟨_,rfl,((h.eraseKey hl).insertNew (AList.lookup_erase k m.map) v).congr rfl fun k' => ?_,
      rfl,?_⟩
    · by_cases hk : k' = k
      · subst hk
        simp
      · simp [hk]
    · simp only [size,AList.keys_insert,AList.keys_erase,List.length_cons] at *
      omega

/-- The loop goes on while it can and keeps the elements with the highest values. -/
theorem Inverse.shrink (h : m.Inverse) (s : Nat) : ∃ m', m.shrink s = some m' ∧ m'.Inverse ∧
    m'.nMaxSize = m.nMaxSize ∧ m'.size ≤ s ∧
    (∀ k v, m'.map.lookup k = some v → m.map.lookup k = some v) ∧
    ∀ k v k' v', m'.map.lookup k = some v → m.map.lookup k' = some v' →
      m'.map.lookup k' = none → v' ≤ v := by
  induction hn : m.size using Nat.strong_induction_on generalizing m with
  | _ n ih =>
    subst hn
    unfold LimitedMap.shrink
    by_cases hs : s < m.size
    · obtain ⟨v,k,hbegin⟩ := h.exists_begin (by omega)
      obtain ⟨hl,herase,hlowest⟩ := h.begin_spec hbegin
      have hstep : m.eraseLowest =
          some { m with map := m.map.erase k, rmap := m.rmap.eraseEntry (v,k) } := by
        rw [eraseLowest,hbegin,← herase]
        rfl
      have hsize := size_eraseKey hl
      obtain ⟨m',hrest,hm',hmax,hle,hsub,hkept⟩ := ih _ (by simp only [size] at *; omega)
        (h.eraseKey hl) rfl
      have hback : ∀ k' v', (m.map.erase k).lookup k' = some v' → m.map.lookup k' = some v' := by
        intro k' v' hl'
        by_cases hk : k' = k
        · subst hk
          simp at hl'
        · rwa [AList.lookup_erase_ne hk] at hl'
      refine ⟨m',?_,hm',hmax,hle,fun k' v' hl' => hback k' v' (hsub k' v' hl'),?_⟩
      · rw [if_pos hs]
        split
        · rename_i hnone
          exact absurd (hstep.symm.trans hnone) (by simp)
        · rename_i m₁ hsome
          obtain rfl := Option.some.inj (hstep.symm.trans hsome)
          exact hrest
      · intro k₁ v₁ k₂ v₂ hl₁ hl₂ hnone
        by_cases hk : k₂ = k
        · -- the element that went here is not above any other one
          subst hk
          obtain rfl := Option.some.inj (hl.symm.trans hl₂)
          exact hlowest k₁ v₁ (hback k₁ v₁ (hsub k₁ v₁ hl₁))
        · exact hkept k₁ v₁ k₂ v₂ hl₁ (by rwa [AList.lookup_erase_ne hk]) hnone
    · rw [if_neg hs]
      refine ⟨m,rfl,h,rfl,by omega,fun k v hl => hl,fun k v k' v' _ hl hnone => ?_⟩
      rw [hl] at hnone
      contradiction

theorem Inverse.maxSize (h : m.Inverse) (s : Nat) : ∃ m', m.maxSize s = some m' ∧ m'.Inverse ∧
    m'.nMaxSize = s ∧ (s ≠ 0 → m'.size ≤ s) := by
  unfold LimitedMap.maxSize
  by_cases hs : s = 0
  · subst hs
    exact ⟨{ m with nMaxSize := 0 },rfl,h.congr rfl fun _ => rfl,rfl,fun h => absurd rfl h⟩
  · obtain ⟨m',hshrink,hm',-,hle,-⟩ := h.shrink s
    rw [if_pos hs,hshrink]
    exact ⟨{ m' with nMaxSize := s },rfl,hm'.congr rfl fun _ => rfl,rfl,fun _ => hle⟩

/-- Where there is room an insertion adds the element. -/
theorem Inverse.insert (h : m.Inverse) (hl : m.map.lookup k = none) (v : V)
    (hroom : m.nMaxSize ≠ 0 → m.size+1 ≠ m.nMaxSize) : m.insert k v =
      some { m with map := m.map.insert k v, rmap := m.rmap.insert v k } ∧
    { m with map := m.map.insert k v, rmap := m.rmap.insert v k }.Inverse := by
  have hsize := size_insertNew hl v
  refine ⟨?_,h.insertNew hl v⟩
  rw [LimitedMap.insert,hl,if_neg (by simp),if_neg]
  · rfl
  · rintro ⟨hmax,hfull⟩
    exact hroom hmax (hsize.symm.trans hfull)

end Calls

section Runs
variable {m m' : LimitedMap K V}

def Bounded (m : LimitedMap K V) : Prop := m.nMaxSize ≠ 0 → m.size ≤ m.nMaxSize

/-- An element of the map, or the one that is inserted. -/
def Candidate (m : LimitedMap K V) (k : K) (v : V) (x : K × V) : Prop :=
  m.map.lookup x.1 = some x.2 ∨ (m.map.lookup k = none ∧ x = (k,v))

/-- What goes when an element is inserted is above the maximum and has the lowest value. -/
def Fair (m : LimitedMap K V) (k : K) (v : V) (m' : LimitedMap K V) : Prop :=
  ∀ x, m.Candidate k v x → m'.map.lookup x.1 = none →
    (m.nMaxSize ≠ 0 ∧ m.nMaxSize < m.size+1) ∧ ∀ y, m.Candidate k v y → x.2 ≤ y.2

/-- The call returns and keeps the elements with the highest values. -/
def KeepsHighest (m : LimitedMap K V) (c : LimitedCall K V) : Prop :=
  ∃ m', m.call c = some m' ∧ m'.Inverse ∧ m'.Bounded ∧ ∀ k v, c = .insert k v → m.Fair k v m'

/-- A new element is inserted only where there is room for one more. -/
def HasRoom (m : LimitedMap K V) (c : LimitedCall K V) : Prop :=
  ∀ k v, c = .insert k v → m.map.lookup k = none → m.nMaxSize ≠ 0 → m.size+1 < m.nMaxSize

/-- Nothing goes when the element is only added. -/
theorem fair_of_added {k : K} {v : V} (hmap : m'.map = m.map.insert k v) : m.Fair k v m' := by
  intro x hx hnone
  rw [hmap] at hnone
  rcases hx with hold | ⟨-,rfl⟩
  · by_cases hk : x.1 = k
    · rw [hk,AList.lookup_insert] at hnone
      contradiction
    · rw [AList.lookup_insert_ne hk,hold] at hnone
      contradiction
  · rw [AList.lookup_insert] at hnone
    contradiction

/-- The last element that fits puts another one out, though there is room for both. -/
theorem not_fair_of_last (h : m.Inverse) {k : K} {v : V} (hl : m.map.lookup k = none)
    (hlast : m.size+1 = m.nMaxSize) (hcall : m.insert k v = some m') : ¬m.Fair k v m' := by
  have hsize := size_insertNew hl v
  rw [LimitedMap.insert,hl,if_neg (by simp)] at hcall
  simp only [size,hsize] at hcall
  rw [if_pos ⟨by omega,hlast⟩] at hcall
  obtain ⟨m₁,herase,hcall⟩ := Option.bind_eq_some_iff.mp hcall
  obtain ⟨⟨v₀,k₀⟩,hbegin,rfl⟩ := Option.map_eq_some_iff.mp herase
  obtain rfl := Option.some.inj hcall
  intro hfair
  have hgone := (hfair (k₀,v₀) (.inl (h.begin_spec hbegin).1) (AList.lookup_erase k₀ _)).1.2
  omega

theorem keepsHighest_iff (h : m.Inverse) (hb : m.Bounded) (c : LimitedCall K V) :
    m.KeepsHighest c ↔ m.HasRoom c := by
  cases c with
  | erase k =>
    obtain ⟨m',hcall,hm',hmax,hle⟩ := h.erase k
    have hbound : m'.Bounded := fun hne => hle.trans (hmax ▸ hb (hmax ▸ hne))
    exact iff_of_true ⟨m',hcall,hm',hbound,by simp⟩ (by simp [HasRoom])
  | update k v =>
    obtain ⟨m',hcall,hm',hmax,hle⟩ := h.update k v
    have hbound : m'.Bounded := fun hne => hle.trans (hmax ▸ hb (hmax ▸ hne))
    exact iff_of_true ⟨m',hcall,hm',hbound,by simp⟩ (by simp [HasRoom])
  | maxSize s =>
    obtain ⟨m',hcall,hm',hmax,hle⟩ := h.maxSize s
    have hbound : m'.Bounded := fun hne => hmax ▸ hle (hmax ▸ hne)
    exact iff_of_true ⟨m',hcall,hm',hbound,by simp⟩ (by simp [HasRoom])
  | insert k v =>
    have hroom_iff : m.HasRoom (.insert k v) ↔
        (m.map.lookup k = none → m.nMaxSize ≠ 0 → m.size+1 < m.nMaxSize) := by
      simp [HasRoom]
    rw [hroom_iff]
    by_cases hl : m.map.lookup k = none
    · by_cases hlast : m.size+1 = m.nMaxSize
      · refine iff_of_false ?_ fun hroom => ?_
        · rintro ⟨m',hcall,-,-,hfair⟩
          exact not_fair_of_last h hl hlast hcall (hfair k v rfl)
        · have := hroom hl (by omega)
          omega
      · obtain ⟨hcall,hm'⟩ := h.insert hl v fun _ => hlast
        have hsize := size_insertNew hl v
        constructor
        · rintro ⟨m',hcall',-,hbound,-⟩ - hmax
          obtain rfl := Option.some.inj (hcall.symm.trans hcall')
          have hle := (hsize.symm.le).trans (hbound hmax)
          exact lt_of_le_of_ne hle hlast
        · intro hroom
          refine ⟨_,hcall,hm',fun hmax => hsize.le.trans (hroom hl hmax).le,fun k' v' heq => ?_⟩
          obtain ⟨rfl,rfl⟩ := LimitedCall.insert.inj heq
          exact fair_of_added rfl
    · refine iff_of_true ⟨m,?_,h,hb,fun k' v' heq x hx hnone => ?_⟩ fun hnone => absurd hnone hl
      · exact if_pos (Option.isSome_iff_ne_none.mpr hl)
      · obtain ⟨rfl,rfl⟩ := LimitedCall.insert.inj heq
        rcases hx with hold | ⟨hnew,-⟩
        · rw [hold] at hnone
          contradiction
        · contradiction

/-- The map keeps the elements with the highest values in exactly those runs that never fill it:
what is inserted as the last element that fits already puts another one out. -/
theorem keepsHighest_run_iff (nMaxSizeIn : Nat) (calls : List (LimitedCall K V)) :
    Always call KeepsHighest (new nMaxSizeIn) calls ↔
      Always call HasRoom (new nMaxSizeIn) calls := by
  let m₀ : LimitedMap K V := new nMaxSizeIn
  have hstart : m₀.Inverse ∧ m₀.Bounded := ⟨inverse_new,fun _ => Nat.zero_le _⟩
  have hok (m : LimitedMap K V) (c : LimitedCall K V) (hm : m.Inverse ∧ m.Bounded) :=
    keepsHighest_iff hm.1 hm.2 c
  refine Always.iff hstart hok fun m c m' hm hkeeps hcall => ?_
  obtain ⟨m₁,hcall₁,hinverse,hbound,-⟩ := hkeeps
  obtain rfl := Option.some.inj (hcall₁.symm.trans hcall)
  exact ⟨hinverse,hbound⟩

/-- With a maximum of one nothing can be inserted; with a maximum of two the second element puts
the first one out, also when its own value is lower. -/
theorem highest_not_kept :
    ((new 1).insert 1 10 : Option (LimitedMap Nat Nat)) = none ∧
    (((new 2).insert 1 10).bind fun m : LimitedMap Nat Nat => (m.insert 2 5).map fun m' =>
      (m.size,m'.size,m'.map.lookup 1,m'.map.lookup 2)) = some (1,1,none,some 5) ∧
    ¬∀ (nMaxSizeIn : Nat) (calls : List (LimitedCall Nat Nat)), 1 ≤ nMaxSizeIn →
      Always call KeepsHighest (new nMaxSizeIn) calls := by
  have hnone : ((new 1).insert 1 10 : Option (LimitedMap Nat Nat)) = none := by rfl
  refine ⟨hnone,by decide,fun h => ?_⟩
  obtain ⟨⟨m',hcall,-⟩,-⟩ := h 1 [.insert 1 10] le_rfl
  exact absurd (hnone.symm.trans hcall) (by simp)

end Runs

end LimitedMap

end Anoncoin
