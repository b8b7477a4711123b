import Anoncoin.Bloom
import Anoncoin.Lib.Staggered

/-!
The filter of the most recent keys (bloom.h, bloom.cpp): two filters that are cleared in turn.
-/

set_option autoImplicit false

namespace Anoncoin
open Lib

def BLOOM_UPDATE_NONE : UInt8 := 0

/-- What is computed with floating-point numbers for a filter: the number of its bits from the
number of elements, and that of its hash functions from the bits per element. -/
structure FilterSizes where
  bits : Uint32 → Uint32
  hashFuncs : Nat → Uint32

namespace CBloomFilter

/-- The private constructor; `none` is a division by zero. -/
def forRolling (sizes : FilterSizes) (nElements nTweak : Uint32) : Option CBloomFilter :=
  let vData := List.replicate ((sizes.bits nElements).toNat/8) 0
  if nElements = 0 then none
  else
    some { vData := vData
           isFull := false
           isEmpty := true
           nHashFuncs := sizes.hashFuncs (vData.length*8/nElements.toNat)
           nTweak := nTweak
           nFlags := BLOOM_UPDATE_NONE }

def clear (f : CBloomFilter) : CBloomFilter :=
  { f with vData := List.replicate f.vData.length 0, isFull := false, isEmpty := true }

/-- The keys for which `contains` is true. -/
def contained (f : CBloomFilter) : Set (List UInt8) := {vKey | f.contains vKey = some true}

/-- The filters that can be cleared: their arrays are not empty. -/
structure Usable (f : CBloomFilter) : Prop where
  nonempty : f.vData ≠ []
  bounded : f.vData.length*8 < 2^64

variable {f : CBloomFilter}

theorem Usable.indexed (h : f.Usable) : f.Indexed := ⟨fun _ => h.nonempty,h.bounded⟩

theorem Usable.clear (h : f.Usable) : f.clear.Usable where
  nonempty := by simpa [CBloomFilter.clear] using h.nonempty
  bounded := by simpa [CBloomFilter.clear] using h.bounded

/-- A key is added to those that the filter contains. -/
theorem Usable.insert (h : f.Usable) (vKey : List UInt8) : ∃ f', f.insert vKey = some f' ∧
    f'.Usable ∧ f.contained ⊆ f'.contained ∧ vKey ∈ f'.contained := by
  obtain ⟨f',hinsert,hgrows,hkey⟩ := insert_spec h.indexed vKey
  refine ⟨f',hinsert,⟨fun hnil => ?_,?_⟩,fun other hother => hgrows.contains h.indexed hother,hkey⟩
  · have hlen := hgrows.length
    rw [hnil] at hlen
    exact h.nonempty (List.length_eq_zero_iff.mp hlen.symm)
  · rw [hgrows.length]
    exact h.bounded

theorem usable_forRolling {sizes : FilterSizes} {nElements nTweak : Uint32}
    (h : forRolling sizes nElements nTweak = some f) (hbits : f.vData ≠ []) : f.Usable := by
  refine ⟨hbits,?_⟩
  simp only [forRolling,Option.ite_none_left_eq_some,Option.some.injEq] at h
  obtain ⟨-,rfl⟩ := h
  have hlt := (sizes.bits nElements).isLt
  rw [List.length_replicate]
  omega

end CBloomFilter

structure CRollingBloomFilter where
  nBloomSize : Uint32
  nInsertions : Uint32
  b1 : CBloomFilter
  b2 : CBloomFilter
  deriving DecidableEq, Repr

/-- A call of the public functions that change the filter. -/
inductive RollingCall where
  | insert (vKey : List UInt8)
  | clear

namespace CRollingBloomFilter

def new (sizes : FilterSizes) (nElements nTweak : Uint32) : Option CRollingBloomFilter := do
  let b1 ← CBloomFilter.forRolling sizes (nElements*2) nTweak
  let b2 ← CBloomFilter.forRolling sizes (nElements*2) nTweak
  pure ⟨nElements*2,0,b1,b2⟩

/-- The clearing at the start of `insert`. -/
def stagger (r : CRollingBloomFilter) : CRollingBloomFilter :=
  if r.nInsertions = 0 then { r with b1 := r.b1.clear }
  else if r.nInsertions = r.nBloomSize/2 then { r with b2 := r.b2.clear }
  else r

def insert (r : CRollingBloomFilter) (vKey : List UInt8) : Option CRollingBloomFilter := do
  let r := r.stagger
  let b1 ← r.b1.insert vKey
  let b2 ← r.b2.insert vKey
  let nInsertions := r.nInsertions+1
  pure { r with
    nInsertions := if nInsertions = r.nBloomSize then 0 else nInsertions
    b1 := b1
    b2 := b2 }

def contains (r : CRollingBloomFilter) (vKey : List UInt8) : Option Bool :=
  if r.nInsertions < r.nBloomSize/2 then r.b2.contains vKey else r.b1.contains vKey

def clear (r : CRollingBloomFilter) : CRollingBloomFilter :=
  { r with b1 := r.b1.clear, b2 := r.b2.clear, nInsertions := 0 }

def call (r : CRollingBloomFilter) : RollingCall → Option CRollingBloomFilter
  | .insert vKey => r.insert vKey
  | .clear => some r.clear

def run (r : CRollingBloomFilter) (calls : List RollingCall) : Option CRollingBloomFilter :=
  calls.foldlM call r

/-- The keys inserted since the last call of `clear`. -/
def insertedKeys (calls : List RollingCall) : List (List UInt8) :=
  calls.foldl (fun keys c =>
    match c with
    | .insert vKey => keys ++ [vKey]
    | .clear => []) []

variable {r : CRollingBloomFilter} {n : Nat} {keys : List (List UInt8)}

/-- The two filters are staggered with the keys since the last `clear`. -/
structure Kept (n : Nat) (r : CRollingBloomFilter) (keys : List (List UInt8)) : Prop where
  size : r.nBloomSize.toNat = 2*n
  usable1 : r.b1.Usable
  usable2 : r.b2.Usable
  staggered : Staggered n r.nInsertions.toNat r.b1.contained r.b2.contained keys

theorem Kept.half (h : Kept n r keys) : (r.nBloomSize/2).toNat = n := by
  rw [BitVec.toNat_udiv,h.size]
  simp

/-- What the clearing leaves of the two filters. -/
theorem Kept.stagger (h : Kept n r keys) :
    r.stagger.nBloomSize = r.nBloomSize ∧ r.stagger.nInsertions = r.nInsertions ∧
      r.stagger.b1.Usable ∧ r.stagger.b2.Usable ∧
      (r.nInsertions.toNat ≠ 0 → r.stagger.b1 = r.b1) ∧
      (r.nInsertions.toNat ≠ n → r.stagger.b2 = r.b2) := by
  unfold CRollingBloomFilter.stagger
  by_cases hzero : r.nInsertions = 0
  · rw [if_pos hzero]
    refine ⟨rfl,rfl,h.usable1.clear,h.usable2,fun hne => ?_,fun _ => rfl⟩
    exact absurd (congrArg BitVec.toNat hzero) hne
  · rw [if_neg hzero]
    by_cases hhalf : r.nInsertions = r.nBloomSize/2
    · rw [if_pos hhalf]
      refine ⟨rfl,rfl,h.usable1,h.usable2.clear,fun _ => rfl,fun hne => ?_⟩
      exact absurd ((congrArg BitVec.toNat hhalf).trans h.half) hne
    · rw [if_neg hhalf]
      exact ⟨rfl,rfl,h.usable1,h.usable2,fun _ => rfl,fun _ => rfl⟩

theorem Kept.insert (h : Kept n r keys) (vKey : List UInt8) :
    ∃ r', r.insert vKey = some r' ∧ Kept n r' (keys ++ [vKey]) := by
  obtain ⟨hsize,hcount,husable1,husable2,hsame1,hsame2⟩ := h.stagger
  obtain ⟨b1,hinsert1,hb1,hsub1,hkey1⟩ := husable1.insert vKey
  obtain ⟨b2,hinsert2,hb2,hsub2,hkey2⟩ := husable2.insert vKey
  have hsum : (r.nInsertions+1).toNat = r.nInsertions.toNat+1 := by
    have hphase := h.staggered.phase
    have hlt := r.nBloomSize.isLt
    rw [h.size] at hlt
    rw [BitVec.toNat_add]
    exact Nat.mod_eq_of_lt (by simp; omega)
  have hphase : (if r.nInsertions+1 = r.nBloomSize then (0 : Uint32) else r.nInsertions+1).toNat =
      if r.nInsertions.toNat+1 = 2*n then 0 else r.nInsertions.toNat+1 := by
    have hlast : r.nInsertions+1 = r.nBloomSize ↔ r.nInsertions.toNat+1 = 2*n := by
      rw [← BitVec.toNat_inj,hsum,h.size]
    simp only [hlast]
    split
    · rfl
    · exact hsum
  refine ⟨⟨r.nBloomSize,if r.nInsertions+1 = r.nBloomSize then 0 else r.nInsertions+1,b1,b2⟩,?_,
    h.size,hb1,hb2,?_⟩
  · simp [CRollingBloomFilter.insert,hinsert1,hinsert2,hsize,hcount]
  · rw [hphase]
    refine h.staggered.add (fun hne => ?_) (fun hne => ?_) hkey1 hkey2
    · rwa [hsame1 hne] at hsub1
    · rwa [hsame2 hne] at hsub2

theorem Kept.clear (h : Kept n r keys) : Kept n r.clear [] where
  size := h.size
  usable1 := h.usable1.clear
  usable2 := h.usable2.clear
  staggered := .init (by have := h.staggered.phase; omega)

theorem Kept.run (h : Kept n r []) (calls : List RollingCall) :
    ∃ r', r.run calls = some r' ∧ Kept n r' (insertedKeys calls) := by
  induction calls using List.reverseRecOn with
  | nil => exact ⟨r,rfl,h⟩
  | append_singleton calls c ih =>
    obtain ⟨mid,hrun,hmid⟩ := ih
    have hstep : ∃ r', mid.call c = some r' ∧ Kept n r' (insertedKeys (calls ++ [c])) := by
      rw [insertedKeys,List.foldl_concat]
      cases c with
      | insert vKey => exact hmid.insert vKey
      | clear => exact ⟨mid.clear,rfl,hmid.clear⟩
    obtain ⟨r',hcall,hr'⟩ := hstep
    refine ⟨r',?_,hr'⟩
    unfold CRollingBloomFilter.run at *
    rw [List.foldlM_append,hrun]
    simpa using hcall

theorem Kept.contains (h : Kept n r keys) {vKey : List UInt8} (hkey : vKey ∈ keys.rtake n) :
    r.contains vKey = some true := by
  have hlast := h.staggered.last vKey hkey
  have hlt : r.nInsertions < r.nBloomSize/2 ↔ r.nInsertions.toNat < n := by
    rw [BitVec.lt_def,h.half]
  simp only [CRollingBloomFilter.contains,hlt]
  split
  · rename_i hfirst
    rwa [if_pos hfirst] at hlast
  · rename_i hsecond
    rwa [if_neg hsecond] at hlast

theorem kept_new {sizes : FilterSizes} {nElements nTweak : Uint32}
    (h : new sizes nElements nTweak = some r) (hbits : r.b1.vData ≠ [])
    (hsmall : nElements.toNat < 2^31) : Kept nElements.toNat r [] := by
  obtain ⟨b1,hb1,h⟩ := Option.bind_eq_some_iff.mp h
  obtain ⟨b2,hb2,h⟩ := Option.bind_eq_some_iff.mp h
  obtain rfl := Option.some.inj h
  obtain rfl := Option.some.inj (hb1.symm.trans hb2)
  have husable := CBloomFilter.usable_forRolling hb1 hbits
  have hsize : (nElements*2).toNat = 2*nElements.toNat := by
    rw [BitVec.toNat_mul,Nat.mul_comm]
    exact Nat.mod_eq_of_lt (by simp; omega)
  refine ⟨hsize,husable,husable,.init (Nat.pos_of_ne_zero fun hzero => ?_)⟩
  rw [show nElements = 0 from BitVec.eq_of_toNat_eq hzero] at hb1
  contradiction

/-- With fewer than `2^31` elements the filter contains the last `nElements` keys that were
inserted since it was cleared, after all calls. -/
theorem last_keys_contained {sizes : FilterSizes} {nElements nTweak : Uint32}
    (h : new sizes nElements nTweak = some r) (hbits : r.b1.vData ≠ [])
    (hsmall : nElements.toNat < 2^31) (calls : List RollingCall) :
    ∃ r', r.run calls = some r' ∧
      ∀ vKey ∈ (insertedKeys calls).rtake nElements.toNat, r'.contains vKey = some true := by
  obtain ⟨r',hrun,hr'⟩ := (kept_new h hbits hsmall).run calls
  exact ⟨r',hrun,fun vKey hkey => hr'.contains hkey⟩

/-- The numbers for two elements and one false positive in a hundred. -/
def twoElements : FilterSizes := ⟨fun _ => 19,fun _ => 5⟩

theorem last_keys_contained_one : ∃ r r', new twoElements 1 0 = some r ∧
    r.run [.insert [1],.clear,.insert [2]] = some r' ∧ r'.contains [2] = some true := by
  obtain ⟨r',hrun,hr'⟩ := @last_keys_contained _ twoElements 1 0
    rfl (by decide) (by decide) [.insert [1],.clear,.insert [2]]
  exact ⟨_,r',rfl,hrun,hr' [2] (by decide)⟩

/-- The size of the two filters wraps: with `2^31+1` elements the last key but one is lost. -/
theorem last_keys_lost : ∃ r r', new twoElements 0x80000001 0 = some r ∧ r.b1.vData ≠ [] ∧
    r.run [.insert [1],.insert [2]] = some r' ∧
    [1] ∈ (insertedKeys [.insert [1],.insert [2]]).rtake (0x80000001 : Uint32).toNat ∧
    r'.contains [1] = some false := by
  refine ⟨_,_,rfl,by decide,rfl,?_,by decide⟩
  rw [List.rtake]
  decide

end CRollingBloomFilter

end Anoncoin
