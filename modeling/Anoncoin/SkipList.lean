import Anoncoin.Chain

/-!
The skip list over a tree of block index entries (`CBlockIndex::GetAncestor` and
`CBlockIndex::BuildSkip` of main.cpp): the pointers that any order of calls leaves, parents
before children, and the lookup against the walk along `pprev`.
-/

set_option autoImplicit false

namespace Anoncoin
namespace CBlockIndex

/-- What a number of steps along `pprev` reaches. -/
def pprevSteps : Nat → CBlockIndex → Option CBlockIndex
  | 0, i => some i
  | n+1, i => i.pprev.bind (pprevSteps n)

theorem pprevSteps_eq {n : Nat} {i : CBlockIndex} (h : n ≤ i.nHeight) :
    pprevSteps n i = i.ancestorAt (i.nHeight-n) := by
  induction n generalizing i with
  | zero => exact (ancestorAt_of_mem (self_mem_ancestors i)).symm
  | succ n ih =>
    cases i with
    | genesis d => simp [nHeight] at h
    | child d p =>
      have hp : n ≤ p.nHeight := by
        simp only [nHeight] at h
        omega
      have hheight : (child d p).nHeight-(n+1) = p.nHeight-n := by
        simp only [nHeight]
        omega
      rw [hheight]
      exact (ih hp).trans (ancestorAt_ancestor (by simp) (by omega))

/-- `CBlockIndex::GetAncestor`; there is no result where it dereferences a null pointer. -/
def getAncestorChecked (pskip : CBlockIndex → Option CBlockIndex) (i : CBlockIndex)
    (height : Int) : Option (Option CBlockIndex) :=
  if (i.nHeight : Int) < height ∨ height < 0 then some none
  else getAncestorLoop pskip height.toNat i.nHeight (some i)

theorem getAncestorChecked_eq {pskip : CBlockIndex → Option CBlockIndex} {i : CBlockIndex}
    (hskip : SkipBuilt pskip i) {height : Nat} (h : height ≤ i.nHeight) :
    i.getAncestorChecked pskip height = some (i.ancestorAt height) := by
  unfold getAncestorChecked
  rw [if_neg (by omega),Int.toNat_natCast]
  exact getAncestorLoop_eq hskip i.nHeight i (self_mem_ancestors i) rfl h

/-- `CBlockIndex::BuildSkip`, on the skip pointers of all entries. -/
def buildSkip (pskip : CBlockIndex → Option CBlockIndex) (i : CBlockIndex) :
    Option (CBlockIndex → Option CBlockIndex) :=
  match i.pprev with
  | none => some pskip
  | some pprev =>
      (pprev.getAncestorChecked pskip (getSkipHeight i.nHeight)).map (Function.update pskip i)

def buildSkips (pskip : CBlockIndex → Option CBlockIndex) :
    List CBlockIndex → Option (CBlockIndex → Option CBlockIndex)
  | [] => some pskip
  | i :: calls => (buildSkip pskip i).bind fun pskip => buildSkips pskip calls

/-- Each call comes after one on the parent. -/
def CalledInOrder (called : List CBlockIndex) : List CBlockIndex → Prop
  | [] => True
  | i :: calls => (∀ p ∈ i.pprev, p ∈ called) ∧ CalledInOrder (i :: called) calls

/-- The entries of a list have their parents in it, and skip pointers to an ancestor of the
height that `GetSkipHeight` says. -/
def SkipTree (pskip : CBlockIndex → Option CBlockIndex) (called : List CBlockIndex) : Prop :=
  ∀ i ∈ called, ∀ p, i.pprev = some p →
    p ∈ called ∧ pskip i = p.ancestorAt (getSkipHeight i.nHeight)

namespace SkipTree
variable {pskip : CBlockIndex → Option CBlockIndex} {called : List CBlockIndex}

theorem ancestors (h : SkipTree pskip called) {i : CBlockIndex} (hi : i ∈ called) :
    ∀ a ∈ i.ancestors, a ∈ called :=
  fun _ ha => of_mem_ancestors (fun j p hj hp => (h j hj p hp).1) hi ha

theorem skipBuilt (h : SkipTree pskip called) {i : CBlockIndex} (hi : i ∈ called) :
    SkipBuilt pskip i :=
  fun a ha p hp => (h a (h.ancestors hi a ha) p hp).2

/-- One call of `BuildSkip`. -/
theorem buildSkip (h : SkipTree pskip called) {i : CBlockIndex}
    (hparent : ∀ p ∈ i.pprev, p ∈ called) :
    ∃ built, CBlockIndex.buildSkip pskip i = some built ∧ SkipTree built (i :: called) := by
  unfold CBlockIndex.buildSkip
  cases hp : i.pprev with
  | none =>
    refine ⟨pskip,rfl,?_⟩
    intro j hj q hq
    rcases List.mem_cons.mp hj with rfl | hj
    · rw [hp] at hq
      contradiction
    · exact ⟨List.mem_cons_of_mem _ (h j hj q hq).1,(h j hj q hq).2⟩
  | some p =>
    have hpc : p ∈ called := hparent p hp
    have hheight := nHeight_pprev hp
    have hlt := @getSkipHeight_lt i.nHeight (by omega)
    have hget := getAncestorChecked_eq (h.skipBuilt hpc)
      (show getSkipHeight i.nHeight ≤ p.nHeight by omega)
    refine ⟨Function.update pskip i (p.ancestorAt (getSkipHeight i.nHeight)),?_,?_⟩
    · simp [hget]
    · intro j hj q hq
      by_cases hji : j = i
      · subst hji
        obtain rfl : p = q := Option.some.inj (hp.symm.trans hq)
        exact ⟨List.mem_cons_of_mem _ hpc,by simp⟩
      · have hjc : j ∈ called := (List.mem_cons.mp hj).resolve_left hji
        obtain ⟨hqc,hskip⟩ := h j hjc q hq
        exact ⟨List.mem_cons_of_mem _ hqc,by rw [Function.update_of_ne hji,hskip]⟩

/-- A run of calls, parents before children. -/
theorem buildSkips {calls : List CBlockIndex} (h : SkipTree pskip called)
    (horder : CalledInOrder called calls) :
    ∃ built, CBlockIndex.buildSkips pskip calls = some built ∧
      SkipTree built (calls.reverse ++ called) := by
  induction calls generalizing pskip called with
  | nil => exact ⟨pskip,rfl,h⟩
  | cons i calls ih =>
    obtain ⟨next,hnext,htree⟩ := h.buildSkip horder.1
    obtain ⟨built,hbuilt,hrun⟩ := ih htree horder.2
    refine ⟨built,?_,by simpa using hrun⟩
    unfold CBlockIndex.buildSkips
    rw [hnext,Option.bind_some,hbuilt]

end SkipTree

/-- Whatever the skip pointers were at first: once `BuildSkip` ran over a tree, parents
before children, `GetAncestor` is the walk along `pprev`. -/
theorem getAncestor_buildSkips {calls : List CBlockIndex} (horder : CalledInOrder [] calls)
    (pskip : CBlockIndex → Option CBlockIndex) :
    ∃ built, buildSkips pskip calls = some built ∧ ∀ b ∈ calls, ∀ height : Int,
      (0 ≤ height ∧ height ≤ b.nHeight → ∃ a, pprevSteps (b.nHeight-height).toNat b = some a ∧
        b.getAncestorChecked built height = some (some a)) ∧
      (¬(0 ≤ height ∧ height ≤ b.nHeight) → b.getAncestorChecked built height = some none) := by
  have hempty : SkipTree pskip [] := by simp [SkipTree]
  obtain ⟨built,hbuilt,htree⟩ := hempty.buildSkips horder
  refine ⟨built,hbuilt,?_⟩
  intro b hb height
  have hskip : SkipBuilt built b := htree.skipBuilt (by simpa using hb)
  constructor
  · rintro ⟨hlow,hhigh⟩
    obtain ⟨h,rfl⟩ := Int.eq_ofNat_of_zero_le hlow
    have hle : h ≤ b.nHeight := by omega
    obtain ⟨a,ha⟩ := exists_ancestorAt hle
    refine ⟨a,?_,by rw [getAncestorChecked_eq hskip hle,ha]⟩
    have hsteps : ((b.nHeight : Int)-(h : Nat)).toNat = b.nHeight-h := by omega
    have hback : b.nHeight-(b.nHeight-h) = h := by omega
    rw [hsteps,pprevSteps_eq (by omega),hback,ha]
  · intro hout
    unfold getAncestorChecked
    rw [if_pos (by omega)]

def forkedData (n : Nat) : IndexData := ⟨1,0,0,0,0,BitVec.ofNat 256 (n+10),BitVec.ofNat 256 n⟩

/-- Two branches over one genesis entry. -/
def forkedTree : List CBlockIndex :=
  let g := genesis (forkedData 1)
  let a := child (forkedData 2) g
  let b := child (forkedData 3) g
  [g,a,b,child (forkedData 4) b,child (forkedData 5) a]

theorem forkedTree_order : CalledInOrder [] forkedTree := by
  simp [forkedTree,CalledInOrder,pprev]

theorem getAncestor_buildSkips_forked :
    ∃ built, buildSkips (fun _ => none) forkedTree = some built ∧ ∀ b ∈ forkedTree,
      ∀ height : Int,
      (0 ≤ height ∧ height ≤ b.nHeight → ∃ a, pprevSteps (b.nHeight-height).toNat b = some a ∧
        b.getAncestorChecked built height = some (some a)) ∧
      (¬(0 ≤ height ∧ height ≤ b.nHeight) → b.getAncestorChecked built height = some none) :=
  getAncestor_buildSkips forkedTree_order fun _ => none

end CBlockIndex
end Anoncoin
