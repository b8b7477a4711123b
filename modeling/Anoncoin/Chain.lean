import Anoncoin.BlockIndex

/-!
Chains of block index entries (chain.h, chain.cpp, and `GetAncestor` of main.cpp): chain
work, ancestors, the skip list and `CChain`.
-/

set_option autoImplicit false

namespace Anoncoin

/-- `GetWorkProof`. -/
def getWorkProof (uintTarget : Uint256) : Uint256 :=
  if uintTarget ≠ 0 then ~~~uintTarget/(uintTarget+1)+1 else 0

/-- `GetBlockProof`. -/
def getBlockProof (nBits : Uint32) : Uint256 :=
  let c := setCompact nBits
  if !c.fNegative && !c.fOverflow then getWorkProof c.target else 0

namespace CBlockIndex

/-- `nChainWork`, as `AddToBlockIndex` computes it; the addition wraps. -/
def nChainWork : CBlockIndex → Uint256
  | genesis d => 0+getBlockProof d.nBits
  | child d p => p.nChainWork+getBlockProof d.nBits

/-- The entry itself and what its `pprev` pointers lead to, down to genesis. -/
def ancestors : CBlockIndex → List CBlockIndex
  | genesis d => [genesis d]
  | child d p => child d p :: p.ancestors

@[simp] theorem ancestors_genesis (d : IndexData) : (genesis d).ancestors = [genesis d] := rfl

@[simp] theorem ancestors_child (d : IndexData) (p : CBlockIndex) :
    (child d p).ancestors = child d p :: p.ancestors := rfl

@[simp] theorem self_mem_ancestors (i : CBlockIndex) : i ∈ i.ancestors := by
  cases i <;> simp

theorem pprev_mem_ancestors {i p : CBlockIndex} (h : i.pprev = some p) : p ∈ i.ancestors := by
  cases i with
  | genesis d => simp [pprev] at h
  | child d q =>
    obtain rfl := Option.some.inj h
    simp

theorem mem_ancestors_pprev {a i p : CBlockIndex} (hp : i.pprev = some p) :
    a ∈ i.ancestors ↔ a = i ∨ a ∈ p.ancestors := by
  cases i with
  | genesis d => simp [pprev] at hp
  | child d q =>
    obtain rfl := Option.some.inj hp
    simp

theorem ancestors_trans {a b c : CBlockIndex} (hab : a ∈ b.ancestors) (hbc : b ∈ c.ancestors) :
    a ∈ c.ancestors := by
  induction c with
  | genesis d =>
    obtain rfl := List.mem_singleton.mp hbc
    exact hab
  | child d p ih =>
    rcases List.mem_cons.mp hbc with rfl | hbp
    · exact hab
    · exact List.mem_cons_of_mem _ (ih hbp)

/-- What passes from an entry to its parent passes to all its ancestors. -/
theorem of_mem_ancestors {P : CBlockIndex → Prop} (hstep : ∀ i p, P i → i.pprev = some p → P p)
    {a i : CBlockIndex} (hi : P i) (ha : a ∈ i.ancestors) : P a := by
  induction i with
  | genesis d =>
    obtain rfl := List.mem_singleton.mp ha
    exact hi
  | child d p ih =>
    rcases List.mem_cons.mp ha with rfl | hp
    · exact hi
    · exact ih (hstep _ p hi rfl) hp

theorem exists_genesis_mem (i : CBlockIndex) : ∃ d, genesis d ∈ i.ancestors := by
  induction i with
  | genesis d => exact ⟨d,by simp⟩
  | child d p ih =>
    obtain ⟨g,hg⟩ := ih
    exact ⟨g,List.mem_cons_of_mem _ hg⟩

theorem nHeight_pprev {i p : CBlockIndex} (h : i.pprev = some p) : i.nHeight = p.nHeight+1 := by
  cases i with
  | genesis d => simp [pprev] at h
  | child d q =>
    obtain rfl := Option.some.inj h
    rfl

theorem nHeight_le_of_mem_ancestors {a i : CBlockIndex} (h : a ∈ i.ancestors) :
    a.nHeight ≤ i.nHeight := by
  refine of_mem_ancestors (P := fun j => j.nHeight ≤ i.nHeight) (fun j p hj hp => ?_)
    (le_refl _) h
  have hheight := nHeight_pprev hp
  omega

/-- An entry has one ancestor of each height. -/
theorem ancestors_eq_of_nHeight {a b i : CBlockIndex} (ha : a ∈ i.ancestors)
    (hb : b ∈ i.ancestors) (h : a.nHeight = b.nHeight) : a = b := by
  induction i with
  | genesis d =>
    obtain rfl := List.mem_singleton.mp ha
    exact (List.mem_singleton.mp hb).symm
  | child d p ih =>
    rcases List.mem_cons.mp ha with rfl | hap
    · rcases List.mem_cons.mp hb with rfl | hbp
      · rfl
      · have := nHeight_le_of_mem_ancestors hbp
        simp only [nHeight] at h
        omega
    · rcases List.mem_cons.mp hb with rfl | hbp
      · have := nHeight_le_of_mem_ancestors hap
        simp only [nHeight] at h
        omega
      · exact ih hap hbp

/-- Of two ancestors of an entry, the lower one is an ancestor of the other. -/
theorem ancestors_nested {a b i : CBlockIndex} (ha : a ∈ i.ancestors) (hb : b ∈ i.ancestors)
    (h : a.nHeight ≤ b.nHeight) : a ∈ b.ancestors := by
  induction i with
  | genesis d =>
    obtain rfl := List.mem_singleton.mp hb
    exact ha
  | child d p ih =>
    rcases List.mem_cons.mp hb with rfl | hbp
    · exact ha
    · rcases List.mem_cons.mp ha with rfl | hap
      · have := nHeight_le_of_mem_ancestors hbp
        simp only [nHeight] at h
        omega
      · exact ih hap hbp

/-- The ancestor of a given height. -/
def ancestorAt (i : CBlockIndex) (height : Nat) : Option CBlockIndex :=
  i.ancestors.find? fun a => a.nHeight == height

theorem ancestorAt_eq_some {i a : CBlockIndex} {height : Nat} :
    i.ancestorAt height = some a ↔ a ∈ i.ancestors ∧ a.nHeight = height := by
  unfold ancestorAt
  constructor
  · intro h
    exact ⟨List.mem_of_find?_eq_some h,by simpa using List.find?_some h⟩
  · rintro ⟨ha,rfl⟩
    cases hf : i.ancestors.find? fun b => b.nHeight == a.nHeight with
    | none => exact absurd (by simp) (List.find?_eq_none.mp hf a ha)
    | some b =>
      have hb : b.nHeight = a.nHeight := by simpa using List.find?_some hf
      rw [ancestors_eq_of_nHeight (List.mem_of_find?_eq_some hf) ha hb]

theorem ancestorAt_of_mem {a i : CBlockIndex} (h : a ∈ i.ancestors) :
    i.ancestorAt a.nHeight = some a := ancestorAt_eq_some.mpr ⟨h,rfl⟩

theorem exists_ancestorAt {i : CBlockIndex} {height : Nat} (h : height ≤ i.nHeight) :
    ∃ a, i.ancestorAt height = some a := by
  induction i with
  | genesis d => exact ⟨genesis d,ancestorAt_eq_some.mpr ⟨by simp,(Nat.le_zero.mp h).symm⟩⟩
  | child d p ih =>
    rcases Nat.lt_or_ge p.nHeight height with hlt | hle
    · have hheight : (child d p).nHeight = height := by
        simp only [nHeight] at h ⊢
        omega
      exact ⟨child d p,ancestorAt_eq_some.mpr ⟨by simp,hheight⟩⟩
    · obtain ⟨a,ha⟩ := ih hle
      obtain ⟨hmem,hheight⟩ := ancestorAt_eq_some.mp ha
      exact ⟨a,ancestorAt_eq_some.mpr ⟨List.mem_cons_of_mem _ hmem,hheight⟩⟩

theorem ancestorAt_none {i : CBlockIndex} {height : Nat} (h : i.nHeight < height) :
    i.ancestorAt height = none := by
  cases ha : i.ancestorAt height with
  | none => rfl
  | some a =>
    obtain ⟨hmem,hheight⟩ := ancestorAt_eq_some.mp ha
    have := nHeight_le_of_mem_ancestors hmem
    omega

/-- The lookup may as well start at an ancestor that is high enough. -/
theorem ancestorAt_ancestor {a i : CBlockIndex} (h : a ∈ i.ancestors) {height : Nat}
    (hh : height ≤ a.nHeight) : a.ancestorAt height = i.ancestorAt height := by
  obtain ⟨b,hb⟩ := exists_ancestorAt hh
  obtain ⟨hmem,hheight⟩ := ancestorAt_eq_some.mp hb
  rw [hb,ancestorAt_eq_some.mpr ⟨ancestors_trans hmem h,hheight⟩]

end CBlockIndex

/-- `InvertLowestOne`. -/
def invertLowestOne (n : Nat) : Nat := n &&& (n-1)

/-- `GetSkipHeight`. -/
def getSkipHeight (height : Nat) : Nat :=
  if height < 2 then 0
  else if height &&& 1 ≠ 0 then invertLowestOne (invertLowestOne (height-1))+1
  else invertLowestOne height

theorem invertLowestOne_le (n : Nat) : invertLowestOne n ≤ n-1 := Nat.and_le_right

theorem getSkipHeight_lt {height : Nat} (h : 0 < height) : getSkipHeight height < height := by
  unfold getSkipHeight
  split
  · exact h
  · have h1 := invertLowestOne_le (height-1)
    have h2 := invertLowestOne_le (invertLowestOne (height-1))
    have h3 := invertLowestOne_le height
    split <;> omega

namespace CBlockIndex
variable (pskip : CBlockIndex → Option CBlockIndex)

/-- The loop of `GetAncestor`; `pskip` gives the skip pointers of the entries. -/
def getAncestorWalk (height heightWalk : Nat) (pindexWalk : CBlockIndex) : Option CBlockIndex :=
  if height < heightWalk then
    let heightSkip := getSkipHeight heightWalk
    let heightSkipPrev := getSkipHeight (heightWalk-1)
    if heightSkip = height ∨ (height < heightSkip ∧
        ¬(heightSkipPrev < heightSkip-2 ∧ height ≤ heightSkipPrev)) then
      (pskip pindexWalk).bind fun p => getAncestorWalk height heightSkip p
    else pindexWalk.pprev.bind fun p => getAncestorWalk height (heightWalk-1) p
  else some pindexWalk
  termination_by heightWalk
  decreasing_by
    · exact getSkipHeight_lt (by omega)
    · omega

/-- `CBlockIndex::GetAncestor`. -/
def getAncestor (i : CBlockIndex) (height : Int) : Option CBlockIndex :=
  if (i.nHeight : Int) < height ∨ height < 0 then none
  else getAncestorWalk pskip height.toNat i.nHeight i

/-- The loop of `GetAncestor` with its pointer as it is, null or not; there is no result
where a null pointer is dereferenced. -/
def getAncestorLoop (height heightWalk : Nat) (pindexWalk : Option CBlockIndex) :
    Option (Option CBlockIndex) :=
  if height < heightWalk then
    let heightSkip := getSkipHeight heightWalk
    let heightSkipPrev := getSkipHeight (heightWalk-1)
    match pindexWalk with
    | none => none
    | some w =>
      if heightSkip = height ∨ (height < heightSkip ∧
          ¬(heightSkipPrev < heightSkip-2 ∧ height ≤ heightSkipPrev)) then
        getAncestorLoop height heightSkip (pskip w)
      else getAncestorLoop height (heightWalk-1) w.pprev
  else some pindexWalk
  termination_by heightWalk
  decreasing_by
    · exact getSkipHeight_lt (by omega)
    · omega

/-- `BuildSkip` was called on each entry of the chain. -/
def SkipBuilt (i : CBlockIndex) : Prop :=
  ∀ a ∈ i.ancestors, ∀ p, a.pprev = some p → pskip a = p.ancestorAt (getSkipHeight a.nHeight)

variable {pskip}

theorem SkipBuilt.ancestor {a i : CBlockIndex} (h : SkipBuilt pskip i) (ha : a ∈ i.ancestors) :
    SkipBuilt pskip a :=
  fun b hb => h b (ancestors_trans hb ha)

/-- The walk finds the ancestor, and follows no null pointer on its way. -/
theorem getAncestorLoop_eq {top : CBlockIndex} (hskip : SkipBuilt pskip top) {height : Nat}
    (heightWalk : Nat) (w : CBlockIndex) (hw : w ∈ top.ancestors) (hheight : w.nHeight = heightWalk)
    (hle : height ≤ heightWalk) :
    getAncestorLoop pskip height heightWalk (some w) = some (w.ancestorAt height) := by
  induction heightWalk using Nat.strong_induction_on generalizing w with
  | _ n ih =>
    subst hheight
    rw [getAncestorLoop]
    split
    · rename_i hlt
      obtain ⟨p,hp⟩ : ∃ p, w.pprev = some p := by
        cases w with
        | genesis d => simp [nHeight] at hlt
        | child d q => exact ⟨q,rfl⟩
      have hpw : p ∈ w.ancestors := pprev_mem_ancestors hp
      have hpheight := nHeight_pprev hp
      have hslt := @getSkipHeight_lt w.nHeight (by omega)
      simp only
      split
      · rename_i hcond
        obtain ⟨a,ha⟩ := @exists_ancestorAt p (getSkipHeight w.nHeight) (by omega)
        obtain ⟨hap,haheight⟩ := ancestorAt_eq_some.mp ha
        have haw := ancestors_trans hap hpw
        rw [hskip w hw p hp,ha,ih _ hslt a (ancestors_trans haw hw) haheight (by omega)]
        exact congrArg some (ancestorAt_ancestor haw (by omega))
      · rw [hp,ih _ (by omega) p (ancestors_trans hpw hw) (by omega) (by omega)]
        exact congrArg some (ancestorAt_ancestor hpw (by omega))
    · have heq : w.nHeight = height := by omega
      exact congrArg some (heq ▸ ancestorAt_of_mem (self_mem_ancestors w)).symm

theorem getAncestorLoop_none {height heightWalk : Nat} :
    (getAncestorLoop pskip height heightWalk none).join = none := by
  rw [getAncestorLoop]
  split <;> rfl

/-- `getAncestorWalk` gives no entry both for a null result and for a null dereference. -/
theorem getAncestorWalk_join (height heightWalk : Nat) (w : CBlockIndex) :
    getAncestorWalk pskip height heightWalk w =
      (getAncestorLoop pskip height heightWalk (some w)).join := by
  induction heightWalk using Nat.strong_induction_on generalizing w with
  | _ n ih =>
    rw [getAncestorWalk,getAncestorLoop]
    split
    · rename_i hlt
      have hslt := @getSkipHeight_lt n (by omega)
      simp only
      split
      · cases hp : pskip w with
        | none => exact getAncestorLoop_none.symm
        | some p => exact ih _ hslt p
      · cases hp : w.pprev with
        | none => exact getAncestorLoop_none.symm
        | some p => exact ih _ (by omega) p
    · rfl

theorem getAncestorWalk_eq {top : CBlockIndex} (hskip : SkipBuilt pskip top) {height : Nat}
    (heightWalk : Nat) (w : CBlockIndex) (hw : w ∈ top.ancestors) (hheight : w.nHeight = heightWalk)
    (hle : height ≤ heightWalk) :
    getAncestorWalk pskip height heightWalk w = w.ancestorAt height := by
  rw [getAncestorWalk_join,getAncestorLoop_eq hskip heightWalk w hw hheight hle]
  rfl

/-- With skip pointers that were built entry by entry, `GetAncestor` finds what a walk
along `pprev` finds. -/
theorem getAncestor_eq {i : CBlockIndex} (hskip : SkipBuilt pskip i) {height : Nat}
    (h : height ≤ i.nHeight) : i.getAncestor pskip height = i.ancestorAt height := by
  unfold getAncestor
  rw [if_neg (by omega),Int.toNat_natCast]
  exact getAncestorWalk_eq hskip i.nHeight i (self_mem_ancestors i) rfl h

end CBlockIndex

/-- `CChain`. The vector may hold null pointers while `SetTip` is at work. -/
structure CChain where
  vChain : List (Option CBlockIndex)
  deriving DecidableEq, Repr

namespace CChain
open CBlockIndex

/-- `operator[]`. -/
def get (c : CChain) (nHeight : Nat) : Option CBlockIndex := c.vChain[nHeight]?.join

def genesis (c : CChain) : Option CBlockIndex := c.get 0

def tip (c : CChain) : Option CBlockIndex := c.vChain.getLast?.join

def contains (c : CChain) (pindex : CBlockIndex) : Bool := c.get pindex.nHeight == some pindex

def height (c : CChain) : Int := (c.vChain.length : Int)-1

/-- The loop of `SetTip`. -/
def setTipWalk (v : List (Option CBlockIndex)) : CBlockIndex → List (Option CBlockIndex)
  | i@(.genesis _) => if v[i.nHeight]? = some (some i) then v else v.set i.nHeight (some i)
  | i@(.child _ pprev) =>
      if v[i.nHeight]? = some (some i) then v else setTipWalk (v.set i.nHeight (some i)) pprev

/-- `vector::resize`. -/
def resize (v : List (Option CBlockIndex)) (n : Nat) : List (Option CBlockIndex) :=
  v.take n ++ List.replicate (n-v.length) none

def setTip (c : CChain) : Option CBlockIndex → CChain
  | none => ⟨[]⟩
  | some pindex => ⟨setTipWalk (resize c.vChain (pindex.nHeight+1)) pindex⟩

/-- The walk of `FindFork` along `pprev`. -/
def firstContained (c : CChain) : CBlockIndex → Option CBlockIndex
  | i@(.genesis _) => if c.contains i then some i else none
  | i@(.child _ pprev) => if c.contains i then some i else firstContained c pprev

def findFork (c : CChain) (pskip : CBlockIndex → Option CBlockIndex) (pindex : CBlockIndex) :
    Option CBlockIndex :=
  (if c.height < pindex.nHeight then pindex.getAncestor pskip c.height else some pindex).bind
    c.firstContained

/-- The chain from genesis to an entry. -/
def pathTo (tip : CBlockIndex) : CChain := ⟨tip.ancestors.reverse.map some⟩

theorem length_ancestors (i : CBlockIndex) : i.ancestors.length = i.nHeight+1 := by
  induction i with
  | genesis d => rfl
  | child d p ih => simp [nHeight,ih]

theorem pathTo_child (d : IndexData) (p : CBlockIndex) :
    (pathTo (.child d p)).vChain = (pathTo p).vChain ++ [some (.child d p)] := by
  simp [pathTo]

theorem length_pathTo (i : CBlockIndex) : (pathTo i).vChain.length = i.nHeight+1 := by
  simp [pathTo,length_ancestors]

theorem pathTo_getElem? {tip : CBlockIndex} {k : Nat} (h : k ≤ tip.nHeight) :
    (pathTo tip).vChain[k]? = some (tip.ancestorAt k) := by
  induction tip with
  | genesis d =>
    obtain rfl := Nat.le_zero.mp h
    rfl
  | child d p ih =>
    rw [pathTo_child]
    rcases Nat.lt_or_ge p.nHeight k with hlt | hle
    · have hk : k = p.nHeight+1 := by
        simp only [nHeight] at h
        omega
      subst hk
      rw [List.getElem?_append_right (by rw [length_pathTo]),length_pathTo,Nat.sub_self]
      exact congrArg some (ancestorAt_of_mem (self_mem_ancestors (.child d p))).symm
    · rw [List.getElem?_append_left (by rw [length_pathTo]; omega),ih hle]
      exact congrArg some (ancestorAt_ancestor (by simp) hle)

theorem pathTo_get (tip : CBlockIndex) (k : Nat) : (pathTo tip).get k = tip.ancestorAt k := by
  unfold get
  rcases Nat.lt_or_ge tip.nHeight k with hlt | hle
  · rw [List.getElem?_eq_none (by rw [length_pathTo]; omega),ancestorAt_none hlt]
    rfl
  · rw [pathTo_getElem? hle]
    rfl

@[simp] theorem pathTo_contains (tip i : CBlockIndex) :
    (pathTo tip).contains i = true ↔ i ∈ tip.ancestors := by
  unfold contains
  rw [pathTo_get,beq_iff_eq,ancestorAt_eq_some]
  simp

@[simp] theorem pathTo_tip (i : CBlockIndex) : (pathTo i).tip = some i := by
  cases i <;> simp [tip,pathTo]

@[simp] theorem pathTo_height (i : CBlockIndex) : (pathTo i).height = i.nHeight := by
  unfold height
  rw [length_pathTo]
  omega

/-- Where the vector holds an ancestor of the entry already, it holds the chain of that
ancestor. -/
def Held (v : List (Option CBlockIndex)) (i : CBlockIndex) : Prop :=
  ∀ a ∈ i.ancestors, v[a.nHeight]? = some (some a) →
    ∀ k ≤ a.nHeight, v[k]? = some (a.ancestorAt k)

/-- Above the entry nothing changes; up to it the vector becomes the chain of the entry. -/
theorem setTipWalk_getElem? {i : CBlockIndex} {v : List (Option CBlockIndex)}
    (hlen : i.nHeight < v.length) (hv : Held v i) (k : Nat) :
    (setTipWalk v i)[k]? = if k ≤ i.nHeight then some (i.ancestorAt k) else v[k]? := by
  induction i generalizing v with
  | genesis d =>
    unfold setTipWalk
    split
    · rename_i hheld
      split
      · exact hv _ (self_mem_ancestors _) hheld k (by assumption)
      · rfl
    · split
      · rename_i hk
        obtain rfl : k = (CBlockIndex.genesis d).nHeight := Nat.le_zero.mp hk
        rw [List.getElem?_set_self hlen]
        exact congrArg some (ancestorAt_of_mem (self_mem_ancestors (.genesis d))).symm
      · rename_i hk
        exact List.getElem?_set_ne (by omega)
  | child d p ih =>
    have hheight : (CBlockIndex.child d p).nHeight = p.nHeight+1 := rfl
    unfold setTipWalk
    split
    · rename_i hheld
      split
      · exact hv _ (self_mem_ancestors _) hheld k (by assumption)
      · rfl
    · have hbelow : Held (v.set (CBlockIndex.child d p).nHeight (some (.child d p))) p := by
        intro a ha hheld j hj
        have hle := nHeight_le_of_mem_ancestors ha
        rw [List.getElem?_set_ne (by omega)] at hheld ⊢
        exact hv a (List.mem_cons_of_mem _ ha) hheld j hj
      rw [ih (by rw [List.length_set]; omega) hbelow]
      split
      · rename_i hk
        rw [if_pos (by omega)]
        exact congrArg some (ancestorAt_ancestor (by simp) hk)
      · by_cases hkeq : k = (CBlockIndex.child d p).nHeight
        · subst hkeq
          rw [List.getElem?_set_self hlen,if_pos (le_refl _)]
          exact congrArg some (ancestorAt_of_mem (self_mem_ancestors (.child d p))).symm
        · rw [List.getElem?_set_ne (Ne.symm hkeq),if_neg (by omega)]

theorem resize_pathTo (old : CBlockIndex) {n k : Nat} (hk : k < n) :
    (resize (pathTo old).vChain n)[k]? = some (old.ancestorAt k) := by
  unfold resize
  rcases Nat.lt_or_ge k (old.nHeight+1) with hlt | hge
  · rw [List.getElem?_append_left (by rw [List.length_take,length_pathTo]; omega),
      List.getElem?_take_of_lt hk]
    exact pathTo_getElem? (by omega)
  · have hlen : ((pathTo old).vChain.take n).length = old.nHeight+1 := by
      rw [List.length_take,length_pathTo]
      omega
    rw [List.getElem?_append_right (by omega),List.getElem?_replicate,hlen,length_pathTo,
      if_pos (by omega),ancestorAt_none (by omega)]

/-- After `SetTip` the vector is the chain from genesis to the new tip. -/
theorem setTip_of_held {c : CChain} {i : CBlockIndex}
    (h : Held (resize c.vChain (i.nHeight+1)) i) : c.setTip (some i) = pathTo i := by
  have hlen : (resize c.vChain (i.nHeight+1)).length = i.nHeight+1 := by
    unfold resize
    rw [List.length_append,List.length_take,List.length_replicate]
    omega
  have hv : setTipWalk (resize c.vChain (i.nHeight+1)) i = (pathTo i).vChain := by
    apply List.ext_getElem?
    intro k
    rw [setTipWalk_getElem? (by omega) h]
    split
    · rename_i hk
      exact (pathTo_getElem? hk).symm
    · rename_i hk
      rw [List.getElem?_eq_none (by omega),List.getElem?_eq_none (by rw [length_pathTo]; omega)]
  unfold setTip
  simp only
  rw [hv]

@[simp] theorem setTip_pathTo (old i : CBlockIndex) :
    (pathTo old).setTip (some i) = pathTo i := by
  apply setTip_of_held
  intro a ha hheld k hk
  have hle := nHeight_le_of_mem_ancestors ha
  rw [resize_pathTo old (by omega)] at hheld ⊢
  exact congrArg some (ancestorAt_ancestor (ancestorAt_eq_some.mp (Option.some.inj hheld)).1 hk).symm

@[simp] theorem setTip_empty (i : CBlockIndex) : (⟨[]⟩ : CChain).setTip (some i) = pathTo i := by
  apply setTip_of_held
  intro a ha hheld
  have hle := nHeight_le_of_mem_ancestors ha
  rw [resize,List.take_nil,List.nil_append,List.getElem?_replicate,if_pos (by simp; omega)] at hheld
  cases hheld

theorem firstContained_pathTo {tip i fork : CBlockIndex}
    (h : (pathTo tip).firstContained i = some fork) :
    fork ∈ tip.ancestors ∧ fork ∈ i.ancestors ∧
      ∀ a ∈ i.ancestors, a ∈ tip.ancestors → a ∈ fork.ancestors := by
  induction i with
  | genesis d =>
    unfold firstContained at h
    split at h
    · rename_i hc
      obtain rfl := Option.some.inj h
      exact ⟨(pathTo_contains _ _).mp hc,by simp,fun a ha _ => ha⟩
    · contradiction
  | child d p ih =>
    unfold firstContained at h
    split at h
    · rename_i hc
      obtain rfl := Option.some.inj h
      exact ⟨(pathTo_contains _ _).mp hc,by simp,fun a ha _ => ha⟩
    · rename_i hc
      obtain ⟨htip,hp,hall⟩ := ih h
      refine ⟨htip,List.mem_cons_of_mem _ hp,?_⟩
      intro a ha hat
      rcases List.mem_cons.mp ha with rfl | hap
      · exact absurd ((pathTo_contains _ _).mpr hat) hc
      · exact hall a hap hat

theorem exists_firstContained {tip i a : CBlockIndex} (ha : a ∈ i.ancestors)
    (hat : a ∈ tip.ancestors) : ∃ fork, (pathTo tip).firstContained i = some fork := by
  induction i with
  | genesis d =>
    obtain rfl := List.mem_singleton.mp ha
    exact ⟨_,by unfold firstContained; rw [if_pos ((pathTo_contains _ _).mpr hat)]⟩
  | child d p ih =>
    unfold firstContained
    by_cases hc : (pathTo tip).contains (.child d p) = true
    · exact ⟨_,by rw [if_pos hc]⟩
    · rw [if_neg hc]
      rcases List.mem_cons.mp ha with rfl | hap
      · exact absurd ((pathTo_contains _ _).mpr hat) hc
      · exact ih hap

/-- `FindFork` finds the highest block that the chain and the entry have in common. -/
theorem findFork_pathTo {pskip : CBlockIndex → Option CBlockIndex} {tip i g : CBlockIndex}
    (hskip : SkipBuilt pskip i) (hg : g ∈ i.ancestors) (hgt : g ∈ tip.ancestors) :
    ∃ fork, (pathTo tip).findFork pskip i = some fork ∧ fork ∈ tip.ancestors ∧
      fork ∈ i.ancestors ∧ ∀ a ∈ i.ancestors, a ∈ tip.ancestors → a ∈ fork.ancestors := by
  obtain ⟨start,hstart,hsi,hlow⟩ : ∃ start,
      (if (pathTo tip).height < i.nHeight then i.getAncestor pskip (pathTo tip).height
        else some i) = some start ∧ start ∈ i.ancestors ∧
      ∀ a ∈ i.ancestors, a ∈ tip.ancestors → a ∈ start.ancestors := by
    rw [pathTo_height]
    split
    · rename_i hlt
      obtain ⟨s,hs⟩ := @exists_ancestorAt i tip.nHeight (by omega)
      obtain ⟨hsi,hsheight⟩ := ancestorAt_eq_some.mp hs
      refine ⟨s,by rw [getAncestor_eq hskip (by omega),hs],hsi,?_⟩
      intro a ha hat
      have := nHeight_le_of_mem_ancestors hat
      exact ancestors_nested ha hsi (by omega)
    · exact ⟨i,rfl,self_mem_ancestors i,fun a ha _ => ha⟩
  obtain ⟨fork,hfork⟩ := exists_firstContained (hlow g hg hgt) hgt
  obtain ⟨hft,hfs,hall⟩ := firstContained_pathTo hfork
  refine ⟨fork,?_,hft,ancestors_trans hfs hsi,fun a ha hat => hall a (hlow a ha hat) hat⟩
  unfold findFork
  rw [hstart,Option.bind_some,hfork]

end CChain

end Anoncoin
