import Mathlib.Algebra.Order.Ring.Nat
import Mathlib.Data.Nat.Basic
import Anoncoin.TransactionCodec

/-!
The merkle tree of a block: `BuildMerkleTree` (block.cpp), which builds it level by level,
and `CalcHash` (merkleblock.cpp), which computes one node.
-/

set_option autoImplicit false

namespace Anoncoin

/-- `CTransaction::GetHash`, the hash of the serialized transaction. -/
def CTransaction.getHash (H : HashFunctions) (tx : CTransaction) : Uint256 := H.sha256d tx.serialize

/-- `Hash` of two hashes one after the other. -/
def HashFunctions.pair (H : HashFunctions) (left right : Uint256) : Uint256 :=
  H.sha256d (littleEndian 32 left.toNat ++ littleEndian 32 right.toNat)

section Definitions
variable (H : HashFunctions)

/-- The inner loop of `BuildMerkleTree`: from the `nSize` hashes at `j` the next level is
pushed onto the vector. -/
def pushLevel (j nSize : Nat) (vMerkleTree : List Uint256) : List Uint256 :=
  (List.range ((nSize+1)/2)).foldl (fun tree k => tree ++
    [H.pair (tree.getD (j+2*k) 0) (tree.getD (j+min (2*k+1) (nSize-1)) 0)]) vMerkleTree

/-- Two identical hashes stand at the end of the level. -/
def levelMutated (j nSize : Nat) (vMerkleTree : List Uint256) : Bool :=
  (List.range ((nSize+1)/2)).any fun k =>
    min (2*k+1) (nSize-1) == 2*k+1 && 2*k+2 == nSize &&
      vMerkleTree.getD (j+2*k) 0 == vMerkleTree.getD (j+(2*k+1)) 0

def buildLevels (j nSize : Nat) (vMerkleTree : List Uint256) (mutated : Bool) :
    List Uint256 × Bool :=
  if 1 < nSize then
    buildLevels (j+nSize) ((nSize+1)/2) (pushLevel H j nSize vMerkleTree)
      (mutated || levelMutated j nSize vMerkleTree)
  else (vMerkleTree,mutated)
  termination_by nSize
  decreasing_by omega

/-- `BuildMerkleTree`: the root, and the flag for a mutated list. -/
def buildMerkleTree (vTxid : List Uint256) : Uint256 × Bool :=
  let (vMerkleTree,mutated) := buildLevels H 0 vTxid.length vTxid false
  (vMerkleTree.getLastD 0,mutated)

/-- `CalcTreeWidth` for a tree of `n` transactions. -/
def calcTreeWidth (n height : Nat) : Nat := (n+2^height-1)/2^height

def calcHash (vTxid : List Uint256) : Nat → Nat → Uint256
  | 0, pos => vTxid.getD pos 0
  | height+1, pos =>
      let left := calcHash vTxid height (pos*2)
      let right := if pos*2+1 < calcTreeWidth vTxid.length height then
        calcHash vTxid height (pos*2+1) else left
      H.pair left right

end Definitions

section Width

@[simp] theorem calcTreeWidth_zero (n : Nat) : calcTreeWidth n 0 = n := by
  simp [calcTreeWidth]

theorem calcTreeWidth_succ (n height : Nat) :
    calcTreeWidth n (height+1) = (calcTreeWidth n height+1)/2 := by
  have hpos := Nat.two_pow_pos height
  unfold calcTreeWidth
  rw [← Nat.add_div_right _ hpos,Nat.div_div_eq_div_mul,Nat.pow_succ]
  congr 1
  omega

theorem calcTreeWidth_pos {n : Nat} (h : 0 < n) (height : Nat) : 0 < calcTreeWidth n height := by
  have hpos := Nat.two_pow_pos height
  exact Nat.div_pos (by omega) hpos

/-- A node that is there has a leaf below it. -/
theorem lt_calcTreeWidth {n height pos : Nat} :
    pos < calcTreeWidth n height ↔ pos*2^height < n := by
  have hpos := Nat.two_pow_pos height
  unfold calcTreeWidth
  rw [← Nat.succ_le_iff,Nat.le_div_iff_mul_le hpos,Nat.succ_mul]
  omega

end Width

/-- The loop that looks for the level with one node. -/
def treeHeightFrom (n nHeight : Nat) : Nat :=
  if 1 < calcTreeWidth n nHeight then treeHeightFrom n (nHeight+1) else nHeight
  termination_by calcTreeWidth n nHeight
  decreasing_by
    rw [calcTreeWidth_succ]
    omega

def treeHeight (n : Nat) : Nat := treeHeightFrom n 0

theorem treeHeightFrom_spec (n nHeight : Nat) : calcTreeWidth n (treeHeightFrom n nHeight) ≤ 1 := by
  induction hw : calcTreeWidth n nHeight using Nat.strong_induction_on generalizing nHeight with
  | _ w ih =>
    unfold treeHeightFrom
    split
    · refine ih _ ?_ _ rfl
      rw [calcTreeWidth_succ]
      omega
    · omega

theorem treeHeight_width {n : Nat} (h : 0 < n) : calcTreeWidth n (treeHeight n) = 1 := by
  have hle := treeHeightFrom_spec n 0
  have hpos := calcTreeWidth_pos h (treeHeight n)
  unfold treeHeight at hpos ⊢
  omega

section Levels
variable {H : HashFunctions} {vTxid : List Uint256}

/-- The hashes of one level, from the left. -/
def levelHashes (H : HashFunctions) (vTxid : List Uint256) (height : Nat) : List Uint256 :=
  (List.range (calcTreeWidth vTxid.length height)).map (calcHash H vTxid height)

theorem levelHashes_zero : levelHashes H vTxid 0 = vTxid := by
  unfold levelHashes
  rw [calcTreeWidth_zero]
  apply List.ext_getElem
  · simp
  · intro i hi hi'
    simp [calcHash,hi']

theorem length_levelHashes (H : HashFunctions) (vTxid : List Uint256) (height : Nat) :
    (levelHashes H vTxid height).length = calcTreeWidth vTxid.length height := by
  simp [levelHashes]

theorem levelHashes_getD {height i : Nat} (hi : i < calcTreeWidth vTxid.length height) :
    (levelHashes H vTxid height).getD i 0 = calcHash H vTxid height i := by
  unfold levelHashes
  rw [List.getD_eq_getElem?_getD,List.getElem?_map,List.getElem?_range hi]
  rfl

theorem getD_tree {tree level more : List Uint256} {i : Nat} (hi : i < level.length) :
    (tree ++ (level ++ more)).getD (tree.length+i) 0 = level.getD i 0 := by
  rw [List.getD_eq_getElem?_getD,List.getElem?_append_right (by omega),Nat.add_sub_cancel_left,
    List.getElem?_append_left hi,← List.getD_eq_getElem?_getD]

/-- The inner loop puts the hash of each pair of the level behind it. -/
theorem pushLevel_map (tree level : List Uint256) :
    pushLevel H tree.length level.length (tree ++ level) =
      tree ++ (level ++ (List.range ((level.length+1)/2)).map fun k =>
        H.pair (level.getD (2*k) 0) (level.getD (min (2*k+1) (level.length-1)) 0)) := by
  have hpairs : ∀ m, m ≤ (level.length+1)/2 → (List.range m).foldl (fun acc k => acc ++
      [H.pair (acc.getD (tree.length+2*k) 0)
        (acc.getD (tree.length+min (2*k+1) (level.length-1)) 0)]) (tree ++ level) =
      tree ++ (level ++ (List.range m).map fun k =>
        H.pair (level.getD (2*k) 0) (level.getD (min (2*k+1) (level.length-1)) 0)) := by
    intro m hm
    induction m with
    | zero => simp
    | succ m ih =>
      rw [List.range_succ,List.foldl_append,ih (by omega)]
      simp only [List.foldl_cons,List.foldl_nil]
      rw [getD_tree (by omega),getD_tree (by omega),List.map_append,List.append_assoc,
        List.append_assoc]
      rfl
  exact hpairs _ (Nat.le_refl _)

/-- The inner loop turns one level into the next. -/
theorem pushLevel_eq (tree : List Uint256) (height : Nat) :
    pushLevel H tree.length (calcTreeWidth vTxid.length height)
        (tree ++ levelHashes H vTxid height) =
      tree ++ levelHashes H vTxid height ++ levelHashes H vTxid (height+1) := by
  have hpairs : (List.range ((calcTreeWidth vTxid.length height+1)/2)).map (fun k =>
      H.pair ((levelHashes H vTxid height).getD (2*k) 0)
        ((levelHashes H vTxid height).getD
          (min (2*k+1) (calcTreeWidth vTxid.length height-1)) 0)) =
      levelHashes H vTxid (height+1) := by
    have hnext : levelHashes H vTxid (height+1) =
        (List.range ((calcTreeWidth vTxid.length height+1)/2)).map
          (calcHash H vTxid (height+1)) := by
      rw [← calcTreeWidth_succ]
      rfl
    rw [hnext]
    apply List.map_congr_left
    intro k hk
    have hk' := List.mem_range.mp hk
    rw [levelHashes_getD (by omega),levelHashes_getD (by omega)]
    simp only [calcHash]
    rw [Nat.mul_comm k 2]
    congr 1
    split
    · rw [Nat.min_eq_left (by omega)]
    · rw [show min (2*k+1) (calcTreeWidth vTxid.length height-1) = 2*k by omega]
  have hpush := @pushLevel_map H tree (levelHashes H vTxid height)
  rw [length_levelHashes,hpairs] at hpush
  rw [hpush,List.append_assoc]

/-- The last hash that is pushed is the one node of the last level. -/
theorem buildLevels_getLast (tree : List Uint256) (height : Nat)
    (hn : 0 < vTxid.length) (mutated : Bool) (hle : height ≤ treeHeight vTxid.length)
    (hbefore : ∀ h, h < treeHeight vTxid.length → 1 < calcTreeWidth vTxid.length h) :
    (buildLevels H tree.length (calcTreeWidth vTxid.length height)
      (tree ++ levelHashes H vTxid height) mutated).1.getLast? =
        some (calcHash H vTxid (treeHeight vTxid.length) 0) := by
  induction hk : treeHeight vTxid.length-height generalizing height tree mutated with
  | zero =>
    have heq : height = treeHeight vTxid.length := by omega
    have hwidth := treeHeight_width hn
    unfold buildLevels
    rw [heq,hwidth,if_neg (by decide)]
    unfold levelHashes
    rw [hwidth]
    simp
  | succ k ih =>
    have hwide := hbefore height (by omega)
    have hnext := ih (tree ++ levelHashes H vTxid height) (height+1)
      (mutated || levelMutated tree.length (calcTreeWidth vTxid.length height)
        (tree ++ levelHashes H vTxid height)) (by omega) (by omega)
    have hlen : (tree ++ levelHashes H vTxid height).length =
        tree.length+calcTreeWidth vTxid.length height := by
      rw [List.length_append,length_levelHashes]
    unfold buildLevels
    rw [if_pos hwide,pushLevel_eq tree height,← calcTreeWidth_succ,← hlen]
    exact hnext

theorem treeHeightFrom_before {n nHeight h : Nat} (hle : nHeight ≤ h)
    (hlt : h < treeHeightFrom n nHeight) : 1 < calcTreeWidth n h := by
  induction hw : calcTreeWidth n nHeight using Nat.strong_induction_on generalizing nHeight with
  | _ w ih =>
    unfold treeHeightFrom at hlt
    split at hlt
    · rename_i hwide
      by_cases heq : nHeight = h
      · rw [← heq]
        exact hwide
      · refine ih _ ?_ (by omega) hlt rfl
        rw [calcTreeWidth_succ]
        omega
    · omega

/-- `BuildMerkleTree` and `CalcHash` give the same root. -/
theorem buildMerkleTree_root (hn : 0 < vTxid.length) :
    (buildMerkleTree H vTxid).1 = calcHash H vTxid (treeHeight vTxid.length) 0 := by
  have h := buildLevels_getLast (H := H) [] 0 hn false (Nat.zero_le _)
    fun h hlt => treeHeightFrom_before (Nat.zero_le h) hlt
  rw [calcTreeWidth_zero,levelHashes_zero,List.nil_append,List.length_nil] at h
  unfold buildMerkleTree
  simp only
  rw [List.getLastD_eq_getLast?,h]
  rfl

end Levels

end Anoncoin
