import Anoncoin.MerkleMutation

/-!
Merkle branches (block.cpp): `GetMerkleBranch` and `CheckMerkleBranch` over the vector that
`BuildMerkleTree` fills, with every index into the vector checked.
-/

set_option autoImplicit false

namespace Anoncoin
open Lib

section Definitions
variable (H : HashFunctions)

/-- The inner loop of `BuildMerkleTree` from `i` on; there is no result when an index lies outside
the vector. -/
def pushPairs (j nSize i : Nat) (vMerkleTree : List Uint256) (mutated : Bool) :
    Option (List Uint256 × Bool) :=
  if i < nSize then do
    let i2 := min (i+1) (nSize-1)
    let left ← vMerkleTree[j+i]?
    let right ← vMerkleTree[j+i2]?
    pushPairs j nSize (i+2) (vMerkleTree ++ [H.pair left right])
      (mutated || (i2 == i+1 && i2+1 == nSize && left == right))
  else some (vMerkleTree,mutated)
  termination_by nSize-i

/-- The outer loop. -/
def pushLevels (j nSize : Nat) (vMerkleTree : List Uint256) (mutated : Bool) :
    Option (List Uint256 × Bool) :=
  if 1 < nSize then do
    let pushed ← pushPairs H j nSize 0 vMerkleTree mutated
    pushLevels (j+nSize) ((nSize+1)/2) pushed.1 pushed.2
  else some (vMerkleTree,mutated)
  termination_by nSize

/-- The vector that `BuildMerkleTree` leaves in the block. -/
def fillMerkleTree (vTxid : List Uint256) : Option (List Uint256) :=
  (pushLevels H 0 vTxid.length vTxid false).map Prod.fst

/-- `nIndex ^ 1`. -/
def flipLowest (nIndex : Int) : Int := if nIndex%2 = 0 then nIndex+1 else nIndex-1

/-- `vMerkleTree[k]`. -/
def treeAt (vMerkleTree : List Uint256) (k : Int) : Option Uint256 :=
  if 0 ≤ k then vMerkleTree[k.toNat]? else none

/-- The loop of `GetMerkleBranch`. -/
def branchFrom (vMerkleTree : List Uint256) (j nSize : Nat) (nIndex : Int) :
    Option (List Uint256) :=
  if 1 < nSize then do
    let i := min (flipLowest nIndex) (nSize-1)
    let hash ← treeAt vMerkleTree (j+i)
    let rest ← branchFrom vMerkleTree (j+nSize) ((nSize+1)/2) (nIndex/2)
    pure (hash :: rest)
  else some []
  termination_by nSize

/-- The vector that the block holds, which is filled if it is empty. -/
def heldMerkleTree (vMerkleTree vTxid : List Uint256) : Option (List Uint256) :=
  if vMerkleTree = [] then fillMerkleTree H vTxid else some vMerkleTree

/-- `GetMerkleBranch` of a block with the hashes `vTxid` and what it holds as `vMerkleTree`. -/
def getMerkleBranch (vMerkleTree vTxid : List Uint256) (nIndex : Int) : Option (List Uint256) := do
  let vMerkleTree ← heldMerkleTree H vMerkleTree vTxid
  branchFrom vMerkleTree 0 vTxid.length nIndex

/-- `CheckMerkleBranch`. -/
def checkMerkleBranch (hash : Uint256) (vMerkleBranch : List Uint256) (nIndex : Int) : Uint256 :=
  if nIndex = -1 then 0
  else (vMerkleBranch.foldl (fun (s : Uint256 × Int) otherside =>
    (if s.2%2 = 0 then H.pair s.1 otherside else H.pair otherside s.1,s.2/2)) (hash,nIndex)).1

end Definitions

section Fill
variable {H : HashFunctions} {tree level : List Uint256}

theorem getElem?_behind (tree before : List Uint256) (x : Uint256) (more : List Uint256) :
    (tree ++ (before ++ x :: more))[tree.length+before.length]? = some x := by
  rw [List.getElem?_append_right (by omega),Nat.add_sub_cancel_left,
    List.getElem?_append_right (Nat.le_refl _),Nat.sub_self]
  rfl

/-- The inner loop pairs up what is left of the level. -/
theorem pushPairs_eq (tree before rest done : List Uint256) (mutated : Bool) :
    pushPairs H tree.length (before ++ rest).length before.length
        (tree ++ (before ++ (rest ++ done))) mutated =
      some (tree ++ (before ++ (rest ++ (done ++ pairUp H.pair rest))),
        mutated || endsTwice rest) := by
  induction rest using couples.induct generalizing before done mutated with
  | case1 =>
    unfold pushPairs
    rw [if_neg (by simp)]
    simp [pairUp,couples,endsTwice]
  | case2 x =>
    have hsize : (before ++ [x]).length = before.length+1 := by simp
    have hx := getElem?_behind tree before x done
    rw [hsize]
    unfold pushPairs
    simp only [List.cons_append,List.nil_append]
    rw [if_pos (Nat.lt_succ_self _),Nat.add_sub_cancel,Nat.min_eq_right (Nat.le_succ _),hx]
    simp only [Option.bind_eq_bind,Option.bind_some]
    unfold pushPairs
    rw [if_neg (by omega)]
    simp [pairUp,couples,endsTwice]
  | case3 x y rest ih =>
    have hsize : (before ++ x :: y :: rest).length = before.length+2+rest.length := by
      rw [List.length_append,List.length_cons,List.length_cons]
      omega
    have hx := getElem?_behind tree before x (y :: (rest ++ done))
    have hy := getElem?_behind tree (before ++ [x]) y (rest ++ done)
    rw [List.length_append,List.length_singleton,List.append_assoc,List.singleton_append] at hy
    have hnext := ih (before ++ [x,y]) (done ++ [H.pair x y])
      (mutated || (rest.isEmpty && x == y))
    have hlast : (before.length+1+1 == before.length+2+rest.length) = rest.isEmpty := by
      rw [Bool.eq_iff_iff,beq_iff_eq,List.isEmpty_iff_length_eq_zero]
      omega
    rw [hsize]
    unfold pushPairs
    simp only [List.cons_append]
    rw [if_pos (by omega),show before.length+2+rest.length-1 = before.length+1+rest.length by omega,
      Nat.min_eq_left (Nat.le_add_right _ _),hx]
    simp only [Option.bind_eq_bind,Option.bind_some]
    rw [hy,endsTwice_couple,hlast,
      show pairUp H.pair (x :: y :: rest) = H.pair x y :: pairUp H.pair rest from rfl]
    simp only [Option.bind_some,BEq.rfl,Bool.true_and]
    simp only [List.append_assoc,List.cons_append,List.nil_append,List.length_append,
      List.length_cons,List.length_nil,Bool.or_assoc] at hnext ⊢
    rw [← hnext]
    congr 1
    omega

/-- The outer loop puts the levels of the tree behind what is there. -/
theorem pushLevels_eq (tree : List Uint256) (mutated : Bool) (level : List Uint256) :
    pushLevels H tree.length level.length (tree ++ level) mutated =
      some (tree ++ (levels H.pair level).flatten,mutated || treeMutated H.pair level) := by
  induction level using induction_levels H.pair generalizing tree mutated with
  | top level h =>
    unfold pushLevels
    rw [if_neg h,levels_top h,treeMutated_top h]
    simp
  | step level h ih =>
    have hpairs := pushPairs_eq (H := H) tree [] level [] mutated
    simp only [List.nil_append,List.append_nil,List.length_nil] at hpairs
    have hrest := ih (tree ++ level) (mutated || endsTwice level)
    rw [List.length_append,List.append_assoc,length_pairUp] at hrest
    unfold pushLevels
    rw [if_pos h,hpairs]
    simp only [Option.bind_eq_bind,Option.bind_some]
    rw [hrest,levels_step h,treeMutated_step h,List.flatten_cons,List.append_assoc,Bool.or_assoc]

/-- No index lies outside the vector, which then holds the levels of the tree. -/
theorem fillMerkleTree_eq (vTxid : List Uint256) :
    fillMerkleTree H vTxid = some (levels H.pair vTxid).flatten := by
  have h := pushLevels_eq (H := H) [] false vTxid
  rw [List.nil_append,List.nil_append,List.length_nil] at h
  unfold fillMerkleTree
  rw [h]
  rfl

/-- The checked loops give what the tree of the block check gives. -/
theorem pushLevels_eq_buildLevels (vTxid : List Uint256) :
    pushLevels H 0 vTxid.length vTxid false = some (buildLevels H 0 vTxid.length vTxid false) := by
  have hpush := pushLevels_eq (H := H) [] false vTxid
  have hbuild := buildLevels_eq (H := H) [] false vTxid
  rw [List.nil_append,List.nil_append,List.length_nil] at hpush hbuild
  rw [hpush,hbuild]

end Fill

section Branch
variable {H : HashFunctions} {level : List Uint256} {i : Nat}

theorem treeAt_natCast (vMerkleTree : List Uint256) (k : Nat) :
    treeAt vMerkleTree k = vMerkleTree[k]? := by
  unfold treeAt
  rw [if_pos (Int.natCast_nonneg k),Int.toNat_natCast]

theorem flipLowest_even (k : Nat) : flipLowest ((2*k : Nat) : Int) = ((2*k+1 : Nat) : Int) := by
  unfold flipLowest
  rw [if_pos (by omega)]
  rfl

theorem flipLowest_odd (k : Nat) : flipLowest ((2*k+1 : Nat) : Int) = ((2*k : Nat) : Int) := by
  unfold flipLowest
  rw [if_neg (by omega)]
  push_cast
  omega

theorem getD_pairUp {k : Nat} (h : 2*k < level.length) :
    (pairUp H.pair level).getD k 0 =
      H.pair (level.getD (2*k) 0) (level.getD (min (2*k+1) (level.length-1)) 0) := by
  unfold pairUp
  rw [couples_eq_map level 0,List.map_map,List.getD_eq_getElem?_getD,List.getElem?_map,
    List.getElem?_range (by omega)]
  rfl

/-- The sibling of a node, which is the node itself where there is no neighbour. -/
def sibling (level : List Uint256) (i : Nat) : Uint256 :=
  level.getD (if i%2 = 0 then min (i+1) (level.length-1) else i-1) 0

theorem branchFrom_step (tree : List Uint256) (h : 1 < level.length) (hi : i < level.length) :
    branchFrom (tree ++ (levels H.pair level).flatten) tree.length level.length i =
      (branchFrom (tree ++ level ++ (levels H.pair (pairUp H.pair level)).flatten)
        (tree ++ level).length (pairUp H.pair level).length ((i/2 : Nat) : Int)).map
          (sibling level i :: ·) := by
  have hindex : min (flipLowest i) ((level.length : Int)-1) =
      ((if i%2 = 0 then min (i+1) (level.length-1) else i-1 : Nat) : Int) := by
    rcases Nat.even_or_odd' i with ⟨k,rfl | rfl⟩
    · rw [flipLowest_even,if_pos (by omega)]
      omega
    · rw [flipLowest_odd,if_neg (by omega)]
      omega
  have hlt : (if i%2 = 0 then min (i+1) (level.length-1) else i-1) < level.length := by
    split_ifs <;> omega
  have hread : (tree ++ (level ++ (levels H.pair (pairUp H.pair level)).flatten))[tree.length+
      (if i%2 = 0 then min (i+1) (level.length-1) else i-1)]? = some (sibling level i) := by
    rw [List.getElem?_append_right (by omega),Nat.add_sub_cancel_left,
      List.getElem?_append_left hlt,List.getElem?_eq_getElem hlt]
    unfold sibling
    rw [List.getD_eq_getElem?_getD,List.getElem?_eq_getElem hlt]
    rfl
  conv_lhs => unfold branchFrom
  rw [if_pos h,levels_step h,List.flatten_cons]
  simp only [hindex]
  rw [← Nat.cast_add,treeAt_natCast,hread]
  simp only [Option.bind_eq_bind,Option.bind_some,Option.pure_def]
  rw [length_pairUp,List.length_append,List.append_assoc,
    show (i : Int)/2 = ((i/2 : Nat) : Int) from rfl]
  cases branchFrom (tree ++ (level ++ (levels H.pair (pairUp H.pair level)).flatten))
      (tree.length+level.length) ((level.length+1)/2) ((i/2 : Nat) : Int) with
  | none => rfl
  | some rest => rfl

/-- A node with its sibling, in the order of its index, gives the node above. -/
theorem pair_sibling (hi : i < level.length) :
    (if (i : Int)%2 = 0 then H.pair (level.getD i 0) (sibling level i)
      else H.pair (sibling level i) (level.getD i 0)) = (pairUp H.pair level).getD (i/2) 0 := by
  rw [getD_pairUp (by omega)]
  unfold sibling
  rcases Nat.even_or_odd' i with ⟨k,rfl | rfl⟩
  · rw [if_pos (by omega),if_pos (by omega),show 2*k/2 = k by omega]
  · rw [if_neg (by omega),if_neg (by omega),show (2*k+1)/2 = k by omega,Nat.add_sub_cancel,
      Nat.min_eq_left (by omega)]

/-- The branch is read inside the vector, and it leads from the node to the top. -/
theorem branchFrom_check (tree : List Uint256) (hi : i < level.length) :
    ∃ branch, branchFrom (tree ++ (levels H.pair level).flatten) tree.length level.length i =
        some branch ∧
      (branch.foldl (fun (s : Uint256 × Int) otherside =>
        (if s.2%2 = 0 then H.pair s.1 otherside else H.pair otherside s.1,s.2/2))
          (level.getD i 0,(i : Int))).1 = (topLevel H.pair level).getLastD 0 := by
  induction level using induction_levels H.pair generalizing tree i with
  | top level h =>
    obtain ⟨x,rfl⟩ : ∃ x, level = [x] := List.length_eq_one_iff.mp (by omega)
    obtain rfl : i = 0 := by simpa using hi
    refine ⟨[],?_,?_⟩
    · unfold branchFrom
      rw [if_neg h]
    · rw [topLevel_top h]
      rfl
  | step level h ih =>
    have hhalf : i/2 < (pairUp H.pair level).length := by
      rw [length_pairUp]
      omega
    obtain ⟨branch,hbranch,hcheck⟩ := ih (tree ++ level) hhalf
    refine ⟨sibling level i :: branch,?_,?_⟩
    · rw [branchFrom_step tree h hi,hbranch]
      rfl
    · rw [List.foldl_cons,pair_sibling hi,topLevel_step h,← hcheck]
      rfl

end Branch

/-- The branch of every transaction is read inside the vector, and from the hash of the transaction
it leads to what `BuildMerkleTree` gives. -/
theorem checkMerkleBranch_getMerkleBranch (H : HashFunctions) (vtx : List CTransaction)
    {vMerkleTree : List Uint256}
    (h : vMerkleTree = [] ∨ fillMerkleTree H (txHashes H vtx) = some vMerkleTree) {i : Nat}
    (hi : i < vtx.length) :
    ∃ branch, getMerkleBranch H vMerkleTree (txHashes H vtx) i = some branch ∧
      checkMerkleBranch H (vtx[i].getHash H) branch i =
        (buildMerkleTree H (txHashes H vtx)).1 := by
  have hlength : (txHashes H vtx).length = vtx.length := List.length_map _
  have hne : txHashes H vtx ≠ [] := List.length_pos_iff.mp (by omega)
  have hfill := fillMerkleTree_eq (H := H) (txHashes H vtx)
  have htree : heldMerkleTree H vMerkleTree (txHashes H vtx) =
      some (levels H.pair (txHashes H vtx)).flatten := by
    unfold heldMerkleTree
    split_ifs with hempty
    · exact hfill
    · rw [← hfill]
      exact (h.resolve_left hempty).symm
  obtain ⟨branch,hbranch,hcheck⟩ := branchFrom_check (H := H) []
    (show i < (txHashes H vtx).length by omega)
  have hhash : (txHashes H vtx).getD i 0 = vtx[i].getHash H := by
    rw [List.getD_eq_getElem?_getD]
    unfold txHashes
    rw [List.getElem?_map,List.getElem?_eq_getElem hi]
    rfl
  refine ⟨branch,?_,?_⟩
  · unfold getMerkleBranch
    rw [htree]
    exact hbranch
  · unfold checkMerkleBranch
    rw [if_neg (by omega),← hhash,hcheck,buildMerkleTree_eq hne]

/-- The second of three transactions, with the vector as it was filled. -/
theorem checkMerkleBranch_getMerkleBranch_three :
    ∃ branch, getMerkleBranch sumHashes (levels sumHashes.pair
        (txHashes sumHashes threeTransactions)).flatten (txHashes sumHashes threeTransactions) 1 =
        some branch ∧
      checkMerkleBranch sumHashes (threeTransactions[1].getHash sumHashes) branch 1 =
        (buildMerkleTree sumHashes (txHashes sumHashes threeTransactions)).1 :=
  checkMerkleBranch_getMerkleBranch sumHashes threeTransactions
    (.inr (fillMerkleTree_eq _)) (show 1 < 3 by decide)

end Anoncoin
