import Mathlib.Data.List.GetD
import Mathlib.Tactic.IntervalCases
import Mathlib.Tactic.Linarith
import Mathlib.Tactic.Ring
import Anoncoin.MerkleTree
import Anoncoin.Lib.Bits

/-!
Partial merkle trees (merkleblock.h, merkleblock.cpp): what is built for a selection of the
transactions of a block, and what is extracted from whatever is received.
-/

set_option autoImplicit false

namespace Anoncoin
open Lib

structure CPartialMerkleTree where
  nTransactions : Nat
  vBits : List Bool
  vHash : List Uint256
  fBad : Bool
  deriving DecidableEq, Repr

section Build
variable (H : HashFunctions) (vTxid : List Uint256) (vMatch : List Bool)

/-- The positions below a node. -/
def leavesBelow (n height pos : Nat) : List Nat :=
  (List.range' (pos*2^height) (2^height)).filter fun p => decide (p < n)

def parentOfMatch (height pos : Nat) : Bool :=
  (leavesBelow vTxid.length height pos).any fun p => vMatch.getD p false

/-- `TraverseAndBuild`: the bits and the hashes that it stores. -/
def traverseAndBuild : Nat → Nat → List Bool × List Uint256
  | 0, pos => ([parentOfMatch vTxid vMatch 0 pos],[calcHash H vTxid 0 pos])
  | height+1, pos =>
      if parentOfMatch vTxid vMatch (height+1) pos then
        let left := traverseAndBuild height (pos*2)
        let right := if pos*2+1 < calcTreeWidth vTxid.length height then
          traverseAndBuild height (pos*2+1) else ([],[])
        (true :: (left.1 ++ right.1),left.2 ++ right.2)
      else ([false],[calcHash H vTxid (height+1) pos])

/-- The constructor from the transaction ids of a block and the selection. -/
def CPartialMerkleTree.build : CPartialMerkleTree :=
  let (vBits,vHash) := traverseAndBuild H vTxid vMatch (treeHeight vTxid.length) 0
  ⟨vTxid.length,vBits,vHash,false⟩

end Build

/-- How far the traversal came, what it found, and the pairs that it hashed. -/
structure Extraction where
  nBitsUsed : Nat
  nHashUsed : Nat
  vMatch : List Uint256
  fBad : Bool
  hashed : List (Uint256 × Uint256)
  deriving DecidableEq, Repr

namespace CPartialMerkleTree

/-- The next flag bit, if there is one left. There is no value for an access out of range. -/
def nextBit (t : CPartialMerkleTree) (s : Extraction) : Option (Option Bool × Extraction) :=
  if t.vBits.length ≤ s.nBitsUsed then some (none,{ s with fBad := true })
  else t.vBits[s.nBitsUsed]?.map fun b => (some b,{ s with nBitsUsed := s.nBitsUsed+1 })

/-- The next hash, which is a matched transaction id at the height of the leaves. -/
def nextHash (t : CPartialMerkleTree) (matched : Bool) (s : Extraction) :
    Option (Uint256 × Extraction) :=
  if t.vHash.length ≤ s.nHashUsed then some (0,{ s with fBad := true })
  else t.vHash[s.nHashUsed]?.map fun hash => (hash,{ s with
    nHashUsed := s.nHashUsed+1
    vMatch := if matched then s.vMatch ++ [hash] else s.vMatch })

def combine (H : HashFunctions) (left right : Uint256) (s : Extraction) : Uint256 × Extraction :=
  (H.pair left right,{ s with hashed := s.hashed ++ [(left,right)] })

def traverseAndExtract (H : HashFunctions) (t : CPartialMerkleTree) :
    Nat → Nat → Extraction → Option (Uint256 × Extraction)
  | 0, _, s =>
      match t.nextBit s with
      | none => none
      | some (none,s) => some (0,s)
      | some (some fParentOfMatch,s) => t.nextHash fParentOfMatch s
  | height+1, pos, s =>
      match t.nextBit s with
      | none => none
      | some (none,s) => some (0,s)
      | some (some false,s) => t.nextHash false s
      | some (some true,s) =>
          match traverseAndExtract H t height (pos*2) s with
          | none => none
          | some (left,s) =>
              if pos*2+1 < calcTreeWidth t.nTransactions height then
                match traverseAndExtract H t height (pos*2+1) s with
                | none => none
                | some (right,s) =>
                    some (combine H left right (if right = left then { s with fBad := true } else s))
              else some (combine H left left s)

/-- `ExtractMatches`: the root, or zero, and the state at the end with the matches. -/
def extractMatches (H : HashFunctions) (t : CPartialMerkleTree) : Option (Uint256 × Extraction) :=
  let start : Extraction := ⟨0,0,[],t.fBad,[]⟩
  if t.nTransactions = 0 then some (0,start)
  else if MAX_BLOCK_SIZE/60 < t.nTransactions then some (0,start)
  else if t.nTransactions < t.vHash.length then some (0,start)
  else if t.vBits.length < t.vHash.length then some (0,start)
  else
    match traverseAndExtract H t (treeHeight t.nTransactions) 0 start with
    | none => none
    | some (hashMerkleRoot,s) =>
        if s.fBad then some (0,s)
        else if (s.nBitsUsed+7)/8 ≠ (t.vBits.length+7)/8 then some (0,s)
        else if s.nHashUsed ≠ t.vHash.length then some (0,s)
        else some (hashMerkleRoot,s)

def packBits (vBits : List Bool) : List UInt8 :=
  (List.range ((vBits.length+7)/8)).map fun b => byteOf fun i => vBits.getD (b*8+i) false

def serialize (t : CPartialMerkleTree) : List UInt8 :=
  littleEndian 4 t.nTransactions ++
    (serializeVector (fun hash : Uint256 => littleEndian 32 hash.toNat) t.vHash ++
      serializeBytes (packBits t.vBits))

def readHash : Reader ReadFailure Uint256 := do
  let hash ← readUint 32
  pure (BitVec.ofNat 256 hash)

def unserialize : Reader ReadFailure CPartialMerkleTree := do
  let nTransactions ← readUint 4
  let vHash ← unserializeVector 32 chunk_pos_of_32 readHash
  let vBytes ← unserializeBytes
  pure ⟨nTransactions,vBytes.flatMap bitsOf,vHash,false⟩

end CPartialMerkleTree

section Leaves
variable {n height pos : Nat}

theorem mem_leavesBelow {p : Nat} : p ∈ leavesBelow n height pos ↔
    pos*2^height ≤ p ∧ p < (pos+1)*2^height ∧ p < n := by
  simp only [leavesBelow,List.mem_filter,List.mem_range'_1,decide_eq_true_eq,Nat.succ_mul,
    and_assoc]

/-- The leaves below a node are those below its left child and those below its right one. -/
theorem leavesBelow_succ (n height pos : Nat) : leavesBelow n (height+1) pos =
    leavesBelow n height (pos*2) ++ leavesBelow n height (pos*2+1) := by
  have hsplit : List.range' (pos*2^(height+1)) (2^(height+1)) =
      List.range' (pos*2*2^height) (2^height) ++ List.range' ((pos*2+1)*2^height) (2^height) := by
    rw [show pos*2^(height+1) = pos*2*2^height by rw [Nat.pow_succ]; ring,
      show (pos*2+1)*2^height = pos*2*2^height+2^height by ring,
      show 2^(height+1) = 2^height+2^height by rw [Nat.pow_succ]; ring]
    exact (List.range'_append_1 ..).symm
  unfold leavesBelow
  rw [hsplit,List.filter_append]

theorem leavesBelow_eq_nil (h : ¬pos < calcTreeWidth n height) : leavesBelow n height pos = [] := by
  rw [lt_calcTreeWidth] at h
  unfold leavesBelow
  refine List.filter_eq_nil_iff.mpr fun p hp => ?_
  have := (List.mem_range'_1.mp hp).1
  simp only [decide_eq_true_eq]
  omega

theorem leavesBelow_pos (h : pos < calcTreeWidth n height) :
    0 < (leavesBelow n height pos).length := by
  rw [lt_calcTreeWidth] at h
  have hpos := Nat.two_pow_pos height
  refine List.length_pos_of_mem (a := pos*2^height) (mem_leavesBelow.mpr ⟨Nat.le_refl _,?_,h⟩)
  rw [Nat.succ_mul]
  omega

theorem leavesBelow_zero (h : pos < n) : leavesBelow n 0 pos = [pos] := by
  simp [leavesBelow,h]

/-- Below the root are all the leaves. -/
theorem leavesBelow_root (hn : 0 < n) : leavesBelow n (treeHeight n) 0 = List.range n := by
  have hle : n ≤ 2^treeHeight n := by
    by_contra hgt
    have h : 1 < calcTreeWidth n (treeHeight n) := lt_calcTreeWidth.mpr (by omega)
    rw [treeHeight_width hn] at h
    omega
  obtain ⟨k,hk⟩ := Nat.exists_eq_add_of_le hle
  unfold leavesBelow
  rw [Nat.zero_mul,← List.range_eq_range',hk,List.range_add,List.filter_append,
    List.filter_eq_self.mpr (by simp),List.filter_eq_nil_iff.mpr (by simp),List.append_nil]

end Leaves

section RoundTrip
variable {H : HashFunctions} {vTxid : List Uint256} {vMatch : List Bool}

/-- The matched transaction ids below a node, in order. -/
def matchedBelow (vTxid : List Uint256) (vMatch : List Bool) (height pos : Nat) : List Uint256 :=
  ((leavesBelow vTxid.length height pos).filter fun p => vMatch.getD p false).map
    fun p => vTxid.getD p 0

/-- Neighbouring subtrees have different hashes. -/
def NeighboursDistinct (H : HashFunctions) (vTxid : List Uint256) : Prop :=
  ∀ height pos, pos*2+1 < calcTreeWidth vTxid.length height →
    calcHash H vTxid height (pos*2) ≠ calcHash H vTxid height (pos*2+1)

theorem matchedBelow_of_unmatched {height pos : Nat}
    (h : parentOfMatch vTxid vMatch height pos = false) :
    matchedBelow vTxid vMatch height pos = [] := by
  unfold parentOfMatch at h
  unfold matchedBelow
  rw [List.filter_eq_nil_iff.mpr,List.map_nil]
  intro p hp
  exact List.any_eq_false.mp h p hp

theorem matchedBelow_succ (height pos : Nat) : matchedBelow vTxid vMatch (height+1) pos =
    matchedBelow vTxid vMatch height (pos*2) ++ matchedBelow vTxid vMatch height (pos*2+1) := by
  unfold matchedBelow
  rw [leavesBelow_succ,List.filter_append,List.map_append]

theorem matchedBelow_beyond {height pos : Nat} (h : ¬pos < calcTreeWidth vTxid.length height) :
    matchedBelow vTxid vMatch height pos = [] := by
  unfold matchedBelow
  rw [leavesBelow_eq_nil h]
  rfl

/-- A hash is stored for at most each leaf, and a bit for at least each hash. -/
theorem length_traverseAndBuild {height pos : Nat} (h : pos < calcTreeWidth vTxid.length height) :
    (traverseAndBuild H vTxid vMatch height pos).2.length ≤
        (leavesBelow vTxid.length height pos).length ∧
      (traverseAndBuild H vTxid vMatch height pos).2.length ≤
        (traverseAndBuild H vTxid vMatch height pos).1.length := by
  induction height generalizing pos with
  | zero => exact ⟨leavesBelow_pos h,Nat.le_refl _⟩
  | succ height ih =>
    unfold traverseAndBuild
    split
    · have hwidth := calcTreeWidth_succ vTxid.length height
      have hpos : pos*2 < calcTreeWidth vTxid.length height := by omega
      obtain ⟨hleft,hleft'⟩ := ih hpos
      rw [leavesBelow_succ]
      simp only [List.length_append,List.length_cons]
      split
      · rename_i hr
        obtain ⟨hright,hright'⟩ := ih hr
        omega
      · simp only [List.length_nil]
        omega
    · exact ⟨leavesBelow_pos h,Nat.le_refl _⟩

theorem drop_cons {α : Type} {l rest : List α} {k : Nat} {a : α} (h : l.drop k = a :: rest) :
    k < l.length ∧ l[k]? = some a ∧ l.drop (k+1) = rest := by
  have hget : l[k]? = some a := by
    have h₀ := congrArg (fun l => l[0]?) h
    simpa using h₀
  refine ⟨(List.getElem?_eq_some_iff.mp hget).1,hget,?_⟩
  rw [← List.drop_drop,h]
  rfl

namespace CPartialMerkleTree
variable {t : CPartialMerkleTree} {s : Extraction}

theorem nextBit_of_drop {b : Bool} {rest : List Bool} (h : t.vBits.drop s.nBitsUsed = b :: rest) :
    t.nextBit s = some (some b,{ s with nBitsUsed := s.nBitsUsed+1 }) := by
  obtain ⟨hlt,hget,-⟩ := drop_cons h
  unfold nextBit
  rw [if_neg (by omega),hget]
  rfl

theorem nextHash_of_drop {hash : Uint256} {rest : List Uint256} (matched : Bool)
    (h : t.vHash.drop s.nHashUsed = hash :: rest) :
    t.nextHash matched s = some (hash,{ s with
      nHashUsed := s.nHashUsed+1
      vMatch := if matched then s.vMatch ++ [hash] else s.vMatch }) := by
  obtain ⟨hlt,hget,-⟩ := drop_cons h
  unfold nextHash
  rw [if_neg (by omega),hget]
  rfl

theorem matchedBelow_leaf {pos : Nat} (h : pos < vTxid.length) :
    matchedBelow vTxid vMatch 0 pos =
      if parentOfMatch vTxid vMatch 0 pos then [calcHash H vTxid 0 pos] else [] := by
  unfold matchedBelow parentOfMatch
  rw [leavesBelow_zero h]
  cases hm : vMatch.getD pos false with
  | true =>
    simp only [List.filter_cons,List.filter_nil,List.any_cons,List.any_nil,hm]
    rfl
  | false =>
    simp only [List.filter_cons,List.filter_nil,List.any_cons,List.any_nil,hm]
    rfl

/-- Where the bits and hashes that were built for a node come next, they are used up, and
give the hash of the node and the matches below it. -/
theorem traverseAndExtract_build (hdistinct : NeighboursDistinct H vTxid)
    (hn : t.nTransactions = vTxid.length) {height pos : Nat}
    (hpos : pos < calcTreeWidth vTxid.length height) {bits : List Bool} {hashes : List Uint256}
    (hbits : t.vBits.drop s.nBitsUsed = (traverseAndBuild H vTxid vMatch height pos).1 ++ bits)
    (hhash : t.vHash.drop s.nHashUsed = (traverseAndBuild H vTxid vMatch height pos).2 ++ hashes) :
    ∃ log, traverseAndExtract H t height pos s = some (calcHash H vTxid height pos,
        ⟨s.nBitsUsed+(traverseAndBuild H vTxid vMatch height pos).1.length,
          s.nHashUsed+(traverseAndBuild H vTxid vMatch height pos).2.length,
          s.vMatch ++ matchedBelow vTxid vMatch height pos,s.fBad,log⟩) := by
  induction height generalizing pos s bits hashes with
  | zero =>
    rw [calcTreeWidth_zero] at hpos
    refine ⟨s.hashed,?_⟩
    simp only [traverseAndBuild,List.singleton_append] at hbits hhash
    unfold traverseAndExtract
    rw [nextBit_of_drop hbits]
    simp only
    rw [nextHash_of_drop _ (s := { s with nBitsUsed := s.nBitsUsed+1 }) hhash,
      matchedBelow_leaf (H := H) hpos]
    simp only [traverseAndBuild,List.length_singleton]
    split <;> simp
  | succ height ih =>
    have hwidth := calcTreeWidth_succ vTxid.length height
    cases hm : parentOfMatch vTxid vMatch (height+1) pos with
    | false =>
      refine ⟨s.hashed,?_⟩
      simp only [traverseAndBuild,hm,Bool.false_eq_true,if_false,List.singleton_append]
        at hbits hhash ⊢
      unfold traverseAndExtract
      rw [nextBit_of_drop hbits,matchedBelow_of_unmatched hm]
      simp only
      rw [nextHash_of_drop _ (s := { s with nBitsUsed := s.nBitsUsed+1 }) hhash]
      simp
    | true =>
      obtain ⟨left,hleft⟩ : ∃ b, traverseAndBuild H vTxid vMatch height (pos*2) = b := ⟨_,rfl⟩
      obtain ⟨right,hright⟩ : ∃ b, (if pos*2+1 < calcTreeWidth vTxid.length height then
          traverseAndBuild H vTxid vMatch height (pos*2+1) else ([],[])) = b := ⟨_,rfl⟩
      simp only [traverseAndBuild,hm,if_true,hleft,hright,List.cons_append,List.append_assoc]
        at hbits hhash ⊢
      obtain ⟨-,-,hbits'⟩ := drop_cons hbits
      obtain ⟨s₁,hs₁⟩ : ∃ s₁ : Extraction, s₁ = { s with nBitsUsed := s.nBitsUsed+1 } := ⟨_,rfl⟩
      have hbitsL : t.vBits.drop s₁.nBitsUsed =
          (traverseAndBuild H vTxid vMatch height (pos*2)).1 ++ (right.1 ++ bits) := by
        rw [hs₁,hleft]
        exact hbits'
      have hhashL : t.vHash.drop s₁.nHashUsed =
          (traverseAndBuild H vTxid vMatch height (pos*2)).2 ++ (right.2 ++ hashes) := by
        rw [hs₁,hleft]
        exact hhash
      obtain ⟨log,hrunLeft⟩ := ih (by omega) hbitsL hhashL
      rw [hleft,hs₁] at hrunLeft
      unfold traverseAndExtract
      rw [nextBit_of_drop hbits]
      simp only [hrunLeft,hn]
      by_cases hr : pos*2+1 < calcTreeWidth vTxid.length height
      · rw [if_pos hr] at hright ⊢
        have hbitsR : t.vBits.drop (s.nBitsUsed+1+left.1.length) = right.1 ++ bits := by
          rw [← List.drop_drop,hbits',List.drop_left]
        have hhashR : t.vHash.drop (s.nHashUsed+left.2.length) = right.2 ++ hashes := by
          rw [← List.drop_drop,hhash,List.drop_left]
        obtain ⟨log',hrunRight⟩ := ih (s := ⟨s.nBitsUsed+1+left.1.length,
          s.nHashUsed+left.2.length,s.vMatch ++ matchedBelow vTxid vMatch height (pos*2),
          s.fBad,log⟩) hr (by rw [hright]; exact hbitsR) (by rw [hright]; exact hhashR)
        rw [hright] at hrunRight
        refine ⟨log' ++ [(calcHash H vTxid height (pos*2),calcHash H vTxid height (pos*2+1))],?_⟩
        rw [hrunRight]
        simp only
        rw [if_neg (hdistinct height pos hr).symm,matchedBelow_succ]
        simp only [combine,calcHash,if_pos hr,List.length_cons,List.length_append,List.append_assoc]
        congr 3
        · omega
        · omega
      · rw [if_neg hr] at hright ⊢
        refine ⟨log ++ [(calcHash H vTxid height (pos*2),calcHash H vTxid height (pos*2))],?_⟩
        rw [matchedBelow_succ,matchedBelow_beyond hr,← hright]
        simp only [combine,calcHash,if_neg hr,List.length_cons,List.append_nil]
        congr 3
        omega

theorem length_bits_lt (height pos : Nat) :
    (traverseAndBuild H vTxid vMatch height pos).1.length < 2^(height+1) := by
  induction height generalizing pos with
  | zero => simp [traverseAndBuild]
  | succ height ih =>
    have hleft := ih (pos*2)
    have hright := ih (pos*2+1)
    rw [Nat.pow_succ]
    unfold traverseAndBuild
    split
    · simp only [List.length_cons,List.length_append]
      split
      · omega
      · simp only [List.length_nil]
        omega
    · simp only [List.length_singleton]
      omega

theorem treeHeight_le {n k : Nat} (h : n ≤ 2^k) : treeHeight n ≤ k := by
  by_contra hgt
  have hwide : 1 < calcTreeWidth n k := treeHeightFrom_before (Nat.zero_le k) (by
    unfold treeHeight at hgt
    omega)
  rw [lt_calcTreeWidth] at hwide
  omega

theorem flatMap_packBits (vBits : List Bool) : (packBits vBits).flatMap bitsOf =
    vBits ++ List.replicate (8*((vBits.length+7)/8)-vBits.length) false := by
  unfold packBits
  rw [flatMap_bitsOf fun p => vBits.getD p false]
  apply List.ext_getElem?
  intro i
  rw [List.getElem?_map]
  by_cases hi : i < vBits.length
  · rw [List.getElem?_append_left hi,List.getElem?_range (by omega),Option.map_some,
      List.getElem?_eq_getElem hi,List.getD_eq_getElem _ _ hi]
  · rw [List.getElem?_append_right (by omega)]
    by_cases hi' : i < 8*((vBits.length+7)/8)
    · rw [List.getElem?_range hi',List.getElem?_replicate_of_lt (by omega),Option.map_some,
        List.getD_eq_default _ _ (by omega)]
    · rw [List.getElem?_eq_none (by simp; omega),List.getElem?_eq_none (by simp; omega)]
      rfl

/-- A tree is read back with its bits filled up to whole bytes. -/
theorem reads_unserialize {t : CPartialMerkleTree} (hn : t.nTransactions < 256^4)
    (hhash : t.vHash.length ≤ MAX_SIZE) (hbits : (t.vBits.length+7)/8 ≤ MAX_SIZE) :
    Reads unserialize t.serialize { t with
      vBits := t.vBits ++ List.replicate (8*((t.vBits.length+7)/8)-t.vBits.length) false
      fBad := false } := by
  have helem : ∀ hash ∈ t.vHash, Reads readHash (littleEndian 32 hash.toNat) hash := by
    intro hash _
    have hlt : hash.toNat < 256^32 := lt_of_lt_of_eq hash.isLt (by decide)
    refine (reads_readUint hlt).map ?_
    rw [BitVec.ofNat_toNat,BitVec.setWidth_eq]
    exact Reads.pure hash
  have hpack : (packBits t.vBits).length ≤ MAX_SIZE := by
    simpa [packBits] using hbits
  have hall : Reads unserialize t.serialize
      ⟨t.nTransactions,(packBits t.vBits).flatMap bitsOf,t.vHash,false⟩ :=
    (reads_readUint hn).bind ((reads_unserializeVector helem hhash).bind
      ((reads_unserializeBytes hpack).map (Reads.pure _)))
  rw [flatMap_packBits] at hall
  exact hall

theorem matchedBelow_root (hne : 0 < vTxid.length) (hlen : vMatch.length = vTxid.length) :
    matchedBelow vTxid vMatch (treeHeight vTxid.length) 0 =
      ((vTxid.zip vMatch).filter Prod.snd).map Prod.fst := by
  have hzip : vTxid.zip vMatch =
      (List.range vTxid.length).map fun p => (vTxid.getD p 0,vMatch.getD p false) := by
    apply List.ext_getElem
    · simp [hlen]
    · intro i hi hi'
      have hi₁ : i < vTxid.length := by simpa using hi'
      have hi₂ : i < vMatch.length := by omega
      rw [List.getElem_zip,List.getElem_map,List.getElem_range,List.getD_eq_getElem _ _ hi₁,
        List.getD_eq_getElem _ _ hi₂]
  unfold matchedBelow
  rw [leavesBelow_root hne,hzip,List.filter_map,List.map_map]
  rfl

end CPartialMerkleTree

/-- What is built for a selection of the transactions of a block, sent and received gives
the merkle root of the block and the selected transactions. -/
theorem partialMerkleTree_roundTrip (H : HashFunctions) {vTxid : List Uint256}
    {vMatch : List Bool} (hne : vTxid ≠ []) (hmax : vTxid.length ≤ MAX_BLOCK_SIZE/60)
    (hlen : vMatch.length = vTxid.length) (hdistinct : NeighboursDistinct H vTxid) :
    ∃ t s, Reads CPartialMerkleTree.unserialize
        (CPartialMerkleTree.build H vTxid vMatch).serialize t ∧
      t.extractMatches H = some ((buildMerkleTree H vTxid).1,s) ∧
      s.vMatch = ((vTxid.zip vMatch).filter Prod.snd).map Prod.fst ∧ s.fBad = false := by
  have hpos : 0 < vTxid.length := List.length_pos_iff.mpr hne
  have hsmall : vTxid.length ≤ 16666 := hmax
  have hsize : MAX_SIZE = 33554432 := rfl
  have hroot : 0 < calcTreeWidth vTxid.length (treeHeight vTxid.length) := calcTreeWidth_pos hpos _
  have hheight : treeHeight vTxid.length ≤ 15 := CPartialMerkleTree.treeHeight_le (by omega)
  have hbits := @CPartialMerkleTree.length_bits_lt H vTxid vMatch (treeHeight vTxid.length) 0
  have hpow : 2^(treeHeight vTxid.length+1) ≤ 2^16 := Nat.pow_le_pow_right (by decide) (by omega)
  obtain ⟨hhashes,hle⟩ := @length_traverseAndBuild H vTxid vMatch _ _ hroot
  rw [leavesBelow_root hpos,List.length_range] at hhashes
  obtain ⟨b,hb⟩ : ∃ b, traverseAndBuild H vTxid vMatch (treeHeight vTxid.length) 0 = b := ⟨_,rfl⟩
  rw [hb] at hbits hhashes hle
  have hbuild : CPartialMerkleTree.build H vTxid vMatch = ⟨vTxid.length,b.1,b.2,false⟩ := by
    unfold CPartialMerkleTree.build
    rw [hb]
  rw [hbuild]
  obtain ⟨k,hk⟩ : ∃ k, 8*((b.1.length+7)/8)-b.1.length = k := ⟨_,rfl⟩
  have hread := @CPartialMerkleTree.reads_unserialize ⟨vTxid.length,b.1,b.2,false⟩
    (show vTxid.length < 256^4 by omega) (show b.2.length ≤ MAX_SIZE by omega)
    (show (b.1.length+7)/8 ≤ MAX_SIZE by omega)
  simp only [hk] at hread
  obtain ⟨log,hrun⟩ := @CPartialMerkleTree.traverseAndExtract_build H vTxid vMatch
    ⟨vTxid.length,b.1 ++ List.replicate k false,b.2,false⟩ ⟨0,0,[],false,[]⟩ hdistinct rfl _ _
    hroot (List.replicate k false) [] (by rw [hb]; rfl) (by rw [hb,List.append_nil]; rfl)
  rw [hb] at hrun
  refine ⟨_,⟨0+b.1.length,0+b.2.length,
    [] ++ matchedBelow vTxid vMatch (treeHeight vTxid.length) 0,false,log⟩,hread,?_,?_,rfl⟩
  · unfold CPartialMerkleTree.extractMatches
    simp only [List.length_append,List.length_replicate]
    rw [if_neg (by omega),if_neg (by omega),if_neg (by omega),if_neg (by omega),hrun]
    simp only [Bool.false_eq_true,if_false]
    rw [if_neg (by omega),if_neg (by omega),buildMerkleTree_root hpos]
  · rw [List.nil_append,CPartialMerkleTree.matchedBelow_root hpos hlen]

end RoundTrip

/-- Sums instead of hashes, which are different enough for short lists. -/
def sumHashes : HashFunctions where
  sha256d bytes := BitVec.ofNat 256 (bytes.foldl (fun n b => (n*31+b.toNat)%1000003) 7)
  scrypt _ := 0
  gost3411 _ := 0

theorem neighboursDistinct_three : NeighboursDistinct sumHashes [1,2,3] := by
  intro height pos h
  have hlt : (pos*2+1)*2^height < 3 := lt_calcTreeWidth.mp h
  have hpow := Nat.two_pow_pos height
  have hheight : height < 2 := by
    by_contra hge
    have : 2^2 ≤ 2^height := Nat.pow_le_pow_right (by decide) (by omega)
    nlinarith
  have hpos : pos = 0 := by nlinarith
  subst hpos
  interval_cases height
  · decide +kernel
  · decide +kernel

theorem partialMerkleTree_roundTrip_three : ∃ t s, Reads CPartialMerkleTree.unserialize
      (CPartialMerkleTree.build sumHashes [1,2,3] [false,true,true]).serialize t ∧
    t.extractMatches sumHashes = some ((buildMerkleTree sumHashes [1,2,3]).1,s) ∧
    s.vMatch = (([1,2,3].zip [false,true,true]).filter Prod.snd).map Prod.fst ∧ s.fBad = false :=
  partialMerkleTree_roundTrip sumHashes (by decide) (by decide) rfl neighboursDistinct_three

section Soundness
variable {H : HashFunctions} {vTxid : List Uint256} {t : CPartialMerkleTree}

/-- The right child of a node, which is the left one again where there is none. -/
def rightHash (H : HashFunctions) (vTxid : List Uint256) (height pos : Nat) : Uint256 :=
  if pos*2+1 < calcTreeWidth vTxid.length height then calcHash H vTxid height (pos*2+1)
  else calcHash H vTxid height (pos*2)

/-- No pair that was hashed collides with a different pair of nodes of the tree. -/
def CollisionFree (H : HashFunctions) (hashed : List (Uint256 × Uint256)) (vTxid : List Uint256) :
    Prop :=
  ∀ p ∈ hashed, ∀ height < treeHeight vTxid.length, ∀ pos < calcTreeWidth vTxid.length (height+1),
    H.pair p.1 p.2 = H.pair (calcHash H vTxid height (pos*2)) (rightHash H vTxid height pos) →
    p = (calcHash H vTxid height (pos*2),rightHash H vTxid height pos)

theorem CollisionFree.mono {hashed hashed' : List (Uint256 × Uint256)}
    (h : CollisionFree H hashed' vTxid) (hsub : ∀ p ∈ hashed, p ∈ hashed') :
    CollisionFree H hashed vTxid := fun p hp => h p (hsub p hp)

namespace CPartialMerkleTree

theorem nextBit_isSome (t : CPartialMerkleTree) (s : Extraction) : ∃ b s', t.nextBit s = some (b,s') ∧
    s'.vMatch = s.vMatch ∧ s'.hashed = s.hashed := by
  unfold nextBit
  split
  · exact ⟨_,_,rfl,rfl,rfl⟩
  · rename_i hlt
    rw [List.getElem?_eq_getElem (by omega)]
    exact ⟨_,_,rfl,rfl,rfl⟩

theorem nextHash_isSome (t : CPartialMerkleTree) (matched : Bool) (s : Extraction) :
    ∃ hash s', t.nextHash matched s = some (hash,s') ∧ s'.hashed = s.hashed ∧
      ∀ m ∈ s'.vMatch, m ∈ s.vMatch ∨ (matched = true ∧ m = hash) := by
  unfold nextHash
  split
  · exact ⟨_,_,rfl,rfl,fun m hm => .inl hm⟩
  · rename_i hlt
    rw [List.getElem?_eq_getElem (by omega)]
    refine ⟨_,_,rfl,rfl,fun m hm => ?_⟩
    simp only at hm
    split at hm
    · rename_i hmatched
      rcases List.mem_append.mp hm with hm | hm
      · exact .inl hm
      · exact .inr ⟨hmatched,List.mem_singleton.mp hm⟩
    · exact .inl hm

/-- Where a subtree comes out with the hash of the real node, its matches are leaves of the
real tree. -/
def SoundAt (H : HashFunctions) (vTxid : List Uint256) (height pos : Nat) (s s' : Extraction)
    (hash : Uint256) : Prop :=
  (∀ p ∈ s.hashed, p ∈ s'.hashed) ∧
    (CollisionFree H s'.hashed vTxid → height ≤ treeHeight vTxid.length →
      pos < calcTreeWidth vTxid.length height → hash = calcHash H vTxid height pos → ∀ m ∈ s'.vMatch, m ∈ s.vMatch ∨ m ∈ vTxid)

/-- A node whose two subtrees are sound is sound. -/
theorem SoundAt.combine {height pos : Nat} {s s₁ s₂ : Extraction} {left right : Uint256}
    (hleft : SoundAt H vTxid height (pos*2) s s₁ left)
    (hsub : ∀ p ∈ s₁.hashed, p ∈ s₂.hashed)
    (hright : CollisionFree H s₂.hashed vTxid → height ≤ treeHeight vTxid.length →
      right = rightHash H vTxid height pos → ∀ m ∈ s₂.vMatch, m ∈ s₁.vMatch ∨ m ∈ vTxid)
    (s' : Extraction) (hvMatch : s'.vMatch = s₂.vMatch)
    (hhashed : s'.hashed = s₂.hashed ++ [(left,right)]) :
    SoundAt H vTxid (height+1) pos s s' (H.pair left right) := by
  have hold : ∀ p ∈ s₂.hashed, p ∈ s'.hashed := by
    intro p hp
    rw [hhashed]
    exact List.mem_append_left _ hp
  refine ⟨fun p hp => hold p (hsub p (hleft.1 p hp)),?_⟩
  intro hfree hheight hpos heq m hm
  have hwidth := calcTreeWidth_succ vTxid.length height
  have hpair : (left,right) = (calcHash H vTxid height (pos*2),rightHash H vTxid height pos) := by
    refine hfree (left,right) ?_ height (by omega) pos hpos heq
    rw [hhashed]
    simp
  obtain ⟨rfl,rfl⟩ := Prod.mk.inj hpair
  rw [hvMatch] at hm
  rcases hright (hfree.mono hold) (by omega) rfl m hm with hm₁ | hin
  · exact hleft.2 (hfree.mono fun p hp => hold p (hsub p hp)) (by omega) (by omega) rfl m hm₁
  · exact .inr hin

theorem traverseAndExtract_sound (hn : t.nTransactions = vTxid.length) (height pos : Nat)
    (s : Extraction) : ∃ hash s', traverseAndExtract H t height pos s = some (hash,s') ∧
      SoundAt H vTxid height pos s s' hash := by
  obtain ⟨bit,s₀,hbit,hmatch₀,hhashed₀⟩ := t.nextBit_isSome s
  induction height generalizing pos s bit s₀ with
  | zero =>
    unfold traverseAndExtract
    rw [hbit]
    cases bit with
    | none => exact ⟨0,s₀,rfl,fun p hp => hhashed₀ ▸ hp,fun _ _ _ _ m hm => .inl (hmatch₀ ▸ hm)⟩
    | some f =>
      obtain ⟨hash,s',hrun,hhashed,hvMatch⟩ := t.nextHash_isSome f s₀
      refine ⟨hash,s',hrun,fun p hp => by rw [hhashed,hhashed₀]; exact hp,?_⟩
      intro _ _ hpos heq m hm
      rcases hvMatch m hm with hm | ⟨-,rfl⟩
      · exact .inl (hmatch₀ ▸ hm)
      · rw [calcTreeWidth_zero] at hpos
        refine .inr ?_
        rw [heq]
        unfold calcHash
        rw [List.getD_eq_getElem _ _ hpos]
        exact List.getElem_mem hpos
  | succ height ih =>
    unfold traverseAndExtract
    rw [hbit]
    rcases bit with _ | _ | _
    · exact ⟨0,s₀,rfl,fun p hp => hhashed₀ ▸ hp,fun _ _ _ _ m hm => .inl (hmatch₀ ▸ hm)⟩
    · obtain ⟨hash,s',hrun,hhashed,hvMatch⟩ := t.nextHash_isSome false s₀
      refine ⟨hash,s',hrun,fun p hp => by rw [hhashed,hhashed₀]; exact hp,?_⟩
      intro _ _ _ _ m hm
      rcases hvMatch m hm with hm | ⟨hfalse,-⟩
      · exact .inl (hmatch₀ ▸ hm)
      · contradiction
    · obtain ⟨bit₁,s₁',hbit₁,hmatch₁,hhashed₁⟩ := t.nextBit_isSome s₀
      obtain ⟨left,s₁,hrunLeft,hleft⟩ := ih (pos*2) s₀ bit₁ s₁' hbit₁ hmatch₁ hhashed₁
      have hleft : SoundAt H vTxid height (pos*2) s s₁ left := by
        unfold SoundAt at hleft ⊢
        rw [hhashed₀,hmatch₀] at hleft
        exact hleft
      simp only [hrunLeft,hn]
      split
      · rename_i hr
        obtain ⟨bit₂,s₂',hbit₂,hmatch₂,hhashed₂⟩ := t.nextBit_isSome s₁
        obtain ⟨right,s₂,hrunRight,hright⟩ := ih (pos*2+1) s₁ bit₂ s₂' hbit₂ hmatch₂ hhashed₂
        rw [hrunRight]
        refine ⟨_,_,rfl,hleft.combine hright.1 ?_ _ ?_ ?_⟩
        · intro hfree hheight heq
          unfold rightHash at heq
          rw [if_pos hr] at heq
          exact hright.2 hfree hheight hr heq
        · split <;> rfl
        · split <;> rfl
      · refine ⟨_,_,rfl,hleft.combine (fun p hp => hp) ?_ _ rfl rfl⟩
        exact fun _ _ _ m hm => .inl hm

theorem extractMatches_isSome (H : HashFunctions) (t : CPartialMerkleTree) :
    ∃ root s, t.extractMatches H = some (root,s) := by
  unfold extractMatches
  simp only
  split_ifs
  · exact ⟨_,_,rfl⟩
  · exact ⟨_,_,rfl⟩
  · exact ⟨_,_,rfl⟩
  · exact ⟨_,_,rfl⟩
  · obtain ⟨hash,s',hrun,-⟩ := @traverseAndExtract_sound H (List.replicate t.nTransactions 0) t
      (by simp) (treeHeight t.nTransactions) 0 ⟨0,0,[],t.fBad,[]⟩
    rw [hrun]
    simp only
    split_ifs
    · exact ⟨_,_,rfl⟩
    · exact ⟨_,_,rfl⟩
    · exact ⟨_,_,rfl⟩
    · exact ⟨_,_,rfl⟩

/-- A root other than zero comes from the traversal. -/
theorem extractMatches_root {root : Uint256} {s : Extraction}
    (h : t.extractMatches H = some (root,s)) (hroot : root ≠ 0) :
    0 < t.nTransactions ∧ traverseAndExtract H t (treeHeight t.nTransactions) 0
      ⟨0,0,[],t.fBad,[]⟩ = some (root,s) := by
  have hzero : ∀ s' : Extraction, some (0,s') = some (root,s) → False := by
    intro s' heq
    exact hroot (Prod.mk.inj (Option.some.inj heq)).1.symm
  unfold extractMatches at h
  simp only at h
  split_ifs at h with h₁ h₂ h₃ h₄
  · exact (hzero _ h).elim
  · exact (hzero _ h).elim
  · exact (hzero _ h).elim
  · exact (hzero _ h).elim
  · refine ⟨by omega,?_⟩
    split at h
    · contradiction
    · rename_i hash s' hrun
      split_ifs at h
      · exact (hzero _ h).elim
      · exact (hzero _ h).elim
      · exact (hzero _ h).elim
      · rw [hrun]
        exact h

end CPartialMerkleTree

/-- Whatever was received, the extraction returns, with every access in range. Where it
gives the merkle root of a block with as many transactions, what it found are transactions
of the block. -/
theorem extractMatches_sound (H : HashFunctions) (t : CPartialMerkleTree) :
    ∃ root s, t.extractMatches H = some (root,s) ∧ ∀ vtx : List CTransaction,
      t.nTransactions = vtx.length → (buildMerkleTree H (vtx.map (·.getHash H))).1 ≠ 0 →
      root = (buildMerkleTree H (vtx.map (·.getHash H))).1 →
      CollisionFree H s.hashed (vtx.map (·.getHash H)) →
      ∀ txid ∈ s.vMatch, ∃ tx ∈ vtx, tx.getHash H = txid := by
  obtain ⟨root,s,hrun⟩ := CPartialMerkleTree.extractMatches_isSome H t
  refine ⟨root,s,hrun,?_⟩
  intro vtx hn hnonzero hroot hfree txid hmem
  have hn' : t.nTransactions = (vtx.map (·.getHash H)).length := by rw [hn,List.length_map]
  obtain ⟨hpos,htrav⟩ := CPartialMerkleTree.extractMatches_root hrun (hroot ▸ hnonzero)
  obtain ⟨hash,s',htrav',hsound⟩ := CPartialMerkleTree.traverseAndExtract_sound (H := H) hn'
    (treeHeight t.nTransactions) 0 ⟨0,0,[],t.fBad,[]⟩
  rw [htrav] at htrav'
  obtain ⟨rfl,rfl⟩ := Prod.mk.inj (Option.some.inj htrav')
  have hin : txid ∈ vtx.map (·.getHash H) := by
    rcases hsound.2 hfree (by rw [← hn']) (by rw [← hn']; exact calcTreeWidth_pos hpos _)
      (by rw [hroot,buildMerkleTree_root (by omega),← hn']) txid hmem with hnil | hin
    · exact absurd hnil List.not_mem_nil
    · exact hin
  obtain ⟨tx,htx,heq⟩ := List.mem_map.mp hin
  exact ⟨tx,htx,heq⟩

end Soundness

def twoTransactions : List CTransaction := [⟨1,[],[],1⟩,⟨1,[],[],2⟩]

/-- A proof for the first transaction of a block of two. -/
theorem extractMatches_sound_two :
    ∃ root s, (CPartialMerkleTree.build sumHashes (twoTransactions.map (·.getHash sumHashes))
        [true,false]).extractMatches sumHashes = some (root,s) ∧ s.vMatch ≠ [] ∧
      ∀ txid ∈ s.vMatch, ∃ tx ∈ twoTransactions, tx.getHash sumHashes = txid := by
  obtain ⟨root,s,hrun,hsound⟩ := extractMatches_sound sumHashes
    (CPartialMerkleTree.build sumHashes (twoTransactions.map (·.getHash sumHashes)) [true,false])
  have heval : (CPartialMerkleTree.build sumHashes (twoTransactions.map (·.getHash sumHashes))
      [true,false]).extractMatches sumHashes =
    some (202573,⟨3,2,[595052],false,[(595052,624843)]⟩) := by decide +kernel
  refine ⟨root,s,hrun,?_,?_⟩
  · rw [heval] at hrun
    obtain ⟨rfl,rfl⟩ := Prod.mk.inj (Option.some.inj hrun)
    decide
  · rw [heval] at hrun
    obtain ⟨rfl,rfl⟩ := Prod.mk.inj (Option.some.inj hrun)
    refine hsound twoTransactions rfl (by decide +kernel) (by decide +kernel) ?_
    intro p hp height hheight pos hpos _
    have hone : treeHeight (twoTransactions.map (·.getHash sumHashes)).length = 1 := by
      decide +kernel
    obtain rfl : height = 0 := by omega
    obtain rfl : pos = 0 := Nat.lt_one_iff.mp hpos
    rw [List.mem_singleton.mp hp]
    decide +kernel

end Anoncoin
