import Anoncoin.Lib.PairTree
import Anoncoin.PartialMerkleTree

/-!
The flag for a mutated list that `BuildMerkleTree` reports (block.cpp): the vector of the tree
holds the levels one after the other, and the flag is set when a level ends with two equal hashes
that are paired.
-/

set_option autoImplicit false

namespace Anoncoin
open Lib

section Levels
variable {H : HashFunctions} {tree level : List Uint256}

/-- The inner loop pairs up the level. -/
theorem pushLevel_pairUp (tree level : List Uint256) :
    pushLevel H tree.length level.length (tree ++ level) =
      tree ++ (level ++ pairUp H.pair level) := by
  unfold pairUp
  rw [pushLevel_map,couples_eq_map level 0,List.map_map]
  rfl

theorem levelMutated_eq (tree level : List Uint256) :
    levelMutated tree.length level.length (tree ++ level) = endsTwice level := by
  rw [Bool.eq_iff_iff,endsTwice_iff level 0]
  have hget : ∀ i, i < level.length → (tree ++ level).getD (tree.length+i) 0 = level.getD i 0 := by
    intro i hi
    have h : (tree ++ (level ++ [])).getD (tree.length+i) 0 = level.getD i 0 := getD_tree hi
    rwa [List.append_nil] at h
  unfold levelMutated
  rw [List.any_eq_true]
  constructor
  · rintro ⟨k,-,hk⟩
    simp only [Bool.and_eq_true,beq_iff_eq] at hk
    obtain ⟨⟨-,hend⟩,heq⟩ := hk
    rw [hget _ (by omega),hget _ (by omega)] at heq
    exact ⟨k,hend,heq⟩
  · rintro ⟨k,hend,heq⟩
    refine ⟨k,List.mem_range.mpr (by omega),?_⟩
    simp only [Bool.and_eq_true,beq_iff_eq]
    rw [hget _ (by omega),hget _ (by omega)]
    exact ⟨⟨by omega,hend⟩,heq⟩

/-- The loop puts the levels of the tree behind what is there. -/
theorem buildLevels_eq (tree : List Uint256) (mutated : Bool) (level : List Uint256) :
    buildLevels H tree.length level.length (tree ++ level) mutated =
      (tree ++ (levels H.pair level).flatten,mutated || treeMutated H.pair level) := by
  induction level using induction_levels H.pair generalizing tree mutated with
  | top level h =>
    unfold buildLevels
    rw [if_neg h,levels_top h,treeMutated_top h]
    simp
  | step level h ih =>
    have hrest := ih (tree ++ level) (mutated || endsTwice level)
    rw [List.length_append,List.append_assoc,length_pairUp] at hrest
    unfold buildLevels
    rw [if_pos h,pushLevel_pairUp tree level,levelMutated_eq,hrest,levels_step h,
      treeMutated_step h,List.flatten_cons,List.append_assoc,Bool.or_assoc]

/-- The tree ends with its top. -/
theorem getLastD_flatten_levels (pair : Uint256 → Uint256 → Uint256) (h : level ≠ []) :
    (levels pair level).flatten.getLastD 0 = (topLevel pair level).getLastD 0 := by
  induction level using induction_levels pair with
  | top level hshort => rw [levels_top hshort,topLevel_top hshort]; simp
  | step level hlong ih =>
    have hne : pairUp pair level ≠ [] := List.length_pos_iff.mp (by
      rw [length_pairUp]
      omega)
    have hflat : (levels pair (pairUp pair level)).flatten ≠ [] := by
      intro hnil
      have hself := List.flatten_eq_nil_iff.mp hnil _ (mem_levels_self pair (pairUp pair level))
      exact hne hself
    rw [levels_step hlong,topLevel_step hlong,List.flatten_cons,← ih hne,
      List.getLastD_eq_getLast?,List.getLastD_eq_getLast?,List.getLast?_append]
    obtain ⟨last,hlast⟩ := Option.isSome_iff_exists.mp (List.getLast?_isSome.mpr hflat)
    rw [hlast]
    rfl

/-- `BuildMerkleTree` gives the top of the tree and whether the tree is mutated. -/
theorem buildMerkleTree_eq {vTxid : List Uint256} (h : vTxid ≠ []) :
    buildMerkleTree H vTxid =
      ((topLevel H.pair vTxid).getLastD 0,treeMutated H.pair vTxid) := by
  have hlevels := buildLevels_eq (H := H) [] false vTxid
  rw [List.nil_append,List.nil_append,List.length_nil,Bool.false_or] at hlevels
  unfold buildMerkleTree
  rw [hlevels,← getLastD_flatten_levels H.pair h]

end Levels

/-- The integers are those of the types of a transaction, and the vectors have sizes that are
counted in 64 bits. -/
structure CTxIn.Typed (i : CTxIn) : Prop where
  n : i.prevout.n < 256^4
  script : i.scriptSig.length < 256^8
  sequence : i.nSequence < 256^4

structure CTxOut.Typed (o : CTxOut) : Prop where
  value : FitsInt 8 o.nValue
  script : o.scriptPubKey.length < 256^8

structure CTransaction.Typed (tx : CTransaction) : Prop where
  version : FitsInt 4 tx.nVersion
  inputs : tx.vin.length < 256^8
  vin : ∀ i ∈ tx.vin, i.Typed
  outputs : tx.vout.length < 256^8
  vout : ∀ o ∈ tx.vout, o.Typed
  lockTime : tx.nLockTime < 256^4

/-- What is written in front of other bytes tells the value, and where it ends. -/
def SelfDelimiting {α : Type} (write : α → List UInt8) (P : α → Prop) : Prop :=
  ∀ a b r r', P a → P b → write a ++ r = write b ++ r' → a = b ∧ r = r'

section Writing
variable {α : Type} {write : α → List UInt8} {P : α → Prop}

theorem selfDelimiting_of_reads {r : Reader ReadFailure α} (h : ∀ a, P a → Reads r (write a) a) :
    SelfDelimiting write P := by
  intro a b rest rest' ha hb heq
  obtain ⟨s,hs,hrest⟩ := h a ha ⟨write a ++ rest,0,0⟩ rest rfl
  obtain ⟨s',hs',hrest'⟩ := h b hb ⟨write a ++ rest,0,0⟩ rest' heq
  obtain ⟨rfl,rfl⟩ := EStateM.Result.ok.inj (hs.symm.trans hs')
  exact ⟨rfl,hrest.symm.trans hrest'⟩

theorem selfDelimiting_littleEndian (n : Nat) :
    SelfDelimiting (littleEndian n) fun x => x < 256^n :=
  selfDelimiting_of_reads fun _ => reads_readUint

theorem selfDelimiting_writeInt (n : Nat) : SelfDelimiting (writeInt n) (FitsInt n) :=
  selfDelimiting_of_reads fun _ => reads_readInt

/-- The first byte tells which of the four forms a size has. -/
theorem selfDelimiting_writeCompactSize :
    SelfDelimiting writeCompactSize fun n => n < 256^8 := by
  intro n m r r' hn hm heq
  have hsmall : ∀ {k : Nat} {b : UInt8} {x y : List UInt8}, k < 253 → 253 ≤ b →
      littleEndian 1 k ++ x ≠ b :: y := by
    intro k b x y hk hb heq
    have hfirst : UInt8.ofNat k = b := (List.cons.inj heq).1
    have hnat := UInt8.le_iff_toNat_le.mp hb
    rw [← hfirst,UInt8.toNat_ofNat_of_lt' (show k < UInt8.size by unfold UInt8.size; omega)] at hnat
    exact absurd hnat (by simpa using hk)
  unfold writeCompactSize at heq
  split_ifs at heq
  · exact selfDelimiting_littleEndian 1 n m r r' (by omega) (by omega) heq
  · exact absurd heq (hsmall (by omega) (by decide))
  · exact absurd heq (hsmall (by omega) (by decide))
  · exact absurd heq (hsmall (by omega) (by decide))
  · exact absurd heq.symm (hsmall (by omega) (by decide))
  · exact selfDelimiting_littleEndian 2 n m r r' (by omega) (by omega) (List.cons.inj heq).2
  · exact absurd (List.cons.inj heq).1 (by decide)
  · exact absurd (List.cons.inj heq).1 (by decide)
  · exact absurd heq.symm (hsmall (by omega) (by decide))
  · exact absurd (List.cons.inj heq).1 (by decide)
  · exact selfDelimiting_littleEndian 4 n m r r' (by omega) (by omega) (List.cons.inj heq).2
  · exact absurd (List.cons.inj heq).1 (by decide)
  · exact absurd heq.symm (hsmall (by omega) (by decide))
  · exact absurd (List.cons.inj heq).1 (by decide)
  · exact absurd (List.cons.inj heq).1 (by decide)
  · exact selfDelimiting_littleEndian 8 n m r r' hn hm (List.cons.inj heq).2

theorem selfDelimiting_serializeBytes :
    SelfDelimiting serializeBytes fun v => v.length < 256^8 := by
  intro v w r r' hv hw heq
  unfold serializeBytes at heq
  rw [List.append_assoc,List.append_assoc] at heq
  obtain ⟨hlength,heq⟩ := selfDelimiting_writeCompactSize _ _ _ _ hv hw heq
  exact List.append_inj heq hlength

theorem selfDelimiting_serializeVector (h : SelfDelimiting write P) :
    SelfDelimiting (serializeVector write) fun v => v.length < 256^8 ∧ ∀ a ∈ v, P a := by
  have helements : ∀ (v w : List α) (r r' : List UInt8), v.length = w.length → (∀ a ∈ v, P a) →
      (∀ a ∈ w, P a) → v.flatMap write ++ r = w.flatMap write ++ r' → v = w ∧ r = r' := by
    intro v
    induction v with
    | nil =>
      intro w r r' hlength _ _ heq
      obtain rfl := List.length_eq_zero_iff.mp hlength.symm
      exact ⟨rfl,heq⟩
    | cons a v ih =>
      intro w r r' hlength hv hw heq
      cases w with
      | nil => simp at hlength
      | cons b w =>
        rw [List.flatMap_cons,List.flatMap_cons,List.append_assoc,List.append_assoc] at heq
        obtain ⟨rfl,hbehind⟩ := h a b _ _ (hv a List.mem_cons_self) (hw b List.mem_cons_self) heq
        obtain ⟨rfl,hrest⟩ := ih w r r' (by simpa using hlength)
          (fun c hc => hv c (List.mem_cons_of_mem _ hc))
          (fun c hc => hw c (List.mem_cons_of_mem _ hc)) hbehind
        exact ⟨rfl,hrest⟩
  intro v w r r' hv hw heq
  unfold serializeVector at heq
  rw [List.append_assoc,List.append_assoc] at heq
  obtain ⟨hlength,heq⟩ := selfDelimiting_writeCompactSize _ _ _ _ hv.1 hw.1 heq
  exact helements v w r r' hlength hv.2 hw.2 heq

theorem selfDelimiting_txIn : SelfDelimiting CTxIn.serialize CTxIn.Typed := by
  rintro ⟨⟨hash,n⟩,scriptSig,nSequence⟩ ⟨⟨hash',n'⟩,scriptSig',nSequence'⟩ r r' hi hj heq
  have hlt : ∀ x : Uint256, x.toNat < 256^32 := fun x => lt_of_lt_of_eq x.isLt (by decide)
  simp only [CTxIn.serialize,COutPoint.serialize,List.append_assoc] at heq
  obtain ⟨hhash,heq₁⟩ := selfDelimiting_littleEndian 32 _ _ _ _ (hlt hash) (hlt hash') heq
  obtain ⟨rfl,heq₂⟩ := selfDelimiting_littleEndian 4 _ _ _ _ hi.n hj.n heq₁
  obtain ⟨rfl,heq₃⟩ := selfDelimiting_serializeBytes _ _ _ _ hi.script hj.script heq₂
  obtain ⟨rfl,hrest⟩ := selfDelimiting_littleEndian 4 _ _ _ _ hi.sequence hj.sequence heq₃
  rw [BitVec.eq_of_toNat_eq hhash]
  exact ⟨rfl,hrest⟩

theorem selfDelimiting_txOut : SelfDelimiting CTxOut.serialize CTxOut.Typed := by
  rintro ⟨nValue,scriptPubKey⟩ ⟨nValue',scriptPubKey'⟩ r r' hi hj heq
  simp only [CTxOut.serialize,List.append_assoc] at heq
  obtain ⟨rfl,heq₁⟩ := selfDelimiting_writeInt 8 _ _ _ _ hi.value hj.value heq
  obtain ⟨rfl,hrest⟩ := selfDelimiting_serializeBytes _ _ _ _ hi.script hj.script heq₁
  exact ⟨rfl,hrest⟩

theorem selfDelimiting_transaction :
    SelfDelimiting CTransaction.serialize CTransaction.Typed := by
  rintro ⟨nVersion,vin,vout,nLockTime⟩ ⟨nVersion',vin',vout',nLockTime'⟩ r r' ht ht' heq
  simp only [CTransaction.serialize,List.append_assoc] at heq
  obtain ⟨rfl,heq₁⟩ := selfDelimiting_writeInt 4 _ _ _ _ ht.version ht'.version heq
  obtain ⟨rfl,heq₂⟩ := selfDelimiting_serializeVector selfDelimiting_txIn _ _ _ _
    ⟨ht.inputs,ht.vin⟩ ⟨ht'.inputs,ht'.vin⟩ heq₁
  obtain ⟨rfl,heq₃⟩ := selfDelimiting_serializeVector selfDelimiting_txOut _ _ _ _
    ⟨ht.outputs,ht.vout⟩ ⟨ht'.outputs,ht'.vout⟩ heq₂
  obtain ⟨rfl,hrest⟩ := selfDelimiting_littleEndian 4 _ _ _ _ ht.lockTime ht'.lockTime heq₃
  exact ⟨rfl,hrest⟩

end Writing

/-- The hashes of the transactions, from which the tree is built. -/
def txHashes (H : HashFunctions) (vtx : List CTransaction) : List Uint256 :=
  vtx.map (CTransaction.getHash H)

/-- The bytes that are hashed when the tree of the transactions is built. -/
def hashedBytes (H : HashFunctions) (vtx : List CTransaction) : List (List UInt8) :=
  vtx.map CTransaction.serialize ++ (hashedPairs H.pair (txHashes H vtx)).map fun c =>
    littleEndian 32 c.1.toNat ++ littleEndian 32 c.2.toNat

/-- No two of the byte strings that are hashed for the two lists collide. -/
def NoCollision (H : HashFunctions) (vtx vtx' : List CTransaction) : Prop :=
  ∀ x ∈ hashedBytes H vtx, ∀ y ∈ hashedBytes H vtx', H.sha256d x = H.sha256d y → x = y

-- The bounded quantifiers are decided over the lists: a search over all hashes is hopeless.
instance (H : HashFunctions) (vtx vtx' : List CTransaction) : Decidable (NoCollision H vtx vtx') :=
  @List.decidableBAll _ _ (fun _ => List.decidableBAll _ _) (hashedBytes H vtx)

/-- No transaction of the first list has the hash of an inner node of the tree over the second. -/
def NoInnerHash (H : HashFunctions) (vtx vtx' : List CTransaction) : Prop :=
  ∀ tx ∈ vtx, ∀ c ∈ hashedPairs H.pair (txHashes H vtx'), tx.getHash H ≠ H.pair c.1 c.2

instance (H : HashFunctions) (vtx vtx' : List CTransaction) :
    Decidable (NoInnerHash H vtx vtx') :=
  @List.decidableBAll _ _ (fun _ => List.decidableBAll _ _) vtx

section Mutation
variable {H : HashFunctions} {vtx vtx' : List CTransaction}

theorem pair_bytes_inj {c d : Uint256 × Uint256}
    (h : littleEndian 32 c.1.toNat ++ littleEndian 32 c.2.toNat =
      littleEndian 32 d.1.toNat ++ littleEndian 32 d.2.toNat) : c = d := by
  have hlt : ∀ x : Uint256, x.toNat < 256^32 := fun x => lt_of_lt_of_eq x.isLt (by decide)
  obtain ⟨hleft,hright⟩ := selfDelimiting_littleEndian 32 _ _ _ _ (hlt c.1) (hlt d.1) h
  rw [← List.append_nil (littleEndian 32 c.2.toNat),← List.append_nil (littleEndian 32 d.2.toNat)]
    at hright
  obtain ⟨hright,-⟩ := selfDelimiting_littleEndian 32 _ _ _ _ (hlt c.2) (hlt d.2) hright
  exact Prod.ext (BitVec.eq_of_toNat_eq hleft) (BitVec.eq_of_toNat_eq hright)

theorem NoCollision.injective (h : NoCollision H vtx vtx') :
    PairsInjective H.pair (hashedPairs H.pair (txHashes H vtx))
      (hashedPairs H.pair (txHashes H vtx')) := by
  intro c hc d hd heq
  exact pair_bytes_inj (h _ (List.mem_append_right _ (List.mem_map_of_mem hc)) _
    (List.mem_append_right _ (List.mem_map_of_mem hd)) heq)

theorem NoCollision.txHashes_ne (h : NoCollision H vtx vtx') (hne : vtx ≠ vtx')
    (htyped : ∀ tx ∈ vtx, tx.Typed) (htyped' : ∀ tx ∈ vtx', tx.Typed) :
    txHashes H vtx ≠ txHashes H vtx' := by
  intro heq
  refine hne (List.ext_getElem ?_ fun i hi hi' => ?_)
  · simpa [txHashes] using congrArg List.length heq
  · have hget := congrArg (fun l => l[i]?) heq
    simp only [txHashes,List.getElem?_map,List.getElem?_eq_getElem hi,
      List.getElem?_eq_getElem hi',Option.map_some,Option.some.injEq] at hget
    have hbytes := h _ (List.mem_append_left _ (List.mem_map_of_mem (List.getElem_mem hi))) _
      (List.mem_append_left _ (List.mem_map_of_mem (List.getElem_mem hi'))) hget
    exact (selfDelimiting_transaction _ _ [] [] (htyped _ (List.getElem_mem hi))
      (htyped' _ (List.getElem_mem hi')) (congrArg (· ++ []) hbytes)).1

/-- Two different lists of transactions with the same root: one of them is reported as mutated. -/
theorem buildMerkleTree_mutated (hvtx : vtx ≠ []) (hvtx' : vtx' ≠ []) (hne : vtx ≠ vtx')
    (htyped : ∀ tx ∈ vtx, tx.Typed) (htyped' : ∀ tx ∈ vtx', tx.Typed)
    (hfree : NoCollision H vtx vtx') (hinner : NoInnerHash H vtx vtx')
    (hinner' : NoInnerHash H vtx' vtx)
    (hroot : (buildMerkleTree H (txHashes H vtx)).1 = (buildMerkleTree H (txHashes H vtx')).1) :
    (buildMerkleTree H (txHashes H vtx)).2 = true ∨
      (buildMerkleTree H (txHashes H vtx')).2 = true := by
  have hnil : txHashes H vtx ≠ [] := fun h => hvtx (List.map_eq_nil_iff.mp h)
  have hnil' : txHashes H vtx' ≠ [] := fun h => hvtx' (List.map_eq_nil_iff.mp h)
  rw [buildMerkleTree_eq hnil,buildMerkleTree_eq hnil'] at hroot ⊢
  obtain ⟨root,htop⟩ := List.length_eq_one_iff.mp (length_topLevel H.pair hnil)
  obtain ⟨root',htop'⟩ := List.length_eq_one_iff.mp (length_topLevel H.pair hnil')
  rw [htop,htop'] at hroot
  have hleaf : ∀ {v w : List CTransaction}, NoInnerHash H v w → ∀ x ∈ txHashes H v,
      ∀ c ∈ hashedPairs H.pair (txHashes H w), x ≠ H.pair c.1 c.2 := by
    intro v w h x hx
    obtain ⟨tx,htx,rfl⟩ := List.mem_map.mp hx
    exact h tx htx
  refine treeMutated_of_topLevel_eq (hfree.txHashes_ne hne htyped htyped') hnil hnil'
    hfree.injective (hleaf hinner) (hleaf hinner') ?_
  rw [htop,htop',show root = root' from hroot]

end Mutation

theorem typed_plain {n : Nat} (h : n < 256^4) : CTransaction.Typed ⟨1,[],[],n⟩ where
  version := show -256^4 ≤ (1 : Int)*2 ∧ (1 : Int)*2 < 256^4 by decide
  inputs := Nat.pow_pos (by decide)
  vin := by simp
  outputs := Nat.pow_pos (by decide)
  vout := by simp
  lockTime := h

def threeTransactions : List CTransaction := [⟨1,[],[],1⟩,⟨1,[],[],2⟩,⟨1,[],[],3⟩]

/-- Three transactions, and the same with the last one repeated. -/
theorem buildMerkleTree_mutated_three :
    (buildMerkleTree sumHashes (txHashes sumHashes threeTransactions)).2 = true ∨
      (buildMerkleTree sumHashes
        (txHashes sumHashes (threeTransactions ++ [⟨1,[],[],3⟩]))).2 = true := by
  have htyped : ∀ tx ∈ threeTransactions ++ [⟨1,[],[],3⟩], tx.Typed := by
    simp only [threeTransactions,List.cons_append,List.nil_append,List.forall_mem_cons,
      List.not_mem_nil,false_imp_iff,implies_true,and_true]
    exact ⟨typed_plain (by decide),typed_plain (by decide),typed_plain (by decide),
      typed_plain (by decide)⟩
  refine buildMerkleTree_mutated (by decide) (by decide) (by decide)
    (fun tx htx => htyped tx (List.mem_append_left _ htx)) htyped
    (by decide +kernel) (by decide +kernel) (by decide +kernel) (by decide +kernel)

end Anoncoin
