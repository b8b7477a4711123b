import Mathlib.Tactic.Positivity
import Anoncoin.Block
import Anoncoin.Lib.Wire

/-!
Serialization of integers, vectors and transactions (serialize.h, transaction.h).
-/

set_option autoImplicit false

namespace Anoncoin
open Lib

def MAX_SIZE : Nat := 0x02000000

/-- The exceptions of the readers: the end of the data, a `CompactSize` that has a shorter
form, and one above `MAX_SIZE`. -/
inductive ReadFailure where
  | endOfData
  | nonCanonical
  | sizeTooLarge
  deriving DecidableEq, Repr

/-- `READDATA` of an unsigned integer of `n` bytes. -/
def readUint (n : Nat) : Reader ReadFailure Nat := do
  let bytes ← take .endOfData n
  pure (fromLittleEndian bytes)

/-- The bytes of a signed integer. -/
def writeInt (n : Nat) (x : Int) : List UInt8 := littleEndian n (x%256^n).toNat

def readInt (n : Nat) : Reader ReadFailure Int := do
  let x ← readUint n
  pure ((x : Int).bmod (256^n))

def writeCompactSize (nSize : Nat) : List UInt8 :=
  if nSize < 253 then littleEndian 1 nSize
  else if nSize ≤ 0xffff then 253 :: littleEndian 2 nSize
  else if nSize ≤ 0xffffffff then 254 :: littleEndian 4 nSize
  else 255 :: littleEndian 8 nSize

/-- The integer of `n` bytes after a marker; below `least` it has a shorter form. -/
def readMarked (n least : Nat) : Reader ReadFailure Nat := do
  let xSize ← readUint n
  if xSize < least then throw .nonCanonical else pure xSize

/-- What follows the first byte. -/
def readSizeAfter (chSize : Nat) : Reader ReadFailure Nat :=
  if chSize < 253 then pure chSize
  else if chSize = 253 then readMarked 2 253
  else if chSize = 254 then readMarked 4 0x10000
  else readMarked 8 0x100000000

def readCompactSize : Reader ReadFailure Nat := do
  let chSize ← readUint 1
  let nSizeRet ← readSizeAfter chSize
  if MAX_SIZE < nSizeRet then throw .sizeTooLarge else pure nSizeRet

/-- A vector of bytes. -/
def serializeBytes (v : List UInt8) : List UInt8 := writeCompactSize v.length ++ v

/-- The loop of `Unserialize_impl` for bytes, which resizes the vector before each read. -/
def readBlocks (nSize i : Nat) : Reader ReadFailure (List UInt8) :=
  if i < nSize then do
    countRound
    let blk := min (nSize-i) (1+4999999/1)
    reserve blk
    let block ← take .endOfData blk
    let rest ← readBlocks nSize (i+blk)
    pure (block ++ rest)
  else pure []
  termination_by nSize-i
  decreasing_by omega

def unserializeBytes : Reader ReadFailure (List UInt8) := do
  let nSize ← readCompactSize
  readBlocks nSize 0

section Vector
variable {α : Type}

/-- A vector of other elements. -/
def serializeVector (write : α → List UInt8) (v : List α) : List UInt8 :=
  writeCompactSize v.length ++ v.flatMap write

/-- The loop of `Unserialize_impl` for other elements, which resizes the vector by a chunk
and then reads the elements of the chunk. -/
def readChunks (sizeofT : Nat) (hsize : 0 < 5000000/sizeofT) (elem : Reader ReadFailure α)
    (nSize nMid : Nat) : Reader ReadFailure (List α) :=
  if nMid < nSize then do
    countRound
    let nNext := min (nMid+5000000/sizeofT) nSize
    reserve ((nNext-nMid)*sizeofT)
    let chunk ← readMany elem (nNext-nMid)
    let rest ← readChunks sizeofT hsize elem nSize nNext
    pure (chunk ++ rest)
  else pure []
  termination_by nSize-nMid
  decreasing_by omega

def unserializeVector (sizeofT : Nat) (hsize : 0 < 5000000/sizeofT)
    (elem : Reader ReadFailure α) : Reader ReadFailure (List α) := do
  let nSize ← readCompactSize
  readChunks sizeofT hsize elem nSize 0

end Vector

/-- The elements of 32 bytes, outputs and hashes, come in chunks of 156250. -/
theorem chunk_pos_of_32 : 0 < 5000000/32 := by decide

def COutPoint.serialize (o : COutPoint) : List UInt8 :=
  littleEndian 32 o.hash.toNat ++ littleEndian 4 o.n

def COutPoint.unserialize : Reader ReadFailure COutPoint := do
  let hash ← readUint 32
  let n ← readUint 4
  pure ⟨BitVec.ofNat 256 hash,n⟩

def CTxIn.serialize (i : CTxIn) : List UInt8 :=
  i.prevout.serialize ++ (serializeBytes i.scriptSig ++ littleEndian 4 i.nSequence)

def CTxIn.unserialize : Reader ReadFailure CTxIn := do
  let prevout ← COutPoint.unserialize
  let scriptSig ← unserializeBytes
  let nSequence ← readUint 4
  pure ⟨prevout,scriptSig,nSequence⟩

def CTxOut.serialize (o : CTxOut) : List UInt8 := writeInt 8 o.nValue ++ serializeBytes o.scriptPubKey

def CTxOut.unserialize : Reader ReadFailure CTxOut := do
  let nValue ← readInt 8
  let scriptPubKey ← unserializeBytes
  pure ⟨nValue,scriptPubKey⟩

def CTransaction.serialize (tx : CTransaction) : List UInt8 :=
  writeInt 4 tx.nVersion ++ (serializeVector CTxIn.serialize tx.vin ++
    (serializeVector CTxOut.serialize tx.vout ++ littleEndian 4 tx.nLockTime))

/-- An input takes 72 bytes of memory and an output 32, each with the three pointers of
its script. -/
def CTransaction.unserialize : Reader ReadFailure CTransaction := do
  let nVersion ← readInt 4
  let vin ← unserializeVector 72 (by decide) CTxIn.unserialize
  let vout ← unserializeVector 32 chunk_pos_of_32 CTxOut.unserialize
  let nLockTime ← readUint 4
  pure ⟨nVersion,vin,vout,nLockTime⟩

section Integers

theorem fromLittleEndian_lt (bytes : List UInt8) : fromLittleEndian bytes < 256^bytes.length := by
  induction bytes with
  | nil => decide
  | cons b rest ih =>
    have hb := b.toNat_lt
    rw [fromLittleEndian,List.length_cons,pow_succ]
    omega

theorem littleEndian_fromLittleEndian (bytes : List UInt8) :
    littleEndian bytes.length (fromLittleEndian bytes) = bytes := by
  induction bytes with
  | nil => rfl
  | cons b rest ih =>
    have hb := b.toNat_lt
    have hdiv : (b.toNat+256*fromLittleEndian rest)/256 = fromLittleEndian rest := by omega
    have hbyte : UInt8.ofNat (b.toNat+256*fromLittleEndian rest) = b := by
      apply UInt8.toNat_inj.mp
      rw [UInt8.toNat_ofNat']
      omega
    rw [fromLittleEndian,List.length_cons,littleEndian,hdiv,ih,hbyte]

theorem reads_readUint {n x : Nat} (h : x < 256^n) : Reads (readUint n) (littleEndian n x) x := by
  have hread : Reads (take ReadFailure.endOfData n) (littleEndian n x) (littleEndian n x) := by
    have h := Reads.take (e := ReadFailure.endOfData) (littleEndian n x)
    rwa [littleEndian_length] at h
  refine hread.map ?_
  rw [fromLittleEndian_littleEndian h]
  exact Reads.pure x

theorem readUint_eq_ok {n x : Nat} {s s' : Stream} (h : readUint n s = .ok x s') :
    x < 256^n ∧ s.input = littleEndian n x ++ s'.input := by
  obtain ⟨bytes,s₁,hbytes,h⟩ := bind_eq_ok.mp h
  obtain ⟨rfl,rfl⟩ := pure_eq_ok.mp h
  obtain ⟨rfl,hinput,-⟩ := take_eq_ok.mp hbytes
  rw [littleEndian_fromLittleEndian]
  exact ⟨fromLittleEndian_lt bytes,hinput⟩

theorem pays_readUint {m : Nat} {debt late : Int} (n : Nat) (hd : 0 ≤ debt) (hl : 0 ≤ late) :
    Pays m (readUint n) (m*n) n debt late := by
  have h := Pays.bind (Pays.take (m := m) (e := ReadFailure.endOfData) n hd hl) fun bytes =>
    Pays.pure (fromLittleEndian bytes)
  refine h.mono ?_ ?_ (Int.le_refl _) (Int.le_refl _)
  · omega
  · omega

/-- The signed integers of `n` bytes. -/
def FitsInt (n : Nat) (x : Int) : Prop := -256^n ≤ x*2 ∧ x*2 < 256^n

theorem natCast_pow256 (n : Nat) : ((256^n : Nat) : Int) = 256^n := by
  push_cast
  rfl

theorem reads_readInt {n : Nat} {x : Int} (h : FitsInt n x) : Reads (readInt n) (writeInt n x) x := by
  have hpos : 0 < 256^n := Nat.pow_pos (by decide)
  have hcast := natCast_pow256 n
  have hnonneg : 0 ≤ x%256^n := Int.emod_nonneg x (by omega)
  have hmod : x%256^n < 256^n := Int.emod_lt_of_pos x (by omega)
  refine (reads_readUint (show (x%256^n).toNat < 256^n by omega)).map ?_
  have hx : ((x%256^n).toNat : Int).bmod (256^n) = x := by
    rw [Int.toNat_of_nonneg hnonneg,← hcast,Int.emod_bmod]
    apply Int.bmod_eq_of_le_mul_two
    · rw [hcast]
      exact h.1
    · rw [hcast]
      exact h.2
  rw [hx]
  exact Reads.pure x

theorem inverts_readInt (n : Nat) : Inverts (readInt n) (writeInt n) := by
  intro s x s' h
  obtain ⟨u,s₁,hu,h⟩ := bind_eq_ok.mp h
  obtain ⟨rfl,rfl⟩ := pure_eq_ok.mp h
  obtain ⟨hlt,hinput⟩ := readUint_eq_ok hu
  have hu : ((u : Int).bmod (256^n)%256^n).toNat = u := by
    rw [← natCast_pow256,Int.bmod_emod,Int.emod_eq_of_lt (by omega) (by omega)]
    exact Int.toNat_natCast u
  unfold writeInt
  rw [hu,hinput]

theorem readInt_fits {n : Nat} {x : Int} {s s' : Stream} (hn : 0 < n) (h : readInt n s = .ok x s') :
    FitsInt n x := by
  obtain ⟨u,s₁,hu,h⟩ := bind_eq_ok.mp h
  obtain ⟨rfl,rfl⟩ := pure_eq_ok.mp h
  have hpos : 0 < 256^n := Nat.pow_pos (by decide)
  have heven : 2 ∣ 256^n := dvd_pow (by decide) (by omega)
  have hle := Int.le_bmod (x := u) hpos
  have hlt := Int.bmod_lt (x := u) hpos
  unfold FitsInt
  rw [← natCast_pow256]
  omega

theorem pays_readInt {m : Nat} {debt late : Int} (n : Nat) (hd : 0 ≤ debt) (hl : 0 ≤ late) :
    Pays m (readInt n) (m*n) n debt late := by
  have h := Pays.bind (pays_readUint (m := m) n hd hl) fun x =>
    Pays.pure ((x : Int).bmod (256^n))
  refine h.mono ?_ ?_ (Int.le_refl _) (Int.le_refl _)
  · omega
  · omega

end Integers

section CompactSize
variable {m : Nat} {debt late : Int}

theorem reads_readMarked {n least x : Nat} (hle : least ≤ x) (hlt : x < 256^n) :
    Reads (readMarked n least) (littleEndian n x) x := by
  refine (reads_readUint hlt).map ?_
  rw [if_neg (by omega)]
  exact Reads.pure x

theorem readMarked_eq_ok {n least x : Nat} {s s' : Stream} (h : readMarked n least s = .ok x s') :
    least ≤ x ∧ x < 256^n ∧ s.input = littleEndian n x ++ s'.input := by
  obtain ⟨y,s₁,hy,h⟩ := bind_eq_ok.mp h
  obtain ⟨hlt,hinput⟩ := readUint_eq_ok hy
  split at h
  · exact absurd h throw_ne_ok
  · obtain ⟨rfl,rfl⟩ := pure_eq_ok.mp h
    exact ⟨by omega,hlt,hinput⟩

theorem pays_readMarked (n least : Nat) (hd : 0 ≤ debt) (hl : 0 ≤ late) :
    Pays m (readMarked n least) 0 0 debt late := by
  have hrest : ∀ x, Pays m (if x < least then throw .nonCanonical else pure x :
      Reader ReadFailure Nat) 0 0 (debt+m*n) (late+n) := by
    intro x
    split
    · exact Pays.throw (by positivity) (by omega)
    · exact Pays.pure x
  refine (Pays.bind (pays_readUint n hd hl) hrest).mono ?_ ?_ (Int.le_refl _) (Int.le_refl _)
  · positivity
  · omega

theorem length_writeCompactSize (n : Nat) :
    (writeCompactSize n).length = getSizeOfCompactSize n := by
  unfold writeCompactSize getSizeOfCompactSize
  split_ifs <;> simp

theorem reads_readCompactSize {n : Nat} (h : n ≤ MAX_SIZE) :
    Reads readCompactSize (writeCompactSize n) n := by
  have hend : Reads (if MAX_SIZE < n then throw .sizeTooLarge else pure n :
      Reader ReadFailure Nat) [] n := by
    rw [if_neg (by omega)]
    exact Reads.pure n
  have hmax : n < 256^4 := lt_of_le_of_lt h (by decide)
  unfold writeCompactSize
  split_ifs with h₁ h₂ h₃
  · refine (reads_readUint (by omega)).map ?_
    unfold readSizeAfter
    rw [if_pos h₁]
    exact (Reads.pure n).after hend
  · refine (reads_readUint (n := 1) (x := 253) (by decide)).bind ?_
    unfold readSizeAfter
    rw [if_neg (by decide),if_pos rfl]
    exact (reads_readMarked (by omega) (by omega)).map hend
  · refine (reads_readUint (n := 1) (x := 254) (by decide)).bind ?_
    unfold readSizeAfter
    rw [if_neg (by decide),if_neg (by decide),if_pos rfl]
    exact (reads_readMarked (by omega) hmax).map hend
  · omega

theorem readCompactSize_eq_ok {n : Nat} {s s' : Stream} (h : readCompactSize s = .ok n s') :
    n ≤ MAX_SIZE ∧ s.input = writeCompactSize n ++ s'.input := by
  obtain ⟨ch,s₁,hch,h⟩ := bind_eq_ok.mp h
  obtain ⟨x,s₂,hx,h⟩ := bind_eq_ok.mp h
  obtain ⟨hlt,hinput⟩ := readUint_eq_ok hch
  split at h
  · exact absurd h throw_ne_ok
  rename_i hmax
  obtain ⟨rfl,rfl⟩ := pure_eq_ok.mp h
  refine ⟨by omega,?_⟩
  rw [hinput]
  unfold writeCompactSize
  unfold readSizeAfter at hx
  split at hx
  · rename_i hsmall
    obtain ⟨rfl,rfl⟩ := pure_eq_ok.mp hx
    rw [if_pos hsmall]
  · split at hx
    · rename_i heq
      obtain ⟨hle,hlt,hrest⟩ := readMarked_eq_ok hx
      rw [if_neg (by omega),if_pos (by omega),hrest,heq]
      rfl
    · split at hx
      · rename_i heq
        obtain ⟨hle,hlt,hrest⟩ := readMarked_eq_ok hx
        rw [if_neg (by omega),if_neg (by omega),if_pos (by omega),hrest,heq]
        rfl
      · obtain ⟨hle,hlt,hrest⟩ := readMarked_eq_ok hx
        rw [if_neg (by omega),if_neg (by omega),if_neg (by omega),hrest,
          show ch = 255 by omega]
        rfl

theorem pays_readCompactSize (hd : 0 ≤ debt) (hl : 0 ≤ late) :
    Pays m readCompactSize m 1 debt late := by
  have hd' : 0 ≤ debt+m*(1 : Nat) := by positivity
  have hl' : 0 ≤ late+(1 : Nat) := by omega
  have hsize : ∀ ch, Pays m (readSizeAfter ch) 0 0 (debt+m*(1 : Nat)) (late+(1 : Nat)) := by
    intro ch
    unfold readSizeAfter
    split_ifs
    · exact Pays.pure ch
    · exact pays_readMarked 2 253 hd' hl'
    · exact pays_readMarked 4 _ hd' hl'
    · exact pays_readMarked 8 _ hd' hl'
  have hlimit : ∀ n, Pays m (if MAX_SIZE < n then throw .sizeTooLarge else pure n :
      Reader ReadFailure Nat) 0 0 (debt+m*(1 : Nat)+0) (late+(1 : Nat)+0) := by
    intro n
    split
    · exact Pays.throw (by omega) (by omega)
    · exact Pays.pure n
  have h := Pays.bind (pays_readUint (m := m) 1 hd hl) fun ch => Pays.bind (hsize ch) hlimit
  refine h.mono ?_ ?_ (Int.le_refl _) (Int.le_refl _)
  · omega
  · omega

end CompactSize

section Bytes

theorem reads_readBlocks {nSize i : Nat} {v : List UInt8} (h : i+v.length = nSize) :
    Reads (readBlocks nSize i) v v := by
  induction hk : nSize-i using Nat.strong_induction_on generalizing i v with
  | _ k ih =>
    unfold readBlocks
    split
    · rename_i hlt
      obtain ⟨blk,hblk⟩ : ∃ blk, min (nSize-i) (1+4999999/1) = blk := ⟨_,rfl⟩
      simp only [hblk]
      have hle : blk ≤ v.length := by omega
      have hfirst : Reads (take ReadFailure.endOfData blk) (v.take blk) (v.take blk) := by
        have h := Reads.take (e := ReadFailure.endOfData) (v.take blk)
        rwa [List.length_take_of_le hle] at h
      have hrest : Reads (readBlocks nSize (i+blk)) (v.drop blk) (v.drop blk) := by
        refine ih (nSize-(i+blk)) (by omega) ?_ rfl
        rw [List.length_drop]
        omega
      have hall : Reads (take ReadFailure.endOfData blk >>= fun block =>
          readBlocks nSize (i+blk) >>= fun rest => pure (block ++ rest))
          (v.take blk ++ v.drop blk) (v.take blk ++ v.drop blk) :=
        hfirst.bind (hrest.map (Reads.pure _))
      rw [List.take_append_drop] at hall
      exact Reads.countRound.after ((Reads.reserve blk).after hall)
    · have hnil : v = [] := List.eq_nil_of_length_eq_zero (by omega)
      rw [hnil]
      exact Reads.pure []

theorem readBlocks_eq_ok {nSize i : Nat} {v : List UInt8} {s s' : Stream}
    (h : readBlocks nSize i s = .ok v s') : v.length = nSize-i ∧ s.input = v ++ s'.input := by
  induction hk : nSize-i using Nat.strong_induction_on generalizing i v s with
  | _ k ih =>
    unfold readBlocks at h
    split at h
    · rename_i hlt
      obtain ⟨blk,hblk⟩ : ∃ blk, min (nSize-i) (1+4999999/1) = blk := ⟨_,rfl⟩
      simp only [hblk] at h
      obtain ⟨s₁,block,s₂,rest,hsame,hblock,hrest,rfl⟩ := round_eq_ok h
      obtain ⟨hlen,hinput,-⟩ := take_eq_ok.mp hblock
      obtain ⟨hlen',hinput'⟩ := ih (nSize-(i+blk)) (by omega) hrest rfl
      refine ⟨?_,?_⟩
      · rw [List.length_append,hlen,hlen']
        omega
      · rw [List.append_assoc,← hinput',← hsame]
        exact hinput
    · obtain ⟨rfl,rfl⟩ := pure_eq_ok.mp h
      exact ⟨by simp only [List.length_nil]; omega,rfl⟩

/-- A failed read of a block leaves the block reserved. -/
theorem pays_readBlocks {m : Nat} (hm : 1 ≤ m) (nSize i : Nat) :
    Pays m (readBlocks nSize i) 0 0 5000000 1 := by
  induction hk : nSize-i using Nat.strong_induction_on generalizing i with
  | _ k ih =>
    unfold readBlocks
    split
    · rename_i hlt
      obtain ⟨blk,hblk⟩ : ∃ blk, min (nSize-i) (1+4999999/1) = blk := ⟨_,rfl⟩
      simp only [hblk]
      have hcost : (blk : Int) ≤ m*blk := by
        have := Nat.mul_le_mul_right blk hm
        push_cast [← Nat.cast_le (α := Int)] at this
        omega
      have hrest : ∀ block, Pays m (readBlocks nSize (i+blk) >>= fun rest => pure (block ++ rest))
          (0+0) (0+0) (5000000+0+ -blk+m*blk) (1+ -1+0+blk) := by
        intro block
        refine Pays.bind ((ih _ (by omega) (i+blk) rfl).mono (Int.le_refl _) (Int.le_refl _)
          (by omega) (by omega)) fun rest => Pays.pure _
      have h := Pays.bind (Pays.countRound (m := m) (ε := ReadFailure)) fun _ =>
        Pays.bind (Pays.reserve blk) fun _ =>
        Pays.bind (Pays.take (e := ReadFailure.endOfData) blk (by omega) (by omega)) hrest
      refine h.mono ?_ ?_ (Int.le_refl _) (Int.le_refl _)
      · omega
      · omega
    · exact Pays.pure []

theorem length_serializeBytes (v : List UInt8) :
    (serializeBytes v).length = getSizeOfCompactSize v.length+v.length := by
  unfold serializeBytes
  rw [List.length_append,length_writeCompactSize]

theorem reads_unserializeBytes {v : List UInt8} (h : v.length ≤ MAX_SIZE) :
    Reads unserializeBytes (serializeBytes v) v :=
  (reads_readCompactSize h).bind (reads_readBlocks (Nat.zero_add _))

theorem unserializeBytes_eq_ok {v : List UInt8} {s s' : Stream}
    (h : unserializeBytes s = .ok v s') :
    v.length ≤ MAX_SIZE ∧ s.input = serializeBytes v ++ s'.input := by
  obtain ⟨n,s₁,hn,h⟩ := bind_eq_ok.mp h
  obtain ⟨hmax,hinput⟩ := readCompactSize_eq_ok hn
  obtain ⟨hlen,hinput'⟩ := readBlocks_eq_ok h
  have hlen : v.length = n := by omega
  unfold serializeBytes
  rw [hlen,List.append_assoc,← hinput']
  exact ⟨hmax,hinput⟩

theorem pays_unserializeBytes {m : Nat} (hm : 1 ≤ m) :
    Pays m unserializeBytes m 1 5000000 1 := by
  have hsize : Pays m readCompactSize m 1 5000000 1 := pays_readCompactSize (by omega) (by omega)
  have h := Pays.bind hsize fun n => (pays_readBlocks hm n 0).mono (Int.le_refl _) (Int.le_refl _)
    (show (5000000 : Int) ≤ 5000000+m by omega) (show (1 : Int) ≤ 1+1 by omega)
  refine h.mono ?_ ?_ (Int.le_refl _) (Int.le_refl _)
  · omega
  · omega

end Bytes

section Elements
variable {α : Type} {sizeofT : Nat} {hsize : 0 < 5000000/sizeofT} {elem : Reader ReadFailure α}
  {write : α → List UInt8}

theorem reads_readChunks {nSize nMid : Nat} {v : List α} (hv : ∀ a ∈ v, Reads elem (write a) a)
    (h : nMid+v.length = nSize) :
    Reads (readChunks sizeofT hsize elem nSize nMid) (v.flatMap write) v := by
  induction hk : nSize-nMid using Nat.strong_induction_on generalizing nMid v with
  | _ k ih =>
    unfold readChunks
    split
    · rename_i hlt
      obtain ⟨n,hn⟩ : ∃ n, min (nMid+5000000/sizeofT) nSize = n := ⟨_,rfl⟩
      simp only [hn]
      have hle : n-nMid ≤ v.length := by omega
      have hchunk : Reads (readMany elem (n-nMid)) ((v.take (n-nMid)).flatMap write)
          (v.take (n-nMid)) := by
        have h := Reads.readMany fun a ha => hv a (List.mem_of_mem_take (i := n-nMid) ha)
        rwa [List.length_take_of_le hle] at h
      have hrest : Reads (readChunks sizeofT hsize elem nSize n) ((v.drop (n-nMid)).flatMap write)
          (v.drop (n-nMid)) := by
        refine ih (nSize-n) (by omega) (fun a ha => hv a (List.mem_of_mem_drop ha)) ?_ rfl
        rw [List.length_drop]
        omega
      have hall : Reads (readMany elem (n-nMid) >>= fun chunk =>
          readChunks sizeofT hsize elem nSize n >>= fun rest => pure (chunk ++ rest))
          ((v.take (n-nMid)).flatMap write ++ (v.drop (n-nMid)).flatMap write)
          (v.take (n-nMid) ++ v.drop (n-nMid)) :=
        hchunk.bind (hrest.map (Reads.pure _))
      rw [← List.flatMap_append,List.take_append_drop] at hall
      exact Reads.countRound.after ((Reads.reserve _).after hall)
    · have hnil : v = [] := List.eq_nil_of_length_eq_zero (by omega)
      rw [hnil]
      exact Reads.pure []

theorem readChunks_eq_ok (hinv : Inverts elem write) {nSize nMid : Nat} {v : List α}
    {s s' : Stream} (h : readChunks sizeofT hsize elem nSize nMid s = .ok v s') :
    v.length = nSize-nMid ∧ s.input = v.flatMap write ++ s'.input := by
  induction hk : nSize-nMid using Nat.strong_induction_on generalizing nMid v s with
  | _ k ih =>
    unfold readChunks at h
    split at h
    · rename_i hlt
      obtain ⟨n,hn⟩ : ∃ n, min (nMid+5000000/sizeofT) nSize = n := ⟨_,rfl⟩
      simp only [hn] at h
      obtain ⟨s₁,chunk,s₂,rest,hsame,hchunk,hrest,rfl⟩ := round_eq_ok h
      obtain ⟨hlen,hinput⟩ := hinv.readMany hchunk
      obtain ⟨hlen',hinput'⟩ := ih (nSize-n) (by omega) hrest rfl
      refine ⟨?_,?_⟩
      · rw [List.length_append,hlen,hlen']
        omega
      · rw [List.flatMap_append,List.append_assoc,← hinput',← hsame]
        exact hinput
    · obtain ⟨rfl,rfl⟩ := pure_eq_ok.mp h
      exact ⟨by simp only [List.length_nil]; omega,rfl⟩

theorem returns_readChunks {p : α → Prop} (h : Returns elem p) (nSize nMid : Nat) :
    Returns (readChunks sizeofT hsize elem nSize nMid) fun v => ∀ a ∈ v, p a := by
  induction hk : nSize-nMid using Nat.strong_induction_on generalizing nMid with
  | _ k ih =>
    unfold readChunks
    split
    · refine (Returns.any _).bind fun _ _ => (Returns.any _).bind fun _ _ =>
        (h.readMany _).bind fun chunk hchunk => (ih _ ?_ _ rfl).bind fun rest hrest => .pure ?_
      · have hchunk := hsize
        omega
      · exact List.forall_mem_append.mpr ⟨hchunk,hrest⟩
    · exact .pure (by simp)

/-- When an element cannot be read, its chunk stays reserved. -/
theorem pays_readChunks {m : Nat} {memory rounds debt late : Int}
    (h : Pays m elem memory rounds debt late) (hmem : (sizeofT : Int) ≤ memory)
    (hround : 2 ≤ rounds) (nSize nMid : Nat) :
    Pays m (readChunks sizeofT hsize elem nSize nMid) 0 0 (5000000+debt) (late+2) := by
  induction hk : nSize-nMid using Nat.strong_induction_on generalizing nMid with
  | _ k ih =>
    unfold readChunks
    split
    · rename_i hlt
      obtain ⟨n,hn⟩ : ∃ n, min (nMid+5000000/sizeofT) nSize = n := ⟨_,rfl⟩
      obtain ⟨c,hc⟩ : ∃ c, n-nMid = c := ⟨_,rfl⟩
      simp only [hn,hc]
      have hcap : c*sizeofT ≤ 5000000 := by
        have hle : c ≤ 5000000/sizeofT := by omega
        exact (Nat.mul_le_mul_right sizeofT hle).trans (Nat.div_mul_le_self _ _)
      have hpaid : ((c*sizeofT : Nat) : Int) ≤ c*memory := by
        push_cast
        exact Int.mul_le_mul_of_nonneg_left hmem (by omega)
      have hrounds : (1 : Int) ≤ c*(rounds-1) := by
        have hc1 : (1 : Int) ≤ c := by omega
        have hr1 : (1 : Int) ≤ rounds-1 := by omega
        calc (1 : Int) = 1*1 := rfl
          _ ≤ c*(rounds-1) := Int.mul_le_mul hc1 hr1 (by omega) (by omega)
      have hmany : Pays m (readMany elem c) (c*memory) (c*(rounds-1)) debt (late+1) :=
        h.readMany (by omega) (by omega) c
      have hrest : ∀ chunk, Pays m (readChunks sizeofT hsize elem nSize n >>= fun rest =>
          pure (chunk ++ rest)) (0+0) (0+0)
          (5000000+debt+0+ -(c*sizeofT : Nat)+c*memory) (late+2+ -1+0+c*(rounds-1)) := by
        intro chunk
        refine Pays.bind ((ih _ (by omega) n rfl).mono (Int.le_refl _) (Int.le_refl _)
          (by omega) (by omega)) fun rest => Pays.pure _
      have hall := Pays.bind (Pays.countRound (m := m) (ε := ReadFailure)) fun _ =>
        Pays.bind (Pays.reserve (c*sizeofT)) fun _ =>
        Pays.bind (hmany.mono (Int.le_refl _) (Int.le_refl _) (by omega) (by omega)) hrest
      refine hall.mono ?_ ?_ (Int.le_refl _) (Int.le_refl _)
      · omega
      · omega
    · exact Pays.pure []

theorem length_serializeVector (v : List α) : (serializeVector write v).length =
    getSizeOfCompactSize v.length+(v.map fun a => (write a).length).sum := by
  unfold serializeVector
  rw [List.length_append,length_writeCompactSize,List.length_flatMap]

theorem reads_unserializeVector {v : List α} (hv : ∀ a ∈ v, Reads elem (write a) a)
    (h : v.length ≤ MAX_SIZE) :
    Reads (unserializeVector sizeofT hsize elem) (serializeVector write v) v :=
  (reads_readCompactSize h).bind (reads_readChunks hv (Nat.zero_add _))

theorem unserializeVector_eq_ok (hinv : Inverts elem write) {v : List α} {s s' : Stream}
    (h : unserializeVector sizeofT hsize elem s = .ok v s') :
    v.length ≤ MAX_SIZE ∧ s.input = serializeVector write v ++ s'.input := by
  obtain ⟨n,s₁,hn,h⟩ := bind_eq_ok.mp h
  obtain ⟨hmax,hinput⟩ := readCompactSize_eq_ok hn
  obtain ⟨hlen,hinput'⟩ := readChunks_eq_ok hinv h
  have hlen : v.length = n := by omega
  unfold serializeVector
  rw [hlen,List.append_assoc,← hinput']
  exact ⟨hmax,hinput⟩

theorem returns_unserializeVector {p : α → Prop} (h : Returns elem p) :
    Returns (unserializeVector sizeofT hsize elem) fun v => ∀ a ∈ v, p a :=
  (Returns.any _).bind fun nSize _ => returns_readChunks h nSize 0

theorem pays_unserializeVector {m : Nat} {memory rounds debt late : Int}
    (h : Pays m elem memory rounds debt late) (hmem : (sizeofT : Int) ≤ memory)
    (hround : 2 ≤ rounds) (hd : 0 ≤ debt) (hl : 0 ≤ late) :
    Pays m (unserializeVector sizeofT hsize elem) 0 0 (5000000+debt) (late+2) := by
  have hsz : Pays m readCompactSize m 1 (5000000+debt) (late+2) :=
    pays_readCompactSize (by omega) (by omega)
  have hchunks : ∀ n, Pays m (readChunks sizeofT hsize elem n 0) 0 0 (5000000+debt) (late+2) :=
    fun n => pays_readChunks h hmem hround n 0
  have hall := Pays.bind hsz fun n => (hchunks n).mono (Int.le_refl _) (Int.le_refl _)
    (show 5000000+debt ≤ 5000000+debt+m by omega) (show late+2 ≤ late+2+1 by omega)
  refine hall.mono ?_ ?_ (Int.le_refl _) (Int.le_refl _)
  · omega
  · omega

end Elements

end Anoncoin
