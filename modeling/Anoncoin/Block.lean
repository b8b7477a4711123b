import Anoncoin.Transaction

/-!
Block headers and blocks (block.h, block.cpp): the three hash functions over the
header bytes, the choice among them, and the header's stream format.
-/

set_option autoImplicit false

namespace Anoncoin

abbrev Uint32 := BitVec 32

/-- `Hash`, `scrypt_1024_1_1_256` and `HashGOST`, on the bytes from `nVersion` to
`nNonce`. -/
structure HashFunctions where
  sha256d : List UInt8 → Uint256
  scrypt : List UInt8 → Uint256
  gost3411 : List UInt8 → Uint256

def nDifficultySwitchHeight4 : Nat := 555555

def nDifficultySwitchHeight5 : Nat := 585555

/-- A variable in the source: `-testnet` sets it to 110 at startup. -/
def nDifficultySwitchHeight6 (testNet : Bool) : Nat := if testNet then 110 else 871111

structure CBlockHeader where
  nVersion : Uint32
  hashPrevBlock : Uint256
  hashMerkleRoot : Uint256
  nTime : Uint32
  nBits : Uint32
  nNonce : Uint32
  nHeight : Uint32
  deriving DecidableEq, Repr

namespace CBlockHeader

/-- `SetNull`; `CURRENT_VERSION` is 3. -/
def null : CBlockHeader := ⟨3,0,0,0,0,0,0⟩

/-- The test `nVersion >= 3` on the signed version. -/
def atLeastV3 (h : CBlockHeader) : Bool := 3 ≤ h.nVersion.toInt

end CBlockHeader

/-- Little-endian bytes, as `READWRITE` of an integer lays them out. -/
def littleEndian : Nat → Nat → List UInt8
  | 0, _ => []
  | n+1, x => UInt8.ofNat x :: littleEndian n (x/256)

def fromLittleEndian : List UInt8 → Nat
  | [] => 0
  | b :: rest => b.toNat+256*fromLittleEndian rest

@[simp] theorem littleEndian_length (n x : Nat) : (littleEndian n x).length = n := by
  induction n generalizing x with
  | zero => rfl
  | succ n ih => simp [littleEndian,ih]

theorem fromLittleEndian_littleEndian {n x : Nat} (h : x < 256^n) :
    fromLittleEndian (littleEndian n x) = x := by
  induction n generalizing x with
  | zero =>
    simp only [pow_zero] at h
    simp only [littleEndian,fromLittleEndian]
    omega
  | succ n ih =>
    have hq : x/256 < 256^n := by
      rw [Nat.div_lt_iff_lt_mul (by decide)]
      rwa [pow_succ] at h
    simp only [littleEndian,fromLittleEndian,ih hq,UInt8.toNat_ofNat']
    omega

/-- Read `n` bytes as a bit vector of `8*n` bits; `none` is the exception at the end
of the stream. -/
def readLittleEndian (n : Nat) (w : Nat) (s : List UInt8) : Option (BitVec w × List UInt8) :=
  if n ≤ s.length then some (BitVec.ofNat w (fromLittleEndian (s.take n)),s.drop n) else none

theorem readLittleEndian_append (n w : Nat) (x : BitVec w) (s : List UInt8) (h : w = 8*n) :
    readLittleEndian n w (littleEndian n x.toNat ++ s) = some (x,s) := by
  have hx : x.toNat < 256^n := by
    calc x.toNat < 2^w := x.isLt
      _ = 256^n := by rw [h,pow_mul]; rfl
  simp only [readLittleEndian,List.length_append,littleEndian_length,Nat.le_add_right,if_true]
  rw [List.take_append_of_le_length (by simp),List.take_of_length_le (by simp),
    fromLittleEndian_littleEndian hx,List.drop_append_of_le_length (by simp),
    List.drop_of_length_le (by simp)]
  simp

namespace CBlockHeader

/-- The 80 bytes that are hashed. -/
def bytes (h : CBlockHeader) : List UInt8 :=
  littleEndian 4 h.nVersion.toNat ++ (littleEndian 32 h.hashPrevBlock.toNat ++
    (littleEndian 32 h.hashMerkleRoot.toNat ++ (littleEndian 4 h.nTime.toNat ++
      (littleEndian 4 h.nBits.toNat ++ littleEndian 4 h.nNonce.toNat))))

def getGost3411Hash (H : HashFunctions) (h : CBlockHeader) : Uint256 := H.gost3411 h.bytes

def getScryptHash (H : HashFunctions) (h : CBlockHeader) : Uint256 := H.scrypt h.bytes

def calcSha256dHash (H : HashFunctions) (h : CBlockHeader) : Uint256 := H.sha256d h.bytes

/-- `GetHash`. The height is compared as a signed number. -/
def getHash (H : HashFunctions) (testNet : Bool) (h : CBlockHeader) : Uint256 :=
  if nDifficultySwitchHeight6 testNet ≤ h.nHeight.toInt then h.getGost3411Hash H
  else if h.atLeastV3 then h.getGost3411Hash H
  else h.getScryptHash H

/-- Writing a header to the network or to disk; the height goes out from version 3 on. -/
def serialize (h : CBlockHeader) : List UInt8 :=
  h.bytes ++ if h.atLeastV3 then littleEndian 4 h.nHeight.toNat else []

/-- Reading a header into an object that holds `old`: a height that is not in the
stream keeps its old value. -/
def unserialize (old : CBlockHeader) (s : List UInt8) : Option (CBlockHeader × List UInt8) := do
  let (nVersion,s) ← readLittleEndian 4 32 s
  let (hashPrevBlock,s) ← readLittleEndian 32 256 s
  let (hashMerkleRoot,s) ← readLittleEndian 32 256 s
  let (nTime,s) ← readLittleEndian 4 32 s
  let (nBits,s) ← readLittleEndian 4 32 s
  let (nNonce,s) ← readLittleEndian 4 32 s
  let h : CBlockHeader :=
    ⟨nVersion,hashPrevBlock,hashMerkleRoot,nTime,nBits,nNonce,old.nHeight⟩
  if h.atLeastV3 then do
    let (nHeight,s) ← readLittleEndian 4 32 s
    some ({ h with nHeight := nHeight },s)
  else some (h,s)

def getSerializeSize (h : CBlockHeader) : Nat := 80+if h.atLeastV3 then 4 else 0

/-- What is read back is what was written, up to a height that was not written. -/
theorem unserialize_written (old h : CBlockHeader) (s : List UInt8) :
    unserialize old (h.serialize ++ s) =
      some (if h.atLeastV3 then h else { h with nHeight := old.nHeight },s) := by
  unfold unserialize serialize bytes
  simp only [List.append_assoc,readLittleEndian_append,Option.bind_eq_bind,Option.bind_some]
  by_cases hv : h.atLeastV3 = true
  · have hv' : ({ h with nHeight := old.nHeight } : CBlockHeader).atLeastV3 = true := hv
    simp only [hv,hv',if_true]
    simp [readLittleEndian_append]
  · have hv' : ¬({ h with nHeight := old.nHeight } : CBlockHeader).atLeastV3 = true := hv
    simp [hv,hv']

/-- A header as it is after it was read from the network into a cleared object. -/
def FromWire (h : CBlockHeader) : Prop := ∃ s rest, unserialize null s = some (h,rest)

/-- Below version 3 the height of a header that was read is the one it had before. -/
theorem unserialize_nHeight {old h : CBlockHeader} {s rest : List UInt8}
    (hr : unserialize old s = some (h,rest)) (hv : h.atLeastV3 = false) :
    h.nHeight = old.nHeight := by
  simp only [unserialize,Option.bind_eq_bind,Option.bind_eq_some_iff,Prod.exists] at hr
  obtain ⟨v,-,-,p,-,-,m,-,-,t,-,-,b,-,-,n,s₆,-,hr⟩ := hr
  split at hr
  · rename_i hv3
    obtain ⟨⟨k,s₇⟩,-,hk⟩ := Option.bind_eq_some_iff.mp hr
    simp only [Option.some.injEq,Prod.mk.injEq] at hk
    obtain ⟨rfl,-⟩ := hk
    exact absurd hv3 (by simpa [atLeastV3] using hv)
  · simp only [Option.some.injEq,Prod.mk.injEq] at hr
    obtain ⟨rfl,-⟩ := hr
    rfl

theorem FromWire.nHeight {h : CBlockHeader} (hw : h.FromWire) (hv : h.atLeastV3 = false) :
    h.nHeight = 0 := by
  obtain ⟨s,rest,hr⟩ := hw
  exact unserialize_nHeight hr hv

theorem fromWire_of_nHeight {h : CBlockHeader} (hh : h.nHeight = 0) : h.FromWire := by
  refine ⟨h.serialize,[],?_⟩
  have hround := unserialize_written null h []
  have hsame : ({ h with nHeight := null.nHeight } : CBlockHeader) = h := by
    cases h
    simp only [null] at hh ⊢
    rw [hh]
  rw [hsame,ite_self,List.append_nil] at hround
  exact hround

/-- Writing such a header to disk and reading it back changes nothing. -/
theorem FromWire.unserialize_written {h : CBlockHeader} (hw : h.FromWire) (s : List UInt8) :
    unserialize null (h.serialize ++ s) = some (h,s) := by
  rw [CBlockHeader.unserialize_written]
  cases hv : h.atLeastV3 with
  | true => rw [if_pos rfl]
  | false =>
    have hh := hw.nHeight hv
    cases h
    simp only at hh
    subst hh
    rfl

/-- The hash of a header that was read from the network depends on its version only. -/
theorem FromWire.getHash {h : CBlockHeader} (hw : h.FromWire) (H : HashFunctions) (testNet : Bool) :
    h.getHash H testNet = if h.atLeastV3 then h.getGost3411Hash H else h.getScryptHash H := by
  unfold CBlockHeader.getHash
  cases hv : h.atLeastV3 with
  | true => simp
  | false =>
    have hlow : ¬(nDifficultySwitchHeight6 testNet : Int) ≤ h.nHeight.toInt := by
      rw [hw.nHeight hv]
      cases testNet <;> decide
    rw [if_neg hlow]

end CBlockHeader

structure CBlock extends CBlockHeader where
  vtx : List CTransaction
  deriving DecidableEq, Repr

namespace CBlock

/-- `GetBlockHeader`: the height is copied from version 3 on. -/
def getBlockHeader (b : CBlock) : CBlockHeader :=
  { b.toCBlockHeader with nHeight := if b.atLeastV3 then b.nHeight else CBlockHeader.null.nHeight }

theorem getBlockHeader_eq {b : CBlock} (hw : b.toCBlockHeader.FromWire) :
    b.getBlockHeader = b.toCBlockHeader := by
  unfold getBlockHeader
  cases hv : b.atLeastV3 with
  | true => rw [if_pos rfl]
  | false =>
    have hh := hw.nHeight hv
    obtain ⟨⟨_,_,_,_,_,_,_⟩,_⟩ := b
    simp only at hh
    subst hh
    rfl

def getSerializeSize (b : CBlock) : Nat :=
  b.toCBlockHeader.getSerializeSize+
    (getSizeOfCompactSize b.vtx.length+(b.vtx.map CTransaction.getSerializeSize).sum)

theorem inputs_le_size (b : CBlock) :
    41*(b.vtx.map fun (tx : CTransaction) => tx.vin.length).sum ≤ b.getSerializeSize := by
  have h : 41*(b.vtx.map fun (tx : CTransaction) => tx.vin.length).sum ≤
      (b.vtx.map CTransaction.getSerializeSize).sum := by
    induction b.vtx with
    | nil => simp
    | cons tx rest ih =>
      have htx := tx.inputs_le_size
      simp only [List.map_cons,List.sum_cons]
      omega
  simp only [getSerializeSize]
  omega

end CBlock

end Anoncoin
