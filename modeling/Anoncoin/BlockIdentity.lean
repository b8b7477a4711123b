import Anoncoin.HeaderRules

/-!
Which hash function a header is checked with at the last switch height, and whether
the hash of a block is the same wherever the block is rebuilt: from the wire, from
disk, from its index entry and from the stored index.
-/

set_option autoImplicit false

namespace Anoncoin
open Lib

namespace Consensus
variable {net : Consensus}

/-- The hash of the header is Scrypt below the last switch height and GOST from there. -/
def HashOfHeight (net : Consensus) (block : CBlockHeader) (nHeight : Nat) : Prop :=
  (nHeight < net.switchHeight6 → net.getHash block = block.getScryptHash net.hashes) ∧
    (net.switchHeight6 ≤ nHeight → net.getHash block = block.getGost3411Hash net.hashes)

theorem checkProofOfWork_le {block : CBlockHeader} {nBits : Uint32} (hmain : net.testNet = false)
    (h : net.checkProofOfWork block nBits = true) :
    net.getHash block ≤ (setCompact nBits).target := by
  unfold checkProofOfWork at h
  simp only [hmain,Bool.false_and] at h
  split at h
  · contradiction
  · split at h
    · contradiction
    · rename_i hlt
      exact BitVec.not_lt.mp hlt

theorem hashOfHeight_iff {block : CBlockHeader} (hw : block.FromWire) (nHeight : Nat) :
    HashOfHeight net block nHeight ↔
      block.getScryptHash net.hashes = block.getGost3411Hash net.hashes ∨
        (block.atLeastV3 = true ↔ net.switchHeight6 ≤ nHeight) := by
  have hhash : net.getHash block = if block.atLeastV3 then block.getGost3411Hash net.hashes
      else block.getScryptHash net.hashes := hw.getHash net.hashes net.testNet
  unfold HashOfHeight
  rw [hhash]
  rcases Nat.lt_or_ge nHeight net.switchHeight6 with hlt | hge
  · cases hv : block.atLeastV3 with
    | true => simp [hlt,eq_comm]
    | false => simp [hlt]
  · cases hv : block.atLeastV3 with
    | true => simp [hge]
    | false => simp [hge]

/-- The version fits the height where the contextual checks do not see to it: below and
at the last switch height, and for a header that hashes like the genesis block. -/
def VersionOfHeight (net : Consensus) (block : CBlockHeader) (nHeight : Nat) : Prop :=
  (nHeight < net.switchHeight6 → block.atLeastV3 = false) ∧
    (nHeight = net.switchHeight6 → block.atLeastV3 = true) ∧
    (net.switchHeight6 < nHeight → net.getHash block = net.hashGenesisBlock →
      block.atLeastV3 = true)

theorem numberedNet_hashes_differ {h : CBlockHeader} (hn : h.nNonce.toNat < 2^31) :
    h.getScryptHash numberedNet.hashes ≠ h.getGost3411Hash numberedNet.hashes := by
  intro heq
  simp only [CBlockHeader.getScryptHash,CBlockHeader.getGost3411Hash,numberedNet,headerNonce_bytes,
    if_pos hn] at heq
  have hnat := congrArg BitVec.toNat heq
  rw [blockNumber_toNat (by omega),BitVec.toNat_ofNat,Nat.mod_eq_of_lt (by omega)] at hnat
  omega

end Consensus

/-- The header fields of the record that the block tree database keeps for an entry. -/
structure CDiskBlockIndex where
  nHeight : Nat
  nVersion : Uint32
  hashPrev : Uint256
  hashMerkleRoot : Uint256
  nTime : Uint32
  nBits : Uint32
  nNonce : Uint32
  deriving DecidableEq, Repr

namespace CDiskBlockIndex

def ofIndex (pindex : CBlockIndex) : CDiskBlockIndex where
  nHeight := pindex.nHeight
  nVersion := pindex.data.nVersion
  hashPrev := (pindex.pprev.map fun p => p.data.fakeBIhash).getD 0
  hashMerkleRoot := pindex.data.hashMerkleRoot
  nTime := pindex.data.nTime
  nBits := pindex.data.nBits
  nNonce := pindex.data.nNonce

/-- The header that `LoadBlockIndexDB` rebuilds from the record. -/
def aHeader (d : CDiskBlockIndex) : CBlockHeader where
  nVersion := d.nVersion
  hashPrevBlock := d.hashPrev
  hashMerkleRoot := d.hashMerkleRoot
  nTime := d.nTime
  nBits := d.nBits
  nNonce := d.nNonce
  nHeight := BitVec.ofNat 32 d.nHeight

end CDiskBlockIndex

inductive ReadError where
  | deserialize
  | badHeader
  | hashMismatch
  deriving DecidableEq, Repr

namespace Consensus
variable {net : Consensus}

/-- `ReadBlockFromDisk`, up to the transactions, which follow the header in the file. -/
def readBlockFromDisk (net : Consensus) (file : List UInt8) (pindex : CBlockIndex) :
    Except ReadError (CBlockHeader × List UInt8) := do
  let (block,vtx) ← orThrow (CBlockHeader.unserialize .null file) .deserialize
  let hash := net.getHash block
  ensure (net.isExceptionBlock hash || net.checkProofOfWork block block.nBits) .badHeader
  ensure (hash == pindex.getBlockPowHash net.hashes net.testNet) .hashMismatch
  pure (block,vtx)

/-- Every entry was made from a header that came from the network, and every cross
reference leads to the entry with that sha256d hash. -/
structure Sound (net : Consensus) (s : NodeState) : Prop where
  entry : ∀ r i, s.mapBlockIndex r = some i → ∃ block : CBlockHeader, block.FromWire ∧
    net.getHash block = r ∧ i.data = net.indexData block ∧
    i.getBlockHeader = { block with nHeight := BitVec.ofNat 32 i.nHeight }
  reference : ∀ f r, s.mapBlockHashCrossReference f = some r →
    ∃ i, s.mapBlockIndex r = some i ∧ i.data.fakeBIhash = f

theorem Sound.findByFakeHash {s : NodeState} (h : Sound net s) {f : Uint256} {p : CBlockIndex}
    (hp : s.findByFakeHash f = some p) : p.data.fakeBIhash = f := by
  obtain ⟨r,hr,-,hi⟩ := findByFakeHash_eq_some.mp hp
  obtain ⟨i,hi',hf⟩ := h.reference f r hr
  rw [hi] at hi'
  obtain rfl := Option.some.inj hi'
  exact hf

theorem Added.getBlockHeader {s s' : NodeState} {block : CBlockHeader} {pindex : CBlockIndex}
    (hs : Sound net s) (h : Added net s block pindex s') :
    pindex.getBlockHeader = { block with nHeight := BitVec.ofNat 32 pindex.nHeight } := by
  have hprev : (pindex.pprev.map fun p => p.data.fakeBIhash).getD 0 = block.hashPrevBlock := by
    have hparent := h.parent
    cases hp : pindex.pprev with
    | none =>
      simp only [hp] at hparent
      simp [hparent]
    | some p =>
      simp only [hp] at hparent
      simp [hs.findByFakeHash hparent]
  unfold CBlockIndex.getBlockHeader
  rw [hprev,h.data]
  rfl

theorem Added.sound {s s' : NodeState} {block : CBlockHeader} {pindex : CBlockIndex}
    (hs : Sound net s) (hw : block.FromWire) (hnew : s.mapBlockIndex (net.getHash block) = none)
    (h : Added net s block pindex s') : Sound net s' := by
  constructor
  · intro r i hi
    rw [h.index] at hi
    by_cases hr : r = net.getHash block
    · subst hr
      rw [Function.update_self] at hi
      obtain rfl := Option.some.inj hi
      exact ⟨block,hw,rfl,h.data,h.getBlockHeader hs⟩
    · rw [Function.update_of_ne hr] at hi
      exact hs.entry r i hi
  · intro f r hr
    rw [h.index]
    rcases h.crossReference f r hr with hold | ⟨rfl,rfl⟩
    · obtain ⟨i,hi,hf⟩ := hs.reference f r hold
      have hne : r ≠ net.getHash block := by
        intro heq
        rw [heq,hnew] at hi
        contradiction
      exact ⟨i,by rw [Function.update_of_ne hne]; exact hi,hf⟩
    · exact ⟨pindex,Function.update_self ..,by rw [h.data]; rfl⟩

/-- A header that is known already changes nothing. -/
theorem acceptBlockHeader_known {s s' : NodeState} {now : Int} {work : Uint32}
    {block : CBlockHeader} {i pindex : CBlockIndex}
    (hknown : s.mapBlockIndex (net.getHash block) = some i)
    (hacc : net.acceptBlockHeader s now work block = .ok (pindex,s')) : pindex = i ∧ s' = s := by
  have hmeets : Meets AnyFailure (net.acceptBlockHeader s now work block) fun r => r = (i,s) := by
    unfold acceptBlockHeader
    simp only [hknown]
    apply (Meets.ensure trivial).bind
    intro _ _
    rfl
  have heq := hmeets.result hacc
  simp only [Prod.mk.injEq] at heq
  exact heq

theorem Sound.accept {s s' : NodeState} {now : Int} {work : Uint32} {block : CBlockHeader}
    {pindex : CBlockIndex} (hs : Sound net s) (hw : block.FromWire)
    (hacc : net.acceptBlockHeader s now work block = .ok (pindex,s')) :
    Sound net s' ∧ s'.mapBlockIndex (net.getHash block) = some pindex := by
  cases hknown : s.mapBlockIndex (net.getHash block) with
  | none =>
    obtain ⟨hadd,-⟩ := (acceptBlockHeader_meets hknown).result hacc
    have hidx : s'.mapBlockIndex (net.getHash block) = some pindex := by
      rw [hadd.index]
      exact Function.update_self ..
    exact ⟨hadd.sound hs hw hknown,hidx⟩
  | some i =>
    obtain ⟨rfl,rfl⟩ := acceptBlockHeader_known hknown hacc
    exact ⟨hs,hknown⟩

theorem Sound.headerStep {s : NodeState} (hs : Sound net s) {e : HeaderEvent} (he : e.FromWire) :
    Sound net (net.headerStep s e).1 := by
  cases e with
  | setFailed f => exact ⟨hs.entry,hs.reference⟩
  | setTip h => exact ⟨hs.entry,hs.reference⟩
  | acceptBlockHeader now work block =>
    cases hacc : net.acceptBlockHeader s now work block with
    | error f =>
      simp only [Consensus.headerStep,hacc]
      exact hs
    | ok r =>
      simp only [Consensus.headerStep,hacc]
      exact (hs.accept he hacc).1

theorem Reachable.sound {s : NodeState} (h : net.Reachable s) : Sound net s := by
  have hinit : Sound net .initial := ⟨fun _ _ h => by contradiction,fun _ _ h => by contradiction⟩
  exact Lib.Reachable.invariant h hinit fun _ _ hs he => hs.headerStep he

/-- All the ways to rebuild an accepted block give the hash it came with, and reading it
back from its file reports no mismatch. -/
structure OneIdentity (net : Consensus) (block : CBlock) (pindex : CBlockIndex) : Prop where
  blockHeader : net.getHash block.getBlockHeader = net.getHash block.toCBlockHeader
  disk : ∀ vtx, ∃ stored, CBlockHeader.unserialize .null (block.serialize ++ vtx) =
    some (stored,vtx) ∧ net.getHash stored = net.getHash block.toCBlockHeader
  index : net.getHash pindex.getBlockHeader = net.getHash block.toCBlockHeader
  powHash : pindex.getBlockPowHash net.hashes net.testNet = net.getHash block.toCBlockHeader
  loaded : net.getHash (CDiskBlockIndex.ofIndex pindex).aHeader = net.getHash block.toCBlockHeader
  read : ∀ vtx, net.readBlockFromDisk (block.serialize ++ vtx) pindex ≠ .error .hashMismatch

theorem readBlockFromDisk_hashMismatch {block : CBlockHeader} (hw : block.FromWire)
    {pindex : CBlockIndex} (h : pindex.getBlockPowHash net.hashes net.testNet = net.getHash block)
    (vtx : List UInt8) :
    net.readBlockFromDisk (block.serialize ++ vtx) pindex ≠ .error .hashMismatch := by
  have hmeets : Meets (· ≠ ReadError.hashMismatch)
      (net.readBlockFromDisk (block.serialize ++ vtx) pindex) fun _ => True := by
    unfold readBlockFromDisk
    simp only [hw.unserialize_written,orThrow_some,ok_bind]
    apply (Meets.ensure (by simp)).bind
    intro _ _
    rw [h,beq_self_eq_true,ensure_true]
    trivial
  exact fun herr => hmeets.fault herr rfl

/-- Everything but the index entry and what is made from it keeps the hash anyway. -/
theorem oneIdentity_iff {block : CBlock} (hw : block.toCBlockHeader.FromWire)
    (pindex : CBlockIndex) :
    OneIdentity net block pindex ↔
      net.getHash pindex.getBlockHeader = net.getHash block.toCBlockHeader := by
  constructor
  · exact fun h => h.index
  · intro h
    refine ⟨?_,?_,h,h,h,readBlockFromDisk_hashMismatch hw h⟩
    · rw [CBlock.getBlockHeader_eq hw]
    · exact fun vtx => ⟨block.toCBlockHeader,hw.unserialize_written vtx,rfl⟩

/-- The header of an entry is hashed like the header it was made from exactly when both
sides of the switch give the same function, or the functions agree. -/
theorem getHash_index_iff {block : CBlockHeader} (hw : block.FromWire) {n : Nat} (hn : n < 2^31) :
    net.getHash { block with nHeight := BitVec.ofNat 32 n } = net.getHash block ↔
      block.atLeastV3 = true ∨ n < net.switchHeight6 ∨
        block.getScryptHash net.hashes = block.getGost3411Hash net.hashes := by
  have hint : (BitVec.ofNat 32 n).toInt = n := by
    have hnat : (BitVec.ofNat 32 n).toNat = n := by
      rw [BitVec.toNat_ofNat]
      exact Nat.mod_eq_of_lt (by omega)
    rw [BitVec.toInt_eq_toNat_of_lt (by omega),hnat]
  have hleft : net.getHash { block with nHeight := BitVec.ofNat 32 n } =
      if net.switchHeight6 ≤ n then block.getGost3411Hash net.hashes
      else if block.atLeastV3 then block.getGost3411Hash net.hashes
      else block.getScryptHash net.hashes := by
    unfold getHash CBlockHeader.getHash
    simp only [hint,Int.ofNat_le]
    rfl
  have hright : net.getHash block = if block.atLeastV3 then block.getGost3411Hash net.hashes
      else block.getScryptHash net.hashes := hw.getHash net.hashes net.testNet
  rw [hleft,hright]
  cases hv : block.atLeastV3 with
  | true => simp
  | false =>
    rcases Nat.lt_or_ge n net.switchHeight6 with hlt | hge
    · simp [hlt,Nat.not_le.mpr hlt]
    · simp [hge,Nat.not_lt.mpr hge,eq_comm]

/-- Blocks without transactions serve as examples. -/
def emptyBlock (h : CBlockHeader) : CBlock := ⟨h,[]⟩

theorem readBlockFromDisk_of_ne {block : CBlockHeader} (hw : block.FromWire) {pindex : CBlockIndex}
    (hpow : net.checkProofOfWork block block.nBits = true)
    (hne : net.getHash block ≠ pindex.getBlockPowHash net.hashes net.testNet) (vtx : List UInt8) :
    net.readBlockFromDisk (block.serialize ++ vtx) pindex = .error .hashMismatch := by
  have hbeq : (net.getHash block == pindex.getBlockPowHash net.hashes net.testNet) = false :=
    beq_eq_false_iff_ne.mpr hne
  unfold readBlockFromDisk
  simp only [hw.unserialize_written,orThrow_some,ok_bind,hpow,Bool.or_true,ensure_true,hbeq]
  rfl

end Consensus

end Anoncoin
