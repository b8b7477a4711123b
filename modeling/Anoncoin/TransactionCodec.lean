import Anoncoin.Serialize

/-!
The wire format of transactions (transaction.h, serialize.h): what is written is read back,
only what would be written is read, and how far a length prefix can lead the reader.
-/

set_option autoImplicit false

namespace Anoncoin
open Lib

/-- The integers are those of the types `uint32_t`, `int64_t` and `int32_t`, and the
vectors have at most `MAX_SIZE` elements. -/
structure CTxIn.Fits (i : CTxIn) : Prop where
  n : i.prevout.n < 256^4
  script : i.scriptSig.length ≤ MAX_SIZE
  sequence : i.nSequence < 256^4

structure CTxOut.Fits (o : CTxOut) : Prop where
  value : FitsInt 8 o.nValue
  script : o.scriptPubKey.length ≤ MAX_SIZE

structure CTransaction.Fits (tx : CTransaction) : Prop where
  version : FitsInt 4 tx.nVersion
  inputs : tx.vin.length ≤ MAX_SIZE
  vin : ∀ i ∈ tx.vin, i.Fits
  outputs : tx.vout.length ≤ MAX_SIZE
  vout : ∀ o ∈ tx.vout, o.Fits
  lockTime : tx.nLockTime < 256^4

namespace COutPoint

theorem reads_unserialize {o : COutPoint} (h : o.n < 256^4) :
    Reads COutPoint.unserialize o.serialize o := by
  have hhash : o.hash.toNat < 256^32 := lt_of_lt_of_eq o.hash.isLt (by decide)
  have hall : Reads COutPoint.unserialize o.serialize ⟨BitVec.ofNat 256 o.hash.toNat,o.n⟩ :=
    (reads_readUint hhash).bind ((reads_readUint h).map (Reads.pure _))
  rw [BitVec.ofNat_toNat,BitVec.setWidth_eq] at hall
  exact hall

theorem unserialize_eq_ok {o : COutPoint} {s s' : Stream} (h : COutPoint.unserialize s = .ok o s') :
    o.n < 256^4 ∧ s.input = o.serialize ++ s'.input := by
  obtain ⟨hash,s₁,hhash,h⟩ := bind_eq_ok.mp h
  obtain ⟨n,s₂,hn,h⟩ := bind_eq_ok.mp h
  obtain ⟨rfl,rfl⟩ := pure_eq_ok.mp h
  obtain ⟨hlt,hinput⟩ := readUint_eq_ok hhash
  obtain ⟨hlt',hinput'⟩ := readUint_eq_ok hn
  have hnat : (BitVec.ofNat 256 hash).toNat = hash := by
    rw [BitVec.toNat_ofNat]
    exact Nat.mod_eq_of_lt (lt_of_lt_of_eq hlt (by decide))
  refine ⟨hlt',?_⟩
  unfold COutPoint.serialize
  rw [hnat,List.append_assoc,← hinput']
  exact hinput

end COutPoint

namespace CTxIn

theorem reads_unserialize {i : CTxIn} (h : i.Fits) : Reads CTxIn.unserialize i.serialize i :=
  (COutPoint.reads_unserialize h.n).bind ((reads_unserializeBytes h.script).bind
    ((reads_readUint h.sequence).map (Reads.pure i)))

theorem unserialize_eq_ok {i : CTxIn} {s s' : Stream} (h : CTxIn.unserialize s = .ok i s') :
    i.Fits ∧ s.input = i.serialize ++ s'.input := by
  obtain ⟨prevout,s₁,hprev,h⟩ := bind_eq_ok.mp h
  obtain ⟨script,s₂,hscript,h⟩ := bind_eq_ok.mp h
  obtain ⟨seq,s₃,hseq,h⟩ := bind_eq_ok.mp h
  obtain ⟨rfl,rfl⟩ := pure_eq_ok.mp h
  obtain ⟨hn,hinput⟩ := COutPoint.unserialize_eq_ok hprev
  obtain ⟨hlen,hinput'⟩ := unserializeBytes_eq_ok hscript
  obtain ⟨hlt,hinput''⟩ := readUint_eq_ok hseq
  refine ⟨⟨hn,hlen,hlt⟩,?_⟩
  unfold CTxIn.serialize
  rw [List.append_assoc,List.append_assoc,← hinput'',← hinput']
  exact hinput

theorem length_serialize (i : CTxIn) : i.serialize.length = i.getSerializeSize := by
  unfold CTxIn.serialize COutPoint.serialize CTxIn.getSerializeSize scriptSerializeSize
  simp only [List.length_append,littleEndian_length,length_serializeBytes]
  omega

/-- Four units of memory for each byte pay for the element and for its script. -/
theorem pays_unserialize : Pays 4 CTxIn.unserialize 72 2 5000000 1 := by
  have hprev : Pays 4 COutPoint.unserialize 144 36 5000000 1 := by
    have h := Pays.bind (pays_readUint (m := 4) 32 (show (0 : Int) ≤ 5000000 by decide)
      (show (0 : Int) ≤ 1 by decide)) fun hash => Pays.bind (pays_readUint (m := 4) 4
      (by decide) (by decide)) fun n => Pays.pure (COutPoint.mk (BitVec.ofNat 256 hash) n)
    exact h
  have h := Pays.bind hprev fun prevout =>
    Pays.bind ((pays_unserializeBytes (by decide)).mono (Int.le_refl 4) (Int.le_refl 1)
      (show (5000000 : Int) ≤ 5000000+144 by decide) (show (1 : Int) ≤ 1+36 by decide)) fun script =>
    Pays.bind (pays_readUint (m := 4) 4 (by decide) (by decide)) fun seq =>
    Pays.pure (CTxIn.mk prevout script seq)
  exact h.mono (by decide) (by decide) (Int.le_refl _) (Int.le_refl _)

end CTxIn

namespace CTxOut

theorem reads_unserialize {o : CTxOut} (h : o.Fits) : Reads CTxOut.unserialize o.serialize o :=
  (reads_readInt h.value).bind ((reads_unserializeBytes h.script).map (Reads.pure o))

theorem unserialize_eq_ok {o : CTxOut} {s s' : Stream} (h : CTxOut.unserialize s = .ok o s') :
    o.Fits ∧ s.input = o.serialize ++ s'.input := by
  obtain ⟨value,s₁,hvalue,h⟩ := bind_eq_ok.mp h
  obtain ⟨script,s₂,hscript,h⟩ := bind_eq_ok.mp h
  obtain ⟨rfl,rfl⟩ := pure_eq_ok.mp h
  obtain ⟨hlen,hinput⟩ := unserializeBytes_eq_ok hscript
  refine ⟨⟨readInt_fits (by decide) hvalue,hlen⟩,?_⟩
  unfold CTxOut.serialize
  rw [List.append_assoc,← hinput]
  exact inverts_readInt 8 s value s₁ hvalue

theorem length_serialize (o : CTxOut) : o.serialize.length = o.getSerializeSize := by
  unfold CTxOut.serialize writeInt CTxOut.getSerializeSize scriptSerializeSize
  simp only [List.length_append,littleEndian_length,length_serializeBytes]

theorem pays_unserialize : Pays 4 CTxOut.unserialize 32 2 5000000 1 := by
  have h := Pays.bind (pays_readInt (m := 4) 8 (show (0 : Int) ≤ 5000000 by decide)
      (show (0 : Int) ≤ 1 by decide)) fun value =>
    Pays.bind ((pays_unserializeBytes (by decide)).mono (Int.le_refl 4) (Int.le_refl 1)
      (show (5000000 : Int) ≤ 5000000+(4 : Nat)*(8 : Nat) by decide)
      (show (1 : Int) ≤ 1+(8 : Nat) by decide)) fun script =>
    Pays.pure (CTxOut.mk value script)
  exact h.mono (by decide) (by decide) (Int.le_refl _) (Int.le_refl _)

end CTxOut

namespace CTransaction

theorem reads_unserialize {tx : CTransaction} (h : tx.Fits) :
    Reads CTransaction.unserialize tx.serialize tx :=
  (reads_readInt h.version).bind
    ((reads_unserializeVector (fun i hi => CTxIn.reads_unserialize (h.vin i hi)) h.inputs).bind
    ((reads_unserializeVector (fun o ho => CTxOut.reads_unserialize (h.vout o ho)) h.outputs).bind
    ((reads_readUint h.lockTime).map (Reads.pure tx))))

theorem inverts_unserialize : Inverts CTransaction.unserialize CTransaction.serialize := by
  intro s tx s' h
  obtain ⟨version,s₁,hversion,h⟩ := bind_eq_ok.mp h
  obtain ⟨vin,s₂,hvin,h⟩ := bind_eq_ok.mp h
  obtain ⟨vout,s₃,hvout,h⟩ := bind_eq_ok.mp h
  obtain ⟨time,s₄,htime,h⟩ := bind_eq_ok.mp h
  obtain ⟨rfl,rfl⟩ := pure_eq_ok.mp h
  have hinput := inverts_readInt 4 s version s₁ hversion
  have hinput₁ := (unserializeVector_eq_ok (fun _ _ _ h => (CTxIn.unserialize_eq_ok h).2) hvin).2
  have hinput₂ := (unserializeVector_eq_ok (fun _ _ _ h => (CTxOut.unserialize_eq_ok h).2) hvout).2
  have hinput₃ := (readUint_eq_ok htime).2
  unfold CTransaction.serialize
  rw [List.append_assoc,List.append_assoc,List.append_assoc,← hinput₃,← hinput₂,← hinput₁]
  exact hinput

theorem length_serialize (tx : CTransaction) : tx.serialize.length = tx.getSerializeSize := by
  unfold CTransaction.serialize writeInt CTransaction.getSerializeSize
  have hvin : tx.vin.map (fun i => i.serialize.length) = tx.vin.map CTxIn.getSerializeSize :=
    List.map_congr_left fun i _ => i.length_serialize
  have hvout : tx.vout.map (fun o => o.serialize.length) = tx.vout.map CTxOut.getSerializeSize :=
    List.map_congr_left fun o _ => o.length_serialize
  simp only [List.length_append,littleEndian_length,length_serializeVector,hvin,hvout]
  omega

/-- A reader that fails may have reserved a chunk of a vector and a block of a script. -/
theorem pays_unserialize : Pays 4 CTransaction.unserialize 0 0 10000000 3 := by
  have hvin : Pays 4 (unserializeVector 72 (by decide) CTxIn.unserialize) 0 0 10000000 3 :=
    pays_unserializeVector CTxIn.pays_unserialize (by decide) (by decide) (by decide) (by decide)
  have hvout : Pays 4 (unserializeVector 32 (by decide) CTxOut.unserialize) 0 0 10000000 3 :=
    pays_unserializeVector CTxOut.pays_unserialize (by decide) (by decide) (by decide) (by decide)
  have h := Pays.bind (pays_readInt (m := 4) 4 (show (0 : Int) ≤ 10000000 by decide)
      (show (0 : Int) ≤ 3 by decide)) fun version =>
    Pays.bind (hvin.mono (Int.le_refl _) (Int.le_refl _)
      (show (10000000 : Int) ≤ 10000000+(4 : Nat)*(4 : Nat) by decide)
      (show (3 : Int) ≤ 3+(4 : Nat) by decide)) fun vin =>
    Pays.bind (hvout.mono (Int.le_refl _) (Int.le_refl _)
      (show (10000000 : Int) ≤ 10000000+(4 : Nat)*(4 : Nat)+0 by decide)
      (show (3 : Int) ≤ 3+(4 : Nat)+0 by decide)) fun vout =>
    Pays.bind (pays_readUint (m := 4) 4 (by decide) (by decide)) fun time =>
    Pays.pure (CTransaction.mk version vin vout time)
  exact h.mono (by decide) (by decide) (Int.le_refl _) (Int.le_refl _)

end CTransaction

/-- Transactions are read back from what they are written as, and from nothing else. The
reader does not begin more rounds than it has bytes, apart from the last three, and what it
reserves is paid for by the bytes that it took, apart from a chunk of a vector and a block
of a script. -/
theorem transaction_codec :
    (∀ tx : CTransaction, tx.Fits →
      Reads CTransaction.unserialize tx.serialize tx ∧
        tx.serialize.length = tx.getSerializeSize) ∧
    (∀ s tx s', CTransaction.unserialize s = .ok tx s' → s.input = tx.serialize ++ s'.input) ∧
    ∀ input : List UInt8, match CTransaction.unserialize ⟨input,0,0⟩ with
      | .ok _ s' => s'.reserved+4*s'.input.length ≤ 4*input.length ∧
          s'.rounds+s'.input.length ≤ input.length
      | .error _ s' => s'.reserved+4*s'.input.length ≤ 4*input.length+10000000 ∧
          s'.rounds+s'.input.length ≤ input.length+3 := by
  refine ⟨fun tx h => ⟨CTransaction.reads_unserialize h,tx.length_serialize⟩,
    CTransaction.inverts_unserialize,fun input => ?_⟩
  have hpays := CTransaction.pays_unserialize ⟨input,0,0⟩
  cases hrun : CTransaction.unserialize ⟨input,0,0⟩ with
  | ok tx s' =>
    simp only [hrun,Stream.memory,Stream.effort] at hpays ⊢
    omega
  | error e s' =>
    simp only [hrun,Stream.memory,Stream.effort] at hpays ⊢
    omega

/-- Nine bytes that announce `MAX_SIZE` inputs make the reader reserve a chunk of them. -/
theorem transaction_prefix_reserves : ∃ input s',
    CTransaction.unserialize ⟨input,0,0⟩ = .error .endOfData s' ∧ input.length < s'.reserved := by
  have hstop : (match CTransaction.unserialize ⟨[1,0,0,0,254,0,0,0,2],0,0⟩ with
      | .error e s' => decide (e = .endOfData ∧ 9 < s'.reserved)
      | .ok _ _ => false) = true := by
    decide +kernel
  cases hrun : CTransaction.unserialize ⟨[1,0,0,0,254,0,0,0,2],0,0⟩ with
  | ok tx s' =>
    rw [hrun] at hstop
    contradiction
  | error e s' =>
    rw [hrun] at hstop
    obtain ⟨rfl,hlt⟩ := of_decide_eq_true hstop
    exact ⟨_,s',hrun,hlt⟩

end Anoncoin
