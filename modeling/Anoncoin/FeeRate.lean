import Anoncoin.Lib.MixedDivision
import Anoncoin.Mempool

/-!
Fee rates (amount.h, amount.cpp), the deltas of `PrioritiseTransaction` (txmempool.cpp), and the
rate that `CreateNewBlock` gives a transaction of the pool (miner.cpp).
-/

set_option autoImplicit false

namespace Anoncoin
open Lib

structure CFeeRate where
  nSatoshisPerK : Int
  deriving DecidableEq, Repr

/-- `CFeeRate(nFeePaid,nSize)` as the processor computes it: the quotient is one of `size_t`. -/
def CFeeRate.quotient (nFeePaid : Int) (nSize : Nat) : CFeeRate :=
  if nSize > 0 then ⟨mixedQuotient (2^64) (nFeePaid*1000) nSize⟩ else ⟨0⟩

/-- `CFeeRate(nFeePaid,nSize)`; `none` is an overflow of the product, which is signed. -/
def CFeeRate.ofFee (nFeePaid : Int) (nSize : Nat) : Option CFeeRate :=
  if nSize > 0 ∧ ¬(-2^63 ≤ nFeePaid*1000 ∧ nFeePaid*1000 < 2^63) then none
  else some (quotient nFeePaid nSize)

/-- What `CreateNewBlock` takes from outside of the pool, and the priorities, which are floating
point numbers. -/
structure MinerEnv (δ : Type) where
  getTxHash : CTransaction → Uint256
  nAdjustedTime : Int
  fDebug : Bool
  zero : δ
  add : δ → δ → δ
  ofInput : Int → Int → δ
  divSize : δ → Nat → δ

/-- The pool with `mapDeltas`. -/
structure MinerPool (δ : Type) where
  pool : CTxMemPool
  mapDeltas : AList fun _ : Uint256 => δ × Int

/-- The entry of a transaction, which waits as a `COrphan` when it depends on others. -/
structure TxPriority (δ : Type) where
  dPriority : δ
  feeRate : CFeeRate
  setDependsOn : List Uint256

structure InputSums (δ : Type) where
  nTotalIn : Int
  dPriority : δ
  setDependsOn : List Uint256

def LOCKTIME_THRESHOLD : Int := 500000000

def isFinalTx (tx : CTransaction) (nBlockHeight nBlockTime : Int) : Bool :=
  tx.nLockTime == 0 ||
    decide ((tx.nLockTime : Int) <
      if (tx.nLockTime : Int) < LOCKTIME_THRESHOLD then nBlockHeight else nBlockTime) ||
    tx.vin.all fun txin => txin.nSequence == 0xffffffff

def CTransaction.calculateModifiedSize (tx : CTransaction) (nTxSize : Nat) : Nat :=
  tx.vin.foldl (fun nTxSize txin =>
    let offset := 41+min 110 txin.scriptSig.length
    if offset < nTxSize then nTxSize-offset else nTxSize)
    (if nTxSize = 0 then uint32 tx.getSerializeSize else nTxSize)

section CreateNewBlock
variable {δ : Type} (env : MinerEnv δ)

def MinerPool.prioritiseTransaction (s : MinerPool δ) (hash : Uint256) (dPriorityDelta : δ)
    (nFeeDelta : Int) : Validation (MinerPool δ) := do
  let deltas := (s.mapDeltas.lookup hash).getD (env.zero,0)
  let nFee ← orThrow (addInt64 deltas.2 nFeeDelta) .overflow
  pure { s with mapDeltas := s.mapDeltas.insert hash (env.add deltas.1 dPriorityDelta,nFee) }

def MinerPool.applyDeltas (s : MinerPool δ) (hash : Uint256) (dPriorityDelta : δ)
    (nFeeDelta : Int) : Validation (δ × Int) :=
  match s.mapDeltas.lookup hash with
  | none => pure (dPriorityDelta,nFeeDelta)
  | some deltas => do
      let nFee ← orThrow (addInt64 nFeeDelta deltas.2) .overflow
      pure (env.add dPriorityDelta deltas.1,nFee)

def computePriority (tx : CTransaction) (dPriorityInputs : δ) (nTxSize : Nat) : δ :=
  let nTxSize := tx.calculateModifiedSize nTxSize
  if nTxSize = 0 then env.zero else env.divSize dPriorityInputs nTxSize

/-- The loop over the inputs; without sums when one is missing. -/
def sumInputs (pool : CTxMemPool) (nHeight : Int) (sums : InputSums δ) (v : CCoinsView) :
    List CTxIn → Validation (Option (InputSums δ) × CCoinsView)
  | [] => pure (some sums,v)
  | txin :: rest =>
      match v.haveCoins txin.prevout.hash with
      | (false,v) =>
          match pool.mapTx.lookup txin.prevout.hash with
          | none => do
              ensure (!env.fDebug) .assertion
              pure (none,v)
          | some entry => do
              let txout ← orThrow entry.tx.vout[txin.prevout.n]? .outOfBounds
              let nTotalIn ← orThrow (addInt64 sums.nTotalIn txout.nValue) .overflow
              sumInputs pool nHeight { sums with
                nTotalIn := nTotalIn
                setDependsOn := sums.setDependsOn.insert txin.prevout.hash } v rest
      | (true,v) =>
          match v.accessCoins txin.prevout.hash with
          | (none,_) => throw .assertion
          | (some coins,v) => do
              let txout ← orThrow coins.vout[txin.prevout.n]? .outOfBounds
              let nTotalIn ← orThrow (addInt64 sums.nTotalIn txout.nValue) .overflow
              sumInputs pool nHeight { sums with
                nTotalIn := nTotalIn
                dPriority := env.add sums.dPriority
                  (env.ofInput txout.nValue (nHeight-coins.nHeight)) } v rest

/-- The round of the loop over the pool up to the fee as it was modified. -/
def MinerPool.modifiedFee (s : MinerPool δ) (v : CCoinsView) (nHeight : Int) (tx : CTransaction) :
    Validation (Option (δ × Int × List Uint256) × CCoinsView) := do
  if tx.isCoinBase || !isFinalTx tx nHeight env.nAdjustedTime then pure (none,v)
  else do
    let (sums,v) ← sumInputs env s.pool nHeight ⟨0,env.zero,[]⟩ v tx.vin
    match sums with
    | none => pure (none,v)
    | some sums => do
        let dPriority := computePriority env tx sums.dPriority (uint32 tx.getSerializeSize)
        let (dPriority,nTotalIn) ← s.applyDeltas env (env.getTxHash tx) dPriority sums.nTotalIn
        let nValueOut ← orThrow tx.getValueOut .thrown
        let nFee ← orThrow (addInt64 nTotalIn (-nValueOut)) .overflow
        pure (some (dPriority,nFee,sums.setDependsOn),v)

/-- The round of the loop over the pool, with the entry that it makes. -/
def MinerPool.collect (s : MinerPool δ) (v : CCoinsView) (nHeight : Int) (tx : CTransaction) :
    Validation (Option (TxPriority δ) × CCoinsView) := do
  let (found,v) ← s.modifiedFee env v nHeight tx
  match found with
  | none => pure (none,v)
  | some (dPriority,nFee,setDependsOn) => do
      let feeRate ← orThrow (CFeeRate.ofFee nFee (uint32 tx.getSerializeSize)) .overflow
      pure (some ⟨dPriority,feeRate,setDependsOn⟩,v)

variable {env} {s s' : MinerPool δ} {v v' : CCoinsView} {nHeight : Int} {tx : CTransaction}

/-- What the calls for a transaction add up to. -/
def MinerPool.feeDelta (s : MinerPool δ) (hash : Uint256) : Int :=
  ((s.mapDeltas.lookup hash).map Prod.snd).getD 0

theorem feeDelta_prioritise {hash : Uint256} {dPriorityDelta : δ} {nFeeDelta : Int}
    (h : s.prioritiseTransaction env hash dPriorityDelta nFeeDelta = .ok s') :
    s'.pool = s.pool ∧ s'.feeDelta hash = s.feeDelta hash+nFeeDelta := by
  obtain ⟨nFee,hsum,hs'⟩ := bind_ok_iff.mp h
  obtain rfl := Except.ok.inj hs'
  refine ⟨rfl,?_⟩
  have hnFee : nFee = ((s.mapDeltas.lookup hash).getD (env.zero,0)).2+nFeeDelta :=
    addInt64_eq_some (orThrow_ok_iff.mp hsum)
  have hbefore : s.feeDelta hash = ((s.mapDeltas.lookup hash).getD (env.zero,0)).2 := by
    unfold MinerPool.feeDelta
    cases s.mapDeltas.lookup hash with
    | none => rfl
    | some deltas => rfl
  rw [hbefore,← hnFee]
  simp [MinerPool.feeDelta,AList.lookup_insert]

theorem applyDeltas_ok {hash : Uint256} {dPriority : δ} {nFee : Int}
    (hfit : -2^63 ≤ nFee+s.feeDelta hash ∧ nFee+s.feeDelta hash < 2^63) :
    ∃ d, s.applyDeltas env hash dPriority nFee = .ok (d,nFee+s.feeDelta hash) := by
  unfold MinerPool.applyDeltas MinerPool.feeDelta at *
  cases hdeltas : s.mapDeltas.lookup hash with
  | none => exact ⟨dPriority,by rw [Option.map_none,Option.getD_none,Int.add_zero]; rfl⟩
  | some deltas =>
    rw [hdeltas] at hfit
    refine ⟨env.add dPriority deltas.1,?_⟩
    simp only [Option.map_some,Option.getD_some] at hfit ⊢
    rw [addInt64_of_bounds hfit.1 hfit.2]
    rfl

theorem applyDeltas_eq_ok {hash : Uint256} {dPriority d : δ} {nFee n : Int}
    (h : s.applyDeltas env hash dPriority nFee = .ok (d,n)) : n = nFee+s.feeDelta hash := by
  unfold MinerPool.applyDeltas MinerPool.feeDelta at *
  cases hdeltas : s.mapDeltas.lookup hash with
  | none =>
    rw [hdeltas] at h
    obtain ⟨-,rfl⟩ := Prod.mk.inj (Except.ok.inj h)
    simp
  | some deltas =>
    rw [hdeltas] at h
    obtain ⟨nFee',hsum,hpair⟩ := bind_ok_iff.mp h
    obtain ⟨-,rfl⟩ := Prod.mk.inj (Except.ok.inj hpair)
    rw [addInt64_eq_some (orThrow_ok_iff.mp hsum)]
    rfl

/-- The modified fee, taken apart: nothing but the sum of the deltas comes from `mapDeltas`. -/
theorem modifiedFee_eq_ok {dPriority : δ} {nFee : Int} {setDependsOn : List Uint256}
    (h : s.modifiedFee env v nHeight tx = .ok (some (dPriority,nFee,setDependsOn),v')) :
    (tx.isCoinBase || !isFinalTx tx nHeight env.nAdjustedTime) = false ∧ ∃ sums nValueOut,
      sumInputs env s.pool nHeight ⟨0,env.zero,[]⟩ v tx.vin = .ok (some sums,v') ∧
        sums.setDependsOn = setDependsOn ∧ tx.getValueOut = some nValueOut ∧
          nFee = sums.nTotalIn+s.feeDelta (env.getTxHash tx)-nValueOut := by
  unfold MinerPool.modifiedFee at h
  split at h
  · obtain ⟨hnone,-⟩ := Prod.mk.inj (Except.ok.inj h)
    contradiction
  · rename_i hcond
    obtain ⟨⟨found,w⟩,hsums,h⟩ := bind_ok_iff.mp h
    cases found with
    | none =>
      obtain ⟨hnone,-⟩ := Prod.mk.inj (Except.ok.inj h)
      contradiction
    | some sums =>
      obtain ⟨⟨d,nTotalIn⟩,hdeltas,h⟩ := bind_ok_iff.mp h
      obtain ⟨nValueOut,hout,h⟩ := bind_ok_iff.mp h
      obtain ⟨nFee',hfee,h⟩ := bind_ok_iff.mp h
      obtain ⟨hsome,rfl⟩ := Prod.mk.inj (Except.ok.inj h)
      obtain ⟨rfl,hrest⟩ := Prod.mk.inj (Option.some.inj hsome)
      obtain ⟨rfl,hdeps⟩ := Prod.mk.inj hrest
      refine ⟨by simpa using hcond,sums,nValueOut,hsums,hdeps,orThrow_ok_iff.mp hout,?_⟩
      rw [addInt64_eq_some (orThrow_ok_iff.mp hfee),applyDeltas_eq_ok hdeltas]
      omega

theorem modifiedFee_ok {sums : InputSums δ} {nValueOut nFee : Int}
    (hcond : (tx.isCoinBase || !isFinalTx tx nHeight env.nAdjustedTime) = false)
    (hsums : sumInputs env s.pool nHeight ⟨0,env.zero,[]⟩ v tx.vin = .ok (some sums,v'))
    (hout : tx.getValueOut = some nValueOut)
    (hfee : nFee = sums.nTotalIn+s.feeDelta (env.getTxHash tx)-nValueOut)
    (hfit : -2^62 ≤ nFee ∧ nFee < 2^62) :
    ∃ d, s.modifiedFee env v nHeight tx = .ok (some (d,nFee,sums.setDependsOn),v') := by
  have hrange := (moneyRange_iff _).mp (CTransaction.getValueOut_range hout)
  simp only [MAX_MONEY,COIN] at hrange
  obtain ⟨d,hdeltas⟩ : ∃ d, s.applyDeltas env (env.getTxHash tx)
      (computePriority env tx sums.dPriority (uint32 tx.getSerializeSize)) sums.nTotalIn =
      .ok (d,sums.nTotalIn+s.feeDelta (env.getTxHash tx)) := applyDeltas_ok (by omega)
  have hsum : addInt64 (sums.nTotalIn+s.feeDelta (env.getTxHash tx)) (-nValueOut) = some nFee := by
    rw [addInt64_of_bounds (by omega) (by omega),hfee,Int.sub_eq_add_neg]
  refine ⟨d,?_⟩
  unfold MinerPool.modifiedFee
  rw [if_neg (by simp [hcond]),hsums]
  simp only [ok_bind]
  rw [hdeltas,hout]
  simp only [ok_bind,orThrow_some]
  rw [hsum]
  rfl

theorem collect_ok {dPriority : δ} {nFee : Int} {setDependsOn : List Uint256} {rate : CFeeRate}
    (h : s.modifiedFee env v nHeight tx = .ok (some (dPriority,nFee,setDependsOn),v'))
    (hrate : CFeeRate.ofFee nFee (uint32 tx.getSerializeSize) = some rate) :
    s.collect env v nHeight tx = .ok (some ⟨dPriority,rate,setDependsOn⟩,v') := by
  unfold MinerPool.collect
  rw [h]
  simp only [ok_bind]
  rw [hrate]
  rfl

end CreateNewBlock

section Rates

/-- Amounts of money with a sign. -/
def InMoney (nFee : Int) : Prop := -MAX_MONEY ≤ nFee ∧ nFee ≤ MAX_MONEY

variable {nFee nFee' : Int} {n : Nat}

theorem ofFee_of_inMoney (h : InMoney nFee) (hn : 0 < n) :
    CFeeRate.ofFee nFee n = some ⟨mixedQuotient (2^64) (nFee*1000) n⟩ := by
  unfold InMoney MAX_MONEY COIN at h
  unfold CFeeRate.ofFee CFeeRate.quotient
  rw [if_neg (by omega),if_pos hn]

/-- When `CFeeRate` keeps the sign of a fee. -/
theorem ofFee_signed_iff (h : InMoney nFee) (hn : 0 < n) :
    CFeeRate.ofFee nFee n = some ⟨(nFee*1000).tdiv n⟩ ↔
      0 ≤ nFee ∨ n = 1 ∨ 2^64+nFee*1000 < n := by
  have hbounds := h
  unfold InMoney MAX_MONEY COIN at hbounds
  rw [ofFee_of_inMoney h hn,Option.some.injEq,CFeeRate.mk.injEq,
    mixedQuotient_eq_tdiv_iff hn (by push_cast; omega) (by push_cast; omega)]
  push_cast
  omega

theorem ofFee_le_iff (h : InMoney nFee) (h' : InMoney nFee') (hle : nFee ≤ nFee') (hn : 0 < n) :
    (∃ r r', CFeeRate.ofFee nFee n = some r ∧ CFeeRate.ofFee nFee' n = some r' ∧
      r.nSatoshisPerK ≤ r'.nSatoshisPerK) ↔
      0 ≤ nFee ∨ nFee' < 0 ∨ n = 1 ∨ 2^64+nFee*1000 < n := by
  have hbounds := h
  have hbounds' := h'
  unfold InMoney MAX_MONEY COIN at hbounds hbounds'
  have hquotient := mixedQuotient_le_iff (m := 2^64) (a := nFee*1000) (b := nFee'*1000) hn
    (by omega) (by push_cast; omega) (by push_cast; omega) (by push_cast; omega)
  rw [ofFee_of_inMoney h hn,ofFee_of_inMoney h' hn]
  simp only [Option.some.injEq,exists_and_left,exists_eq_left']
  rw [hquotient]
  push_cast
  omega

variable {δ : Type} {env : MinerEnv δ} {s s' : MinerPool δ} {v v' : CCoinsView} {nHeight : Int}
  {tx : CTransaction}

/-- When a call that lowers the delta of a transaction does not raise its rate. -/
theorem collect_prioritise {dPriorityDelta dPriority : δ} {nFeeDelta : Int}
    {setDependsOn : List Uint256} (hdelta : nFeeDelta ≤ 0)
    (hmodified : s.modifiedFee env v nHeight tx = .ok (some (dPriority,nFee,setDependsOn),v'))
    (h : InMoney nFee) (h' : InMoney (nFee+nFeeDelta))
    (hcall : s.prioritiseTransaction env (env.getTxHash tx) dPriorityDelta nFeeDelta = .ok s') :
    ∃ e e', s.collect env v nHeight tx = .ok (some e,v') ∧
      s'.collect env v nHeight tx = .ok (some e',v') ∧
        (e'.feeRate.nSatoshisPerK ≤ e.feeRate.nSatoshisPerK ↔
          0 ≤ nFee+nFeeDelta ∨ nFee < 0 ∨ uint32 tx.getSerializeSize ≤ 1) := by
  obtain ⟨hcond,sums,nValueOut,hsums,rfl,hout,hfee⟩ := modifiedFee_eq_ok hmodified
  obtain ⟨hpool,hsum⟩ := feeDelta_prioritise hcall
  have hbounds := h'
  unfold InMoney MAX_MONEY COIN at hbounds
  obtain ⟨d,hmodified'⟩ : ∃ d, s'.modifiedFee env v nHeight tx =
      .ok (some (d,nFee+nFeeDelta,sums.setDependsOn),v') :=
    modifiedFee_ok hcond (by rw [hpool]; exact hsums) hout (by rw [hsum]; omega) (by omega)
  have hsize : uint32 tx.getSerializeSize < 2^32 := Nat.mod_lt _ (by decide)
  by_cases hn : 0 < uint32 tx.getSerializeSize
  · have hiff := ofFee_le_iff h' h (by omega) hn
    rw [ofFee_of_inMoney h' hn,ofFee_of_inMoney h hn] at hiff
    simp only [Option.some.injEq,exists_and_left,exists_eq_left'] at hiff
    refine ⟨_,_,collect_ok hmodified (ofFee_of_inMoney h hn),
      collect_ok hmodified' (ofFee_of_inMoney h' hn),?_⟩
    simp only
    rw [hiff]
    omega
  · have hzero : ∀ nFee, CFeeRate.ofFee nFee (uint32 tx.getSerializeSize) = some ⟨0⟩ :=
      fun nFee => by rw [CFeeRate.ofFee,CFeeRate.quotient,if_neg (fun h => hn h.1),if_neg hn]
    refine ⟨_,_,collect_ok hmodified (hzero _),collect_ok hmodified' (hzero _),?_⟩
    simp only [Int.le_refl,true_iff]
    omega

/-- Fee rates keep the sign and the order of fees, and the order of the deltas, exactly where no
negative fee is divided as an unsigned number. -/
theorem fee_rates_ordered (env : MinerEnv δ) :
    (∀ nFee n, InMoney nFee → 0 < n →
      (CFeeRate.ofFee nFee n = some ⟨(nFee*1000).tdiv n⟩ ↔
        0 ≤ nFee ∨ n = 1 ∨ 2^64+nFee*1000 < n)) ∧
    (∀ nFee nFee' n, InMoney nFee → InMoney nFee' → nFee ≤ nFee' → 0 < n →
      ((∃ r r', CFeeRate.ofFee nFee n = some r ∧ CFeeRate.ofFee nFee' n = some r' ∧
        r.nSatoshisPerK ≤ r'.nSatoshisPerK) ↔
          0 ≤ nFee ∨ nFee' < 0 ∨ n = 1 ∨ 2^64+nFee*1000 < n)) ∧
    (∀ (s s' : MinerPool δ) v v' nHeight tx dPriorityDelta nFeeDelta dPriority nFee setDependsOn,
      nFeeDelta ≤ 0 →
      s.modifiedFee env v nHeight tx = .ok (some (dPriority,nFee,setDependsOn),v') →
      InMoney nFee → InMoney (nFee+nFeeDelta) →
      s.prioritiseTransaction env (env.getTxHash tx) dPriorityDelta nFeeDelta = .ok s' →
      ∃ e e', s.collect env v nHeight tx = .ok (some e,v') ∧
        s'.collect env v nHeight tx = .ok (some e',v') ∧
          (e'.feeRate.nSatoshisPerK ≤ e.feeRate.nSatoshisPerK ↔
            0 ≤ nFee+nFeeDelta ∨ nFee < 0 ∨ uint32 tx.getSerializeSize ≤ 1)) :=
  ⟨fun _ _ h hn => ofFee_signed_iff h hn,fun _ _ _ h h' hle hn => ofFee_le_iff h h' hle hn,
    fun _ _ _ _ _ _ _ _ _ _ _ hdelta hmodified h h' hcall =>
      collect_prioritise hdelta hmodified h h' hcall⟩

/-- A fee of -1 for 250 bytes is a high rate. -/
theorem negative_fee_rate : ¬∀ nFee n, InMoney nFee → 0 < n →
    CFeeRate.ofFee nFee n = some ⟨(nFee*1000).tdiv n⟩ := by
  intro h
  have hrate := h (-1) 250 (by unfold InMoney; decide) (by decide)
  exact absurd hrate (by decide)

end Rates

end Anoncoin
