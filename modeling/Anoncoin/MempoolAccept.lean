import Anoncoin.Mempool

/-!
`AcceptToMemoryPool` of main.cpp, and when a transaction is taken into the pool, is known
already or misses a parent.
-/

set_option autoImplicit false

namespace Anoncoin
open Lib

def MEMPOOL_HEIGHT : Nat := 0x7FFFFFFF

def MAX_TX_SIGOPS : Nat := MAX_BLOCK_SIGOPS/5

/-- What acceptance takes from outside the pool and the coins: the network, the standard
forms of outputs and inputs, the clock and the height of the active chain. The fee and
priority rules count with floating point numbers and a rate that decays with the clock, so
they may answer differently at each call. -/
structure RelayPolicy where
  isMainNetwork : Bool
  isStandardTx : CTransaction → Option String
  areInputsStandard : CTransaction → CCoinsView → Bool
  checkFees : Nat → CTransaction → CCoinsView → Int → Nat → Option String
  getTime : Nat → Int
  chainHeight : Nat

/-- How `AcceptToMemoryPool` returns false: alone, with `*pfMissingInputs` set, or after a
check that failed. -/
inductive NotAccepted where
  | known
  | missingInputs
  | failed (e : Failure)
  deriving DecidableEq, Repr

theorem CCoinsView.getCoins_cache_fst (l : CCoinsViewCache) (base : CCoinsView) (txid : Uint256) :
    ((CCoinsView.cache l base).getCoins txid).1 =
      match l.cacheCoins.lookup txid with
      | some e => some e.coins
      | none => (base.getCoins txid).1 := by
  rw [getCoins]
  cases l.cacheCoins.lookup txid with
  | some e => rfl
  | none =>
    cases base.getCoins txid with
    | mk r base' => cases r <;> rfl

/-- Reading a view fills its caches and changes no later answer, which is why the tip can
be read below without being passed on. -/
theorem CCoinsView.getCoins_getCoins (v : CCoinsView) (s t : Uint256) :
    ((v.getCoins s).2.getCoins t).1 = (v.getCoins t).1 := by
  induction v with
  | db d => rfl
  | cache l base ih =>
    cases hs : l.cacheCoins.lookup s with
    | some e => simp only [getCoins,hs]
    | none =>
      cases hr : base.getCoins s with
      | mk r base' =>
        rw [hr] at ih
        cases r with
        | none =>
          have hread : (CCoinsView.cache l base).getCoins s = (none,.cache l base') := by
            simp only [getCoins,hs,hr]
          rw [hread,getCoins_cache_fst,getCoins_cache_fst,ih]
        | some tmp =>
          have hread : (CCoinsView.cache l base).getCoins s = (some tmp,.cache { l with
              cacheCoins := l.cacheCoins.insert s ⟨tmp,false,tmp.isPruned⟩ } base') := by
            simp only [getCoins,hs,hr]
          rw [hread,getCoins_cache_fst,getCoins_cache_fst,ih]
          by_cases hts : t = s
          · rw [hts,AList.lookup_insert,hs,hr]
          · rw [AList.lookup_insert_ne hts]

namespace CTxMemPool

/-- `CCoinsViewMemPool::GetCoins`, over the tip. -/
def getCoins (pool : CTxMemPool) (tip : CCoinsView) (txid : Uint256) : Option CCoins :=
  match pool.lookup txid with
  | some tx => some (CCoins.fromTx tx MEMPOOL_HEIGHT)
  | none => (tip.getCoins txid).1.filter fun coins => !coins.isPruned

/-- `view.HaveCoins`, on the entries that the view has cached so far. -/
def haveCoins (pool : CTxMemPool) (tip : CCoinsView) (view : CCoinsMap) (txid : Uint256) :
    Bool × CCoinsMap :=
  match view.lookup txid with
  | some e => (!e.coins.vout.isEmpty,view)
  | none =>
      match pool.getCoins tip txid with
      | none => (false,view)
      | some tmp => (!tmp.vout.isEmpty,view.insert txid ⟨tmp,false,tmp.isPruned⟩)

/-- The loop that finds out about missing inputs. -/
def haveParents (pool : CTxMemPool) (tip : CCoinsView) (view : CCoinsMap) :
    List CTxIn → Bool × CCoinsMap
  | [] => (true,view)
  | txin :: rest =>
      match pool.haveCoins tip view txin.prevout.hash with
      | (true,view) => haveParents pool tip view rest
      | (false,view) => (false,view)

end CTxMemPool

/-- The view when every parent is cached: from there on its backend is asked for the best
block only, and then replaced by the dummy. -/
def detachedView (tip : CCoinsView) (view : CCoinsMap) : CCoinsView :=
  .cache ⟨false,tip.getBestBlock.1,view⟩ (.db ⟨∅,none⟩)

namespace RelayPolicy

/-- The checks that look at the transaction alone. -/
def checkLoose (policy : RelayPolicy) (tx : CTransaction) : Validation Unit := do
  checkTransaction tx
  ensure (!tx.isCoinBase) (.dos 100 "coinbase")
  rejectWith (if policy.isMainNetwork then (policy.isStandardTx tx).map fun reason => (0,reason)
    else none)

end RelayPolicy

namespace NodeEnv
variable (env : NodeEnv) (policy : RelayPolicy)

/-- The checks against the coins, and the entry that is made of them. -/
def checkFunded (call : Nat) (tx : CTransaction) (view : CCoinsView) :
    Validation CTxMemPoolEntry := do
  let (have_,view) := view.haveInputs tx
  ensure have_ (.dos 0 "bad-txns-inputs-spent")
  let (nValueIn,view) ← view.getValueIn tx
  ensure (!policy.isMainNetwork || policy.areInputsStandard tx view) .error
  let (nP2SH,view) ← env.getP2SHSigOpCount tx view
  ensure (!decide (MAX_TX_SIGOPS < uint32 (env.getLegacySigOpCount tx+nP2SH)))
    (.dos 0 "bad-txns-too-many-sigops")
  let nValueOut ← orThrow tx.getValueOut .thrown
  let nFees ← orThrow (addInt64 nValueIn (-nValueOut)) .overflow
  let nSize := tx.getSerializeSize
  rejectWith ((policy.checkFees call tx view nFees nSize).map fun reason => (0,reason))
  let inline : NodeEnv := { env with scriptCheckThreads := false }
  let (_,view) ← inline.checkInputs tx view true (SCRIPT_VERIFY_P2SH+SCRIPT_VERIFY_STRICTENC)
  let _ ← inline.checkInputs tx view true SCRIPT_VERIFY_P2SH
  pure ⟨tx,nFees,nSize,policy.getTime call,policy.chainHeight⟩

/-- `AcceptToMemoryPool` up to the entry that `addUnchecked` stores under the hash. -/
def acceptToMemoryPool (pool : CTxMemPool) (tip : CCoinsView) (call : Nat) (tx : CTransaction) :
    Except NotAccepted CTxMemPoolEntry := do
  (policy.checkLoose tx).mapError .failed
  let hash := env.getTxHash tx
  ensure (!pool.exists_ hash) .known
  ensure (!tx.vin.any fun txin => (pool.mapNextTx.lookup txin.prevout).isSome) .known
  let (have_,view) := pool.haveCoins tip ∅ hash
  ensure (!have_) .known
  let (haveAll,view) := pool.haveParents tip view tx.vin
  ensure haveAll .missingInputs
  (env.checkFunded policy call tx (detachedView tip view)).mapError .failed

end NodeEnv

namespace CTxMemPool

/-- What the view has cached is what the pool and the tip answer. -/
def Mirrors (pool : CTxMemPool) (tip : CCoinsView) (view : CCoinsMap) : Prop :=
  ∀ h e, view.lookup h = some e → pool.getCoins tip h = some e.coins

variable {pool : CTxMemPool} {tip : CCoinsView} {view : CCoinsMap}

theorem haveCoins_spec (hv : pool.Mirrors tip view) (txid : Uint256) :
    (pool.haveCoins tip view txid).1 = (pool.getCoins tip txid).any (fun c => !c.vout.isEmpty) ∧
      pool.Mirrors tip (pool.haveCoins tip view txid).2 := by
  unfold haveCoins
  cases hl : view.lookup txid with
  | some e =>
    rw [hv txid e hl]
    exact ⟨rfl,hv⟩
  | none =>
    cases hg : pool.getCoins tip txid with
    | none => exact ⟨rfl,hv⟩
    | some tmp =>
      refine ⟨rfl,?_⟩
      intro h e he
      by_cases hh : h = txid
      · subst hh
        rw [AList.lookup_insert] at he
        rw [← Option.some.inj he]
        exact hg
      · rw [AList.lookup_insert_ne hh] at he
        exact hv h e he

theorem haveParents_missing (hv : pool.Mirrors tip view) {vin : List CTxIn} {txin : CTxIn}
    (hin : txin ∈ vin) (hnone : pool.getCoins tip txin.prevout.hash = none) :
    (pool.haveParents tip view vin).1 = false := by
  induction vin generalizing view with
  | nil => simp at hin
  | cons first rest ih =>
    obtain ⟨hans,hv'⟩ := haveCoins_spec hv first.prevout.hash
    unfold haveParents
    cases hc : pool.haveCoins tip view first.prevout.hash with
    | mk found view' =>
    rw [hc] at hans hv'
    simp only at hans hv'
    cases found with
    | false => rfl
    | true =>
      simp only
      obtain rfl | hin := List.mem_cons.mp hin
      · rw [hnone] at hans
        contradiction
      · exact ih hv' hin

/-- A record that is found outside the pool has outputs. -/
theorem getCoins_outputs {h : Uint256} {c : CCoins} (hout : pool.lookup h = none)
    (hc : pool.getCoins tip h = some c) : c.vout.isEmpty = false := by
  simp only [getCoins,hout,Option.filter_eq_some_iff] at hc
  obtain ⟨-,hp⟩ := hc
  cases hv : c.vout with
  | nil => simp [CCoins.isPruned,hv] at hp
  | cons o rest => rfl

end CTxMemPool

namespace NodeEnv
variable {env : NodeEnv} {policy : RelayPolicy} {pool : CTxMemPool} {tip : CCoinsView}
  {call : Nat} {tx : CTransaction} {entry : CTxMemPoolEntry}

/-- What the transaction, the pool and the tip have to do with each other before the parents
are looked for. -/
structure Fits (env : NodeEnv) (policy : RelayPolicy) (pool : CTxMemPool) (tip : CCoinsView)
    (tx : CTransaction) : Prop where
  loose : policy.checkLoose tx = .ok ()
  new : pool.exists_ (env.getTxHash tx) = false
  free : ∀ txin ∈ tx.vin, pool.mapNextTx.lookup txin.prevout = none
  absent : pool.getCoins tip (env.getTxHash tx) = none

theorem Fits.acceptToMemoryPool (h : Fits env policy pool tip tx) :
    env.acceptToMemoryPool policy pool tip call tx = (do
      ensure (pool.haveParents tip ∅ tx.vin).1 .missingInputs
      (env.checkFunded policy call tx
        (detachedView tip (pool.haveParents tip ∅ tx.vin).2)).mapError .failed) := by
  have hfree : (tx.vin.any fun txin => (pool.mapNextTx.lookup txin.prevout).isSome) = false := by
    simpa using h.free
  have hhave : pool.haveCoins tip ∅ (env.getTxHash tx) = (false,∅) := by
    simp [CTxMemPool.haveCoins,h.absent]
  simp only [NodeEnv.acceptToMemoryPool,h.loose,h.new,hfree,hhave]
  rfl

theorem checkFunded_tx {view : CCoinsView}
    (h : env.checkFunded policy call tx view = .ok entry) : entry.tx = tx := by
  simp only [checkFunded,bind_ok_iff,pure,Except.pure,Except.ok.injEq] at h
  obtain ⟨_,-,_,-,_,-,_,-,_,-,_,-,_,-,_,-,_,-,_,-,rfl⟩ := h
  rfl

theorem acceptToMemoryPool_ok (h : env.acceptToMemoryPool policy pool tip call tx = .ok entry) :
    Fits env policy pool tip tx ∧ entry.tx = tx := by
  simp only [NodeEnv.acceptToMemoryPool,bind_ok_iff,ensure_ok_iff,mapError_ok_iff] at h
  obtain ⟨_,hloose,_,hnew,_,hfree,_,hhave,_,-,hfunded⟩ := h
  have hnew : pool.exists_ (env.getTxHash tx) = false := by simpa using hnew
  have hhave : (pool.haveCoins tip ∅ (env.getTxHash tx)).1 = false := by simpa using hhave
  refine ⟨⟨hloose,hnew,by simpa using hfree,?_⟩,checkFunded_tx hfunded⟩
  have hmirror : pool.Mirrors tip ∅ := by
    intro h e he
    simp at he
  rw [(CTxMemPool.haveCoins_spec hmirror _).1] at hhave
  cases hg : pool.getCoins tip (env.getTxHash tx) with
  | none => rfl
  | some c =>
    have hout : pool.lookup (env.getTxHash tx) = none := by
      simpa [CTxMemPool.exists_,CTxMemPool.lookup] using hnew
    rw [hg] at hhave
    simp [CTxMemPool.getCoins_outputs hout hg] at hhave

theorem acceptToMemoryPool_known (hloose : policy.checkLoose tx = .ok ())
    (hknown : pool.exists_ (env.getTxHash tx) = true) :
    env.acceptToMemoryPool policy pool tip call tx = .error .known := by
  simp only [NodeEnv.acceptToMemoryPool,hloose,hknown]
  rfl

theorem acceptToMemoryPool_missing (h : Fits env policy pool tip tx) {txin : CTxIn}
    (hin : txin ∈ tx.vin) (hnone : pool.getCoins tip txin.prevout.hash = none) :
    env.acceptToMemoryPool policy pool tip call tx = .error .missingInputs := by
  have hmirror : pool.Mirrors tip ∅ := by
    intro h e he
    simp at he
  rw [h.acceptToMemoryPool,CTxMemPool.haveParents_missing hmirror hin hnone]
  rfl

end NodeEnv

end Anoncoin
