import Anoncoin.ConnectSpec
import Anoncoin.MempoolAccept
import Anoncoin.OrphanPool
import Anoncoin.Lib.Arrivals

/-!
The "tx" message of main.cpp: a transaction that is accepted makes the node try the orphans
that spend it, and one with missing inputs becomes an orphan. When the order of arrival
does not matter.
-/

set_option autoImplicit false

namespace Anoncoin
open Lib

/-- A "tx" message, with the hashes that `GetRandHash` would give for the eviction. -/
structure TxMessage where
  peer : NodeId
  fWhitelisted : Bool
  tx : CTransaction
  rand : Nat → Uint256

/-- The pools, the number of calls of `AcceptToMemoryPool`, and the transactions relayed and
the peers punished so far. -/
structure RelayState where
  pool : CTxMemPool
  orphans : OrphanPool
  calls : Nat
  relayed : List CTransaction
  punished : List (NodeId × Nat)

/-- The variables of the loop over the work queue; what was already worked off is gone
from the queue. -/
structure WorkState where
  pool : CTxMemPool
  calls : Nat
  relayed : List CTransaction
  punished : List (NodeId × Nat)
  vWorkQueue : List Uint256
  vEraseQueue : List Uint256
  setMisbehaving : List NodeId

/-- The score that `IsInvalid` gives; a failure that is no verdict stops the handler. -/
def Failure.nDoS : Failure → Validation Nat
  | .dos level _ => pure level
  | .error => pure 0
  | e => throw e

section Relay
variable (env : NodeEnv) (policy : RelayPolicy) (tip : CCoinsView)

/-- One round of the inner loop. `operator[]` would make up an orphan that the index names
and the map does not have; the model stops there. `mempool.check` only asserts and is left
out. -/
def retryOrphan (orphans : OrphanPool) (s : WorkState) (orphanHash : Uint256) :
    Validation WorkState := do
  let orphan ← orThrow (orphans.mapOrphanTransactions.lookup orphanHash) .outOfBounds
  let s := { s with vEraseQueue := s.vEraseQueue ++ [orphanHash] }
  if s.setMisbehaving.contains orphan.fromPeer then pure s else
    match env.acceptToMemoryPool policy s.pool tip s.calls orphan.tx with
    | .ok entry => pure { s with
        pool := s.pool.addUnchecked (env.getTxHash orphan.tx) entry
        calls := s.calls+1
        relayed := s.relayed ++ [orphan.tx]
        vWorkQueue := s.vWorkQueue ++ [orphanHash] }
    | .error (.failed e) => do
        let nDos ← e.nDoS
        if 0 < nDos then pure { s with
          calls := s.calls+1
          punished := s.punished ++ [(orphan.fromPeer,nDos)]
          setMisbehaving := orphan.fromPeer :: s.setMisbehaving }
        else pure { s with calls := s.calls+1 }
    | .error _ => pure { s with calls := s.calls+1 }

def retryOrphans (orphans : OrphanPool) (s : WorkState) (hashes : List Uint256) :
    Validation WorkState := hashes.foldlM (retryOrphan env policy tip orphans) s

/-- The number of orphans that are not in the pool. -/
def unaccepted (orphans : OrphanPool) (pool : CTxMemPool) : Nat :=
  orphans.mapOrphanTransactions.entries.countP fun o => !pool.exists_ (env.getTxHash o.2.tx)

end Relay

theorem CTxMemPool.exists_addUnchecked (pool : CTxMemPool) (hash h : Uint256)
    (entry : CTxMemPoolEntry) :
    (pool.addUnchecked hash entry).exists_ h = (decide (h = hash) || pool.exists_ h) := by
  unfold exists_ addUnchecked
  by_cases hh : h = hash
  · subst hh
    simp
  · simp [hh,AList.lookup_insert_ne hh]

section Measure
variable {env : NodeEnv} {policy : RelayPolicy} {tip : CCoinsView} {orphans : OrphanPool}
  {s s' : WorkState}

theorem unaccepted_addUnchecked {pool : CTxMemPool} {k : Uint256} {orphan : COrphanTx}
    (hin : orphans.mapOrphanTransactions.lookup k = some orphan)
    (hnew : pool.exists_ (env.getTxHash orphan.tx) = false) (entry : CTxMemPoolEntry) :
    unaccepted env orphans (pool.addUnchecked (env.getTxHash orphan.tx) entry) <
      unaccepted env orphans pool := by
  have hmem : ⟨k,orphan⟩ ∈ orphans.mapOrphanTransactions.entries :=
    AList.mem_lookup_iff.mp hin
  apply countP_lt_countP
  · intro o ho
    rw [CTxMemPool.exists_addUnchecked] at ho
    simp only [Bool.not_or,Bool.and_eq_true] at ho
    exact ho.2
  · exact ⟨_,hmem,by simp [hnew],by simp [CTxMemPool.exists_addUnchecked]⟩

/-- Whatever is accepted stops counting as an orphan and goes on the queue. -/
theorem retryOrphan_measure {k : Uint256} (h : retryOrphan env policy tip orphans s k = .ok s') :
    unaccepted env orphans s'.pool+s'.vWorkQueue.length ≤
      unaccepted env orphans s.pool+s.vWorkQueue.length := by
  unfold retryOrphan at h
  obtain ⟨orphan,hlookup,h⟩ := bind_ok_iff.mp h
  have hin : orphans.mapOrphanTransactions.lookup k = some orphan := by
    cases ho : orphans.mapOrphanTransactions.lookup k with
    | none => simp [ho,orThrow] at hlookup
    | some o => simpa [ho] using hlookup
  simp only at h
  split at h
  · cases h
    exact Nat.le_refl _
  · split at h
    · rename_i entry haccept
      cases h
      have hlt := unaccepted_addUnchecked hin (NodeEnv.acceptToMemoryPool_ok haccept).1.new entry
      simp only [List.length_append,List.length_singleton]
      omega
    · obtain ⟨nDos,-,h⟩ := bind_ok_iff.mp h
      split at h <;> cases h <;> exact Nat.le_refl _
    · cases h
      exact Nat.le_refl _

theorem retryOrphans_measure {hashes : List Uint256}
    (h : retryOrphans env policy tip orphans s hashes = .ok s') :
    unaccepted env orphans s'.pool+s'.vWorkQueue.length ≤
      unaccepted env orphans s.pool+s.vWorkQueue.length := by
  induction hashes generalizing s with
  | nil =>
    cases h
    exact Nat.le_refl _
  | cons k rest ih =>
    unfold retryOrphans at h
    rw [List.foldlM_cons] at h
    obtain ⟨s₁,hstep,hrest⟩ := bind_ok_iff.mp h
    exact Nat.le_trans (ih hrest) (retryOrphan_measure hstep)

end Measure

section Handler
variable (env : NodeEnv) (policy : RelayPolicy) (tip : CCoinsView)

/-- The loop over the work queue, which grows while it is worked off. -/
def processWorkQueue (orphans : OrphanPool) (s : WorkState) : Validation WorkState :=
  match _hq : s.vWorkQueue with
  | [] => pure s
  | hash :: rest =>
      match _hr : retryOrphans env policy tip orphans { s with vWorkQueue := rest }
        ((orphans.mapOrphanTransactionsByPrev.lookup hash).getD []) with
      | .error e => throw e
      | .ok s' => processWorkQueue orphans s'
  termination_by unaccepted env orphans s.pool+s.vWorkQueue.length
  decreasing_by
    have hle := retryOrphans_measure _hr
    rw [_hq,List.length_cons]
    simp only at hle
    omega

/-- The handler of the message. -/
def processTx (nMaxOrphanTx : Nat) (s : RelayState) (m : TxMessage) : Validation RelayState :=
  let hash := env.getTxHash m.tx
  let relayed := if m.fWhitelisted then s.relayed ++ [m.tx] else s.relayed
  match env.acceptToMemoryPool policy s.pool tip s.calls m.tx with
  | .ok entry => do
      let w ← processWorkQueue env policy tip s.orphans ⟨s.pool.addUnchecked hash entry,s.calls+1,
        s.relayed ++ [m.tx],s.punished,[hash],[hash],[]⟩
      pure ⟨w.pool,w.vEraseQueue.foldl OrphanPool.eraseOrphanTx s.orphans,w.calls,w.relayed,
        w.punished⟩
  | .error .missingInputs => do
      let (_,orphans) ← orThrow ((s.orphans.addOrphanTx env.getTxHash m.tx m.peer).2.limitOrphanTxSize
        nMaxOrphanTx m.rand 0) .outOfBounds
      pure { s with orphans := orphans, calls := s.calls+1 }
  | .error .known => pure { s with calls := s.calls+1, relayed := relayed }
  | .error (.failed e) => do
      let nDoS ← e.nDoS
      pure { s with
        calls := s.calls+1
        relayed := relayed
        punished := if 0 < nDoS then s.punished ++ [(m.peer,nDoS)] else s.punished }

def processTxs (nMaxOrphanTx : Nat) (s : RelayState) (messages : List TxMessage) :
    Validation RelayState := messages.foldlM (processTx env policy tip nMaxOrphanTx) s

end Handler

namespace CTxMemPool

/-- The pool after the entries were added, each under the hash of its transaction. -/
def addAll (env : NodeEnv) (pool : CTxMemPool) (entries : List CTxMemPoolEntry) : CTxMemPool :=
  entries.foldl (fun pool entry => pool.addUnchecked (env.getTxHash entry.tx) entry) pool

variable {env : NodeEnv} {pool : CTxMemPool} {tip : CCoinsView}

theorem addAll_append (entries entries' : List CTxMemPoolEntry) :
    pool.addAll env (entries ++ entries') = (pool.addAll env entries).addAll env entries' :=
  List.foldl_append

theorem addAll_snoc (entries : List CTxMemPoolEntry) (entry : CTxMemPoolEntry) :
    pool.addAll env (entries ++ [entry]) =
      (pool.addAll env entries).addUnchecked (env.getTxHash entry.tx) entry := by
  rw [addAll_append]
  rfl

theorem exists_addAll (entries : List CTxMemPoolEntry) (h : Uint256) :
    (pool.addAll env entries).exists_ h = true ↔
      pool.exists_ h = true ∨ ∃ e ∈ entries, env.getTxHash e.tx = h := by
  induction entries using List.reverseRecOn with
  | nil => simp [addAll]
  | append_singleton entries e ih =>
    rw [addAll_snoc,exists_addUnchecked,Bool.or_eq_true,ih]
    simp only [decide_eq_true_eq,List.mem_append,List.mem_singleton]
    constructor
    · rintro (rfl | h | ⟨e',he',h⟩)
      · exact .inr ⟨e,.inr rfl,rfl⟩
      · exact .inl h
      · exact .inr ⟨e',.inl he',h⟩
    · rintro (h | ⟨e',he' | rfl,h⟩)
      · exact .inr (.inl h)
      · exact .inr (.inr ⟨e',he',h⟩)
      · exact .inl h.symm

theorem getCoins_eq_none {h : Uint256} : pool.getCoins tip h = none ↔
    pool.exists_ h = false ∧ ((tip.getCoins h).1.filter fun coins => !coins.isPruned) = none := by
  unfold getCoins exists_ lookup
  cases pool.mapTx.lookup h with
  | none => simp
  | some e => simp

/-- Added transactions are all that is new in the coins. -/
theorem getCoins_addAll (entries : List CTxMemPoolEntry) (h : Uint256) :
    (pool.addAll env entries).getCoins tip h = none ↔
      pool.getCoins tip h = none ∧ ∀ e ∈ entries, env.getTxHash e.tx ≠ h := by
  rw [getCoins_eq_none,getCoins_eq_none,← Bool.not_eq_true,exists_addAll,← Bool.not_eq_true]
  simp only [not_or,not_exists,not_and]
  constructor
  · exact fun ⟨⟨hp,he⟩,ht⟩ => ⟨⟨hp,ht⟩,he⟩
  · exact fun ⟨⟨hp,ht⟩,he⟩ => ⟨⟨hp,he⟩,ht⟩

/-- The coins of an added transaction are those of one that was added under its hash. -/
theorem getCoins_added {entries : List CTxMemPoolEntry} {h : Uint256}
    (hin : ∃ e ∈ entries, env.getTxHash e.tx = h) :
    ∃ e ∈ entries, env.getTxHash e.tx = h ∧
      (pool.addAll env entries).getCoins tip h = some (CCoins.fromTx e.tx MEMPOOL_HEIGHT) := by
  induction entries using List.reverseRecOn with
  | nil => simp at hin
  | append_singleton entries last ih =>
    rw [addAll_snoc]
    by_cases hlast : env.getTxHash last.tx = h
    · refine ⟨last,by simp,hlast,?_⟩
      simp [getCoins,lookup,addUnchecked,hlast]
    · obtain ⟨e,he,heq⟩ := hin
      have he : e ∈ entries := by
        obtain he | he := List.mem_append.mp he
        · exact he
        · exact absurd (List.mem_singleton.mp he ▸ heq) hlast
      obtain ⟨e',he',heq',hcoins⟩ := ih ⟨e,he,heq⟩
      refine ⟨e',List.mem_append_left _ he',heq',?_⟩
      rw [← hcoins]
      simp [getCoins,lookup,addUnchecked,AList.lookup_insert_ne (Ne.symm hlast)]

theorem getCoins_notAdded {entries : List CTxMemPoolEntry} {h : Uint256}
    (hno : ∀ e ∈ entries, env.getTxHash e.tx ≠ h) :
    (pool.addAll env entries).getCoins tip h = pool.getCoins tip h := by
  induction entries using List.reverseRecOn with
  | nil => rfl
  | append_singleton entries last ih =>
    have hlast : h ≠ env.getTxHash last.tx := Ne.symm (hno last (by simp))
    rw [addAll_snoc,← ih fun e he => hno e (List.mem_append_left _ he)]
    simp [getCoins,lookup,addUnchecked,AList.lookup_insert_ne hlast]

theorem markInputs_other {hash : Uint256} {mapNextTx : AList fun _ : COutPoint => CInPoint} {i : Nat}
    {vin : List CTxIn} {out : COutPoint} (hout : ∀ txin ∈ vin, txin.prevout ≠ out) :
    (markInputs hash mapNextTx i vin).lookup out = mapNextTx.lookup out := by
  induction vin generalizing mapNextTx i with
  | nil => rfl
  | cons txin rest ih =>
    have hne : out ≠ txin.prevout := Ne.symm (hout txin (by simp))
    rw [markInputs,ih fun x hx => hout x (by simp [hx]),AList.lookup_insert_ne hne]

theorem addAll_other {entries : List CTxMemPoolEntry} {out : COutPoint}
    (hout : ∀ e ∈ entries, ∀ txin ∈ e.tx.vin, txin.prevout ≠ out) :
    (pool.addAll env entries).mapNextTx.lookup out = pool.mapNextTx.lookup out := by
  induction entries using List.reverseRecOn with
  | nil => rfl
  | append_singleton entries last ih =>
    rw [addAll_snoc,← ih fun e he => hout e (List.mem_append_left _ he)]
    exact markInputs_other (hout last (by simp))

theorem markInputs_free {hash : Uint256} {mapNextTx : AList fun _ : COutPoint => CInPoint} {i : Nat}
    {vin : List CTxIn} {out : COutPoint}
    (h : (markInputs hash mapNextTx i vin).lookup out = none) : mapNextTx.lookup out = none := by
  induction vin generalizing mapNextTx i with
  | nil => exact h
  | cons txin rest ih =>
    have hi := ih h
    by_cases ho : out = txin.prevout
    · subst ho
      simp at hi
    · rwa [AList.lookup_insert_ne ho] at hi

theorem addAll_free {entries : List CTxMemPoolEntry} {out : COutPoint}
    (h : (pool.addAll env entries).mapNextTx.lookup out = none) :
    pool.mapNextTx.lookup out = none := by
  induction entries using List.reverseRecOn with
  | nil => exact h
  | append_singleton entries e ih =>
    rw [addAll_snoc] at h
    exact ih (markInputs_free h)

end CTxMemPool

/-- What fits a pool with more in it fits the pool. -/
theorem NodeEnv.Fits.of_addAll {env : NodeEnv} {policy : RelayPolicy} {pool : CTxMemPool}
    {tip : CCoinsView} {tx : CTransaction} {entries : List CTxMemPoolEntry}
    (h : env.Fits policy (pool.addAll env entries) tip tx) : env.Fits policy pool tip tx where
  loose := h.loose
  new := by
    have hnew := h.new
    rw [← Bool.not_eq_true,CTxMemPool.exists_addAll,not_or] at hnew
    simpa using hnew.1
  free txin hin := CTxMemPool.addAll_free (h.free txin hin)
  absent := ((CTxMemPool.getCoins_addAll entries _).mp h.absent).1

section Family
variable (env : NodeEnv) (policy : RelayPolicy) (tip : CCoinsView) (pool₀ : CTxMemPool)

/-- One of the transactions has an input from another one. -/
def DependsOn (txs : List CTransaction) (p x : Uint256) : Prop :=
  p ∈ txs.map env.getTxHash ∧
    ∃ tx ∈ txs, env.getTxHash tx = x ∧ ∃ txin ∈ tx.vin, txin.prevout.hash = p

/-- Accepted at any time, whichever of the other transactions are in the pool as well, once
all its parents are in the pool or the tip. -/
def Acceptable (txs : List CTransaction) (tx : CTransaction) : Prop :=
  ∀ call entries, (∀ e ∈ entries, e.tx ∈ txs ∧ e.tx ≠ tx) →
    (∀ txin ∈ tx.vin, (pool₀.addAll env entries).getCoins tip txin.prevout.hash ≠ none) →
    ∃ entry, env.acceptToMemoryPool policy (pool₀.addAll env entries) tip call tx = .ok entry

/-- Transactions that can all be relayed. -/
structure Relayable (nMaxOrphanTx : Nat) (txs : List CTransaction) : Prop where
  distinct : (txs.map env.getTxHash).Nodup
  acyclic : ∀ h, ¬Relation.TransGen (DependsOn env txs) h h
  small : ∀ tx ∈ txs, tx.getSerializeSize ≤ 5000
  few : txs.length < nMaxOrphanTx
  parents : ∀ tx ∈ txs, ∀ txin ∈ tx.vin, txin.prevout.hash ∈ txs.map env.getTxHash ∨
    pool₀.getCoins tip txin.prevout.hash ≠ none
  acceptable : ∀ tx ∈ txs, Acceptable env policy tip pool₀ txs tx

end Family

section Outcomes
variable {env : NodeEnv} {policy : RelayPolicy} {tip : CCoinsView} {pool₀ : CTxMemPool}
  {nMaxOrphanTx : Nat} {txs : List CTransaction} {tx : CTransaction}
  {entries : List CTxMemPoolEntry}

theorem Relayable.hash_inj (h : Relayable env policy tip pool₀ nMaxOrphanTx txs)
    {tx tx' : CTransaction} (hin : tx ∈ txs) (hin' : tx' ∈ txs)
    (heq : env.getTxHash tx = env.getTxHash tx') : tx = tx' :=
  List.inj_on_of_nodup_map h.distinct hin hin' heq

/-- Entries for all the transactions but one. -/
def othersOf (txs : List CTransaction) (tx : CTransaction) : List CTxMemPoolEntry :=
  (txs.filter fun tx' => tx' ≠ tx).map fun tx' => ⟨tx',0,0,0,0⟩

theorem mem_othersOf {e : CTxMemPoolEntry} (h : e ∈ othersOf txs tx) : e.tx ∈ txs ∧ e.tx ≠ tx := by
  simp only [othersOf,List.mem_map,List.mem_filter,decide_eq_true_eq] at h
  obtain ⟨tx',hin,rfl⟩ := h
  exact hin

/-- None is its own parent, so with all the others added no parent is missing. -/
theorem Relayable.fits (h : Relayable env policy tip pool₀ nMaxOrphanTx txs) (hin : tx ∈ txs)
    (hentries : ∀ e ∈ entries, e.tx ∈ txs ∧ e.tx ≠ tx) :
    env.Fits policy (pool₀.addAll env entries) tip tx := by
  have hall : ∀ e ∈ entries ++ othersOf txs tx, e.tx ∈ txs ∧ e.tx ≠ tx := by
    intro e he
    obtain he | he := List.mem_append.mp he
    · exact hentries e he
    · exact mem_othersOf he
  obtain ⟨entry,haccept⟩ := h.acceptable tx hin 0 _ hall (by
    intro txin htxin hnone
    obtain ⟨hpool,hothers⟩ := (CTxMemPool.getCoins_addAll _ _).mp hnone
    obtain hp | hp := h.parents tx hin txin htxin
    · obtain ⟨tx',hin',hhash⟩ := List.mem_map.mp hp
      have hne : tx' ≠ tx := by
        rintro rfl
        exact h.acyclic _ (.single ⟨hp,tx',hin,hhash,txin,htxin,rfl⟩)
      have hmem : (⟨tx',0,0,0,0⟩ : CTxMemPoolEntry) ∈ othersOf txs tx := by
        simp [othersOf,hin',hne]
      exact hothers _ (List.mem_append_right _ hmem) hhash
    · exact hp hpool)
  have hfits := (NodeEnv.acceptToMemoryPool_ok haccept).1
  rw [CTxMemPool.addAll_append] at hfits
  exact hfits.of_addAll

theorem Relayable.fits_first (h : Relayable env policy tip pool₀ nMaxOrphanTx txs)
    (hin : tx ∈ txs) : env.Fits policy pool₀ tip tx := by
  have hnone : ∀ e ∈ ([] : List CTxMemPoolEntry), e.tx ∈ txs ∧ e.tx ≠ tx := by simp
  exact h.fits hin hnone

theorem entries_others (hentries : ∀ e ∈ entries, e.tx ∈ txs)
    (hnew : ¬∃ e ∈ entries, env.getTxHash e.tx = env.getTxHash tx) :
    ∀ e ∈ entries, e.tx ∈ txs ∧ e.tx ≠ tx := by
  intro e he
  exact ⟨hentries e he,fun heq => hnew ⟨e,he,by rw [heq]⟩⟩

variable (call : Nat)

theorem Relayable.accept_known (h : Relayable env policy tip pool₀ nMaxOrphanTx txs)
    (hin : tx ∈ txs) (hold : ∃ e ∈ entries, env.getTxHash e.tx = env.getTxHash tx) :
    env.acceptToMemoryPool policy (pool₀.addAll env entries) tip call tx = .error .known := by
  apply NodeEnv.acceptToMemoryPool_known (h.fits_first hin).loose
  exact (CTxMemPool.exists_addAll entries _).mpr (.inr hold)

theorem Relayable.accept_ok (h : Relayable env policy tip pool₀ nMaxOrphanTx txs)
    (hin : tx ∈ txs) (hentries : ∀ e ∈ entries, e.tx ∈ txs)
    (hnew : ¬∃ e ∈ entries, env.getTxHash e.tx = env.getTxHash tx)
    (hneeds : ∀ p, DependsOn env txs p (env.getTxHash tx) → ∃ e ∈ entries, env.getTxHash e.tx = p) :
    ∃ entry, env.acceptToMemoryPool policy (pool₀.addAll env entries) tip call tx = .ok entry ∧
      entry.tx = tx := by
  obtain ⟨entry,haccept⟩ := h.acceptable tx hin call entries (entries_others hentries hnew) (by
    intro txin htxin hnone
    obtain ⟨hpool,hno⟩ := (CTxMemPool.getCoins_addAll _ _).mp hnone
    obtain hp | hp := h.parents tx hin txin htxin
    · obtain ⟨e,he,heq⟩ := hneeds _ ⟨hp,tx,hin,rfl,txin,htxin,rfl⟩
      exact hno e he heq
    · exact hp hpool)
  exact ⟨entry,haccept,(NodeEnv.acceptToMemoryPool_ok haccept).2⟩

theorem Relayable.accept_missing (h : Relayable env policy tip pool₀ nMaxOrphanTx txs)
    (hin : tx ∈ txs) (hentries : ∀ e ∈ entries, e.tx ∈ txs)
    (hnew : ¬∃ e ∈ entries, env.getTxHash e.tx = env.getTxHash tx) {p : Uint256}
    (hp : DependsOn env txs p (env.getTxHash tx))
    (hmissing : ¬∃ e ∈ entries, env.getTxHash e.tx = p) :
    env.acceptToMemoryPool policy (pool₀.addAll env entries) tip call tx =
      .error .missingInputs := by
  obtain ⟨hpin,tx',hin',heq,txin,htxin,rfl⟩ := hp
  obtain rfl := h.hash_inj hin' hin heq
  apply NodeEnv.acceptToMemoryPool_missing (h.fits hin (entries_others hentries hnew)) htxin
  rw [CTxMemPool.getCoins_addAll]
  obtain ⟨parent,hparent,hhash⟩ := List.mem_map.mp hpin
  refine ⟨by rw [← hhash]; exact (h.fits_first hparent).absent,fun e he heq => hmissing ⟨e,he,heq⟩⟩

end Outcomes

/-- The entries added to the first pool so far are those of the hashes in the set. -/
def Holding (env : NodeEnv) (pool₀ : CTxMemPool) (txs : List CTransaction) (pool : CTxMemPool)
    (taken : Set Uint256) : Prop :=
  ∃ entries, pool = pool₀.addAll env entries ∧ (∀ e ∈ entries, e.tx ∈ txs) ∧
    ∀ h, h ∈ taken ↔ ∃ e ∈ entries, env.getTxHash e.tx = h

section Work
variable {env : NodeEnv} {policy : RelayPolicy} {tip : CCoinsView} {pool₀ pool : CTxMemPool}
  {nMaxOrphanTx : Nat} {txs : List CTransaction} {tx : CTransaction} {taken : Set Uint256}

theorem Holding.add (h : Holding env pool₀ txs pool taken) {entry : CTxMemPoolEntry}
    (hin : entry.tx ∈ txs) :
    Holding env pool₀ txs (pool.addUnchecked (env.getTxHash entry.tx) entry)
      (taken ∪ {env.getTxHash entry.tx}) := by
  obtain ⟨entries,rfl,hentries,htaken⟩ := h
  refine ⟨entries ++ [entry],(CTxMemPool.addAll_snoc _ _).symm,?_,?_⟩
  · intro e he
    obtain he | he := List.mem_append.mp he
    · exact hentries e he
    · obtain rfl := List.mem_singleton.mp he
      exact hin
  · intro x
    rw [Set.mem_union,htaken,Set.mem_singleton_iff]
    simp only [List.mem_append,List.mem_singleton]
    constructor
    · rintro (⟨e,he,heq⟩ | rfl)
      · exact ⟨e,.inl he,heq⟩
      · exact ⟨entry,.inr rfl,rfl⟩
    · rintro ⟨e,he | rfl,heq⟩
      · exact .inl ⟨e,he,heq⟩
      · exact .inr heq.symm

theorem Holding.exists_ (h : Holding env pool₀ txs pool taken) {x : Uint256} (hx : x ∈ taken) :
    pool.exists_ x = true := by
  obtain ⟨entries,rfl,-,htaken⟩ := h
  exact (CTxMemPool.exists_addAll entries x).mpr (.inr ((htaken x).mp hx))

/-- The three answers of `AcceptToMemoryPool` to one of the transactions. -/
inductive Answer (env : NodeEnv) (txs : List CTransaction) (taken : Set Uint256)
    (tx : CTransaction) : Except NotAccepted CTxMemPoolEntry → Prop
  | known : env.getTxHash tx ∈ taken → Answer env txs taken tx (.error .known)
  | missing {p : Uint256} : env.getTxHash tx ∉ taken → DependsOn env txs p (env.getTxHash tx) →
      p ∉ taken → Answer env txs taken tx (.error .missingInputs)
  | accepted {entry : CTxMemPoolEntry} : env.getTxHash tx ∉ taken →
      (∀ p, DependsOn env txs p (env.getTxHash tx) → p ∈ taken) → entry.tx = tx →
      Answer env txs taken tx (.ok entry)

theorem Relayable.answer (h : Relayable env policy tip pool₀ nMaxOrphanTx txs) (hin : tx ∈ txs)
    (hpool : Holding env pool₀ txs pool taken) (call : Nat) :
    Answer env txs taken tx (env.acceptToMemoryPool policy pool tip call tx) := by
  obtain ⟨entries,rfl,hentries,htaken⟩ := hpool
  by_cases hold : env.getTxHash tx ∈ taken
  · rw [h.accept_known call hin ((htaken _).mp hold)]
    exact .known hold
  · have hnew := fun hex => hold ((htaken (env.getTxHash tx)).mpr hex)
    by_cases hall : ∀ p, DependsOn env txs p (env.getTxHash tx) → p ∈ taken
    · obtain ⟨entry,haccept,htx⟩ := h.accept_ok call hin hentries hnew
        fun p hp => (htaken p).mp (hall p hp)
      rw [haccept]
      exact .accepted hold hall htx
    · push Not at hall
      obtain ⟨p,hp,hmissing⟩ := hall
      rw [h.accept_missing call hin hentries hnew hp fun hex => hmissing ((htaken p).mpr hex)]
      exact .missing hold hp hmissing

/-- The work on the queue that the arrival of `t` starts. `new` is what was taken in since,
`done` was worked off, and `rest` has still to be tried for the last of these. -/
structure Working (env : NodeEnv) (pool₀ : CTxMemPool) (txs : List CTransaction) (t : Uint256)
    (i : Intake Uint256) (new done : Set Uint256) (rest : List Uint256) (w : WorkState) : Prop where
  pool : Holding env pool₀ txs w.pool (i.taken ∪ new)
  calm : w.setMisbehaving = []
  start : t ∈ new
  source : ∀ x ∈ new, x = t ∨ x ∈ i.waiting
  child : ∀ x ∈ new, x = t ∨ ∃ p ∈ new, DependsOn env txs p x
  needs : ∀ x ∈ new, ∀ p, DependsOn env txs p x → p ∈ i.taken ∪ new
  queued : ∀ x ∈ w.vWorkQueue, x ∈ new
  worked : ∀ x ∈ new, x ∈ done ∨ x ∈ w.vWorkQueue
  finished : ∀ x ∈ done, x ∈ new
  complete : ∀ x ∈ i.waiting, (∃ p ∈ new, DependsOn env txs p x) →
    (∀ p, DependsOn env txs p x → p ∈ i.taken ∪ new) →
    x ∈ new ∨ x ∈ rest ∨ ∃ p ∈ w.vWorkQueue, DependsOn env txs p x
  erase : ∀ x ∈ w.vEraseQueue, x = t ∨ ∃ p ∈ new, DependsOn env txs p x
  erased : ∀ x ∈ i.waiting, (∃ p ∈ done, DependsOn env txs p x) → x ∈ w.vEraseQueue ∨ x ∈ rest

/-- The orphans are those of the transactions that wait. -/
structure Waiting (env : NodeEnv) (txs : List CTransaction) (orphans : OrphanPool)
    (waiting : Set Uint256) : Prop where
  consistent : orphans.Consistent env.getTxHash
  member : ∀ h, h ∈ waiting ↔ ∃ o, orphans.mapOrphanTransactions.lookup h = some o
  known : ∀ h o, orphans.mapOrphanTransactions.lookup h = some o → o.tx ∈ txs

variable {t : Uint256} {i : Intake Uint256} {new done : Set Uint256} {rest : List Uint256}
  {w : WorkState} {orphans : OrphanPool}

/-- The index has the orphans that depend on a transaction of the set. -/
theorem Waiting.indexed (h : Relayable env policy tip pool₀ nMaxOrphanTx txs)
    (hw : Waiting env txs orphans i.waiting) {p : Uint256} (hp : p ∈ txs.map env.getTxHash)
    (x : Uint256) :
    x ∈ (orphans.mapOrphanTransactionsByPrev.lookup p).getD [] ↔
      x ∈ i.waiting ∧ DependsOn env txs p x := by
  have hindex := hw.consistent.index x p
  have hget : x ∈ (orphans.mapOrphanTransactionsByPrev.lookup p).getD [] ↔
      ∃ s, orphans.mapOrphanTransactionsByPrev.lookup p = some s ∧ x ∈ s := by
    cases orphans.mapOrphanTransactionsByPrev.lookup p with
    | none => simp
    | some s => simp
  rw [hget,hindex,hw.member]
  constructor
  · rintro ⟨o,ho,txin,hin,rfl⟩
    exact ⟨⟨o,ho⟩,hp,o.tx,hw.known x o ho,hw.consistent.key x o ho,txin,hin,rfl⟩
  · rintro ⟨⟨o,ho⟩,-,tx,hin,hhash,txin,htxin,rfl⟩
    have heq : o.tx = tx :=
      h.hash_inj (hw.known x o ho) hin ((hw.consistent.key x o ho).trans hhash.symm)
    exact ⟨o,ho,txin,heq ▸ htxin,rfl⟩

/-- The next parent is taken from the queue. -/
theorem Working.pop (h : Relayable env policy tip pool₀ nMaxOrphanTx txs)
    (hwait : Waiting env txs orphans i.waiting) (hw : Working env pool₀ txs t i new done [] w)
    {p : Uint256} {queue : List Uint256} (hq : w.vWorkQueue = p :: queue)
    (hp : p ∈ txs.map env.getTxHash) :
    Working env pool₀ txs t i new (insert p done)
      ((orphans.mapOrphanTransactionsByPrev.lookup p).getD []) { w with vWorkQueue := queue } := by
  have hindexed := hwait.indexed h hp
  have hnew : p ∈ new := hw.queued p (by rw [hq]; simp)
  have hqueue := hw.worked
  have hcomplete := hw.complete
  rw [hq] at hqueue hcomplete
  refine { hw with queued := ?_, worked := ?_, finished := ?_, complete := ?_, erased := ?_ }
  · intro x hx
    exact hw.queued x (by rw [hq]; exact List.mem_cons_of_mem p hx)
  · intro x hx
    obtain hd | hx := hqueue x hx
    · exact .inl (.inr hd)
    · obtain rfl | hx := List.mem_cons.mp hx
      · exact .inl (.inl rfl)
      · exact .inr hx
  · intro x hx
    obtain rfl | hx := hx
    · exact hnew
    · exact hw.finished x hx
  · intro x hx hsome hall
    obtain hx' | hx' | ⟨q,hq',hdep⟩ := hcomplete x hx hsome hall
    · exact .inl hx'
    · simp at hx'
    · obtain rfl | hq' := List.mem_cons.mp hq'
      · exact .inr (.inl ((hindexed x).mpr ⟨hx,hdep⟩))
      · exact .inr (.inr ⟨q,hq',hdep⟩)
  · rintro x hx ⟨q,hq',hdep⟩
    obtain rfl | hq' := hq'
    · exact .inr ((hindexed x).mpr ⟨hx,hdep⟩)
    · obtain he | he := hw.erased x hx ⟨q,hq',hdep⟩
      · exact .inl he
      · simp at he

/-- An orphan that is not taken in now: it was taken in before, or misses a parent. -/
theorem Working.skip {k : Uint256} (hw : Working env pool₀ txs t i new done (k :: rest) w)
    (hk : k ∈ new ∨ ∃ p, DependsOn env txs p k ∧ p ∉ i.taken ∪ new)
    (hdep : ∃ p ∈ new, DependsOn env txs p k) :
    Working env pool₀ txs t i new done rest
      { w with vEraseQueue := w.vEraseQueue ++ [k], calls := w.calls+1 } := by
  refine { hw with complete := ?_, erase := ?_, erased := ?_ }
  · intro x hx hsome hall
    obtain hx' | hx' | hx' := hw.complete x hx hsome hall
    · exact .inl hx'
    · obtain rfl | hx' := List.mem_cons.mp hx'
      · obtain hk | ⟨p,hp,hmissing⟩ := hk
        · exact .inl hk
        · exact absurd (hall p hp) hmissing
      · exact .inr (.inl hx')
    · exact .inr (.inr hx')
  · intro x hx
    obtain hx | hx := List.mem_append.mp hx
    · exact hw.erase x hx
    · obtain rfl := List.mem_singleton.mp hx
      exact .inr hdep
  · intro x hx hsome
    obtain he | he := hw.erased x hx hsome
    · exact .inl (List.mem_append_left _ he)
    · obtain rfl | he := List.mem_cons.mp he
      · exact .inl (List.mem_append_right _ (List.mem_singleton.mpr rfl))
      · exact .inr he

/-- An orphan that is taken in now. -/
theorem Working.take {k : Uint256} (hw : Working env pool₀ txs t i new done (k :: rest) w)
    {entry : CTxMemPoolEntry} (hin : entry.tx ∈ txs) (hhash : env.getTxHash entry.tx = k)
    (hk : k ∈ i.waiting) (hneeds : ∀ p, DependsOn env txs p k → p ∈ i.taken ∪ new)
    (hdep : ∃ p ∈ new, DependsOn env txs p k) (relayed : List CTransaction) :
    Working env pool₀ txs t i (insert k new) done rest
      { w with
        vEraseQueue := w.vEraseQueue ++ [k]
        pool := w.pool.addUnchecked k entry
        calls := w.calls+1
        relayed := relayed
        vWorkQueue := w.vWorkQueue ++ [k] } := by
  have hgrow : ∀ x, x ∈ i.taken ∪ new → x ∈ i.taken ∪ insert k new := by
    intro x hx
    obtain hx | hx := hx
    · exact .inl hx
    · exact .inr (.inr hx)
  refine ⟨?_,hw.calm,.inr hw.start,?_,?_,?_,?_,?_,?_,?_,?_,?_⟩
  · have hadd := hw.pool.add hin
    rw [hhash] at hadd
    convert hadd using 1
    ext x
    simp only [Set.mem_union,Set.mem_insert_iff,Set.mem_singleton_iff]
    tauto
  · intro x hx
    obtain rfl | hx := hx
    · exact .inr hk
    · exact hw.source x hx
  · intro x hx
    obtain rfl | hx := hx
    · obtain ⟨p,hp,hpx⟩ := hdep
      exact .inr ⟨p,.inr hp,hpx⟩
    · obtain hx | ⟨p,hp,hpx⟩ := hw.child x hx
      · exact .inl hx
      · exact .inr ⟨p,.inr hp,hpx⟩
  · intro x hx p hp
    obtain rfl | hx := hx
    · exact hgrow p (hneeds p hp)
    · exact hgrow p (hw.needs x hx p hp)
  · intro x hx
    obtain hx | hx := List.mem_append.mp hx
    · exact .inr (hw.queued x hx)
    · exact .inl (List.mem_singleton.mp hx)
  · intro x hx
    obtain rfl | hx := hx
    · exact .inr (by simp)
    · obtain hx | hx := hw.worked x hx
      · exact .inl hx
      · exact .inr (List.mem_append_left _ hx)
  · intro x hx
    exact .inr (hw.finished x hx)
  · intro x hx hsome hall
    by_cases hkx : DependsOn env txs k x
    · exact .inr (.inr ⟨k,by simp,hkx⟩)
    · have hsome' : ∃ p ∈ new, DependsOn env txs p x := by
        obtain ⟨p,hp | hp,hpx⟩ := hsome
        · exact absurd (hp ▸ hpx) hkx
        · exact ⟨p,hp,hpx⟩
      have hall' : ∀ p, DependsOn env txs p x → p ∈ i.taken ∪ new := by
        intro p hpx
        obtain hp | hp | hp := hall p hpx
        · exact .inl hp
        · exact absurd (hp ▸ hpx) hkx
        · exact .inr hp
      obtain hx' | hx' | ⟨p,hp,hpx⟩ := hw.complete x hx hsome' hall'
      · exact .inl (.inr hx')
      · obtain rfl | hx' := List.mem_cons.mp hx'
        · exact .inl (.inl rfl)
        · exact .inr (.inl hx')
      · exact .inr (.inr ⟨p,List.mem_append_left _ hp,hpx⟩)
  · intro x hx
    obtain hx | hx := List.mem_append.mp hx
    · obtain hx | ⟨p,hp,hpx⟩ := hw.erase x hx
      · exact .inl hx
      · exact .inr ⟨p,.inr hp,hpx⟩
    · obtain rfl := List.mem_singleton.mp hx
      obtain ⟨p,hp,hpx⟩ := hdep
      exact .inr ⟨p,.inr hp,hpx⟩
  · intro x hx hsome
    obtain he | he := hw.erased x hx hsome
    · exact .inl (List.mem_append_left _ he)
    · obtain rfl | he := List.mem_cons.mp he
      · exact .inl (by simp)
      · exact .inr he

theorem retryOrphan_spec (h : Relayable env policy tip pool₀ nMaxOrphanTx txs)
    (hwait : Waiting env txs orphans i.waiting) (hapart : ∀ x ∈ i.waiting, x ∉ i.taken)
    {k : Uint256} (hw : Working env pool₀ txs t i new done (k :: rest) w) (hk : k ∈ i.waiting)
    (hdep : ∃ p ∈ new, DependsOn env txs p k) :
    ∃ w' new', retryOrphan env policy tip orphans w k = .ok w' ∧ new ⊆ new' ∧
      Working env pool₀ txs t i new' done rest w' := by
  obtain ⟨o,ho⟩ := (hwait.member k).mp hk
  have hhash := hwait.consistent.key k o ho
  have hin := hwait.known k o ho
  have hanswer := h.answer hin hw.pool w.calls
  have hcalm : w.setMisbehaving.contains o.fromPeer = false := by
    rw [hw.calm]
    rfl
  unfold retryOrphan
  simp only [ho,orThrow_some,ok_bind,hcalm,Bool.false_eq_true,if_false]
  cases hr : env.acceptToMemoryPool policy w.pool tip w.calls o.tx with
  | ok entry =>
    rw [hr] at hanswer
    cases hanswer with
    | accepted hnew hneeds htx =>
      rw [hhash] at hneeds ⊢
      have hentry : env.getTxHash entry.tx = k := by rw [htx,hhash]
      exact ⟨_,insert k new,rfl,Set.subset_insert k new,
        hw.take (htx ▸ hin) hentry hk hneeds hdep _⟩
  | error e =>
    rw [hr] at hanswer
    cases hanswer with
    | known hold =>
      rw [hhash] at hold
      have hkn : k ∈ new := by
        obtain hold | hold := hold
        · exact absurd hold (hapart k hk)
        · exact hold
      exact ⟨_,new,rfl,subset_rfl,hw.skip (.inl hkn) hdep⟩
    | @missing p _ hp hmissing =>
      rw [hhash] at hp
      exact ⟨_,new,rfl,subset_rfl,hw.skip (.inr ⟨p,hp,hmissing⟩) hdep⟩

theorem retryOrphans_spec (h : Relayable env policy tip pool₀ nMaxOrphanTx txs)
    (hwait : Waiting env txs orphans i.waiting) (hapart : ∀ x ∈ i.waiting, x ∉ i.taken)
    (hw : Working env pool₀ txs t i new done rest w)
    (hrest : ∀ k ∈ rest, k ∈ i.waiting ∧ ∃ p ∈ new, DependsOn env txs p k) :
    ∃ w' new', retryOrphans env policy tip orphans w rest = .ok w' ∧
      Working env pool₀ txs t i new' done [] w' := by
  induction rest generalizing w new with
  | nil => exact ⟨w,new,rfl,hw⟩
  | cons k rest ih =>
    obtain ⟨hk,hdep⟩ := hrest k (by simp)
    obtain ⟨w₁,new₁,hstep,hsub,hw₁⟩ := retryOrphan_spec h hwait hapart hw hk hdep
    obtain ⟨w₂,new₂,hrun,hw₂⟩ := ih hw₁ (by
      intro k' hk'
      obtain ⟨hk',p,hp,hpk⟩ := hrest k' (List.mem_cons_of_mem k hk')
      exact ⟨hk',p,hsub hp,hpk⟩)
    refine ⟨w₂,new₂,?_,hw₂⟩
    unfold retryOrphans at hrun ⊢
    rw [List.foldlM_cons,hstep]
    exact hrun

theorem processWorkQueue_nil (hq : w.vWorkQueue = []) :
    processWorkQueue env policy tip orphans w = .ok w := by
  unfold processWorkQueue
  split
  · rfl
  · rename_i heq
    rw [hq] at heq
    contradiction

theorem processWorkQueue_cons {p : Uint256} {queue : List Uint256} {w' : WorkState}
    (hq : w.vWorkQueue = p :: queue)
    (hr : retryOrphans env policy tip orphans { w with vWorkQueue := queue }
      ((orphans.mapOrphanTransactionsByPrev.lookup p).getD []) = .ok w') :
    processWorkQueue env policy tip orphans w = processWorkQueue env policy tip orphans w' := by
  rw [processWorkQueue]
  split
  · rename_i heq
    rw [hq] at heq
    contradiction
  · rename_i p' queue' heq
    rw [hq] at heq
    obtain ⟨rfl,rfl⟩ := List.cons.inj heq
    split
    · rename_i e herr
      rw [hr] at herr
      contradiction
    · rename_i w'' hok
      rw [hr] at hok
      rw [Except.ok.inj hok]

theorem processWorkQueue_spec (h : Relayable env policy tip pool₀ nMaxOrphanTx txs)
    (hwait : Waiting env txs orphans i.waiting) (hapart : ∀ x ∈ i.waiting, x ∉ i.taken)
    (ht : t ∈ txs.map env.getTxHash) (hw : Working env pool₀ txs t i new done [] w) :
    ∃ w' new' done', processWorkQueue env policy tip orphans w = .ok w' ∧
      Working env pool₀ txs t i new' done' [] w' ∧ w'.vWorkQueue = [] := by
  induction hn : unaccepted env orphans w.pool+w.vWorkQueue.length using Nat.strong_induction_on
    generalizing w new done with
  | _ n ih =>
    cases hq : w.vWorkQueue with
    | nil => exact ⟨w,new,done,processWorkQueue_nil hq,hw,hq⟩
    | cons p queue =>
      have hpnew : p ∈ new := hw.queued p (by rw [hq]; simp)
      have hp : p ∈ txs.map env.getTxHash := by
        obtain rfl | hpw := hw.source p hpnew
        · exact ht
        · obtain ⟨o,ho⟩ := (hwait.member p).mp hpw
          rw [← hwait.consistent.key p o ho]
          exact List.mem_map_of_mem (hwait.known p o ho)
      obtain ⟨w₁,new₁,hretry,hw₁⟩ := retryOrphans_spec h hwait hapart (hw.pop h hwait hq hp) (by
        intro k hk
        obtain ⟨hk,hdep⟩ := (hwait.indexed h hp k).mp hk
        exact ⟨hk,p,hpnew,hdep⟩)
      have hle := retryOrphans_measure hretry
      simp only at hle
      rw [hq,List.length_cons] at hn
      obtain ⟨w₂,new₂,done₂,hrun,hw₂,hempty⟩ := ih _ (by omega) hw₁ rfl
      exact ⟨w₂,new₂,done₂,(processWorkQueue_cons hq hretry).trans hrun,hw₂,hempty⟩

end Work

namespace OrphanPool

theorem eraseAll_lookup (orphans : OrphanPool) (hashes : List Uint256) (x : Uint256) :
    (hashes.foldl eraseOrphanTx orphans).mapOrphanTransactions.lookup x =
      if x ∈ hashes then none else orphans.mapOrphanTransactions.lookup x := by
  induction hashes generalizing orphans with
  | nil => simp
  | cons k rest ih =>
    rw [List.foldl_cons,ih,eraseOrphanTx_lookup]
    by_cases hx : x = k
    · simp [hx]
    · simp [hx]

theorem eraseAll_consistent {getHash : CTransaction → Uint256} {orphans : OrphanPool}
    (h : orphans.Consistent getHash) (hashes : List Uint256) :
    (hashes.foldl eraseOrphanTx orphans).Consistent getHash := by
  induction hashes generalizing orphans with
  | nil => exact h
  | cons k rest ih => exact ih (eraseOrphanTx_consistent h k)

theorem limitOrphanTxSize_small {orphans : OrphanPool} {nMaxOrphans : Nat} (rand : Nat → Uint256)
    (h : orphans.size ≤ nMaxOrphans) :
    orphans.limitOrphanTxSize nMaxOrphans rand 0 = some (0,orphans) := by
  unfold limitOrphanTxSize
  rw [if_neg (by omega)]

/-- Distinct orphans that are all in a list. -/
theorem size_le {orphans : OrphanPool} {hashes : List Uint256}
    (h : ∀ k, k ∈ orphans.mapOrphanTransactions → k ∈ hashes) : orphans.size ≤ hashes.length := by
  have hsub : orphans.mapOrphanTransactions.keys ⊆ hashes := fun k hk => h k (AList.mem_keys.mpr hk)
  have hle := (orphans.mapOrphanTransactions.keys_nodup.subperm hsub).length_le
  simpa only [AList.keys,List.keys,List.length_map,size] using hle

end OrphanPool

/-- Between two messages. -/
structure Between (env : NodeEnv) (pool₀ : CTxMemPool) (txs : List CTransaction)
    (arrived : List Uint256) (i : Intake Uint256) (s : RelayState) : Prop where
  pool : Holding env pool₀ txs s.pool i.taken
  orphans : Waiting env txs s.orphans i.waiting
  apart : ∀ x ∈ i.waiting, x ∉ i.taken
  arrived : ∀ x, x ∈ i.taken ∨ x ∈ i.waiting → x ∈ arrived

section Messages
variable {env : NodeEnv} {policy : RelayPolicy} {tip : CCoinsView} {pool₀ : CTxMemPool}
  {nMaxOrphanTx : Nat} {txs : List CTransaction} {arrived : List Uint256} {i : Intake Uint256}
  {s : RelayState} {m : TxMessage}

theorem Waiting.add {orphans : OrphanPool} {waiting : Set Uint256}
    (h : Waiting env txs orphans waiting) {tx : CTransaction} (hin : tx ∈ txs)
    (hsmall : tx.getSerializeSize ≤ 5000) (hnew : env.getTxHash tx ∉ waiting) (peer : NodeId) :
    Waiting env txs (orphans.addOrphanTx env.getTxHash tx peer).2
      (waiting ∪ {env.getTxHash tx}) := by
  have hnone : orphans.mapOrphanTransactions.lookup (env.getTxHash tx) = none := by
    cases ho : orphans.mapOrphanTransactions.lookup (env.getTxHash tx) with
    | none => rfl
    | some o => exact absurd ((h.member _).mpr ⟨o,ho⟩) hnew
  have hadd : (orphans.addOrphanTx env.getTxHash tx peer).2.mapOrphanTransactions =
      orphans.mapOrphanTransactions.insert (env.getTxHash tx) ⟨tx,peer⟩ := by
    simp [OrphanPool.addOrphanTx,hnone,Nat.not_lt.mpr hsmall]
  refine ⟨OrphanPool.addOrphanTx_consistent h.consistent tx peer,?_,?_⟩
  · intro x
    rw [hadd,Set.mem_union,Set.mem_singleton_iff,h.member]
    by_cases hx : x = env.getTxHash tx
    · subst hx
      simp
    · simp [hx,AList.lookup_insert_ne hx]
  · intro x o ho
    rw [hadd] at ho
    by_cases hx : x = env.getTxHash tx
    · subst hx
      rw [AList.lookup_insert] at ho
      rw [← Option.some.inj ho]
      exact hin
    · rw [AList.lookup_insert_ne hx] at ho
      exact h.known x o ho

/-- The transaction has a parent that is not in the pool, and becomes an orphan. -/
theorem processTx_waits (h : Relayable env policy tip pool₀ nMaxOrphanTx txs)
    (hs : Between env pool₀ txs arrived i s) (hin : m.tx ∈ txs)
    (hnew : env.getTxHash m.tx ∉ arrived) (hlen : arrived.length < txs.length)
    (hmissing : env.acceptToMemoryPool policy s.pool tip s.calls m.tx = .error .missingInputs) :
    ∃ s', processTx env policy tip nMaxOrphanTx s m = .ok s' ∧
      Between env pool₀ txs (arrived ++ [env.getTxHash m.tx])
        ⟨i.taken,i.waiting ∪ {env.getTxHash m.tx}⟩ s' := by
  have hwaiting : env.getTxHash m.tx ∉ i.waiting := fun hx => hnew (hs.arrived _ (.inr hx))
  have hadd := hs.orphans.add hin (h.small m.tx hin) hwaiting m.peer
  have hsize : (s.orphans.addOrphanTx env.getTxHash m.tx m.peer).2.size ≤ nMaxOrphanTx := by
    have hkeys : ∀ k, k ∈ (s.orphans.addOrphanTx env.getTxHash m.tx m.peer).2.mapOrphanTransactions →
        k ∈ arrived ++ [env.getTxHash m.tx] := by
      intro k hk
      obtain ⟨o,ho⟩ := Option.isSome_iff_exists.mp (AList.lookup_isSome.mpr hk)
      obtain hk | hk := (hadd.member k).mpr ⟨o,ho⟩
      · exact List.mem_append_left _ (hs.arrived k (.inr hk))
      · exact List.mem_append_right _ (List.mem_singleton.mpr hk)
    have hle := OrphanPool.size_le hkeys
    have hfew := h.few
    rw [List.length_append,List.length_singleton] at hle
    omega
  refine ⟨{ s with
    orphans := (s.orphans.addOrphanTx env.getTxHash m.tx m.peer).2
    calls := s.calls+1 },?_,⟨hs.pool,hadd,?_,?_⟩⟩
  · unfold processTx
    simp only [hmissing,OrphanPool.limitOrphanTxSize_small m.rand hsize,orThrow_some,ok_bind]
    rfl
  · intro x hx
    obtain hx | rfl := hx
    · exact hs.apart x hx
    · exact fun htaken => hnew (hs.arrived _ (.inl htaken))
  · intro x hx
    obtain hx | hx | hx := hx
    · exact List.mem_append_left _ (hs.arrived x (.inl hx))
    · exact List.mem_append_left _ (hs.arrived x (.inr hx))
    · exact List.mem_append_right _ (List.mem_singleton.mpr hx)

/-- The work queue starts with the transaction that has just been taken in. -/
theorem Working.first (hs : Between env pool₀ txs arrived i s) {entry : CTxMemPoolEntry}
    (hin : entry.tx ∈ txs)
    (hneeds : ∀ p, DependsOn env txs p (env.getTxHash entry.tx) → p ∈ i.taken) (calls : Nat)
    (relayed : List CTransaction) (punished : List (NodeId × Nat)) :
    Working env pool₀ txs (env.getTxHash entry.tx) i {env.getTxHash entry.tx} ∅ []
      ⟨s.pool.addUnchecked (env.getTxHash entry.tx) entry,calls,relayed,punished,
        [env.getTxHash entry.tx],[env.getTxHash entry.tx],[]⟩ := by
  refine ⟨hs.pool.add hin,rfl,rfl,?_,?_,?_,?_,?_,?_,?_,?_,?_⟩
  · intro x hx
    exact .inl hx
  · intro x hx
    exact .inl hx
  · rintro x rfl p hp
    exact .inl (hneeds p hp)
  · intro x hx
    exact List.mem_singleton.mp hx
  · intro x hx
    exact .inr (List.mem_singleton.mpr hx)
  · intro x hx
    exact absurd hx (Set.notMem_empty x)
  · rintro x - ⟨p,rfl,hp⟩ -
    exact .inr (.inr ⟨_,List.mem_singleton.mpr rfl,hp⟩)
  · intro x hx
    exact .inl (List.mem_singleton.mp hx)
  · rintro x - ⟨p,hp,-⟩
    exact absurd hp (Set.notMem_empty p)

/-- The transaction is accepted, and with it what waited only for what is there now. -/
theorem processTx_settles (h : Relayable env policy tip pool₀ nMaxOrphanTx txs)
    (hs : Between env pool₀ txs arrived i s) (hin : m.tx ∈ txs)
    (hnew : env.getTxHash m.tx ∉ arrived) {entry : CTxMemPoolEntry} (htx : entry.tx = m.tx)
    (hneeds : ∀ p, DependsOn env txs p (env.getTxHash m.tx) → p ∈ i.taken)
    (haccept : env.acceptToMemoryPool policy s.pool tip s.calls m.tx = .ok entry) :
    ∃ s' i', processTx env policy tip nMaxOrphanTx s m = .ok s' ∧
      Arrives (DependsOn env txs) (env.getTxHash m.tx) i i' ∧
      Between env pool₀ txs (arrived ++ [env.getTxHash m.tx]) i' s' := by
  have hfirst := Working.first hs (htx.symm ▸ hin) (by rw [htx]; exact hneeds) (s.calls+1)
    (s.relayed ++ [m.tx]) s.punished
  rw [htx] at hfirst
  obtain ⟨w,new,done,hrun,hw,hempty⟩ := processWorkQueue_spec h hs.orphans hs.apart
    (List.mem_map_of_mem hin) hfirst
  have hdone : ∀ x ∈ new, x ∈ done := by
    intro x hx
    obtain hx | hx := hw.worked x hx
    · exact hx
    · rw [hempty] at hx
      simp at hx
  have hwaits : ∀ x ∈ i.waiting, x ∈ w.vEraseQueue ↔ ∃ p ∈ new, DependsOn env txs p x := by
    intro x hx
    constructor
    · intro he
      obtain rfl | he := hw.erase x he
      · exact absurd (hs.arrived _ (.inr hx)) hnew
      · exact he
    · rintro ⟨p,hp,hpx⟩
      obtain he | he := hw.erased x hx ⟨p,hdone p hp,hpx⟩
      · exact he
      · simp at he
  have hlookup := s.orphans.eraseAll_lookup w.vEraseQueue
  refine ⟨⟨w.pool,w.vEraseQueue.foldl OrphanPool.eraseOrphanTx s.orphans,w.calls,w.relayed,
    w.punished⟩,_,?_,.settles hw.start hw.source hw.needs ?_ hneeds,⟨hw.pool,⟨?_,?_,?_⟩,?_,?_⟩⟩
  · unfold processTx
    simp only [haccept,hrun,ok_bind]
    rfl
  · intro x hx hsome hall
    obtain hx' | hx' | ⟨p,hp,-⟩ := hw.complete x hx hsome hall
    · exact hx'
    · simp at hx'
    · rw [hempty] at hp
      simp at hp
  · exact OrphanPool.eraseAll_consistent hs.orphans.consistent w.vEraseQueue
  · intro x
    simp only [hlookup,Set.mem_ofPred_eq]
    constructor
    · rintro ⟨hx,hnone⟩
      obtain ⟨o,ho⟩ := (hs.orphans.member x).mp hx
      refine ⟨o,?_⟩
      rw [if_neg]
      · exact ho
      · intro he
        obtain ⟨p,hp,hpx⟩ := (hwaits x hx).mp he
        exact hnone p hp hpx
    · rintro ⟨o,ho⟩
      split at ho
      · contradiction
      · rename_i hkeep
        have hx := (hs.orphans.member x).mpr ⟨o,ho⟩
        exact ⟨hx,fun p hp hpx => hkeep ((hwaits x hx).mpr ⟨p,hp,hpx⟩)⟩
  · intro x o ho
    rw [hlookup] at ho
    split at ho
    · contradiction
    · exact hs.orphans.known x o ho
  · rintro x ⟨hx,hnone⟩ (htaken | hx')
    · exact hs.apart x hx htaken
    · obtain rfl | ⟨p,hp,hpx⟩ := hw.child x hx'
      · exact hnew (hs.arrived _ (.inr hx))
      · exact hnone p hp hpx
  · intro x hx
    obtain (hx | hx) | hx := hx
    · exact List.mem_append_left _ (hs.arrived x (.inl hx))
    · obtain rfl | hx := hw.source x hx
      · exact List.mem_append_right _ (List.mem_singleton.mpr rfl)
      · exact List.mem_append_left _ (hs.arrived x (.inr hx))
    · exact List.mem_append_left _ (hs.arrived x (.inr hx.1))

theorem processTx_spec (h : Relayable env policy tip pool₀ nMaxOrphanTx txs)
    (hs : Between env pool₀ txs arrived i s) (hin : m.tx ∈ txs)
    (hnew : env.getTxHash m.tx ∉ arrived) (hlen : arrived.length < txs.length) :
    ∃ s' i', processTx env policy tip nMaxOrphanTx s m = .ok s' ∧
      Arrives (DependsOn env txs) (env.getTxHash m.tx) i i' ∧
      Between env pool₀ txs (arrived ++ [env.getTxHash m.tx]) i' s' := by
  have hanswer := h.answer hin hs.pool s.calls
  cases hr : env.acceptToMemoryPool policy s.pool tip s.calls m.tx with
  | ok entry =>
    rw [hr] at hanswer
    cases hanswer with
    | accepted _ hneeds htx => exact processTx_settles h hs hin hnew htx hneeds hr
  | error e =>
    rw [hr] at hanswer
    cases hanswer with
    | known hold => exact absurd (hs.arrived _ (.inl hold)) hnew
    | @missing p _ hp hmissing =>
      obtain ⟨s',hstep,hs'⟩ := processTx_waits h hs hin hnew hlen hr
      exact ⟨s',_,hstep,.waits ⟨p,hp,hmissing⟩,hs'⟩

/-- The messages one after the other. -/
theorem processTxs_spec {messages : List TxMessage} (calls : Nat) (relayed : List CTransaction)
    (punished : List (NodeId × Nat)) {earlier : List TxMessage}
    (h : Relayable env policy tip pool₀ nMaxOrphanTx (messages.map TxMessage.tx))
    (hstart : earlier <+: messages) :
    ∃ s i, processTxs env policy tip nMaxOrphanTx ⟨pool₀,OrphanPool.empty,calls,relayed,punished⟩
        earlier = .ok s ∧
      Arrivals (DependsOn env (messages.map TxMessage.tx))
        (earlier.map fun m => env.getTxHash m.tx) i ∧
      Between env pool₀ (messages.map TxMessage.tx) (earlier.map fun m => env.getTxHash m.tx) i s := by
  induction earlier using List.reverseRecOn with
  | nil =>
    refine ⟨_,_,rfl,.nil,⟨⟨[],rfl,by simp,?_⟩,⟨OrphanPool.empty_consistent,?_,?_⟩,?_,?_⟩⟩
    · intro x
      simp
    · intro x
      simp [OrphanPool.empty]
    · intro x o ho
      simp [OrphanPool.empty] at ho
    · intro x hx
      exact absurd hx (Set.notMem_empty x)
    · intro x hx
      simp at hx
  | append_singleton earlier m ih =>
    obtain ⟨s,i,hrun,harrivals,hs⟩ := ih ((List.prefix_append _ _).trans hstart)
    obtain ⟨later,hlater⟩ := hstart
    have hin : m.tx ∈ messages.map TxMessage.tx := by
      rw [← hlater]
      simp
    have hdistinct := h.distinct
    rw [← hlater,List.append_assoc,List.map_append,List.map_append] at hdistinct
    have hnew : env.getTxHash m.tx ∉ earlier.map fun m => env.getTxHash m.tx := by
      intro hold
      refine (List.nodup_append.mp hdistinct).2.2 (env.getTxHash m.tx) ?_ _ ?_ rfl
      · simpa using hold
      · simp
    have hlen : (earlier.map fun m => env.getTxHash m.tx).length <
        (messages.map TxMessage.tx).length := by
      rw [← hlater]
      simp only [List.length_map,List.length_append,List.length_singleton]
      omega
    obtain ⟨s',i',hstep,harrives,hs'⟩ := processTx_spec h hs hin hnew hlen
    refine ⟨s',i',?_,?_,?_⟩
    · unfold processTxs at hrun ⊢
      rw [List.foldlM_append,hrun]
      simp [hstep]
    · rw [List.map_append]
      exact harrivals.snoc harrives
    · rw [List.map_append]
      exact hs'

/-- All the transactions are in the pool after the last message, and none is an orphan. -/
def Complete (env : NodeEnv) (policy : RelayPolicy) (tip : CCoinsView) (nMaxOrphanTx : Nat)
    (s : RelayState) (messages : List TxMessage) : Prop :=
  ∃ s', processTxs env policy tip nMaxOrphanTx s messages = .ok s' ∧
    (∀ m ∈ messages, s'.pool.exists_ (env.getTxHash m.tx) = true) ∧
    ∀ m ∈ messages, env.getTxHash m.tx ∉ s'.orphans.mapOrphanTransactions

/-- No message completes one parent of a transaction that has arrived, with all that this
parent depends on, while another parent of it stays incomplete. -/
def NoParentSplit (env : NodeEnv) (messages : List TxMessage) : Prop :=
  NoSplit (DependsOn env (messages.map TxMessage.tx)) (messages.map fun m => env.getTxHash m.tx)

theorem Relayable.wellFounded (h : Relayable env policy tip pool₀ nMaxOrphanTx txs) :
    WellFounded (DependsOn env txs) := by
  have : Finite Uint256 := Finite.of_injective BitVec.toFin fun _ _ heq => BitVec.eq_of_toFin_eq heq
  have : Std.Irrefl (Relation.TransGen (DependsOn env txs)) := ⟨h.acyclic⟩
  have hwf := Finite.wellFounded_of_trans_of_irrefl (Relation.TransGen (DependsOn env txs))
  exact Subrelation.wf (fun hp => Relation.TransGen.single hp) hwf

theorem Between.taken_iff (h : Relayable env policy tip pool₀ nMaxOrphanTx txs)
    (hs : Between env pool₀ txs arrived i s) {tx : CTransaction} (hin : tx ∈ txs) :
    s.pool.exists_ (env.getTxHash tx) = true ↔ env.getTxHash tx ∈ i.taken := by
  refine ⟨fun hex => ?_,hs.pool.exists_⟩
  obtain ⟨entries,hpool,-,htaken⟩ := hs.pool
  rw [hpool,CTxMemPool.exists_addAll,(h.fits_first hin).new] at hex
  obtain hex | hex := hex
  · contradiction
  · exact (htaken _).mpr hex

theorem complete_iff {messages : List TxMessage} (calls : Nat) (relayed : List CTransaction)
    (punished : List (NodeId × Nat))
    (h : Relayable env policy tip pool₀ nMaxOrphanTx (messages.map TxMessage.tx)) :
    Complete env policy tip nMaxOrphanTx ⟨pool₀,OrphanPool.empty,calls,relayed,punished⟩ messages ↔
      NoParentSplit env messages := by
  obtain ⟨s,i,hrun,harrivals,hs⟩ := processTxs_spec calls relayed punished h List.prefix_rfl
  have hnodup : (messages.map fun m => env.getTxHash m.tx).Nodup := by
    simpa [Function.comp_def] using h.distinct
  have hclosed : ∀ x ∈ messages.map fun m => env.getTxHash m.tx, ∀ p,
      DependsOn env (messages.map TxMessage.tx) p x →
      p ∈ messages.map fun m => env.getTxHash m.tx := by
    rintro x - p ⟨hp,-⟩
    simpa [Function.comp_def] using hp
  refine Iff.trans ?_ (harrivals.all_taken_iff h.wellFounded hnodup hclosed)
  have hpool : ∀ m ∈ messages, s.pool.exists_ (env.getTxHash m.tx) = true ↔
      env.getTxHash m.tx ∈ i.taken := fun m hm => hs.taken_iff h (List.mem_map_of_mem hm)
  have horphan : ∀ m : TxMessage, env.getTxHash m.tx ∈ s.orphans.mapOrphanTransactions ↔
      env.getTxHash m.tx ∈ i.waiting := by
    intro m
    rw [hs.orphans.member,← AList.lookup_isSome,Option.isSome_iff_exists]
  constructor
  · rintro ⟨s',hrun',hall,hnone⟩
    obtain rfl := Except.ok.inj (hrun.symm.trans hrun')
    refine ⟨fun x hx => ?_,fun x hx => ?_⟩
    · obtain ⟨m,hm,rfl⟩ := List.mem_map.mp hx
      exact (hpool m hm).mp (hall m hm)
    · obtain ⟨m,hm,rfl⟩ := List.mem_map.mp (hs.arrived x (.inr hx))
      exact hnone m hm ((horphan m).mpr hx)
  · rintro ⟨hall,hnone⟩
    refine ⟨s,hrun,fun m hm => ?_,fun m hm hin => hnone _ ((horphan m).mp hin)⟩
    exact (hpool m hm).mpr (hall _ (List.mem_map_of_mem hm))

/-- The order of arrival does not matter exactly when no message splits the parents of a
transaction that came before it. -/
theorem relay_complete_iff {messages : List TxMessage} (calls : Nat) (relayed : List CTransaction)
    (punished : List (NodeId × Nat))
    (h : Relayable env policy tip pool₀ nMaxOrphanTx (messages.map TxMessage.tx)) :
    Complete env policy tip nMaxOrphanTx ⟨pool₀,OrphanPool.empty,calls,relayed,punished⟩ messages ↔
      NoParentSplit env messages := complete_iff calls relayed punished h

end Messages

section Sample
open NodeEnv

/-- A node that asks for no fees and no standard forms. -/
def openPolicy : RelayPolicy where
  isMainNetwork := false
  isStandardTx _ := none
  areInputsStandard _ _ := true
  checkFees _ _ _ _ _ := none
  getTime _ := 0
  chainHeight := 0

/-- Two outputs under the txid 1. -/
def fundingTip : CCoinsView :=
  .cache .new (.db ⟨AList.singleton 1 ⟨false,[⟨10,[]⟩,⟨10,[]⟩],0,1⟩,some 1⟩)

def motherTx : CTransaction := ⟨1,[⟨⟨1,0⟩,[],0⟩],[⟨10,[]⟩],1⟩

def fatherTx : CTransaction := ⟨1,[⟨⟨1,1⟩,[],0⟩],[⟨10,[]⟩],2⟩

/-- It spends the outputs of the other two. -/
def childTx : CTransaction := ⟨1,[⟨⟨2,0⟩,[],0⟩,⟨⟨3,0⟩,[],0⟩],[⟨20,[]⟩],3⟩

def familyTxs : List CTransaction := [childTx,motherTx,fatherTx]

theorem familyTxs_hash : ∀ tx ∈ familyTxs, ∀ tx' ∈ familyTxs,
    openEnv.getTxHash tx = openEnv.getTxHash tx' → tx = tx' := by decide

theorem familyTxs_apart : ∀ tx ∈ familyTxs, ∀ tx' ∈ familyTxs, tx' ≠ tx →
    ∀ txin ∈ tx.vin, ∀ txin' ∈ tx'.vin, txin'.prevout ≠ txin.prevout := by decide

theorem familyTxs_fresh : ∀ tx ∈ familyTxs, openEnv.getTxHash tx ≠ 1 ∧
    openPolicy.checkLoose tx = .ok () ∧
    (CTxMemPool.empty false).getCoins fundingTip (openEnv.getTxHash tx) = none := by decide +kernel

theorem familyTxs_parents : ∀ tx ∈ familyTxs, ∀ txin ∈ tx.vin,
    txin.prevout.hash ∈ familyTxs.map openEnv.getTxHash ∨
      (CTxMemPool.empty false).getCoins fundingTip txin.prevout.hash ≠ none := by decide +kernel

variable {tx : CTransaction} {entries : List CTxMemPoolEntry}

theorem familyTxs_fits (hin : tx ∈ familyTxs)
    (hentries : ∀ e ∈ entries, e.tx ∈ familyTxs ∧ e.tx ≠ tx) :
    openEnv.Fits openPolicy ((CTxMemPool.empty false).addAll openEnv entries) fundingTip tx := by
  obtain ⟨-,hloose,habsent⟩ := familyTxs_fresh tx hin
  have hother : ∀ e ∈ entries, openEnv.getTxHash e.tx ≠ openEnv.getTxHash tx := by
    intro e he heq
    exact (hentries e he).2 (familyTxs_hash _ (hentries e he).1 _ hin heq)
  have hnone := (CTxMemPool.getCoins_addAll entries _).mpr ⟨habsent,hother⟩
  refine ⟨hloose,(CTxMemPool.getCoins_eq_none.mp hnone).1,?_,hnone⟩
  intro txin htxin
  rw [CTxMemPool.addAll_other]
  · rfl
  · intro e he txin' htxin'
    exact familyTxs_apart tx hin e.tx (hentries e he).1 (hentries e he).2 txin htxin txin' htxin'

/-- The coins of a parent that is there. -/
theorem familyTxs_coins (parent : CTransaction) (hparent : parent ∈ familyTxs)
    (hentries : ∀ e ∈ entries, e.tx ∈ familyTxs)
    (hthere : ((CTxMemPool.empty false).addAll openEnv entries).getCoins fundingTip
      (openEnv.getTxHash parent) ≠ none) :
    ((CTxMemPool.empty false).addAll openEnv entries).getCoins fundingTip
      (openEnv.getTxHash parent) = some (CCoins.fromTx parent MEMPOOL_HEIGHT) := by
  have hadded : ∃ e ∈ entries, openEnv.getTxHash e.tx = openEnv.getTxHash parent := by
    by_contra hno
    refine hthere ((CTxMemPool.getCoins_addAll entries _).mpr ⟨(familyTxs_fresh _ hparent).2.2,?_⟩)
    intro e he heq
    exact hno ⟨e,he,heq⟩
  obtain ⟨e,he,heq,hcoins⟩ := CTxMemPool.getCoins_added hadded
  rw [hcoins,familyTxs_hash _ (hentries e he) _ hparent heq]

theorem familyTxs_funding (hentries : ∀ e ∈ entries, e.tx ∈ familyTxs) :
    ((CTxMemPool.empty false).addAll openEnv entries).getCoins fundingTip 1 =
      some ⟨false,[⟨10,[]⟩,⟨10,[]⟩],0,1⟩ := by
  rw [CTxMemPool.getCoins_notAdded fun e he => (familyTxs_fresh e.tx (hentries e he)).1]
  rfl

theorem motherTx_acceptable :
    Acceptable openEnv openPolicy fundingTip (CTxMemPool.empty false) familyTxs motherTx := by
  intro call entries hentries hthere
  have hcoins := familyTxs_funding fun e he => (hentries e he).1
  rw [(familyTxs_fits (by decide) hentries).acceptToMemoryPool]
  simp only [motherTx,CTxMemPool.haveParents,CTxMemPool.haveCoins,hcoins]
  exact ⟨_,rfl⟩

theorem fatherTx_acceptable :
    Acceptable openEnv openPolicy fundingTip (CTxMemPool.empty false) familyTxs fatherTx := by
  intro call entries hentries hthere
  have hcoins := familyTxs_funding fun e he => (hentries e he).1
  rw [(familyTxs_fits (by decide) hentries).acceptToMemoryPool]
  simp only [fatherTx,CTxMemPool.haveParents,CTxMemPool.haveCoins,hcoins]
  exact ⟨_,rfl⟩

theorem childTx_acceptable :
    Acceptable openEnv openPolicy fundingTip (CTxMemPool.empty false) familyTxs childTx := by
  intro call entries hentries hthere
  have hin : ∀ e ∈ entries, e.tx ∈ familyTxs := fun e he => (hentries e he).1
  have hmother : ((CTxMemPool.empty false).addAll openEnv entries).getCoins fundingTip 2 =
      some (CCoins.fromTx motherTx MEMPOOL_HEIGHT) :=
    familyTxs_coins motherTx (by decide) hin (hthere ⟨⟨2,0⟩,[],0⟩ (by decide))
  have hfather : ((CTxMemPool.empty false).addAll openEnv entries).getCoins fundingTip 3 =
      some (CCoins.fromTx fatherTx MEMPOOL_HEIGHT) :=
    familyTxs_coins fatherTx (by decide) hin (hthere ⟨⟨3,0⟩,[],0⟩ (by decide))
  rw [(familyTxs_fits (by decide) hentries).acceptToMemoryPool]
  simp only [childTx,CTxMemPool.haveParents,CTxMemPool.haveCoins,hmother,hfather]
  exact ⟨_,rfl⟩

variable {txs : List CTransaction}

theorem dependsOn_family (htxs : ∀ tx, tx ∈ txs ↔ tx ∈ familyTxs) (p x : Uint256) :
    DependsOn openEnv txs p x ↔ x = 4 ∧ (p = 2 ∨ p = 3) := by
  have hmap : p ∈ txs.map openEnv.getTxHash ↔ p ∈ familyTxs.map openEnv.getTxHash := by
    simp only [List.mem_map,htxs]
  unfold DependsOn
  simp only [hmap,htxs]
  clear hmap
  constructor
  · rintro ⟨hp,tx,htx,rfl,txin,htxin,rfl⟩
    revert txin
    revert tx
    decide
  · rintro ⟨rfl,rfl | rfl⟩
    · decide
    · decide

theorem acceptable_congr {env : NodeEnv} {policy : RelayPolicy} {tip : CCoinsView}
    {pool₀ : CTxMemPool} {txs' : List CTransaction} (htxs : ∀ tx, tx ∈ txs ↔ tx ∈ txs')
    (h : Acceptable env policy tip pool₀ txs' tx) : Acceptable env policy tip pool₀ txs tx := by
  intro call entries hentries
  exact h call entries fun e he => ⟨(htxs _).mp (hentries e he).1,(hentries e he).2⟩

/-- The three transactions in any order. -/
theorem familyTxs_relayable (hperm : txs.Perm familyTxs) :
    Relayable openEnv openPolicy fundingTip (CTxMemPool.empty false) 100 txs := by
  have htxs : ∀ tx, tx ∈ txs ↔ tx ∈ familyTxs := fun tx => hperm.mem_iff
  refine ⟨?_,?_,?_,?_,?_,?_⟩
  · rw [(hperm.map openEnv.getTxHash).nodup_iff]
    decide
  · intro h hcycle
    obtain ⟨p,-,hp⟩ := Relation.TransGen.tail'_iff.mp hcycle
    obtain ⟨x,hx,-⟩ := Relation.TransGen.head'_iff.mp hcycle
    rw [dependsOn_family htxs] at hp hx
    obtain ⟨rfl,-⟩ := hp
    simp at hx
  · intro tx hin
    have hsmall : ∀ tx ∈ familyTxs, tx.getSerializeSize ≤ 5000 := by decide
    exact hsmall tx ((htxs tx).mp hin)
  · rw [hperm.length_eq]
    decide
  · intro tx hin txin htxin
    have hmap : txin.prevout.hash ∈ txs.map openEnv.getTxHash ↔
        txin.prevout.hash ∈ familyTxs.map openEnv.getTxHash := by
      simp only [List.mem_map,htxs]
    rw [hmap]
    exact familyTxs_parents tx ((htxs tx).mp hin) txin htxin
  · intro tx hin
    apply acceptable_congr htxs
    have hin := (htxs tx).mp hin
    simp only [familyTxs,List.mem_cons,List.not_mem_nil,or_false] at hin
    obtain rfl | rfl | rfl := hin
    · exact childTx_acceptable
    · exact motherTx_acceptable
    · exact fatherTx_acceptable

def messagesOf (txs : List CTransaction) : List TxMessage :=
  txs.map fun tx => ⟨0,false,tx,fun _ => 0⟩

theorem messagesOf_tx (txs : List CTransaction) : (messagesOf txs).map TxMessage.tx = txs := by
  simp [messagesOf,Function.comp_def]

/-- The parents are ready as soon as they have arrived. -/
theorem ready_parent (htxs : ∀ tx, tx ∈ txs ↔ tx ∈ familyTxs) {order : List Uint256} {p : Uint256}
    (hin : p ∈ order) (hp : p = 2 ∨ p = 3) : Ready (DependsOn openEnv txs) order p := by
  refine .intro hin fun q hq => ?_
  obtain ⟨rfl,-⟩ := (dependsOn_family htxs q p).mp hq
  simp at hp

theorem noParentSplit_between : NoParentSplit openEnv (messagesOf [motherTx,childTx,fatherTx]) := by
  have htxs : ∀ tx, tx ∈ (messagesOf [motherTx,childTx,fatherTx]).map TxMessage.tx ↔
      tx ∈ familyTxs := by
    intro tx
    rw [messagesOf_tx]
    simp [familyTxs,or_left_comm]
  have horder : (messagesOf [motherTx,childTx,fatherTx]).map (fun m => openEnv.getTxHash m.tx) =
      [2,4,3] := rfl
  unfold NoParentSplit
  rw [horder]
  intro earlier t later hsplit x hx _ p hp
  obtain ⟨rfl,hparent⟩ := (dependsOn_family htxs p x).mp hp
  have hall : earlier ++ [t] = [2,4,3] := by
    match earlier, hsplit with
    | [], _ => simp at hx
    | [a], hsplit =>
      simp only [List.cons_append,List.nil_append,List.cons.injEq] at hsplit
      rw [← hsplit.1] at hx
      simp at hx
    | [a,b], hsplit =>
      simp only [List.cons_append,List.nil_append,List.cons.injEq] at hsplit
      rw [← hsplit.1,← hsplit.2.1,← hsplit.2.2.1]
      rfl
    | a :: b :: c :: rest, hsplit => simp at hsplit
  rw [hall]
  apply ready_parent htxs _ hparent
  obtain rfl | rfl := hparent
  · decide
  · decide

theorem parentSplit_first : ¬NoParentSplit openEnv (messagesOf [childTx,motherTx,fatherTx]) := by
  have htxs : ∀ tx, tx ∈ (messagesOf [childTx,motherTx,fatherTx]).map TxMessage.tx ↔
      tx ∈ familyTxs := by
    intro tx
    rw [messagesOf_tx]
    rfl
  have hdep := dependsOn_family htxs
  have horder : (messagesOf [childTx,motherTx,fatherTx]).map (fun m => openEnv.getTxHash m.tx) =
      [4,2,3] := rfl
  unfold NoParentSplit
  rw [horder]
  intro h
  have hmother : Ready (DependsOn openEnv
      ((messagesOf [childTx,motherTx,fatherTx]).map TxMessage.tx)) ([4] ++ [2]) 2 :=
    ready_parent htxs (by decide) (.inl rfl)
  have hnot : ¬Ready (DependsOn openEnv ((messagesOf [childTx,motherTx,fatherTx]).map TxMessage.tx))
      [4] 2 := fun hr => absurd hr.arrived (by decide)
  have hready := h [4] 2 [3] rfl 4 (by decide) ⟨2,(hdep 2 4).mpr (by decide),hmother,hnot⟩ 3
    ((hdep 3 4).mpr (by decide))
  exact absurd hready.arrived (by decide)

/-- The orphan between its parents is taken in with the second of them. -/
theorem relay_complete_iff_between :
    Relayable openEnv openPolicy fundingTip (CTxMemPool.empty false) 100
      ((messagesOf [motherTx,childTx,fatherTx]).map TxMessage.tx) ∧
    Complete openEnv openPolicy fundingTip 100
      ⟨CTxMemPool.empty false,OrphanPool.empty,0,[],[]⟩
      (messagesOf [motherTx,childTx,fatherTx]) := by
  have h : Relayable openEnv openPolicy fundingTip (CTxMemPool.empty false) 100
      ((messagesOf [motherTx,childTx,fatherTx]).map TxMessage.tx) := by
    rw [messagesOf_tx]
    exact familyTxs_relayable (by decide)
  exact ⟨h,(relay_complete_iff 0 [] [] h).mpr noParentSplit_between⟩

/-- The orphan before both of its parents is lost when the first of them comes. -/
theorem relay_loses_orphan :
    Relayable openEnv openPolicy fundingTip (CTxMemPool.empty false) 100
      ((messagesOf [childTx,motherTx,fatherTx]).map TxMessage.tx) ∧
    ¬Complete openEnv openPolicy fundingTip 100
      ⟨CTxMemPool.empty false,OrphanPool.empty,0,[],[]⟩
      (messagesOf [childTx,motherTx,fatherTx]) := by
  have h : Relayable openEnv openPolicy fundingTip (CTxMemPool.empty false) 100
      ((messagesOf [childTx,motherTx,fatherTx]).map TxMessage.tx) := by
    rw [messagesOf_tx]
    exact familyTxs_relayable (by decide)
  exact ⟨h,fun hc => parentSplit_first ((complete_iff 0 [] [] h).mp hc)⟩

end Sample

end Anoncoin
