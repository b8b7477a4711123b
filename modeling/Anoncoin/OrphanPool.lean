import Anoncoin.Transaction
import Anoncoin.Lib.Runs
import Mathlib.Data.List.AList
import Mathlib.Data.List.Sort

/-!
The pool of orphan transactions of main.cpp: the transactions by txid, and the index
from a missing parent to the orphans that wait for it.
-/

set_option autoImplicit false

namespace Anoncoin
open Lib

abbrev NodeId := Int

structure COrphanTx where
  tx : CTransaction
  fromPeer : NodeId
  deriving DecidableEq, Repr

/-- `std::set<uint256>` as the ascending list of its elements. -/
abbrev HashSet256 := List Uint256

namespace HashSet256

def insert (s : HashSet256) (h : Uint256) : HashSet256 :=
  if h ∈ s then s else List.orderedInsert (fun a b => a.toNat ≤ b.toNat) h s

def erase (s : HashSet256) (h : Uint256) : HashSet256 := s.filter fun x => x ≠ h

@[simp] theorem mem_insert {s : HashSet256} {h x : Uint256} : x ∈ insert s h ↔ x = h ∨ x ∈ s := by
  unfold insert
  split
  · rename_i hs
    constructor
    · exact .inr
    · rintro (rfl | hx)
      · exact hs
      · exact hx
  · rw [List.mem_orderedInsert]

@[simp] theorem mem_erase {s : HashSet256} {h x : Uint256} : x ∈ erase s h ↔ x ∈ s ∧ x ≠ h := by
  simp [erase]

end HashSet256

structure OrphanPool where
  mapOrphanTransactions : AList fun _ : Uint256 => COrphanTx
  mapOrphanTransactionsByPrev : AList fun _ : Uint256 => HashSet256

namespace OrphanPool

def empty : OrphanPool := ⟨∅,∅⟩

def size (pool : OrphanPool) : Nat := pool.mapOrphanTransactions.entries.length

/-- The keys of `mapOrphanTransactions` in ascending order. -/
def keysInOrder (pool : OrphanPool) : List Uint256 :=
  pool.mapOrphanTransactions.keys.mergeSort fun a b => a.toNat ≤ b.toNat

/-- One round of the index loop of `AddOrphanTx`. -/
def indexInput (hash : Uint256) (byPrev : AList fun _ : Uint256 => HashSet256) (txin : CTxIn) :
    AList fun _ : Uint256 => HashSet256 :=
  byPrev.insert txin.prevout.hash (((byPrev.lookup txin.prevout.hash).getD []).insert hash)

/-- One round of the index loop of `EraseOrphanTx`. -/
def unindexInput (hash : Uint256) (byPrev : AList fun _ : Uint256 => HashSet256) (txin : CTxIn) :
    AList fun _ : Uint256 => HashSet256 :=
  match byPrev.lookup txin.prevout.hash with
  | none => byPrev
  | some s =>
      if (s.erase hash).isEmpty then byPrev.erase txin.prevout.hash
      else byPrev.insert txin.prevout.hash (s.erase hash)

section Operations
variable (getHash : CTransaction → Uint256)

def addOrphanTx (pool : OrphanPool) (tx : CTransaction) (peer : NodeId) : Bool × OrphanPool :=
  let hash := getHash tx
  if (pool.mapOrphanTransactions.lookup hash).isSome then (false,pool)
  else if 5000 < tx.getSerializeSize then (false,pool)
  else (true,⟨pool.mapOrphanTransactions.insert hash ⟨tx,peer⟩,
    tx.vin.foldl (indexInput hash) pool.mapOrphanTransactionsByPrev⟩)

def eraseOrphanTx (pool : OrphanPool) (hash : Uint256) : OrphanPool :=
  match pool.mapOrphanTransactions.lookup hash with
  | none => pool
  | some orphan => ⟨pool.mapOrphanTransactions.erase hash,
      orphan.tx.vin.foldl (unindexInput hash) pool.mapOrphanTransactionsByPrev⟩

/-- The loop of `EraseOrphansFor` over the nodes it has still to visit. A node that is
gone when its turn comes is an iterator that has become invalid. -/
def eraseOrphansLoop (peer : NodeId) (pool : OrphanPool) : List Uint256 → Option OrphanPool
  | [] => some pool
  | key :: rest =>
      match pool.mapOrphanTransactions.lookup key with
      | none => none
      | some orphan =>
          eraseOrphansLoop peer (if orphan.fromPeer = peer then
            pool.eraseOrphanTx (getHash orphan.tx) else pool) rest

def eraseOrphansFor (pool : OrphanPool) (peer : NodeId) : Option OrphanPool :=
  pool.eraseOrphansLoop getHash peer pool.keysInOrder

end Operations

/-- `lower_bound(randomhash)`, or the first orphan when that is the end. -/
def victim (pool : OrphanPool) (randomhash : Uint256) : Option Uint256 :=
  (pool.keysInOrder.find? fun k => randomhash.toNat ≤ k.toNat).or pool.keysInOrder.head?

theorem mem_keysInOrder {pool : OrphanPool} {k : Uint256} :
    k ∈ pool.keysInOrder ↔ k ∈ pool.mapOrphanTransactions := by
  unfold keysInOrder
  rw [(List.mergeSort_perm _ _).mem_iff]
  exact AList.mem_keys.symm

theorem victim_mem {pool : OrphanPool} {r k : Uint256} (h : pool.victim r = some k) :
    k ∈ pool.mapOrphanTransactions := by
  unfold victim at h
  rw [← mem_keysInOrder]
  cases hf : pool.keysInOrder.find? fun k => decide (r.toNat ≤ k.toNat) with
  | some x =>
    rw [hf,Option.some_or] at h
    obtain rfl := Option.some.inj h
    exact List.mem_of_find?_eq_some hf
  | none =>
    rw [hf,Option.none_or] at h
    exact List.mem_of_mem_head? h

theorem eraseOrphanTx_size {pool : OrphanPool} {k : Uint256}
    (h : k ∈ pool.mapOrphanTransactions) : (pool.eraseOrphanTx k).size+1 = pool.size := by
  obtain ⟨o,ho⟩ := Option.isSome_iff_exists.mp (AList.lookup_isSome.mpr h)
  have hmem : k ∈ pool.mapOrphanTransactions.keys := AList.mem_keys.mp h
  have hpos := List.length_pos_of_mem hmem
  have hlen : (pool.mapOrphanTransactions.erase k).keys.length =
      pool.mapOrphanTransactions.keys.length-1 := by
    rw [AList.keys_erase,List.length_erase_of_mem hmem]
  simp only [AList.keys,List.keys,List.length_map] at hlen hpos
  simp only [eraseOrphanTx,ho,size]
  omega

/-- `LimitOrphanTxSize`, with the hashes that `GetRandHash` gives; `none` would be the
end of the map dereferenced. -/
def limitOrphanTxSize (nMaxOrphans : Nat) (rand : Nat → Uint256) (nEvicted : Nat)
    (pool : OrphanPool) : Option (Nat × OrphanPool) :=
  if nMaxOrphans < pool.size then
    match h : pool.victim (rand nEvicted) with
    | none => none
    | some k => limitOrphanTxSize nMaxOrphans rand (nEvicted+1) (pool.eraseOrphanTx k)
  else some (nEvicted,pool)
  termination_by pool.size
  decreasing_by
    have hs := eraseOrphanTx_size (victim_mem h)
    omega

/-- What holds of the pool at all times. -/
structure Consistent (getHash : CTransaction → Uint256) (pool : OrphanPool) : Prop where
  index : ∀ h p, (∃ s, pool.mapOrphanTransactionsByPrev.lookup p = some s ∧ h ∈ s) ↔
    ∃ orphan, pool.mapOrphanTransactions.lookup h = some orphan ∧
      ∃ txin ∈ orphan.tx.vin, txin.prevout.hash = p
  nonempty : ∀ p s, pool.mapOrphanTransactionsByPrev.lookup p = some s → s ≠ []
  key : ∀ h orphan, pool.mapOrphanTransactions.lookup h = some orphan → getHash orphan.tx = h
  small : ∀ h orphan, pool.mapOrphanTransactions.lookup h = some orphan →
    orphan.tx.getSerializeSize ≤ 5000

section Index
variable {byPrev : AList fun _ : Uint256 => HashSet256} {hash h p : Uint256}

/-- No set of the index is empty. -/
def NoneEmpty (byPrev : AList fun _ : Uint256 => HashSet256) : Prop :=
  ∀ p s, byPrev.lookup p = some s → s ≠ []

/-- Membership in the set that the index has for a parent. -/
def Indexed (byPrev : AList fun _ : Uint256 => HashSet256) (h p : Uint256) : Prop :=
  ∃ s, byPrev.lookup p = some s ∧ h ∈ s

theorem indexInput_indexed {txin : CTxIn} :
    Indexed (indexInput hash byPrev txin) h p ↔
      Indexed byPrev h p ∨ (h = hash ∧ txin.prevout.hash = p) := by
  unfold Indexed indexInput
  by_cases hp : p = txin.prevout.hash
  · subst hp
    rw [AList.lookup_insert]
    cases hl : byPrev.lookup txin.prevout.hash with
    | none => simp
    | some s => simp [or_comm]
  · rw [AList.lookup_insert_ne hp]
    simp [Ne.symm hp]

theorem indexInput_noneEmpty {txin : CTxIn} (hne : NoneEmpty byPrev) :
    NoneEmpty (indexInput hash byPrev txin) := by
  intro p s hs
  unfold indexInput at hs
  by_cases hp : p = txin.prevout.hash
  · subst hp
    rw [AList.lookup_insert] at hs
    obtain rfl := Option.some.inj hs
    apply List.ne_nil_of_mem (a := hash)
    simp
  · rw [AList.lookup_insert_ne hp] at hs
    exact hne p s hs

/-- The whole loop: every parent named by the inputs, however often. -/
theorem indexInputs_spec (hne : NoneEmpty byPrev) (vin : List CTxIn) :
    NoneEmpty (vin.foldl (indexInput hash) byPrev) ∧
      ∀ h p, Indexed (vin.foldl (indexInput hash) byPrev) h p ↔
        Indexed byPrev h p ∨ (h = hash ∧ ∃ txin ∈ vin, txin.prevout.hash = p) := by
  induction vin generalizing byPrev with
  | nil => exact ⟨hne,fun h p => by simp⟩
  | cons txin rest ih =>
    have hfirst : NoneEmpty (indexInput hash byPrev txin) := indexInput_noneEmpty hne
    obtain ⟨hne',hrest⟩ := ih hfirst
    refine ⟨hne',fun h p => ?_⟩
    rw [List.foldl_cons,hrest,indexInput_indexed]
    simp only [List.mem_cons,exists_eq_or_imp]
    tauto

theorem unindexInput_indexed {txin : CTxIn} :
    Indexed (unindexInput hash byPrev txin) h p ↔
      Indexed byPrev h p ∧ ¬(h = hash ∧ txin.prevout.hash = p) := by
  unfold Indexed unindexInput
  cases hl : byPrev.lookup txin.prevout.hash with
  | none =>
    constructor
    · rintro ⟨s,hs,hh⟩
      refine ⟨⟨s,hs,hh⟩,?_⟩
      rintro ⟨-,rfl⟩
      rw [hl] at hs
      contradiction
    · exact fun hi => hi.1
  | some s =>
    simp only
    by_cases hp : p = txin.prevout.hash
    · subst hp
      split
      · rename_i hempty
        rw [AList.lookup_erase]
        constructor
        · rintro ⟨s',hs',-⟩
          contradiction
        · rintro ⟨⟨s',hs',hh⟩,hno⟩
          rw [hl] at hs'
          obtain rfl := Option.some.inj hs'
          have hmem : h ∈ HashSet256.erase s hash :=
            HashSet256.mem_erase.mpr ⟨hh,fun he => hno ⟨he,rfl⟩⟩
          rw [List.isEmpty_iff.mp hempty] at hmem
          simp at hmem
      · rw [AList.lookup_insert]
        simp [hl]
    · have hsame : (if (HashSet256.erase s hash).isEmpty then byPrev.erase txin.prevout.hash
          else byPrev.insert txin.prevout.hash (HashSet256.erase s hash)).lookup p =
          byPrev.lookup p := by
        split
        · rw [AList.lookup_erase_ne hp]
        · rw [AList.lookup_insert_ne hp]
      rw [hsame]
      simp [Ne.symm hp]

theorem unindexInput_noneEmpty {txin : CTxIn} (hne : NoneEmpty byPrev) :
    NoneEmpty (unindexInput hash byPrev txin) := by
  intro p s hs
  unfold unindexInput at hs
  cases hl : byPrev.lookup txin.prevout.hash with
  | none =>
    rw [hl] at hs
    exact hne p s hs
  | some s' =>
    simp only [hl] at hs
    by_cases hp : p = txin.prevout.hash
    · subst hp
      split at hs
      · rw [AList.lookup_erase] at hs
        contradiction
      · rename_i hempty
        rw [AList.lookup_insert] at hs
        obtain rfl := Option.some.inj hs
        simpa using hempty
    · split at hs
      · rw [AList.lookup_erase_ne hp] at hs
        exact hne p s hs
      · rw [AList.lookup_insert_ne hp] at hs
        exact hne p s hs

theorem unindexInputs_spec (hne : NoneEmpty byPrev) (vin : List CTxIn) :
    NoneEmpty (vin.foldl (unindexInput hash) byPrev) ∧
      ∀ h p, Indexed (vin.foldl (unindexInput hash) byPrev) h p ↔
        Indexed byPrev h p ∧ ¬(h = hash ∧ ∃ txin ∈ vin, txin.prevout.hash = p) := by
  induction vin generalizing byPrev with
  | nil => exact ⟨hne,fun h p => by simp⟩
  | cons txin rest ih =>
    have hfirst : NoneEmpty (unindexInput hash byPrev txin) := unindexInput_noneEmpty hne
    obtain ⟨hne',hrest⟩ := ih hfirst
    refine ⟨hne',fun h p => ?_⟩
    rw [List.foldl_cons,hrest,unindexInput_indexed]
    simp only [List.mem_cons,exists_eq_or_imp]
    by_cases hh : h = hash
    · simp only [hh,true_and,not_or,and_assoc]
    · simp only [hh,false_and,not_false_eq_true,and_true]

end Index

variable {getHash : CTransaction → Uint256} {pool : OrphanPool}

theorem empty_consistent : empty.Consistent getHash := by
  constructor <;> simp [empty]

theorem addOrphanTx_consistent (h : pool.Consistent getHash) (tx : CTransaction) (peer : NodeId) :
    (pool.addOrphanTx getHash tx peer).2.Consistent getHash := by
  unfold addOrphanTx
  simp only
  split
  · exact h
  · rename_i hnew
    have hnone : pool.mapOrphanTransactions.lookup (getHash tx) = none := by simpa using hnew
    split
    · exact h
    · rename_i hsize
      obtain ⟨hne,hindex⟩ := @indexInputs_spec pool.mapOrphanTransactionsByPrev (getHash tx)
        h.nonempty tx.vin
      refine ⟨?_,hne,?_,?_⟩
      · intro x p
        refine (hindex x p).trans ?_
        by_cases hx : x = getHash tx
        · subst hx
          rw [AList.lookup_insert]
          have hold : ¬Indexed pool.mapOrphanTransactionsByPrev (getHash tx) p := by
            intro hi
            obtain ⟨o,ho,-⟩ := (h.index _ p).mp hi
            rw [hnone] at ho
            contradiction
          simp [hold]
        · rw [AList.lookup_insert_ne hx]
          simp only [hx,false_and,or_false]
          exact h.index x p
      · intro x o ho
        by_cases hx : x = getHash tx
        · subst hx
          rw [AList.lookup_insert] at ho
          rw [← Option.some.inj ho]
        · rw [AList.lookup_insert_ne hx] at ho
          exact h.key x o ho
      · intro x o ho
        by_cases hx : x = getHash tx
        · subst hx
          rw [AList.lookup_insert] at ho
          rw [← Option.some.inj ho]
          simp only
          omega
        · rw [AList.lookup_insert_ne hx] at ho
          exact h.small x o ho

theorem eraseOrphanTx_lookup (pool : OrphanPool) (k x : Uint256) :
    (pool.eraseOrphanTx k).mapOrphanTransactions.lookup x =
      if x = k then none else pool.mapOrphanTransactions.lookup x := by
  unfold eraseOrphanTx
  cases hl : pool.mapOrphanTransactions.lookup k with
  | none =>
    simp only
    split
    · rename_i hx
      rw [hx,hl]
    · rfl
  | some o =>
    simp only
    split
    · rename_i hx
      rw [hx,AList.lookup_erase]
    · rename_i hx
      rw [AList.lookup_erase_ne hx]

theorem eraseOrphanTx_consistent (h : pool.Consistent getHash) (k : Uint256) :
    (pool.eraseOrphanTx k).Consistent getHash := by
  have hlookup := pool.eraseOrphanTx_lookup k
  have hsub : ∀ x o, (pool.eraseOrphanTx k).mapOrphanTransactions.lookup x = some o →
      pool.mapOrphanTransactions.lookup x = some o := by
    intro x o ho
    rw [hlookup] at ho
    split at ho
    · contradiction
    · exact ho
  cases hl : pool.mapOrphanTransactions.lookup k with
  | none =>
    have hsame : pool.eraseOrphanTx k = pool := by simp only [eraseOrphanTx,hl]
    rw [hsame]
    exact h
  | some orphan =>
    have hprev : (pool.eraseOrphanTx k).mapOrphanTransactionsByPrev =
        orphan.tx.vin.foldl (unindexInput k) pool.mapOrphanTransactionsByPrev := by
      simp only [eraseOrphanTx,hl]
    obtain ⟨hne,hindex⟩ := @unindexInputs_spec pool.mapOrphanTransactionsByPrev k h.nonempty
      orphan.tx.vin
    refine ⟨?_,by rw [hprev]; exact hne,fun x o ho => h.key x o (hsub x o ho),
      fun x o ho => h.small x o (hsub x o ho)⟩
    intro x p
    rw [hprev,hlookup]
    refine (hindex x p).trans ?_
    by_cases hx : x = k
    · subst hx
      simp only [true_and,if_true,reduceCtorEq,false_and,exists_false,iff_false,not_and,not_not]
      intro hi
      obtain ⟨o,ho,hin⟩ := (h.index x p).mp hi
      rw [hl] at ho
      obtain rfl := Option.some.inj ho
      exact hin
    · simp only [hx,false_and,not_false_eq_true,and_true,if_false]
      exact h.index x p

/-- Erasing an orphan leaves the nodes still to be visited in place, so the loop meets
no invalid iterator. -/
theorem eraseOrphansLoop_spec (h : pool.Consistent getHash) (peer : NodeId) {keys : List Uint256}
    (hnd : keys.Nodup) (hkeys : ∀ k ∈ keys, k ∈ pool.mapOrphanTransactions) :
    ∃ pool', pool.eraseOrphansLoop getHash peer keys = some pool' ∧ pool'.Consistent getHash ∧
      ∀ x, pool'.mapOrphanTransactions.lookup x =
        (pool.mapOrphanTransactions.lookup x).filter fun o => !(x ∈ keys && o.fromPeer = peer) := by
  induction keys generalizing pool with
  | nil =>
    refine ⟨pool,rfl,h,fun x => ?_⟩
    cases pool.mapOrphanTransactions.lookup x <;> simp [Option.filter]
  | cons k rest ih =>
    obtain ⟨hk,hnd'⟩ := List.nodup_cons.mp hnd
    obtain ⟨o,ho⟩ := Option.isSome_iff_exists.mp
      (AList.lookup_isSome.mpr (hkeys k (by simp)))
    unfold eraseOrphansLoop
    simp only [ho]
    by_cases hpeer : o.fromPeer = peer
    · rw [if_pos hpeer,h.key k o ho]
      have hrest : ∀ x ∈ rest, x ∈ (pool.eraseOrphanTx k).mapOrphanTransactions := by
        intro x hx
        have hne : x ≠ k := by
          rintro rfl
          exact hk hx
        rw [← AList.lookup_isSome,eraseOrphanTx_lookup,if_neg hne,AList.lookup_isSome]
        exact hkeys x (by simp [hx])
      obtain ⟨pool',hrun,hc,hlook⟩ := ih (eraseOrphanTx_consistent h k) hnd' hrest
      refine ⟨pool',hrun,hc,fun x => ?_⟩
      rw [hlook,eraseOrphanTx_lookup]
      by_cases hx : x = k
      · subst hx
        simp [ho,hpeer,Option.filter]
      · simp [hx]
    · rw [if_neg hpeer]
      obtain ⟨pool',hrun,hc,hlook⟩ := ih h hnd' fun x hx => hkeys x (by simp [hx])
      refine ⟨pool',hrun,hc,fun x => ?_⟩
      rw [hlook]
      by_cases hx : x = k
      · subst hx
        simp [ho,hpeer,Option.filter]
      · simp [hx]

theorem keysInOrder_nodup (pool : OrphanPool) : pool.keysInOrder.Nodup :=
  (List.mergeSort_perm _ _).nodup_iff.mpr (AList.keys_nodup _)

/-- `EraseOrphansFor` takes out the orphans of the peer and no others. -/
theorem eraseOrphansFor_spec (h : pool.Consistent getHash) (peer : NodeId) :
    ∃ pool', pool.eraseOrphansFor getHash peer = some pool' ∧ pool'.Consistent getHash ∧
      ∀ x, pool'.mapOrphanTransactions.lookup x =
        (pool.mapOrphanTransactions.lookup x).filter fun o => o.fromPeer ≠ peer := by
  obtain ⟨pool',hrun,hc,hlook⟩ := eraseOrphansLoop_spec h peer pool.keysInOrder_nodup
    fun k hk => mem_keysInOrder.mp hk
  refine ⟨pool',hrun,hc,fun x => ?_⟩
  rw [hlook]
  cases hl : pool.mapOrphanTransactions.lookup x with
  | none => rfl
  | some o =>
    have hx : x ∈ pool.keysInOrder := by
      rw [mem_keysInOrder,← AList.lookup_isSome,hl]
      rfl
    simp [Option.filter,hx]

theorem victim_isSome {r : Uint256} (h : 0 < pool.size) : ∃ k, pool.victim r = some k := by
  have hne : pool.keysInOrder ≠ [] := by
    intro hnil
    have hlen : pool.keysInOrder.length = pool.size := by
      unfold keysInOrder size
      rw [(List.mergeSort_perm _ _).length_eq]
      simp [AList.keys,List.keys]
    rw [hnil] at hlen
    simp at hlen
    omega
  obtain ⟨k,hk⟩ := Option.isSome_iff_exists.mp (List.isSome_head?.mpr hne)
  unfold victim
  rw [hk]
  cases pool.keysInOrder.find? fun k => decide (r.toNat ≤ k.toNat) with
  | none => exact ⟨k,rfl⟩
  | some x => exact ⟨x,rfl⟩

theorem limitOrphanTxSize_spec (h : pool.Consistent getHash) (nMaxOrphans : Nat)
    (rand : Nat → Uint256) (nEvicted : Nat) :
    ∃ pool', pool.limitOrphanTxSize nMaxOrphans rand nEvicted =
        some (nEvicted+(pool.size-nMaxOrphans),pool') ∧
      pool'.Consistent getHash ∧ pool'.size ≤ nMaxOrphans := by
  induction hn : pool.size generalizing pool nEvicted with
  | zero =>
    unfold limitOrphanTxSize
    rw [if_neg (by omega)]
    exact ⟨pool,by simp,h,by omega⟩
  | succ n ih =>
    unfold limitOrphanTxSize
    by_cases hlt : nMaxOrphans < pool.size
    · rw [if_pos hlt]
      obtain ⟨k,hk⟩ := @victim_isSome pool (rand nEvicted) (by omega)
      have hs := eraseOrphanTx_size (victim_mem hk)
      obtain ⟨pool',hrun,hc,hle⟩ := ih (eraseOrphanTx_consistent h k) (nEvicted+1) (by omega)
      refine ⟨pool',?_,hc,hle⟩
      split
      · rename_i hnone
        rw [hk] at hnone
        contradiction
      · rename_i k' hk'
        rw [hk] at hk'
        obtain rfl := Option.some.inj hk'
        rw [hrun,show nEvicted+1+(n-nMaxOrphans) = nEvicted+(n+1-nMaxOrphans) by omega]
    · rw [if_neg hlt]
      refine ⟨pool,?_,h,by omega⟩
      rw [show nEvicted+(n+1-nMaxOrphans) = nEvicted by omega]

end OrphanPool

/-- The operations on the orphan pool. -/
inductive OrphanEvent where
  | addOrphanTx (tx : CTransaction) (peer : NodeId)
  | eraseOrphanTx (hash : Uint256)
  | eraseOrphansFor (peer : NodeId)
  | limitOrphanTxSize (nMaxOrphans : Nat) (rand : Nat → Uint256)

namespace OrphanPool

def step (getHash : CTransaction → Uint256) (pool : OrphanPool) : OrphanEvent → Option OrphanPool
  | .addOrphanTx tx peer => some (pool.addOrphanTx getHash tx peer).2
  | .eraseOrphanTx hash => some (pool.eraseOrphanTx hash)
  | .eraseOrphansFor peer => pool.eraseOrphansFor getHash peer
  | .limitOrphanTxSize nMaxOrphans rand =>
      (pool.limitOrphanTxSize nMaxOrphans rand 0).map Prod.snd

def run (getHash : CTransaction → Uint256) (pool : OrphanPool) (events : List OrphanEvent) :
    Option OrphanPool := events.foldlM (step getHash) pool

theorem step_consistent {getHash : CTransaction → Uint256} {pool : OrphanPool}
    (h : pool.Consistent getHash) (e : OrphanEvent) :
    ∃ pool', pool.step getHash e = some pool' ∧ pool'.Consistent getHash := by
  cases e with
  | addOrphanTx tx peer => exact ⟨_,rfl,addOrphanTx_consistent h tx peer⟩
  | eraseOrphanTx hash => exact ⟨_,rfl,eraseOrphanTx_consistent h hash⟩
  | eraseOrphansFor peer =>
    obtain ⟨pool',hrun,hc,-⟩ := eraseOrphansFor_spec h peer
    exact ⟨pool',hrun,hc⟩
  | limitOrphanTxSize n rand =>
    obtain ⟨pool',hrun,hc,-⟩ := limitOrphanTxSize_spec h n rand 0
    exact ⟨pool',by simp only [step,hrun,Option.map_some],hc⟩

theorem run_consistent {getHash : CTransaction → Uint256} {pool : OrphanPool}
    (h : pool.Consistent getHash) (events : List OrphanEvent) :
    ∃ pool', pool.run getHash events = some pool' ∧ pool'.Consistent getHash := by
  induction events generalizing pool with
  | nil => exact ⟨pool,rfl,h⟩
  | cons e rest ih =>
    obtain ⟨pool₁,hstep,hc₁⟩ := step_consistent h e
    obtain ⟨pool₂,hrun,hc₂⟩ := ih hc₁
    refine ⟨pool₂,?_,hc₂⟩
    unfold run at hrun ⊢
    rw [List.foldlM_cons,hstep]
    exact hrun

/-- After any operations the pool and its index agree, and the limit can be enforced. -/
theorem orphanPool_consistent (getHash : CTransaction → Uint256) (events : List OrphanEvent) :
    ∃ pool, empty.run getHash events = some pool ∧ pool.Consistent getHash ∧
      ∀ nMaxOrphans rand, ∃ nEvicted pool',
        pool.limitOrphanTxSize nMaxOrphans rand 0 = some (nEvicted,pool') ∧
        pool'.size ≤ nMaxOrphans := by
  obtain ⟨pool,hrun,hc⟩ := run_consistent empty_consistent events
  refine ⟨pool,hrun,hc,fun n rand => ?_⟩
  obtain ⟨pool',hlimit,-,hle⟩ := limitOrphanTxSize_spec hc n rand 0
  exact ⟨_,pool',hlimit,hle⟩

end OrphanPool

end Anoncoin
