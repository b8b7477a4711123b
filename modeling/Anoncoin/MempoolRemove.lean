import Anoncoin.ConnectSpec
import Anoncoin.Lib.Containers
import Anoncoin.Lib.Worklist
import Anoncoin.Mempool

/-!
`CTxMemPool::remove` (txmempool.cpp): the removal of a transaction with all its descendants, over
pools whose `mapNextTx` is exact.
-/

set_option autoImplicit false

namespace Anoncoin
open Lib

/-- The transaction spends one of the first `outputs` outputs of the transaction with the hash. -/
def Spends (tx : CTransaction) (hash : Uint256) (outputs : Nat) : Prop :=
  ∃ txin ∈ tx.vin, txin.prevout.hash = hash ∧ txin.prevout.n < outputs

namespace CTxMemPool

/-- Each entry is filed under the hash of its transaction, and `mapNextTx` has exactly the inputs of
the transactions of the pool. -/
structure NextExact (env : NodeEnv) (pool : CTxMemPool) : Prop where
  keyed : ∀ hash entry, pool.mapTx.lookup hash = some entry → env.getTxHash entry.tx = hash
  next : ∀ out p, pool.mapNextTx.lookup out = some p ↔
    ∃ entry, pool.mapTx.lookup p.ptx = some entry ∧
      (entry.tx.vin[p.n]?).map CTxIn.prevout = some out

/-- `totalTxSize` is the sum of the sizes of the entries, as a 64 bit number. -/
def SizeExact (pool : CTxMemPool) : Prop :=
  pool.totalTxSize = (pool.mapTx.entries.map fun e => BitVec.ofNat 64 e.2.nTxSize).sum

/-- The pool transactions that spend an output of `tx`, directly or through others. -/
inductive Descendant (env : NodeEnv) (pool : CTxMemPool) (tx : CTransaction) : Uint256 → Prop
  | spends {hash : Uint256} {entry : CTxMemPoolEntry} :
      pool.mapTx.lookup hash = some entry →
      Spends entry.tx (env.getTxHash tx) tx.vout.length → Descendant env pool tx hash
  | further {hash hash' : Uint256} {entry entry' : CTxMemPoolEntry} :
      Descendant env pool tx hash → pool.mapTx.lookup hash = some entry →
      pool.mapTx.lookup hash' = some entry' → Spends entry'.tx hash entry.tx.vout.length →
      Descendant env pool tx hash'

section Exact
variable {env : NodeEnv} {pool : CTxMemPool} {hash : Uint256} {entry : CTxMemPoolEntry}

theorem NextExact.spender (h : NextExact env pool) (out : COutPoint) :
    ((pool.mapNextTx.lookup out).bind pool.deref).map env.getTxHash =
      (pool.mapNextTx.lookup out).map CInPoint.ptx := by
  cases hp : pool.mapNextTx.lookup out with
  | none => rfl
  | some p =>
    obtain ⟨e,he,-⟩ := (h.next out p).mp hp
    simp [deref,lookup,he,h.keyed p.ptx e he]

theorem NextExact.mem_spenders (h : NextExact env pool) {tx : CTransaction} {b : Uint256} :
    b ∈ pool.spenders env hash tx ↔
      ∃ entry, pool.mapTx.lookup b = some entry ∧ Spends entry.tx hash tx.vout.length := by
  unfold spenders Spends
  simp only [h.spender,List.mem_filterMap,List.mem_range,Option.map_eq_some_iff]
  constructor
  · rintro ⟨i,hi,p,hp,rfl⟩
    obtain ⟨e,he,hin⟩ := (h.next ⟨hash,i⟩ p).mp hp
    obtain ⟨txin,htxin,hout⟩ := Option.map_eq_some_iff.mp hin
    exact ⟨e,he,txin,List.mem_of_getElem? htxin,by simp [hout],by simpa [hout] using hi⟩
  · rintro ⟨e,he,txin,htxin,rfl,hlt⟩
    obtain ⟨n,hn⟩ := List.getElem?_of_mem htxin
    exact ⟨txin.prevout.n,hlt,⟨b,n⟩,(h.next _ _).mpr ⟨e,he,by simp [hn]⟩,rfl⟩

theorem eraseInputs_lookup (mapNextTx : AList fun _ : COutPoint => CInPoint) (vin : List CTxIn)
    (out : COutPoint) : (eraseInputs mapNextTx vin).lookup out =
      if ∃ txin ∈ vin, txin.prevout = out then none else mapNextTx.lookup out := by
  unfold eraseInputs
  induction vin generalizing mapNextTx with
  | nil => simp
  | cons txin rest ih =>
    rw [List.foldl_cons,ih]
    by_cases hrest : ∃ txin ∈ rest, txin.prevout = out
    · obtain ⟨x,hx,hout⟩ := hrest
      rw [if_pos ⟨x,hx,hout⟩,if_pos ⟨x,List.mem_cons_of_mem _ hx,hout⟩]
    · rw [if_neg hrest]
      by_cases htxin : txin.prevout = out
      · rw [if_pos ⟨txin,List.mem_cons_self,htxin⟩,htxin,AList.lookup_erase]
      · have hnone : ¬∃ x ∈ txin :: rest, x.prevout = out := by
          rintro ⟨x,hx,hout⟩
          rcases List.mem_cons.mp hx with rfl | hx
          · exact htxin hout
          · exact hrest ⟨x,hx,hout⟩
        rw [if_neg hnone,AList.lookup_erase_ne (Ne.symm htxin)]

theorem removeEntry_lookup (pool : CTxMemPool) (hash : Uint256) (entry : CTxMemPoolEntry)
    (other : Uint256) : (pool.removeEntry hash entry).mapTx.lookup other =
      if other = hash then none else pool.mapTx.lookup other := by
  unfold removeEntry
  split
  · rename_i heq
    rw [heq,AList.lookup_erase]
  · rename_i hne
    rw [AList.lookup_erase_ne hne]

/-- One round of the loop keeps `mapNextTx` exact. -/
theorem NextExact.removeEntry (h : NextExact env pool)
    (he : pool.mapTx.lookup hash = some entry) : NextExact env (pool.removeEntry hash entry) where
  keyed := by
    intro other e hother
    rw [removeEntry_lookup] at hother
    split at hother
    · contradiction
    · exact h.keyed other e hother
  next := by
    intro out p
    have hnext : (pool.removeEntry hash entry).mapNextTx.lookup out =
        if ∃ txin ∈ entry.tx.vin, txin.prevout = out then none else pool.mapNextTx.lookup out :=
      eraseInputs_lookup _ _ _
    rw [hnext,removeEntry_lookup]
    by_cases hspent : ∃ txin ∈ entry.tx.vin, txin.prevout = out
    · obtain ⟨txin,htxin,hout⟩ := hspent
      rw [if_pos ⟨txin,htxin,hout⟩]
      refine ⟨fun hno => by contradiction,?_⟩
      rintro ⟨e,hlookup,hin⟩
      split at hlookup
      · contradiction
      · rename_i hne
        obtain ⟨n,hn⟩ := List.getElem?_of_mem htxin
        have hp := (h.next out p).mpr ⟨e,hlookup,hin⟩
        have hq := (h.next out ⟨hash,n⟩).mpr ⟨entry,he,by simp [hn,hout]⟩
        rw [hp] at hq
        exact absurd (congrArg CInPoint.ptx (Option.some.inj hq)) hne
    · rw [if_neg hspent,h.next]
      constructor
      · rintro ⟨e,hlookup,hin⟩
        have hne : p.ptx ≠ hash := by
          intro heq
          rw [heq,he] at hlookup
          obtain rfl := Option.some.inj hlookup
          obtain ⟨txin,htxin,hout⟩ := Option.map_eq_some_iff.mp hin
          exact hspent ⟨txin,List.mem_of_getElem? htxin,hout⟩
        exact ⟨e,by rw [if_neg hne,hlookup],hin⟩
      · rintro ⟨e,hlookup,hin⟩
        split at hlookup
        · contradiction
        · exact ⟨e,hlookup,hin⟩

theorem SizeExact.removeEntry (h : SizeExact pool) (he : pool.mapTx.lookup hash = some entry) :
    SizeExact (pool.removeEntry hash entry) := by
  unfold SizeExact at h ⊢
  have hsum := sum_erase (fun e => BitVec.ofNat 64 e.2.nTxSize) he
  rw [← h] at hsum
  have hsize : (pool.removeEntry hash entry).totalTxSize =
      pool.totalTxSize-BitVec.ofNat 64 entry.nTxSize := rfl
  rw [hsize,← hsum]
  exact add_sub_cancel_left _ _

theorem nextExact_empty (env : NodeEnv) (fSanityCheck : Bool) :
    NextExact env (.empty fSanityCheck) := by
  have htx : ∀ hash, (CTxMemPool.empty fSanityCheck).mapTx.lookup hash = none := fun _ => rfl
  have hnext : ∀ out, (CTxMemPool.empty fSanityCheck).mapNextTx.lookup out = none := fun _ => rfl
  refine ⟨?_,?_⟩
  · intro hash entry h
    rw [htx] at h
    contradiction
  · intro out p
    simp [htx,hnext]

/-- What `addUnchecked` makes of `mapNextTx`, for inputs that differ. -/
theorem markInputs_iff {mapNextTx : AList fun _ : COutPoint => CInPoint} {i : Nat}
    {vin : List CTxIn} (hnodup : (vin.map CTxIn.prevout).Nodup) (out : COutPoint) (p : CInPoint) :
    (markInputs hash mapNextTx i vin).lookup out = some p ↔
      (∃ k, p = ⟨hash,i+k⟩ ∧ (vin[k]?).map CTxIn.prevout = some out) ∨
      (out ∉ vin.map CTxIn.prevout ∧ mapNextTx.lookup out = some p) := by
  induction vin generalizing mapNextTx i with
  | nil => simp [markInputs]
  | cons txin rest ih =>
    obtain ⟨hfresh,hrest⟩ := List.nodup_cons.mp hnodup
    rw [markInputs,ih hrest]
    by_cases hout : out = txin.prevout
    · subst hout
      rw [AList.lookup_insert]
      constructor
      · rintro (⟨k,-,hk⟩ | ⟨-,hp⟩)
        · obtain ⟨x,hx,hxout⟩ := Option.map_eq_some_iff.mp hk
          exact absurd (List.mem_map.mpr ⟨x,List.mem_of_getElem? hx,hxout⟩) hfresh
        · exact .inl ⟨0,(Option.some.inj hp).symm,rfl⟩
      · rintro (⟨k,hp,hk⟩ | ⟨hno,-⟩)
        · cases k with
          | zero => exact .inr ⟨hfresh,by rw [hp]; rfl⟩
          | succ k =>
            obtain ⟨x,hx,hxout⟩ := Option.map_eq_some_iff.mp hk
            have hxmem : x ∈ rest := List.mem_of_getElem? (by simpa using hx)
            exact absurd (List.mem_map.mpr ⟨x,hxmem,hxout⟩) hfresh
        · simp at hno
    · rw [AList.lookup_insert_ne hout]
      refine or_congr ?_ ?_
      · constructor
        · rintro ⟨k,hp,hk⟩
          exact ⟨k+1,by rw [hp]; congr 1; omega,by simpa using hk⟩
        · rintro ⟨k,hp,hk⟩
          cases k with
          | zero => exact absurd (by simpa using hk.symm) hout
          | succ k => exact ⟨k,by rw [hp]; congr 1; omega,by simpa using hk⟩
      · simp [hout]

/-- A new transaction whose inputs nobody in the pool spends keeps `mapNextTx` exact. -/
theorem NextExact.addUnchecked (h : NextExact env pool) (hhash : env.getTxHash entry.tx = hash)
    (hnew : pool.mapTx.lookup hash = none) (hnodup : (entry.tx.vin.map CTxIn.prevout).Nodup)
    (hfree : ∀ txin ∈ entry.tx.vin, pool.mapNextTx.lookup txin.prevout = none) :
    NextExact env (pool.addUnchecked hash entry) where
  keyed := by
    intro other e he
    by_cases heq : other = hash
    · subst heq
      obtain rfl : entry = e := by simpa [CTxMemPool.addUnchecked] using he
      exact hhash
    · simp only [CTxMemPool.addUnchecked,AList.lookup_insert_ne heq] at he
      exact h.keyed other e he
  next := by
    intro out p
    have hmark := @markInputs_iff hash pool.mapNextTx 0 entry.tx.vin hnodup out p
    simp only [CTxMemPool.addUnchecked]
    rw [hmark]
    constructor
    · rintro (⟨k,rfl,hk⟩ | ⟨-,hp⟩)
      · exact ⟨entry,by simp,by simpa using hk⟩
      · obtain ⟨e,he,hin⟩ := (h.next out p).mp hp
        have hne : p.ptx ≠ hash := by
          intro heq
          rw [heq,hnew] at he
          contradiction
        exact ⟨e,by rw [AList.lookup_insert_ne hne,he],hin⟩
    · rintro ⟨e,he,hin⟩
      by_cases heq : p.ptx = hash
      · rw [heq,AList.lookup_insert] at he
        obtain rfl := Option.some.inj he
        exact .inl ⟨p.n,by rw [← heq,Nat.zero_add],hin⟩
      · rw [AList.lookup_insert_ne heq] at he
        have hp := (h.next out p).mpr ⟨e,he,hin⟩
        refine .inr ⟨?_,hp⟩
        intro hmem
        obtain ⟨txin,htxin,hout⟩ := List.mem_map.mp hmem
        rw [← hout,hfree txin htxin] at hp
        contradiction

end Exact

section Loop
variable {env : NodeEnv} {start pool : CTxMemPool} {hash : Uint256} {entry : CTxMemPoolEntry}
  {removed : List CTransaction} {queue : List Uint256}

theorem removeLoop_nil : pool.removeLoop env true removed [] = (pool,removed) := by
  rw [removeLoop]

theorem removeLoop_none (h : pool.mapTx.lookup hash = none) :
    pool.removeLoop env true removed (hash :: queue) = pool.removeLoop env true removed queue := by
  rw [removeLoop]
  split
  · rfl
  · rename_i e he
    rw [h] at he
    contradiction

theorem removeLoop_some (h : pool.mapTx.lookup hash = some entry) :
    pool.removeLoop env true removed (hash :: queue) =
      (pool.removeEntry hash entry).removeLoop env true (removed ++ [entry.tx])
        (queue ++ pool.spenders env hash entry.tx) := by
  rw [removeLoop]
  split
  · rename_i hnone
    rw [h] at hnone
    contradiction
  · rename_i e he
    obtain rfl := Option.some.inj (h.symm.trans he)
    rfl

/-- The keys of `mapTx`. -/
def hashes (pool : CTxMemPool) : Finset Uint256 := pool.mapTx.keys.toFinset

theorem mem_hashes : hash ∈ pool.hashes ↔ ∃ entry, pool.mapTx.lookup hash = some entry := by
  unfold hashes
  rw [List.mem_toFinset,← AList.mem_keys,← AList.lookup_isSome,Option.isSome_iff_exists]

theorem hashes_removeEntry (pool : CTxMemPool) (hash : Uint256) (entry : CTxMemPoolEntry) :
    (pool.removeEntry hash entry).hashes = pool.hashes.erase hash := by
  ext other
  rw [Finset.mem_erase,mem_hashes,mem_hashes,removeEntry_lookup]
  by_cases heq : other = hash
  · simp [heq]
  · simp [heq]

/-- The edges of the graph of the pool: who spends the outputs of a pool transaction. -/
def children (env : NodeEnv) (pool : CTxMemPool) (hash : Uint256) : List Uint256 :=
  (pool.mapTx.lookup hash).elim [] fun entry => pool.spenders env hash entry.tx

/-- What is left of a pool while `remove` is at work. -/
structure PartOf (env : NodeEnv) (start pool : CTxMemPool) : Prop where
  exact : NextExact env pool
  sub : ∀ hash entry, pool.mapTx.lookup hash = some entry →
    start.mapTx.lookup hash = some entry

theorem PartOf.removeEntry (h : PartOf env start pool)
    (he : pool.mapTx.lookup hash = some entry) :
    PartOf env start (pool.removeEntry hash entry) where
  exact := h.exact.removeEntry he
  sub := by
    intro other e hother
    rw [removeEntry_lookup] at hother
    split at hother
    · contradiction
    · exact h.sub other e hother

/-- An input that is still in the map was there at the start. -/
theorem PartOf.next (h : PartOf env start pool) (hstart : NextExact env start) {out : COutPoint}
    {p : CInPoint} : pool.mapNextTx.lookup out = some p ↔
      start.mapNextTx.lookup out = some p ∧ p.ptx ∈ pool.hashes := by
  rw [h.exact.next,hstart.next,mem_hashes]
  constructor
  · rintro ⟨e,he,hin⟩
    exact ⟨⟨e,h.sub _ _ he,hin⟩,e,he⟩
  · rintro ⟨⟨e,he,hin⟩,e',he'⟩
    obtain rfl := Option.some.inj ((h.sub _ _ he').symm.trans he)
    exact ⟨e',he',hin⟩

/-- The spenders that are found later are those found at the start which are still there. -/
theorem PartOf.spenders (h : PartOf env start pool) (hstart : NextExact env start)
    (tx : CTransaction) : pool.spenders env hash tx =
      (start.spenders env hash tx).filter fun b => decide (b ∈ pool.hashes) := by
  unfold CTxMemPool.spenders
  rw [List.filter_filterMap]
  refine List.filterMap_congr fun i _ => ?_
  rw [h.exact.spender,hstart.spender]
  cases hp : pool.mapNextTx.lookup ⟨hash,i⟩ with
  | some p =>
    obtain ⟨hold,hmem⟩ := (h.next hstart).mp hp
    simp [hold,Option.filter_some,hmem]
  | none =>
    cases hold : start.mapNextTx.lookup ⟨hash,i⟩ with
    | none => rfl
    | some p =>
      have hgone : p.ptx ∉ pool.hashes := by
        intro hmem
        rw [(h.next hstart).mpr ⟨hold,hmem⟩] at hp
        contradiction
      simp [Option.filter_some,hgone]

/-- The loop takes the transactions out in the order of the worklist. -/
theorem removeLoop_drain (hstart : NextExact env start) (h : PartOf env start pool) :
    PartOf env start (pool.removeLoop env true removed queue).1 ∧
    (∀ other, (pool.removeLoop env true removed queue).1.mapTx.lookup other =
      if other ∈ drain (start.children env) pool.hashes queue then none
      else pool.mapTx.lookup other) ∧
    (pool.removeLoop env true removed queue).2 = removed ++
      (drain (start.children env) pool.hashes queue).filterMap start.lookup ∧
    (SizeExact pool → SizeExact (pool.removeLoop env true removed queue).1) := by
  induction pool, removed, queue using removeLoop.induct env true with
  | case1 pool removed =>
    rw [removeLoop_nil,drain_nil]
    exact ⟨h,by simp,by simp,id⟩
  | case2 pool removed hash queue hnone ih =>
    have hgone : hash ∉ pool.hashes := by
      rw [mem_hashes,hnone]
      rintro ⟨e,he⟩
      contradiction
    rw [removeLoop_none hnone,drain_cons_of_not_mem hgone]
    exact ih h
  | case3 pool removed hash queue entry hsome ih =>
    have hmem : hash ∈ pool.hashes := mem_hashes.mpr ⟨entry,hsome⟩
    have hfound := h.sub hash entry hsome
    have hnext : pool.spenders env hash entry.tx =
        (start.children env hash).filter fun b => decide (b ∈ pool.hashes) := by
      rw [h.spenders hstart]
      simp [children,hfound]
    obtain ⟨hpart,hlookup,hremoved,hsize⟩ := ih (h.removeEntry hsome)
    simp only [dite_eq_ite,if_true,hashes_removeEntry,hnext] at hpart hlookup hremoved hsize
    rw [removeLoop_some hsome,drain_cons_of_mem hmem,hnext]
    refine ⟨hpart,?_,?_,fun hexact => hsize (hexact.removeEntry hsome)⟩
    · intro other
      rw [hlookup,removeEntry_lookup]
      by_cases heq : other = hash
      · simp [heq]
      · simp [heq]
    · rw [hremoved,List.filterMap_cons]
      simp [lookup,hfound]

end Loop

section Remove
variable {env : NodeEnv} {pool : CTxMemPool} {tx : CTransaction} {hash : Uint256}

theorem NextExact.aliveStep (h : NextExact env pool) {a b : Uint256} :
    AliveStep (pool.children env) pool.hashes a b ↔ ∃ entry entry',
      pool.mapTx.lookup a = some entry ∧ pool.mapTx.lookup b = some entry' ∧
        Spends entry'.tx a entry.tx.vout.length := by
  unfold AliveStep children
  cases ha : pool.mapTx.lookup a with
  | none => simp
  | some entry =>
    rw [Option.elim_some,h.mem_spenders,mem_hashes]
    constructor
    · rintro ⟨⟨e,he,hspends⟩,-⟩
      exact ⟨entry,e,rfl,he,hspends⟩
    · rintro ⟨e,e',he,he',hspends⟩
      obtain rfl := Option.some.inj he
      exact ⟨⟨e',he',hspends⟩,e',he'⟩

/-- Along the edges of the graph there are only descendants. -/
theorem NextExact.descendant_of_path (h : NextExact env pool) {a b : Uint256}
    (ha : Descendant env pool tx a)
    (hpath : Relation.ReflTransGen (AliveStep (pool.children env) pool.hashes) a b) :
    Descendant env pool tx b := by
  induction hpath with
  | refl => exact ha
  | tail _ hstep ih =>
    obtain ⟨e,e',he,he',hspends⟩ := h.aliveStep.mp hstep
    exact .further ih he he' hspends

/-- Descendants are reached from the direct spenders. -/
theorem NextExact.path_of_descendant (h : NextExact env pool) {b : Uint256}
    (hb : Descendant env pool tx b) :
    ∃ a entry, pool.mapTx.lookup a = some entry ∧
      Spends entry.tx (env.getTxHash tx) tx.vout.length ∧
      Relation.ReflTransGen (AliveStep (pool.children env) pool.hashes) a b := by
  induction hb with
  | spends he hspends => exact ⟨_,_,he,hspends,.refl⟩
  | further _ he he' hspends ih =>
    obtain ⟨a,e,ha,hdirect,hpath⟩ := ih
    exact ⟨a,e,ha,hdirect,hpath.tail (h.aliveStep.mpr ⟨_,_,he,he',hspends⟩)⟩

/-- The queue that `remove` starts with. -/
def removeQueue (env : NodeEnv) (pool : CTxMemPool) (tx : CTransaction) : List Uint256 :=
  env.getTxHash tx :: if !pool.exists_ (env.getTxHash tx) then
    pool.spenders env (env.getTxHash tx) tx else []

theorem remove_eq (pool : CTxMemPool) (tx : CTransaction) (removed : List CTransaction) :
    pool.remove env tx removed true = pool.removeLoop env true removed (pool.removeQueue env tx) :=
  rfl

/-- The transaction and its descendants are what the queue leads to. -/
theorem NextExact.mem_gone (h : NextExact env pool)
    (hin : pool.lookup (env.getTxHash tx) = some tx ∨ pool.lookup (env.getTxHash tx) = none) :
    hash ∈ drain (pool.children env) pool.hashes (pool.removeQueue env tx) ↔
      hash ∈ pool.hashes ∧ (hash = env.getTxHash tx ∨ Descendant env pool tx hash) := by
  constructor
  · intro hmem
    refine ⟨drain_alive hmem,?_⟩
    obtain ⟨q,hq,hqalive,hpath⟩ := mem_drain_iff.mp hmem
    unfold removeQueue at hq
    rcases List.mem_cons.mp hq with rfl | hspender
    · rcases hpath.cases_head with heq | ⟨c,hstep,hrest⟩
      · exact .inl heq.symm
      · obtain ⟨e,e',he,he',hspends⟩ := h.aliveStep.mp hstep
        have htx : e.tx = tx := by
          rcases hin with hin | hin
          · simpa [lookup,he] using hin
          · simp [lookup,he] at hin
        exact .inr (h.descendant_of_path (.spends he' (htx ▸ hspends)) hrest)
    · split at hspender
      · obtain ⟨e,he,hspends⟩ := h.mem_spenders.mp hspender
        exact .inr (h.descendant_of_path (.spends he hspends) hpath)
      · contradiction
  · rintro ⟨hmem,rfl | hdesc⟩
    · exact mem_drain_of_queued List.mem_cons_self hmem
    · obtain ⟨a,e,he,hspends,hpath⟩ := h.path_of_descendant hdesc
      have haalive : a ∈ pool.hashes := mem_hashes.mpr ⟨e,he⟩
      rcases hin with hin | hin
      · obtain ⟨e₀,he₀,htx⟩ := Option.map_eq_some_iff.mp hin
        have hstep := h.aliveStep.mpr ⟨e₀,e,he₀,he,by rw [htx]; exact hspends⟩
        exact mem_drain_iff.mpr ⟨_,List.mem_cons_self,mem_hashes.mpr ⟨e₀,he₀⟩,.head hstep hpath⟩
      · have hnew : (!pool.exists_ (env.getTxHash tx)) = true := by
          simpa [exists_,lookup] using hin
        refine mem_drain_iff.mpr ⟨a,?_,haalive,hpath⟩
        unfold removeQueue
        rw [if_pos hnew]
        exact List.mem_cons_of_mem _ (h.mem_spenders.mpr ⟨e,he,hspends⟩)

/-- `remove` takes out exactly the transaction and its descendants, and reports each once. -/
theorem remove_descendants (h : NextExact env pool)
    (hin : pool.lookup (env.getTxHash tx) = some tx ∨ pool.lookup (env.getTxHash tx) = none)
    (removed : List CTransaction) :
    NextExact env (pool.remove env tx removed true).1 ∧
    (SizeExact pool → SizeExact (pool.remove env tx removed true).1) ∧
    (∀ hash entry, (pool.remove env tx removed true).1.mapTx.lookup hash = some entry ↔
      pool.mapTx.lookup hash = some entry ∧
        ¬(hash = env.getTxHash tx ∨ Descendant env pool tx hash)) ∧
    ∃ reported, (pool.remove env tx removed true).2 = removed ++ reported ∧ reported.Nodup ∧
      ∀ t, t ∈ reported ↔ ∃ hash, pool.lookup hash = some t ∧
        (hash = env.getTxHash tx ∨ Descendant env pool tx hash) := by
  have hpart : PartOf env pool pool := ⟨h,fun _ _ he => he⟩
  obtain ⟨hleft,hlookup,hremoved,hsize⟩ :=
    @removeLoop_drain env pool pool removed (pool.removeQueue env tx) h hpart
  rw [remove_eq]
  refine ⟨hleft.exact,hsize,?_,_,hremoved,?_,?_⟩
  · intro hash entry
    rw [hlookup]
    split
    · rename_i hgone
      have hwhy := ((h.mem_gone hin).mp hgone).2
      exact ⟨fun hno => by contradiction,fun hkept => absurd hwhy hkept.2⟩
    · rename_i hstays
      refine ⟨fun he => ⟨he,fun hwhy => hstays ?_⟩,fun hkept => hkept.1⟩
      exact (h.mem_gone hin).mpr ⟨mem_hashes.mpr ⟨entry,he⟩,hwhy⟩
  · refine List.Nodup.filterMap ?_ (nodup_drain _ _ _)
    intro a b t ha hb
    obtain ⟨e,he,rfl⟩ := Option.map_eq_some_iff.mp ha
    obtain ⟨e',he',htx⟩ := Option.map_eq_some_iff.mp hb
    rw [← h.keyed a e he,← h.keyed b e' he',htx]
  · intro t
    rw [List.mem_filterMap]
    constructor
    · rintro ⟨hash,hgone,hfound⟩
      exact ⟨hash,hfound,((h.mem_gone hin).mp hgone).2⟩
    · rintro ⟨hash,hfound,hwhy⟩
      obtain ⟨e,he,-⟩ := Option.map_eq_some_iff.mp hfound
      exact ⟨hash,(h.mem_gone hin).mpr ⟨mem_hashes.mpr ⟨e,he⟩,hwhy⟩,hfound⟩

end Remove

def diamondInput (hash : Uint256) (n : Nat) : CTxIn := ⟨⟨hash,n⟩,[],0⟩

/-- A transaction with two outputs. -/
def diamondTop : CTransaction := ⟨1,[diamondInput 99 0],[⟨5,[]⟩,⟨5,[]⟩],0⟩

/-- The transaction, two that spend one output each, and one that spends both of these. -/
def diamond : List CTransaction :=
  [diamondTop,⟨1,[diamondInput 1 0],[⟨5,[]⟩],1⟩,⟨1,[diamondInput 1 1],[⟨5,[]⟩],2⟩,
    ⟨1,[diamondInput 2 0,diamondInput 3 0],[⟨5,[]⟩],3⟩]

def diamondPool : CTxMemPool :=
  diamond.foldl (fun pool tx =>
    pool.addUnchecked (NodeEnv.openEnv.getTxHash tx) ⟨tx,1,100,0,0⟩) (.empty true)

theorem diamondPool_exact : NextExact NodeEnv.openEnv diamondPool := by
  refine NextExact.addUnchecked (NextExact.addUnchecked (NextExact.addUnchecked
    (NextExact.addUnchecked (nextExact_empty _ _) rfl ?_ ?_ ?_) rfl ?_ ?_ ?_) rfl ?_ ?_ ?_) rfl
    ?_ ?_ ?_
  all_goals decide +kernel

theorem remove_descendants_diamond :
    NextExact NodeEnv.openEnv (diamondPool.remove NodeEnv.openEnv diamondTop [] true).1 ∧
    ∀ hash entry, (diamondPool.remove NodeEnv.openEnv diamondTop [] true).1.mapTx.lookup hash =
      some entry ↔ diamondPool.mapTx.lookup hash = some entry ∧
        ¬(hash = NodeEnv.openEnv.getTxHash diamondTop ∨
          Descendant NodeEnv.openEnv diamondPool diamondTop hash) := by
  have hin : diamondPool.lookup (NodeEnv.openEnv.getTxHash diamondTop) = some diamondTop := by
    decide +kernel
  have hall := remove_descendants diamondPool_exact (.inl hin) []
  exact ⟨hall.1,hall.2.2.1⟩

end CTxMemPool
end Anoncoin
