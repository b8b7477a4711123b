import Anoncoin.CreateTransaction
import Anoncoin.FeeRate
import Anoncoin.Lib.Double
import Anoncoin.Lib.Samples

/-!
The fee and priority estimates of `CMinerPolicyEstimator` (txmempool.cpp): samples in a bounded
buffer for each number of blocks, and the element of a sorted list of all of them.
-/

set_option autoImplicit false

namespace Anoncoin
open Lib

def CFeeRate.getFeePerK (feeRate : CFeeRate) : Int := getFee feeRate.nSatoshisPerK 1000

/-- `AllowFreeThreshold`: 230400000. -/
def allowFreeThreshold : Double := 0x41ab774000000000

def allowFree (dPriority : Double) : Bool := allowFreeThreshold.lt dPriority

/-- What the estimator takes from elsewhere: the priority of an entry when it came in, which is
computed in floating point, and `std::sort` with `greater<double>`, which sorts numbers. -/
structure EstimatorEnv where
  getPriority : CTxMemPoolEntry → Double
  sortPriorities : List Double → List Double
  perm : ∀ l, (∀ p ∈ l, p.isNaN = false) → (sortPriorities l).Perm l
  sorted : ∀ l, (∀ p ∈ l, p.isNaN = false) → (sortPriorities l).Pairwise fun a b => a.lt b = false

/-- `std::sort` with `greater<CFeeRate>`. -/
def sortFees (l : List CFeeRate) : List CFeeRate :=
  l.mergeSort fun a b => decide (b.nSatoshisPerK ≤ a.nSatoshisPerK)

/-- What `random_shuffle` does to the entries of each bucket. -/
structure Shuffle where
  apply : Nat → List CTxMemPoolEntry → List CTxMemPoolEntry
  perm : ∀ i l, (apply i l).Perm l

structure CBlockAverage where
  feeSamples : CircularBuffer CFeeRate 100
  prioritySamples : CircularBuffer Double 100

namespace CBlockAverage

def new : CBlockAverage := ⟨.empty,.empty⟩

def recordFee (b : CBlockAverage) (feeRate : CFeeRate) : CBlockAverage :=
  { b with feeSamples := b.feeSamples.pushBack feeRate }

def recordPriority (b : CBlockAverage) (priority : Double) : CBlockAverage :=
  { b with prioritySamples := b.prioritySamples.pushBack priority }

/-- `AreSane` for fees, where the product wraps around. -/
def feeIsSane (minRelayFee fee : CFeeRate) : Bool :=
  !decide (fee.nSatoshisPerK < 0) &&
    !decide ((minRelayFee.getFeePerK*10000).bmod (2^64) < fee.getFeePerK)

/-- `AreSane` for priorities. -/
def priorityIsSane (priority : Double) : Bool := Double.le 0 priority

/-- `Read`, of the vectors in the file; `none` is a thrown exception. -/
def read (minRelayFee : CFeeRate) (vecFee : List CFeeRate) (vecPriority : List Double) :
    Option CBlockAverage :=
  if vecFee.all (feeIsSane minRelayFee) then
    if vecPriority.all priorityIsSane then
      some ⟨new.feeSamples.insertEnd vecFee,new.prioritySamples.insertEnd vecPriority⟩
    else none
  else none

/-- No sample is below what is given without data. -/
structure Sane (b : CBlockAverage) : Prop where
  fees : ∀ f ∈ b.feeSamples.elems, 0 ≤ f.nSatoshisPerK
  priorities : ∀ p ∈ b.prioritySamples.elems, Double.le 0 p = true

variable {b : CBlockAverage} {minRelayFee feeRate : CFeeRate} {priority : Double}

theorem nonneg_of_feeIsSane (h : feeIsSane minRelayFee feeRate = true) :
    0 ≤ feeRate.nSatoshisPerK := by
  simp only [feeIsSane,Bool.and_eq_true,Bool.not_eq_true',decide_eq_false_iff_not] at h
  exact Int.not_lt.mp h.1

theorem sane_new : new.Sane where
  fees := by simp [new,CircularBuffer.empty]
  priorities := by simp [new,CircularBuffer.empty]

theorem Sane.recordFee (h : b.Sane) (hsane : feeIsSane minRelayFee feeRate = true) :
    (b.recordFee feeRate).Sane where
  fees f hf := by
    rcases CircularBuffer.mem_insertEnd hf with hf | hf
    · exact h.fees f hf
    · rw [List.mem_singleton.mp hf]
      exact nonneg_of_feeIsSane hsane
  priorities := h.priorities

theorem Sane.recordPriority (h : b.Sane) (hsane : priorityIsSane priority = true) :
    (b.recordPriority priority).Sane where
  fees := h.fees
  priorities p hp := by
    rcases CircularBuffer.mem_insertEnd hp with hp | hp
    · exact h.priorities p hp
    · rwa [List.mem_singleton.mp hp]

theorem sane_of_read {vecFee : List CFeeRate} {vecPriority : List Double}
    (h : read minRelayFee vecFee vecPriority = some b) : b.Sane := by
  simp only [read,Option.ite_none_right_eq_some,Option.some.injEq,List.all_eq_true] at h
  obtain ⟨hfees,hpriorities,rfl⟩ := h
  constructor
  · intro f hf
    rcases CircularBuffer.mem_insertEnd hf with hf | hf
    · exact sane_new.fees f hf
    · exact nonneg_of_feeIsSane (hfees f hf)
  · intro p hp
    rcases CircularBuffer.mem_insertEnd hp with hp | hp
    · exact sane_new.priorities p hp
    · exact hpriorities p hp

theorem sane_of_readAll {entries : List (List CFeeRate × List Double)}
    {history : List CBlockAverage}
    (h : entries.mapM (fun e => read minRelayFee e.1 e.2) = some history) :
    history.length = entries.length ∧ ∀ b ∈ history, b.Sane := by
  induction entries generalizing history with
  | nil =>
    obtain rfl := Option.some.inj h
    exact ⟨rfl,by simp⟩
  | cons e rest ih =>
    simp only [List.mapM_cons,Option.bind_eq_bind,Option.bind_eq_some_iff,Option.pure_def,
      Option.some.injEq] at h
    obtain ⟨b,hb,history',hrest,rfl⟩ := h
    obtain ⟨hlength,hsane⟩ := ih hrest
    exact ⟨by simp [hlength],List.forall_mem_cons.mpr ⟨sane_of_read hb,hsane⟩⟩

end CBlockAverage

/-- `history.at(i)` or `history[i]`, changed; `none` is an index outside of the vector. -/
def updateAt {α : Type} (l : List α) (i : Nat) (f : α → α) : Option (List α) :=
  l[i]?.map fun x => l.set i (f x)

theorem updateAt_eq {α : Type} {l : List α} {i : Nat} (hi : i < l.length) (f : α → α) :
    updateAt l i f = some (l.set i (f l[i])) := by
  rw [updateAt,List.getElem?_eq_getElem hi,Option.map_some]

/-- `estimateFee` and `estimatePriority`: the estimate and the sorted samples, which are gathered
when there are none. -/
def estimate {α : Type} (sort : List α → List α) (noData : α) (buckets : List (List α))
    (sortedSamples : List α) (nBlocksToConfirm : Int) : Option (α × List α) :=
  let nBlocksToConfirm := nBlocksToConfirm-1
  if nBlocksToConfirm < 0 ∨ nBlocksToConfirm ≥ buckets.length then some (noData,sortedSamples)
  else
    let sortedSamples :=
      if sortedSamples.length = 0 then sort (sortedSamples ++ buckets.flatten) else sortedSamples
    if sortedSamples.length < 11 then some (noData,sortedSamples)
    else do
      let bucket ← buckets[nBlocksToConfirm.toNat]?
      let nBucketSize := bucket.length
      let nPrevSize := ((buckets.take nBlocksToConfirm.toNat).map List.length).sum
      let index := min (nPrevSize+nBucketSize/2) (sortedSamples.length-1)
      let sample ← sortedSamples[index]?
      some (sample,sortedSamples)

section Estimate
variable {α : Type} {sort : List α → List α} {noData : α} {buckets : List (List α)}

/-- What is estimated from the samples, however they have been kept. -/
def estimated (sort : List α → List α) (noData : α) (buckets : List (List α))
    (nBlocksToConfirm : Int) : α :=
  let samples := sort buckets.flatten
  let n := nBlocksToConfirm-1
  if n < 0 ∨ n ≥ buckets.length ∨ samples.length < 11 then noData
  else samples.getD (min (middleRank buckets n.toNat) (samples.length-1)) noData

/-- The sorted samples are those of the buckets, or are yet to be gathered. -/
def InStep (sort : List α → List α) (buckets : List (List α)) (sortedSamples : List α) : Prop :=
  sortedSamples = [] ∨ sortedSamples = sort buckets.flatten

theorem estimate_eq {sortedSamples : List α} (h : InStep sort buckets sortedSamples) (n : Int) :
    ∃ sortedSamples', estimate sort noData buckets sortedSamples n =
      some (estimated sort noData buckets n,sortedSamples') ∧
      InStep sort buckets sortedSamples' := by
  by_cases hrange : n-1 < 0 ∨ n-1 ≥ buckets.length
  · refine ⟨sortedSamples,?_,h⟩
    have hnone : n-1 < 0 ∨ n-1 ≥ buckets.length ∨ (sort buckets.flatten).length < 11 := by
      omega
    rw [estimate,estimated,if_pos hrange,if_pos hnone]
  · have hgathered : (if sortedSamples.length = 0 then sort (sortedSamples ++ buckets.flatten)
        else sortedSamples) = sort buckets.flatten := by
      split
      · next hnil => rw [List.length_eq_zero_iff.mp hnil,List.nil_append]
      · next hne => exact h.resolve_left fun hnil => hne (by rw [hnil]; rfl)
    refine ⟨sort buckets.flatten,?_,.inr rfl⟩
    simp only [estimate,estimated,hgathered,if_neg hrange]
    split
    · next hfew => rw [if_pos (.inr (.inr hfew))]
    · next hmany =>
      have hbucket : (n-1).toNat < buckets.length := by omega
      have hindex : min (middleRank buckets (n-1).toNat) ((sort buckets.flatten).length-1) <
          (sort buckets.flatten).length := by
        omega
      rw [if_neg (by omega),List.getElem?_eq_getElem hbucket,List.getD_eq_getElem _ _ hindex]
      simp only [middleRank,List.getD_eq_getElem _ _ hbucket] at hindex ⊢
      simp only [Option.bind_eq_bind,Option.bind_some,List.getElem?_eq_getElem hindex]

theorem estimated_mem (hperm : (sort buckets.flatten).Perm buckets.flatten) (n : Int) :
    estimated sort noData buckets n = noData ∨
      estimated sort noData buckets n ∈ buckets.flatten := by
  simp only [estimated]
  split
  · exact .inl rfl
  · next h =>
    right
    rw [List.getD_eq_getElem _ _ (by omega),← hperm.mem_iff]
    exact List.getElem_mem _

theorem estimated_antitone {R : α → α → Prop} (hsorted : (sort buckets.flatten).Pairwise R)
    (hperm : (sort buckets.flatten).Perm buckets.flatten)
    (hrefl : ∀ x ∈ buckets.flatten, R x x) (hnone : ∀ x ∈ buckets.flatten, R x noData)
    (hnoData : R noData noData) {n : Int} (hn : 1 ≤ n) :
    R (estimated sort noData buckets n) (estimated sort noData buckets (n+1)) := by
  by_cases hnext : n+1-1 < 0 ∨ n+1-1 ≥ buckets.length ∨ (sort buckets.flatten).length < 11
  · rw [estimated.eq_def sort noData buckets (n+1),if_pos hnext]
    rcases estimated_mem hperm n with h | h
    · rwa [h]
    · exact hnone _ h
  · have hthis : ¬(n-1 < 0 ∨ n-1 ≥ buckets.length ∨ (sort buckets.flatten).length < 11) := by
      omega
    simp only [estimated,if_neg hnext,if_neg hthis]
    have hrank := middleRank_succ buckets (n-1).toNat
    rw [show (n-1).toNat+1 = (n+1-1).toNat by omega] at hrank
    exact getD_of_pairwise hsorted (fun x hx => hrefl x (hperm.mem_iff.mp hx)) (by omega)
      (by omega) noData

end Estimate

theorem perm_sortFees (l : List CFeeRate) : (sortFees l).Perm l := List.mergeSort_perm _ _

theorem pairwise_sortFees (l : List CFeeRate) :
    (sortFees l).Pairwise fun a b => b.nSatoshisPerK ≤ a.nSatoshisPerK := by
  have h : (sortFees l).Pairwise fun a b => decide (b.nSatoshisPerK ≤ a.nSatoshisPerK) = true :=
    List.pairwise_mergeSort
    (by simp only [decide_eq_true_eq]; omega)
    (by simp only [Bool.or_eq_true,decide_eq_true_eq]; omega) l
  exact h.imp of_decide_eq_true

theorem EstimatorEnv.pairwise_sortPriorities (env : EstimatorEnv) {l : List Double}
    (h : ∀ p ∈ l, p.isNaN = false) :
    (env.sortPriorities l).Pairwise fun a b => b.le a = true :=
  (env.sorted l h).imp_of_mem fun ha hb hlt =>
    Double.le_of_not_lt (h _ ((env.perm l h).mem_iff.mp hb)) (h _ ((env.perm l h).mem_iff.mp ha))
      hlt

structure CMinerPolicyEstimator where
  history : List CBlockAverage
  sortedFeeSamples : List CFeeRate
  sortedPrioritySamples : List Double
  nBestSeenHeight : Int

namespace CMinerPolicyEstimator
variable (env : EstimatorEnv)

def new (nEntries : Nat) : CMinerPolicyEstimator := ⟨List.replicate nEntries .new,[],[],0⟩

def feeBuckets (s : CMinerPolicyEstimator) : List (List CFeeRate) :=
  s.history.map fun b => b.feeSamples.elems

def priorityBuckets (s : CMinerPolicyEstimator) : List (List Double) :=
  s.history.map fun b => b.prioritySamples.elems

def noFee : CFeeRate := ⟨0⟩

/-- -1. -/
def noPriority : Double := 0xbff0000000000000

def estimateFee (s : CMinerPolicyEstimator) (nBlocksToConfirm : Int) :
    Option (CFeeRate × CMinerPolicyEstimator) :=
  (estimate sortFees noFee s.feeBuckets s.sortedFeeSamples nBlocksToConfirm).map fun r =>
    (r.1,{ s with sortedFeeSamples := r.2 })

def estimatePriority (s : CMinerPolicyEstimator) (nBlocksToConfirm : Int) :
    Option (Double × CMinerPolicyEstimator) :=
  (estimate env.sortPriorities noPriority s.priorityBuckets s.sortedPrioritySamples
    nBlocksToConfirm).map fun r => (r.1,{ s with sortedPrioritySamples := r.2 })

/-- `seenTxConfirm`; `none` is the failed assertion. -/
def seenTxConfirm (history : List CBlockAverage) (feeRate minRelayFee : CFeeRate)
    (dPriority : Double) (nBlocksAgo : Nat) : Option (List CBlockAverage) :=
  let nBlocksTruncated := min (nBlocksAgo : Int) (history.length-1)
  if nBlocksTruncated < 0 then none
  else
    let sufficientFee := decide (minRelayFee.nSatoshisPerK < feeRate.nSatoshisPerK)
    let sufficientPriority := allowFree dPriority
    if sufficientFee && !sufficientPriority && CBlockAverage.feeIsSane minRelayFee feeRate then
      updateAt history nBlocksTruncated.toNat fun b => b.recordFee feeRate
    else if sufficientPriority && !sufficientFee && CBlockAverage.priorityIsSane dPriority then
      updateAt history nBlocksTruncated.toNat fun b => b.recordPriority dPriority
    else some history

/-- The entries by the number of blocks that they took. The height of an entry is unsigned. -/
def placeEntries (nHistory : Nat) (nBlockHeight : Int)
    (entriesByConfirmations : List (List CTxMemPoolEntry)) :
    List CTxMemPoolEntry → Option (List (List CTxMemPoolEntry))
  | [] => some entriesByConfirmations
  | entry :: rest =>
      let delta := (nBlockHeight-entry.nHeight).bmod (2^32)
      if delta ≤ 0 then placeEntries nHistory nBlockHeight entriesByConfirmations rest
      else do
        let delta := if delta-1 ≥ nHistory then (nHistory : Int) else delta
        let entriesByConfirmations ←
          updateAt entriesByConfirmations (delta-1).toNat fun e => e ++ [entry]
        placeEntries nHistory nBlockHeight entriesByConfirmations rest

/-- The samples of one bucket: at most ten entries. -/
def recordEntries (shuffle : Shuffle) (minRelayFee : CFeeRate) (history : List CBlockAverage)
    (i : Nat) (e : List CTxMemPoolEntry) : Option (List CBlockAverage) :=
  let e := if e.length > 10 then (shuffle.apply i e).take 10 else e
  e.foldlM (fun history entry => seenTxConfirm history (.quotient entry.nFee entry.nTxSize)
    minRelayFee (env.getPriority entry) i) history

/-- The loop that logs the estimates, which computes them. -/
def logEstimates (s : CMinerPolicyEstimator) : List Nat → Option CMinerPolicyEstimator
  | [] => some s
  | i :: rest => do
      let b ← s.history[i]?
      if b.feeSamples.elems.length+b.prioritySamples.elems.length > 0 then do
        let (_,s) ← s.estimateFee (i+1)
        let (_,s) ← s.estimatePriority env (i+1)
        logEstimates s rest
      else logEstimates s rest

def seenBlock (shuffle : Shuffle) (s : CMinerPolicyEstimator) (entries : List CTxMemPoolEntry)
    (nBlockHeight : Int) (minRelayFee : CFeeRate) : Option CMinerPolicyEstimator :=
  if nBlockHeight ≤ s.nBestSeenHeight then some s
  else do
    let entriesByConfirmations ← placeEntries s.history.length nBlockHeight
      (List.replicate s.history.length []) entries
    let history ← entriesByConfirmations.zipIdx.foldlM
      (fun history e => recordEntries env shuffle minRelayFee history e.2 e.1) s.history
    logEstimates env ⟨history,[],[],nBlockHeight⟩ (List.range history.length)

/-- What the file of estimates holds. -/
structure EstimatesFile where
  nFileBestSeenHeight : Int
  entries : List (List CFeeRate × List Double)

/-- `Read`; `none` is a thrown exception, after which nothing has changed. -/
def read (s : CMinerPolicyEstimator) (minRelayFee : CFeeRate) (file : EstimatesFile) :
    Option CMinerPolicyEstimator :=
  if file.entries.length ≤ 0 ∨ file.entries.length > 10000 then none
  else do
    let fileHistory ← file.entries.mapM fun e => CBlockAverage.read minRelayFee e.1 e.2
    some { s with nBestSeenHeight := file.nFileBestSeenHeight, history := fileHistory }

/-- There is a bucket, and the samples are sane. -/
structure HistoryOk (history : List CBlockAverage) : Prop where
  tracked : history ≠ []
  sane : ∀ b ∈ history, b.Sane

/-- The invariant: the sorted samples never lag behind the buckets. -/
structure Ok (s : CMinerPolicyEstimator) : Prop where
  history : HistoryOk s.history
  fees : InStep sortFees s.feeBuckets s.sortedFeeSamples
  priorities : InStep env.sortPriorities s.priorityBuckets s.sortedPrioritySamples

variable {env}

theorem HistoryOk.updateAt {history : List CBlockAverage} (h : HistoryOk history) {i : Nat}
    (hi : i < history.length) {f : CBlockAverage → CBlockAverage}
    (hf : ∀ b : CBlockAverage, b.Sane → (f b).Sane) :
    ∃ history', updateAt history i f = some history' ∧ HistoryOk history' := by
  refine ⟨history.set i (f history[i]),updateAt_eq hi f,?_,fun b hb => ?_⟩
  · simpa using h.tracked
  · rcases List.mem_or_eq_of_mem_set hb with hb | rfl
    · exact h.sane b hb
    · exact hf _ (h.sane _ (List.getElem_mem _))

theorem HistoryOk.seenTxConfirm {history : List CBlockAverage} (h : HistoryOk history)
    (feeRate minRelayFee : CFeeRate) (dPriority : Double) (nBlocksAgo : Nat) :
    ∃ history', seenTxConfirm history feeRate minRelayFee dPriority nBlocksAgo = some history' ∧
      HistoryOk history' := by
  have hlength := List.length_pos_iff.mpr h.tracked
  have hi : (min (nBlocksAgo : Int) (history.length-1)).toNat < history.length := by omega
  simp only [CMinerPolicyEstimator.seenTxConfirm,
    if_neg (show ¬min (nBlocksAgo : Int) (history.length-1) < 0 by omega)]
  split_ifs with hfee hpriority
  · exact h.updateAt hi fun b hb => hb.recordFee ((Bool.and_eq_true _ _ ▸ hfee).2)
  · exact h.updateAt hi fun b hb => hb.recordPriority ((Bool.and_eq_true _ _ ▸ hpriority).2)
  · exact ⟨history,rfl,h⟩

theorem HistoryOk.recordEntries {history : List CBlockAverage} (h : HistoryOk history)
    (shuffle : Shuffle) (minRelayFee : CFeeRate) (i : Nat) (e : List CTxMemPoolEntry) :
    ∃ history', recordEntries env shuffle minRelayFee history i e = some history' ∧
      HistoryOk history' :=
  foldlM_invariant h fun _ h _ _ => h.seenTxConfirm _ _ _ _

/-- The number of blocks of an entry is always one that there is a bucket for. -/
theorem placeEntries_total {nHistory : Nat} (hpos : 0 < nHistory) (nBlockHeight : Int)
    (entries : List CTxMemPoolEntry) (buckets : List (List CTxMemPoolEntry))
    (hlength : buckets.length = nHistory) :
    ∃ buckets', placeEntries nHistory nBlockHeight buckets entries = some buckets' := by
  induction entries generalizing buckets with
  | nil => exact ⟨buckets,rfl⟩
  | cons entry rest ih =>
    simp only [placeEntries]
    split
    · exact ih buckets hlength
    · next hdelta =>
      rw [updateAt_eq (by split <;> omega),Option.bind_eq_bind,Option.bind_some]
      exact ih _ (by rw [List.length_set,hlength])

theorem Ok.estimateFee {s : CMinerPolicyEstimator} (h : Ok env s) (n : Int) :
    ∃ t, s.estimateFee n = some (estimated sortFees noFee s.feeBuckets n,t) ∧ Ok env t ∧
      t.history = s.history := by
  obtain ⟨sorted,heq,hsorted⟩ := estimate_eq h.fees n
  exact ⟨{ s with sortedFeeSamples := sorted },by rw [CMinerPolicyEstimator.estimateFee,heq]; rfl,
    ⟨h.history,hsorted,h.priorities⟩,rfl⟩

theorem Ok.estimatePriority {s : CMinerPolicyEstimator} (h : Ok env s) (n : Int) :
    ∃ t, s.estimatePriority env n =
        some (estimated env.sortPriorities noPriority s.priorityBuckets n,t) ∧ Ok env t ∧
      t.history = s.history := by
  obtain ⟨sorted,heq,hsorted⟩ := estimate_eq h.priorities n
  exact ⟨{ s with sortedPrioritySamples := sorted },
    by rw [CMinerPolicyEstimator.estimatePriority,heq]; rfl,⟨h.history,h.fees,hsorted⟩,rfl⟩

theorem Ok.logEstimates {s : CMinerPolicyEstimator} (h : Ok env s) {is : List Nat}
    (his : ∀ i ∈ is, i < s.history.length) :
    ∃ t, s.logEstimates env is = some t ∧ Ok env t ∧ t.history = s.history := by
  induction is generalizing s with
  | nil => exact ⟨s,rfl,h,rfl⟩
  | cons i rest ih =>
    have hrest := fun j hj => his j (List.mem_cons_of_mem _ hj)
    rw [CMinerPolicyEstimator.logEstimates,List.getElem?_eq_getElem (his i List.mem_cons_self),
      Option.bind_eq_bind,Option.bind_some]
    split_ifs with hsome
    · obtain ⟨s₁,h₁,hok₁,hhistory₁⟩ := h.estimateFee (i+1)
      obtain ⟨s₂,h₂,hok₂,hhistory₂⟩ := hok₁.estimatePriority (i+1)
      obtain ⟨t,ht,hokt,hhistory⟩ := ih hok₂ (by rw [hhistory₂,hhistory₁]; exact hrest)
      refine ⟨t,?_,hokt,by rw [hhistory,hhistory₂,hhistory₁]⟩
      simp only [h₁,h₂,ht,Option.bind_eq_bind,Option.bind_some]
    · exact ih h hrest

theorem Ok.seenBlock {s : CMinerPolicyEstimator} (h : Ok env s) (shuffle : Shuffle)
    (entries : List CTxMemPoolEntry) (nBlockHeight : Int) (minRelayFee : CFeeRate) :
    ∃ t, s.seenBlock env shuffle entries nBlockHeight minRelayFee = some t ∧ Ok env t := by
  rw [CMinerPolicyEstimator.seenBlock]
  split_ifs with hseen
  · exact ⟨s,rfl,h⟩
  · obtain ⟨buckets,hbuckets⟩ := placeEntries_total
      (List.length_pos_iff.mpr h.history.tracked) nBlockHeight entries
      (List.replicate s.history.length []) List.length_replicate
    obtain ⟨history,hhistory,hok⟩ : ∃ history, buckets.zipIdx.foldlM
        (fun history e => recordEntries env shuffle minRelayFee history e.2 e.1) s.history =
          some history ∧ HistoryOk history :=
      foldlM_invariant h.history fun history h e _ => h.recordEntries shuffle minRelayFee e.2 e.1
    -- with new samples, both lists are cleared
    have hcleared : Ok env ⟨history,[],[],nBlockHeight⟩ := ⟨hok,.inl rfl,.inl rfl⟩
    obtain ⟨t,ht,hokt,-⟩ := hcleared.logEstimates fun i (hi : i ∈ List.range history.length) =>
      List.mem_range.mp hi
    refine ⟨t,?_,hokt⟩
    simp only [hbuckets,hhistory,ht,Option.bind_eq_bind,Option.bind_some]

/-- Where a run starts: a new estimator, or one that has read its file. -/
inductive Initial : CMinerPolicyEstimator → Prop
  | new {nEntries : Nat} : 0 < nEntries → Initial (new nEntries)
  | read {nEntries : Nat} {minRelayFee : CFeeRate} {file : EstimatesFile}
      {s : CMinerPolicyEstimator} : (new nEntries).read minRelayFee file = some s → Initial s

inductive EstimatorCall
  | seenBlock (shuffle : Shuffle) (entries : List CTxMemPoolEntry) (nBlockHeight : Int)
      (minRelayFee : CFeeRate)
  | estimateFee (nBlocksToConfirm : Int)
  | estimatePriority (nBlocksToConfirm : Int)

def call (env : EstimatorEnv) (s : CMinerPolicyEstimator) :
    EstimatorCall → Option CMinerPolicyEstimator
  | .seenBlock shuffle entries nBlockHeight minRelayFee =>
      s.seenBlock env shuffle entries nBlockHeight minRelayFee
  | .estimateFee n => (s.estimateFee n).map Prod.snd
  | .estimatePriority n => (s.estimatePriority env n).map Prod.snd

theorem ok_of_read {s t : CMinerPolicyEstimator} {minRelayFee : CFeeRate}
    {file : EstimatesFile} (h : s.read minRelayFee file = some t)
    (hfees : s.sortedFeeSamples = []) (hpriorities : s.sortedPrioritySamples = []) : Ok env t := by
  rw [CMinerPolicyEstimator.read,Option.ite_none_left_eq_some,Option.bind_eq_bind,
    Option.bind_eq_some_iff] at h
  obtain ⟨hsize,history,hhistory,ht⟩ := h
  obtain rfl := Option.some.inj ht
  obtain ⟨hlength,hsane⟩ := CBlockAverage.sane_of_readAll hhistory
  have hpos : 0 < history.length := by omega
  exact ⟨⟨List.ne_nil_of_length_pos hpos,hsane⟩,.inl hfees,.inl hpriorities⟩

theorem Initial.ok {s : CMinerPolicyEstimator} (h : Initial s) : Ok env s := by
  cases h with
  | @new nEntries hpos =>
    refine ⟨⟨?_,fun b hb => ?_⟩,.inl rfl,.inl rfl⟩
    · simp [CMinerPolicyEstimator.new,hpos.ne']
    · rw [List.eq_of_mem_replicate hb]
      exact CBlockAverage.sane_new
  | read hread => exact ok_of_read hread rfl rfl

theorem Ok.call {s : CMinerPolicyEstimator} (h : Ok env s) (c : EstimatorCall) :
    ∃ t, s.call env c = some t ∧ Ok env t := by
  cases c with
  | seenBlock shuffle entries nBlockHeight minRelayFee =>
    exact h.seenBlock shuffle entries nBlockHeight minRelayFee
  | estimateFee n =>
    obtain ⟨t,ht,hok,-⟩ := h.estimateFee n
    exact ⟨t,by rw [CMinerPolicyEstimator.call,ht]; rfl,hok⟩
  | estimatePriority n =>
    obtain ⟨t,ht,hok,-⟩ := h.estimatePriority n
    exact ⟨t,by rw [CMinerPolicyEstimator.call,ht]; rfl,hok⟩

/-- Of two neighbouring estimates, asked for in the same state or one after the other, the
second is no more than the first, and each is a sample or stands for no data. -/
def Ordered {α : Type}
    (estimateFor : CMinerPolicyEstimator → Int → Option (α × CMinerPolicyEstimator))
    (le : α → α → Prop) (noData : α) (samples : List α) (s : CMinerPolicyEstimator) (n : Int) :
    Prop :=
  ∃ r r' s₁ s₂ s₃, estimateFor s n = some (r,s₁) ∧ estimateFor s (n+1) = some (r',s₂) ∧
    estimateFor s₁ (n+1) = some (r',s₃) ∧ le r' r ∧ (r = noData ∨ r ∈ samples) ∧
    (r' = noData ∨ r' ∈ samples)

theorem HistoryOk.fees {s : CMinerPolicyEstimator} (h : HistoryOk s.history) :
    ∀ f ∈ s.feeBuckets.flatten, 0 ≤ f.nSatoshisPerK := by
  simp only [feeBuckets,List.mem_flatten,List.mem_map]
  rintro f ⟨_,⟨b,hb,rfl⟩,hf⟩
  exact (h.sane b hb).fees f hf

theorem HistoryOk.priorities {s : CMinerPolicyEstimator} (h : HistoryOk s.history) :
    ∀ p ∈ s.priorityBuckets.flatten, Double.le 0 p = true := by
  simp only [priorityBuckets,List.mem_flatten,List.mem_map]
  rintro p ⟨_,⟨b,hb,rfl⟩,hp⟩
  exact (h.sane b hb).priorities p hp

theorem Ok.ordered_fees {s : CMinerPolicyEstimator} (h : Ok env s) {n : Int} (hn : 1 ≤ n) :
    Ordered CMinerPolicyEstimator.estimateFee (fun a b => a.nSatoshisPerK ≤ b.nSatoshisPerK)
      noFee s.feeBuckets.flatten s n := by
  obtain ⟨s₁,h₁,hok₁,hhistory⟩ := h.estimateFee n
  obtain ⟨s₂,h₂,-,-⟩ := h.estimateFee (n+1)
  obtain ⟨s₃,h₃,-,-⟩ := hok₁.estimateFee (n+1)
  rw [show s₁.feeBuckets = s.feeBuckets by rw [feeBuckets,hhistory,feeBuckets]] at h₃
  have hperm := perm_sortFees s.feeBuckets.flatten
  refine ⟨_,_,s₁,s₂,s₃,h₁,h₂,h₃,?_,estimated_mem hperm n,estimated_mem hperm (n+1)⟩
  exact estimated_antitone (pairwise_sortFees _) hperm (fun _ _ => Int.le_refl _)
    h.history.fees (Int.le_refl _) hn

theorem Ok.ordered_priorities {s : CMinerPolicyEstimator} (h : Ok env s) {n : Int} (hn : 1 ≤ n) :
    Ordered (CMinerPolicyEstimator.estimatePriority env) (fun a b => a.le b = true)
      noPriority s.priorityBuckets.flatten s n := by
  obtain ⟨s₁,h₁,hok₁,hhistory⟩ := h.estimatePriority n
  obtain ⟨s₂,h₂,-,-⟩ := h.estimatePriority (n+1)
  obtain ⟨s₃,h₃,-,-⟩ := hok₁.estimatePriority (n+1)
  rw [show s₁.priorityBuckets = s.priorityBuckets by
    rw [priorityBuckets,hhistory,priorityBuckets]] at h₃
  have hnumber : ∀ p ∈ s.priorityBuckets.flatten, p.isNaN = false := fun p hp =>
    (Double.le_iff.mp (h.history.priorities p hp)).2.1
  have hperm := env.perm s.priorityBuckets.flatten hnumber
  refine ⟨_,_,s₁,s₂,s₃,h₁,h₂,h₃,?_,estimated_mem hperm n,estimated_mem hperm (n+1)⟩
  exact estimated_antitone (env.pairwise_sortPriorities hnumber) hperm
    (fun p hp => Double.le_refl (hnumber p hp))
    (fun p hp => Double.le_trans (by decide : noPriority.le 0 = true) (h.history.priorities p hp))
    (by decide) hn

/-- No call fails, whatever the run, and in every state reached the estimates do not increase
with the number of blocks. -/
theorem estimates_monotone (env : EstimatorEnv) {s : CMinerPolicyEstimator} (h : Initial s)
    (calls : List EstimatorCall) :
    ∃ t, calls.foldlM (call env) s = some t ∧ ∀ n ≥ 1,
      Ordered estimateFee (fun a b => a.nSatoshisPerK ≤ b.nSatoshisPerK) noFee
        t.feeBuckets.flatten t n ∧
      Ordered (estimatePriority env) (fun a b => a.le b = true) noPriority
        t.priorityBuckets.flatten t n := by
  obtain ⟨t,ht,hok⟩ : ∃ t, calls.foldlM (call env) s = some t ∧ Ok env t :=
    foldlM_invariant h.ok fun s hs c _ => hs.call c
  exact ⟨t,ht,fun n hn => ⟨hok.ordered_fees hn,hok.ordered_priorities hn⟩⟩

/-- An environment in which the priorities are sorted by their bits. -/
def keyEnv : EstimatorEnv where
  getPriority _ := 0
  sortPriorities l := l.mergeSort fun a b => decide (b.key ≤ a.key)
  perm l _ := List.mergeSort_perm _ _
  sorted l _ := by
    have h : (l.mergeSort fun a b : Double => decide (b.key ≤ a.key)).Pairwise
        fun a b => decide (b.key ≤ a.key) = true := List.pairwise_mergeSort
      (by simp only [decide_eq_true_eq]; omega)
      (by simp only [Bool.or_eq_true,decide_eq_true_eq]; omega) l
    refine h.imp fun hle => ?_
    simp [Double.lt,of_decide_eq_true hle]

theorem estimates_monotone_fresh :
    Initial (new 25) ∧
      ∃ t, [.seenBlock ⟨fun _ e => e,fun _ _ => .refl _⟩ [] 1 ⟨1000⟩,.estimateFee 1].foldlM
        (call keyEnv) (new 25) = some t ∧ ∀ n ≥ 1,
        Ordered estimateFee (fun a b => a.nSatoshisPerK ≤ b.nSatoshisPerK) noFee
          t.feeBuckets.flatten t n ∧
        Ordered (estimatePriority keyEnv) (fun a b => a.le b = true) noPriority
          t.priorityBuckets.flatten t n :=
  ⟨.new (by decide),estimates_monotone keyEnv (.new (by decide)) _⟩

end CMinerPolicyEstimator

end Anoncoin
