import Mathlib.Algebra.BigOperators.Group.Finset.Basic
import Mathlib.Algebra.Order.BigOperators.Group.Finset
import Mathlib.Data.Fintype.Option
import Mathlib.Data.Fintype.BigOperators
import Mathlib.Algebra.Order.Group.Multiset
import Mathlib.Tactic.Abel
import Anoncoin.Block
import Anoncoin.Lib.Runs

/-!
The queue of the script checks (checkqueue.h). Worker threads and the thread that connects
a block take checks off one queue; each step below is one of their critical sections, or one
check outside of them.
-/

set_option autoImplicit false

namespace Anoncoin
open Lib

structure CCheckQueue (Check : Type) where
  queue : List Check
  nIdle : Uint32
  nTotal : Uint32
  fAllOk : Bool
  nTodo : Uint32
  fQuit : Bool
  nBatchSize : Uint32

/-- Where a thread is. In a batch it has come to check `next`; `inside` it has the mutex, and
no check of its own. -/
inductive ThreadState (Check : Type) where
  | outside
  | inside
  | waiting (notified : Bool)
  | working (nNow : Uint32) (vChecks : List Check) (next : Nat) (fOk : Bool)

section CheckQueue
variable {Check : Type}

/-- How a critical section of `Loop` ends. -/
inductive LoopExit (Check : Type) where
  | returns (fRet : Bool)
  | waits
  | takes (nNow : Uint32) (vChecks : List Check) (fOk : Bool)

namespace CCheckQueue

def create (nBatchSizeIn : Uint32) : CCheckQueue Check := ⟨[],0,0,true,0,false,nBatchSizeIn⟩

def isIdle (q : CCheckQueue Check) : Bool :=
  q.nTotal == q.nIdle && q.nTodo == 0 && q.fAllOk == true

/-- How many checks to take; there is no answer when it divides by zero. -/
def batchSize (q : CCheckQueue Check) : Option Uint32 :=
  if q.nTotal+q.nIdle+1 = 0 then none
  else
    let share := BitVec.ofNat 32 q.queue.length/(q.nTotal+q.nIdle+1)
    let bounded := if share < q.nBatchSize then share else q.nBatchSize
    some (if 1 < bounded then bounded else 1)

/-- The critical section from where "the do loop starts", to a return, a wait or its end. -/
def loop (q : CCheckQueue Check) (fMaster : Bool) : Option (CCheckQueue Check × LoopExit Check) :=
  if q.queue = [] then
    if (fMaster || q.fQuit) && q.nTodo == 0 then
      some ({ q with nTotal := q.nTotal-1, fAllOk := if fMaster then true else q.fAllOk },
        .returns q.fAllOk)
    else some ({ q with nIdle := q.nIdle+1 },.waits)
  else
    q.batchSize.bind fun nNow =>
      if nNow.toNat ≤ q.queue.length then
        some ({ q with queue := q.queue.take (q.queue.length-nNow.toNat) },
          .takes nNow (q.queue.reverse.take nNow.toNat) q.fAllOk)
      else none

end CCheckQueue

/-- The threads, the controlling one under `none`, and what the run so far has come to: the
checks that were added and those that were executed, the checks that were added since the
last `Wait`, and what each `Wait` returned for its checks. -/
structure CheckThreads (Check : Type) (nThreads : Nat) where
  q : CCheckQueue Check
  threads : Option (Fin nThreads) → ThreadState Check
  added : List Check
  executed : List Check
  batch : List Check
  verdicts : List (List Check × Bool)

/-- `notify` on a condition variable, for one of the threads that wait on it. -/
def ThreadState.notify : ThreadState Check → ThreadState Check
  | .waiting _ => .waiting true
  | thread => thread

/-- A thread that no notification has reached. -/
def ThreadState.asleep : ThreadState Check → Bool
  | .waiting notified => !notified
  | _ => false

/-- What the threads can do. `start` enters `Loop`; for the controlling thread that is
`Wait`. A wait may also end without having been notified. -/
inductive ThreadAction (Check : Type) (nThreads : Nat) where
  | start (t : Option (Fin nThreads))
  | wake (t : Option (Fin nThreads)) (notified : Bool)
  | execute (t : Option (Fin nThreads))
  | report (t : Option (Fin nThreads))
  | add (vChecks : List Check) (chosen : Option (Fin nThreads))

namespace CheckThreads
variable {nThreads : Nat}

def create (nBatchSizeIn : Uint32) : CheckThreads Check nThreads :=
  ⟨.create nBatchSizeIn,fun _ => .outside,[],[],[],[]⟩

def setThread (s : CheckThreads Check nThreads) (t : Option (Fin nThreads))
    (thread : ThreadState Check) : CheckThreads Check nThreads :=
  { s with threads := Function.update s.threads t thread }

/-- The rest of the critical section of a thread. -/
def loop (s : CheckThreads Check nThreads) (t : Option (Fin nThreads)) :
    Option (CheckThreads Check nThreads) :=
  (s.q.loop t.isNone).map fun result =>
    let s := { s with q := result.1 }
    match result.2 with
    | .waits => s.setThread t (.waiting false)
    | .takes nNow vChecks fOk => s.setThread t (.working nNow vChecks 0 fOk)
    | .returns fRet =>
      let s := s.setThread t .outside
      if t.isNone then { s with batch := [], verdicts := s.verdicts ++ [(s.batch,fRet)] } else s

/-- The first iteration. -/
def enter (s : CheckThreads Check nThreads) (t : Option (Fin nThreads)) :
    CheckThreads Check nThreads :=
  { s with q := { s.q with nTotal := s.q.nTotal+1 } }.setThread t .inside

/-- The end of `cond.wait`. -/
def resume (s : CheckThreads Check nThreads) (t : Option (Fin nThreads)) :
    CheckThreads Check nThreads :=
  { s with q := { s.q with nIdle := s.q.nIdle-1 } }.setThread t .inside

/-- The clean-up of the previous loop run. -/
def cleanUp (s : CheckThreads Check nThreads) (t : Option (Fin nThreads)) (nNow : Uint32)
    (fOk : Bool) : CheckThreads Check nThreads :=
  let s := { s with q := { s.q with fAllOk := s.q.fAllOk && fOk, nTodo := s.q.nTodo-nNow } }
  let s := s.setThread t .inside
  if s.q.nTodo == 0 && !t.isNone then s.setThread none (s.threads none).notify else s

/-- The threads that `Add` notifies: for one check one of those that wait, when there is one,
and for more checks all of them. -/
def notifyWorkers (s : CheckThreads Check nThreads) (nChecks : Nat)
    (chosen : Option (Fin nThreads)) : Option (CheckThreads Check nThreads) :=
  if nChecks = 1 then
    match chosen with
    | none =>
      if ∀ i : Fin nThreads, !(s.threads (some i)).asleep then some s else none
    | some i =>
      if (s.threads (some i)).asleep then some (s.setThread (some i) (.waiting true)) else none
  else if nChecks > 1 then
    some { s with threads := fun t => if t.isNone then s.threads t else (s.threads t).notify }
  else some s

variable (evaluate : Check → Bool)

/-- The next check of a batch. -/
def executeNext (s : CheckThreads Check nThreads) (t : Option (Fin nThreads)) (nNow : Uint32)
    (vChecks : List Check) (next : Nat) (fOk : Bool) (check : Check) : CheckThreads Check nThreads :=
  if fOk then
    { s with executed := s.executed ++ [check] }.setThread t
      (.working nNow vChecks (next+1) (evaluate check))
  else s.setThread t (.working nNow vChecks (next+1) fOk)

/-- There is no next state when the thread is not at the step, or when the step fails. -/
def step (s : CheckThreads Check nThreads) : ThreadAction Check nThreads →
    Option (CheckThreads Check nThreads)
  | .start t =>
    match s.threads t with
    | .outside => (s.enter t).loop t
    | _ => none
  | .wake t notified =>
    match s.threads t with
    | .waiting was => if was = notified then (s.resume t).loop t else none
    | _ => none
  | .execute t =>
    match s.threads t with
    | .working nNow vChecks next fOk =>
      vChecks[next]?.map fun check => s.executeNext evaluate t nNow vChecks next fOk check
    | _ => none
  | .report t =>
    match s.threads t with
    | .working nNow vChecks next fOk =>
      if next = vChecks.length then (s.cleanUp t nNow fOk).loop t else none
    | _ => none
  | .add vChecks chosen =>
    match s.threads none with
    | .outside =>
      { s with
        q := { s.q with
          queue := s.q.queue ++ vChecks, nTodo := s.q.nTodo+BitVec.ofNat 32 vChecks.length },
        added := s.added ++ vChecks, batch := s.batch ++ vChecks }.notifyWorkers vChecks.length chosen
    | _ => none

end CheckThreads

namespace ThreadState

/-- The checks that a thread has taken and not yet reported. -/
def taken : ThreadState Check → List Check
  | .working _ vChecks _ _ => vChecks
  | _ => []

/-- Those of them that it has not come to. -/
def remaining : ThreadState Check → List Check
  | .working _ vChecks next _ => vChecks.drop next
  | _ => []

/-- Whether the thread is counted in `nTotal`. -/
def entered : ThreadState Check → Nat
  | .outside => 0
  | _ => 1

/-- Whether it is counted in `nIdle`. -/
def idle : ThreadState Check → Nat
  | .waiting _ => 1
  | _ => 0

/-- What a thread at work knows: the checks that it went through are true, or there is one
in the batch that is not. -/
def Good (evaluate : Check → Bool) (batch : List Check) : ThreadState Check → Prop
  | .working nNow vChecks next fOk =>
    nNow.toNat = vChecks.length ∧ next ≤ vChecks.length ∧ vChecks ≠ [] ∧
      (fOk = true → ∀ c ∈ vChecks.take next, evaluate c = true) ∧
      (fOk = false → ∃ c ∈ batch, evaluate c = false)
  | _ => True

@[simp] theorem taken_working (nNow : Uint32) (vChecks : List Check) (next : Nat) (fOk : Bool) :
    (working nNow vChecks next fOk).taken = vChecks := rfl

@[simp] theorem taken_inside : (inside : ThreadState Check).taken = [] := rfl

@[simp] theorem remaining_working (nNow : Uint32) (vChecks : List Check) (next : Nat)
    (fOk : Bool) : (working nNow vChecks next fOk).remaining = vChecks.drop next := rfl

@[simp] theorem remaining_inside : (inside : ThreadState Check).remaining = [] := rfl

@[simp] theorem taken_notify (thread : ThreadState Check) : thread.notify.taken = thread.taken := by
  cases thread <;> rfl

@[simp] theorem remaining_notify (thread : ThreadState Check) :
    thread.notify.remaining = thread.remaining := by
  cases thread <;> rfl

@[simp] theorem entered_notify (thread : ThreadState Check) :
    thread.notify.entered = thread.entered := by
  cases thread <;> rfl

@[simp] theorem idle_notify (thread : ThreadState Check) : thread.notify.idle = thread.idle := by
  cases thread <;> rfl

@[simp] theorem good_notify {evaluate : Check → Bool} {batch : List Check}
    (thread : ThreadState Check) :
    thread.notify.Good evaluate batch ↔ thread.Good evaluate batch := by
  cases thread <;> rfl

theorem Good.mono {evaluate : Check → Bool} {batch : List Check} {thread : ThreadState Check}
    (h : thread.Good evaluate batch) (more : List Check) :
    thread.Good evaluate (batch ++ more) := by
  cases thread with
  | working nNow vChecks next fOk =>
    obtain ⟨hnow,hnext,hne,htrue,hfalse⟩ := h
    refine ⟨hnow,hnext,hne,htrue,fun hf => ?_⟩
    obtain ⟨c,hc,he⟩ := hfalse hf
    exact ⟨c,by simp [hc],he⟩
  | _ => trivial

end ThreadState

/-- At least one check is taken, and no more than there are. -/
theorem CCheckQueue.batchSize_spec {q : CCheckQueue Check} (hq : q.queue ≠ [])
    (hdiv : q.nTotal+q.nIdle+1 ≠ 0) : ∃ nNow, q.batchSize = some nNow ∧ 0 < nNow.toNat ∧
      nNow.toNat ≤ q.queue.length := by
  have hlen := List.length_pos_of_ne_nil hq
  have hshare : (BitVec.ofNat 32 q.queue.length/(q.nTotal+q.nIdle+1)).toNat ≤ q.queue.length := by
    rw [BitVec.toNat_udiv,BitVec.toNat_ofNat]
    exact (Nat.div_le_self _ _).trans (Nat.mod_le _ _)
  refine ⟨_,if_neg hdiv,?_⟩
  generalize BitVec.ofNat 32 q.queue.length/(q.nTotal+q.nIdle+1) = share at hshare
  have hbounded : (if share < q.nBatchSize then share else q.nBatchSize).toNat ≤
      q.queue.length := by
    split
    · exact hshare
    · rename_i h
      exact (BitVec.le_def.mp (BitVec.not_lt.mp h)).trans hshare
  generalize (if share < q.nBatchSize then share else q.nBatchSize) = bounded at hbounded
  split
  · rename_i h
    exact ⟨Nat.lt_trans Nat.zero_lt_one (BitVec.lt_def.mp h),hbounded⟩
  · exact ⟨Nat.zero_lt_one,hlen⟩

/-- The three ends of a critical section. -/
theorem CCheckQueue.loop_cases (q : CCheckQueue Check) (fMaster : Bool)
    (hfits : q.nTotal.toNat+q.nIdle.toNat+1 < 2^32) :
    (q.queue = [] ∧ (fMaster || q.fQuit) = true ∧ q.nTodo = 0 ∧ q.loop fMaster =
      some ({ q with nTotal := q.nTotal-1, fAllOk := if fMaster then true else q.fAllOk },
        .returns q.fAllOk)) ∨
    (q.queue = [] ∧ ((fMaster || q.fQuit) = true → q.nTodo ≠ 0) ∧
      q.loop fMaster = some ({ q with nIdle := q.nIdle+1 },.waits)) ∨
    ∃ nNow vChecks left, q.loop fMaster = some ({ q with queue := left },.takes nNow vChecks q.fAllOk) ∧
      nNow.toNat = vChecks.length ∧ vChecks ≠ [] ∧
      ((left : Multiset Check)+(vChecks : Multiset Check) = (q.queue : Multiset Check)) := by
  by_cases hq : q.queue = []
  · by_cases hret : (fMaster || q.fQuit) = true ∧ q.nTodo = 0
    · exact .inl ⟨hq,hret.1,hret.2,by simp [loop,hq,hret.1,hret.2]⟩
    · refine .inr (.inl ⟨hq,fun hm ht => hret ⟨hm,ht⟩,?_⟩)
      rw [loop,if_pos hq,if_neg (by simpa using hret)]
  · have hdiv : q.nTotal+q.nIdle+1 ≠ 0 := fun h0 => by
      have h0 := congrArg BitVec.toNat h0
      simp [BitVec.toNat_add] at h0
      omega
    obtain ⟨nNow,hnow,hpos,hle⟩ := batchSize_spec hq hdiv
    refine .inr (.inr ⟨nNow,q.queue.reverse.take nNow.toNat,
      q.queue.take (q.queue.length-nNow.toNat),?_,?_,?_,?_⟩)
    · rw [loop,if_neg hq,hnow]
      exact if_pos hle
    · rw [List.length_take,List.length_reverse]
      omega
    · intro h0
      have := congrArg List.length h0
      rw [List.length_take,List.length_reverse,List.length_nil] at this
      omega
    · rw [List.take_reverse,Multiset.coe_add,Multiset.coe_eq_coe]
      have hperm := (List.reverse_perm (q.queue.drop (q.queue.length-nNow.toNat))).append_left
        (q.queue.take (q.queue.length-nNow.toNat))
      rwa [List.take_append_drop] at hperm

namespace CheckThreads
variable {nThreads : Nat}

section SetThread
variable (s : CheckThreads Check nThreads) (t : Option (Fin nThreads)) (thread : ThreadState Check)

@[simp] theorem setThread_self : (s.setThread t thread).threads t = thread := by
  simp [setThread]

@[simp] theorem setThread_of_ne {t' : Option (Fin nThreads)} (h : t' ≠ t) :
    (s.setThread t thread).threads t' = s.threads t' := by
  simp [setThread,h]

end SetThread

/-- A sum over all threads. -/
def sumOf {M : Type} [AddCommMonoid M] (s : CheckThreads Check nThreads)
    (f : ThreadState Check → M) : M := ∑ t, f (s.threads t)

section Sums
variable {M : Type} [AddCommMonoid M] {s : CheckThreads Check nThreads}
  {t : Option (Fin nThreads)} {thread : ThreadState Check} {f : ThreadState Check → M}

theorem sumOf_setThread :
    (s.setThread t thread).sumOf f+f (s.threads t) = s.sumOf f+f thread := by
  have hrest : ∑ t' ∈ Finset.univ.erase t, f ((s.setThread t thread).threads t') =
      ∑ t' ∈ Finset.univ.erase t, f (s.threads t') := by
    apply Finset.sum_congr rfl
    intro t' ht'
    rw [setThread_of_ne s t thread (Finset.ne_of_mem_erase ht')]
  have hnew := Finset.add_sum_erase Finset.univ
    (fun t' => f ((s.setThread t thread).threads t')) (Finset.mem_univ t)
  have hold := Finset.add_sum_erase Finset.univ (fun t' => f (s.threads t')) (Finset.mem_univ t)
  simp only [setThread_self] at hnew
  rw [sumOf,sumOf,← hold,← hnew,hrest]
  abel

/-- What one thread has is exchanged, and the others keep what they have. -/
theorem exchange_le {a a' sum sum' r r' b : Multiset Check} (hsum : sum'+r = sum+r')
    (hle : a'+r' ≤ a+r) (h : a+sum ≤ b) : a'+sum' ≤ b := by
  have hall : a'+sum'+r ≤ b+r := by
    calc a'+sum'+r = sum+(a'+r') := by
          rw [add_assoc,hsum]
          abel
      _ ≤ sum+(a+r) := add_le_add_right hle _
      _ = a+sum+r := by abel
      _ ≤ b+r := add_le_add_left h _
  exact le_of_add_le_add_right hall

end Sums

variable (evaluate : Check → Bool)

/-- What holds whenever no thread is in a critical section, and for a thread that is
`inside`. -/
structure Inv (s : CheckThreads Check nThreads) : Prop where
  quit : s.q.fQuit = false
  todo : s.q.nTodo.toNat = s.q.queue.length+s.sumOf fun thread => thread.taken.length
  total : s.q.nTotal.toNat = s.sumOf ThreadState.entered
  idle : s.q.nIdle.toNat = s.sumOf ThreadState.idle
  pending : (s.q.queue : Multiset Check)+(s.sumOf fun thread => (thread.taken : Multiset Check)) ≤
    (s.batch : Multiset Check)
  once : (s.executed : Multiset Check)+(s.q.queue : Multiset Check)+
    (s.sumOf fun thread => (thread.remaining : Multiset Check)) ≤ (s.added : Multiset Check)
  fits : s.batch.length < 2^32
  allTrue : s.q.fAllOk = true → ∀ c ∈ s.batch,
    evaluate c = true ∨ c ∈ s.q.queue ∨ ∃ t, c ∈ (s.threads t).taken
  allFalse : s.q.fAllOk = false → ∃ c ∈ s.batch, evaluate c = false
  good : ∀ t, (s.threads t).Good evaluate s.batch
  verdicts : ∀ v ∈ s.verdicts, v.2 = v.1.all evaluate
  master : ∀ notified, s.threads none = .waiting notified →
    s.q.queue = [] ∧ (notified = false → s.q.nTodo ≠ 0)

/-- No thread has the mutex. -/
def Settled (s : CheckThreads Check nThreads) : Prop := ∀ t, s.threads t ≠ .inside

theorem entered_le (s : CheckThreads Check nThreads) :
    s.sumOf ThreadState.entered ≤ nThreads+1 := by
  have h : s.sumOf ThreadState.entered ≤ ∑ _t : Option (Fin nThreads), 1 := by
    apply Finset.sum_le_sum
    intro t _
    cases s.threads t <;> simp [ThreadState.entered]
  simpa using h

theorem idle_lt_entered {s : CheckThreads Check nThreads} {t : Option (Fin nThreads)}
    (h : s.threads t = .inside) : s.sumOf ThreadState.idle < s.sumOf ThreadState.entered := by
  apply Finset.sum_lt_sum
  · intro t' _
    cases s.threads t' <;> simp [ThreadState.entered,ThreadState.idle]
  · exact ⟨t,Finset.mem_univ t,by simp [h,ThreadState.entered,ThreadState.idle]⟩

variable {evaluate}

theorem inv_create (nBatchSizeIn : Uint32) :
    (create nBatchSizeIn : CheckThreads Check nThreads).Inv evaluate := by
  constructor <;> simp [create,CCheckQueue.create,sumOf,ThreadState.taken,ThreadState.entered,
    ThreadState.idle,ThreadState.remaining,ThreadState.Good]

namespace Inv
variable {s : CheckThreads Check nThreads} {t : Option (Fin nThreads)}

theorem taken_subset (h : s.Inv evaluate) {c : Check} (hc : c ∈ (s.threads t).taken) :
    c ∈ s.batch := by
  have hone : ((s.threads t).taken : Multiset Check) ≤
      s.sumOf fun thread => (thread.taken : Multiset Check) :=
    Finset.single_le_sum (f := fun t => ((s.threads t).taken : Multiset Check))
      (fun _ _ => Multiset.zero_le _) (Finset.mem_univ t)
  have hle := (hone.trans (Multiset.le_add_left _ (s.q.queue : Multiset Check))).trans h.pending
  exact Multiset.mem_coe.mp (Multiset.mem_of_le hle (Multiset.mem_coe.mpr hc))

theorem pending_le (h : s.Inv evaluate) :
    s.q.queue.length+(s.sumOf fun thread => thread.taken.length) ≤ s.batch.length := by
  have hle := Multiset.card_le_card h.pending
  rw [Multiset.card_add,sumOf,Multiset.card_sum] at hle
  exact hle

/-- A step of one thread, which exchanges checks with the queue only. -/
theorem changed (h : s.Inv evaluate) (q : CCheckQueue Check) (executed : List Check)
    (thread : ThreadState Check) (hquit : q.fQuit = s.q.fQuit)
    (htodo : q.nTodo.toNat+(s.q.queue.length+(s.threads t).taken.length) =
      s.q.nTodo.toNat+(q.queue.length+thread.taken.length))
    (htotal : q.nTotal.toNat+(s.threads t).entered = s.q.nTotal.toNat+thread.entered)
    (hidle : q.nIdle.toNat+(s.threads t).idle = s.q.nIdle.toNat+thread.idle)
    (hpending : (q.queue : Multiset Check)+(thread.taken : Multiset Check) ≤
      (s.q.queue : Multiset Check)+((s.threads t).taken : Multiset Check))
    (honce : (executed : Multiset Check)+(q.queue : Multiset Check)+
        (thread.remaining : Multiset Check) ≤
      (s.executed : Multiset Check)+(s.q.queue : Multiset Check)+
        ((s.threads t).remaining : Multiset Check))
    (htrue : q.fAllOk = true → s.q.fAllOk = true ∧
      ∀ c, c ∈ s.q.queue ∨ c ∈ (s.threads t).taken →
        evaluate c = true ∨ c ∈ q.queue ∨ c ∈ thread.taken)
    (hfalse : q.fAllOk = false → ∃ c ∈ s.batch, evaluate c = false)
    (hgood : thread.Good evaluate s.batch)
    (hmaster : ∀ notified, (s.setThread t thread).threads none = .waiting notified →
      q.queue = [] ∧ (notified = false → q.nTodo ≠ 0)) :
    ({ s with q := q, executed := executed }.setThread t thread).Inv evaluate := by
  refine ⟨hquit.trans h.quit,?_,?_,?_,?_,?_,h.fits,?_,hfalse,fun t' => ?_,h.verdicts,hmaster⟩
  · have hsum := @sumOf_setThread _ _ _ _ s t thread fun thread => thread.taken.length
    have := h.todo
    change q.nTodo.toNat =
      q.queue.length+(s.setThread t thread).sumOf fun thread => thread.taken.length
    omega
  · have hsum := @sumOf_setThread _ _ _ _ s t thread ThreadState.entered
    have := h.total
    change q.nTotal.toNat = (s.setThread t thread).sumOf _
    omega
  · have hsum := @sumOf_setThread _ _ _ _ s t thread ThreadState.idle
    have := h.idle
    change q.nIdle.toNat = (s.setThread t thread).sumOf _
    omega
  · exact exchange_le (@sumOf_setThread _ _ _ _ s t thread fun thread =>
      (thread.taken : Multiset Check)) hpending h.pending
  · exact exchange_le (@sumOf_setThread _ _ _ _ s t thread fun thread =>
      (thread.remaining : Multiset Check)) honce h.once
  · intro hok c hc
    obtain ⟨hwas,hmove⟩ := htrue hok
    have hmine : evaluate c = true ∨ c ∈ q.queue ∨ c ∈ thread.taken →
        evaluate c = true ∨ c ∈ q.queue ∨ ∃ t', c ∈ ((s.setThread t thread).threads t').taken := by
      rintro (he | hin | hin)
      · exact .inl he
      · exact .inr (.inl hin)
      · exact .inr (.inr ⟨t,by rwa [setThread_self]⟩)
    obtain he | hin | ⟨t',hin⟩ := h.allTrue hwas c hc
    · exact .inl he
    · exact hmine (hmove c (.inl hin))
    · by_cases ht : t' = t
      · exact hmine (hmove c (.inr (ht ▸ hin)))
      · exact .inr (.inr ⟨t',(setThread_of_ne s t thread ht).symm ▸ hin⟩)
  · by_cases ht : t' = t
    · subst ht
      exact (setThread_self s t' thread).symm ▸ hgood
    · exact (setThread_of_ne s t thread ht).symm ▸ h.good t'

/-- A step of one thread that leaves the checks where they are. -/
theorem moved (h : s.Inv evaluate) (q : CCheckQueue Check) (thread : ThreadState Check)
    (hqueue : q.queue = s.q.queue) (htodo : q.nTodo = s.q.nTodo) (hok : q.fAllOk = s.q.fAllOk)
    (hquit : q.fQuit = s.q.fQuit) (htaken : thread.taken = (s.threads t).taken)
    (hremaining : thread.remaining = (s.threads t).remaining)
    (htotal : q.nTotal.toNat+(s.threads t).entered = s.q.nTotal.toNat+thread.entered)
    (hidle : q.nIdle.toNat+(s.threads t).idle = s.q.nIdle.toNat+thread.idle)
    (hgood : thread.Good evaluate s.batch)
    (hmaster : t = none → ∀ notified, thread = .waiting notified →
      q.queue = [] ∧ (notified = false → q.nTodo ≠ 0)) :
    ({ s with q := q }.setThread t thread).Inv evaluate := by
  refine h.changed q s.executed thread hquit ?_ htotal hidle ?_ ?_ (fun ht => ⟨?_,?_⟩) ?_ hgood ?_
  · rw [htodo,hqueue,htaken]
  · rw [hqueue,htaken]
  · rw [hqueue,hremaining]
  · rw [← hok,ht]
  · rw [hqueue,htaken]
    exact fun c hc => .inr hc
  · rw [hok]
    exact h.allFalse
  · intro notified hn
    by_cases ht : none = t
    · subst ht
      exact hmaster rfl notified ((setThread_self s none thread).symm.trans hn)
    · have := h.master notified ((setThread_of_ne s t thread ht).symm.trans hn)
      exact ⟨hqueue.trans this.1,fun hf => htodo ▸ this.2 hf⟩

theorem enter (h : s.Inv evaluate) (ht : s.threads t = .outside) (hfits : nThreads < 2^31-1) :
    (s.enter t).Inv evaluate := by
  have hsum := @sumOf_setThread _ _ _ _ s t .inside ThreadState.entered
  have hle := (s.setThread t .inside).entered_le
  have htotal := h.total
  simp only [ht,ThreadState.entered] at hsum
  have hadd : (s.q.nTotal+1).toNat = s.q.nTotal.toNat+1 :=
    BitVec.toNat_add_of_lt (by simp; omega)
  apply h.moved { s.q with nTotal := s.q.nTotal+1 } .inside rfl rfl rfl rfl
  · rw [ht]
    rfl
  · rw [ht]
    rfl
  · rw [hadd,ht]
    rfl
  · rw [ht]
    rfl
  · trivial
  · intro _ notified hn
    contradiction

theorem resume (h : s.Inv evaluate) {notified : Bool} (ht : s.threads t = .waiting notified) :
    (s.resume t).Inv evaluate := by
  have hsum := @sumOf_setThread _ _ _ _ s t .inside ThreadState.idle
  have hidle := h.idle
  simp only [ht,ThreadState.idle] at hsum
  have hsub : (s.q.nIdle-1).toNat = s.q.nIdle.toNat-1 :=
    BitVec.toNat_sub_of_le (BitVec.le_def.mpr (by simp; omega))
  apply h.moved { s.q with nIdle := s.q.nIdle-1 } .inside rfl rfl rfl rfl
  · rw [ht]
    rfl
  · rw [ht]
    rfl
  · rw [ht]
    rfl
  · rw [hsub,ht]
    simp only [ThreadState.idle]
    omega
  · trivial
  · intro _ notified hn
    contradiction

theorem waits (h : s.Inv evaluate) (ht : s.threads t = .inside) (hfits : nThreads < 2^31-1)
    (hqueue : s.q.queue = []) (hmaster : t = none → s.q.nTodo ≠ 0) :
    ({ s with q := { s.q with nIdle := s.q.nIdle+1 } }.setThread t (.waiting false)).Inv
      evaluate := by
  have hless := idle_lt_entered ht
  have hle := s.entered_le
  have hidle := h.idle
  have hadd : (s.q.nIdle+1).toNat = s.q.nIdle.toNat+1 :=
    BitVec.toNat_add_of_lt (by simp; omega)
  apply h.moved { s.q with nIdle := s.q.nIdle+1 } (.waiting false) rfl rfl rfl rfl
  · rw [ht]
    rfl
  · rw [ht]
    rfl
  · rw [ht]
    rfl
  · rw [hadd,ht]
    rfl
  · trivial
  · intro hnone notified hn
    exact ⟨hqueue,fun _ => hmaster hnone⟩

theorem takes (h : s.Inv evaluate) (ht : s.threads t = .inside) {nNow : Uint32}
    {vChecks left : List Check} (hnow : nNow.toNat = vChecks.length) (hne : vChecks ≠ [])
    (hsplit : (left : Multiset Check)+(vChecks : Multiset Check) = (s.q.queue : Multiset Check)) :
    ({ s with q := { s.q with queue := left } }.setThread t
      (.working nNow vChecks 0 s.q.fAllOk)).Inv evaluate := by
  have hlen : left.length+vChecks.length = s.q.queue.length := by
    simpa using congrArg Multiset.card hsplit
  have hqueue : s.q.queue ≠ [] := fun h0 => by
    rw [h0,List.length_nil] at hlen
    have := List.length_pos_of_ne_nil hne
    omega
  refine h.changed { s.q with queue := left } s.executed (.working nNow vChecks 0 s.q.fAllOk)
    rfl ?_ ?_ ?_ ?_ ?_ (fun hok => ⟨hok,fun c hc => ?_⟩) h.allFalse ?_ ?_
  · rw [ht]
    simp only [ThreadState.taken,List.length_nil]
    omega
  · rw [ht]
    rfl
  · rw [ht]
    rfl
  · rw [ht]
    simpa [ThreadState.taken] using le_of_eq hsplit
  · rw [ht,add_assoc,← hsplit]
    simp [ThreadState.remaining]
  · rw [ht] at hc
    have hc : c ∈ (s.q.queue : Multiset Check) := by simpa [ThreadState.taken] using hc
    rw [← hsplit,Multiset.mem_add] at hc
    exact .inr hc
  · exact ⟨hnow,Nat.zero_le _,hne,fun _ => by simp,h.allFalse⟩
  · intro notified hn
    by_cases hnone : none = t
    · subst hnone
      rw [setThread_self] at hn
      contradiction
    · rw [setThread_of_ne _ _ _ hnone] at hn
      exact absurd (h.master notified hn).1 hqueue

/-- When there is nothing left to do, no thread has a check. -/
theorem nothing_left (h : s.Inv evaluate) (htodo : s.q.nTodo = 0) :
    s.q.queue = [] ∧ ∀ t, (s.threads t).taken = [] := by
  have hsum := h.todo
  rw [htodo] at hsum
  have hzero : s.sumOf (fun thread => thread.taken.length) = 0 := by
    simp at hsum
    omega
  refine ⟨List.length_eq_zero_iff.mp (by simp at hsum; omega),fun t => ?_⟩
  exact List.length_eq_zero_iff.mp (Finset.sum_eq_zero_iff.mp hzero t (Finset.mem_univ t))

theorem not_working (h : s.Inv evaluate) (htodo : s.q.nTodo = 0) {nNow : Uint32}
    {vChecks : List Check} {next : Nat} {fOk : Bool} :
    s.threads t ≠ .working nNow vChecks next fOk := by
  intro ht
  have hgood := h.good t
  have htaken := (h.nothing_left htodo).2 t
  rw [ht] at hgood htaken
  exact hgood.2.2.1 htaken

/-- What `Wait` returns when there is nothing left to do. -/
theorem verdict (h : s.Inv evaluate) (htodo : s.q.nTodo = 0) :
    s.q.fAllOk = s.batch.all evaluate := by
  obtain ⟨hqueue,htaken⟩ := h.nothing_left htodo
  cases hok : s.q.fAllOk with
  | true =>
    symm
    rw [List.all_eq_true]
    intro c hc
    obtain he | hin | ⟨t,hin⟩ := h.allTrue hok c hc
    · exact he
    · simp [hqueue] at hin
    · simp [htaken t] at hin
  | false =>
    symm
    rw [List.all_eq_false]
    obtain ⟨c,hc,he⟩ := h.allFalse hok
    exact ⟨c,hc,by simp [he]⟩

/-- The batch is over; `fAllOk` is reset for the next one. -/
theorem finished (h : s.Inv evaluate) (htodo : s.q.nTodo = 0) :
    ({ s with
      q := { s.q with fAllOk := true }, batch := [],
      verdicts := s.verdicts ++ [(s.batch,s.q.fAllOk)] } : CheckThreads Check nThreads).Inv
        evaluate := by
  obtain ⟨hqueue,htaken⟩ := h.nothing_left htodo
  refine ⟨h.quit,h.todo,h.total,h.idle,?_,h.once,by simp,fun _ c hc => by simp at hc,
    fun hf => by simp at hf,fun t => ?_,fun v hv => ?_,h.master⟩
  · have hsum : s.sumOf (fun thread => (thread.taken : Multiset Check)) = 0 := by
      apply Finset.sum_eq_zero
      intro t _
      simp [htaken t]
    rw [hqueue]
    exact le_of_eq ((zero_add _).trans hsum)
  · cases ht : s.threads t with
    | working nNow vChecks next fOk => exact absurd ht (h.not_working htodo)
    | _ => trivial
  · rw [List.mem_append,List.mem_singleton] at hv
    obtain hv | rfl := hv
    · exact h.verdicts v hv
    · exact h.verdict htodo

/-- `Wait` leaves `Loop`. -/
theorem leaves (h : s.Inv evaluate) (ht : s.threads none = .inside) :
    ({ s with q := { s.q with nTotal := s.q.nTotal-1 } }.setThread none .outside).Inv
      evaluate := by
  have hless := idle_lt_entered ht
  have htotal := h.total
  have hsub : (s.q.nTotal-1).toNat = s.q.nTotal.toNat-1 :=
    BitVec.toNat_sub_of_le (BitVec.le_def.mpr (by simp; omega))
  apply h.moved { s.q with nTotal := s.q.nTotal-1 } .outside rfl rfl rfl rfl
  · rw [ht]
    rfl
  · rw [ht]
    rfl
  · rw [hsub,ht]
    simp only [ThreadState.entered]
    omega
  · rw [ht]
    rfl
  · trivial
  · intro _ notified hn
    contradiction

/-- A thread reports a batch that it went through. -/
theorem reported (h : s.Inv evaluate) {nNow : Uint32} {vChecks : List Check} {fOk : Bool}
    (ht : s.threads t = .working nNow vChecks vChecks.length fOk)
    (hmaster : t ≠ none → s.threads none = .waiting false → s.q.nTodo-nNow ≠ 0) :
    ({ s with q := { s.q with fAllOk := s.q.fAllOk && fOk, nTodo := s.q.nTodo-nNow } }.setThread t
      .inside).Inv evaluate := by
  have hgood := h.good t
  rw [ht] at hgood
  obtain ⟨hnow,-,-,hthread,hthreadF⟩ := hgood
  have hsum := @sumOf_setThread _ _ _ _ s t .inside fun thread => thread.taken.length
  have htodo := h.todo
  simp only [ht,ThreadState.taken_working,ThreadState.taken_inside,List.length_nil] at hsum
  have hsub : (s.q.nTodo-nNow).toNat = s.q.nTodo.toNat-nNow.toNat :=
    BitVec.toNat_sub_of_le (BitVec.le_def.mpr (by omega))
  refine h.changed { s.q with fAllOk := s.q.fAllOk && fOk, nTodo := s.q.nTodo-nNow } s.executed
    .inside rfl ?_ ?_ ?_ ?_ ?_ (fun hok => ?_) (fun hok => ?_) trivial fun notified hn => ?_
  · rw [ht,hsub]
    simp only [ThreadState.taken_working,ThreadState.taken_inside,List.length_nil]
    omega
  · rw [ht]
    rfl
  · rw [ht]
    rfl
  · rw [ThreadState.taken_inside,Multiset.coe_nil]
    exact add_le_add_right (Multiset.zero_le _) _
  · rw [ThreadState.remaining_inside,Multiset.coe_nil]
    exact add_le_add_right (Multiset.zero_le _) _
  · have hboth : s.q.fAllOk = true ∧ fOk = true := by simpa using hok
    refine ⟨hboth.1,fun c hc => ?_⟩
    rw [ht] at hc
    obtain hin | hin := hc
    · exact .inr (.inl hin)
    · exact .inl (hthread hboth.2 c (by simpa [ThreadState.taken] using hin))
  · have hone : s.q.fAllOk = false ∨ fOk = false := by
      cases hall : s.q.fAllOk with
      | false => exact .inl rfl
      | true =>
        simp only [hall,Bool.true_and] at hok
        exact .inr hok
    exact hone.elim h.allFalse hthreadF
  · by_cases hnone : none = t
    · subst hnone
      rw [setThread_self] at hn
      contradiction
    · rw [setThread_of_ne _ _ _ hnone] at hn
      refine ⟨(h.master notified hn).1,fun hf => ?_⟩
      subst hf
      exact hmaster (Ne.symm hnone) hn

/-- A thread notified on the condition variable that it waits on. -/
theorem notified (h : s.Inv evaluate) (t : Option (Fin nThreads)) :
    (s.setThread t (s.threads t).notify).Inv evaluate := by
  apply h.moved s.q (s.threads t).notify rfl rfl rfl rfl
  · simp
  · simp
  · simp
  · simp
  · simpa using h.good t
  · intro hnone notified hn
    cases ht : s.threads t with
    | waiting before =>
      rw [ht] at hn
      have hqueue := (h.master before (hnone ▸ ht)).1
      refine ⟨hqueue,fun hf => ?_⟩
      simp [ThreadState.notify,hf] at hn
    | _ =>
      rw [ht] at hn
      contradiction

theorem notifiedAll (h : s.Inv evaluate) :
    ({ s with threads := fun t => if t.isNone then s.threads t else (s.threads t).notify } :
      CheckThreads Check nThreads).Inv evaluate := by
  have hproj : ∀ {α : Type} (f : ThreadState Check → α),
      (∀ thread : ThreadState Check, f thread.notify = f thread) →
      ∀ t, f (if t.isNone then s.threads t else (s.threads t).notify) = f (s.threads t) := by
    intro α f hf t
    split
    · rfl
    · exact hf _
  have hsum : ∀ {M : Type} [AddCommMonoid M] (f : ThreadState Check → M),
      (∀ thread : ThreadState Check, f thread.notify = f thread) →
      ({ s with threads := fun t => if t.isNone then s.threads t else (s.threads t).notify } :
        CheckThreads Check nThreads).sumOf f = s.sumOf f :=
    fun f hf => Finset.sum_congr rfl fun t _ => hproj f hf t
  refine ⟨h.quit,?_,?_,?_,?_,?_,h.fits,?_,h.allFalse,fun t => ?_,h.verdicts,?_⟩
  · rw [hsum _ (by simp)]
    exact h.todo
  · rw [hsum _ (by simp)]
    exact h.total
  · rw [hsum _ (by simp)]
    exact h.idle
  · rw [hsum _ (by simp)]
    exact h.pending
  · rw [hsum _ (by simp)]
    exact h.once
  · intro hok c hc
    obtain he | hin | ⟨t,hin⟩ := h.allTrue hok c hc
    · exact .inl he
    · exact .inr (.inl hin)
    · exact .inr (.inr ⟨t,(hproj ThreadState.taken (by simp) t).symm ▸ hin⟩)
  · exact (hproj (ThreadState.Good evaluate s.batch) (by simp) t).symm ▸ h.good t
  · exact h.master

/-- The checks are appended to the queue. -/
theorem appended (h : s.Inv evaluate) (ht : s.threads none = .outside) (vChecks : List Check)
    (hfits : s.batch.length+vChecks.length < 2^32) :
    ({ s with
      q := { s.q with
        queue := s.q.queue ++ vChecks, nTodo := s.q.nTodo+BitVec.ofNat 32 vChecks.length },
      added := s.added ++ vChecks, batch := s.batch ++ vChecks } :
        CheckThreads Check nThreads).Inv evaluate := by
  have hle := h.pending_le
  have htodo := h.todo
  have hofNat : (BitVec.ofNat 32 vChecks.length).toNat = vChecks.length := by
    rw [BitVec.toNat_ofNat]
    exact Nat.mod_eq_of_lt (by omega)
  have hadd : (s.q.nTodo+BitVec.ofNat 32 vChecks.length).toNat =
      s.q.nTodo.toNat+vChecks.length := by
    rw [BitVec.toNat_add_of_lt (by omega),hofNat]
  refine ⟨h.quit,?_,h.total,h.idle,?_,?_,?_,fun hok c hc => ?_,fun hok => ?_,fun t => ?_,
    h.verdicts,fun notified hn => ?_⟩
  · rw [hadd,htodo,List.length_append]
    exact Nat.add_right_comm _ _ _
  · have hmore := add_le_add_left h.pending (vChecks : Multiset Check)
    rw [← Multiset.coe_add,← Multiset.coe_add,add_right_comm]
    exact hmore
  · have hmore := add_le_add_left h.once (vChecks : Multiset Check)
    rw [← Multiset.coe_add,← Multiset.coe_add,← add_assoc,add_right_comm]
    exact hmore
  · rw [List.length_append]
    exact hfits
  · rw [List.mem_append] at hc ⊢
    obtain hc | hc := hc
    · obtain he | hin | hin := h.allTrue hok c hc
      · exact .inl he
      · exact .inr (.inl (.inl hin))
      · exact .inr (.inr hin)
    · exact .inr (.inl (.inr hc))
  · obtain ⟨c,hc,he⟩ := h.allFalse hok
    exact ⟨c,List.mem_append_left _ hc,he⟩
  · exact (h.good t).mono vChecks
  · rw [ht] at hn
    contradiction

/-- A thread goes on to the next check of its batch, which it may execute. -/
theorem goesOn (h : s.Inv evaluate) {nNow : Uint32} {vChecks : List Check} {next : Nat}
    {fOk fOk' : Bool} (executed : List Check) (ht : s.threads t = .working nNow vChecks next fOk)
    (hnext : next+1 ≤ vChecks.length)
    (honce : (executed : Multiset Check)+(vChecks.drop (next+1) : Multiset Check) ≤
      (s.executed : Multiset Check)+(vChecks.drop next : Multiset Check))
    (htrue : fOk' = true → ∀ c ∈ vChecks.take (next+1), evaluate c = true)
    (hfalse : fOk' = false → ∃ c ∈ s.batch, evaluate c = false) :
    ({ s with executed := executed }.setThread t (.working nNow vChecks (next+1) fOk')).Inv
      evaluate := by
  have hgood := h.good t
  rw [ht] at hgood
  obtain ⟨hnow,-,hne,-,-⟩ := hgood
  refine h.changed s.q executed (.working nNow vChecks (next+1) fOk') rfl ?_ ?_ ?_ ?_ ?_
    (fun hok => ⟨hok,fun c hc => ?_⟩) h.allFalse ⟨hnow,hnext,hne,htrue,hfalse⟩ fun notified hn => ?_
  · rw [ht]
    rfl
  · rw [ht]
    rfl
  · rw [ht]
    rfl
  · rw [ht]
    exact le_refl _
  · rw [ht,ThreadState.remaining_working,ThreadState.remaining_working,add_right_comm,
      add_right_comm (s.executed : Multiset Check)]
    exact add_le_add_left honce _
  · rw [ht] at hc
    exact .inr hc
  · by_cases hnone : none = t
    · subst hnone
      rw [setThread_self] at hn
      contradiction
    · rw [setThread_of_ne _ _ _ hnone] at hn
      exact h.master notified hn

theorem executes (h : s.Inv evaluate) {nNow : Uint32} {vChecks : List Check} {next : Nat}
    {fOk : Bool} {check : Check} (ht : s.threads t = .working nNow vChecks next fOk)
    (hcheck : vChecks[next]? = some check) :
    (s.executeNext evaluate t nNow vChecks next fOk check).Inv evaluate := by
  obtain ⟨hlt,hget⟩ := List.getElem?_eq_some_iff.mp hcheck
  have hdrop : vChecks.drop next = check :: vChecks.drop (next+1) := by
    rw [← hget]
    exact List.drop_eq_getElem_cons hlt
  have hgood := h.good t
  rw [ht] at hgood
  obtain ⟨-,-,-,htrue,hfalse⟩ := hgood
  have hin : check ∈ s.batch := by
    apply h.taken_subset (t := t)
    rw [ht,← hget]
    exact List.getElem_mem hlt
  cases fOk with
  | true =>
    refine h.goesOn (s.executed ++ [check]) ht hlt ?_ (fun he c hc => ?_) fun he => ⟨check,hin,he⟩
    · rw [hdrop,Multiset.coe_add,Multiset.coe_add,List.append_assoc]
      exact le_refl _
    · rw [List.take_add_one,hcheck,List.mem_append] at hc
      obtain hc | hc := hc
      · exact htrue rfl c hc
      · have hc : c = check := by simpa using hc
        rw [hc]
        exact he
  | false =>
    refine h.goesOn s.executed ht hlt ?_ (fun he => by simp at he) hfalse
    rw [hdrop]
    exact add_le_add_right (Multiset.coe_le.mpr (List.sublist_cons_self _ _).subperm) _

end Inv

end CheckThreads

/-- What a thread still has to do, for the measure of a run. -/
def ThreadState.weight : ThreadState Check → Nat
  | .outside => 1
  | .inside => 0
  | .waiting notified => if notified then 2 else 0
  | .working _ vChecks next _ => 4+(vChecks.length-next)

/-- The steps that do not add checks, do not start a `Wait` and are no spurious wakeups. -/
def ThreadAction.internal {nThreads : Nat} : ThreadAction Check nThreads → Bool
  | .start t => t.isSome
  | .wake _ notified => notified
  | .execute _ => true
  | .report _ => true
  | .add _ _ => false

/-- `nTodo` is an `unsigned int`: a batch has fewer than 2^32 checks. -/
def CheckThreads.admits {nThreads : Nat} (s : CheckThreads Check nThreads) :
    ThreadAction Check nThreads → Prop
  | .add vChecks _ => s.batch.length+vChecks.length < 2^32
  | _ => True

namespace CheckThreads
variable {nThreads : Nat} {evaluate : Check → Bool} {s : CheckThreads Check nThreads}
  {t : Option (Fin nThreads)}

def weight (s : CheckThreads Check nThreads) : Nat :=
  5*s.q.queue.length+s.sumOf ThreadState.weight

theorem settled_setThread {thread : ThreadState Check} (hthread : thread ≠ .inside)
    (hothers : ∀ t', t' ≠ t → s.threads t' ≠ .inside) : (s.setThread t thread).Settled := by
  intro t'
  by_cases ht : t' = t
  · rw [ht,setThread_self]
    exact hthread
  · rw [setThread_of_ne s t thread ht]
    exact hothers t' ht

/-- The rest of a critical section always ends, and gives up the mutex. -/
theorem loop_spec (h : s.Inv evaluate) (ht : s.threads t = .inside)
    (hothers : ∀ t', t' ≠ t → s.threads t' ≠ .inside) (hfits : nThreads < 2^31-1) :
    ∃ s', s.loop t = some s' ∧ s'.Inv evaluate ∧ s'.Settled ∧
      s'.weight ≤ s.weight+if t = none then 1 else 0 := by
  have hless := idle_lt_entered ht
  have hle := s.entered_le
  have htotal := h.total
  have hidle := h.idle
  have hroom : s.q.nTotal.toNat+s.q.nIdle.toNat+1 < 2^32 := by omega
  have hweight : ∀ thread, (s.setThread t thread).sumOf ThreadState.weight =
      s.sumOf ThreadState.weight+thread.weight := by
    intro thread
    have hsum := @sumOf_setThread _ _ _ _ s t thread ThreadState.weight
    rw [ht] at hsum
    exact hsum
  obtain ⟨hqueue,hmay,htodo,heq⟩ | ⟨hqueue,hmust,heq⟩ | ⟨nNow,vChecks,left,heq,hnow,hne,hsplit⟩ :=
    s.q.loop_cases t.isNone hroom
  · have hnone : t = none := by simpa [h.quit] using hmay
    subst hnone
    refine ⟨_,by rw [loop,heq]; rfl,(h.leaves ht).finished htodo,
      settled_setThread (by simp) hothers,?_⟩
    have := hweight .outside
    change 5*s.q.queue.length+(s.setThread none .outside).sumOf ThreadState.weight ≤ _
    rw [this]
    exact le_refl _
  · refine ⟨_,by rw [loop,heq]; rfl,h.waits ht hfits hqueue fun hnone => ?_,
      settled_setThread (by simp) hothers,?_⟩
    · exact hmust (by simp [hnone])
    · have := hweight (.waiting false)
      change 5*s.q.queue.length+(s.setThread t (.waiting false)).sumOf ThreadState.weight ≤ _
      rw [this]
      exact Nat.le_add_right _ _
  · refine ⟨_,by rw [loop,heq]; rfl,h.takes ht hnow hne hsplit,
      settled_setThread (by simp) hothers,?_⟩
    have := hweight (.working nNow vChecks 0 s.q.fAllOk)
    have hlen : left.length+vChecks.length = s.q.queue.length := by
      simpa using congrArg Multiset.card hsplit
    have hpos := List.length_pos_of_ne_nil hne
    change 5*left.length+
      (s.setThread t (.working nNow vChecks 0 s.q.fAllOk)).sumOf ThreadState.weight ≤ _
    rw [this,weight]
    simp only [ThreadState.weight]
    omega

theorem weight_notify_le (thread : ThreadState Check) : thread.notify.weight ≤ thread.weight+2 := by
  cases thread <;> simp [ThreadState.notify,ThreadState.weight]

section CleanUp
variable {nNow : Uint32} {vChecks : List Check} {fOk : Bool}

/-- A worker that reports the last checks notifies the controlling thread. -/
theorem cleanUp_cases (s : CheckThreads Check nThreads) (t : Option (Fin nThreads))
    (nNow : Uint32) (fOk : Bool) :
    (t ≠ none ∧ s.cleanUp t nNow fOk = { s.setThread none (s.threads none).notify with
      q := { s.q with fAllOk := s.q.fAllOk && fOk, nTodo := s.q.nTodo-nNow } }.setThread t
        .inside) ∨
    ((t = none ∨ s.q.nTodo-nNow ≠ 0) ∧ s.cleanUp t nNow fOk = { s with
      q := { s.q with fAllOk := s.q.fAllOk && fOk, nTodo := s.q.nTodo-nNow } }.setThread t
        .inside) := by
  by_cases hlast : t ≠ none ∧ s.q.nTodo-nNow = 0
  · obtain ⟨hne,htodo⟩ := hlast
    have hcond : ((s.q.nTodo-nNow == 0) && !t.isNone) = true := by
      cases t with
      | none => contradiction
      | some i => simp [htodo]
    refine .inl ⟨hne,(if_pos hcond).trans ?_⟩
    simp only [setThread,Function.update_of_ne hne.symm,Function.update_comm hne]
  · have hcase : t = none ∨ s.q.nTodo-nNow ≠ 0 := by
      by_cases hnone : t = none
      · exact .inl hnone
      · exact .inr fun h0 => hlast ⟨hnone,h0⟩
    have hcond : ¬((s.q.nTodo-nNow == 0) && !t.isNone) = true := by
      obtain rfl | hne := hcase
      · simp
      · simpa using fun h0 => absurd h0 hne
    exact .inr ⟨hcase,if_neg hcond⟩

theorem notify_ne (thread : ThreadState Check) : thread.notify ≠ .waiting false := by
  cases thread <;> simp [ThreadState.notify]

theorem notify_eq_inside {thread : ThreadState Check} (h : thread.notify = .inside) :
    thread = .inside := by
  cases thread <;> simp [ThreadState.notify] at h ⊢

theorem Inv.cleanUp (h : s.Inv evaluate)
    (ht : s.threads t = .working nNow vChecks vChecks.length fOk) :
    (s.cleanUp t nNow fOk).Inv evaluate := by
  obtain ⟨hne,heq⟩ | ⟨hcase,heq⟩ := s.cleanUp_cases t nNow fOk
  · rw [heq]
    refine (h.notified none).reported ((setThread_of_ne _ _ _ hne).trans ht) fun _ hn => ?_
    exact absurd ((setThread_self _ _ _).symm.trans hn) (notify_ne _)
  · rw [heq]
    exact h.reported ht fun hne _ => hcase.resolve_left hne

theorem cleanUp_threads (hs : s.Settled) : (s.cleanUp t nNow fOk).threads t = .inside ∧
    ∀ t', t' ≠ t → (s.cleanUp t nNow fOk).threads t' ≠ .inside := by
  obtain ⟨hne,heq⟩ | ⟨hcase,heq⟩ := s.cleanUp_cases t nNow fOk
  · rw [heq]
    refine ⟨setThread_self _ _ _,fun t' ht' => ?_⟩
    rw [setThread_of_ne _ _ _ ht']
    exact settled_setThread (fun hn => hs none (notify_eq_inside hn)) (fun t' _ => hs t') t'
  · rw [heq]
    refine ⟨setThread_self _ _ _,fun t' ht' => ?_⟩
    rw [setThread_of_ne _ _ _ ht']
    exact hs t'

theorem weight_cleanUp (ht : s.threads t = .working nNow vChecks vChecks.length fOk) :
    (s.cleanUp t nNow fOk).weight+2 ≤ s.weight := by
  obtain ⟨hne,heq⟩ | ⟨hcase,heq⟩ := s.cleanUp_cases t nNow fOk
  · rw [heq]
    have hnotify := @sumOf_setThread _ _ _ _ s none (s.threads none).notify ThreadState.weight
    have hinside := @sumOf_setThread _ _ _ _ (s.setThread none (s.threads none).notify) t .inside
      ThreadState.weight
    rw [setThread_of_ne _ _ _ hne,ht] at hinside
    have hle := weight_notify_le (s.threads none)
    change _+(4+(vChecks.length-vChecks.length)) = _+0 at hinside
    change 5*s.q.queue.length+((s.setThread none (s.threads none).notify).setThread t .inside).sumOf
      ThreadState.weight+2 ≤ 5*s.q.queue.length+s.sumOf ThreadState.weight
    omega
  · rw [heq]
    have hinside := @sumOf_setThread _ _ _ _ s t .inside ThreadState.weight
    rw [ht] at hinside
    change _+(4+(vChecks.length-vChecks.length)) = _+0 at hinside
    change 5*s.q.queue.length+(s.setThread t .inside).sumOf ThreadState.weight+2 ≤
      5*s.q.queue.length+s.sumOf ThreadState.weight
    omega

end CleanUp

/-- The step that a thread is at. -/
def nextAction (s : CheckThreads Check nThreads) (t : Option (Fin nThreads)) :
    ThreadAction Check nThreads :=
  match s.threads t with
  | .outside => .start t
  | .inside => .report t
  | .waiting notified => .wake t notified
  | .working _ vChecks next _ => if next < vChecks.length then .execute t else .report t

/-- What a step of a thread leads to. -/
structure Stepped (evaluate : Check → Bool) (s s' : CheckThreads Check nThreads)
    (a : ThreadAction Check nThreads) : Prop where
  inv : s'.Inv evaluate
  settled : s'.Settled
  weight_lt : a.internal = true → s'.weight < s.weight

theorem start_spec (h : s.Inv evaluate) (hs : s.Settled) (hfits : nThreads < 2^31-1)
    (ht : s.threads t = .outside) :
    ∃ s', s.step evaluate (.start t) = some s' ∧ Stepped evaluate s s' (.start t) := by
  have hsum := @sumOf_setThread _ _ _ _ s t .inside ThreadState.weight
  rw [ht] at hsum
  change _+1 = _+0 at hsum
  have hweight : (s.enter t).weight+1 = s.weight := by
    change 5*s.q.queue.length+(s.setThread t .inside).sumOf ThreadState.weight+1 =
      5*s.q.queue.length+s.sumOf ThreadState.weight
    omega
  have hothers : ∀ t', t' ≠ t → (s.enter t).threads t' ≠ .inside := fun t' ht' => by
    rw [enter,setThread_of_ne _ _ _ ht']
    exact hs t'
  obtain ⟨s',heq,hinv,hsettled,hle⟩ := loop_spec (h.enter ht hfits) (setThread_self _ _ _) hothers hfits
  refine ⟨s',by simp only [step,ht]; exact heq,hinv,hsettled,fun hint => ?_⟩
  rw [if_neg (by rintro rfl; simp [ThreadAction.internal] at hint)] at hle
  omega

theorem wake_spec (h : s.Inv evaluate) (hs : s.Settled) (hfits : nThreads < 2^31-1)
    {notified : Bool} (ht : s.threads t = .waiting notified) :
    ∃ s', s.step evaluate (.wake t notified) = some s' ∧
      Stepped evaluate s s' (.wake t notified) := by
  have hsum := @sumOf_setThread _ _ _ _ s t .inside ThreadState.weight
  rw [ht] at hsum
  have hothers : ∀ t', t' ≠ t → (s.resume t).threads t' ≠ .inside := fun t' ht' => by
    rw [resume,setThread_of_ne _ _ _ ht']
    exact hs t'
  obtain ⟨s',heq,hinv,hsettled,hle⟩ := loop_spec (h.resume ht) (setThread_self _ _ _) hothers hfits
  refine ⟨s',by simp only [step,ht]; exact heq,hinv,hsettled,fun hint => ?_⟩
  have hnotified : notified = true := hint
  rw [hnotified] at hsum
  change _+2 = _+0 at hsum
  have hweight : (s.resume t).weight+2 = s.weight := by
    change 5*s.q.queue.length+(s.setThread t .inside).sumOf ThreadState.weight+2 =
      5*s.q.queue.length+s.sumOf ThreadState.weight
    omega
  split at hle <;> omega

theorem report_spec (h : s.Inv evaluate) (hs : s.Settled) (hfits : nThreads < 2^31-1)
    {nNow : Uint32} {vChecks : List Check} {fOk : Bool}
    (ht : s.threads t = .working nNow vChecks vChecks.length fOk) :
    ∃ s', s.step evaluate (.report t) = some s' ∧ Stepped evaluate s s' (.report t) := by
  obtain ⟨hinside,hothers⟩ := @cleanUp_threads _ _ s t nNow fOk hs
  have hweight := weight_cleanUp ht
  obtain ⟨s',heq,hinv,hsettled,hle⟩ := loop_spec (h.cleanUp ht) hinside hothers hfits
  refine ⟨s',by simp only [step,ht]; exact heq,hinv,hsettled,fun _ => ?_⟩
  split at hle <;> omega

theorem execute_spec (h : s.Inv evaluate) (hs : s.Settled) {nNow : Uint32} {vChecks : List Check}
    {next : Nat} {fOk : Bool} (ht : s.threads t = .working nNow vChecks next fOk)
    (hnext : next < vChecks.length) :
    ∃ s', s.step evaluate (.execute t) = some s' ∧ Stepped evaluate s s' (.execute t) := by
  have hcheck : vChecks[next]? = some vChecks[next] := List.getElem?_eq_getElem hnext
  refine ⟨_,by simp only [step,ht,hcheck]; rfl,h.executes ht hcheck,?_,fun _ => ?_⟩
  · unfold executeNext
    split
    · exact settled_setThread (by simp) fun t' _ => hs t'
    · exact settled_setThread (by simp) fun t' _ => hs t'
  · have hsum := fun fOk' => @sumOf_setThread _ _ _ _ s t (.working nNow vChecks (next+1) fOk')
      ThreadState.weight
    simp only [ht] at hsum
    have hweight : ∀ fOk', (s.setThread t (.working nNow vChecks (next+1) fOk')).sumOf
        ThreadState.weight < s.sumOf ThreadState.weight := by
      intro fOk'
      have := hsum fOk'
      change _+(4+(vChecks.length-next)) = _+(4+(vChecks.length-(next+1))) at this
      omega
    unfold executeNext
    split
    · exact Nat.add_lt_add_left (hweight _) _
    · exact Nat.add_lt_add_left (hweight _) _

/-- Every thread can take its next step. -/
theorem nextAction_spec (h : s.Inv evaluate) (hs : s.Settled) (hfits : nThreads < 2^31-1)
    (t : Option (Fin nThreads)) : ∃ s', s.step evaluate (s.nextAction t) = some s' ∧
      Stepped evaluate s s' (s.nextAction t) := by
  unfold nextAction
  cases ht : s.threads t with
  | outside => exact start_spec h hs hfits ht
  | inside => exact absurd ht (hs t)
  | waiting notified => exact wake_spec h hs hfits ht
  | working nNow vChecks next fOk =>
    have hgood := h.good t
    rw [ht] at hgood
    by_cases hnext : next < vChecks.length
    · simp only [if_pos hnext]
      exact execute_spec h hs ht hnext
    · simp only [if_neg hnext]
      have hend : next = vChecks.length := Nat.le_antisymm hgood.2.1 (Nat.le_of_not_lt hnext)
      subst hend
      exact report_spec h hs hfits ht

theorem notifyWorkers_spec {s' : CheckThreads Check nThreads} {nChecks : Nat}
    {chosen : Option (Fin nThreads)} (h : s.Inv evaluate) (hs : s.Settled)
    (heq : s.notifyWorkers nChecks chosen = some s') : s'.Inv evaluate ∧ s'.Settled := by
  unfold notifyWorkers at heq
  split at heq
  · cases chosen with
    | none =>
      simp only [Option.ite_none_right_eq_some,Option.some.injEq] at heq
      obtain ⟨-,rfl⟩ := heq
      exact ⟨h,hs⟩
    | some i =>
      simp only [Option.ite_none_right_eq_some,Option.some.injEq] at heq
      obtain ⟨hasleep,rfl⟩ := heq
      have hnotify : (s.threads (some i)).notify = .waiting true := by
        cases ht : s.threads (some i) <;> simp [ThreadState.asleep,ht] at hasleep ⊢
        rfl
      rw [← hnotify]
      refine ⟨h.notified (some i),settled_setThread ?_ fun t' _ => hs t'⟩
      rw [hnotify]
      simp
  · split at heq
    · obtain rfl := Option.some.inj heq
      refine ⟨h.notifiedAll,fun t' ht' => ?_⟩
      change (if t'.isNone then s.threads t' else (s.threads t').notify) = .inside at ht'
      split at ht'
      · exact hs t' ht'
      · exact hs t' (notify_eq_inside ht')
    · obtain rfl := Option.some.inj heq
      exact ⟨h,hs⟩

theorem step_spec {s' : CheckThreads Check nThreads} {a : ThreadAction Check nThreads}
    (h : s.Inv evaluate) (hs : s.Settled) (hfits : nThreads < 2^31-1) (hadmits : s.admits a)
    (hstep : s.step evaluate a = some s') : Stepped evaluate s s' a := by
  have hsame : ∀ s'', s.step evaluate a = some s'' ∧ Stepped evaluate s s'' a →
      Stepped evaluate s s' a := by
    rintro s'' ⟨heq,hspec⟩
    rw [hstep] at heq
    obtain rfl := Option.some.inj heq
    exact hspec
  cases a with
  | start t =>
    cases ht : s.threads t with
    | outside => exact (start_spec h hs hfits ht).elim hsame
    | _ => simp [step,ht] at hstep
  | wake t notified =>
    cases ht : s.threads t with
    | waiting was =>
      by_cases hwas : was = notified
      · subst hwas
        exact (wake_spec h hs hfits ht).elim hsame
      · simp [step,ht,hwas] at hstep
    | _ => simp [step,ht] at hstep
  | execute t =>
    cases ht : s.threads t with
    | working nNow vChecks next fOk =>
      by_cases hnext : next < vChecks.length
      · exact (execute_spec h hs ht hnext).elim hsame
      · simp [step,ht,List.getElem?_eq_none (Nat.le_of_not_lt hnext)] at hstep
    | _ => simp [step,ht] at hstep
  | report t =>
    cases ht : s.threads t with
    | working nNow vChecks next fOk =>
      by_cases hnext : next = vChecks.length
      · subst hnext
        exact (report_spec h hs hfits ht).elim hsame
      · simp [step,ht,hnext] at hstep
    | _ => simp [step,ht] at hstep
  | add vChecks chosen =>
    cases ht : s.threads none with
    | outside =>
      simp only [step,ht] at hstep
      obtain ⟨hinv,hsettled⟩ := notifyWorkers_spec (h.appended ht vChecks hadmits) hs hstep
      exact ⟨hinv,hsettled,fun hint => by simp [ThreadAction.internal] at hint⟩
    | _ => simp [step,ht] at hstep

theorem isIdle_of_no_batch (h : s.Inv evaluate) (hs : s.Settled) (hbatch : s.batch = []) :
    s.q.fAllOk = true ∧ (s.threads none = .outside → s.q.isIdle = true) := by
  have hle := h.pending_le
  have htodo : s.q.nTodo = 0 := BitVec.eq_of_toNat_eq (by
    rw [h.todo]
    rw [hbatch,List.length_nil] at hle
    simpa using hle)
  have hok : s.q.fAllOk = true := by
    cases hall : s.q.fAllOk with
    | true => rfl
    | false =>
      obtain ⟨c,hc,-⟩ := h.allFalse hall
      simp [hbatch] at hc
  refine ⟨hok,fun _ => ?_⟩
  have hcount : s.sumOf ThreadState.entered = s.sumOf ThreadState.idle := by
    apply Finset.sum_congr rfl
    intro t _
    cases ht : s.threads t with
    | inside => exact absurd ht (hs t)
    | working nNow vChecks next fOk => exact absurd ht (h.not_working htodo)
    | outside => rfl
    | waiting notified => rfl
  have hidle : s.q.nTotal = s.q.nIdle :=
    BitVec.eq_of_toNat_eq (h.total.trans (hcount.trans h.idle.symm))
  simp [CCheckQueue.isIdle,hidle,htodo,hok]

/-- While `Wait` runs some step is possible that is no spurious wakeup. -/
theorem progress (h : s.Inv evaluate) (hs : s.Settled) (hfits : nThreads < 2^31-1)
    (hwait : s.threads none ≠ .outside) :
    ∃ a s', a.internal = true ∧ s.step evaluate a = some s' := by
  have hworking : ∀ t nNow vChecks next fOk, s.threads t = .working nNow vChecks next fOk →
      ∃ a s', a.internal = true ∧ s.step evaluate a = some s' := by
    intro t nNow vChecks next fOk ht
    obtain ⟨s',heq,-⟩ := nextAction_spec h hs hfits t
    refine ⟨_,s',?_,heq⟩
    simp only [nextAction,ht]
    split <;> rfl
  cases ht : s.threads none with
  | outside => contradiction
  | inside => exact absurd ht (hs none)
  | working nNow vChecks next fOk => exact hworking _ _ _ _ _ ht
  | waiting notified =>
    obtain ⟨hqueue,htodo⟩ := h.master notified ht
    cases notified with
    | true =>
      obtain ⟨s',heq,-⟩ := wake_spec h hs hfits ht
      exact ⟨_,s',rfl,heq⟩
    | false =>
      have hsum : s.sumOf (fun thread => thread.taken.length) ≠ 0 := fun h0 => by
        have := h.todo
        rw [h0,hqueue] at this
        exact htodo rfl (BitVec.eq_of_toNat_eq this)
      obtain ⟨t,-,htaken⟩ := Finset.exists_ne_zero_of_sum_ne_zero hsum
      cases hthread : s.threads t with
      | working nNow vChecks next fOk => exact hworking _ _ _ _ _ hthread
      | _ => simp [hthread,ThreadState.taken] at htaken

/-- For every interleaving of the threads: a check is executed at most once; `nTodo` counts
the checks in the queue and those that were taken and not reported; what a `Wait` returned
says whether all checks that were added for it are true; between two batches `fAllOk` is set
and the queue is idle; no step of a thread fails; and a `Wait` that was begun returns. -/
theorem checkQueue_verdicts {nThreads : Nat} (hthreads : nThreads < 2^31-1)
    (evaluate : Check → Bool) (nBatchSizeIn : Uint32) {s : CheckThreads Check nThreads}
    (h : ReachableBy (fun s a s' => s.step evaluate a = some s') admits (create nBatchSizeIn) s) :
    (s.executed : Multiset Check) ≤ (s.added : Multiset Check) ∧
    s.q.nTodo.toNat = s.q.queue.length+∑ t, (s.threads t).taken.length ∧
    (∀ v ∈ s.verdicts, v.2 = v.1.all evaluate) ∧
    (s.batch = [] → s.q.fAllOk = true ∧ (s.threads none = .outside → s.q.isIdle = true)) ∧
    (∀ t, (s.step evaluate (s.nextAction t)).isSome) ∧
    Inevitable (step evaluate) (fun a => a.internal = true) (fun s => s.threads none = .outside)
      s := by
  obtain ⟨hinv,hs⟩ : s.Inv evaluate ∧ s.Settled := by
    refine h.invariant (fun s => s.Inv evaluate ∧ s.Settled) ⟨inv_create nBatchSizeIn,?_⟩ ?_
    · intro t
      simp [create]
    · intro s a s' hinv hadmits hstep
      have hspec := step_spec hinv.1 hinv.2 hthreads hadmits hstep
      exact ⟨hspec.inv,hspec.settled⟩
  refine ⟨?_,hinv.todo,hinv.verdicts,isIdle_of_no_batch hinv hs,fun t => ?_,?_⟩
  · have hle := hinv.once
    rw [add_assoc] at hle
    exact (Multiset.le_add_right _ _).trans hle
  · obtain ⟨s',heq,-⟩ := nextAction_spec hinv hs hthreads t
    rw [heq]
    rfl
  · refine Inevitable.of_measure (fun s => s.Inv evaluate ∧ s.Settled) weight
      (fun s hinv hwait => progress hinv.1 hinv.2 hthreads hwait) (fun s a s' hinv hint hstep => ?_)
      ⟨hinv,hs⟩
    have hadmits : s.admits a := by
      cases a with
      | add vChecks chosen => simp [ThreadAction.internal] at hint
      | _ => trivial
    have hspec := step_spec hinv.1 hinv.2 hthreads hadmits hstep
    exact ⟨⟨hspec.inv,hspec.settled⟩,hspec.weight_lt hint⟩

instance (s : CheckThreads Check nThreads) (a : ThreadAction Check nThreads) :
    Decidable (s.admits a) :=
  match a with
  | .add vChecks _ => inferInstanceAs (Decidable (s.batch.length+vChecks.length < 2^32))
  | .start _ | .wake _ _ | .execute _ | .report _ => .isTrue trivial

/-- Two workers and two batches, one with a check that fails. The second worker takes the
failing check while the controlling thread is in `Wait`. -/
def twoBatches : List (ThreadAction Nat 2) :=
  [.start (some 0),.add [1,2,7] none,.start (some 1),.start none,.execute (some 1),
    .wake (some 0) true,.report (some 1),.execute none,.execute (some 0),.report none,.wake none false,
    .report (some 0),.wake none true,.start none]

theorem checkQueue_verdicts_two : ∃ s : CheckThreads Nat 2,
    runAdmitted (step fun c => c != 7) admits (create 128) twoBatches = some s ∧
    s.verdicts = [([1,2,7],false),([],true)] ∧
    (s.executed : Multiset Nat) ≤ (s.added : Multiset Nat) ∧ s.q.isIdle = true := by
  have hmap : (runAdmitted (step fun c => c != 7) admits (create 128) twoBatches).map
      (fun s : CheckThreads Nat 2 => (s.verdicts,s.batch,(s.threads none).entered)) =
        some ([([1,2,7],false),([],true)],[],0) := by
    decide +kernel
  obtain ⟨s,hrun,hs⟩ := Option.map_eq_some_iff.mp hmap
  obtain ⟨hv,hbatch,hentered⟩ := Prod.mk.inj hs |>.imp_right Prod.mk.inj
  have houtside : s.threads none = .outside := by
    cases ht : s.threads none with
    | outside => rfl
    | _ => simp [ht,ThreadState.entered] at hentered
  have hall := checkQueue_verdicts (by decide) (fun c => c != 7) 128 (ReachableBy.init.of_run hrun)
  exact ⟨s,hrun,hv,hall.1,(hall.2.2.2.1 hbatch).2 houtside⟩

end CheckThreads

end CheckQueue

end Anoncoin
