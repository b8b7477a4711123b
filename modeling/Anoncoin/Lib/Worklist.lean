import Mathlib.Data.Finset.Card
import Mathlib.Logic.Relation

/-!
A worklist over a finite graph whose nodes are removed as they are visited: a node may be queued
many times, and the successors of a node are looked up when it is removed.
-/

set_option autoImplicit false

namespace Anoncoin.Lib

section Worklist
variable {α : Type} [DecidableEq α] (next : α → List α)

/-- The nodes in the order of their removal. -/
def drain (alive : Finset α) : List α → List α
  | [] => []
  | a :: queue =>
      if a ∈ alive then
        a :: drain (alive.erase a) (queue ++ (next a).filter fun b => decide (b ∈ alive))
      else drain alive queue
  termination_by queue => (alive.card,queue.length)
  decreasing_by
    · exact Prod.Lex.left _ _ (Finset.card_erase_lt_of_mem ‹_›)
    · exact Prod.Lex.right _ (by simp)

variable {next} {alive : Finset α} {a b : α} {queue : List α}

@[simp] theorem drain_nil : drain next alive [] = [] := by simp [drain]

theorem drain_cons_of_mem (h : a ∈ alive) : drain next alive (a :: queue) =
    a :: drain next (alive.erase a) (queue ++ (next a).filter fun b => decide (b ∈ alive)) := by
  rw [drain,if_pos h]

theorem drain_cons_of_not_mem (h : a ∉ alive) :
    drain next alive (a :: queue) = drain next alive queue := by
  rw [drain,if_neg h]

theorem drain_alive (h : b ∈ drain next alive queue) : b ∈ alive := by
  induction alive, queue using drain.induct next with
  | case1 alive => simp at h
  | case2 alive a queue ha ih =>
    rw [drain_cons_of_mem ha] at h
    rcases List.mem_cons.mp h with rfl | hrest
    · exact ha
    · exact Finset.mem_of_mem_erase (ih hrest)
  | case3 alive a queue ha ih =>
    rw [drain_cons_of_not_mem ha] at h
    exact ih h

theorem nodup_drain (next : α → List α) (alive : Finset α) (queue : List α) :
    (drain next alive queue).Nodup := by
  induction alive, queue using drain.induct next with
  | case1 alive => simp
  | case2 alive a queue ha ih =>
    rw [drain_cons_of_mem ha]
    exact List.nodup_cons.mpr ⟨fun h => Finset.notMem_erase a alive (drain_alive h),ih⟩
  | case3 alive a queue ha ih =>
    rw [drain_cons_of_not_mem ha]
    exact ih

theorem mem_drain_of_queued (hq : b ∈ queue) (hb : b ∈ alive) : b ∈ drain next alive queue := by
  induction alive, queue using drain.induct next with
  | case1 alive => simp at hq
  | case2 alive a queue ha ih =>
    rw [drain_cons_of_mem ha]
    by_cases hba : b = a
    · exact hba ▸ List.mem_cons_self
    · have hqueue : b ∈ queue := (List.mem_cons.mp hq).resolve_left hba
      exact List.mem_cons_of_mem _
        (ih (List.mem_append_left _ hqueue) (Finset.mem_erase.mpr ⟨hba,hb⟩))
  | case3 alive a queue ha ih =>
    rw [drain_cons_of_not_mem ha]
    have hba : b ≠ a := by
      rintro rfl
      exact ha hb
    exact ih ((List.mem_cons.mp hq).resolve_left hba) hb

/-- What is removed takes its successors along. -/
theorem drain_closed (ha : a ∈ drain next alive queue) (hnext : b ∈ next a) (hb : b ∈ alive) :
    b ∈ drain next alive queue := by
  induction alive, queue using drain.induct next with
  | case1 alive => simp at ha
  | case2 alive c queue hc ih =>
    rw [drain_cons_of_mem hc] at ha ⊢
    by_cases hbc : b = c
    · exact hbc ▸ List.mem_cons_self
    · have hb' : b ∈ alive.erase c := Finset.mem_erase.mpr ⟨hbc,hb⟩
      refine List.mem_cons_of_mem _ ?_
      rcases List.mem_cons.mp ha with rfl | ha'
      · exact mem_drain_of_queued
          (List.mem_append_right _ (List.mem_filter.mpr ⟨hnext,by simpa using hb⟩)) hb'
      · exact ih ha' hb'
  | case3 alive c queue hc ih =>
    rw [drain_cons_of_not_mem hc] at ha ⊢
    exact ih ha hb

/-- A step of the graph to a node that is alive. -/
def AliveStep (next : α → List α) (alive : Finset α) (a b : α) : Prop := b ∈ next a ∧ b ∈ alive

theorem exists_path_of_mem_drain (h : b ∈ drain next alive queue) :
    ∃ q ∈ queue, q ∈ alive ∧ Relation.ReflTransGen (AliveStep next alive) q b := by
  induction alive, queue using drain.induct next with
  | case1 alive => simp at h
  | case2 alive a queue ha ih =>
    rw [drain_cons_of_mem ha] at h
    rcases List.mem_cons.mp h with rfl | hrest
    · exact ⟨b,List.mem_cons_self,ha,.refl⟩
    · obtain ⟨q,hq,hqalive,hpath⟩ := ih hrest
      have hstep : ∀ x y, AliveStep next (alive.erase a) x y → AliveStep next alive x y :=
        fun x y hxy => ⟨hxy.1,Finset.mem_of_mem_erase hxy.2⟩
      have hpath' : Relation.ReflTransGen (AliveStep next alive) q b :=
        Relation.ReflTransGen.mono hstep q b hpath
      rcases List.mem_append.mp hq with hqueue | hchild
      · exact ⟨q,List.mem_cons_of_mem _ hqueue,Finset.mem_of_mem_erase hqalive,hpath'⟩
      · obtain ⟨hqa,hqalive'⟩ := List.mem_filter.mp hchild
        exact ⟨a,List.mem_cons_self,ha,.head ⟨hqa,by simpa using hqalive'⟩ hpath'⟩
  | case3 alive a queue ha ih =>
    rw [drain_cons_of_not_mem ha] at h
    obtain ⟨q,hq,hqalive,hpath⟩ := ih h
    exact ⟨q,List.mem_cons_of_mem _ hq,hqalive,hpath⟩

/-- Exactly the nodes that paths from the queue reach are removed. -/
theorem mem_drain_iff : b ∈ drain next alive queue ↔
    ∃ q ∈ queue, q ∈ alive ∧ Relation.ReflTransGen (AliveStep next alive) q b := by
  constructor
  · exact exists_path_of_mem_drain
  · rintro ⟨q,hq,hqalive,hpath⟩
    induction hpath with
    | refl => exact mem_drain_of_queued hq hqalive
    | tail _ hstep ih => exact drain_closed ih hstep.1 hstep.2

end Worklist

end Anoncoin.Lib
