import Mathlib.Data.FinEnum
import Mathlib.Algebra.BigOperators.Ring.Finset
import Mathlib.Algebra.Order.BigOperators.Group.List
import Anoncoin.ConnectBlock

/-!
The ledger that the coin views stand for: plain maps of unspent records, what a
transaction does to one, and the value it holds.
-/

set_option autoImplicit false

namespace Anoncoin
open Lib

/-- The value of the unspent outputs of a record. -/
def CCoins.value (c : CCoins) : Int :=
  (c.vout.map fun (o : CTxOut) => if o.isNull then 0 else o.nValue).sum

/-- The output at a position, when it is there and unspent. -/
def CCoins.output (c : CCoins) (n : Nat) : Option CTxOut :=
  c.vout[n]?.filter fun o => !o.isNull

theorem CCoins.output_isSome (c : CCoins) (n : Nat) : (c.output n).isSome = c.isAvailable n := by
  unfold output isAvailable
  cases c.vout[n]? with
  | none => rfl
  | some o => cases ho : o.isNull <;> simp [Option.filter,ho]

theorem CCoins.output_eq_some {c : CCoins} {n : Nat} {o : CTxOut} :
    c.output n = some o ↔ c.vout[n]? = some o ∧ o.isNull = false := by
  unfold output
  rw [Option.filter_eq_some_iff]
  simp

theorem CCoins.cleanup_output (c : CCoins) (n : Nat) : c.cleanup.output n = c.output n := by
  unfold output cleanup
  simp only
  by_cases hn : n < (c.vout.rdropWhile CTxOut.isNull).length
  · rw [rdropWhile_getElem?_within CTxOut.isNull _ _ hn]
  · rw [List.getElem?_eq_none (by omega)]
    cases ho : c.vout[n]? with
    | none => rfl
    | some o =>
      have hnull := rdropWhile_getElem?_beyond CTxOut.isNull c.vout n o (by omega) ho
      simp [Option.filter,hnull]

/-- Spending hands out the output and removes it, and no other one. -/
theorem CCoins.spend_output {c c' : CCoins} {out : COutPoint} {u : CTxInUndo}
    (h : c.spend out = some (c',u)) :
    c.output out.n = some u.txout ∧
      ∀ n, c'.output n = if n = out.n then none else c.output n := by
  obtain ⟨o,ho,hn,rfl,hu⟩ := spend_cases h
  have htx : u.txout = o := by
    rw [hu]
    split <;> rfl
  refine ⟨by rw [htx]; exact output_eq_some.mpr ⟨ho,hn⟩,?_⟩
  intro n
  rw [cleanup_output]
  unfold output
  simp only
  by_cases hne : n = out.n
  · rw [if_pos hne,hne,List.getElem?_set_self (List.getElem?_eq_some_iff.mp ho).1]
    rfl
  · rw [if_neg hne,List.getElem?_set_ne (Ne.symm hne)]

theorem CCoins.cleanup_value (c : CCoins) : c.cleanup.value = c.value := by
  unfold value cleanup
  simp only
  induction c.vout using List.reverseRecOn with
  | nil => rfl
  | append_singleton l o ih =>
    by_cases ho : o.isNull = true
    · rw [List.rdropWhile_concat_pos _ _ _ ho,ih]
      simp [ho]
    · rw [List.rdropWhile_concat_neg _ _ _ ho]

/-- Spending takes exactly the value of the output out of the record. -/
theorem CCoins.spend_value {c c' : CCoins} {out : COutPoint} {u : CTxInUndo}
    (h : c.spend out = some (c',u)) : c'.value+u.txout.nValue = c.value := by
  obtain ⟨o,ho,hn,rfl,hu⟩ := spend_cases h
  obtain ⟨hlt,hget⟩ := List.getElem?_eq_some_iff.mp ho
  have htx : u.txout = o := by
    rw [hu]
    split <;> rfl
  rw [cleanup_value,htx]
  unfold value
  simp only [List.map_set]
  rw [List.sum_set']
  simp [hlt,hget,hn]

theorem CCoins.value_nonneg {c : CCoins}
    (h : ∀ o ∈ c.vout, o.isNull = false → moneyRange o.nValue = true) : 0 ≤ c.value := by
  unfold value
  apply List.sum_nonneg
  intro x hx
  obtain ⟨o,ho,rfl⟩ := List.mem_map.mp hx
  split
  · exact le_refl 0
  · rename_i hn
    exact ((moneyRange_iff _).mp (h o ho (by simpa using hn))).1

/-- A transaction's record holds at most the transaction's own outputs. -/
theorem CCoins.fromTx_value_le {tx : CTransaction} (h : ∀ o ∈ tx.vout, 0 ≤ o.nValue)
    (nHeight : Nat) : (CCoins.fromTx tx nHeight).value ≤ sumValue tx.vout := by
  unfold fromTx clearUnspendable
  rw [cleanup_value]
  unfold value sumValue
  simp only [List.map_map]
  apply List.sum_le_sum
  intro o ho
  have h₀ := h o ho
  simp only [Function.comp]
  by_cases hu : o.scriptPubKey.isUnspendable = true
  · simpa [hu] using h₀
  · simp only [hu,Bool.false_eq_true,if_false]
    split
    · exact h₀
    · exact le_refl _

theorem CCoins.fromTx_canonical {tx : CTransaction} (h : ∀ o ∈ tx.vout, 0 ≤ o.nValue)
    (nHeight : Nat) : (CCoins.fromTx tx nHeight).Canonical := by
  apply cleanup_canonical
  intro o ho hn
  obtain ⟨x,hx,rfl⟩ := List.mem_map.mp ho
  split
  · rfl
  · rename_i hu
    have hx₀ := h x hx
    simp only [hu,Bool.false_eq_true,if_false] at hn
    simp only [CTxOut.isNull,beq_iff_eq] at hn
    omega

/-- A fresh record already has its unspendable outputs cleared. -/
theorem CCoins.fromTx_clearUnspendable (tx : CTransaction) (nHeight : Nat) :
    (CCoins.fromTx tx nHeight).clearUnspendable = CCoins.fromTx tx nHeight := by
  have hmap : ∀ l : List CTxOut, (∀ o ∈ l, o.scriptPubKey.isUnspendable = false) →
      (l.map fun (o : CTxOut) => if o.scriptPubKey.isUnspendable then .null else o) = l := by
    intro l hl
    rw [List.map_congr_left (g := id) (fun o ho => by simp [hl o ho]),List.map_id]
  unfold clearUnspendable
  rw [hmap]
  · change (CCoins.fromTx tx nHeight).cleanup = CCoins.fromTx tx nHeight
    unfold fromTx clearUnspendable
    exact cleanup_cleanup _
  · intro o ho
    obtain ⟨x,-,rfl⟩ := List.mem_map.mp (cleanup_subset _ ho)
    split
    · rfl
    · rename_i hu
      simpa using hu

namespace PlainCoins

/-- Spend one output of a plain map. -/
def spend (m : PlainCoins) (out : COutPoint) : Option (CTxInUndo × PlainCoins) :=
  match m out.hash with
  | none => none
  | some c => (c.spend out).map fun r => (r.2,Function.update m out.hash r.1.unspent)

def spendAll (m : PlainCoins) : List CTxIn → Option (CTxUndo × PlainCoins)
  | [] => some ([],m)
  | txin :: rest =>
      match m.spend txin.prevout with
      | none => none
      | some (u,m₁) => (spendAll m₁ rest).map fun r => (u :: r.1,r.2)

/-- The output an outpoint refers to, when it is unspent. -/
def output (m : PlainCoins) (out : COutPoint) : Option CTxOut :=
  (m out.hash).bind fun c => c.output out.n

/-- Every record of the map is one that the code can have put there. -/
structure RecordOk (c : CCoins) : Prop where
  canonical : c.Canonical
  height : c.nHeight ≠ 0
  unspent : c.isPruned = false
  range : ∀ o ∈ c.vout, o.isNull = false → moneyRange o.nValue = true

def Valid (m : PlainCoins) : Prop := ∀ t c, m t = some c → RecordOk c

noncomputable def total (m : PlainCoins) : Int := ∑ t : Uint256, ((m t).map CCoins.value).getD 0

theorem spend_cases {m m' : PlainCoins} {out : COutPoint} {u : CTxInUndo}
    (h : m.spend out = some (u,m')) :
    ∃ c c', m out.hash = some c ∧ c.spend out = some (c',u) ∧
      m' = Function.update m out.hash c'.unspent := by
  unfold spend at h
  cases hc : m out.hash with
  | none => simp [hc] at h
  | some c =>
    simp only [hc] at h
    obtain ⟨⟨c',u'⟩,hs,he⟩ := Option.map_eq_some_iff.mp h
    obtain ⟨rfl,rfl⟩ := Prod.mk.inj he
    exact ⟨c,c',rfl,hs,rfl⟩

theorem spendAll_cons {m m₂ : PlainCoins} {txin : CTxIn} {rest : List CTxIn} {us : CTxUndo}
    (h : m.spendAll (txin :: rest) = some (us,m₂)) :
    ∃ u m₁ us', m.spend txin.prevout = some (u,m₁) ∧ m₁.spendAll rest = some (us',m₂) ∧
      us = u :: us' := by
  unfold spendAll at h
  cases hs : m.spend txin.prevout with
  | none => simp [hs] at h
  | some r =>
    obtain ⟨u,m₁⟩ := r
    simp only [hs] at h
    obtain ⟨⟨us',m'⟩,hr,he⟩ := Option.map_eq_some_iff.mp h
    obtain ⟨rfl,rfl⟩ := Prod.mk.inj he
    exact ⟨u,m₁,us',rfl,hr,rfl⟩

theorem spendAll_length {m m' : PlainCoins} {vin : List CTxIn} {us : CTxUndo}
    (h : m.spendAll vin = some (us,m')) : us.length = vin.length := by
  induction vin generalizing m us with
  | nil =>
    simp only [spendAll,Option.some.injEq,Prod.mk.injEq] at h
    simp [← h.1]
  | cons txin rest ih =>
    obtain ⟨u,m₁,us',-,hr,rfl⟩ := spendAll_cons h
    simp [ih hr]

theorem spend_valid {m m' : PlainCoins} {out : COutPoint} {u : CTxInUndo} (hm : m.Valid)
    (h : m.spend out = some (u,m')) : m'.Valid := by
  obtain ⟨c,c',hc,hs,rfl⟩ := spend_cases h
  intro t d hd
  by_cases ht : t = out.hash
  · subst ht
    rw [Function.update_self] at hd
    obtain ⟨rfl,hp⟩ := CCoins.unspent_eq_some.mp hd
    have hok := hm _ c hc
    refine ⟨CCoins.spend_canonical hok.canonical hs,?_,hp,?_⟩
    · obtain ⟨o,-,-,rfl,-⟩ := CCoins.spend_cases hs
      exact hok.height
    · obtain ⟨o,-,-,rfl,-⟩ := CCoins.spend_cases hs
      intro x hx hn
      rcases List.mem_or_eq_of_mem_set (CCoins.cleanup_subset _ hx) with hx | rfl
      · exact hok.range x hx hn
      · contradiction
  · rw [Function.update_of_ne ht] at hd
    exact hm t d hd

theorem spendAll_valid {m m' : PlainCoins} {vin : List CTxIn} {us : CTxUndo} (hm : m.Valid)
    (h : m.spendAll vin = some (us,m')) : m'.Valid := by
  induction vin generalizing m us with
  | nil =>
    simp only [spendAll,Option.some.injEq,Prod.mk.injEq] at h
    exact h.2 ▸ hm
  | cons txin rest ih =>
    obtain ⟨u,m₁,us',hs,hr,rfl⟩ := spendAll_cons h
    exact ih (spend_valid hm hs) hr

theorem spend_none {m m' : PlainCoins} {out : COutPoint} {u : CTxInUndo} {t : Uint256}
    (h : m.spend out = some (u,m')) (ht : m t = none) : m' t = none := by
  obtain ⟨c,c',hc,-,rfl⟩ := spend_cases h
  have hne : t ≠ out.hash := by
    rintro rfl
    rw [hc] at ht
    contradiction
  rw [Function.update_of_ne hne]
  exact ht

theorem spendAll_none {m m' : PlainCoins} {vin : List CTxIn} {us : CTxUndo} {t : Uint256}
    (h : m.spendAll vin = some (us,m')) (ht : m t = none) : m' t = none := by
  induction vin generalizing m us with
  | nil =>
    simp only [spendAll,Option.some.injEq,Prod.mk.injEq] at h
    exact h.2 ▸ ht
  | cons txin rest ih =>
    obtain ⟨u,m₁,us',hs,hr,rfl⟩ := spendAll_cons h
    exact ih hr (spend_none hs ht)

theorem unspent_output (c : CCoins) (n : Nat) :
    (c.unspent.bind fun c => c.output n) = c.output n := by
  unfold CCoins.unspent
  split
  · rename_i hp
    have hnone : (c.output n).isSome = false := by
      rw [CCoins.output_isSome]
      by_contra ha
      rw [CCoins.isAvailable_not_pruned (by simpa using ha)] at hp
      contradiction
    rw [Option.isSome_eq_false_iff,Option.isNone_iff_eq_none] at hnone
    rw [hnone]
    rfl
  · rfl

theorem spend_output {m m' : PlainCoins} {out : COutPoint} {u : CTxInUndo}
    (h : m.spend out = some (u,m')) :
    m.output out = some u.txout ∧
      ∀ o, m'.output o = if o = out then none else m.output o := by
  obtain ⟨c,c',hc,hs,rfl⟩ := spend_cases h
  obtain ⟨hget,hrest⟩ := CCoins.spend_output hs
  refine ⟨by simpa [output,hc] using hget,?_⟩
  intro o
  unfold output
  by_cases hh : o.hash = out.hash
  · rw [hh,Function.update_self,unspent_output,hrest,hc]
    by_cases hn : o.n = out.n
    · have ho : o = out := by
        cases o
        cases out
        simp_all
      simp [ho]
    · have ho : o ≠ out := by
        rintro rfl
        exact hn rfl
      simp [ho,hn]
  · have ho : o ≠ out := by
      rintro rfl
      exact hh rfl
    rw [Function.update_of_ne hh,if_neg ho]

/-- The value of the outputs that a list of inputs refers to. -/
def inputValue (m : PlainCoins) (vin : List CTxIn) : Int :=
  (vin.map fun txin => ((m.output txin.prevout).map CTxOut.nValue).getD 0).sum

def undoValue (us : CTxUndo) : Int := (us.map fun u => u.txout.nValue).sum

/-- Spending a list of inputs finds every one of them unspent and all distinct, and
removes them and nothing else. -/
theorem spendAll_output {m m' : PlainCoins} {vin : List CTxIn} {us : CTxUndo}
    (h : m.spendAll vin = some (us,m')) :
    (∀ txin ∈ vin, m.output txin.prevout ≠ none) ∧ undoValue us = m.inputValue vin ∧
      ∀ o, m'.output o = if o ∈ vin.map CTxIn.prevout then none else m.output o := by
  induction vin generalizing m us with
  | nil =>
    simp only [spendAll,Option.some.injEq,Prod.mk.injEq] at h
    obtain ⟨rfl,rfl⟩ := h
    simp [undoValue,inputValue]
  | cons txin rest ih =>
    obtain ⟨u,m₁,us',hs,hr,rfl⟩ := spendAll_cons h
    obtain ⟨hget,hspent⟩ := spend_output hs
    obtain ⟨hall,hval,hout⟩ := ih hr
    have hne : ∀ x ∈ rest, x.prevout ≠ txin.prevout := by
      intro x hx he
      have hsome := hall x hx
      rw [hspent,if_pos he] at hsome
      contradiction
    have hsame : m₁.inputValue rest = m.inputValue rest := by
      unfold inputValue
      rw [List.map_congr_left]
      intro x hx
      rw [hspent,if_neg (hne x hx)]
    refine ⟨?_,?_,?_⟩
    · intro x hx
      rcases List.mem_cons.mp hx with rfl | hx
      · simp [hget]
      · have hsome := hall x hx
        rwa [hspent,if_neg (hne x hx)] at hsome
    · simp only [undoValue,inputValue,List.map_cons,List.sum_cons,hget] at hval hsame ⊢
      simp [hval,hsame]
    · intro o
      rw [hout,hspent]
      by_cases ho : o = txin.prevout
      · simp [ho]
      · simp [ho]

theorem total_update (m : PlainCoins) (t : Uint256) (x : Option CCoins) :
    total (Function.update m t x)+((m t).map CCoins.value).getD 0 =
      total m+(x.map CCoins.value).getD 0 := by
  have hnew := Finset.add_sum_erase Finset.univ
    (fun s => ((Function.update m t x s).map CCoins.value).getD 0) (Finset.mem_univ t)
  have hold := Finset.add_sum_erase Finset.univ
    (fun s => ((m s).map CCoins.value).getD 0) (Finset.mem_univ t)
  have hrest : ∑ s ∈ Finset.univ.erase t, ((Function.update m t x s).map CCoins.value).getD 0 =
      ∑ s ∈ Finset.univ.erase t, ((m s).map CCoins.value).getD 0 := by
    apply Finset.sum_congr rfl
    intro s hs
    rw [Function.update_of_ne (Finset.ne_of_mem_erase hs)]
  rw [hrest] at hnew
  simp only [Function.update_self] at hnew
  unfold total
  omega

theorem unspent_value (c : CCoins) : (c.unspent.map CCoins.value).getD 0 = c.value := by
  unfold CCoins.unspent
  split
  · rename_i hp
    have hall : ∀ o ∈ c.vout, o.isNull = true := List.all_eq_true.mp hp
    unfold CCoins.value
    rw [List.map_congr_left (g := fun _ => 0) (fun o ho => by simp [hall o ho])]
    simp
  · rfl

theorem spend_total {m m' : PlainCoins} {out : COutPoint} {u : CTxInUndo}
    (h : m.spend out = some (u,m')) : total m'+u.txout.nValue = total m := by
  obtain ⟨c,c',hc,hs,rfl⟩ := spend_cases h
  have hup := total_update m out.hash c'.unspent
  have hval := CCoins.spend_value hs
  rw [unspent_value,hc] at hup
  simp only [Option.map_some,Option.getD_some] at hup
  omega

/-- The inputs of a transaction take exactly their own value out of the ledger. -/
theorem spendAll_total {m m' : PlainCoins} {vin : List CTxIn} {us : CTxUndo}
    (h : m.spendAll vin = some (us,m')) : total m'+undoValue us = total m := by
  induction vin generalizing m us with
  | nil =>
    simp only [spendAll,Option.some.injEq,Prod.mk.injEq] at h
    obtain ⟨rfl,rfl⟩ := h
    simp [undoValue]
  | cons txin rest ih =>
    obtain ⟨u,m₁,us',hs,hr,rfl⟩ := spendAll_cons h
    have h₁ := ih hr
    have h₂ := spend_total hs
    simp only [undoValue,List.map_cons,List.sum_cons] at h₁ ⊢
    omega

theorem Valid.output_range {m : PlainCoins} (hm : m.Valid) {out : COutPoint} {o : CTxOut}
    (h : m.output out = some o) : moneyRange o.nValue = true := by
  obtain ⟨c,hc,ho⟩ := Option.bind_eq_some_iff.mp h
  obtain ⟨hget,hn⟩ := CCoins.output_eq_some.mp ho
  exact (hm _ c hc).range o (List.mem_of_getElem? hget) hn

/-- Every output that is there is in the money range. -/
def InRange (m : PlainCoins) : Prop := ∀ out o, m.output out = some o → moneyRange o.nValue = true

theorem Valid.inRange {m : PlainCoins} (hm : m.Valid) : m.InRange := fun _ _ => hm.output_range

theorem spendAll_inRange {m m' : PlainCoins} {vin : List CTxIn} {us : CTxUndo} (hm : m.InRange)
    (h : m.spendAll vin = some (us,m')) : m'.InRange := by
  intro out o ho
  rw [(spendAll_output h).2.2,Option.ite_none_left_eq_some] at ho
  exact hm out o ho.2

theorem update_inRange {m : PlainCoins} (hm : m.InRange) {t : Uint256} {c : CCoins}
    (hc : ∀ o ∈ c.vout, o.isNull = false → moneyRange o.nValue = true) :
    InRange (Function.update m t c.unspent) := by
  intro out o ho
  unfold output at ho
  by_cases ht : out.hash = t
  · rw [ht,Function.update_self,unspent_output] at ho
    obtain ⟨hget,hn⟩ := CCoins.output_eq_some.mp ho
    exact hc o (List.mem_of_getElem? hget) hn
  · rw [Function.update_of_ne ht] at ho
    exact hm out o ho

end PlainCoins

end Anoncoin
