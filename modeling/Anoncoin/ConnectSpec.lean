import Anoncoin.Ledger

/-!
What `ConnectBlock` does, in terms of the ledger behind the view: every step of the
validation either fails without an arithmetic overflow or performs the ledger step.
-/

set_option autoImplicit false

namespace Anoncoin
open Lib

/-- One transaction on the ledger, with the undo record it leaves and its fee. -/
inductive TxConnected (hash : CTransaction → Uint256) (nHeight : Nat) (m : PlainCoins) :
    CTransaction → CTxUndo → Int → PlainCoins → Prop where
  | coinbase {tx : CTransaction} : tx.isCoinBase = true →
      TxConnected hash nHeight m tx [] 0
        (Function.update m (hash tx) (CCoins.fromTx tx nHeight).unspent)
  | spending {tx : CTransaction} {us : CTxUndo} {m₁ : PlainCoins} : tx.isCoinBase = false →
      m.spendAll tx.vin = some (us,m₁) → sumValue tx.vout ≤ PlainCoins.undoValue us →
      TxConnected hash nHeight m tx us (PlainCoins.undoValue us-sumValue tx.vout)
        (Function.update m₁ (hash tx) (CCoins.fromTx tx nHeight).unspent)

inductive TxsConnected (hash : CTransaction → Uint256) (nHeight : Nat) :
    PlainCoins → List CTransaction → List CTxUndo → Int → PlainCoins → Prop where
  | nil {m : PlainCoins} : TxsConnected hash nHeight m [] [] 0 m
  | cons {m m₁ m₂ : PlainCoins} {tx : CTransaction} {rest : List CTransaction} {us : CTxUndo}
      {uss : List CTxUndo} {fee fees : Int} :
      TxConnected hash nHeight m tx us fee m₁ → TxsConnected hash nHeight m₁ rest uss fees m₂ →
      TxsConnected hash nHeight m (tx :: rest) (us :: uss) (fee+fees) m₂

/-- What `CheckTransaction` leaves known. -/
structure TxChecked (tx : CTransaction) : Prop where
  vin : tx.vin ≠ []
  range : ∀ o ∈ tx.vout, moneyRange o.nValue = true

/-- What `CheckBlock` leaves known. -/
structure BlockChecked (block : CBlock) : Prop where
  tx : ∀ tx ∈ block.vtx, TxChecked tx
  coinbase : ∃ tx rest, block.vtx = tx :: rest ∧ tx.isCoinBase = true ∧
    ∀ x ∈ rest, x.isCoinBase = false
  inputs : (block.vtx.map fun (tx : CTransaction) => tx.vin.length).sum ≤ 24390

/-- The only error that the specifications below rule out. -/
def NoOverflow (f : Failure) : Prop := f ≠ .overflow

theorem addInt64_meets {a b : Int} (hl : -2^63 ≤ a+b) (hu : a+b < 2^63) :
    Meets NoOverflow (orThrow (addInt64 a b) Failure.overflow) fun c => c = a+b := by
  rw [addInt64_of_bounds hl hu]
  rfl

theorem checkOutputs_meets (n : Int) (vout : List CTxOut) :
    Meets NoOverflow (checkOutputs n vout) fun _ => ∀ o ∈ vout, moneyRange o.nValue = true := by
  induction vout generalizing n with
  | nil => exact fun o ho => by simp at ho
  | cons o rest ih =>
    unfold checkOutputs
    apply (Meets.ensure (by simp [NoOverflow])).bind
    intro _ h₀
    apply (Meets.ensure (by simp [NoOverflow])).bind
    intro _ h₁
    apply (Meets.ensure (by simp [NoOverflow])).bind
    intro _ _
    apply (ih (n+o.nValue)).mono
    intro _ hrest x hx
    rcases List.mem_cons.mp hx with rfl | hx
    · rw [moneyRange_iff]
      simp at h₀ h₁
      exact ⟨h₀,h₁⟩
    · exact hrest x hx

theorem checkDuplicateInputs_meets (seen : List COutPoint) (vin : List CTxIn) :
    Meets NoOverflow (checkDuplicateInputs seen vin) fun _ => True := by
  induction vin generalizing seen with
  | nil => trivial
  | cons txin rest ih =>
    unfold checkDuplicateInputs
    apply (Meets.ensure (by simp [NoOverflow])).bind
    intro _ _
    exact ih _

theorem checkCoinBaseScript_meets (tx : CTransaction) :
    Meets NoOverflow (checkCoinBaseScript tx) fun _ => True := by
  unfold checkCoinBaseScript
  split
  · simp [NoOverflow]
  · exact (Meets.ensure (by simp [NoOverflow])).mono fun _ _ => trivial

theorem checkTransaction_meets (tx : CTransaction) :
    Meets NoOverflow (checkTransaction tx) fun _ => TxChecked tx := by
  unfold checkTransaction
  apply (Meets.ensure (by simp [NoOverflow])).bind
  intro _ hvin
  apply (Meets.ensure (by simp [NoOverflow])).bind
  intro _ _
  apply (Meets.ensure (by simp [NoOverflow])).bind
  intro _ _
  apply (checkOutputs_meets 0 tx.vout).bind
  intro _ hrange
  apply (checkDuplicateInputs_meets [] tx.vin).bind
  intro _ _
  have hok : TxChecked tx := ⟨by simpa using hvin,hrange⟩
  split
  · exact (checkCoinBaseScript_meets tx).mono fun _ _ => hok
  · exact (Meets.ensure (by simp [NoOverflow])).mono fun _ _ => hok

theorem checkTransaction_size (tx : CTransaction) :
    Meets (fun _ => True) (checkTransaction tx) fun _ => tx.getSerializeSize ≤ MAX_BLOCK_SIZE := by
  unfold checkTransaction
  apply (meets_any _).bind
  intro _ _
  apply (meets_any _).bind
  intro _ _
  apply (Meets.ensure trivial).bind
  intro _ hsize
  rw [Bool.not_eq_true',decide_eq_false_iff_not] at hsize
  apply (meets_any _).bind
  intro _ _
  apply (meets_any _).bind
  intro _ _
  exact (meets_any _).mono fun _ _ => Nat.le_of_not_lt hsize

namespace NodeEnv
variable {env : NodeEnv}

theorem checkTransactions_meets (vtx : List CTransaction) :
    Meets NoOverflow (checkTransactions vtx) fun _ => ∀ tx ∈ vtx, TxChecked tx := by
  induction vtx with
  | nil => exact fun tx htx => by simp at htx
  | cons tx rest ih =>
    unfold checkTransactions
    apply (checkTransaction_meets tx).bind
    intro _ htx
    apply ih.mono
    intro _ hrest x hx
    rcases List.mem_cons.mp hx with rfl | hx
    · exact htx
    · exact hrest x hx

theorem rejectWith_meets (r : Option (Nat × String)) :
    Meets NoOverflow (rejectWith r) fun _ => True := by
  cases r with
  | none => trivial
  | some r => simp [rejectWith,NoOverflow]

theorem checkBlock_meets (block : CBlock) (p q : Bool) :
    Meets NoOverflow (env.checkBlock block p q) fun _ => BlockChecked block := by
  unfold checkBlock
  apply (rejectWith_meets _).bind
  intro _ _
  apply (Meets.ensure (by simp [NoOverflow])).bind
  intro _ _
  apply (Meets.ensure (by simp [NoOverflow])).bind
  intro _ _
  apply (Meets.ensure (by simp [NoOverflow])).bind
  intro _ hsize
  apply (Meets.ensure (by simp [NoOverflow])).bind
  intro _ hfirst
  apply (Meets.ensure (by simp [NoOverflow])).bind
  intro _ hothers
  apply (checkTransactions_meets block.vtx).bind
  intro _ htx
  apply (Meets.ensure (by simp [NoOverflow])).mono
  intro _ _
  refine ⟨htx,?_,?_⟩
  · cases hv : block.vtx with
    | nil => simp [hv] at hfirst
    | cons tx rest =>
      rw [hv] at hfirst hothers
      refine ⟨tx,rest,rfl,by simpa using hfirst,?_⟩
      intro x hx
      have h := List.all_eq_true.mp hothers x hx
      simpa using h
  · have h := block.inputs_le_size
    simp only [Bool.not_eq_true',Bool.or_eq_false_iff] at hsize
    have hle := of_decide_eq_false hsize.2
    simp only [MAX_BLOCK_SIZE] at hle
    omega

end NodeEnv

namespace CCoinsView

/-- A cache in good order that stands for the given ledger and best block. -/
structure Holds (v : CCoinsView) (m : PlainCoins) (best : Uint256) : Prop where
  ok : v.Ok
  depth : 0 < v.depth
  coins : v.coins = m
  best : v.getBestBlock.1 = best

variable {v : CCoinsView} {m : PlainCoins} {best : Uint256}

theorem Holds.accessCoins (h : v.Holds m best) (t : Uint256) :
    (v.accessCoins t).1.bind CCoins.unspent = m t ∧ (v.accessCoins t).2.Holds m best := by
  obtain ⟨hans,hcov,hok,-⟩ := getCoins_spec h.ok t
  refine ⟨by rw [← h.coins]; exact hans,hok,?_,by rw [← h.coins]; exact hcov.coins,?_⟩
  · simp [CCoinsView.accessCoins,h.depth]
  · rw [CCoinsView.accessCoins,getBestBlock_getCoins]
    exact h.best

theorem Holds.getBestBlock (h : v.Holds m best) : v.getBestBlock.2.Holds m best := by
  obtain ⟨hok,hcov,hdep,hbest⟩ := getBestBlock_spec h.ok
  exact ⟨hok,by rw [hdep]; exact h.depth,by rw [← h.coins]; exact hcov.coins,
    by rw [hbest]; exact h.best⟩

theorem Holds.modifyCoins (h : v.Holds m best) (t : Uint256) :
    ∃ c : CCoins, c.cleanup = c ∧ c.unspent = m t ∧
      ∀ {α : Type} (body : CCoins → Option (α × CCoins)),
        (body c = none → v.modifyCoins t body = none) ∧
        ∀ a c', body c = some (a,c') →
          ∃ v', v.modifyCoins t body = some (a,v') ∧
            v'.Holds (Function.update m t c'.cleanup.unspent) best := by
  obtain ⟨c,hclean,hsee,hbody⟩ := modifyCoins_spec h.ok h.depth t
  rw [h.coins] at hsee
  refine ⟨c,hclean,hsee,fun body => ⟨(hbody body).1,fun a c' hb => ?_⟩⟩
  obtain ⟨v',hr,hok,hcoins,hdep⟩ := (hbody body).2 a c' hb
  refine ⟨v',hr,hok,by rw [hdep]; exact h.depth,by rw [hcoins,h.coins],?_⟩
  rw [getBestBlock_modifyCoins hr]
  exact h.best

theorem Holds.setBestBlock (h : v.Holds m best) {b : Uint256} (hb : b ≠ 0) :
    ∃ v', v.setBestBlock b = some v' ∧ v'.Holds m b := by
  cases v with
  | db d =>
    have hd := h.depth
    simp [CCoinsView.depth] at hd
  | cache l base =>
    refine ⟨_,rfl,h.ok,h.depth,h.coins,?_⟩
    simp only [CCoinsView.getBestBlock,if_neg hb]

/-- Views that `inv` holds of answer from the map and the best block, and reading keeps
`inv`. -/
structure ReadsFrom (inv : CCoinsView → Prop) (m : PlainCoins) (best : Uint256) : Prop where
  access : ∀ v t, inv v → (v.accessCoins t).1.bind CCoins.unspent = m t ∧ inv (v.accessCoins t).2
  best : ∀ v, inv v → v.getBestBlock.1 = best ∧ inv v.getBestBlock.2

variable {inv : CCoinsView → Prop}

theorem holds_readsFrom (m : PlainCoins) (best : Uint256) :
    ReadsFrom (fun v => v.Holds m best) m best :=
  ⟨fun _ t h => h.accessCoins t,fun _ h => ⟨h.best,h.getBestBlock⟩⟩

theorem ReadsFrom.output (h : ReadsFrom inv m best) (hv : inv v) {out : COutPoint} {c : CCoins}
    {v' : CCoinsView} (ha : v.accessCoins out.hash = (some c,v')) :
    c.output out.n = m.output out := by
  obtain ⟨hans,-⟩ := h.access v out.hash hv
  rw [ha] at hans
  unfold PlainCoins.output
  rw [← hans,Option.bind_some]
  exact (PlainCoins.unspent_output c out.n).symm

/-- An output with a value in the money range is not null, so that it is one of the map. -/
theorem ReadsFrom.output_in_range (h : ReadsFrom inv m best) (hv : inv v) {out : COutPoint}
    {c : CCoins} {v' : CCoinsView} (ha : v.accessCoins out.hash = (some c,v')) {o : CTxOut}
    (ho : c.vout[out.n]? = some o) (hr : moneyRange o.nValue = true) : m.output out = some o := by
  have h₀ := ((moneyRange_iff _).mp hr).1
  have hnull : o.isNull = false := by
    simp only [CTxOut.isNull,beq_eq_false_iff_ne]
    omega
  rw [← h.output hv ha]
  exact CCoins.output_eq_some.mpr ⟨ho,hnull⟩

theorem ReadsFrom.haveInputsFrom (h : ReadsFrom inv m best) (hv : inv v) (vin : List CTxIn) :
    (v.haveInputsFrom vin).1 = (vin.all fun txin => (m.output txin.prevout).isSome) ∧
      inv (v.haveInputsFrom vin).2 := by
  induction vin generalizing v with
  | nil => exact ⟨rfl,hv⟩
  | cons txin rest ih =>
    unfold CCoinsView.haveInputsFrom
    obtain ⟨hans,hinv⟩ := h.access v txin.prevout.hash hv
    cases ha : v.accessCoins txin.prevout.hash with
    | mk r v' =>
    rw [ha] at hans hinv
    cases r with
    | none =>
      have hnone : m.output txin.prevout = none := by
        unfold PlainCoins.output
        rw [← hans]
        rfl
      exact ⟨by simp [hnone],hinv⟩
    | some c =>
      have hout := h.output hv ha
      have hav : (m.output txin.prevout).isSome = c.isAvailable txin.prevout.n := by
        rw [← hout,CCoins.output_isSome]
      obtain ⟨hrest,hinv'⟩ := ih hinv
      simp only [List.all_cons,hav]
      cases hc : c.isAvailable txin.prevout.n with
      | false => exact ⟨rfl,hinv⟩
      | true => exact ⟨by simp [hrest],hinv'⟩

theorem ReadsFrom.haveInputs (h : ReadsFrom inv m best) (hv : inv v) {tx : CTransaction}
    (hcb : tx.isCoinBase = false) :
    (v.haveInputs tx).1 = (tx.vin.all fun txin => (m.output txin.prevout).isSome) ∧
      inv (v.haveInputs tx).2 := by
  unfold CCoinsView.haveInputs
  rw [hcb]
  exact h.haveInputsFrom hv tx.vin

/-- `GetOutputFor` finds the output, or its assertion fails. -/
theorem getOutputFor_meets (h : ReadsFrom inv m best) (hv : inv v) (txin : CTxIn) :
    Meets (fun e => e = .assertion ∧ m.output txin.prevout = none) (v.getOutputFor txin) fun r =>
      m.output txin.prevout = some r.1 ∧ inv r.2 := by
  unfold getOutputFor
  obtain ⟨hans,hinv⟩ := h.access v txin.prevout.hash hv
  cases ha : v.accessCoins txin.prevout.hash with
  | mk r v' =>
  rw [ha] at hans hinv
  cases r with
  | none =>
    refine ⟨rfl,?_⟩
    unfold PlainCoins.output
    rw [← hans]
    rfl
  | some c =>
    rw [← h.output hv ha]
    cases ho : c.output txin.prevout.n with
    | none =>
      have hav : c.isAvailable txin.prevout.n = false := by rw [← CCoins.output_isSome,ho]; rfl
      simp only [hav]
      exact ⟨rfl,trivial⟩
    | some o =>
      have hav : c.isAvailable txin.prevout.n = true := by rw [← CCoins.output_isSome,ho]; rfl
      simp only [hav,ensure_true,ok_bind,(CCoins.output_eq_some.mp ho).1,orThrow_some]
      exact ⟨rfl,hinv⟩

/-- Summing at most 24390 amounts in the money range stays inside 64 bits, so that the sum is
found unless an output is missing. -/
theorem valueInFrom_meets (h : ReadsFrom inv m best) (hv : inv v) (hm : m.InRange)
    {vin : List CTxIn} {n : Int} {k : Nat} (hn : 0 ≤ n) (hk : n ≤ MAX_MONEY*k)
    (hlen : k+vin.length ≤ 24390) :
    Meets (fun e => e = .assertion ∧ ∃ txin ∈ vin, m.output txin.prevout = none)
      (v.valueInFrom n vin) fun r =>
        (∀ txin ∈ vin, m.output txin.prevout ≠ none) ∧ r.1 = n+m.inputValue vin ∧ 0 ≤ r.1 ∧
          r.1 ≤ MAX_MONEY*(k+vin.length) ∧ inv r.2 := by
  induction vin generalizing v n k with
  | nil =>
    refine ⟨by simp,?_,hn,?_,hv⟩
    · simp [PlainCoins.inputValue]
    · simpa using hk
  | cons txin rest ih =>
    unfold valueInFrom
    apply ((getOutputFor_meets h hv txin).weaken fun e he =>
      ⟨he.1,txin,List.mem_cons_self,he.2⟩).bind
    rintro ⟨o,v'⟩ ⟨ho,hv'⟩
    have hr := (moneyRange_iff _).mp (hm _ o ho)
    simp only [List.length_cons] at hlen
    simp only [MAX_MONEY,COIN] at hr hk
    simp only [addInt64_of_bounds (a := n) (b := o.nValue) (by omega) (by omega),orThrow_some,
      ok_bind]
    apply ((ih hv' (k := k+1) (by omega) (by simp only [MAX_MONEY,COIN]; push_cast; omega)
      (by omega)).weaken fun e he => ?_).mono
    · rintro r ⟨hall,hval,h₀,hle,hinv⟩
      refine ⟨List.forall_mem_cons.mpr ⟨by simp [ho],hall⟩,?_,h₀,?_,hinv⟩
      · simp only [PlainCoins.inputValue,List.map_cons,List.sum_cons,ho,Option.map_some,
          Option.getD_some] at hval ⊢
        omega
      · simp only [List.length_cons]
        push_cast at hle ⊢
        simp only [MAX_MONEY,COIN] at hle ⊢
        omega
    · obtain ⟨rfl,x,hx,hnone⟩ := he
      exact ⟨rfl,x,List.mem_cons_of_mem _ hx,hnone⟩

end CCoinsView

/-- A UTXO view: a coin cache in good order over records that the code can have
written. -/
structure UtxoView where
  view : CCoinsView
  ok : view.Ok
  depth : 0 < view.depth
  valid : view.coins.Valid

theorem UtxoView.holds (u : UtxoView) : u.view.Holds u.view.coins u.view.getBestBlock.1 :=
  ⟨u.ok,u.depth,rfl,rfl⟩

namespace NodeEnv
open CCoinsView
variable {env : NodeEnv} {inv : CCoinsView → Prop} {v : CCoinsView} {m : PlainCoins}
  {best : Uint256}

theorem p2shSigOpsFrom_meets (h : ReadsFrom inv m best) (hv : inv v) (n : Nat)
    (vin : List CTxIn) :
    Meets NoOverflow (env.p2shSigOpsFrom v n vin) fun r => inv r.2 := by
  induction vin generalizing v n with
  | nil => exact hv
  | cons txin rest ih =>
    unfold p2shSigOpsFrom
    apply ((getOutputFor_meets h hv txin).weaken fun e he => by simp [he.1,NoOverflow]).bind
    rintro ⟨o,v'⟩ ⟨-,hv'⟩
    exact ih hv' _

theorem getP2SHSigOpCount_meets (h : ReadsFrom inv m best) (hv : inv v) (tx : CTransaction) :
    Meets NoOverflow (env.getP2SHSigOpCount tx v) fun r => inv r.2 := by
  unfold getP2SHSigOpCount
  split
  · exact hv
  · exact p2shSigOpsFrom_meets h hv 0 tx.vin

/-- A position of a record that the view hands out holds a spent output or an amount
in range. -/
theorem accessed_range (h : ReadsFrom inv m best) (hv : inv v) (hm : m.InRange) {t : Uint256}
    {c : CCoins} {v' : CCoinsView} (ha : v.accessCoins t = (some c,v')) {n : Nat} {o : CTxOut}
    (ho : c.vout[n]? = some o) : -1 ≤ o.nValue ∧ o.nValue ≤ MAX_MONEY := by
  by_cases hn : o.isNull = true
  · simp only [CTxOut.isNull,beq_iff_eq] at hn
    simp only [MAX_MONEY,COIN]
    omega
  · have hout : m.output ⟨t,n⟩ = some o := by
      have ha' : v.accessCoins (COutPoint.mk t n).hash = (some c,v') := ha
      rw [← h.output hv ha']
      exact CCoins.output_eq_some.mpr ⟨ho,by simpa using hn⟩
    have hr := (moneyRange_iff _).mp (hm _ o hout)
    omega

theorem checkInputValues_meets (h : ReadsFrom inv m best) (hv : inv v) (hm : m.InRange)
    (nSpendHeight : Nat) {vin : List CTxIn} {n : Int} (hn : moneyRange n = true) :
    Meets NoOverflow (checkInputValues nSpendHeight v n vin) fun r =>
      r.1 = n+m.inputValue vin ∧ moneyRange r.1 = true ∧ inv r.2 := by
  induction vin generalizing v n with
  | nil =>
    refine ⟨?_,hn,hv⟩
    simp [PlainCoins.inputValue]
  | cons txin rest ih =>
    unfold checkInputValues
    have hinv := (h.access v txin.prevout.hash hv).2
    cases ha : v.accessCoins txin.prevout.hash with
    | mk r v' =>
    rw [ha] at hinv
    cases r with
    | none => simp [NoOverflow]
    | some c =>
      simp only
      apply (Meets.ensure (by simp [NoOverflow])).bind
      intro _ _
      apply (Meets.orThrow (by simp [NoOverflow])).bind
      intro o ho
      have hr := accessed_range h hv hm ha ho
      have hn' := (moneyRange_iff _).mp hn
      simp only [MAX_MONEY,COIN] at hr hn'
      apply (addInt64_meets (a := n) (b := o.nValue) (by omega) (by omega)).bind
      rintro _ rfl
      apply (Meets.ensure (by simp [NoOverflow])).bind
      intro _ hrange
      obtain ⟨hro,hrn⟩ := Bool.and_eq_true_iff.mp hrange
      apply (ih hinv hrn).mono
      rintro r ⟨hval,hrr,hv'⟩
      refine ⟨?_,hrr,hv'⟩
      have hsome := h.output_in_range hv ha ho hro
      simp only [PlainCoins.inputValue,List.map_cons,List.sum_cons,hsome,Option.map_some,
        Option.getD_some] at hval ⊢
      omega

theorem checkInputScripts_meets (h : ReadsFrom inv m best) (hv : inv v) (tx : CTransaction)
    (flags : Nat) (pvChecks : List Bool) (nIn : Nat) (vin : List CTxIn) :
    Meets NoOverflow (env.checkInputScripts tx flags v pvChecks nIn vin) fun r => inv r.2 := by
  induction vin generalizing v pvChecks nIn with
  | nil => exact hv
  | cons txin rest ih =>
    unfold checkInputScripts
    have hinv := (h.access v txin.prevout.hash hv).2
    cases ha : v.accessCoins txin.prevout.hash with
    | mk r v' =>
    rw [ha] at hinv
    cases r with
    | none => simp [NoOverflow]
    | some c =>
      simp only
      apply (Meets.orThrow (by simp [NoOverflow])).bind
      intro o _
      split
      · exact ih hinv _ _
      · apply (Meets.ensure (by simp [NoOverflow])).bind
        intro _ _
        apply (Meets.ensure (by simp [NoOverflow])).bind
        intro _ _
        exact ih hinv _ _

/-- A transaction that passes `CheckInputs` pays out no more than it takes in, and
what it takes in is in the money range. -/
theorem checkInputs_meets (h : ReadsFrom inv m best) (hv : inv v) (hm : m.InRange)
    {tx : CTransaction} (htx : tx.isCoinBase = false) (fScriptChecks : Bool) (flags : Nat) :
    Meets NoOverflow (env.checkInputs tx v fScriptChecks flags) fun r =>
      sumValue tx.vout ≤ m.inputValue tx.vin ∧ moneyRange (m.inputValue tx.vin) = true ∧
        inv r.2 := by
  unfold checkInputs
  simp only [htx,Bool.false_eq_true,if_false]
  have h₁ := (h.haveInputs hv htx).2
  apply (Meets.ensure (by simp [NoOverflow])).bind
  intro _ _
  have h₂ := (h.best _ h₁).2
  apply (Meets.ensure (by simp [NoOverflow])).bind
  intro _ _
  apply (Meets.orThrow (by simp [NoOverflow])).bind
  intro nHeightPrev _
  apply (checkInputValues_meets h h₂ hm (nHeightPrev+1) (by decide)).bind
  rintro ⟨nValueIn,v'⟩ ⟨hval,hrange,hv'⟩
  apply (Meets.orThrow (by simp [NoOverflow])).bind
  intro nValueOut hout
  apply (Meets.ensure (by simp [NoOverflow])).bind
  intro _ hle
  apply (Meets.ensure (by simp [NoOverflow])).bind
  intro _ _
  apply (Meets.ensure (by simp [NoOverflow])).bind
  intro _ _
  simp only [Int.zero_add] at hval
  have hpay : sumValue tx.vout ≤ m.inputValue tx.vin := by
    rw [← CTransaction.getValueOut_eq hout,← hval]
    simpa using hle
  rw [hval] at hrange
  split
  · exact (checkInputScripts_meets h hv' tx flags [] 0 tx.vin).mono fun r hr =>
      ⟨hpay,hrange,hr⟩
  · exact ⟨hpay,hrange,hv'⟩

end NodeEnv

theorem spendInputs_meets {v : CCoinsView} {m : PlainCoins} {best : Uint256}
    (h : v.Holds m best) (acc : CTxUndo) (vin : List CTxIn) :
    Meets NoOverflow (spendInputs v acc vin) fun r =>
      ∃ us m', m.spendAll vin = some (us,m') ∧ r.1 = acc ++ us ∧ r.2.Holds m' best := by
  induction vin generalizing v m acc with
  | nil => exact ⟨[],m,rfl,by simp,h⟩
  | cons txin rest ih =>
    unfold spendInputs
    obtain ⟨c,hclean,hsee,hbody⟩ := h.modifyCoins txin.prevout.hash
    obtain ⟨hnone,hsome⟩ := hbody fun coins =>
      (coins.spend txin.prevout).map fun r => (r.2,r.1)
    cases hs : c.spend txin.prevout with
    | none =>
      rw [hnone (by simp [hs])]
      exact fun hc => by contradiction
    | some r =>
      obtain ⟨c',u⟩ := r
      obtain ⟨v',hr,hv⟩ := hsome u c' (by simp [hs])
      simp only [hr]
      have hm : m txin.prevout.hash = some c := by
        rw [← hsee,CCoins.unspent_eq_some]
        refine ⟨rfl,CCoins.isAvailable_not_pruned (n := txin.prevout.n) ?_⟩
        rw [← CCoins.spend_isSome,hs]
        rfl
      have hc' : c'.cleanup = c' := by
        obtain ⟨o,-,-,rfl,-⟩ := CCoins.spend_cases hs
        exact CCoins.cleanup_cleanup _
      rw [hc'] at hv
      have hspend : m.spend txin.prevout =
          some (u,Function.update m txin.prevout.hash c'.unspent) := by
        simp [PlainCoins.spend,hm,hs]
      apply (ih hv (acc ++ [u])).mono
      rintro r ⟨us,m',hall,hacc,hv'⟩
      exact ⟨u :: us,m',by simp [PlainCoins.spendAll,hspend,hall],by simp [hacc],hv'⟩

theorem fromTx_range {tx : CTransaction} (htx : TxChecked tx) (nHeight : Nat) :
    ∀ o ∈ (CCoins.fromTx tx nHeight).vout, o.isNull = false → moneyRange o.nValue = true := by
  intro o ho hn
  obtain ⟨x,hx,rfl⟩ := List.mem_map.mp (CCoins.cleanup_subset _ ho)
  by_cases hu : x.scriptPubKey.isUnspendable = true
  · simp [hu] at hn
  · simp only [hu,Bool.false_eq_true,if_false]
    exact htx.range x hx

theorem fromTx_recordOk {tx : CTransaction} (htx : TxChecked tx) {nHeight : Nat}
    (hh : nHeight ≠ 0) {c : CCoins} (hc : (CCoins.fromTx tx nHeight).unspent = some c) :
    PlainCoins.RecordOk c := by
  obtain ⟨rfl,hp⟩ := CCoins.unspent_eq_some.mp hc
  exact ⟨CCoins.fromTx_canonical (fun o ho => ((moneyRange_iff _).mp (htx.range o ho)).1) _,
    hh,hp,fromTx_range htx nHeight⟩

theorem TxConnected.inRange {hash : CTransaction → Uint256} {nHeight : Nat} {m m' : PlainCoins}
    {tx : CTransaction} {us : CTxUndo} {fee : Int} (h : TxConnected hash nHeight m tx us fee m')
    (hm : m.InRange) (htx : TxChecked tx) : m'.InRange := by
  cases h with
  | coinbase => exact PlainCoins.update_inRange hm (fromTx_range htx nHeight)
  | spending _ hs _ =>
    exact PlainCoins.update_inRange (PlainCoins.spendAll_inRange hm hs) (fromTx_range htx nHeight)

theorem TxConnected.valid {hash : CTransaction → Uint256} {nHeight : Nat} {m m' : PlainCoins}
    {tx : CTransaction} {us : CTxUndo} {fee : Int} (h : TxConnected hash nHeight m tx us fee m')
    (hm : m.Valid) (htx : TxChecked tx) (hh : nHeight ≠ 0) : m'.Valid := by
  have hadd : ∀ {m₁ : PlainCoins}, m₁.Valid → PlainCoins.Valid
      (Function.update m₁ (hash tx) (CCoins.fromTx tx nHeight).unspent) := by
    intro m₁ hm₁ t c hc
    by_cases ht : t = hash tx
    · subst ht
      rw [Function.update_self] at hc
      exact fromTx_recordOk htx hh hc
    · rw [Function.update_of_ne ht] at hc
      exact hm₁ t c hc
  cases h with
  | coinbase => exact hadd hm
  | spending _ hs _ => exact hadd (PlainCoins.spendAll_valid hm hs)

theorem TxsConnected.valid {hash : CTransaction → Uint256} {nHeight : Nat} {m m' : PlainCoins}
    {vtx : List CTransaction} {uss : List CTxUndo} {fees : Int}
    (h : TxsConnected hash nHeight m vtx uss fees m') (hm : m.Valid)
    (htx : ∀ tx ∈ vtx, TxChecked tx) (hh : nHeight ≠ 0) : m'.Valid := by
  induction h with
  | nil => exact hm
  | cons hone _ ih =>
    exact ih (hone.valid hm (htx _ List.mem_cons_self) hh) fun x hx =>
      htx x (List.mem_cons_of_mem _ hx)

namespace NodeEnv
open CCoinsView
variable {env : NodeEnv} {v : CCoinsView} {m : PlainCoins} {best : Uint256}

theorem addOutputs_meets (env : NodeEnv) (h : v.Holds m best) (tx : CTransaction) (nHeight : Nat) :
    ∃ v', v.modifyCoins (env.getTxHash tx) (fun _ => some ((),CCoins.fromTx tx nHeight)) =
      some ((),v') ∧ v'.Holds
        (Function.update m (env.getTxHash tx) (CCoins.fromTx tx nHeight).unspent) best := by
  obtain ⟨c,-,-,hbody⟩ := h.modifyCoins (env.getTxHash tx)
  obtain ⟨v',hr,hv⟩ := (hbody fun _ => some ((),CCoins.fromTx tx nHeight)).2 () _ rfl
  have hclean : (CCoins.fromTx tx nHeight).cleanup = CCoins.fromTx tx nHeight :=
    CCoins.cleanup_cleanup _
  rw [hclean] at hv
  exact ⟨v',hr,hv⟩

theorem updateCoins_coinbase (h : v.Holds m best) {tx : CTransaction}
    (htx : tx.isCoinBase = true) (nHeight : Nat) :
    Meets NoOverflow (env.updateCoins tx v nHeight) fun r =>
      r.1 = [] ∧ r.2.Holds
        (Function.update m (env.getTxHash tx) (CCoins.fromTx tx nHeight).unspent) best := by
  obtain ⟨v',hr,hv⟩ := addOutputs_meets env h tx nHeight
  unfold updateCoins
  simp only [htx,if_true,pure_bind,hr]
  exact ⟨rfl,hv⟩

theorem updateCoins_spending (h : v.Holds m best) {tx : CTransaction}
    (htx : tx.isCoinBase = false) (nHeight : Nat) :
    Meets NoOverflow (env.updateCoins tx v nHeight) fun r =>
      ∃ m₁, m.spendAll tx.vin = some (r.1,m₁) ∧ r.2.Holds
        (Function.update m₁ (env.getTxHash tx) (CCoins.fromTx tx nHeight).unspent) best := by
  unfold updateCoins
  simp only [htx,Bool.false_eq_true,if_false]
  apply (spendInputs_meets h [] tx.vin).bind
  rintro ⟨us,v₁⟩ ⟨us',m₁,hs,hacc,hv₁⟩
  obtain ⟨v',hr,hv⟩ := addOutputs_meets env hv₁ tx nHeight
  simp only [List.nil_append] at hacc
  simp only [hr]
  exact ⟨m₁,by rw [hacc]; exact hs,hv⟩

/-- The accumulators while `k` inputs of the block have been seen. -/
structure Accumulated (s : ConnectState) (m : PlainCoins) (best : Uint256) (k : Nat) : Prop where
  view : s.view.Holds m best
  range : m.InRange
  fees_nonneg : 0 ≤ s.nFees
  fees_le : s.nFees ≤ MAX_MONEY*k

theorem addP2SHSigOps_meets (h : v.Holds m best) (fStrict : Bool) (tx : CTransaction)
    (nSigOps : Nat) :
    Meets NoOverflow (env.addP2SHSigOps fStrict tx nSigOps v) fun r => r.2.Holds m best := by
  unfold addP2SHSigOps
  split
  · apply (getP2SHSigOpCount_meets (holds_readsFrom m best) h tx).bind
    rintro ⟨j,v'⟩ hv
    apply (Meets.ensure (by simp [NoOverflow])).bind
    intro _ _
    exact hv
  · exact h

/-- The checks of a spending transaction add its fee, and the fee is in range. -/
theorem checkSpending_meets {s : ConnectState} {k : Nat} (hs : Accumulated s m best k)
    {tx : CTransaction} (hcb : tx.isCoinBase = false) (hk : k+tx.vin.length ≤ 24390)
    (fScriptChecks fStrict : Bool) (flags : Nat) :
    Meets NoOverflow (env.checkSpending fScriptChecks fStrict flags s tx) fun s' =>
      s'.view.Holds m best ∧ s'.vtxundo = s.vtxundo ∧
        s'.nFees = s.nFees+(m.inputValue tx.vin-sumValue tx.vout) ∧
        sumValue tx.vout ≤ m.inputValue tx.vin ∧
        m.inputValue tx.vin-sumValue tx.vout ≤ MAX_MONEY := by
  unfold checkSpending
  have h₀ := hs.fees_nonneg
  have h₁ := hs.fees_le
  simp only [MAX_MONEY,COIN] at h₁
  have hreads := holds_readsFrom m best
  have hhave := (hreads.haveInputs hs.view hcb).2
  apply (Meets.ensure (by simp [NoOverflow])).bind
  intro _ _
  apply (addP2SHSigOps_meets hhave fStrict tx s.nSigOps).bind
  rintro ⟨nSigOps,v₁⟩ hv₁
  simp only [CCoinsView.getValueIn,hcb,Bool.false_eq_true,if_false]
  apply ((valueInFrom_meets hreads hv₁ hs.range (n := 0) (k := 0) (by omega) (by simp)
    (by omega)).weaken fun e he => by simp [he.1,NoOverflow]).bind
  rintro ⟨nValueIn,v₂⟩ ⟨-,hval,hin₀,hinle,hv₂⟩
  simp only [Int.zero_add] at hval
  apply (Meets.orThrow (by simp [NoOverflow])).bind
  intro nValueOut hout
  have hrange := (moneyRange_iff _).mp (CTransaction.getValueOut_range hout)
  simp only [MAX_MONEY,COIN] at hinle hrange
  push_cast at hinle
  apply (addInt64_meets (a := nValueIn) (b := -nValueOut) (by omega) (by omega)).bind
  rintro _ rfl
  apply (addInt64_meets (a := s.nFees) (b := nValueIn+-nValueOut) (by omega) (by omega)).bind
  rintro _ rfl
  apply (checkInputs_meets hreads hv₂ hs.range hcb fScriptChecks flags).bind
  rintro ⟨vChecks,v₃⟩ ⟨hpay,hinrange,hv₃⟩
  have hvout := CTransaction.getValueOut_eq hout
  have hir := (moneyRange_iff _).mp hinrange
  simp only [MAX_MONEY,COIN] at hir
  refine ⟨hv₃,rfl,?_,hpay,?_⟩
  · simp only
    omega
  · simp only [MAX_MONEY,COIN]
    omega

/-- One iteration of the transaction loop. -/
theorem connectTransaction_meets {s : ConnectState} {k nHeight : Nat}
    (hs : Accumulated s m best k) {tx : CTransaction} (htx : TxChecked tx)
    (hk : k+tx.vin.length ≤ 24390) (fScriptChecks fStrict : Bool) (flags : Nat) (first : Bool) :
    Meets NoOverflow (env.connectTransaction fScriptChecks fStrict flags nHeight first s tx)
      fun s' => ∃ us fee m', TxConnected env.getTxHash nHeight m tx us fee m' ∧
        Accumulated s' m' best (k+tx.vin.length) ∧ s'.nFees = s.nFees+fee ∧
        s'.vtxundo = if first then s.vtxundo else s.vtxundo ++ [us] := by
  unfold connectTransaction
  have hlen : 1 ≤ tx.vin.length := List.length_pos_iff.mpr htx.vin
  have h₀ := hs.fees_nonneg
  have h₁ := hs.fees_le
  simp only [MAX_MONEY,COIN] at h₁
  apply (Meets.ensure (by simp [NoOverflow])).bind
  intro _ _
  have hs' : Accumulated { s with nSigOps := uint32 (s.nSigOps+env.getLegacySigOpCount tx) } m
    best k := ⟨hs.view,hs.range,h₀,hs.fees_le⟩
  cases hcb : tx.isCoinBase with
  | true =>
    simp only [if_true,pure_bind]
    apply (updateCoins_coinbase hs.view hcb nHeight).bind
    rintro ⟨us,v'⟩ ⟨hus,hv⟩
    simp only at hus
    subst hus
    have hconn : TxConnected env.getTxHash nHeight m tx [] 0 _ := .coinbase hcb
    refine ⟨[],0,_,hconn,⟨hv,hconn.inRange hs.range htx,h₀,?_⟩,by simp,rfl⟩
    simp only [MAX_MONEY,COIN]
    push_cast
    omega
  | false =>
    simp only [Bool.false_eq_true,if_false]
    apply (checkSpending_meets hs' hcb hk fScriptChecks fStrict flags).bind
    rintro s₁ ⟨hv₁,hundo₁,hfees,hpay,hfee⟩
    apply (updateCoins_spending hv₁ hcb nHeight).bind
    rintro ⟨us,v₂⟩ ⟨m₁,hspend,hv₂⟩
    simp only at hspend
    have hundo := (PlainCoins.spendAll_output hspend).2.1
    rw [← hundo] at hfees hpay hfee
    have hconn : TxConnected env.getTxHash nHeight m tx us _ _ := .spending hcb hspend hpay
    simp only at hfees hundo₁
    refine ⟨us,_,_,hconn,⟨hv₂,hconn.inRange hs.range htx,?_,?_⟩,hfees,by simp only [hundo₁]⟩
    · simp only [hfees]
      omega
    · simp only [hfees,MAX_MONEY,COIN] at hfee ⊢
      push_cast
      omega

theorem connectTransactions_meets {vtx : List CTransaction} {s : ConnectState} {k nHeight : Nat}
    (hs : Accumulated s m best k) (htx : ∀ tx ∈ vtx, TxChecked tx)
    (hk : k+(vtx.map fun (tx : CTransaction) => tx.vin.length).sum ≤ 24390)
    (fScriptChecks fStrict : Bool) (flags : Nat) (first : Bool) :
    Meets NoOverflow (env.connectTransactions fScriptChecks fStrict flags nHeight first s vtx)
      fun s' => ∃ uss fees m', TxsConnected env.getTxHash nHeight m vtx uss fees m' ∧
        Accumulated s' m' best (k+(vtx.map fun (tx : CTransaction) => tx.vin.length).sum) ∧
        s'.nFees = s.nFees+fees ∧ s'.vtxundo = s.vtxundo ++ if first then uss.tail else uss := by
  induction vtx generalizing s m k first with
  | nil => exact ⟨[],0,m,.nil,by simpa using hs,by simp,by cases first <;> simp⟩
  | cons tx rest ih =>
    unfold connectTransactions
    simp only [List.map_cons,List.sum_cons] at hk ⊢
    apply (connectTransaction_meets hs (htx tx (by simp)) (by omega) fScriptChecks fStrict
      flags first).bind
    rintro s₁ ⟨us,fee,m₁,hconn,hs₁,hfee,hundo⟩
    apply (ih hs₁ (fun x hx => htx x (by simp [hx])) (by omega) false).mono
    rintro s₂ ⟨uss,fees,m₂,hrest,hs₂,hfees,hundos⟩
    refine ⟨us :: uss,fee+fees,m₂,.cons hconn hrest,by rwa [← Nat.add_assoc],by omega,?_⟩
    rw [hundos,hundo]
    cases first <;> simp

theorem checkBIP30_meets (h : v.Holds m best) (vtx : List CTransaction) :
    Meets NoOverflow (env.checkBIP30 v vtx) fun v' =>
      (∀ tx ∈ vtx, m (env.getTxHash tx) = none) ∧ v'.Holds m best := by
  induction vtx generalizing v with
  | nil => exact ⟨fun tx htx => by simp at htx,h⟩
  | cons tx rest ih =>
    unfold checkBIP30
    obtain ⟨hans,hv⟩ := h.accessCoins (env.getTxHash tx)
    cases ha : v.accessCoins (env.getTxHash tx) with
    | mk r v' =>
    rw [ha] at hans hv
    simp only
    apply (Meets.ensure (by simp [NoOverflow])).bind
    intro _ hpruned
    have hnone : m (env.getTxHash tx) = none := by
      rw [← hans]
      cases r with
      | none => rfl
      | some c => exact CCoins.unspent_eq_none.mpr (by simpa using hpruned)
    apply (ih hv).mono
    rintro v₂ ⟨hrest,hv₂⟩
    refine ⟨?_,hv₂⟩
    intro x hx
    rcases List.mem_cons.mp hx with rfl | hx
    · exact hnone
    · exact hrest x hx

/-- What a block does to the ledger when `ConnectBlock` accepts it. -/
structure BlockConnected (env : NodeEnv) (block : CBlock) (nHeight : Nat) (m : PlainCoins)
    (blockundo : CBlockUndo) (m' : PlainCoins) : Prop where
  checked : BlockChecked block
  bip30 : ∀ tx ∈ block.vtx, m (env.getTxHash tx) = none
  run : ∃ uss fees, TxsConnected env.getTxHash nHeight m block.vtx uss fees m' ∧
    blockundo.vtxundo = uss.tail ∧
    ∀ coinbase, block.vtx.head? = some coinbase →
      sumValue coinbase.vout ≤ getBlockValue nHeight fees

theorem BlockConnected.valid {block : CBlock} {nHeight : Nat} {m m' : PlainCoins}
    {blockundo : CBlockUndo} (h : BlockConnected env block nHeight m blockundo m') (hm : m.Valid)
    (hh : nHeight ≠ 0) : m'.Valid := by
  obtain ⟨uss,fees,hrun,-⟩ := h.run
  exact hrun.valid hm h.checked.tx hh

/-- `ConnectBlock` never overflows on a ledger in the money range, and when it accepts a block
it has performed the block's transactions. -/
theorem connectBlock_meets (h : v.Holds m best) (hm : m.InRange) (block : CBlock)
    (pindex : ConnectIndex) (fJustCheck : Bool) :
    Meets NoOverflow (env.connectBlock block pindex v fJustCheck) fun r =>
      (fJustCheck = false → r.2 = none → r.1.Holds m pindex.hashBlock) ∧
      ∀ blockundo, r.2 = some blockundo → pindex.pprev.getD 0 = best ∧
        ∃ m', BlockConnected env block pindex.nHeight m blockundo m' ∧
          r.1.Holds m' pindex.hashBlock := by
  unfold connectBlock
  apply (checkBlock_meets block _ _).bind
  intro _ hchecked
  have h₁ := h.getBestBlock
  apply (Meets.ensure (by simp [NoOverflow])).bind
  intro _ hprev
  have hprev' : pindex.pprev.getD 0 = best := by
    rw [← h.best]
    simpa using hprev
  split
  · cases fJustCheck with
    | true => exact ⟨fun hf => by contradiction,fun U hU => by contradiction⟩
    | false =>
      obtain ⟨v',hset,hv'⟩ := h₁.setBestBlock pindex.hash_ne
      simp only [hset]
      exact ⟨fun _ _ => hv',fun U hU => by contradiction⟩
  · apply (checkBIP30_meets h₁ block.vtx).bind
    rintro v₁ ⟨hbip30,hv₁⟩
    have hacc : Accumulated ⟨v₁,0,0,[],[]⟩ m best 0 := ⟨hv₁,hm,by simp,by simp⟩
    apply (connectTransactions_meets hacc hchecked.tx (by simpa using hchecked.inputs) _ _ _
      true).bind
    rintro s ⟨uss,fees,m',hrun,hacc',hfees,hundo⟩
    apply (Meets.orThrow (by simp [NoOverflow])).bind
    intro coinbase hhead
    apply (Meets.orThrow (by simp [NoOverflow])).bind
    intro nCoinBaseOut hout
    apply (Meets.ensure (by simp [NoOverflow])).bind
    intro _ hpaid
    apply (Meets.ensure (by simp [NoOverflow])).bind
    intro _ _
    cases fJustCheck with
    | true => exact ⟨fun hf => by contradiction,fun U hU => by contradiction⟩
    | false =>
      simp only [Bool.false_eq_true,if_false]
      apply (Meets.ensure (by simp [NoOverflow])).bind
      intro _ _
      apply (Meets.ensure (by simp [NoOverflow])).bind
      intro _ _
      apply (Meets.ensure (by simp [NoOverflow])).bind
      intro _ _
      apply (Meets.ensure (by simp [NoOverflow])).bind
      intro _ _
      obtain ⟨v',hset,hv'⟩ := hacc'.view.setBestBlock pindex.hash_ne
      simp only [hset]
      refine ⟨fun _ hU => by contradiction,?_⟩
      intro U hU
      obtain rfl := Option.some.inj hU
      refine ⟨hprev',m',⟨hchecked,hbip30,uss,fees,hrun,?_,?_⟩,hv'⟩
      · simpa using hundo
      · intro cb hcb
        rw [hhead] at hcb
        obtain rfl := Option.some.inj hcb
        rw [← CTransaction.getValueOut_eq hout]
        simp only [Int.zero_add] at hfees
        rw [hfees] at hpaid
        simpa using hpaid

/-- An environment that accepts every script and header and numbers transactions by
their lock time. -/
def openEnv : NodeEnv where
  hashes := ⟨fun _ => 0,fun _ => 0,fun _ => 0⟩
  testNet := false
  getTxHash tx := BitVec.ofNat 256 (tx.nLockTime+1)
  getSigOpCount _ := 0
  getP2SHSigOpCountOf _ _ := 0
  verifyScript _ _ _ _ := true
  checkBlockHeader _ _ := none
  buildMerkleTree _ := (0,false)
  hashGenesisBlock := 1
  getTotalBlocksEstimate := 0
  blockHeight _ := some 0
  scriptCheckThreads := false
  findUndoPos := true
  writeUndo := true
  writeTxIndex := true

section NextBlock

/-! Block 8 on top of block 7, for the index entries of this environment. -/

theorem nextBlock_hash_ne : (8 : Uint256) ≠ 0 := by decide

theorem nextBlock_prev_ne : ∀ p, some (7 : Uint256) = some p → p ≠ 0 := by simp

theorem nextBlock_prev_some : 2 ≠ 0 → (some (7 : Uint256)).isSome = true := fun _ => rfl

end NextBlock

end NodeEnv

end Anoncoin
