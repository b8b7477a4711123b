import Anoncoin.ConnectFrame
import Anoncoin.InputChecks
import Anoncoin.Supply
import Anoncoin.Lib.Agreement

/-!
`ConnectBlock` looks at the answers of a view only: what the caches hold, how many layers
there are and which entries are marked dirty or fresh makes no difference.
-/

set_option autoImplicit false

namespace Anoncoin
open Lib

/-- The two views stand for one ledger. -/
def CCoinsView.SameLedger (v w : CCoinsView) : Prop := ∃ m best, v.Holds m best ∧ w.Holds m best

/-- Two views that answer every `GetCoins` and `GetBestBlock` alike. -/
def CCoinsView.SameAnswers (v w : CCoinsView) : Prop :=
  v.getBestBlock.1 = w.getBestBlock.1 ∧
    ∀ t, (v.getCoins t).1.bind CCoins.unspent = (w.getCoins t).1.bind CCoins.unspent

theorem CCoinsView.SameLedger.answers {v w : CCoinsView} (h : SameLedger v w) : SameAnswers v w := by
  obtain ⟨m,best,hv,hw⟩ := h
  refine ⟨by rw [hv.best,hw.best],?_⟩
  intro t
  rw [(getCoins_spec hv.ok t).1,(getCoins_spec hw.ok t).1,hv.coins,hw.coins]

/-- They stand for the given ledger, and an invariant that is kept holds of both. -/
structure CCoinsView.Twins (inv : CCoinsView → Prop) (m : PlainCoins) (best : Uint256)
    (v w : CCoinsView) : Prop where
  kept : Kept inv
  left : v.Holds m best ∧ inv v
  right : w.Holds m best ∧ inv w

def CCoinsView.Alike (inv : CCoinsView → Prop) (v w : CCoinsView) : Prop :=
  ∃ m best, CCoinsView.Twins inv m best v w

/-- Two results with the same value, of which the views stand for one ledger. -/
abbrev CCoinsView.SameResult {α : Type} (inv : CCoinsView → Prop) (m : PlainCoins) (best : Uint256)
    (r r' : α × CCoinsView) : Prop := r.1 = r'.1 ∧ CCoinsView.Twins inv m best r.2 r'.2

namespace CCoinsView
variable {inv : CCoinsView → Prop} {m : PlainCoins} {best : Uint256} {v w : CCoinsView}

theorem Kept.readsFrom (hk : Kept inv) (m : PlainCoins) (best : Uint256) :
    ReadsFrom (fun v => v.Holds m best ∧ inv v) m best where
  access v t h := ⟨(h.1.accessCoins t).1,(h.1.accessCoins t).2,hk.access v t h.2⟩
  best v h := ⟨h.1.best,h.1.getBestBlock,hk.best v h.2⟩

theorem kept_true : Kept fun _ => True :=
  ⟨fun _ _ _ => trivial,fun _ _ => trivial,fun _ _ _ _ _ _ _ => trivial,fun _ _ _ _ _ => trivial⟩

theorem Twins.reads (h : Twins inv m best v w) :
    ReadsFrom (fun v => v.Holds m best ∧ inv v) m best := h.kept.readsFrom m best

theorem Twins.getBestBlock (h : Twins inv m best v w) :
    Twins inv m best v.getBestBlock.2 w.getBestBlock.2 :=
  ⟨h.kept,(h.reads.best v h.left).2,(h.reads.best w h.right).2⟩

theorem Twins.haveInputs (h : Twins inv m best v w) {tx : CTransaction}
    (hcb : tx.isCoinBase = false) :
    (w.haveInputs tx).1 = (v.haveInputs tx).1 ∧
      Twins inv m best (v.haveInputs tx).2 (w.haveInputs tx).2 ∧
      ((v.haveInputs tx).1 = true → ∀ txin ∈ tx.vin, m.output txin.prevout ≠ none) := by
  obtain ⟨hv,hv'⟩ := h.reads.haveInputs h.left hcb
  obtain ⟨hw,hw'⟩ := h.reads.haveInputs h.right hcb
  refine ⟨by rw [hv,hw],⟨h.kept,hv',hw'⟩,?_⟩
  intro hall txin hin
  rw [hv,List.all_eq_true] at hall
  exact Option.isSome_iff_ne_none.mp (hall txin hin)

theorem Twins.getOutputFor (h : Twins inv m best v w) (txin : CTxIn) :
    Agrees (SameResult inv m best) (v.getOutputFor txin) (w.getOutputFor txin) := by
  have hv := getOutputFor_meets h.reads h.left txin
  have hw := getOutputFor_meets h.reads h.right txin
  cases hrv : v.getOutputFor txin with
  | error e =>
    obtain ⟨rfl,hnone⟩ := hv.fault hrv
    cases hrw : w.getOutputFor txin with
    | error e' =>
      obtain ⟨rfl,-⟩ := hw.fault hrw
      rfl
    | ok r' =>
      have hsome := (hw.result hrw).1
      rw [hnone] at hsome
      contradiction
  | ok r =>
    obtain ⟨hout,hv'⟩ := hv.result hrv
    cases hrw : w.getOutputFor txin with
    | error e' =>
      obtain ⟨-,hnone⟩ := hw.fault hrw
      rw [hout] at hnone
      contradiction
    | ok r' =>
      obtain ⟨hout',hw'⟩ := hw.result hrw
      rw [hout] at hout'
      exact ⟨Option.some.inj hout',h.kept,hv',hw'⟩

theorem Twins.valueInFrom (h : Twins inv m best v w) (n : Int) (vin : List CTxIn) :
    Agrees (SameResult inv m best) (v.valueInFrom n vin)
      (w.valueInFrom n vin) := by
  induction vin generalizing v w n with
  | nil => exact ⟨rfl,h⟩
  | cons txin rest ih =>
    unfold CCoinsView.valueInFrom
    apply (h.getOutputFor txin).bind
    rintro ⟨o,v'⟩ ⟨o',w'⟩ ⟨rfl,h'⟩
    apply agrees_orThrow_bind
    intro k _
    exact ih h' k

theorem Twins.getValueIn (h : Twins inv m best v w) (tx : CTransaction) :
    Agrees (SameResult inv m best) (v.getValueIn tx) (w.getValueIn tx) := by
  unfold CCoinsView.getValueIn
  split
  · exact ⟨rfl,h⟩
  · exact h.valueInFrom 0 tx.vin

theorem Twins.modifyCoins {α : Type} (h : Twins inv m best v w) (t : Uint256)
    {body : CCoins → Option (α × CCoins)} {e : Failure}
    (hbody : ∀ c d : CCoins, c.unspent = m t → d.unspent = m t → body c = body d) :
    Agrees (fun r r' => r.1 = r'.1 ∧ Alike inv r.2 r'.2) (orThrow (v.modifyCoins t body) e)
      (orThrow (w.modifyCoins t body) e) := by
  obtain ⟨c,-,hc,hv⟩ := h.left.1.modifyCoins t
  obtain ⟨d,-,hd,hw⟩ := h.right.1.modifyCoins t
  have hsame := hbody c d hc hd
  cases hb : body c with
  | none =>
    rw [(hv body).1 hb,(hw body).1 (hsame ▸ hb)]
    rfl
  | some r =>
    obtain ⟨a,c'⟩ := r
    obtain ⟨v',hrv,hv'⟩ := (hv body).2 a c' hb
    obtain ⟨w',hrw,hw'⟩ := (hw body).2 a c' (hsame ▸ hb)
    rw [hrv,hrw]
    exact ⟨rfl,_,_,h.kept,⟨hv',h.kept.modify v t body a v' h.left.2 hrv⟩,hw',
      h.kept.modify w t body a w' h.right.2 hrw⟩

/-- The last that `ConnectBlock` does to a view. -/
theorem Twins.setBestBlock (h : Twins inv m best v w) {b : Uint256} (hb : b ≠ 0) {e : Failure} :
    Agrees (fun v' w' => Alike inv v' w' ∧ ∃ x : CCoinsView, x.setBestBlock b = some v')
      (orThrow (v.setBestBlock b) e) (orThrow (w.setBestBlock b) e) := by
  obtain ⟨v',hrv,hv'⟩ := h.left.1.setBestBlock hb
  obtain ⟨w',hrw,hw'⟩ := h.right.1.setBestBlock hb
  rw [hrv,hrw]
  exact ⟨⟨m,b,h.kept,⟨hv',h.kept.setBest v b v' h.left.2 hrv⟩,hw',
    h.kept.setBest w b w' h.right.2 hrw⟩,v,hrv⟩

end CCoinsView

namespace NodeEnv
open CCoinsView
variable {env : NodeEnv} {inv : CCoinsView → Prop} {m : PlainCoins} {best : Uint256}
  {v w : CCoinsView}

theorem p2shSigOpsFrom_agrees (h : Twins inv m best v w) (n : Nat) (vin : List CTxIn) :
    Agrees (SameResult inv m best) (env.p2shSigOpsFrom v n vin)
      (env.p2shSigOpsFrom w n vin) := by
  induction vin generalizing v w n with
  | nil => exact ⟨rfl,h⟩
  | cons txin rest ih =>
    unfold p2shSigOpsFrom
    apply (h.getOutputFor txin).bind
    rintro ⟨o,v'⟩ ⟨o',w'⟩ ⟨rfl,h'⟩
    exact ih h' _

theorem addP2SHSigOps_agrees (h : Twins inv m best v w) (fStrict : Bool) (tx : CTransaction)
    (nSigOps : Nat) :
    Agrees (SameResult inv m best)
      (env.addP2SHSigOps fStrict tx nSigOps v) (env.addP2SHSigOps fStrict tx nSigOps w) := by
  have hcount : Agrees (SameResult inv m best)
      (env.getP2SHSigOpCount tx v) (env.getP2SHSigOpCount tx w) := by
    unfold getP2SHSigOpCount
    split
    · exact ⟨rfl,h⟩
    · exact p2shSigOpsFrom_agrees h 0 tx.vin
  unfold addP2SHSigOps
  split
  · apply hcount.bind
    rintro ⟨k,v'⟩ ⟨k',w'⟩ ⟨rfl,h'⟩
    apply agrees_ensure_bind
    intro _
    exact ⟨rfl,h'⟩
  · exact ⟨rfl,h⟩

/-- An output that the ledger has is handed out by both views with the same record. -/
theorem accessCoins_twins (h : Twins inv m best v w) {out : COutPoint} (ho : m.output out ≠ none) :
    ∃ c v' w', v.accessCoins out.hash = (some c,v') ∧ w.accessCoins out.hash = (some c,w') ∧
      Twins inv m best v' w' := by
  obtain ⟨o,ho⟩ := Option.ne_none_iff_exists'.mp ho
  obtain ⟨c,v',hav,hv',hc,-⟩ := h.reads.access_output h.left ho
  obtain ⟨d,w',haw,hw',hd,-⟩ := h.reads.access_output h.right ho
  rw [hc] at hd
  obtain rfl := Option.some.inj hd
  exact ⟨c,v',w',hav,haw,h.kept,hv',hw'⟩

theorem checkInputValues_agrees (h : Twins inv m best v w) (nSpendHeight : Nat) {vin : List CTxIn}
    (hvin : ∀ txin ∈ vin, m.output txin.prevout ≠ none) (n : Int) :
    Agrees (SameResult inv m best) (checkInputValues nSpendHeight v n vin)
      (checkInputValues nSpendHeight w n vin) := by
  induction vin generalizing v w n with
  | nil => exact ⟨rfl,h⟩
  | cons txin rest ih =>
    obtain ⟨hfirst,hrest⟩ := List.forall_mem_cons.mp hvin
    obtain ⟨c,v',w',hav,haw,h'⟩ := accessCoins_twins h hfirst
    unfold checkInputValues
    simp only [hav,haw]
    apply agrees_ensure_bind
    intro _
    apply agrees_orThrow_bind
    intro o _
    apply agrees_orThrow_bind
    intro k _
    apply agrees_ensure_bind
    intro _
    exact ih h' hrest k

theorem checkInputScripts_agrees (h : Twins inv m best v w) (tx : CTransaction) (flags : Nat)
    {vin : List CTxIn} (hvin : ∀ txin ∈ vin, m.output txin.prevout ≠ none) (pvChecks : List Bool)
    (nIn : Nat) :
    Agrees (SameResult inv m best)
      (env.checkInputScripts tx flags v pvChecks nIn vin)
      (env.checkInputScripts tx flags w pvChecks nIn vin) := by
  induction vin generalizing v w pvChecks nIn with
  | nil => exact ⟨rfl,h⟩
  | cons txin rest ih =>
    obtain ⟨hfirst,hrest⟩ := List.forall_mem_cons.mp hvin
    obtain ⟨c,v',w',hav,haw,h'⟩ := accessCoins_twins h hfirst
    unfold checkInputScripts
    simp only [hav,haw]
    apply agrees_orThrow_bind
    intro o _
    split
    · exact ih h' hrest _ _
    · apply agrees_ensure_bind
      intro _
      apply agrees_ensure_bind
      intro _
      exact ih h' hrest _ _

theorem checkInputs_agrees (h : Twins inv m best v w) {tx : CTransaction} (hcb : tx.isCoinBase = false)
    (fScriptChecks : Bool) (flags : Nat) :
    Agrees (SameResult inv m best)
      (env.checkInputs tx v fScriptChecks flags) (env.checkInputs tx w fScriptChecks flags) := by
  obtain ⟨hhave,h₁,hall⟩ := h.haveInputs hcb
  unfold checkInputs
  simp only [hcb,Bool.false_eq_true,if_false,hhave,h₁.left.1.best,h₁.right.1.best]
  apply agrees_ensure_bind
  intro havailable
  have hvin := hall havailable
  have h₂ := h₁.getBestBlock
  apply agrees_ensure_bind
  intro _
  apply agrees_orThrow_bind
  intro nHeightPrev _
  apply (checkInputValues_agrees h₂ (nHeightPrev+1) hvin 0).bind
  rintro ⟨nValueIn,v'⟩ ⟨_,w'⟩ ⟨rfl,h₃⟩
  apply agrees_orThrow_bind
  intro nValueOut _
  apply agrees_ensure_bind
  intro _
  apply agrees_ensure_bind
  intro _
  apply agrees_ensure_bind
  intro _
  split
  · exact checkInputScripts_agrees h₃ tx flags hvin [] 0
  · exact ⟨rfl,h₃⟩

end NodeEnv

/-- Spending from a record depends on the unspent record only. -/
theorem CCoins.spend_congr {c d : CCoins} (out : COutPoint) (h : c.unspent = d.unspent) :
    c.spend out = d.spend out := by
  cases hp : c.isPruned with
  | false =>
    have hc := unspent_eq_some.mpr ⟨rfl,hp⟩
    rw [h] at hc
    rw [(unspent_eq_some.mp hc).1]
  | true =>
    have hd : d.isPruned = true := by
      rw [← unspent_eq_none,← h,unspent_eq_none]
      exact hp
    have hnone : ∀ x : CCoins, x.isPruned = true → x.spend out = none := by
      intro x hx
      have hs : (x.spend out).isSome = false := by
        rw [spend_isSome]
        by_contra ha
        rw [isAvailable_not_pruned (by simpa using ha)] at hx
        contradiction
      simpa using hs
    rw [hnone c hp,hnone d hd]

open CCoinsView

theorem spendInputs_agrees {inv : CCoinsView → Prop} {v w : CCoinsView} (h : Alike inv v w)
    (acc : CTxUndo) (vin : List CTxIn) :
    Agrees (fun r r' => r.1 = r'.1 ∧ Alike inv r.2 r'.2) (spendInputs v acc vin)
      (spendInputs w acc vin) := by
  induction vin generalizing v w acc with
  | nil => exact ⟨rfl,h⟩
  | cons txin rest ih =>
    unfold spendInputs
    obtain ⟨m,best,h⟩ := h
    apply (h.modifyCoins txin.prevout.hash fun c d hc hd => by
      rw [CCoins.spend_congr txin.prevout (hc.trans hd.symm)]).bind
    rintro ⟨undo,v'⟩ ⟨_,w'⟩ ⟨rfl,h'⟩
    exact ih h' _

namespace NodeEnv
variable {env : NodeEnv} {inv : CCoinsView → Prop} {v w : CCoinsView}

theorem updateCoins_agrees (h : Alike inv v w) (tx : CTransaction) (nHeight : Nat) :
    Agrees (fun r r' => r.1 = r'.1 ∧ Alike inv r.2 r'.2) (env.updateCoins tx v nHeight)
      (env.updateCoins tx w nHeight) := by
  have hadd : ∀ {v w : CCoinsView}, Alike inv v w →
      Agrees (fun r r' => Alike inv r.2 r'.2)
        (orThrow (v.modifyCoins (env.getTxHash tx) fun _ => some ((),CCoins.fromTx tx nHeight))
          Failure.assertion)
        (orThrow (w.modifyCoins (env.getTxHash tx) fun _ => some ((),CCoins.fromTx tx nHeight))
          Failure.assertion) := by
    rintro v w ⟨m,best,h⟩
    exact (h.modifyCoins (env.getTxHash tx) fun _ _ _ _ => rfl).mono fun _ _ hr => hr.2
  unfold updateCoins
  cases tx.isCoinBase with
  | true =>
    apply (hadd h).bind
    rintro ⟨_,v'⟩ ⟨_,w'⟩ h'
    exact ⟨rfl,h'⟩
  | false =>
    apply (spendInputs_agrees h [] tx.vin).bind
    rintro ⟨txundo,v₁⟩ ⟨_,w₁⟩ ⟨rfl,h₁⟩
    apply (hadd h₁).bind
    rintro ⟨_,v'⟩ ⟨_,w'⟩ h'
    exact ⟨rfl,h'⟩

theorem checkBIP30_agrees {m : PlainCoins} {best : Uint256} (h : Twins inv m best v w)
    (vtx : List CTransaction) :
    Agrees (Twins inv m best) (env.checkBIP30 v vtx) (env.checkBIP30 w vtx) := by
  induction vtx generalizing v w with
  | nil => exact h
  | cons tx rest ih =>
    obtain ⟨hv,hv'⟩ := h.reads.access v (env.getTxHash tx) h.left
    obtain ⟨hw,hw'⟩ := h.reads.access w (env.getTxHash tx) h.right
    have hfree : ∀ x : Option CCoins,
        x.all CCoins.isPruned = (x.bind CCoins.unspent).isNone := by
      intro x
      cases x with
      | none => rfl
      | some c =>
        rw [Option.bind_some,Bool.eq_iff_iff,Option.isNone_iff_eq_none,CCoins.unspent_eq_none]
        rfl
    unfold checkBIP30
    simp only [hfree,hv,hw]
    apply agrees_ensure_bind
    intro _
    exact ih ⟨h.kept,hv',hw'⟩

/-- The accumulators of two runs of the transaction loop. -/
structure SameState (inv : CCoinsView → Prop) (s t : ConnectState) : Prop where
  view : Alike inv s.view t.view
  nFees : s.nFees = t.nFees
  nSigOps : s.nSigOps = t.nSigOps
  vtxundo : s.vtxundo = t.vtxundo
  checks : s.checks = t.checks

theorem checkSpending_agrees {s t : ConnectState} (h : SameState inv s t) {tx : CTransaction}
    (hcb : tx.isCoinBase = false) (fScriptChecks fStrict : Bool) (flags : Nat) :
    Agrees (SameState inv) (env.checkSpending fScriptChecks fStrict flags s tx)
      (env.checkSpending fScriptChecks fStrict flags t tx) := by
  obtain ⟨m,best,hview⟩ := h.view
  obtain ⟨hhave,h₁,-⟩ := hview.haveInputs hcb
  unfold checkSpending
  simp only [hhave,← h.nSigOps,← h.nFees,← h.checks]
  apply agrees_ensure_bind
  intro _
  apply (addP2SHSigOps_agrees h₁ fStrict tx s.nSigOps).bind
  rintro ⟨nSigOps,v₁⟩ ⟨_,w₁⟩ ⟨rfl,h₂⟩
  apply (h₂.getValueIn tx).bind
  rintro ⟨nValueIn,v₂⟩ ⟨_,w₂⟩ ⟨rfl,h₃⟩
  apply agrees_orThrow_bind
  intro nValueOut _
  apply agrees_orThrow_bind
  intro nFee _
  apply agrees_orThrow_bind
  intro nFees _
  apply (checkInputs_agrees h₃ hcb fScriptChecks flags).bind
  rintro ⟨vChecks,v₃⟩ ⟨_,w₃⟩ ⟨rfl,h₄⟩
  exact ⟨⟨m,best,h₄⟩,rfl,rfl,h.vtxundo,rfl⟩

theorem connectTransaction_agrees {s t : ConnectState} (h : SameState inv s t) (tx : CTransaction)
    (fScriptChecks fStrict : Bool) (flags nHeight : Nat) (first : Bool) :
    Agrees (SameState inv) (env.connectTransaction fScriptChecks fStrict flags nHeight first s tx)
      (env.connectTransaction fScriptChecks fStrict flags nHeight first t tx) := by
  unfold connectTransaction
  simp only [← h.nSigOps]
  apply agrees_ensure_bind
  intro _
  have hcount : SameState inv { s with nSigOps := uint32 (s.nSigOps+env.getLegacySigOpCount tx) }
      { t with nSigOps := uint32 (s.nSigOps+env.getLegacySigOpCount tx) } :=
    ⟨h.view,h.nFees,rfl,h.vtxundo,h.checks⟩
  have hupdate : ∀ {s t : ConnectState}, SameState inv s t → Agrees (SameState inv)
      (env.updateCoins tx s.view nHeight >>= fun r => pure { s with
        view := r.2, vtxundo := if first then s.vtxundo else s.vtxundo ++ [r.1] })
      (env.updateCoins tx t.view nHeight >>= fun r => pure { t with
        view := r.2, vtxundo := if first then t.vtxundo else t.vtxundo ++ [r.1] }) := by
    intro s t h
    apply (updateCoins_agrees h.view tx nHeight).bind
    rintro ⟨txundo,v⟩ ⟨_,w⟩ ⟨rfl,h'⟩
    exact ⟨h',h.nFees,h.nSigOps,by simp only [h.vtxundo],h.checks⟩
  cases hcb : tx.isCoinBase with
  | true => exact hupdate hcount
  | false => exact (checkSpending_agrees hcount hcb fScriptChecks fStrict flags).bind fun _ _ => hupdate

theorem connectTransactions_agrees {s t : ConnectState} (h : SameState inv s t)
    (vtx : List CTransaction) (fScriptChecks fStrict : Bool) (flags nHeight : Nat) (first : Bool) :
    Agrees (SameState inv) (env.connectTransactions fScriptChecks fStrict flags nHeight first s vtx)
      (env.connectTransactions fScriptChecks fStrict flags nHeight first t vtx) := by
  induction vtx generalizing s t first with
  | nil => exact h
  | cons tx rest ih =>
    unfold connectTransactions
    apply (connectTransaction_agrees h tx fScriptChecks fStrict flags nHeight first).bind
    intro s₁ t₁ h₁
    exact ih h₁ false

/-- Two views with the same answers and the same best block get the same verdict, with the
same error where it is one, the same undo data, and the same answers afterwards. Whatever every
operation on a view keeps is kept, and only the genesis block leaves no undo data. -/
theorem connectBlock_alike (h : Alike inv v w) (block : CBlock) (pindex : ConnectIndex)
    (fJustCheck : Bool) :
    Agrees (fun r r' => r.2 = r'.2 ∧ Alike inv r.1 r'.1 ∧ (fJustCheck = false →
        (∃ x : CCoinsView, x.setBestBlock pindex.hashBlock = some r.1) ∧
        (r.2 = none ↔
          block.toCBlockHeader.getHash env.hashes env.testNet = env.hashGenesisBlock)))
      (env.connectBlock block pindex v fJustCheck) (env.connectBlock block pindex w fJustCheck) := by
  obtain ⟨m,best,h⟩ := h
  have h₁ := h.getBestBlock
  have hchecked : Agrees (fun _ _ => True) (env.checkBlock block (!fJustCheck) (!fJustCheck))
      (env.checkBlock block (!fJustCheck) (!fJustCheck)) := by
    cases env.checkBlock block (!fJustCheck) (!fJustCheck) <;> trivial
  unfold connectBlock
  simp only [h.left.1.best,h.right.1.best]
  apply hchecked.bind
  intro _ _ _
  apply agrees_ensure_bind
  intro _
  split
  · rename_i hgenesis
    split
    · rename_i hcheck
      exact ⟨rfl,⟨m,best,h₁⟩,fun hno => by simp [hno] at hcheck⟩
    · apply (h₁.setBestBlock pindex.hash_ne).bind
      intro v' w' h'
      exact ⟨rfl,h'.1,fun _ => ⟨h'.2,fun _ => hgenesis,fun _ => rfl⟩⟩
  · rename_i hgenesis
    apply (checkBIP30_agrees h₁ block.vtx).bind
    intro v₁ w₁ h₂
    apply (connectTransactions_agrees (s := ⟨v₁,0,0,[],[]⟩) (t := ⟨w₁,0,0,[],[]⟩)
      ⟨⟨m,best,h₂⟩,rfl,rfl,rfl,rfl⟩ block.vtx _ _ _ pindex.nHeight true).bind
    intro s t hst
    simp only [← hst.nFees,← hst.checks,← hst.vtxundo]
    apply agrees_orThrow_bind
    intro coinbase _
    apply agrees_orThrow_bind
    intro nCoinBaseOut _
    apply agrees_ensure_bind
    intro _
    apply agrees_ensure_bind
    intro _
    split
    · rename_i hcheck
      exact ⟨rfl,hst.view,fun hno => by simp [hno] at hcheck⟩
    · apply agrees_ensure_bind
      intro _
      apply agrees_ensure_bind
      intro _
      apply agrees_ensure_bind
      intro _
      apply agrees_ensure_bind
      intro _
      obtain ⟨m',best',h'⟩ := hst.view
      apply (h'.setBestBlock pindex.hash_ne).bind
      intro v' w' h''
      exact ⟨rfl,h''.1,fun _ => ⟨h''.2,fun hno => by contradiction,fun hg => absurd hg hgenesis⟩⟩

theorem connectBlock_agrees (h : SameLedger v w) (block : CBlock) (pindex : ConnectIndex)
    (fJustCheck : Bool) :
    Agrees (fun r r' => r.2 = r'.2 ∧ SameLedger r.1 r'.1)
      (env.connectBlock block pindex v fJustCheck) (env.connectBlock block pindex w fJustCheck) := by
  obtain ⟨m,best,hv,hw⟩ := h
  apply (connectBlock_alike ⟨m,best,kept_true,⟨hv,trivial⟩,hw,trivial⟩ block pindex fJustCheck).mono
  rintro r r' ⟨hundo,⟨m',best',h'⟩,-⟩
  exact ⟨hundo,m',best',h'.left.1,h'.right.1⟩

/-- The last thing `ConnectBlock` does to the view is to set the best block. -/
theorem connectBlock_keeps (hk : Kept inv) {m : PlainCoins} {best : Uint256} (h : v.Holds m best)
    (hv : inv v) (block : CBlock) (pindex : ConnectIndex) :
    Meets (fun _ => True) (env.connectBlock block pindex v false) fun r =>
      inv r.1 ∧ (∃ w : CCoinsView, w.setBestBlock pindex.hashBlock = some r.1) ∧ (r.2 = none ↔
        block.toCBlockHeader.getHash env.hashes env.testNet = env.hashGenesisBlock) := by
  have hagree := @connectBlock_alike env inv v v ⟨m,best,hk,⟨h,hv⟩,h,hv⟩ block pindex false
  cases hr : env.connectBlock block pindex v false with
  | error e => trivial
  | ok r =>
    obtain ⟨r',-,-,⟨_,_,h'⟩,hend⟩ := hagree.ok_left hr
    exact ⟨h'.left.2,hend rfl⟩

/-- `ConnectBlock` on two stacks of caches that give the same answers: both fail with the same
error, or both succeed, with the same undo data and with views that give the same answers. -/
theorem connectBlock_answers (hv : v.Ok) (hw : w.Ok) (hvd : 0 < v.depth) (hwd : 0 < w.depth)
    (h : SameAnswers v w) (block : CBlock) (pindex : ConnectIndex) (fJustCheck : Bool) :
    (∀ e, env.connectBlock block pindex v fJustCheck = .error e ↔
      env.connectBlock block pindex w fJustCheck = .error e) ∧
    ∀ v' undo, env.connectBlock block pindex v fJustCheck = .ok (v',undo) →
      ∃ w', env.connectBlock block pindex w fJustCheck = .ok (w',undo) ∧ SameAnswers v' w' := by
  have hcoins : w.coins = v.coins := by
    funext t
    rw [← (getCoins_spec hw t).1,← (getCoins_spec hv t).1,h.2 t]
  have hsame : SameLedger v w :=
    ⟨v.coins,v.getBestBlock.1,⟨hv,hvd,rfl,rfl⟩,⟨hw,hwd,hcoins,h.1.symm⟩⟩
  have hagree := @connectBlock_agrees env v w hsame block pindex fJustCheck
  refine ⟨fun e => ⟨hagree.error_left,fun he => ?_⟩,?_⟩
  · exact hagree.symm.error_left he
  · intro v' undo hok
    obtain ⟨⟨w',undo'⟩,hr,hundo,hsame'⟩ := hagree.ok_left hok
    obtain rfl : undo = undo' := hundo
    exact ⟨w',hr,hsame'.answers⟩

/-- One more empty cache in front of a view makes no difference. -/
theorem connectBlock_answers_rewardBlock :
    (openEnv.connectBlock rewardBlock rewardIndex (emptyView 7) false).toBool = true ∧
    ((∀ e, openEnv.connectBlock rewardBlock rewardIndex (emptyView 7) false = .error e ↔
      openEnv.connectBlock rewardBlock rewardIndex (.cache .new (emptyView 7)) false = .error e) ∧
    ∀ v' undo, openEnv.connectBlock rewardBlock rewardIndex (emptyView 7) false = .ok (v',undo) →
      ∃ w', openEnv.connectBlock rewardBlock rewardIndex (.cache .new (emptyView 7)) false =
        .ok (w',undo) ∧ SameAnswers v' w') := by
  have hv : (emptyView 7).Ok := (emptyView_holds (by decide)).ok
  have hw : (CCoinsView.cache .new (emptyView 7)).Ok :=
    ⟨rfl,fun t e he => by simp [CCoinsViewCache.new] at he,hv⟩
  refine ⟨by decide,connectBlock_answers hv hw (by decide) (by decide) ⟨rfl,?_⟩ _ _ _⟩
  intro t
  rw [(getCoins_spec hv t).1,(getCoins_spec hw t).1]
  simp [CCoinsView.coins,CCoinsViewCache.new]

end NodeEnv

end Anoncoin
