import Anoncoin.Disconnect
import Anoncoin.InputChecks

/-!
`ConnectBlock` turns blocks down or accepts them, and does nothing else: on a view in good
order no block makes an assertion fail, an index leave its vector, `GetValueOut` throw or a
sum overflow. `CheckInputs` accepts exactly what the ledger can pay for.
-/

set_option autoImplicit false

namespace Anoncoin
open Lib

/-- A block is turned down. Every other failure stops the node. -/
def Refusal : Failure → Prop
  | .dos _ _ => True
  | .error => True
  | .abort => True
  | .assertion => False
  | .thrown => False
  | .outOfBounds => False
  | .overflow => False

/-- The block itself is turned down. -/
def Rejection : Failure → Prop
  | .dos _ _ => True
  | _ => False

theorem Rejection.refusal {e : Failure} (h : Rejection e) : Refusal e := by
  cases e <;> trivial

/-- What `CheckTransaction` leaves known for the code behind it. -/
structure TxSound (tx : CTransaction) : Prop where
  distinct : (tx.vin.map CTxIn.prevout).Nodup
  valueOut : tx.getValueOut.isSome = true

theorem checkOutputs_refuses (n : Int) (vout : List CTxOut) :
    Meets Rejection (checkOutputs n vout) fun _ => (valueOutFrom n vout).isSome = true := by
  induction vout generalizing n with
  | nil => exact rfl
  | cons o rest ih =>
    unfold checkOutputs
    apply (Meets.ensure trivial).bind
    intro _ hneg
    apply (Meets.ensure trivial).bind
    intro _ hlarge
    apply (Meets.ensure trivial).bind
    intro _ hsum
    apply (ih (n+o.nValue)).mono
    intro _ hrest
    have hrange : moneyRange o.nValue = true := by
      rw [moneyRange_iff]
      simp only [Bool.not_eq_true',decide_eq_false_iff_not] at hneg hlarge
      omega
    simp only [valueOutFrom,hrange,hsum,Bool.and_self,if_true]
    exact hrest

/-- Each input is checked against those before it, so that all of them differ. -/
theorem checkDuplicateInputs_refuses (seen : List COutPoint) (vin : List CTxIn) :
    Meets Rejection (checkDuplicateInputs seen vin) fun _ =>
      (vin.map CTxIn.prevout).Nodup ∧ ∀ txin ∈ vin, txin.prevout ∉ seen := by
  induction vin generalizing seen with
  | nil => exact ⟨List.nodup_nil,fun _ hin => by simp at hin⟩
  | cons txin rest ih =>
    unfold checkDuplicateInputs
    apply (Meets.ensure trivial).bind
    intro _ hnew
    apply (ih (txin.prevout :: seen)).mono
    rintro _ ⟨hnodup,hrest⟩
    simp only [Bool.not_eq_true',List.contains_eq_mem,decide_eq_false_iff_not] at hnew
    have hfirst : txin.prevout ∉ rest.map CTxIn.prevout := by
      intro hmem
      obtain ⟨x,hx,he⟩ := List.mem_map.mp hmem
      exact hrest x hx (he ▸ List.mem_cons_self)
    refine ⟨List.nodup_cons.mpr ⟨hfirst,hnodup⟩,List.forall_mem_cons.mpr ⟨hnew,?_⟩⟩
    intro x hx hmem
    exact hrest x hx (List.mem_cons_of_mem _ hmem)

theorem checkTransaction_refuses (tx : CTransaction) :
    Meets Rejection (checkTransaction tx) fun _ => TxSound tx := by
  unfold checkTransaction
  apply (Meets.ensure trivial).bind
  intro _ hvin
  apply (Meets.ensure trivial).bind
  intro _ _
  apply (Meets.ensure trivial).bind
  intro _ _
  apply (checkOutputs_refuses 0 tx.vout).bind
  intro _ hvalue
  apply (checkDuplicateInputs_refuses [] tx.vin).bind
  rintro _ ⟨hdistinct,-⟩
  split
  · unfold checkCoinBaseScript
    split
    · rename_i hnil
      rw [hnil] at hvin
      contradiction
    · exact (Meets.ensure trivial).mono fun _ _ => ⟨hdistinct,hvalue⟩
  · exact (Meets.ensure trivial).mono fun _ _ => ⟨hdistinct,hvalue⟩

namespace NodeEnv
variable {env : NodeEnv}

theorem checkTransactions_refuses (vtx : List CTransaction) :
    Meets Rejection (checkTransactions vtx) fun _ => ∀ tx ∈ vtx, TxSound tx := by
  induction vtx with
  | nil => exact fun tx htx => by simp at htx
  | cons tx rest ih =>
    unfold checkTransactions
    apply (checkTransaction_refuses tx).bind
    intro _ htx
    apply ih.mono
    intro _ hrest
    exact List.forall_mem_cons.mpr ⟨htx,hrest⟩

theorem checkBlock_refuses (block : CBlock) (p q : Bool) :
    Meets Rejection (env.checkBlock block p q) fun _ => ∀ tx ∈ block.vtx, TxSound tx := by
  have hheader : ∀ r, Meets Rejection (rejectWith r) fun _ => True := by
    intro r
    cases r <;> trivial
  unfold checkBlock
  apply (hheader _).bind
  intro _ _
  apply (Meets.ensure trivial).bind
  intro _ _
  apply (Meets.ensure trivial).bind
  intro _ _
  apply (Meets.ensure trivial).bind
  intro _ _
  apply (Meets.ensure trivial).bind
  intro _ _
  apply (Meets.ensure trivial).bind
  intro _ _
  apply (checkTransactions_refuses block.vtx).bind
  intro _ htx
  exact (Meets.ensure trivial).mono fun _ _ => htx

open CCoinsView
variable {v : CCoinsView} {m : PlainCoins} {best : Uint256}

theorem output_ne_of_all {vin : List CTxIn}
    (hall : (vin.all fun txin => (m.output txin.prevout).isSome) = true) :
    ∀ txin ∈ vin, m.output txin.prevout ≠ none := fun txin hin =>
  Option.isSome_iff_ne_none.mp (List.all_eq_true.mp hall txin hin)

/-- Once `HaveInputs` has answered yes, `GetOutputFor` finds what it is asked for. -/
theorem p2shSigOpsFrom_refuses (h : v.Holds m best) (n : Nat) {vin : List CTxIn}
    (hvin : ∀ txin ∈ vin, m.output txin.prevout ≠ none) :
    Meets Rejection (env.p2shSigOpsFrom v n vin) fun r => r.2.Holds m best := by
  induction vin generalizing v n with
  | nil => exact h
  | cons txin rest ih =>
    obtain ⟨hfirst,hrest⟩ := List.forall_mem_cons.mp hvin
    unfold p2shSigOpsFrom
    apply ((getOutputFor_meets (holds_readsFrom m best) h txin).weaken fun e he =>
      absurd he.2 hfirst).bind
    rintro ⟨o,v'⟩ ⟨-,hv'⟩
    exact ih hv' _ hrest

theorem addP2SHSigOps_refuses (h : v.Holds m best) (fStrict : Bool) {tx : CTransaction}
    (hvin : ∀ txin ∈ tx.vin, m.output txin.prevout ≠ none) (nSigOps : Nat) :
    Meets Rejection (env.addP2SHSigOps fStrict tx nSigOps v) fun r => r.2.Holds m best := by
  have hcount : Meets Rejection (env.getP2SHSigOpCount tx v) fun r => r.2.Holds m best := by
    unfold getP2SHSigOpCount
    split
    · exact h
    · exact p2shSigOpsFrom_refuses h 0 hvin
  unfold addP2SHSigOps
  split
  · apply hcount.bind
    rintro ⟨k,v'⟩ hv'
    apply (Meets.ensure trivial).bind
    intro _ _
    exact hv'
  · exact h

theorem checkInputValues_refuses (h : v.Holds m best) (hm : m.InRange) (nSpendHeight : Nat)
    {vin : List CTxIn} (hvin : ∀ txin ∈ vin, m.output txin.prevout ≠ none) {n : Int}
    (hn : moneyRange n = true) :
    Meets Rejection (checkInputValues nSpendHeight v n vin) fun r => r.2.Holds m best := by
  induction vin generalizing v n with
  | nil => exact h
  | cons txin rest ih =>
    obtain ⟨hfirst,hrest⟩ := List.forall_mem_cons.mp hvin
    obtain ⟨o,ho⟩ := Option.ne_none_iff_exists'.mp hfirst
    obtain ⟨c,v',ha,hv',-,hget,-⟩ := (holds_readsFrom m best).access_output h ho
    have hr := (moneyRange_iff _).mp (hm _ o ho)
    have hn' := (moneyRange_iff _).mp hn
    simp only [MAX_MONEY,COIN] at hr hn'
    unfold checkInputValues
    simp only [ha]
    apply (Meets.ensure trivial).bind
    intro _ _
    simp only [hget,orThrow_some,ok_bind,addInt64_of_bounds (a := n) (b := o.nValue) (by omega)
      (by omega)]
    apply (Meets.ensure trivial).bind
    intro _ hrange
    exact ih hv' hrest (Bool.and_eq_true_iff.mp hrange).2

theorem checkInputScripts_refuses (h : v.Holds m best) (tx : CTransaction) (flags : Nat)
    {vin : List CTxIn} (hvin : ∀ txin ∈ vin, m.output txin.prevout ≠ none) (pvChecks : List Bool)
    (nIn : Nat) :
    Meets Rejection (env.checkInputScripts tx flags v pvChecks nIn vin) fun r =>
      r.2.Holds m best := by
  induction vin generalizing v pvChecks nIn with
  | nil => exact h
  | cons txin rest ih =>
    obtain ⟨hfirst,hrest⟩ := List.forall_mem_cons.mp hvin
    obtain ⟨o,ho⟩ := Option.ne_none_iff_exists'.mp hfirst
    obtain ⟨c,v',ha,hv',-,hget,-⟩ := (holds_readsFrom m best).access_output h ho
    unfold checkInputScripts
    simp only [ha,hget,orThrow_some,ok_bind]
    split
    · exact ih hv' hrest _ _
    · apply (Meets.ensure trivial).bind
      intro _ _
      apply (Meets.ensure trivial).bind
      intro _ _
      exact ih hv' hrest _ _

theorem checkInputs_refuses (h : v.Holds m best) (hm : m.InRange) {tx : CTransaction}
    (hcb : tx.isCoinBase = false) (htx : TxSound tx) (fScriptChecks : Bool) (flags : Nat) :
    Meets Rejection (env.checkInputs tx v fScriptChecks flags) fun r => r.2.Holds m best := by
  obtain ⟨hhave,h₁⟩ := (holds_readsFrom m best).haveInputs h hcb
  obtain ⟨nValueOut,hvalue⟩ := Option.isSome_iff_exists.mp htx.valueOut
  unfold checkInputs
  simp only [hcb,Bool.false_eq_true,if_false,hhave]
  apply (Meets.ensure trivial).bind
  intro _ hall
  have hvin := output_ne_of_all hall
  apply (Meets.ensure trivial).bind
  intro _ _
  apply (Meets.orThrow fun _ => trivial).bind
  intro nHeightPrev _
  apply (checkInputValues_refuses h₁.getBestBlock hm (nHeightPrev+1) hvin (by decide)).bind
  rintro ⟨nValueIn,v'⟩ hv'
  simp only [hvalue,orThrow_some,ok_bind]
  apply (Meets.ensure trivial).bind
  intro _ _
  apply (Meets.ensure trivial).bind
  intro _ _
  apply (Meets.ensure trivial).bind
  intro _ _
  split
  · exact checkInputScripts_refuses hv' tx flags hvin [] 0
  · exact hv'

/-- A spending transaction is turned down, or all its inputs are unspent. -/
theorem checkSpending_refuses {s : ConnectState} {k : Nat} (hs : Accumulated s m best k)
    {tx : CTransaction} (hcb : tx.isCoinBase = false) (htx : TxSound tx)
    (hk : k+tx.vin.length ≤ 24390) (fScriptChecks fStrict : Bool) (flags : Nat) :
    Meets Rejection (env.checkSpending fScriptChecks fStrict flags s tx) fun s' =>
      s'.view.Holds m best ∧ ∀ txin ∈ tx.vin, m.output txin.prevout ≠ none := by
  have h₀ := hs.fees_nonneg
  have h₁ := hs.fees_le
  simp only [MAX_MONEY,COIN] at h₁
  have hreads := holds_readsFrom m best
  obtain ⟨hhave,hv₁⟩ := hreads.haveInputs hs.view hcb
  obtain ⟨nValueOut,hvalue⟩ := Option.isSome_iff_exists.mp htx.valueOut
  have hrange := (moneyRange_iff _).mp (CTransaction.getValueOut_range hvalue)
  unfold checkSpending
  simp only [hhave]
  apply (Meets.ensure trivial).bind
  intro _ hall
  have hvin := output_ne_of_all hall
  apply (addP2SHSigOps_refuses hv₁ fStrict hvin s.nSigOps).bind
  rintro ⟨nSigOps,v₂⟩ hv₂
  simp only [CCoinsView.getValueIn,hcb,Bool.false_eq_true,if_false]
  apply ((valueInFrom_meets hreads hv₂ hs.range (n := 0) (k := 0) (by omega) (by simp)
    (by omega : 0+tx.vin.length ≤ 24390)).weaken fun e he => by
      obtain ⟨-,txin,hin,hnone⟩ := he
      exact absurd hnone (hvin txin hin)).bind
  rintro ⟨nValueIn,v₃⟩ ⟨-,-,hin₀,hinle,hv₃⟩
  simp only [MAX_MONEY,COIN] at hinle hrange
  push_cast at hinle
  simp only [hvalue,orThrow_some,ok_bind,
    addInt64_of_bounds (a := nValueIn) (b := -nValueOut) (by omega) (by omega),
    addInt64_of_bounds (a := s.nFees) (b := nValueIn+-nValueOut) (by omega) (by omega)]
  apply (checkInputs_refuses hv₃ hs.range hcb htx fScriptChecks flags).bind
  rintro ⟨vChecks,v₄⟩ hv₄
  exact ⟨hv₄,hvin⟩

/-- `UpdateCoins` finds every coin it spends. -/
theorem updateCoins_refuses (h : v.Holds m best) {tx : CTransaction} (htx : TxSound tx)
    (hvin : tx.isCoinBase = false → ∀ txin ∈ tx.vin, m.output txin.prevout ≠ none)
    (nHeight : Nat) : Meets Rejection (env.updateCoins tx v nHeight) fun _ => True := by
  cases hcb : tx.isCoinBase with
  | true =>
    obtain ⟨v',hr,-⟩ := addOutputs_meets env h tx nHeight
    unfold updateCoins
    simp only [hcb,if_true,pure_bind,hr]
    trivial
  | false =>
    obtain ⟨us,m₁,hs⟩ := PlainCoins.spendAll_of_available htx.distinct (hvin hcb)
    obtain ⟨v',hr,-⟩ := updateCoins_ok env h hcb hs nHeight
    rw [hr]
    trivial

theorem connectTransaction_refuses {s : ConnectState} {k nHeight : Nat}
    (hs : Accumulated s m best k) {tx : CTransaction} (htx : TxSound tx)
    (hk : k+tx.vin.length ≤ 24390) (fScriptChecks fStrict : Bool) (flags : Nat) (first : Bool) :
    Meets Rejection (env.connectTransaction fScriptChecks fStrict flags nHeight first s tx)
      fun _ => True := by
  unfold connectTransaction
  apply (Meets.ensure trivial).bind
  intro _ _
  have hs' : Accumulated { s with nSigOps := uint32 (s.nSigOps+env.getLegacySigOpCount tx) } m
    best k := ⟨hs.view,hs.range,hs.fees_nonneg,hs.fees_le⟩
  cases hcb : tx.isCoinBase with
  | true =>
    simp only [if_true,pure_bind]
    apply (updateCoins_refuses hs'.view htx (fun hf => by simp [hcb] at hf) nHeight).bind
    intro _ _
    trivial
  | false =>
    simp only [Bool.false_eq_true,if_false]
    apply (checkSpending_refuses hs' hcb htx hk fScriptChecks fStrict flags).bind
    rintro s₁ ⟨hv₁,hvin⟩
    apply (updateCoins_refuses hv₁ htx (fun _ => hvin) nHeight).bind
    intro _ _
    trivial

theorem connectTransactions_refuses {vtx : List CTransaction} {s : ConnectState} {k nHeight : Nat}
    (hs : Accumulated s m best k) (htx : ∀ tx ∈ vtx, TxChecked tx ∧ TxSound tx)
    (hk : k+(vtx.map fun (tx : CTransaction) => tx.vin.length).sum ≤ 24390)
    (fScriptChecks fStrict : Bool) (flags : Nat) (first : Bool) :
    Meets Rejection (env.connectTransactions fScriptChecks fStrict flags nHeight first s vtx)
      fun _ => True := by
  induction vtx generalizing s m k first with
  | nil => trivial
  | cons tx rest ih =>
    obtain ⟨⟨hchecked,hsound⟩,hrest⟩ := List.forall_mem_cons.mp htx
    simp only [List.map_cons,List.sum_cons] at hk
    unfold connectTransactions
    apply ((connectTransaction_refuses hs hsound (by omega) fScriptChecks fStrict flags first).and
      (connectTransaction_meets hs hchecked (by omega) fScriptChecks fStrict flags
        first).forget).bind
    rintro s₁ ⟨-,us,fee,m₁,-,hs₁,-⟩
    exact ih hs₁ hrest (by omega) false

/-- What `ConnectBlock` ends with: it rejects the block, or the disk fails, or the view does not
stand at the parent. -/
def Ends (env : NodeEnv) (pindex : ConnectIndex) (best : Uint256) : Failure → Prop
  | .dos _ _ => True
  | .error => env.findUndoPos = false
  | .abort => pindex.pprev.getD 0 ≠ best ∨ env.writeUndo = false ∨ env.writeTxIndex = false
  | _ => False

theorem Ends.of_rejection {pindex : ConnectIndex} {e : Failure} (h : Rejection e) :
    Ends env pindex best e := by
  cases e <;> trivial

theorem Ends.refusal {pindex : ConnectIndex} {e : Failure} (h : Ends env pindex best e) :
    Refusal e := by
  cases e <;> trivial

/-- On a view over a ledger in the money range `ConnectBlock` accepts a block or turns it
down, whatever the block holds. -/
theorem connectBlock_ends (h : v.Holds m best) (hm : m.InRange) (block : CBlock)
    {pindex : ConnectIndex}
    (hprev : pindex.pprev.isSome = true ∨
      block.toCBlockHeader.getHash env.hashes env.testNet = env.hashGenesisBlock)
    (fJustCheck : Bool) :
    Meets (Ends env pindex best) (env.connectBlock block pindex v fJustCheck) fun _ => True := by
  unfold connectBlock
  apply (((checkBlock_refuses block _ _).weaken fun _ => Ends.of_rejection).and
    (checkBlock_meets block _ _).forget).bind
  rintro _ ⟨hsound,hchecked⟩
  have h₁ := h.getBestBlock
  have hstands : (pindex.pprev.getD 0 == v.getBestBlock.1) = false → Ends env pindex best .abort :=
    fun hb => .inl (by simpa [h.best] using hb)
  apply (Meets.ensure_of hstands).bind
  intro _ _
  split
  · cases fJustCheck with
    | true => trivial
    | false =>
      obtain ⟨v',hset,-⟩ := h₁.setBestBlock pindex.hash_ne
      simp only [hset]
      trivial
  · rename_i hgenesis
    obtain ⟨coinbase,rest,hvtx,-⟩ := hchecked.coinbase
    obtain ⟨nCoinBaseOut,hvalue⟩ := Option.isSome_iff_exists.mp
      (hsound coinbase (by simp [hvtx])).valueOut
    have hbip30 : Meets (Ends env pindex best) (env.checkBIP30 v.getBestBlock.2 block.vtx) fun v₁ =>
        v₁.Holds m best := by
      have hrefuse : ∀ (vtx : List CTransaction) (v : CCoinsView),
          Meets (Ends env pindex best) (env.checkBIP30 v vtx) fun _ => True := by
        intro vtx
        induction vtx with
        | nil => exact fun _ => trivial
        | cons tx rest ih =>
          intro v
          unfold checkBIP30
          apply (Meets.ensure trivial).bind
          intro _ _
          exact ih _
      exact ((hrefuse block.vtx _).and (checkBIP30_meets h₁ block.vtx).forget).mono
        fun _ hr => hr.2.2
    apply hbip30.bind
    intro v₁ hv₁
    have hacc : Accumulated ⟨v₁,0,0,[],[]⟩ m best 0 := ⟨hv₁,hm,by simp,by simp⟩
    have hinputs : 0+(block.vtx.map fun (tx : CTransaction) => tx.vin.length).sum ≤ 24390 := by
      simpa using hchecked.inputs
    apply (((connectTransactions_refuses hacc (fun tx htx => ⟨hchecked.tx tx htx,hsound tx htx⟩)
      hinputs _ _ _ true).weaken fun _ => Ends.of_rejection).and
        (connectTransactions_meets hacc hchecked.tx hinputs _ _ _ true).forget).bind
    rintro s ⟨-,uss,fees,m',-,hs,-⟩
    simp only [hvtx,List.head?_cons,orThrow_some,ok_bind,hvalue]
    apply (Meets.ensure trivial).bind
    intro _ _
    apply (Meets.ensure trivial).bind
    intro _ _
    cases fJustCheck with
    | true => trivial
    | false =>
      simp only [Bool.false_eq_true,if_false]
      have hfind : (pindex.hasUndoPos || env.findUndoPos) = false → Ends env pindex best .error :=
        fun hd => (Bool.or_eq_false_iff.mp hd).2
      have hwrite : (pindex.hasUndoPos || env.writeUndo) = false → Ends env pindex best .abort :=
        fun hd => .inr (.inl (Bool.or_eq_false_iff.mp hd).2)
      have hindex : env.writeTxIndex = false → Ends env pindex best .abort :=
        fun hd => .inr (.inr hd)
      apply (Meets.ensure_of hfind).bind
      intro _ _
      have hsome : (pindex.hasUndoPos || pindex.pprev.isSome) = true := by
        rw [Bool.or_eq_true]
        exact .inr (hprev.resolve_right hgenesis)
      simp only [hsome,ensure_true,ok_bind]
      apply (Meets.ensure_of hwrite).bind
      intro _ _
      apply (Meets.ensure_of hindex).bind
      intro _ _
      obtain ⟨v',hset,-⟩ := hs.view.setBestBlock pindex.hash_ne
      simp only [hset]
      trivial

/-- No block stops the node: on a UTXO view every error of `ConnectBlock` is a refusal. Only
the genesis block has no parent. -/
theorem connectBlock_safe (u : UtxoView) (block : CBlock) {pindex : ConnectIndex}
    (hprev : pindex.pprev.isSome = true ∨
      block.toCBlockHeader.getHash env.hashes env.testNet = env.hashGenesisBlock)
    (fJustCheck : Bool) {e : Failure}
    (he : env.connectBlock block pindex u.view fJustCheck = .error e) : Refusal e :=
  ((connectBlock_ends u.holds u.valid.inRange block hprev fJustCheck).fault he).refusal

/-- A coinbase and two transactions that spend the same output. -/
def doubleSpendBlock : CBlock where
  toCBlockHeader := CBlockHeader.null
  vtx := [⟨1,[⟨⟨0,4294967295⟩,[0,0],0⟩],[⟨420000000,[]⟩],0⟩,
    ⟨1,[⟨⟨100,0⟩,[],0⟩],[⟨3,[]⟩],1⟩,
    ⟨1,[⟨⟨100,0⟩,[],0⟩],[⟨4,[]⟩],2⟩]

theorem connectBlock_safe_doubleSpendBlock :
    ∃ e, openEnv.connectBlock doubleSpendBlock chainIndex fundedView.view false = .error e ∧
      e = .dos 100 "bad-txns-inputs-missingorspent" ∧ Refusal e := by
  have he : openEnv.connectBlock doubleSpendBlock chainIndex fundedView.view false =
      .error (.dos 100 "bad-txns-inputs-missingorspent") := rfl
  exact ⟨_,he,rfl,connectBlock_safe fundedView doubleSpendBlock (.inl rfl) false he⟩

/-- `CheckInputs` decides whether the ledger can pay: it succeeds, and all the checks it leaves to
the threads pass, when the inputs are unspent, mature and worth the outputs, and their scripts
pass. -/
theorem checkInputs_accepts_iff (env : NodeEnv) {v : CCoinsView} {m : PlainCoins} {best : Uint256}
    (h : v.Holds m best) {tx : CTransaction} (hcb : tx.isCoinBase = false) (fScriptChecks : Bool)
    (flags : Nat) :
    (∃ r, env.checkInputs tx v fScriptChecks flags = .ok r ∧ r.1.all id = true) ↔
      best ≠ 0 ∧ (∃ nHeight, env.blockHeight best = some nHeight ∧ m.Mature (nHeight+1) tx) ∧
        m.Spends tx ∧ (fScriptChecks = true → env.ScriptsPass m tx flags 0 tx.vin) := by
  have hreads := holds_readsFrom m best
  have hscripts : ∀ {nHeight : Nat}, best ≠ 0 → env.blockHeight best = some nHeight →
      m.Mature (nHeight+1) tx → m.Spends tx →
      ((∃ r, env.checkInputs tx v fScriptChecks flags = .ok r ∧ r.1.all id = true) ↔
        (fScriptChecks = true → env.ScriptsPass m tx flags 0 tx.vin)) := by
    intro nHeight hbest hheight hmature hs
    obtain ⟨v',hv',heq⟩ := checkInputs_pays hreads h hcb hbest hheight hs hmature fScriptChecks flags
    rw [heq]
    cases fScriptChecks with
    | false => simp
    | true =>
      simp only [if_true,forall_const]
      rw [checkInputScripts_iff hreads hv' tx flags fun x hx => hs.output_ne hx]
      simp
  constructor
  · rintro ⟨r,hr,hok⟩
    obtain ⟨hbest,hs,nHeight,hheight,hmature⟩ :=
      (checkInputs_finds hreads h hcb fScriptChecks flags).result hr
    exact ⟨hbest,⟨nHeight,hheight,hmature⟩,hs,(hscripts hbest hheight hmature hs).mp ⟨r,hr,hok⟩⟩
  · rintro ⟨hbest,⟨nHeight,hheight,hmature⟩,hs,hpass⟩
    exact (hscripts hbest hheight hmature hs).mpr hpass

def fundedSpend : CTransaction := ⟨1,[⟨⟨100,0⟩,[],0⟩],[⟨3,[]⟩],1⟩

theorem checkInputs_accepts_fundedView :
    (∃ r, openEnv.checkInputs fundedSpend fundedView.view true 1 = .ok r ∧ r.1.all id = true) ↔
      fundedView.view.getBestBlock.1 ≠ 0 ∧
        (∃ nHeight, openEnv.blockHeight fundedView.view.getBestBlock.1 = some nHeight ∧
          fundedView.view.coins.Mature (nHeight+1) fundedSpend) ∧
        fundedView.view.coins.Spends fundedSpend ∧
        (true = true → openEnv.ScriptsPass fundedView.view.coins fundedSpend 1 0 fundedSpend.vin) :=
  checkInputs_accepts_iff openEnv fundedView.holds rfl true 1

end NodeEnv

end Anoncoin
