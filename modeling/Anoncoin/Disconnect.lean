import Anoncoin.ConnectSpec

/-!
`DisconnectBlock` takes back exactly what `ConnectBlock` did.
-/

set_option autoImplicit false

namespace Anoncoin
open Lib

theorem CCoins.clearUnspendable_isPruned {c : CCoins} (h : c.isPruned = true) :
    c.clearUnspendable.isPruned = true := by
  unfold clearUnspendable
  rw [cleanup_isPruned]
  have hall : ∀ o ∈ c.vout, o.isNull = true := List.all_eq_true.mp h
  simp only [isPruned,List.all_eq_true,List.mem_map]
  rintro _ ⟨o,ho,rfl⟩
  split
  · rfl
  · exact hall o ho

/-- The outputs found under a transaction's hash match the block when nothing has
touched them since they were added. -/
theorem CCoins.removeOutputs_matches {c : CCoins} {tx : CTransaction} {nHeight : Nat}
    (h : c.unspent = (CCoins.fromTx tx nHeight).unspent) :
    (if (CCoins.fromTx tx nHeight).nVersion < 0 then
      { c.clearUnspendable with nVersion := (CCoins.fromTx tx nHeight).nVersion }
      else c.clearUnspendable).equal (CCoins.fromTx tx nHeight) = true := by
  cases hp : (CCoins.fromTx tx nHeight).isPruned with
  | true =>
    have hc : c.isPruned = true := by
      rw [← unspent_eq_none,h,unspent_eq_none]
      exact hp
    have hclear := clearUnspendable_isPruned hc
    unfold equal
    split
    · simp only [isPruned] at hclear hp ⊢
      simp [hclear,hp]
    · simp [hclear,hp]
  | false =>
    have hc : c = CCoins.fromTx tx nHeight := by
      have hsome := unspent_eq_some.mpr ⟨rfl,hp⟩
      rw [hsome] at h
      exact (unspent_eq_some.mp h).1
    rw [hc,fromTx_clearUnspendable]
    unfold equal
    split <;> simp

namespace NodeEnv
variable {env : NodeEnv} {v : CCoinsView} {m : PlainCoins} {best : Uint256}

theorem restoreInputs_append (fClean : Bool) (v : CCoinsView) (a b : List (CTxIn × CTxInUndo)) :
    restoreInputs fClean v (a ++ b) =
      restoreInputs fClean v a >>= fun r => restoreInputs r.1 r.2 b := by
  induction a generalizing fClean v with
  | nil => rfl
  | cons x a ih =>
    obtain ⟨txin,undo⟩ := x
    simp only [List.cons_append,restoreInputs,bind_assoc]
    congr 1
    funext r
    exact ih _ _

/-- One input put back: the ledger from before the spend. -/
theorem restoreInput_spec {m₁ : PlainCoins} {txin : CTxIn} {u : CTxInUndo} (hm : m.Valid)
    (hs : m.spend txin.prevout = some (u,m₁)) (h : v.Holds m₁ best) (fClean : Bool) :
    ∃ v', restoreInputs fClean v [(txin,u)] = .ok (fClean,v') ∧ v'.Holds m best := by
  obtain ⟨c,c',hc,hcs,rfl⟩ := PlainCoins.spend_cases hs
  have hok := hm _ c hc
  obtain ⟨d,-,hsee,hbody⟩ := h.modifyCoins txin.prevout.hash
  rw [Function.update_self] at hsee
  have hback := CCoins.restore_spend hok.canonical hok.height hcs hsee
  obtain ⟨v',hr,hv⟩ := (hbody fun coins =>
    let r := coins.restore txin.prevout.n u
    some (r.2,r.1)).2 true c (by simp [hback])
  refine ⟨v',?_,?_⟩
  · simp only [restoreInputs,hr,orThrow]
    cases fClean <;> rfl
  · have hsame : Function.update (Function.update m txin.prevout.hash c'.unspent)
        txin.prevout.hash c.cleanup.unspent = m := by
      rw [Function.update_idem,hok.canonical.clean,
        CCoins.unspent_eq_some.mpr ⟨rfl,hok.unspent⟩,← hc,Function.update_eq_self]
    rw [hsame] at hv
    exact hv

/-- All inputs of a transaction put back, last one first. -/
theorem restoreInputs_spec {m₁ : PlainCoins} {vin : List CTxIn} {us : CTxUndo} (hm : m.Valid)
    (hs : m.spendAll vin = some (us,m₁)) (h : v.Holds m₁ best) (fClean : Bool) :
    ∃ v', restoreInputs fClean v (vin.zip us).reverse = .ok (fClean,v') ∧ v'.Holds m best := by
  induction vin generalizing m us v with
  | nil =>
    simp only [PlainCoins.spendAll,Option.some.injEq,Prod.mk.injEq] at hs
    obtain ⟨rfl,rfl⟩ := hs
    exact ⟨v,rfl,h⟩
  | cons txin rest ih =>
    obtain ⟨u,m₂,us',hspend,hrest,rfl⟩ := PlainCoins.spendAll_cons hs
    obtain ⟨v₁,hr₁,hv₁⟩ := ih (PlainCoins.spend_valid hm hspend) hrest h
    obtain ⟨v₂,hr₂,hv₂⟩ := restoreInput_spec hm hspend hv₁ fClean
    refine ⟨v₂,?_,hv₂⟩
    rw [List.zip_cons_cons,List.reverse_cons,restoreInputs_append,hr₁]
    exact hr₂

theorem removeOutputs_spec (env : NodeEnv) {tx : CTransaction} {nHeight : Nat} (h : v.Holds m best)
    (hm : m (env.getTxHash tx) = (CCoins.fromTx tx nHeight).unspent) :
    ∃ v', env.removeOutputs tx nHeight v = .ok (true,v') ∧
      v'.Holds (Function.update m (env.getTxHash tx) none) best := by
  obtain ⟨c,-,hsee,hbody⟩ := h.modifyCoins (env.getTxHash tx)
  rw [hm] at hsee
  have hmatch := CCoins.removeOutputs_matches hsee
  obtain ⟨v',hr,hv⟩ := (hbody fun outs =>
    let outs := outs.clearUnspendable
    let outsBlock := CCoins.fromTx tx nHeight
    let outs := if outsBlock.nVersion < 0 then { outs with nVersion := outsBlock.nVersion } else outs
    some (outs.equal outsBlock,CCoins.empty)).2 true CCoins.empty (by simp only [hmatch])
  exact ⟨v',by simp only [removeOutputs,hr,orThrow],hv⟩

/-- Removing the record of a transaction whose hash was free before. -/
theorem removeOutputs_addTx {tx : CTransaction} {nHeight : Nat}
    (h : v.Holds (Function.update m (env.getTxHash tx) (CCoins.fromTx tx nHeight).unspent) best)
    (hfree : m (env.getTxHash tx) = none) :
    ∃ v', env.removeOutputs tx nHeight v = .ok (true,v') ∧ v'.Holds m best := by
  have hself : Function.update m (env.getTxHash tx) (CCoins.fromTx tx nHeight).unspent
      (env.getTxHash tx) = (CCoins.fromTx tx nHeight).unspent := Function.update_self ..
  obtain ⟨v',hr,hv⟩ := removeOutputs_spec env h hself
  rw [Function.update_idem,← hfree,Function.update_eq_self] at hv
  exact ⟨v',hr,hv⟩

theorem disconnectTransactions_append (nHeight : Nat) (fClean : Bool) (v : CCoinsView)
    (a b : List (CTransaction × Option CTxUndo)) :
    env.disconnectTransactions nHeight fClean v (a ++ b) =
      env.disconnectTransactions nHeight fClean v a >>= fun r =>
        env.disconnectTransactions nHeight r.1 r.2 b := by
  induction a generalizing fClean v with
  | nil => rfl
  | cons x a ih =>
    obtain ⟨tx,txundo⟩ := x
    simp only [List.cons_append,disconnectTransactions,bind_assoc]
    congr 1
    funext r
    congr 1
    funext r
    exact ih _ _

end NodeEnv

theorem TxsConnected.length_eq {hash : CTransaction → Uint256} {nHeight : Nat}
    {m m' : PlainCoins} {vtx : List CTransaction} {uss : List CTxUndo} {fees : Int}
    (h : TxsConnected hash nHeight m vtx uss fees m') : uss.length = vtx.length := by
  induction h with
  | nil => rfl
  | cons _ _ ih => simp [ih]

/-- How far a block has been connected: `done` are the transactions so far, `m₀` the
ledger before the block. Records come from before or from `done`, and so did every
input of `done`, which is spent by now. -/
structure Progress (hash : CTransaction → Uint256) (m₀ m : PlainCoins)
    (done : List CTransaction) : Prop where
  known : ∀ t, m t ≠ none → m₀ t ≠ none ∨ t ∈ done.map hash
  origin : ∀ x ∈ done, x.isCoinBase = false → ∀ txin ∈ x.vin,
    m₀ txin.prevout.hash ≠ none ∨ txin.prevout.hash ∈ done.map hash
  spent : ∀ x ∈ done, x.isCoinBase = false → ∀ txin ∈ x.vin, m.output txin.prevout = none

theorem PlainCoins.output_update {m : PlainCoins} {t : Uint256} {x : Option CCoins}
    {o : COutPoint} (h : o.hash ≠ t) : output (Function.update m t x) o = m.output o := by
  unfold output
  rw [Function.update_of_ne h]

section Progress
variable {hash : CTransaction → Uint256} {nHeight : Nat} {m₀ m m₁ : PlainCoins}
  {done : List CTransaction} {tx : CTransaction} {us : CTxUndo} {fee : Int}

/-- A transaction cannot come twice in a block: its inputs would be spent already. -/
theorem Progress.fresh (h : Progress hash m₀ m done) (hfree : m₀ (hash tx) = none)
    (htx : TxChecked tx) (hcb : tx.isCoinBase = false)
    (hinj : ∀ x ∈ done, hash x = hash tx → x = tx) (hs : m.spendAll tx.vin = some (us,m₁)) :
    hash tx ∉ done.map hash ∧ m (hash tx) = none := by
  have hnew : hash tx ∉ done.map hash := by
    intro hmem
    obtain ⟨x,hx,he⟩ := List.mem_map.mp hmem
    obtain rfl := hinj x hx he
    obtain ⟨txin,hin⟩ := List.exists_mem_of_ne_nil x.vin htx.vin
    exact (PlainCoins.spendAll_output hs).1 txin hin (h.spent x hx hcb txin hin)
  refine ⟨hnew,?_⟩
  by_contra hne
  rcases h.known (hash tx) hne with h₀ | h₀
  · exact h₀ hfree
  · exact hnew h₀

theorem Progress.spending (h : Progress hash m₀ m done) (hfree : m₀ (hash tx) = none)
    (htx : TxChecked tx) (hcb : tx.isCoinBase = false)
    (hinj : ∀ x ∈ done, hash x = hash tx → x = tx) (hs : m.spendAll tx.vin = some (us,m₁))
    (c : Option CCoins) : Progress hash m₀ (Function.update m₁ (hash tx) c) (tx :: done) := by
  obtain ⟨hnew,-⟩ := h.fresh hfree htx hcb hinj hs
  obtain ⟨hall,-,hout⟩ := PlainCoins.spendAll_output hs
  have horigin : ∀ x ∈ tx :: done, x.isCoinBase = false → ∀ txin ∈ x.vin,
      m₀ txin.prevout.hash ≠ none ∨ txin.prevout.hash ∈ done.map hash := by
    intro x hx hxcb txin hin
    rcases List.mem_cons.mp hx with rfl | hx
    · apply h.known
      intro hnone
      exact hall txin hin (by simp [PlainCoins.output,hnone])
    · exact h.origin x hx hxcb txin hin
  refine ⟨?_,?_,?_⟩
  · intro t ht
    by_cases he : t = hash tx
    · exact .inr (by simp [he])
    · rw [Function.update_of_ne he] at ht
      rcases h.known t (fun hnone => ht (PlainCoins.spendAll_none hs hnone)) with h₀ | h₀
      · exact .inl h₀
      · exact .inr (by simp [h₀])
  · intro x hx hxcb txin hin
    rcases horigin x hx hxcb txin hin with h₀ | h₀
    · exact .inl h₀
    · exact .inr (by simp [h₀])
  · intro x hx hxcb txin hin
    have hne : txin.prevout.hash ≠ hash tx := by
      intro he
      rcases horigin x hx hxcb txin hin with h₀ | h₀
      · exact h₀ (he ▸ hfree)
      · exact hnew (he ▸ h₀)
    rw [PlainCoins.output_update hne,hout]
    rcases List.mem_cons.mp hx with rfl | hx
    · rw [if_pos (List.mem_map_of_mem hin)]
    · rw [h.spent x hx hxcb txin hin]
      exact ite_self none

theorem Progress.coinbase (hcb : tx.isCoinBase = true) (m₀ : PlainCoins) (c : Option CCoins) :
    Progress hash m₀ (Function.update m₀ (hash tx) c) [tx] := by
  refine ⟨?_,?_,?_⟩
  · intro t ht
    by_cases he : t = hash tx
    · exact .inr (by simp [he])
    · rw [Function.update_of_ne he] at ht
      exact .inl ht
  · intro x hx hxcb
    obtain rfl := List.mem_singleton.mp hx
    rw [hcb] at hxcb
    contradiction
  · intro x hx hxcb
    obtain rfl := List.mem_singleton.mp hx
    rw [hcb] at hxcb
    contradiction

end Progress

namespace NodeEnv
variable {env : NodeEnv} {v : CCoinsView} {best : Uint256}

/-- One spending transaction taken back. -/
theorem disconnectTransaction_spec {m m₁ : PlainCoins} {tx : CTransaction} {us : CTxUndo}
    {nHeight : Nat} (hm : m.Valid) (hs : m.spendAll tx.vin = some (us,m₁))
    (hfree : m (env.getTxHash tx) = none)
    (h : v.Holds (Function.update m₁ (env.getTxHash tx) (CCoins.fromTx tx nHeight).unspent) best)
    (fClean : Bool) :
    ∃ v', env.disconnectTransactions nHeight fClean v [(tx,some us)] = .ok (fClean,v') ∧
      v'.Holds m best := by
  obtain ⟨v₁,hr₁,hv₁⟩ := removeOutputs_addTx h (PlainCoins.spendAll_none hs hfree)
  obtain ⟨v₂,hr₂,hv₂⟩ := restoreInputs_spec hm hs hv₁ fClean
  have hlen : (us.length == tx.vin.length) = true := by
    rw [PlainCoins.spendAll_length hs]
    exact beq_self_eq_true _
  have hin : disconnectInputs tx (fClean && true) v₁ (some us) = .ok (fClean,v₂) := by
    rw [Bool.and_true,disconnectInputs,hlen]
    exact hr₂
  refine ⟨v₂,?_,hv₂⟩
  simp only [disconnectTransactions,hr₁]
  change disconnectInputs tx (fClean && true) v₁ (some us) >>= _ = _
  rw [hin]
  rfl

/-- The transactions after the coinbase taken back, by induction on the order in
which they were connected. -/
theorem disconnectTransactions_spec {nHeight : Nat} {m₀ m m' : PlainCoins}
    {done vtx : List CTransaction} {uss : List CTxUndo} {fees : Int}
    (hrun : TxsConnected env.getTxHash nHeight m vtx uss fees m') (hm : m.Valid)
    (hh : nHeight ≠ 0) (hprog : Progress env.getTxHash m₀ m done)
    (hfree : ∀ tx ∈ vtx, m₀ (env.getTxHash tx) = none) (htx : ∀ tx ∈ vtx, TxChecked tx)
    (hcb : ∀ tx ∈ vtx, tx.isCoinBase = false)
    (hinj : ∀ x ∈ done ++ vtx, ∀ y ∈ done ++ vtx, env.getTxHash x = env.getTxHash y → x = y)
    (h : v.Holds m' best) (fClean : Bool) :
    ∃ v', env.disconnectTransactions nHeight fClean v (vtx.zip (uss.map some)).reverse =
      .ok (fClean,v') ∧ v'.Holds m best := by
  induction hrun generalizing done v with
  | nil => exact ⟨v,rfl,h⟩
  | @cons m m₁ m₂ tx rest us uss fee fees hfirst hrest ih =>
    have hcb₁ := hcb tx (by simp)
    have hvalid := hfirst.valid hm (htx tx (by simp)) hh
    cases hfirst with
    | coinbase hc =>
      rw [hcb₁] at hc
      contradiction
    | spending _ hs hpay =>
      have hinj₁ : ∀ x ∈ done, env.getTxHash x = env.getTxHash tx → x = tx := fun x hx he =>
        hinj x (by simp [hx]) tx (by simp) he
      have hprog₁ := hprog.spending (hfree tx (by simp)) (htx tx (by simp)) hcb₁ hinj₁ hs
        (CCoins.fromTx tx nHeight).unspent
      have hnone := (hprog.fresh (hfree tx (by simp)) (htx tx (by simp)) hcb₁ hinj₁ hs).2
      have hinj₂ : ∀ x ∈ (tx :: done) ++ rest, ∀ y ∈ (tx :: done) ++ rest,
          env.getTxHash x = env.getTxHash y → x = y := by
        intro x hx y hy
        apply hinj x _ y _
        · simp only [List.cons_append,List.mem_cons,List.mem_append] at hx ⊢
          tauto
        · simp only [List.cons_append,List.mem_cons,List.mem_append] at hy ⊢
          tauto
      obtain ⟨v₁,hr₁,hv₁⟩ := ih hvalid hprog₁ (fun x hx => hfree x (by simp [hx]))
        (fun x hx => htx x (by simp [hx])) (fun x hx => hcb x (by simp [hx])) hinj₂ h
      obtain ⟨v₂,hr₂,hv₂⟩ := disconnectTransaction_spec hm hs hnone hv₁ fClean
      refine ⟨v₂,?_,hv₂⟩
      rw [List.map_cons,List.zip_cons_cons,List.reverse_cons,disconnectTransactions_append,hr₁]
      exact hr₂

/-- The coinbase taken back. -/
theorem disconnectCoinbase_spec {m : PlainCoins} {tx : CTransaction} {nHeight : Nat}
    (hfree : m (env.getTxHash tx) = none)
    (h : v.Holds (Function.update m (env.getTxHash tx) (CCoins.fromTx tx nHeight).unspent) best)
    (fClean : Bool) :
    ∃ v', env.disconnectTransactions nHeight fClean v [(tx,none)] = .ok (fClean,v') ∧
      v'.Holds m best := by
  obtain ⟨v₁,hr₁,hv₁⟩ := removeOutputs_addTx h hfree
  refine ⟨v₁,?_,hv₁⟩
  simp only [disconnectTransactions,hr₁]
  cases fClean <;> rfl

theorem BlockConnected.disconnect {block : CBlock} {nHeight : Nat} {m m' : PlainCoins}
    {blockundo : CBlockUndo} (hc : env.BlockConnected block nHeight m blockundo m')
    (hm : m.Valid) (hh : nHeight ≠ 0)
    (hinj : ∀ x ∈ block.vtx, ∀ y ∈ block.vtx, env.getTxHash x = env.getTxHash y → x = y)
    (h : v.Holds m' best) :
    (blockundo.vtxundo.length+1 == block.vtx.length) = true ∧
    ∃ v', env.disconnectTransactions nHeight true v
        (block.vtx.zip (none :: blockundo.vtxundo.map some)).reverse = .ok (true,v') ∧
      v'.Holds m best := by
  obtain ⟨uss,fees,hrun,hundo,-⟩ := hc.run
  obtain ⟨cb,rest,hvtx,hcb,hothers⟩ := hc.checked.coinbase
  have hfree := hc.bip30
  have htx := hc.checked.tx
  rw [hvtx] at hrun hinj hfree htx ⊢
  cases hrun with
  | @cons _ m₁ _ _ _ us uss fee fees hfirst hrest =>
    have hvalid := hfirst.valid hm (htx cb (by simp)) hh
    cases hfirst with
    | spending hc' =>
      rw [hcb] at hc'
      contradiction
    | coinbase _ =>
      simp only [List.tail_cons] at hundo
      subst hundo
      have hprog := @Progress.coinbase env.getTxHash cb hcb m (CCoins.fromTx cb nHeight).unspent
      obtain ⟨v₁,hr₁,hv₁⟩ := disconnectTransactions_spec hrest hvalid hh hprog
        (fun x hx => hfree x (by simp [hx])) (fun x hx => htx x (by simp [hx])) hothers
        hinj h true
      obtain ⟨v₂,hr₂,hv₂⟩ := disconnectCoinbase_spec (hfree cb (by simp)) hv₁ true
      refine ⟨by simp [hrest.length_eq],v₂,?_,hv₂⟩
      rw [List.zip_cons_cons,List.reverse_cons,disconnectTransactions_append,hr₁]
      exact hr₂

/-- Disconnecting undoes connecting. Transactions of the block are told apart by
their hashes; nothing else is assumed of the block. -/
theorem disconnectBlock_connectBlock (u : UtxoView) {block : CBlock} {pindex : ConnectIndex}
    (hh : 1 ≤ pindex.nHeight)
    (hinj : ∀ x ∈ block.vtx, ∀ y ∈ block.vtx, env.getTxHash x = env.getTxHash y → x = y)
    {fJustCheck : Bool} {v' : CCoinsView} {blockundo : CBlockUndo}
    (hconnect : env.connectBlock block pindex u.view fJustCheck = .ok (v',some blockundo)) :
    ∃ v'', env.disconnectBlock block pindex v' blockundo = .ok (true,v'') ∧
      some v''.getBestBlock.1 = pindex.pprev ∧
      ∀ t, (v''.getCoins t).1.bind CCoins.unspent = (u.view.getCoins t).1.bind CCoins.unspent := by
  have hh' : pindex.nHeight ≠ 0 := by omega
  obtain ⟨-,hpost⟩ :=
    (connectBlock_meets u.holds u.valid.inRange block pindex fJustCheck).result hconnect
  obtain ⟨hbest,m',hc,hv'⟩ := hpost blockundo rfl
  obtain ⟨p,hp⟩ := Option.isSome_iff_exists.mp (pindex.prev_some hh')
  obtain ⟨hlen,v₁,hr₁,hv₁⟩ := hc.disconnect u.valid hh' hinj hv'.getBestBlock
  obtain ⟨v₂,hr₂,hv₂⟩ := hv₁.setBestBlock (pindex.prev_ne p hp)
  have hself : (pindex.hashBlock == v'.getBestBlock.1) = true := by
    rw [hv'.best]
    exact beq_self_eq_true _
  refine ⟨v₂,?_,by rw [hv₂.best,hp],?_⟩
  · unfold disconnectBlock
    simp only [hself,hp,hlen,ensure,orThrow,if_true]
    change env.disconnectTransactions _ _ _ _ >>= _ = _
    rw [hr₁]
    simp only [bind,Except.bind,pure,Except.pure,hr₂]
  · intro t
    rw [(CCoinsView.getCoins_spec hv₂.ok t).1,(CCoinsView.getCoins_spec u.ok t).1,hv₂.coins]

/-- A view with one transaction, number 100, of two unspent outputs. -/
def fundedCoins : CCoins := ⟨false,[⟨5,[]⟩,⟨6,[]⟩],1,1⟩

def fundedView : UtxoView where
  view := .cache ⟨false,7,∅⟩
    (.db ⟨(∅ : AList fun _ : Uint256 => CCoins).insert 100 fundedCoins,none⟩)
  ok := by
    refine ⟨rfl,fun t e he => by simp at he,?_⟩
    intro t c hc
    by_cases ht : t = 100
    · subst ht
      rw [AList.lookup_insert] at hc
      obtain rfl := Option.some.inj hc
      exact ⟨by decide,by decide⟩
    · rw [AList.lookup_insert_ne ht] at hc
      contradiction
  depth := by decide
  valid := by
    intro t c hc
    simp only [CCoinsView.coins,AList.lookup_empty] at hc
    by_cases ht : t = 100
    · subst ht
      rw [AList.lookup_insert,Option.bind_some] at hc
      obtain ⟨rfl,hp⟩ := CCoins.unspent_eq_some.mp hc
      exact ⟨⟨by decide,by decide⟩,by decide,hp,by decide⟩
    · rw [AList.lookup_insert_ne ht] at hc
      contradiction

/-- A coinbase, a transaction that spends both outputs of number 100, and one that
spends its output within the block. -/
def chainBlock : CBlock where
  toCBlockHeader := CBlockHeader.null
  vtx := [⟨1,[⟨⟨0,4294967295⟩,[0,0],0⟩],[⟨420000000,[]⟩],0⟩,
    ⟨1,[⟨⟨100,0⟩,[],0⟩,⟨⟨100,1⟩,[],0⟩],[⟨10,[]⟩],1⟩,
    ⟨1,[⟨⟨2,0⟩,[],0⟩],[⟨9,[]⟩,⟨0,[OP_RETURN]⟩],2⟩]

def chainIndex : ConnectIndex where
  hashBlock := 8
  pprev := some 7
  nHeight := 2
  nTime := 0
  hasUndoPos := false
  hash_ne := nextBlock_hash_ne
  prev_ne := nextBlock_prev_ne
  prev_some := nextBlock_prev_some

theorem disconnectBlock_chainBlock :
    ∃ v' blockundo,
      openEnv.connectBlock chainBlock chainIndex fundedView.view false =
        .ok (v',some blockundo) ∧
      ∃ v'', openEnv.disconnectBlock chainBlock chainIndex v' blockundo = .ok (true,v'') ∧
        some v''.getBestBlock.1 = chainIndex.pprev ∧
        ∀ t, (v''.getCoins t).1.bind CCoins.unspent =
          (fundedView.view.getCoins t).1.bind CCoins.unspent := by
  obtain ⟨v',blockundo,hc⟩ : ∃ v' blockundo,
      openEnv.connectBlock chainBlock chainIndex fundedView.view false =
        .ok (v',some blockundo) := ⟨_,_,rfl⟩
  exact ⟨v',blockundo,hc,disconnectBlock_connectBlock fundedView (by decide) (by decide) hc⟩

end NodeEnv

end Anoncoin
