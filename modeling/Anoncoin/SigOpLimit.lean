import Anoncoin.SigOps
import Anoncoin.ConnectSpec

/-!
The limit on signature operations of `ConnectBlock`, and the signatures that are checked for
the inputs of a block.
-/

set_option autoImplicit false

namespace Anoncoin
open Lib

theorem uint32_eq {n : Nat} (h : n < 2^32) : uint32 n = n := Nat.mod_eq_of_lt h

/-- A counter of 32 bits that stays small. -/
theorem foldl_uint32 {α : Type} (f : α → Nat) {l : List α} {n : Nat} (h : n+(l.map f).sum < 2^32) :
    l.foldl (fun n x => uint32 (n+f x)) n = n+(l.map f).sum := by
  induction l generalizing n with
  | nil => rfl
  | cons x l ih =>
    rw [List.map_cons,List.sum_cons] at h ⊢
    rw [List.foldl_cons,uint32_eq (by omega),ih (by omega)]
    omega

/-- The counts of the node are those of the scripts. -/
structure CountsScripts (env : NodeEnv) : Prop where
  legacy : ∀ script, env.getSigOpCount script = getSigOpCount script false
  p2sh : ∀ scriptPubKey scriptSig,
    env.getP2SHSigOpCountOf scriptPubKey scriptSig = getSigOpCountOf scriptPubKey scriptSig

/-- What an input adds to the count of its block. -/
def inputSigOps (fP2SH : Bool) (scriptSig scriptPubKey : CScript) : Nat :=
  getSigOpCount scriptSig false+
    if fP2SH && CScript.isPayToScriptHash scriptPubKey then getSigOpCountOf scriptPubKey scriptSig
    else 0

/-- What the inputs of a transaction add, given what they spend. -/
def spentSigOps (fP2SH : Bool) (tx : CTransaction) (us : CTxUndo) : Nat :=
  ((tx.vin.zip us).map fun p => inputSigOps fP2SH p.1.scriptSig p.2.txout.scriptPubKey).sum

section Counts
variable {env : NodeEnv} {v : CCoinsView} {m : PlainCoins} {best : Uint256}

theorem sum_scripts_le (tx : CTransaction) :
    (tx.vin.map fun (i : CTxIn) => i.scriptSig.length).sum+
      (tx.vout.map fun (o : CTxOut) => o.scriptPubKey.length).sum ≤ tx.getSerializeSize := by
  have hin : (tx.vin.map fun (i : CTxIn) => i.scriptSig.length).sum ≤
      (tx.vin.map CTxIn.getSerializeSize).sum :=
    List.sum_le_sum fun i _ => by
      unfold CTxIn.getSerializeSize scriptSerializeSize
      omega
  have hout : (tx.vout.map fun (o : CTxOut) => o.scriptPubKey.length).sum ≤
      (tx.vout.map CTxOut.getSerializeSize).sum :=
    List.sum_le_sum fun o _ => by
      unfold CTxOut.getSerializeSize scriptSerializeSize
      omega
  unfold CTransaction.getSerializeSize
  omega

theorem sum_count_le {α : Type} (f g : α → Nat) {l : List α} (h : ∀ x ∈ l, f x ≤ 20*g x) :
    (l.map f).sum ≤ 20*(l.map g).sum := by
  induction l with
  | nil => exact Nat.le_refl 0
  | cons x l ih =>
    have hx := h x List.mem_cons_self
    have hl := ih fun y hy => h y (List.mem_cons_of_mem x hy)
    rw [List.map_cons,List.sum_cons,List.map_cons,List.sum_cons]
    omega

/-- The legacy count of a transaction of a block is exact. -/
theorem getLegacySigOpCount_eq (hc : CountsScripts env) {tx : CTransaction}
    (hsize : tx.getSerializeSize ≤ MAX_BLOCK_SIZE) :
    env.getLegacySigOpCount tx =
      (tx.vin.map fun (i : CTxIn) => getSigOpCount i.scriptSig false).sum+
        (tx.vout.map fun (o : CTxOut) => getSigOpCount o.scriptPubKey false).sum ∧
    env.getLegacySigOpCount tx ≤ 20*MAX_BLOCK_SIZE := by
  have hlen := sum_scripts_le tx
  have hin : (tx.vin.map fun (i : CTxIn) => getSigOpCount i.scriptSig false).sum ≤
      20*(tx.vin.map fun (i : CTxIn) => i.scriptSig.length).sum :=
    sum_count_le _ _ fun i _ => sigOpsFrom_le false OP_INVALIDOPCODE i.scriptSig
  have hout : (tx.vout.map fun (o : CTxOut) => getSigOpCount o.scriptPubKey false).sum ≤
      20*(tx.vout.map fun (o : CTxOut) => o.scriptPubKey.length).sum :=
    sum_count_le _ _ fun o _ => sigOpsFrom_le false OP_INVALIDOPCODE o.scriptPubKey
  have hmax : MAX_BLOCK_SIZE = 1000000 := rfl
  unfold NodeEnv.getLegacySigOpCount
  simp only [hc.legacy]
  rw [foldl_uint32 (fun (i : CTxIn) => getSigOpCount i.scriptSig false) (by omega),
    foldl_uint32 (fun (o : CTxOut) => getSigOpCount o.scriptPubKey false) (by omega)]
  omega

/-- Each input is paired with the output it spends. -/
theorem spendAll_outputs {m' : PlainCoins} {vin : List CTxIn} {us : CTxUndo}
    (h : m.spendAll vin = some (us,m')) :
    List.Forall₂ (fun (i : CTxIn) (u : CTxInUndo) => m.output i.prevout = some u.txout) vin us := by
  induction vin generalizing m us with
  | nil =>
    simp only [PlainCoins.spendAll,Option.some.injEq,Prod.mk.injEq] at h
    rw [← h.1]
    exact .nil
  | cons txin rest ih =>
    obtain ⟨u,m₁,us',hs,hr,rfl⟩ := PlainCoins.spendAll_cons h
    obtain ⟨hget,hrest⟩ := PlainCoins.spend_output hs
    refine .cons hget ((ih hr).imp fun i u hi => ?_)
    rw [hrest] at hi
    split at hi
    · contradiction
    · exact hi

/-- The count of the pay-to-script-hash inputs. -/
theorem p2shSigOpsFrom_counts (hc : CountsScripts env) (h : v.Holds m best) {vin : List CTxIn}
    {us : CTxUndo} {n : Nat}
    (hus : List.Forall₂ (fun (i : CTxIn) (u : CTxInUndo) => m.output i.prevout = some u.txout) vin us)
    (hn : n+20*(vin.map fun (i : CTxIn) => i.scriptSig.length).sum < 2^32) :
    Meets (fun _ => True) (env.p2shSigOpsFrom v n vin) fun r =>
      r.1 = n+((vin.zip us).map fun p =>
        if CScript.isPayToScriptHash p.2.txout.scriptPubKey then
          getSigOpCountOf p.2.txout.scriptPubKey p.1.scriptSig else 0).sum ∧
      r.1 ≤ n+20*(vin.map fun (i : CTxIn) => i.scriptSig.length).sum := by
  induction hus generalizing v n with
  | nil => exact ⟨rfl,Nat.le_refl _⟩
  | @cons txin u vin us hout _ ih =>
    rw [List.map_cons,List.sum_cons] at hn ⊢
    unfold NodeEnv.p2shSigOpsFrom
    apply ((CCoinsView.getOutputFor_meets (CCoinsView.holds_readsFrom m best) h txin).weaken
      (fun _ _ => trivial)).bind
    rintro ⟨o,v'⟩ ⟨ho,hv⟩
    rw [hout] at ho
    obtain rfl : u.txout = o := Option.some.inj ho
    have hle : (if CScript.isPayToScriptHash u.txout.scriptPubKey then
        getSigOpCountOf u.txout.scriptPubKey txin.scriptSig else 0) ≤ 20*txin.scriptSig.length := by
      split
      · rename_i hp2sh
        exact getSigOpCountOf_le hp2sh txin.scriptSig
      · exact Nat.zero_le _
    simp only [hc.p2sh]
    rw [uint32_eq (by omega)]
    apply (ih hv (by omega)).mono
    rintro r ⟨heq,hle'⟩
    refine ⟨?_,by omega⟩
    rw [List.zip_cons_cons,List.map_cons,List.sum_cons]
    simp only
    omega

theorem spentSigOps_eq (fP2SH : Bool) {tx : CTransaction} {us : CTxUndo}
    (hlen : us.length = tx.vin.length) :
    spentSigOps fP2SH tx us =
      (tx.vin.map fun (i : CTxIn) => getSigOpCount i.scriptSig false).sum+
        if fP2SH then ((tx.vin.zip us).map fun p =>
          if CScript.isPayToScriptHash p.2.txout.scriptPubKey then
            getSigOpCountOf p.2.txout.scriptPubKey p.1.scriptSig else 0).sum else 0 := by
  have hsplit : ∀ (l : List (CTxIn × CTxInUndo)) (f g : CTxIn × CTxInUndo → Nat),
      (l.map fun p => f p+g p).sum = (l.map f).sum+(l.map g).sum := fun l f g => List.sum_map_add
  have hfst : (tx.vin.zip us).map (fun p => getSigOpCount p.1.scriptSig false) =
      tx.vin.map fun (i : CTxIn) => getSigOpCount i.scriptSig false := by
    have hzip : (tx.vin.zip us).map Prod.fst = tx.vin := List.map_fst_zip (by omega)
    have hmap := congrArg (List.map fun (i : CTxIn) => getSigOpCount i.scriptSig false) hzip
    rw [List.map_map] at hmap
    exact hmap
  unfold spentSigOps inputSigOps
  rw [hsplit,hfst]
  cases fP2SH with
  | false => simp
  | true => simp

theorem addP2SHSigOps_counts (hc : CountsScripts env) (h : v.Holds m best) {tx : CTransaction}
    (hsize : tx.getSerializeSize ≤ MAX_BLOCK_SIZE) (hcb : tx.isCoinBase = false) {us : CTxUndo}
    (hus : List.Forall₂ (fun (i : CTxIn) (u : CTxInUndo) => m.output i.prevout = some u.txout)
      tx.vin us) {nSigOps : Nat} (hcount : nSigOps ≤ MAX_BLOCK_SIGOPS) (fStrict : Bool) :
    Meets (fun _ => True) (env.addP2SHSigOps fStrict tx nSigOps v) fun r =>
      r.1 = nSigOps+(if fStrict then ((tx.vin.zip us).map fun p =>
          if CScript.isPayToScriptHash p.2.txout.scriptPubKey then
            getSigOpCountOf p.2.txout.scriptPubKey p.1.scriptSig else 0).sum else 0) ∧
      r.1 ≤ MAX_BLOCK_SIGOPS := by
  have hlen := sum_scripts_le tx
  have hmax : MAX_BLOCK_SIZE = 1000000 := rfl
  have hops : MAX_BLOCK_SIGOPS = 20000 := rfl
  unfold NodeEnv.addP2SHSigOps
  cases fStrict with
  | false => exact ⟨rfl,hcount⟩
  | true =>
    rw [if_pos rfl,if_pos rfl]
    unfold NodeEnv.getP2SHSigOpCount
    rw [hcb,if_neg Bool.false_ne_true]
    apply (p2shSigOpsFrom_counts hc h hus (by omega)).bind
    rintro ⟨k,v'⟩ ⟨heq,hle⟩
    simp only [Nat.zero_add] at heq hle ⊢
    rw [uint32_eq (by omega)]
    apply (Meets.ensure trivial).bind
    intro _ hlimit
    rw [Bool.not_eq_true',decide_eq_false_iff_not] at hlimit
    refine ⟨?_,Nat.le_of_not_lt hlimit⟩
    simp only
    rw [heq]

theorem checkSpending_counts (hc : CountsScripts env) {s : NodeEnv.ConnectState}
    (hs : s.view.Holds m best) (hcount : s.nSigOps ≤ MAX_BLOCK_SIGOPS) {tx : CTransaction}
    (hsize : tx.getSerializeSize ≤ MAX_BLOCK_SIZE) (hcb : tx.isCoinBase = false) {us : CTxUndo}
    (hus : List.Forall₂ (fun (i : CTxIn) (u : CTxInUndo) => m.output i.prevout = some u.txout)
      tx.vin us) (fScriptChecks fStrict : Bool) (flags : Nat) :
    Meets (fun _ => True) (env.checkSpending fScriptChecks fStrict flags s tx) fun s' =>
      s'.nSigOps = s.nSigOps+(if fStrict then ((tx.vin.zip us).map fun p =>
          if CScript.isPayToScriptHash p.2.txout.scriptPubKey then
            getSigOpCountOf p.2.txout.scriptPubKey p.1.scriptSig else 0).sum else 0) ∧
      s'.nSigOps ≤ MAX_BLOCK_SIGOPS := by
  unfold NodeEnv.checkSpending
  have hhave := ((CCoinsView.holds_readsFrom m best).haveInputs hs hcb).2
  apply (Meets.ensure trivial).bind
  intro _ _
  apply (addP2SHSigOps_counts hc hhave hsize hcb hus hcount fStrict).bind
  rintro ⟨nSigOps,v₁⟩ hcounts
  apply (meets_any _).bind
  rintro ⟨nValueIn,v₂⟩ _
  apply (meets_any _).bind
  intro nValueOut _
  apply (meets_any _).bind
  intro nFee _
  apply (meets_any _).bind
  intro nFees _
  apply (meets_any _).bind
  rintro ⟨vChecks,v₃⟩ _
  exact hcounts

/-- An iteration of the transaction loop counts at least what the inputs add, and keeps the
count within the limit. -/
theorem connectTransaction_counts (hc : CountsScripts env) {s : NodeEnv.ConnectState}
    (hs : s.view.Holds m best) {tx : CTransaction} (hcount : s.nSigOps ≤ MAX_BLOCK_SIGOPS)
    (hsize : tx.getSerializeSize ≤ MAX_BLOCK_SIZE) {us : CTxUndo} {fee : Int} {m' : PlainCoins}
    {nHeight : Nat} (hconn : TxConnected env.getTxHash nHeight m tx us fee m')
    (fScriptChecks fStrict : Bool) (flags : Nat) (first : Bool) :
    Meets (fun _ => True) (env.connectTransaction fScriptChecks fStrict flags nHeight first s tx)
      fun s' => s.nSigOps+spentSigOps fStrict tx us ≤ s'.nSigOps ∧
        s'.nSigOps ≤ MAX_BLOCK_SIGOPS := by
  obtain ⟨hlegacy,hle⟩ := getLegacySigOpCount_eq hc hsize
  have hmax : MAX_BLOCK_SIZE = 1000000 := rfl
  have hops : MAX_BLOCK_SIGOPS = 20000 := rfl
  unfold NodeEnv.connectTransaction
  apply (Meets.ensure trivial).bind
  intro _ hlimit
  rw [uint32_eq (by omega),Bool.not_eq_true',decide_eq_false_iff_not] at hlimit
  rw [uint32_eq (by omega)]
  cases hconn with
  | coinbase hcb =>
    have hzero : spentSigOps fStrict tx [] = 0 := by
      unfold spentSigOps
      rw [List.zip_nil_right]
      rfl
    rw [if_pos hcb,pure_bind,hzero]
    apply (meets_any _).bind
    intro r _
    exact ⟨Nat.le_add_right _ _,Nat.le_of_not_lt hlimit⟩
  | @spending us m₁ hcb hspend _ =>
    rw [if_neg (by rw [hcb]; exact Bool.false_ne_true)]
    apply (checkSpending_counts hc (s := { s with nSigOps := s.nSigOps+_ }) hs (Nat.le_of_not_lt hlimit) hsize hcb
      (spendAll_outputs hspend) fScriptChecks fStrict flags).bind
    rintro s₁ ⟨heq,hle₁⟩
    apply (meets_any _).bind
    rintro ⟨txundo,v'⟩ _
    refine ⟨?_,hle₁⟩
    have hspent := spentSigOps_eq fStrict (PlainCoins.spendAll_length hspend)
    simp only at heq ⊢
    omega

theorem connectTransactions_counts (hc : CountsScripts env) {vtx : List CTransaction}
    {s : NodeEnv.ConnectState} {k nHeight : Nat} (hs : NodeEnv.Accumulated s m best k)
    (htx : ∀ tx ∈ vtx, TxChecked tx)
    (hk : k+(vtx.map fun (tx : CTransaction) => tx.vin.length).sum ≤ 24390)
    (hsize : ∀ tx ∈ vtx, tx.getSerializeSize ≤ MAX_BLOCK_SIZE)
    (hcount : s.nSigOps ≤ MAX_BLOCK_SIGOPS) (fScriptChecks fStrict : Bool) (flags : Nat)
    (first : Bool) :
    Meets NoOverflow (env.connectTransactions fScriptChecks fStrict flags nHeight first s vtx)
      fun s' => ∃ uss : List CTxUndo, s'.nSigOps ≤ MAX_BLOCK_SIGOPS ∧
        s.nSigOps+((vtx.zip uss).map fun p => spentSigOps fStrict p.1 p.2).sum ≤ s'.nSigOps ∧
        s'.vtxundo = s.vtxundo ++ if first then uss.tail else uss := by
  induction vtx generalizing s m k first with
  | nil => exact ⟨[],hcount,Nat.le_refl _,by cases first <;> simp⟩
  | cons tx rest ih =>
    unfold NodeEnv.connectTransactions
    simp only [List.map_cons,List.sum_cons] at hk
    have hmeets : Meets NoOverflow
        (env.connectTransaction fScriptChecks fStrict flags nHeight first s tx) _ :=
      NodeEnv.connectTransaction_meets hs (htx tx List.mem_cons_self) (by omega) fScriptChecks
        fStrict flags first
    cases hstep : env.connectTransaction fScriptChecks fStrict flags nHeight first s tx with
    | error e => exact hmeets.fault hstep
    | ok s₁ =>
      obtain ⟨us,fee,m₁,hconn,hs₁,-,hundo⟩ := hmeets.result hstep
      obtain ⟨hle₁,hmax₁⟩ := (connectTransaction_counts hc hs.view hcount
        (hsize tx List.mem_cons_self) hconn fScriptChecks fStrict flags first).result hstep
      rw [ok_bind]
      apply (ih hs₁ (fun x hx => htx x (List.mem_cons_of_mem tx hx)) (by omega)
        (fun x hx => hsize x (List.mem_cons_of_mem tx hx)) hmax₁ false).mono
      rintro s₂ ⟨uss,hmax₂,hle₂,hundos⟩
      refine ⟨us :: uss,hmax₂,?_,?_⟩
      · rw [List.zip_cons_cons,List.map_cons,List.sum_cons]
        simp only
        omega
      · rw [hundos,hundo]
        cases first <;> simp

theorem checkTransactions_size (vtx : List CTransaction) :
    Meets (fun _ => True) (NodeEnv.checkTransactions vtx) fun _ =>
      ∀ tx ∈ vtx, tx.getSerializeSize ≤ MAX_BLOCK_SIZE := by
  induction vtx with
  | nil => exact fun tx htx => absurd htx List.not_mem_nil
  | cons tx rest ih =>
    unfold NodeEnv.checkTransactions
    apply (checkTransaction_size tx).bind
    intro _ htx
    apply ih.mono
    intro _ hrest x hx
    rcases List.mem_cons.mp hx with rfl | hx
    · exact htx
    · exact hrest x hx

theorem checkBlock_size (block : CBlock) (p q : Bool) :
    Meets (fun _ => True) (env.checkBlock block p q) fun _ =>
      ∀ tx ∈ block.vtx, tx.getSerializeSize ≤ MAX_BLOCK_SIZE := by
  unfold NodeEnv.checkBlock
  apply (meets_any _).bind
  intro _ _
  apply (meets_any _).bind
  intro _ _
  apply (meets_any _).bind
  intro _ _
  apply (meets_any _).bind
  intro _ _
  apply (meets_any _).bind
  intro _ _
  apply (meets_any _).bind
  intro _ _
  apply (checkTransactions_size block.vtx).bind
  intro _ hsize
  exact (meets_any _).mono fun _ _ => hsize

/-- The inputs of an accepted block add at most the limit to its count. -/
theorem connectBlock_counts (hc : CountsScripts env) (h : v.Holds m best) (hm : m.InRange)
    (block : CBlock) (pindex : ConnectIndex) :
    Meets (fun _ => True) (env.connectBlock block pindex v false) fun r =>
      ∀ blockundo, r.2 = some blockundo →
        ((block.vtx.tail.zip blockundo.vtxundo).map fun p =>
          spentSigOps (decide (NodeEnv.nBIP16SwitchTime ≤ pindex.nTime)) p.1 p.2).sum ≤
            MAX_BLOCK_SIGOPS := by
  unfold NodeEnv.connectBlock
  apply (((NodeEnv.checkBlock_meets block _ _).weaken fun _ _ => trivial).and
    (checkBlock_size block _ _)).bind
  rintro _ ⟨hchecked,hsize⟩
  have h₁ := h.getBestBlock
  apply (meets_any _).bind
  intro _ _
  split
  · rw [if_neg Bool.false_ne_true]
    apply (meets_any _).bind
    rintro v' _ U hU
    contradiction
  · apply ((NodeEnv.checkBIP30_meets h₁ block.vtx).weaken fun _ _ => trivial).bind
    rintro v₁ ⟨-,hv₁⟩
    have hacc : NodeEnv.Accumulated ⟨v₁,0,0,[],[]⟩ m best 0 := ⟨hv₁,hm,by simp,by simp⟩
    apply ((connectTransactions_counts hc hacc hchecked.tx (by simpa using hchecked.inputs)
      hsize (Nat.zero_le _) _ _ _ true).weaken fun _ _ => trivial).bind
    rintro s ⟨uss,hmax,hle,hundo⟩
    apply (meets_any _).bind
    intro coinbase _
    apply (meets_any _).bind
    intro nCoinBaseOut _
    apply (meets_any _).bind
    intro _ _
    apply (meets_any _).bind
    intro _ _
    rw [if_neg Bool.false_ne_true]
    apply (meets_any _).bind
    intro _ _
    apply (meets_any _).bind
    intro _ _
    apply (meets_any _).bind
    intro _ _
    apply (meets_any _).bind
    intro _ _
    apply (meets_any _).bind
    rintro v' _ blockundo hU
    obtain rfl := Option.some.inj hU
    have hundo' : s.vtxundo = uss.tail := by simpa using hundo
    simp only [hundo']
    obtain ⟨tx,rest,hvtx,-,-⟩ := hchecked.coinbase
    rw [hvtx] at hle ⊢
    cases uss with
    | nil =>
      rw [List.tail_nil,List.zip_nil_right]
      exact Nat.zero_le _
    | cons us uss =>
      rw [List.zip_cons_cons,List.map_cons,List.sum_cons] at hle
      simp only [List.tail_cons] at hle ⊢
      omega

end Counts

/-- The signatures that are checked for the inputs of a block, each input with a checker of
its own. -/
def blockCalls (senv : CTransaction → Nat → ScriptEnv) (block : CBlock) (blockundo : CBlockUndo) :
    Nat :=
  ((block.vtx.tail.zip blockundo.vtxundo).map fun p =>
    ((p.1.vin.zip p.2).mapIdx fun i q => ScriptM.calls
      ((senv p.1 i).verifyScript q.1.scriptSig q.2.txout.scriptPubKey)).sum).sum

/-- The counts of the scripts that a block spends, which the blocks that created them have
counted. -/
def spentScriptSigOps (block : CBlock) (blockundo : CBlockUndo) : Nat :=
  ((block.vtx.tail.zip blockundo.vtxundo).map fun p =>
    ((p.1.vin.zip p.2).map fun q => getSigOpCount q.2.txout.scriptPubKey true).sum).sum

theorem sum_mapIdx_le {α : Type} {f : Nat → α → Nat} {g h : α → Nat} {l : List α}
    (hle : ∀ i x, f i x ≤ g x+h x) : (l.mapIdx f).sum ≤ (l.map g).sum+(l.map h).sum := by
  induction l generalizing f with
  | nil => exact Nat.le_refl 0
  | cons x l ih =>
    have hx := hle 0 x
    have hl := ih (f := fun i => f (i+1)) fun i y => hle (i+1) y
    rw [List.mapIdx_cons,List.sum_cons,List.map_cons,List.sum_cons,List.map_cons,List.sum_cons]
    omega

theorem blockCalls_le {senv : CTransaction → Nat → ScriptEnv} {fP2SH : Bool}
    (hflags : ∀ tx i, (senv tx i).hasFlag SCRIPT_VERIFY_P2SH = fP2SH) (block : CBlock)
    (blockundo : CBlockUndo) :
    blockCalls senv block blockundo ≤
      ((block.vtx.tail.zip blockundo.vtxundo).map fun p => spentSigOps fP2SH p.1 p.2).sum+
        spentScriptSigOps block blockundo := by
  unfold blockCalls spentScriptSigOps
  generalize block.vtx.tail.zip blockundo.vtxundo = pairs
  induction pairs with
  | nil => exact Nat.le_refl 0
  | cons p pairs ih =>
    have hp : ((p.1.vin.zip p.2).mapIdx fun i q => ScriptM.calls
        ((senv p.1 i).verifyScript q.1.scriptSig q.2.txout.scriptPubKey)).sum ≤
        spentSigOps fP2SH p.1 p.2+
          ((p.1.vin.zip p.2).map fun q => getSigOpCount q.2.txout.scriptPubKey true).sum := by
      refine sum_mapIdx_le fun i q => ?_
      have hcalls : ScriptM.calls ((senv p.1 i).verifyScript q.1.scriptSig
        q.2.txout.scriptPubKey) ≤ _ := verifyScript_calls q.1.scriptSig q.2.txout.scriptPubKey
      have haccurate := sigOpsFrom_accurate_le OP_INVALIDOPCODE q.1.scriptSig
      rw [hflags] at hcalls
      unfold sigOpsOf getSigOpCount at hcalls
      unfold inputSigOps getSigOpCount
      omega
    simp only [List.map_cons,List.sum_cons]
    omega

/-- A dummy, an empty signature and twenty empty keys for OP_CHECKMULTISIG. -/
def emptyKeys : CScript := [0,0,OP_1] ++ (List.replicate 20 0 ++ [1,20,OP_CHECKMULTISIG])

/-- Nine times twenty keys, and a true element at the end. -/
def heavyScript : CScript := (List.replicate 9 emptyKeys).flatten ++ [OP_1]

/-- A checker for these flags that refuses every signature, as the real one does with empty
signatures. -/
def refusingChecker (flags : Nat) : ScriptEnv := ⟨flags,zeroHashes,fun _ _ _ _ => false⟩

/-- The node with the script machine and the counts of the scripts. -/
def scriptsEnv : NodeEnv := { NodeEnv.openEnv with
  getSigOpCount := fun script => getSigOpCount script false
  getP2SHSigOpCountOf := getSigOpCountOf
  verifyScript := fun scriptPubKey tx nIn flags =>
    ((refusingChecker flags).verifyScript ((tx.vin.map CTxIn.scriptSig).getD nIn [])
      scriptPubKey).accepts }

theorem heavyScript_run :
    ((refusingChecker SCRIPT_VERIFY_P2SH).verifyScript [] heavyScript).accepts = true ∧
      ScriptM.calls ((refusingChecker SCRIPT_VERIFY_P2SH).verifyScript [] heavyScript) = 180 := by
  decide +kernel

/-- The same node, with the one script that the block below spends looked up. -/
def lookupEnv : NodeEnv := { scriptsEnv with
  verifyScript := fun scriptPubKey tx nIn flags =>
    if (tx.vin.map CTxIn.scriptSig).getD nIn [] = [] ∧ scriptPubKey = heavyScript ∧
      flags = SCRIPT_VERIFY_P2SH then true
    else scriptsEnv.verifyScript scriptPubKey tx nIn flags }

theorem scriptsEnv_eq_lookupEnv : scriptsEnv = lookupEnv := by
  have hverify : scriptsEnv.verifyScript = lookupEnv.verifyScript := by
    funext scriptPubKey tx nIn flags
    unfold lookupEnv
    simp only
    split
    · rename_i h
      obtain ⟨hsig,rfl,rfl⟩ := h
      unfold scriptsEnv
      simp only [hsig]
      exact heavyScript_run.1
    · rfl
  show { lookupEnv with verifyScript := scriptsEnv.verifyScript } = lookupEnv
  rw [hverify]

def heavyCoins : CCoins := ⟨false,List.replicate 112 ⟨1,heavyScript⟩,1,1⟩

/-- A view with one transaction, number 100, of 112 outputs with the script. -/
def heavyView : UtxoView where
  view := .cache ⟨false,7,∅⟩
    (.db ⟨(∅ : AList fun _ : Uint256 => CCoins).insert 100 heavyCoins,none⟩)
  ok := by
    refine ⟨rfl,fun t e he => by simp at he,?_⟩
    intro t c hc
    by_cases ht : t = 100
    · subst ht
      rw [AList.lookup_insert] at hc
      obtain rfl := Option.some.inj hc
      exact ⟨by decide +kernel,by decide +kernel⟩
    · rw [AList.lookup_insert_ne ht] at hc
      contradiction
  depth := by decide
  valid := by
    intro t c hc
    simp only [CCoinsView.coins,AList.lookup_empty] at hc
    by_cases ht : t = 100
    · subst ht
      rw [AList.lookup_insert,Option.bind_some] at hc
      obtain ⟨rfl,hp⟩ := CCoins.unspent_eq_some.mp hc
      exact ⟨⟨by decide +kernel,by decide +kernel⟩,by decide,hp,by decide +kernel⟩
    · rw [AList.lookup_insert_ne ht] at hc
      contradiction

/-- A coinbase, and a transaction that spends the 112 outputs. -/
def heavyBlock : CBlock where
  toCBlockHeader := CBlockHeader.null
  vtx := [⟨1,[⟨⟨0,4294967295⟩,[0,0],0⟩],[⟨420000000,[]⟩],0⟩,
    ⟨1,(List.range 112).map fun i => ⟨⟨100,i⟩,[],0⟩,[⟨10,[]⟩],1⟩]

def heavyIndex : ConnectIndex where
  hashBlock := 8
  pprev := some 7
  nHeight := 2
  nTime := 1400000000
  hasUndoPos := false
  hash_ne := NodeEnv.nextBlock_hash_ne
  prev_ne := NodeEnv.nextBlock_prev_ne
  prev_some := NodeEnv.nextBlock_prev_some

/-- The scripts that are verified for the inputs of a block. -/
def inputScripts (block : CBlock) (blockundo : CBlockUndo) : List (List (CScript × CScript)) :=
  (block.vtx.tail.zip blockundo.vtxundo).map fun p =>
    (p.1.vin.zip p.2).map fun q => (q.1.scriptSig,q.2.txout.scriptPubKey)

theorem mapIdx_ignore {α β : Type} (f : α → β) (l : List α) :
    (l.mapIdx fun _ x => f x) = l.map f := by
  induction l with
  | nil => rfl
  | cons x l ih => rw [List.mapIdx_cons,List.map_cons,ih]

theorem blockCalls_const (senv : ScriptEnv) (block : CBlock) (blockundo : CBlockUndo) :
    blockCalls (fun _ _ => senv) block blockundo =
      ((inputScripts block blockundo).map fun l =>
        (l.map fun q => ScriptM.calls (senv.verifyScript q.1 q.2)).sum).sum := by
  unfold blockCalls inputScripts
  rw [List.map_map]
  refine congrArg List.sum (List.map_congr_left fun p _ => ?_)
  rw [mapIdx_ignore fun (q : CTxIn × CTxInUndo) => ScriptM.calls
    (senv.verifyScript q.1.scriptSig q.2.txout.scriptPubKey)]
  simp only [Function.comp_apply,List.map_map]
  rfl

theorem heavyBlock_scripts :
    (match lookupEnv.connectBlock heavyBlock heavyIndex heavyView.view false with
    | .ok (_,some blockundo) =>
        decide (inputScripts heavyBlock blockundo = [List.replicate 112 ([],heavyScript)])
    | _ => false) = true := by
  decide +kernel

end Anoncoin
