import Anoncoin.InputChecks
import Anoncoin.MempoolAccept

/-!
The sums of what transactions spend, and their fees, in `GetValueIn`, `AcceptToMemoryPool` and
`ConnectBlock`.
-/

set_option autoImplicit false

namespace Anoncoin
open Lib

def InInt64 (n : Int) : Prop := -2^63 ≤ n ∧ n < 2^63

theorem inInt64_of_moneyRange {n : Int} (h : moneyRange n = true) : InInt64 n := by
  rw [moneyRange_iff] at h
  simp only [MAX_MONEY,COIN] at h
  exact ⟨by omega,by omega⟩

/-- The size limit of `CheckTransaction` is one on the number of inputs. -/
theorem checkTransaction_inputs (tx : CTransaction) :
    Meets NoOverflow (checkTransaction tx) fun _ => tx.vin.length ≤ 24390 := by
  apply ((checkTransaction_meets tx).and (checkTransaction_size tx)).mono
  rintro _ ⟨-,hsize⟩
  have hinputs := tx.inputs_le_size
  simp only [MAX_BLOCK_SIZE] at hsize
  omega

namespace CCoinsView

/-- What a view answers. Spent records count as absent. -/
def answers (v : CCoinsView) : PlainCoins := fun t => (v.getCoins t).1.bind CCoins.unspent

/-- The exact sum of what the inputs spend. -/
def exactValueIn (v : CCoinsView) (tx : CTransaction) : Int :=
  if tx.isCoinBase then 0 else v.answers.inputValue tx.vin

theorem getCoins_getBestBlock (v : CCoinsView) (t : Uint256) :
    (v.getBestBlock.2.getCoins t).1 = (v.getCoins t).1 := by
  induction v with
  | db d => rfl
  | cache l base ih =>
    unfold getBestBlock
    split
    · rw [getCoins_cache_fst,getCoins_cache_fst,ih]
    · rfl

theorem getBestBlock_getBestBlock (v : CCoinsView) :
    v.getBestBlock.2.getBestBlock.1 = v.getBestBlock.1 := by
  induction v with
  | db d => rfl
  | cache l base ih =>
    simp only [getBestBlock]
    split
    · simp only [getBestBlock]
      split
      · exact ih
      · rfl
    · next hown => simp only [getBestBlock,if_neg hown]

/-- Every view goes on answering as it did when it is read, whatever its caches hold. -/
theorem readsFrom_answers (v : CCoinsView) :
    ReadsFrom (fun w => (∀ t, (w.getCoins t).1 = (v.getCoins t).1) ∧
      w.getBestBlock.1 = v.getBestBlock.1) v.answers v.getBestBlock.1 where
  access w t h := by
    refine ⟨by rw [accessCoins,h.1,answers],fun s => ?_,?_⟩
    · rw [accessCoins,getCoins_getCoins,h.1]
    · rw [accessCoins,getBestBlock_getCoins,h.2]
  best w h := by
    refine ⟨h.2,fun t => ?_,?_⟩
    · rw [getCoins_getBestBlock,h.1]
    · rw [getBestBlock_getBestBlock,h.2]

theorem answers_eq_coins {v : CCoinsView} (h : v.Ok) : v.answers = v.coins :=
  funext fun t => (getCoins_spec h t).1

variable {v : CCoinsView} {tx : CTransaction}

/-- `GetValueIn` finds the exact sum, unless its assertion fails on an input that is missing. -/
theorem getValueIn_exact (hm : v.answers.InRange) (hvin : tx.vin.length ≤ 24390) :
    Meets (fun e => e = .assertion ∧ ∃ txin ∈ tx.vin, v.answers.output txin.prevout = none)
      (v.getValueIn tx) fun r => r.1 = v.exactValueIn tx ∧ InInt64 r.1 := by
  unfold getValueIn exactValueIn
  split
  · exact ⟨rfl,by simp [InInt64]⟩
  · apply (valueInFrom_meets (readsFrom_answers v) ⟨fun _ => rfl,rfl⟩ hm (n := 0) (k := 0)
      (by omega) (by simp) (by omega)).mono
    rintro r ⟨-,hval,h₀,hle,-⟩
    simp only [MAX_MONEY,COIN] at hle
    push_cast at hle
    exact ⟨by omega,by omega,by omega⟩

end CCoinsView

namespace CTxMemPool
variable {pool : CTxMemPool} {tip : CCoinsView} {view : CCoinsMap}

/-- What the pool answers over the tip. -/
def answers (pool : CTxMemPool) (tip : CCoinsView) : PlainCoins :=
  fun t => (pool.getCoins tip t).bind CCoins.unspent

theorem haveParents_mirrors (hv : pool.Mirrors tip view) (vin : List CTxIn) :
    pool.Mirrors tip (pool.haveParents tip view vin).2 := by
  induction vin generalizing view with
  | nil => exact hv
  | cons txin rest ih =>
    have hv' := (haveCoins_spec hv txin.prevout.hash).2
    unfold haveParents
    cases hc : pool.haveCoins tip view txin.prevout.hash with
    | mk found view' =>
    rw [hc] at hv'
    cases found with
    | false => exact hv'
    | true => exact ih hv'

/-- The outputs that the detached view finds are those that the pool finds. -/
theorem Mirrors.output (hv : pool.Mirrors tip view) {out : COutPoint} {o : CTxOut}
    (h : (detachedView tip view).answers.output out = some o) :
    (pool.answers tip).output out = some o := by
  obtain ⟨c,hc,ho⟩ := Option.bind_eq_some_iff.mp h
  rw [CCoinsView.answers,detachedView,CCoinsView.getCoins_cache_fst] at hc
  cases hl : view.lookup out.hash with
  | none =>
    rw [hl] at hc
    simp [CCoinsView.getCoins] at hc
  | some e =>
    rw [hl] at hc
    rw [PlainCoins.output,answers,hv _ e hl,Option.bind_some]
    exact Option.bind_eq_some_iff.mpr ⟨c,hc,ho⟩

theorem Mirrors.inRange (hv : pool.Mirrors tip view) (hm : (pool.answers tip).InRange) :
    (detachedView tip view).answers.InRange := fun out o h => hm out o (hv.output h)

/-- What is spent of the detached view is worth what it is in the pool. -/
theorem Mirrors.inputValue (hv : pool.Mirrors tip view) {vin : List CTxIn}
    (h : ∀ txin ∈ vin, (detachedView tip view).answers.output txin.prevout ≠ none) :
    (pool.answers tip).inputValue vin = (detachedView tip view).answers.inputValue vin := by
  refine PlainCoins.inputValue_congr fun txin hin => ?_
  obtain ⟨o,ho⟩ := Option.ne_none_iff_exists'.mp (h txin hin)
  rw [ho,hv.output ho]

end CTxMemPool

namespace NodeEnv
variable {env : NodeEnv} {policy : RelayPolicy}

theorem checkLoose_meets (policy : RelayPolicy) (tx : CTransaction) :
    Meets NoOverflow (policy.checkLoose tx) fun _ =>
      tx.vin.length ≤ 24390 ∧ tx.isCoinBase = false := by
  unfold RelayPolicy.checkLoose
  apply (checkTransaction_inputs tx).bind
  intro _ hvin
  apply (Meets.ensure (by simp [NoOverflow])).bind
  intro _ hcb
  exact (rejectWith_meets _).mono fun _ _ => ⟨hvin,by simpa using hcb⟩

/-- The fee of an entry is the exact difference of two exact sums. -/
theorem checkFunded_meets {call : Nat} {v : CCoinsView} {tx : CTransaction}
    (hm : v.answers.InRange) (hvin : tx.vin.length ≤ 24390) (hcb : tx.isCoinBase = false) :
    Meets NoOverflow (env.checkFunded policy call tx v) fun entry =>
      (∀ txin ∈ tx.vin, v.answers.output txin.prevout ≠ none) ∧
        entry.nFee = v.answers.inputValue tx.vin-sumValue tx.vout ∧ moneyRange entry.nFee = true ∧
        moneyRange (v.answers.inputValue tx.vin) = true := by
  have hreads := CCoinsView.readsFrom_answers v
  unfold checkFunded
  have h₁ := (hreads.haveInputs ⟨fun _ => rfl,rfl⟩ hcb).2
  apply (Meets.ensure (by simp [NoOverflow])).bind
  intro _ _
  simp only [CCoinsView.getValueIn,hcb,Bool.false_eq_true,if_false]
  apply ((CCoinsView.valueInFrom_meets hreads h₁ hm (n := 0) (k := 0) (by omega) (by simp)
    (by omega)).weaken fun e he => by simp [he.1,NoOverflow]).bind
  rintro ⟨nValueIn,v₂⟩ ⟨hall,hval,h₀,hle,h₂⟩
  simp only [Int.zero_add] at hval
  apply (Meets.ensure (by simp [NoOverflow])).bind
  intro _ _
  apply (getP2SHSigOpCount_meets hreads h₂ tx).bind
  rintro ⟨nP2SH,v₃⟩ h₃
  apply (Meets.ensure (by simp [NoOverflow])).bind
  intro _ _
  apply (Meets.orThrow (by simp [NoOverflow])).bind
  intro nValueOut hout
  have hvout := CTransaction.getValueOut_eq hout
  have hrange := (moneyRange_iff _).mp (CTransaction.getValueOut_range hout)
  simp only [MAX_MONEY,COIN] at hle hrange
  push_cast at hle
  apply (addInt64_meets (a := nValueIn) (b := -nValueOut) (by omega) (by omega)).bind
  rintro _ rfl
  apply (rejectWith_meets _).bind
  intro _ _
  apply (checkInputs_meets hreads h₃ hm hcb true _).bind
  rintro ⟨_,v₄⟩ ⟨hpay,hin,h₄⟩
  apply (checkInputs_meets hreads h₄ hm hcb true _).bind
  rintro _ -
  have hin' := (moneyRange_iff _).mp hin
  simp only [MAX_MONEY,COIN] at hin'
  refine ⟨hall,?_,?_,hin⟩
  · simp only
    omega
  · rw [moneyRange_iff]
    simp only [MAX_MONEY,COIN]
    omega

/-- The fee of what `AcceptToMemoryPool` takes into the pool. -/
theorem acceptToMemoryPool_fee {pool : CTxMemPool} {tip : CCoinsView} (call : Nat)
    (tx : CTransaction) (hm : (pool.answers tip).InRange) :
    Meets (fun e => e ≠ .failed .overflow) (env.acceptToMemoryPool policy pool tip call tx)
      fun entry => entry.nFee = (pool.answers tip).inputValue tx.vin-sumValue tx.vout ∧
        InInt64 entry.nFee ∧ InInt64 ((pool.answers tip).inputValue tx.vin) := by
  unfold acceptToMemoryPool
  apply ((checkLoose_meets policy tx).mapError fun e he => by simpa [NoOverflow] using he).bind
  rintro _ ⟨hvin,hcb⟩
  apply (Meets.ensure (by simp)).bind
  intro _ _
  apply (Meets.ensure (by simp)).bind
  intro _ _
  apply (Meets.ensure (by simp)).bind
  intro _ _
  apply (Meets.ensure (by simp)).bind
  intro _ _
  have hmirror : pool.Mirrors tip ∅ := fun h e he => by simp at he
  have hview := CTxMemPool.haveParents_mirrors
    (CTxMemPool.haveCoins_spec hmirror (env.getTxHash tx)).2 tx.vin
  apply ((checkFunded_meets (hview.inRange hm) hvin hcb).mapError fun e he => by
    simpa [NoOverflow] using he).mono
  rintro entry ⟨hall,hfee,hrange,hin⟩
  rw [hview.inputValue hall]
  exact ⟨hfee,inInt64_of_moneyRange hrange,inInt64_of_moneyRange hin⟩

/-- The loop of `ConnectBlock` over the transactions of a checked block. -/
theorem connectTransactions_fees {v : CCoinsView} (hv : v.Ok) (hd : 0 < v.depth)
    (hm : v.answers.InRange) {block : CBlock} {p q : Bool}
    (hcheck : env.checkBlock block p q = .ok ()) (fScriptChecks fStrict : Bool)
    (flags nHeight : Nat) :
    Meets NoOverflow (env.connectTransactions fScriptChecks fStrict flags nHeight true
      ⟨v,0,0,[],[]⟩ block.vtx) fun s =>
        ∃ uss m', TxsConnected env.getTxHash nHeight v.answers block.vtx uss s.nFees m' ∧
          InInt64 s.nFees := by
  have hchecked := (checkBlock_meets block p q).result hcheck
  have hinputs := hchecked.inputs
  have hholds : v.Holds v.answers v.getBestBlock.1 :=
    ⟨hv,hd,(CCoinsView.answers_eq_coins hv).symm,rfl⟩
  apply (connectTransactions_meets (s := ⟨v,0,0,[],[]⟩) (k := 0) ⟨hholds,hm,by simp,by simp⟩
    hchecked.tx (by omega) fScriptChecks fStrict flags true).mono
  rintro s ⟨uss,fees,m',hrun,hacc,hfees,-⟩
  rw [Int.zero_add] at hfees
  have h₀ := hacc.fees_nonneg
  have hle := hacc.fees_le
  rw [Nat.zero_add] at hle
  simp only [MAX_MONEY,COIN] at hle
  exact ⟨uss,m',by rw [hfees]; exact hrun,by omega,by omega⟩

end NodeEnv

/-- Neither `GetValueIn` nor the fees of `AcceptToMemoryPool` and `ConnectBlock` leave the 64
bits, and all of them are exact, when no output of the view is out of the money range. -/
theorem input_sums_exact :
    (∀ (v : CCoinsView) (tx : CTransaction), v.answers.InRange → checkTransaction tx = .ok () →
      Meets (fun e => e = .assertion ∧ ∃ txin ∈ tx.vin, v.answers.output txin.prevout = none)
        (v.getValueIn tx) fun r => r.1 = v.exactValueIn tx ∧ InInt64 r.1) ∧
    (∀ (env : NodeEnv) (policy : RelayPolicy) (pool : CTxMemPool) (tip : CCoinsView) (call : Nat)
      (tx : CTransaction), (pool.answers tip).InRange →
      Meets (fun e => e ≠ .failed .overflow) (env.acceptToMemoryPool policy pool tip call tx)
        fun entry => entry.nFee = (pool.answers tip).inputValue tx.vin-sumValue tx.vout ∧
          InInt64 entry.nFee ∧ InInt64 ((pool.answers tip).inputValue tx.vin)) ∧
    ∀ (env : NodeEnv) (v : CCoinsView), v.Ok → 0 < v.depth → v.answers.InRange →
      ∀ (block : CBlock) (pindex : ConnectIndex) (fJustCheck : Bool),
      env.connectBlock block pindex v fJustCheck ≠ .error .overflow ∧
      ∀ (p q fScriptChecks fStrict : Bool) (flags : Nat), env.checkBlock block p q = .ok () →
        Meets NoOverflow (env.connectTransactions fScriptChecks fStrict flags pindex.nHeight true
          ⟨v,0,0,[],[]⟩ block.vtx) fun s =>
            ∃ uss m', TxsConnected env.getTxHash pindex.nHeight v.answers block.vtx uss s.nFees m' ∧
              InInt64 s.nFees := by
  refine ⟨fun v tx hm hcheck => ?_,fun env policy pool tip call tx hm => ?_,
    fun env v hv hd hm block pindex fJustCheck => ⟨fun hover => ?_,?_⟩⟩
  · exact CCoinsView.getValueIn_exact hm ((checkTransaction_inputs tx).result hcheck)
  · exact NodeEnv.acceptToMemoryPool_fee call tx hm
  · have hholds : v.Holds v.answers v.getBestBlock.1 :=
      ⟨hv,hd,(CCoinsView.answers_eq_coins hv).symm,rfl⟩
    exact (NodeEnv.connectBlock_meets hholds hm block pindex fJustCheck).fault hover rfl
  · intro p q fScriptChecks fStrict flags hcheck
    exact NodeEnv.connectTransactions_fees hv hd hm hcheck fScriptChecks fStrict flags _

end Anoncoin
