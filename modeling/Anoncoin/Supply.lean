import Anoncoin.ConnectSpec

/-!
The money supply: connecting blocks never creates more than the subsidies.
-/

set_option autoImplicit false

namespace Anoncoin
open Lib

theorem getBlockValue_fees (nHeight : Nat) (nFees : Int) :
    getBlockValue nHeight nFees = getBlockValue nHeight 0+nFees := by
  simp only [getBlockValue]
  omega

/-- Adding the record of a transaction adds at most the value of its outputs. -/
theorem addTx_total_le {m : PlainCoins} (hm : m.Valid) {tx : CTransaction} (htx : TxChecked tx)
    (nHeight : Nat) (t : Uint256) :
    PlainCoins.total (Function.update m t (CCoins.fromTx tx nHeight).unspent) ≤
      PlainCoins.total m+sumValue tx.vout := by
  have hup := PlainCoins.total_update m t (CCoins.fromTx tx nHeight).unspent
  rw [PlainCoins.unspent_value] at hup
  have hle := CCoins.fromTx_value_le
    (fun o ho => ((moneyRange_iff _).mp (htx.range o ho)).1) nHeight
  have hold : 0 ≤ ((m t).map CCoins.value).getD 0 := by
    cases hc : m t with
    | none => simp
    | some c => exact CCoins.value_nonneg (hm t c hc).range
  omega

theorem TxConnected.total_le {hash : CTransaction → Uint256} {nHeight : Nat} {m m' : PlainCoins}
    {tx : CTransaction} {us : CTxUndo} {fee : Int} (h : TxConnected hash nHeight m tx us fee m')
    (hm : m.Valid) (htx : TxChecked tx) :
    PlainCoins.total m'+fee ≤
      PlainCoins.total m+if tx.isCoinBase then sumValue tx.vout else 0 := by
  cases h with
  | coinbase hcb =>
    have hadd := addTx_total_le hm htx nHeight (hash tx)
    rw [if_pos hcb]
    omega
  | spending hcb hs hpay =>
    have hadd := addTx_total_le (PlainCoins.spendAll_valid hm hs) htx nHeight (hash tx)
    have hspent := PlainCoins.spendAll_total hs
    simp only [hcb,Bool.false_eq_true,if_false]
    omega

/-- Transactions that are not coinbases turn the fees they leave into missing value. -/
theorem TxsConnected.total_le {hash : CTransaction → Uint256} {nHeight : Nat}
    {m m' : PlainCoins} {vtx : List CTransaction} {uss : List CTxUndo} {fees : Int}
    (h : TxsConnected hash nHeight m vtx uss fees m') (hm : m.Valid)
    (htx : ∀ tx ∈ vtx, TxChecked tx) (hh : nHeight ≠ 0) :
    PlainCoins.total m'+fees ≤ PlainCoins.total m+
      (vtx.map fun (tx : CTransaction) => if tx.isCoinBase then sumValue tx.vout else 0).sum := by
  induction h with
  | nil => simp
  | cons htx₁ hrest ih =>
    have hfirst := htx₁.total_le hm (htx _ (by simp))
    have hlater := ih (htx₁.valid hm (htx _ (by simp)) hh) fun x hx => htx x (by simp [hx])
    simp only [List.map_cons,List.sum_cons]
    omega

/-- A block adds at most its subsidy. -/
theorem NodeEnv.BlockConnected.total_le {env : NodeEnv} {block : CBlock} {nHeight : Nat}
    {m m' : PlainCoins} {blockundo : CBlockUndo}
    (h : env.BlockConnected block nHeight m blockundo m') (hm : m.Valid) (hh : nHeight ≠ 0) :
    PlainCoins.total m' ≤ PlainCoins.total m+getBlockValue nHeight 0 := by
  obtain ⟨uss,fees,hrun,-,hpaid⟩ := h.run
  obtain ⟨tx,rest,hvtx,hcb,hothers⟩ := h.checked.coinbase
  have hall := hrun.total_le hm h.checked.tx hh
  have hrest : (rest.map fun (tx : CTransaction) =>
      if tx.isCoinBase then sumValue tx.vout else 0).sum = 0 := by
    rw [List.map_congr_left (g := fun _ => 0) (fun x hx => by simp [hothers x hx])]
    simp
  rw [hvtx,List.map_cons,List.sum_cons,hrest,if_pos hcb] at hall
  have hpay := hpaid tx (by simp [hvtx])
  rw [getBlockValue_fees] at hpay
  omega

namespace NodeEnv
variable {env : NodeEnv}

/-- Connect blocks one after the other on the same view. -/
def connectChain (env : NodeEnv) : CCoinsView → List (CBlock × ConnectIndex) →
    Validation CCoinsView
  | v, [] => pure v
  | v, (block,pindex) :: rest => do
      let r ← env.connectBlock block pindex v false
      connectChain env r.1 rest

/-- The subsidies of the `n` heights after `h`. -/
def subsidies (h : Nat) : Nat → Int
  | 0 => 0
  | n+1 => getBlockValue (h+1) 0+subsidies (h+1) n

theorem subsidies_eq_sum (h n : Nat) :
    subsidies h n = ∑ i ∈ Finset.range n, getBlockValue (h+i+1) 0 := by
  induction n generalizing h with
  | zero => rfl
  | succ n ih =>
    rw [subsidies,ih,Finset.sum_range_succ',add_comm]
    congr 1
    apply Finset.sum_congr rfl
    intro i _
    congr 1
    omega

theorem getBlockValue_nonneg (h : Nat) : 0 ≤ getBlockValue h 0 := by
  unfold getBlockValue
  simp only [COIN,Int.add_zero]
  split
  · decide
  · split
    · decide
    · split
      · decide
      · rw [Int.shiftRight_eq_div_pow]
        apply Int.ediv_nonneg
        · decide
        · exact Int.natCast_nonneg _

/-- Whole chains, from any height on: by induction on the blocks. -/
theorem connectChain_meets {blocks : List (CBlock × ConnectIndex)} {v : CCoinsView}
    {m : PlainCoins} {best : Uint256} (hv : v.Holds m best) (hm : m.Valid) {h : Nat}
    (hheight : ∀ i b, blocks[i]? = some b → b.2.nHeight = h+i+1) :
    Meets NoOverflow (env.connectChain v blocks) fun v' =>
      PlainCoins.total v'.coins ≤ PlainCoins.total m+subsidies h blocks.length := by
  induction blocks generalizing v m best h with
  | nil =>
    refine meets_pure.mpr ?_
    rw [hv.coins]
    simp [subsidies]
  | cons b rest ih =>
    obtain ⟨block,pindex⟩ := b
    have hhere : pindex.nHeight = h+1 := hheight 0 _ rfl
    have hnext : ∀ i b, rest[i]? = some b → b.2.nHeight = h+1+i+1 := by
      intro i b hb
      have hi := hheight (i+1) b (by simpa using hb)
      omega
    unfold connectChain
    apply (connectBlock_meets hv hm.inRange block pindex false).bind
    rintro ⟨v₁,undo⟩ ⟨hgenesis,hblock⟩
    cases undo with
    | none =>
      apply (ih (hgenesis rfl rfl) hm hnext).mono
      intro v' hle
      have hpos := getBlockValue_nonneg (h+1)
      simp only [List.length_cons,subsidies]
      omega
    | some blockundo =>
      obtain ⟨-,m₁,hconn,hv₁⟩ := hblock blockundo rfl
      apply (ih hv₁ (hconn.valid hm (by omega)) hnext).mono
      intro v' hle
      have hadd := hconn.total_le hm (by omega)
      rw [hhere] at hadd
      simp only [List.length_cons,subsidies]
      omega

/-- No inflation: after any blocks connected at heights 1 to n on a view without
coins, the unspent outputs are worth at most the subsidies of these heights, and no
accumulation of fees or input values has left the 64-bit range. -/
theorem no_inflation {v : CCoinsView} {best : Uint256} (hv : v.Holds (fun _ => none) best)
    {blocks : List (CBlock × ConnectIndex)}
    (hheight : ∀ i b, blocks[i]? = some b → b.2.nHeight = i+1) :
    env.connectChain v blocks ≠ .error .overflow ∧
    ∀ v', env.connectChain v blocks = .ok v' →
      PlainCoins.total v'.coins ≤ ∑ h ∈ Finset.range blocks.length, getBlockValue (h+1) 0 := by
  have hempty : PlainCoins.Valid fun _ => none := fun t c hc => by contradiction
  have hall : Meets NoOverflow (env.connectChain v blocks) fun v' => PlainCoins.total v'.coins ≤
      PlainCoins.total (fun _ => none)+subsidies 0 blocks.length :=
    connectChain_meets hv hempty (by simpa using hheight)
  refine ⟨fun herr => hall.fault herr rfl,?_⟩
  intro v' hok
  have hle := hall.result hok
  rw [subsidies_eq_sum] at hle
  simpa [PlainCoins.total] using hle

/-- A view without coins whose best block is number `best`. -/
def emptyView (best : Uint256) : CCoinsView := .cache ⟨false,best,∅⟩ (.db ⟨∅,none⟩)

theorem emptyView_holds {best : Uint256} (h : best ≠ 0) :
    (emptyView best).Holds (fun _ => none) best := by
  refine ⟨⟨rfl,fun t e he => by simp at he,fun t c hc => by simp at hc⟩,Nat.zero_lt_one,rfl,?_⟩
  simp only [emptyView,CCoinsView.getBestBlock,if_neg h]

def rewardBlock : CBlock where
  toCBlockHeader := CBlockHeader.null
  vtx := [⟨1,[⟨⟨0,4294967295⟩,[0,0],0⟩],[⟨420000000,[]⟩],0⟩]

def rewardIndex : ConnectIndex where
  hashBlock := 8
  pprev := some 7
  nHeight := 1
  nTime := 0
  hasUndoPos := false
  hash_ne := nextBlock_hash_ne
  prev_ne := nextBlock_prev_ne
  prev_some := by decide

theorem no_inflation_rewardBlock :
    (openEnv.connectChain (emptyView 7) [(rewardBlock,rewardIndex)]).toBool = true ∧
    (openEnv.connectChain (emptyView 7) [(rewardBlock,rewardIndex)] ≠ .error .overflow ∧
    ∀ v', openEnv.connectChain (emptyView 7) [(rewardBlock,rewardIndex)] = .ok v' →
      PlainCoins.total v'.coins ≤
        ∑ h ∈ Finset.range [(rewardBlock,rewardIndex)].length, getBlockValue (h+1) 0) := by
  refine ⟨by decide,no_inflation (emptyView_holds (by decide)) ?_⟩
  intro i b hb
  cases i with
  | zero =>
    obtain rfl := Option.some.inj hb
    rfl
  | succ i => simp at hb

end NodeEnv

end Anoncoin
