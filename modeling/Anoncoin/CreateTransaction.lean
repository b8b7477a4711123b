import Mathlib.Data.Finset.Sort
import Mathlib.Order.Lattice.Nat
import Anoncoin.CoinSelection
import Anoncoin.Standard
set_option autoImplicit false

/-!
CWallet::CreateTransaction with the functions it calls: AvailableCoins, SelectCoins, IsDust and
GetMinFee.  Sums of CAmounts that nothing bounds are taken modulo 2^64.
-/

namespace Anoncoin

def toAmount (n : Int) : Int := n.bmod (2^64)

/-- The fee settings.  ParseMoney reads at most ten digits of whole coins. -/
structure FeeSettings where
  nTransactionFee : Int
  nMinTxFee : Int
  nMinRelayTxFee : Int
  minRelayTxFee : Int
  transactionFee_range : 0 ≤ nTransactionFee ∧ nTransactionFee < 10^18
  minTxFee_range : 0 ≤ nMinTxFee ∧ nMinTxFee < 10^18
  minRelayTxFee_range : 0 < minRelayTxFee ∧ minRelayTxFee < 10^18

/-- `CFeeRate::GetFee`: the product is one of size_t. -/
def getFee (nSatoshisPerK : Int) (nSize : Nat) : Int :=
  let nFee := nSatoshisPerK*nSize%2^64/1000
  if nFee = 0 ∧ 0 < nSatoshisPerK then nSatoshisPerK else nFee

def CTxOut.isDust (txout : CTxOut) (minRelayTxFee : Int) : Bool :=
  decide (txout.nValue < 3*getFee minRelayTxFee (txout.getSerializeSize+148))

inductive GetMinFeeMode where
  | relay
  | send
  deriving DecidableEq, Repr

def DUST_SOFT_LIMIT : Int := 1000000

def MAX_BLOCK_SIZE_GEN : Nat := MAX_BLOCK_SIZE/4

def DEFAULT_BLOCK_PRIORITY_SIZE : Nat := 27000

def getMinFee (fees : FeeSettings) (tx : CTransaction) (nBytes : Nat) (fAllowFree : Bool)
    (mode : GetMinFeeMode) : Int :=
  let nBaseFee := if mode = .relay then fees.nMinRelayTxFee else fees.nMinTxFee
  let nMinFee := toAmount ((1+nBytes/1000 : Nat)*nBaseFee)
  let nMinFee :=
    if fAllowFree = true ∧ nBytes < (if mode = .send then 5000 else DEFAULT_BLOCK_PRIORITY_SIZE-1000)
    then 0 else nMinFee
  let nMinFee := tx.vout.foldl
    (fun nMinFee txout => if txout.nValue < DUST_SOFT_LIMIT then amountAdd nMinFee nBaseFee else nMinFee)
    nMinFee
  let nNewBlockSize := 1000+nBytes
  if mode = .relay ∧ MAX_BLOCK_SIZE_GEN ≤ nNewBlockSize then MAX_MONEY
  else
    let nMinFee :=
      if mode = .relay ∧ MAX_BLOCK_SIZE_GEN/2 ≤ nNewBlockSize then
        toAmount (nMinFee*(MAX_BLOCK_SIZE_GEN/(MAX_BLOCK_SIZE_GEN-nNewBlockSize) : Nat))
      else nMinFee
    if moneyRange nMinFee then nMinFee else MAX_MONEY

structure CCoinControl where
  destChange : CTxDestination
  setSelected : List COutPoint

def CCoinControl.hasSelected (coinControl : CCoinControl) : Bool := !coinControl.setSelected.isEmpty

def CCoinControl.isSelected (coinControl : CCoinControl) (hash : Uint256) (n : Nat) : Bool :=
  coinControl.setSelected.contains ⟨hash,n⟩

/-- `CScript::SetDestination`. -/
def setDestination : CTxDestination → CScript
  | .noDestination => []
  | .keyID id => [OP_DUP,OP_HASH160] ++ pushData (littleEndian 20 id.toNat) ++ [OP_EQUALVERIFY,OP_CHECKSIG]
  | .scriptID id => [OP_HASH160] ++ pushData (littleEndian 20 id.toNat) ++ [OP_EQUAL]

/-- The wallet as the creation of a transaction sees it: its transactions by pointer in the order
of the map, with what the other functions say of them. -/
structure WalletView (Ptr : Type) extends WalletTxs Ptr where
  mapWallet : List Ptr
  nodup : mapWallet.Nodup
  getHash : Ptr → Uint256
  isFinalTx : Ptr → Bool
  isTrusted : Ptr → Bool
  isImmature : Ptr → Bool
  depth : Ptr → Int
  isMine : CTxOut → IsMineType
  isSpent : Ptr → Nat → Bool
  isLockedCoin : Ptr → Nat → Bool
  bSpendZeroConfChange : Bool
  signSignature : Ptr × Nat → CTransaction → Nat → Option CScript
  allowFree : List (Ptr × Nat) → CTransaction → Nat → Bool
  reservedKey : Nat → Option CKeyID

section
variable {Ptr : Type}

namespace WalletView
variable (view : WalletView Ptr)

def skips (fOnlyConfirmed : Bool) (p : Ptr) : Bool :=
  !view.isFinalTx p || (fOnlyConfirmed && !view.isTrusted p) || view.isImmature p ||
    decide (view.depth p < 0)

def available (coinControl : Option CCoinControl) (p : Ptr) (txout : CTxOut) (i : Nat) : Bool :=
  !view.isSpent p i && decide (view.isMine txout ≠ .no) && !view.isLockedCoin p i &&
    decide (0 < txout.nValue) &&
    match coinControl with
    | none => true
    | some coinControl => !coinControl.hasSelected || coinControl.isSelected (view.getHash p) i

def outputsOf (coinControl : Option CCoinControl) (p : Ptr) : List (COutput Ptr) :=
  ((view.vout p).zipIdx.filter fun out => view.available coinControl p out.1 out.2).map fun out =>
    ⟨p,out.2,view.depth p,decide (view.isMine out.1 = .spendable)⟩

def availableCoins (fOnlyConfirmed : Bool) (coinControl : Option CCoinControl) :
    List (COutput Ptr) :=
  (view.mapWallet.filter fun p => !view.skips fOnlyConfirmed p).flatMap (view.outputsOf coinControl)

end WalletView

/-- The outcomes of one round: of the selections, of the order of the set of pointers, and of the
position of the change. -/
structure RoundChance (Ptr : Type) where
  select : Nat → Chance Ptr
  iterate : Finset (Ptr × Nat) → List (Ptr × Nat)
  iterate_nodup : ∀ s, (iterate s).Nodup
  mem_iterate : ∀ s k, k ∈ iterate s ↔ k ∈ s
  position : Nat → Nat
  position_le : ∀ n, position n ≤ n

section
variable [DecidableEq Ptr]

/-- Coin control takes all that was selected, else the rules for confirmations weaken in turn. -/
def selectCoins (view : WalletView Ptr) (chance : Nat → Chance Ptr) (nTargetValue : Int)
    (coinControl : Option CCoinControl) : Selection Ptr :=
  let vCoins := view.availableCoins true coinControl
  if (coinControl.map CCoinControl.hasSelected).getD false then
    let r := Selection.of ((vCoins.filter COutput.fSpendable).map view.coin)
    { r with fResult := decide (nTargetValue ≤ r.nValueRet) }
  else
    let r := selectCoinsMinConf view.toWalletTxs (chance 0) nTargetValue 1 6 vCoins
    if r.fResult then r
    else
      let r := selectCoinsMinConf view.toWalletTxs (chance 1) nTargetValue 1 1 vCoins
      if r.fResult then r
      else if view.bSpendZeroConfChange then
        selectCoinsMinConf view.toWalletTxs (chance 2) nTargetValue 0 1 vCoins
      else r

end

inductive CreateResult where
  | failed (strFailReason : String)
  | assertionFailed
  | retry (nFeeRet : Int)
  | created (tx : CTransaction) (nFeeRet : Int)
  deriving DecidableEq

def MAX_STANDARD_TX_SIZE : Nat := 100000

def signInput (tx : CTransaction) (nIn : Nat) (scriptSig : CScript) : CTransaction :=
  { tx with vin := tx.vin.modify nIn fun txin => { txin with scriptSig := scriptSig } }

def signAll (view : WalletView Ptr) (nIn : Nat) (txNew : CTransaction) :
    List (Ptr × Nat) → Option CTransaction
  | [] => some txNew
  | coin :: coins =>
    (view.signSignature coin txNew nIn).bind fun scriptSig =>
      signAll view (nIn+1) (signInput txNew nIn scriptSig) coins

/-- The part of the loop from "Fill vin" on. -/
def finishRound (view : WalletView Ptr) (fees : FeeSettings) (setCoins : List (Ptr × Nat))
    (vout : List CTxOut) (nFeeRet : Int) : CreateResult :=
  let vin := setCoins.map fun coin => ⟨⟨view.getHash coin.1,coin.2⟩,[],4294967295⟩
  match signAll view 0 ⟨1,vin,vout,0⟩ setCoins with
  | none => .failed "Signing transaction failed"
  | some tx =>
    let nBytes := tx.getSerializeSize
    if MAX_STANDARD_TX_SIZE ≤ nBytes then .failed "Transaction too large"
    else
      let nPayFee := toAmount (fees.nTransactionFee*(1+nBytes/1000 : Nat))
      let nMinFee := getMinFee fees tx nBytes (view.allowFree setCoins tx nBytes) .send
      if nFeeRet < max nPayFee nMinFee then .retry (max nPayFee nMinFee) else .created tx nFeeRet

def changeScript (view : WalletView Ptr) (coinControl : Option CCoinControl) (nRound : Nat) :
    Option CScript :=
  match coinControl with
  | some ⟨.keyID id,_⟩ => some (setDestination (.keyID id))
  | some ⟨.scriptID id,_⟩ => some (setDestination (.scriptID id))
  | _ => (view.reservedKey nRound).map fun id => setDestination (.keyID id)

def payeeOutputs (vecSend : List (CScript × Int)) : List CTxOut := vecSend.map fun s => ⟨s.2,s.1⟩

section
variable [DecidableEq Ptr] (view : WalletView Ptr) (fees : FeeSettings)
  (vecSend : List (CScript × Int)) (coinControl : Option CCoinControl)

/-- One round of the fee loop. -/
def createRound (nRound : Nat) (chance : RoundChance Ptr) (nValue nFeeRet : Int) : CreateResult :=
  let vout := payeeOutputs vecSend
  if vout.any fun txout => txout.isDust fees.minRelayTxFee then .failed "Transaction amount too small"
  else
    let r := selectCoins view chance.select (amountAdd nValue nFeeRet) coinControl
    if !r.fResult then .failed "Insufficient funds"
    else
      let setCoins := chance.iterate r.setCoinsRet
      let nChange := toAmount (toAmount (r.nValueRet-nValue)-nFeeRet)
      if 0 < nChange then
        match changeScript view coinControl nRound with
        | none => .assertionFailed
        | some scriptChange =>
          if CTxOut.isDust ⟨nChange,scriptChange⟩ fees.minRelayTxFee then
            finishRound view fees setCoins vout (amountAdd nFeeRet nChange)
          else
            finishRound view fees setCoins
              (vout.insertIdx (chance.position vout.length) ⟨nChange,scriptChange⟩) nFeeRet
      else finishRound view fees setCoins vout nFeeRet

/-- The loop; there is no result while rounds ask for another one. -/
def createLoop (chance : Nat → RoundChance Ptr) (nValue : Int) (nRound : Nat) :
    Nat → Int → Option CreateResult
  | 0,_ => none
  | fuel+1,nFeeRet =>
    match createRound view fees vecSend coinControl nRound (chance nRound) nValue nFeeRet with
    | .retry nFeeRet => createLoop chance nValue (nRound+1) fuel nFeeRet
    | result => some result

/-- The sum of the amounts, each tested before the next is added. -/
def sumSend (nValue : Int) : List (CScript × Int) → Option Int
  | [] => if nValue < 0 then none else some nValue
  | s :: vecSend => if nValue < 0 then none else sumSend (amountAdd nValue s.2) vecSend

def createTransaction (chance : Nat → RoundChance Ptr) (fuel : Nat) : Option CreateResult :=
  match sumSend 0 vecSend with
  | none => some (.failed "Transaction amounts must be positive")
  | some nValue =>
    if vecSend.isEmpty then some (.failed "Transaction amounts must be positive")
    else createLoop view fees vecSend coinControl chance nValue 0 fuel fees.nTransactionFee

end

/-! The coins that are available -/

namespace WalletView
variable (view : WalletView Ptr)

theorem mem_availableCoins {fOnlyConfirmed : Bool} {coinControl : Option CCoinControl}
    {output : COutput Ptr} (h : output ∈ view.availableCoins fOnlyConfirmed coinControl) :
    ∃ txout, (view.vout output.tx)[output.i]? = some txout ∧ 0 < txout.nValue := by
  simp only [availableCoins,List.mem_flatMap,outputsOf,List.mem_map,List.mem_filter] at h
  obtain ⟨p,-,⟨txout,i⟩,⟨hmem,hav⟩,rfl⟩ := h
  refine ⟨txout,by simpa using List.mem_zipIdx_iff_getElem?.1 hmem,?_⟩
  simp only [available,Bool.and_eq_true,decide_eq_true_eq] at hav
  exact hav.1.2

theorem value_pos {fOnlyConfirmed : Bool} {coinControl : Option CCoinControl}
    {output : COutput Ptr} (h : output ∈ view.availableCoins fOnlyConfirmed coinControl) :
    0 < view.valueOf output.key := by
  obtain ⟨txout,hout,hpos⟩ := view.mem_availableCoins h
  simpa [WalletTxs.valueOf,COutput.key,List.getD_eq_getElem?_getD,hout] using hpos

theorem outputsOf_keys (coinControl : Option CCoinControl) (p : Ptr) :
    ((view.outputsOf coinControl p).map COutput.key).Nodup := by
  have hmap : (view.outputsOf coinControl p).map COutput.key =
      (((view.vout p).zipIdx.filter fun out =>
        view.available coinControl p out.1 out.2).map Prod.snd).map (Prod.mk p) := by
    simp [outputsOf,COutput.key,Function.comp_def]
  have hidx : ((view.vout p).zipIdx.map Prod.snd).Nodup := by
    rw [List.zipIdx_map_snd]
    exact List.nodup_range'
  rw [hmap]
  apply List.Nodup.map (Prod.mk_right_injective p)
  exact ((List.filter_sublist).map _).nodup hidx

theorem availableCoins_keys (fOnlyConfirmed : Bool) (coinControl : Option CCoinControl) :
    ((view.availableCoins fOnlyConfirmed coinControl).map COutput.key).Nodup := by
  unfold availableCoins
  rw [List.map_flatMap,List.nodup_flatMap]
  refine ⟨fun p _ => view.outputsOf_keys coinControl p,?_⟩
  have hn : (view.mapWallet.filter fun p => !view.skips fOnlyConfirmed p).Nodup :=
    view.nodup.filter _
  apply hn.imp
  intro p q hpq k hp hq
  simp only [outputsOf,List.map_map,List.mem_map,Function.comp_apply,COutput.key] at hp hq
  obtain ⟨a,-,rfl⟩ := hp
  obtain ⟨b,-,hb⟩ := hq
  exact hpq (congrArg Prod.fst hb).symm

theorem availableCoins_sublist (fOnlyConfirmed : Bool) (coinControl : Option CCoinControl) :
    (view.availableCoins fOnlyConfirmed coinControl).Sublist
      (view.availableCoins fOnlyConfirmed none) := by
  unfold availableCoins
  induction view.mapWallet.filter fun p => !view.skips fOnlyConfirmed p with
  | nil => simp
  | cons p rest ih =>
    rw [List.flatMap_cons,List.flatMap_cons]
    refine List.Sublist.append (List.Sublist.map _ ?_) ih
    apply List.monotone_filter_right
    intro out hout
    simp only [available,Bool.and_eq_true] at hout ⊢
    exact ⟨hout.1,trivial⟩

end WalletView

/-- The ledger holds no more than MAX_MONEY, so neither do the coins of a wallet. -/
def WalletView.InRange (view : WalletView Ptr) : Prop :=
  moneyRange (((view.availableCoins true none).map fun o => view.valueOf o.key).sum) = true

theorem WalletView.InRange.available {view : WalletView Ptr} (h : view.InRange)
    (coinControl : Option CCoinControl) :
    moneyRange (((view.availableCoins true coinControl).map fun o => view.valueOf o.key).sum) =
      true := by
  have hle := value_le_max (fun o ho => view.value_pos ho) h
    (view.availableCoins_sublist true coinControl).subperm
  have hnonneg : 0 ≤ ((view.availableCoins true coinControl).map fun o => view.valueOf o.key).sum := by
    apply List.sum_nonneg
    intro n hn
    obtain ⟨o,ho,rfl⟩ := List.mem_map.1 hn
    exact (view.value_pos ho).le
  simpa [moneyRange] using ⟨hnonneg,hle⟩

section
variable {view : WalletView Ptr} {fees : FeeSettings} {vecSend : List (CScript × Int)}
  {coinControl : Option CCoinControl}

theorem signAll_keeps (setCoins : List (Ptr × Nat)) {nIn : Nat} {txNew tx : CTransaction}
    (h : signAll view nIn txNew setCoins = some tx) :
    tx.vout = txNew.vout ∧ tx.vin.map CTxIn.prevout = txNew.vin.map CTxIn.prevout := by
  induction setCoins generalizing nIn txNew with
  | nil =>
    rw [signAll,Option.some.injEq] at h
    rw [h]
    exact ⟨rfl,rfl⟩
  | cons coin setCoins ih =>
    rw [signAll,Option.bind_eq_some_iff] at h
    obtain ⟨scriptSig,-,h⟩ := h
    obtain ⟨hvout,hvin⟩ := ih h
    refine ⟨hvout,hvin.trans ?_⟩
    simp only [signInput]
    apply List.ext_getElem?
    intro j
    simp only [List.getElem?_map,List.getElem?_modify]
    split
    · cases txNew.vin[j]? <;> rfl
    · cases txNew.vin[j]? <;> rfl

theorem toAmount_eq {n : Int} (h₀ : -2^63 ≤ n) (h : n < 2^63) : toAmount n = n := by
  unfold toAmount
  rw [Int.bmod_def]
  omega

theorem getMinFee_le (fees : FeeSettings) (tx : CTransaction) (nBytes : Nat) (fAllowFree : Bool)
    (mode : GetMinFeeMode) : getMinFee fees tx nBytes fAllowFree mode ≤ MAX_MONEY := by
  have hclamp : ∀ n : Int, (if moneyRange n then n else MAX_MONEY) ≤ MAX_MONEY := by
    intro n
    split
    · rename_i hrange
      simp only [moneyRange,Bool.and_eq_true,decide_eq_true_eq] at hrange
      exact hrange.2
    · exact le_rfl
  unfold getMinFee
  dsimp only
  split
  · exact le_rfl
  · exact hclamp _

/-- What a finished transaction and its fee satisfy, and what another round starts from. -/
theorem finishRound_spec {setCoins : List (Ptr × Nat)} {vout : List CTxOut} {nFeeRet : Int}
    (hfee : fees.nTransactionFee ≤ MAX_MONEY) :
    (∀ tx nFee, finishRound view fees setCoins vout nFeeRet = .created tx nFee →
      nFee = nFeeRet ∧ tx.vout = vout ∧
      tx.vin.map CTxIn.prevout = setCoins.map (fun k => ⟨view.getHash k.1,k.2⟩) ∧
      fees.nTransactionFee*(1+tx.getSerializeSize/1000 : Nat) ≤ nFeeRet ∧
      getMinFee fees tx tx.getSerializeSize (view.allowFree setCoins tx tx.getSerializeSize) .send ≤
        nFeeRet) ∧
    ∀ nFee, finishRound view fees setCoins vout nFeeRet = .retry nFee →
      nFeeRet < nFee ∧ nFee ≤ 100*MAX_MONEY ∧ fees.nTransactionFee ≤ nFee := by
  unfold finishRound
  dsimp only
  split
  · exact ⟨by simp,by simp⟩
  · rename_i tx htx
    obtain ⟨hvout,hvin⟩ := signAll_keeps _ htx
    split
    · exact ⟨by simp,by simp⟩
    · rename_i hsize
      have hk : (1+tx.getSerializeSize/1000 : Nat) ≤ 100 := by
        simp only [MAX_STANDARD_TX_SIZE] at hsize
        omega
      have hone : 1 ≤ (1+tx.getSerializeSize/1000 : Nat) := by omega
      generalize hkb : (1+tx.getSerializeSize/1000 : Nat) = k at hk hone ⊢
      have h₀ := fees.transactionFee_range.1
      have hmul : fees.nTransactionFee*k ≤ MAX_MONEY*100 := by
        have hk' : (k : Int) ≤ 100 := by exact_mod_cast hk
        exact mul_le_mul hfee hk' (by omega) (by decide)
      have hlow : fees.nTransactionFee ≤ fees.nTransactionFee*k := by
        have hk' : (1 : Int) ≤ k := by exact_mod_cast hone
        exact le_mul_of_one_le_right h₀ hk'
      have hpay : toAmount (fees.nTransactionFee*k) = fees.nTransactionFee*k := by
        apply toAmount_eq
        · omega
        · simp only [MAX_MONEY,COIN] at hmul
          omega
      have hmin := getMinFee_le fees tx tx.getSerializeSize
        (view.allowFree setCoins tx tx.getSerializeSize) .send
      rw [hpay]
      generalize hm : getMinFee fees tx tx.getSerializeSize
        (view.allowFree setCoins tx tx.getSerializeSize) .send = nMinFee at hmin ⊢
      split
      · rename_i hlt
        refine ⟨by simp,?_⟩
        rintro nFee ⟨⟩
        refine ⟨hlt,?_,?_⟩
        · simp only [MAX_MONEY,COIN] at hmin hmul ⊢
          omega
        · omega
      · rename_i hge
        refine ⟨?_,by simp⟩
        rintro tx' nFee ⟨⟩
        refine ⟨rfl,hvout,?_,?_,?_⟩
        · rw [hvin]
          simp
        · rw [hkb]
          omega
        · rw [hm]
          omega

/-- A transaction that balances with its fee: its inputs are available coins worth the outputs and
the fee, its outputs are the payees and at most one more, none of them dust, and the fee is the
required one. -/
structure Balanced (view : WalletView Ptr) (fees : FeeSettings) (vecSend : List (CScript × Int))
    (coinControl : Option CCoinControl) (tx : CTransaction) (nFeeRet : Int) : Prop where
  inputs : ∃ setCoins : List (Ptr × Nat), setCoins.Nodup ∧
    (∀ k ∈ setCoins, k ∈ (view.availableCoins true coinControl).map COutput.key) ∧
    tx.vin.map CTxIn.prevout = setCoins.map (fun k => ⟨view.getHash k.1,k.2⟩) ∧
    (setCoins.map view.valueOf).sum = sumValue tx.vout+nFeeRet ∧
    getMinFee fees tx tx.getSerializeSize (view.allowFree setCoins tx tx.getSerializeSize) .send ≤
      nFeeRet
  outputs : ∃ change : List CTxOut, change.length ≤ 1 ∧
    tx.vout.Perm (payeeOutputs vecSend ++ change)
  noDust : ∀ txout ∈ tx.vout, txout.isDust fees.minRelayTxFee = false
  payFee : fees.nTransactionFee*(1+tx.getSerializeSize/1000 : Nat) ≤ nFeeRet

theorem finishRound_balanced {setCoins : List (Ptr × Nat)} {vout : List CTxOut} {nFeeRet nFee : Int}
    {tx : CTransaction} (hfee : fees.nTransactionFee ≤ MAX_MONEY)
    (h : finishRound view fees setCoins vout nFeeRet = .created tx nFee)
    (hnodup : setCoins.Nodup)
    (hcoins : ∀ k ∈ setCoins, k ∈ (view.availableCoins true coinControl).map COutput.key)
    (hsum : (setCoins.map view.valueOf).sum = sumValue vout+nFeeRet)
    (hout : ∃ change : List CTxOut, change.length ≤ 1 ∧ vout.Perm (payeeOutputs vecSend ++ change))
    (hdust : ∀ txout ∈ vout, txout.isDust fees.minRelayTxFee = false) :
    Balanced view fees vecSend coinControl tx nFee := by
  obtain ⟨rfl,rfl,hvin,hpay,hmin⟩ := (finishRound_spec hfee).1 tx nFee h
  exact ⟨⟨setCoins,hnodup,hcoins,hvin,hsum,hmin⟩,hout,hdust,hpay⟩

theorem sumValue_payeeOutputs (vecSend : List (CScript × Int)) :
    sumValue (payeeOutputs vecSend) = (vecSend.map Prod.snd).sum := by
  simp [sumValue,payeeOutputs,Function.comp_def]

end

section
variable [DecidableEq Ptr] {view : WalletView Ptr} {fees : FeeSettings}
  {vecSend : List (CScript × Int)} {coinControl : Option CCoinControl}

/-- What a successful selection gives. -/
structure Funded (view : WalletView Ptr) (coinControl : Option CCoinControl) (nTargetValue : Int)
    (r : Selection Ptr) : Prop where
  subset : ∀ k ∈ r.setCoinsRet, k ∈ (view.availableCoins true coinControl).map COutput.key
  value : ∑ k ∈ r.setCoinsRet, view.valueOf k = r.nValueRet
  enough : nTargetValue ≤ r.nValueRet
  le_max : r.nValueRet ≤ MAX_MONEY

theorem Selection.Sound.funded {nTargetValue : Int} {r : Selection Ptr}
    {outputs : List (COutput Ptr)} (hview : view.InRange)
    (hsub : outputs.Sublist (view.availableCoins true coinControl))
    (h : r.Sound view.toWalletTxs outputs nTargetValue) (hr : r.fResult = true) :
    Funded view coinControl nTargetValue r := by
  have hkeys : ∀ k ∈ r.setCoinsRet, k ∈ outputs.map COutput.key := by
    intro k hk
    exact List.mem_toFinset.1 (h.subset hr hk)
  have hnodup : (outputs.map COutput.key).Nodup :=
    (hsub.map _).nodup (view.availableCoins_keys true coinControl)
  refine ⟨?_,h.value hr,h.enough hr,?_⟩
  · intro k hk
    exact (hsub.map _).subset (hkeys k hk)
  · have hmax := value_le_max (fun o ho => view.value_pos ho) (hview.available coinControl)
      hsub.subperm
    have hle : ∑ k ∈ r.setCoinsRet, view.valueOf k ≤
        ∑ k ∈ (outputs.map COutput.key).toFinset, view.valueOf k := by
      apply Finset.sum_le_sum_of_subset_of_nonneg (h.subset hr)
      intro k hk _
      obtain ⟨o,ho,rfl⟩ := List.mem_map.1 (List.mem_toFinset.1 hk)
      exact (view.value_pos (hsub.subset ho)).le
    rw [List.sum_toFinset _ hnodup,List.map_map] at hle
    rw [← h.value hr]
    exact hle.trans hmax

theorem selectCoins_funded {chance : Nat → Chance Ptr} {nTargetValue : Int}
    (hview : view.InRange) (hpos : 0 < nTargetValue) (hfits : nTargetValue+CENT < 2^63)
    (hr : (selectCoins view chance nTargetValue coinControl).fResult = true) :
    Funded view coinControl nTargetValue (selectCoins view chance nTargetValue coinControl) := by
  have hsound : ∀ i mine theirs, Selection.Sound view.toWalletTxs
      ((view.availableCoins true coinControl).filter (view.eligible mine theirs)) nTargetValue
      (selectCoinsMinConf view.toWalletTxs (chance i) nTargetValue mine theirs
        (view.availableCoins true coinControl)) := by
    intro i mine theirs
    exact selectCoinsMinConf_sound (view.availableCoins_keys true coinControl)
      (fun o ho => view.value_pos ho) (hview.available coinControl) hpos hfits
  unfold selectCoins at hr ⊢
  dsimp only at hr ⊢
  split at hr
  · rename_i hselected
    rw [if_pos hselected]
    have hle := of_decide_eq_true hr
    have hsub : ((view.availableCoins true coinControl).filter COutput.fSpendable).Sublist
        (view.availableCoins true coinControl) := List.filter_sublist
    rw [Selection.of_eq] at hle ⊢
    have hof : Selection.Sound view.toWalletTxs _ nTargetValue (.of _) :=
      Selection.of_sound ((hsub.map _).nodup (view.availableCoins_keys true coinControl))
        (fun o ho => view.value_pos (hsub.subset ho)) (List.Subperm.refl _) hle
    rw [Selection.of_eq] at hof
    have hf := hof.funded hview hsub rfl
    exact ⟨hf.subset,hf.value,hf.enough,hf.le_max⟩
  · rename_i hselected
    rw [if_neg hselected]
    split at hr
    · rename_i h₀
      rw [if_pos h₀]
      exact (hsound 0 1 6).funded hview List.filter_sublist hr
    · rename_i h₀
      rw [if_neg h₀]
      split at hr
      · rename_i h₁
        rw [if_pos h₁]
        exact (hsound 1 1 1).funded hview List.filter_sublist hr
      · rename_i h₁
        rw [if_neg h₁]
        split at hr
        · rename_i hzero
          rw [if_pos hzero]
          exact (hsound 2 0 1).funded hview List.filter_sublist hr
        · exact absurd hr h₁

theorem createRound_spec (coinControl : Option CCoinControl) (nRound : Nat)
    (chance : RoundChance Ptr) {nValue nFeeRet : Int} (hview : view.InRange) (hsum : (vecSend.map Prod.snd).sum = nValue) (hpos : 0 < nValue)
    (hfee : fees.nTransactionFee ≤ nFeeRet) (hfits : nValue+nFeeRet+CENT < 2^63) :
    (∀ tx nFee, createRound view fees vecSend coinControl nRound chance nValue nFeeRet =
      .created tx nFee → Balanced view fees vecSend coinControl tx nFee) ∧
    ∀ nFee, createRound view fees vecSend coinControl nRound chance nValue nFeeRet = .retry nFee →
      nFeeRet < nFee ∧ nFee ≤ 100*MAX_MONEY ∧ fees.nTransactionFee ≤ nFee ∧ nValue ≤ MAX_MONEY := by
  have hfee₀ := fees.transactionFee_range.1
  have hcent : (0 : Int) < CENT := by decide
  have htotal : amountAdd nValue nFeeRet = nValue+nFeeRet :=
    amountAdd_eq hpos.le (hfee₀.trans hfee) (by omega)
  unfold createRound
  dsimp only
  split
  · exact ⟨by simp,by simp⟩
  · rename_i hdust
    have hnd : ∀ txout ∈ payeeOutputs vecSend, txout.isDust fees.minRelayTxFee = false := by
      simpa using hdust
    rw [htotal]
    split
    · exact ⟨by simp,by simp⟩
    · rename_i hres
      have hf : Funded view coinControl (nValue+nFeeRet)
          (selectCoins view chance.select (nValue+nFeeRet) coinControl) :=
        selectCoins_funded hview (by omega) hfits (by simpa using hres)
      generalize selectCoins view chance.select (nValue+nFeeRet) coinControl = r at hf
      obtain ⟨hsub,hval,henough,hmax⟩ := hf
      have hmem : ∀ k ∈ chance.iterate r.setCoinsRet,
          k ∈ (view.availableCoins true coinControl).map COutput.key := by
        intro k hk
        exact hsub k ((chance.mem_iterate _ k).1 hk)
      have hcoins : ((chance.iterate r.setCoinsRet).map view.valueOf).sum = r.nValueRet := by
        rw [← List.sum_toFinset _ (chance.iterate_nodup _),← hval]
        apply Finset.sum_congr _ (fun _ _ => rfl)
        ext k
        simp [chance.mem_iterate]
      have hmoney : MAX_MONEY < 2^62 := by decide
      have hfeeMax : fees.nTransactionFee ≤ MAX_MONEY := by omega
      have hchange : toAmount (toAmount (r.nValueRet-nValue)-nFeeRet) =
          r.nValueRet-nValue-nFeeRet := by
        rw [toAmount_eq (n := r.nValueRet-nValue) (by omega) (by omega)]
        exact toAmount_eq (by omega) (by omega)
      have hpayees := sumValue_payeeOutputs vecSend
      rw [hchange]
      split
      · rename_i hplus
        split
        · exact ⟨by simp,by simp⟩
        · rename_i scriptChange _
          split
          · have hadd : amountAdd nFeeRet (r.nValueRet-nValue-nFeeRet) = r.nValueRet-nValue := by
              rw [amountAdd_eq (by omega) (by omega) (by omega)]
              omega
            rw [hadd]
            refine ⟨?_,?_⟩
            · intro tx nFee h
              exact finishRound_balanced hfeeMax h (chance.iterate_nodup _) hmem (by omega)
                ⟨[],by simp,by simp⟩ hnd
            · intro nFee h
              obtain ⟨h₁,h₂,h₃⟩ := (finishRound_spec hfeeMax).2 nFee h
              exact ⟨by omega,h₂,h₃,by omega⟩
          · rename_i hcd
            have hperm : ((payeeOutputs vecSend).insertIdx
                (chance.position (payeeOutputs vecSend).length)
                ⟨r.nValueRet-nValue-nFeeRet,scriptChange⟩).Perm
                (payeeOutputs vecSend ++ [⟨r.nValueRet-nValue-nFeeRet,scriptChange⟩]) :=
              (List.perm_insertIdx _ _ (chance.position_le _)).trans
                (List.perm_append_singleton _ _).symm
            refine ⟨?_,?_⟩
            · intro tx nFee h
              refine finishRound_balanced hfeeMax h (chance.iterate_nodup _) hmem ?_
                ⟨_,by simp,hperm⟩ ?_
              · rw [sumValue,(hperm.map _).sum_eq,List.map_append,List.sum_append,← sumValue,hpayees]
                simp
                omega
              · intro txout hmem'
                obtain hp | hc := List.mem_append.1 (hperm.subset hmem')
                · exact hnd txout hp
                · rw [List.mem_singleton.1 hc]
                  simpa using hcd
            · intro nFee h
              obtain ⟨h₁,h₂,h₃⟩ := (finishRound_spec hfeeMax).2 nFee h
              exact ⟨h₁,h₂,h₃,by omega⟩
      · refine ⟨?_,?_⟩
        · intro tx nFee h
          exact finishRound_balanced hfeeMax h (chance.iterate_nodup _) hmem (by omega)
            ⟨[],by simp,by simp⟩ hnd
        · intro nFee h
          obtain ⟨h₁,h₂,h₃⟩ := (finishRound_spec hfeeMax).2 nFee h
          exact ⟨h₁,h₂,h₃,by omega⟩

/-- Every round that asks for another one asks for a larger fee, and the fees are bounded. -/
theorem createLoop_spec {chance : Nat → RoundChance Ptr} {nValue : Int} (hview : view.InRange)
    (hsum : (vecSend.map Prod.snd).sum = nValue) (hpos : 0 < nValue) (fuel : Nat) {nRound : Nat}
    {nFeeRet : Int} (hfee : fees.nTransactionFee ≤ nFeeRet) (hfits : nValue+nFeeRet+CENT < 2^63)
    (hfuel : (100*MAX_MONEY-nFeeRet).toNat < fuel) :
    ∃ result, createLoop view fees vecSend coinControl chance nValue nRound fuel nFeeRet =
      some result ∧ ∀ tx nFee, result = .created tx nFee →
        Balanced view fees vecSend coinControl tx nFee := by
  induction fuel generalizing nRound nFeeRet with
  | zero => omega
  | succ fuel ih =>
    obtain ⟨hcreated,hretry⟩ :=
      createRound_spec coinControl nRound (chance nRound) hview hsum hpos hfee hfits
    unfold createLoop
    cases hround : createRound view fees vecSend coinControl nRound (chance nRound) nValue
        nFeeRet with
    | failed strFailReason => exact ⟨_,rfl,by simp⟩
    | assertionFailed => exact ⟨_,rfl,by simp⟩
    | created tx nFee =>
      refine ⟨_,rfl,?_⟩
      rintro tx' nFee' ⟨⟩
      exact hcreated tx nFee hround
    | retry nFee =>
      obtain ⟨h₁,h₂,h₃,h₄⟩ := hretry nFee hround
      apply ih h₃
      · simp only [MAX_MONEY,COIN,CENT] at h₂ h₄ ⊢
        omega
      · omega

theorem createLoop_mono {chance : Nat → RoundChance Ptr} {nValue : Int} {fuel more nRound : Nat}
    {nFeeRet : Int} {result : CreateResult}
    (h : createLoop view fees vecSend coinControl chance nValue nRound fuel nFeeRet = some result)
    (hle : fuel ≤ more) :
    createLoop view fees vecSend coinControl chance nValue nRound more nFeeRet = some result := by
  induction fuel generalizing more nRound nFeeRet with
  | zero => simp [createLoop] at h
  | succ fuel ih =>
    obtain ⟨more,rfl⟩ := Nat.exists_eq_add_of_le' (Nat.lt_of_lt_of_le (Nat.succ_pos fuel) hle)
    unfold createLoop at h ⊢
    cases hround : createRound view fees vecSend coinControl nRound (chance nRound) nValue
        nFeeRet with
    | retry nFee =>
      rw [hround] at h
      exact ih h (by omega)
    | failed strFailReason => simpa [hround] using h
    | assertionFailed => simpa [hround] using h
    | created tx nFee => simpa [hround] using h

theorem createLoop_dust {chance : Nat → RoundChance Ptr} {nValue nFeeRet : Int} (fuel : Nat)
    (h : (payeeOutputs vecSend).any (fun txout => txout.isDust fees.minRelayTxFee) = true) :
    createLoop view fees vecSend coinControl chance nValue 0 (fuel+1) nFeeRet =
      some (.failed "Transaction amount too small") := by
  simp [createLoop,createRound,h]

end

theorem getFee_pos {nSatoshisPerK : Int} (h : 0 < nSatoshisPerK) (nSize : Nat) :
    0 < getFee nSatoshisPerK nSize := by
  unfold getFee
  dsimp only
  split
  · exact h
  · rename_i hne
    have hnonneg : 0 ≤ nSatoshisPerK*nSize%2^64/1000 :=
      Int.ediv_nonneg (Int.emod_nonneg _ (by decide)) (by decide)
    have hnz : nSatoshisPerK*nSize%2^64/1000 ≠ 0 := fun h₀ => hne ⟨h₀,h⟩
    omega

theorem CTxOut.value_pos_of_not_dust {txout : CTxOut} {minRelayTxFee : Int}
    (hfee : 0 < minRelayTxFee) (h : txout.isDust minRelayTxFee = false) : 0 < txout.nValue := by
  have hpos := getFee_pos hfee (txout.getSerializeSize+148)
  simp only [isDust,decide_eq_false_iff_not] at h
  omega

theorem sumSend_neg {nValue : Int} (vecSend : List (CScript × Int)) (h : nValue < 0) :
    sumSend nValue vecSend = none := by
  cases vecSend with
  | nil => exact if_pos h
  | cons s vecSend => exact if_pos h

theorem sumSend_eq {nValue nTotal : Int} (vecSend : List (CScript × Int)) (hn : nValue < 2^63)
    (hall : ∀ s ∈ vecSend, 0 < s.2 ∧ s.2 < 2^63) (h : sumSend nValue vecSend = some nTotal) :
    nTotal = nValue+(vecSend.map Prod.snd).sum ∧ nTotal < 2^63 := by
  induction vecSend generalizing nValue with
  | nil =>
    unfold sumSend at h
    split at h
    · simp at h
    · rw [Option.some.injEq] at h
      simpa [h] using hn
  | cons s vecSend ih =>
    obtain ⟨hs₀,hs⟩ := hall s (by simp)
    have hrest : ∀ t ∈ vecSend, 0 < t.2 ∧ t.2 < 2^63 := fun t ht => hall t (by simp [ht])
    unfold sumSend at h
    split at h
    · simp at h
    · rename_i hnn
      by_cases hover : nValue+s.2 < 2^63
      · rw [amountAdd_eq (by omega) hs₀.le hover] at h
        obtain ⟨htotal,hlt⟩ := ih hover hrest h
        rw [List.map_cons,List.sum_cons]
        omega
      · rw [sumSend_neg _ (amountAdd_neg hn hs (by omega))] at h
        simp at h

end

/-- One trusted transaction with one output of the given value. -/
def coinView (nValue : Int) : WalletView Unit where
  vout := fun _ => [⟨nValue,[]⟩]
  isFromMe := fun _ => false
  mapWallet := [()]
  nodup := List.nodup_singleton ()
  getHash := fun _ => 1
  isFinalTx := fun _ => true
  isTrusted := fun _ => true
  isImmature := fun _ => false
  depth := fun _ => 6
  isMine := fun _ => .spendable
  isSpent := fun _ _ => false
  isLockedCoin := fun _ _ => false
  bSpendZeroConfChange := false
  signSignature := fun _ _ _ => some []
  allowFree := fun _ _ _ => false
  reservedKey := fun _ => some 7

def plainFees : FeeSettings where
  nTransactionFee := 0
  nMinTxFee := 1000
  nMinRelayTxFee := 1000
  minRelayTxFee := 1000
  transactionFee_range := by decide
  minTxFee_range := by decide
  minRelayTxFee_range := by decide

def plainRound : RoundChance Unit where
  select := fun _ => plainChance Unit
  iterate := fun s =>
    ((List.range (s.sup Prod.snd+1)).filter fun i => decide (((),i) ∈ s)).map (Prod.mk ())
  iterate_nodup := fun _ => (List.nodup_range.filter _).map (Prod.mk_right_injective ())
  mem_iterate := by
    intro s k
    have hle : k ∈ s → k.2 ≤ s.sup Prod.snd := fun hk => Finset.le_sup (f := Prod.snd) hk
    simp only [List.mem_map,List.mem_filter,List.mem_range,decide_eq_true_eq]
    constructor
    · rintro ⟨i,⟨-,hi⟩,rfl⟩
      exact hi
    · intro hk
      exact ⟨k.2,⟨Nat.lt_succ_of_le (hle hk),hk⟩,rfl⟩
  position := fun n => n
  position_le := fun _ => le_rfl

theorem coinView_inRange : (coinView 5000000).InRange := by
  unfold WalletView.InRange
  decide

end Anoncoin
