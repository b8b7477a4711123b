import Mathlib.Data.Finset.Basic
import Mathlib.Algebra.BigOperators.Group.Finset.Basic
import Mathlib.Algebra.Order.BigOperators.Group.List
import Mathlib.Data.List.Sort
import Anoncoin.Transaction
set_option autoImplicit false

/-!
CWallet::SelectCoinsMinConf and ApproximateBestSubset.  A wallet transaction is known by its
pointer.  The amounts that are added up stay within the total of the listed outputs; only
`nTargetValue + CENT` can leave the range of CAmount, so only that sum is taken modulo 2^64.
-/

namespace Anoncoin

def CENT : Int := 1000000

/-- The sum of two CAmounts as the processor stores it. -/
def amountAdd (a b : Int) : Int := (a+b).bmod (2^64)

def maxAmount : Int := 2^63-1

structure COutput (Ptr : Type) where
  tx : Ptr
  i : Nat
  nDepth : Int
  fSpendable : Bool
  deriving DecidableEq, Repr

/-- What the selection reads through the pointers. -/
structure WalletTxs (Ptr : Type) where
  vout : Ptr → List CTxOut
  isFromMe : Ptr → Bool

/-- A value with the output it belongs to. -/
abbrev Coin (Ptr : Type) := Int × (Ptr × Nat)

section
variable {Ptr : Type}

def COutput.key (output : COutput Ptr) : Ptr × Nat := (output.tx,output.i)

def WalletTxs.valueOf (txs : WalletTxs Ptr) (k : Ptr × Nat) : Int :=
  ((txs.vout k.1).getD k.2 .null).nValue

def WalletTxs.coin (txs : WalletTxs Ptr) (output : COutput Ptr) : Coin Ptr :=
  (txs.valueOf output.key,output.key)

/-- The outputs that the two `continue`s of the loop let through. -/
def WalletTxs.eligible (txs : WalletTxs Ptr) (nConfMine nConfTheirs : Int)
    (output : COutput Ptr) : Bool :=
  output.fSpendable &&
    !decide (output.nDepth < if txs.isFromMe output.tx then nConfMine else nConfTheirs)

/-! ApproximateBestSubset -/

structure Search where
  vfIncluded : List Bool
  nTotal : Int
  fReachedTarget : Bool
  vfBest : List Bool
  nBest : Int

/-- The body under the random or second-pass condition, at position i. -/
def Search.addCoin (vValue : List (Coin Ptr)) (nTargetValue : Int) (s : Search) (i : Nat) :
    Search :=
  match vValue[i]? with
  | none => s
  | some coin =>
    let nTotal := s.nTotal+coin.1
    let vfIncluded := s.vfIncluded.set i true
    if nTargetValue ≤ nTotal then
      ⟨vfIncluded.set i false,nTotal-coin.1,true,
        if nTotal < s.nBest then vfIncluded else s.vfBest,
        if nTotal < s.nBest then nTotal else s.nBest⟩
    else
      { s with vfIncluded := vfIncluded, nTotal := nTotal }

/-- Position i in pass nPass; `rand i` is the bit drawn there. -/
def Search.visit (vValue : List (Coin Ptr)) (nTargetValue : Int) (nPass : Nat) (rand : Nat → Bool)
    (s : Search) (i : Nat) : Search :=
  if (if nPass = 0 then rand i else !s.vfIncluded.getD i true) = true then
    s.addCoin vValue nTargetValue i
  else s

def Search.pass (vValue : List (Coin Ptr)) (nTargetValue : Int) (nPass : Nat) (rand : Nat → Bool)
    (s : Search) : Search :=
  (List.range vValue.length).foldl (Search.visit vValue nTargetValue nPass rand) s

def Search.repetition (vValue : List (Coin Ptr)) (nTargetValue : Int) (rand : Nat → Bool)
    (s : Search) : Search :=
  let s := { s with vfIncluded := List.replicate vValue.length false, nTotal := 0,
                    fReachedTarget := false }
  let s := s.pass vValue nTargetValue 0 rand
  if s.fReachedTarget then s else s.pass vValue nTargetValue 1 rand

def Search.repetitions (vValue : List (Coin Ptr)) (nTargetValue : Int)
    (rand : Nat → Nat → Bool) (nRep : Nat) : Nat → Search → Search
  | 0, s => s
  | left+1, s =>
    if s.nBest ≠ nTargetValue then
      repetitions vValue nTargetValue rand (nRep+1) left
        (s.repetition vValue nTargetValue (rand nRep))
    else s

/-- The best subset found and its total. -/
def approximateBestSubset (vValue : List (Coin Ptr)) (nTotalLower nTargetValue : Int)
    (rand : Nat → Nat → Bool) (iterations : Nat) : List Bool × Int :=
  let s := Search.repetitions vValue nTargetValue rand 0 iterations
    ⟨[],0,false,List.replicate vValue.length true,nTotalLower⟩
  (s.vfBest,s.nBest)

/-! SelectCoinsMinConf -/

/-- One outcome of random_shuffle, of the order std::sort gives to equal values, and of the bits
that the two calls of ApproximateBestSubset draw. -/
structure Chance (Ptr : Type) where
  shuffle : List (COutput Ptr) → List (COutput Ptr)
  shuffle_perm : ∀ l, (shuffle l).Perm l
  sort : List (Coin Ptr) → List (Coin Ptr)
  sort_perm : ∀ l, (sort l).Perm l
  sort_sorted : ∀ l, (sort l).Pairwise fun a b => b.1 ≤ a.1
  rand : Nat → Nat → Nat → Bool

/-- The accumulators of the loop over the shuffled outputs. -/
structure Scan (Ptr : Type) where
  exactCoin : Option (Coin Ptr)
  vValue : List (Coin Ptr)
  nTotalLower : Int
  coinLowestLarger : Int × Option (Ptr × Nat)

def Scan.start : Scan Ptr := ⟨none,[],0,maxAmount,none⟩

def Scan.run (txs : WalletTxs Ptr) (nTargetValue nConfMine nConfTheirs : Int) (s : Scan Ptr) :
    List (COutput Ptr) → Scan Ptr
  | [] => s
  | output :: vCoins =>
    if !txs.eligible nConfMine nConfTheirs output then
      run txs nTargetValue nConfMine nConfTheirs s vCoins
    else
      let coin := txs.coin output
      if coin.1 = nTargetValue then
        { s with exactCoin := some coin }
      else if coin.1 < amountAdd nTargetValue CENT then
        run txs nTargetValue nConfMine nConfTheirs
          { s with vValue := s.vValue ++ [coin], nTotalLower := s.nTotalLower+coin.1 } vCoins
      else if coin.1 < s.coinLowestLarger.1 then
        run txs nTargetValue nConfMine nConfTheirs
          { s with coinLowestLarger := (coin.1,some coin.2) } vCoins
      else
        run txs nTargetValue nConfMine nConfTheirs s vCoins

structure Selection (Ptr : Type) where
  fResult : Bool
  setCoinsRet : Finset (Ptr × Nat)
  nValueRet : Int

/-- The coins of vValue whose flag is set. -/
def chosen (vValue : List (Coin Ptr)) (vfBest : List Bool) : List (Coin Ptr) :=
  ((vValue.zip vfBest).filter Prod.snd).map Prod.fst

/-- The one or two calls of ApproximateBestSubset. -/
def Scan.bestSubset (s : Scan Ptr) (nTargetValue : Int) (chance : Chance Ptr) :
    List Bool × Int :=
  let vValue := chance.sort s.vValue
  let first := approximateBestSubset vValue s.nTotalLower nTargetValue (chance.rand 0) 1000
  if first.2 ≠ nTargetValue ∧ amountAdd nTargetValue CENT ≤ s.nTotalLower then
    approximateBestSubset vValue s.nTotalLower (amountAdd nTargetValue CENT) (chance.rand 1) 1000
  else first

variable [DecidableEq Ptr]

/-- The insertions into setCoinsRet with the additions to nValueRet. -/
def Selection.of (coins : List (Coin Ptr)) : Selection Ptr :=
  coins.foldl (fun r coin => ⟨true,insert coin.2 r.setCoinsRet,r.nValueRet+coin.1⟩) ⟨true,∅,0⟩

/-- The stochastic part, entered when the smaller coins exceed the target. -/
def Scan.approximate (s : Scan Ptr) (nTargetValue : Int) (chance : Chance Ptr) : Selection Ptr :=
  let vValue := chance.sort s.vValue
  let best := s.bestSubset nTargetValue chance
  match s.coinLowestLarger.2 with
  | some k =>
    if (best.2 ≠ nTargetValue ∧ best.2 < amountAdd nTargetValue CENT) ∨
        s.coinLowestLarger.1 ≤ best.2 then
      .of [(s.coinLowestLarger.1,k)]
    else .of (chosen vValue best.1)
  | none => .of (chosen vValue best.1)

def selectCoinsMinConf (txs : WalletTxs Ptr) (chance : Chance Ptr)
    (nTargetValue nConfMine nConfTheirs : Int) (vCoins : List (COutput Ptr)) : Selection Ptr :=
  let s := Scan.run txs nTargetValue nConfMine nConfTheirs .start (chance.shuffle vCoins)
  match s.exactCoin with
  | some coin => .of [coin]
  | none =>
    if s.nTotalLower = nTargetValue then .of s.vValue
    else if s.nTotalLower < nTargetValue then
      match s.coinLowestLarger.2 with
      | some k => .of [(s.coinLowestLarger.1,k)]
      | none => ⟨false,∅,0⟩
    else s.approximate nTargetValue chance

end

/-! The search keeps its sets and its totals in step -/

section
variable {Ptr : Type} {vValue : List (Coin Ptr)} {nTargetValue : Int}

def totalOf (coins : List (Coin Ptr)) : Int := (coins.map Prod.fst).sum

@[simp] theorem totalOf_cons (coin : Coin Ptr) (coins : List (Coin Ptr)) :
    totalOf (coin :: coins) = coin.1+totalOf coins := by simp [totalOf]

theorem totalOf_perm {coins more : List (Coin Ptr)} (h : coins.Perm more) :
    totalOf coins = totalOf more := (h.map Prod.fst).sum_eq

theorem chosen_cons (coin : Coin Ptr) (vValue : List (Coin Ptr)) (b : Bool) (vf : List Bool) :
    chosen (coin :: vValue) (b :: vf) = if b then coin :: chosen vValue vf else chosen vValue vf := by
  cases b <;> simp [chosen]

theorem chosen_sublist (vValue : List (Coin Ptr)) (vf : List Bool) :
    (chosen vValue vf).Sublist vValue := by
  induction vValue generalizing vf with
  | nil => simp [chosen]
  | cons coin vValue ih =>
    cases vf with
    | nil => simp [chosen]
    | cons b vf =>
      rw [chosen_cons]
      cases b with
      | true => simpa using ih vf
      | false => simpa using (ih vf).cons coin

theorem chosen_all (vValue : List (Coin Ptr)) :
    chosen vValue (List.replicate vValue.length true) = vValue := by
  induction vValue with
  | nil => rfl
  | cons coin vValue ih => simp [List.replicate_succ,chosen_cons,ih]

theorem chosen_none (vValue : List (Coin Ptr)) :
    chosen vValue (List.replicate vValue.length false) = [] := by
  induction vValue with
  | nil => rfl
  | cons coin vValue ih => simp [List.replicate_succ,chosen_cons,ih]

theorem totalOf_chosen_set {vf : List Bool} {i : Nat} {coin : Coin Ptr}
    (hi : vValue[i]? = some coin) (hf : vf[i]? = some false) :
    totalOf (chosen vValue (vf.set i true)) = totalOf (chosen vValue vf)+coin.1 := by
  induction vValue generalizing vf i with
  | nil => simp at hi
  | cons c vValue ih =>
    cases vf with
    | nil => simp at hf
    | cons b vf =>
      cases i with
      | zero =>
        simp only [List.getElem?_cons_zero,Option.some.injEq] at hi hf
        subst hi hf
        simp [chosen_cons,Int.add_comm]
      | succ i =>
        have h := ih (by simpa using hi) (by simpa using hf)
        cases b with
        | true => simp [chosen_cons,h,Int.add_assoc]
        | false => simpa [chosen_cons] using h

/-- The sets of the search and their totals agree, and the best total reaches the target. -/
structure Search.Coherent (vValue : List (Coin Ptr)) (nTargetValue : Int) (s : Search) :
    Prop where
  total : totalOf (chosen vValue s.vfIncluded) = s.nTotal
  best : totalOf (chosen vValue s.vfBest) = s.nBest
  reached : nTargetValue ≤ s.nBest

theorem Search.addCoin_vfIncluded (s : Search) {i j : Nat} (hij : i ≠ j) :
    (s.addCoin vValue nTargetValue i).vfIncluded[j]? = s.vfIncluded[j]? := by
  unfold addCoin
  split
  · rfl
  · dsimp only
    split
    · simp [hij]
    · simp [hij]

theorem Search.Coherent.addCoin {s : Search} {i : Nat} (h : s.Coherent vValue nTargetValue)
    (hf : s.vfIncluded[i]? = some false) :
    (s.addCoin vValue nTargetValue i).Coherent vValue nTargetValue := by
  unfold Search.addCoin
  cases hi : vValue[i]? with
  | none => exact h
  | some coin =>
    have hset := totalOf_chosen_set hi hf
    rw [h.total] at hset
    have hback : s.vfIncluded.set i false = s.vfIncluded := by
      apply List.ext_getElem?
      intro j
      rw [List.getElem?_set]
      split
      · grind
      · rfl
    dsimp only
    split
    · rename_i hle
      refine ⟨?_,?_,?_⟩
      · simp [hback,h.total]
      · dsimp only
        split
        · exact hset
        · exact h.best
      · dsimp only
        split
        · exact hle
        · exact h.reached
    · exact ⟨hset,h.best,h.reached⟩

theorem Search.visit_cases (s : Search) (nPass : Nat) (rand : Nat → Bool) (i : Nat) :
    s.visit vValue nTargetValue nPass rand i = s ∨
      (s.visit vValue nTargetValue nPass rand i = s.addCoin vValue nTargetValue i ∧
        (nPass = 0 ∨ s.vfIncluded.getD i true = false)) := by
  unfold visit
  by_cases hp : nPass = 0
  · simp only [hp,if_true,true_or,and_true]
    split
    · exact .inr rfl
    · exact .inl rfl
  · simp only [hp,if_false,false_or]
    cases s.vfIncluded.getD i true with
    | true => exact .inl rfl
    | false => exact .inr ⟨rfl,rfl⟩

theorem Search.visit_vfIncluded (s : Search) {nPass : Nat} {rand : Nat → Bool} {i j : Nat}
    (hij : i ≠ j) :
    (s.visit vValue nTargetValue nPass rand i).vfIncluded[j]? = s.vfIncluded[j]? := by
  obtain h | ⟨h,-⟩ := Search.visit_cases s nPass rand i
  · rw [h]
  · rw [h,s.addCoin_vfIncluded hij]

theorem Search.Coherent.visit {s : Search} {nPass : Nat} {rand : Nat → Bool} {i : Nat}
    (h : s.Coherent vValue nTargetValue) (hlen : i < s.vfIncluded.length)
    (h0 : nPass = 0 → s.vfIncluded[i]? = some false) :
    (s.visit vValue nTargetValue nPass rand i).Coherent vValue nTargetValue := by
  obtain hv | ⟨hv,hp⟩ := s.visit_cases nPass rand i
  · rw [hv]
    exact h
  · rw [hv]
    apply h.addCoin
    obtain hp | hf := hp
    · exact h0 hp
    · simpa [List.getD_eq_getElem?_getD,List.getElem?_eq_getElem hlen] using hf

theorem Search.Coherent.foldl {s : Search} {nPass : Nat} {rand : Nat → Bool} (l : List Nat)
    (hn : l.Nodup) (h : s.Coherent vValue nTargetValue)
    (hlen : ∀ i ∈ l, i < s.vfIncluded.length)
    (h0 : nPass = 0 → ∀ i ∈ l, s.vfIncluded[i]? = some false) :
    (l.foldl (Search.visit vValue nTargetValue nPass rand) s).Coherent vValue nTargetValue := by
  induction l generalizing s with
  | nil => exact h
  | cons i l ih =>
    rw [List.nodup_cons] at hn
    rw [List.foldl_cons]
    have hsame : ∀ j ∈ l,
        (s.visit vValue nTargetValue nPass rand i).vfIncluded[j]? = s.vfIncluded[j]? := by
      intro j hj
      exact s.visit_vfIncluded (fun he => hn.1 (he ▸ hj))
    apply ih hn.2 (h.visit (hlen i (by simp)) (fun hp => h0 hp i (by simp)))
    · intro j hj
      have hs := hsame j hj
      rw [List.getElem?_eq_getElem (hlen j (by simp [hj]))] at hs
      exact (List.getElem?_eq_some_iff.1 hs).1
    · intro hp j hj
      rw [hsame j hj]
      exact h0 hp j (by simp [hj])

theorem Search.addCoin_length (s : Search) (i : Nat) :
    (s.addCoin vValue nTargetValue i).vfIncluded.length = s.vfIncluded.length := by
  unfold addCoin
  split
  · rfl
  · dsimp only
    split
    · simp
    · simp

theorem Search.pass_length (s : Search) (nPass : Nat) (rand : Nat → Bool) :
    (s.pass vValue nTargetValue nPass rand).vfIncluded.length = s.vfIncluded.length := by
  unfold pass
  generalize List.range vValue.length = l
  induction l generalizing s with
  | nil => rfl
  | cons i l ih =>
    rw [List.foldl_cons,ih]
    obtain h | ⟨h,-⟩ := Search.visit_cases s nPass rand i
    · rw [h]
    · rw [h,s.addCoin_length]

theorem Search.Coherent.repetition {s : Search} (rand : Nat → Bool)
    (h : s.Coherent vValue nTargetValue) :
    (s.repetition vValue nTargetValue rand).Coherent vValue nTargetValue := by
  unfold Search.repetition
  set s₀ : Search := { s with vfIncluded := List.replicate vValue.length false, nTotal := 0,
                              fReachedTarget := false }
  have h₀ : s₀.Coherent vValue nTargetValue :=
    ⟨by simp [s₀,chosen_none,totalOf],h.best,h.reached⟩
  have hlen : s₀.vfIncluded.length = vValue.length := by simp [s₀]
  have h₁ : (s₀.pass vValue nTargetValue 0 rand).Coherent vValue nTargetValue := by
    apply Search.Coherent.foldl _ List.nodup_range h₀
    · simp [hlen]
    · intro _ i hi
      simpa [s₀,List.getElem?_replicate] using hi
  dsimp only
  split
  · exact h₁
  · apply Search.Coherent.foldl _ List.nodup_range h₁
    · simp [Search.pass_length,hlen]
    · intro hp
      exact absurd hp one_ne_zero

theorem Search.Coherent.repetitions {rand : Nat → Nat → Bool} (left : Nat) {s : Search}
    {nRep : Nat} (h : s.Coherent vValue nTargetValue) :
    (Search.repetitions vValue nTargetValue rand nRep left s).Coherent vValue nTargetValue := by
  induction left generalizing s nRep with
  | zero => exact h
  | succ left ih =>
    unfold Search.repetitions
    split
    · exact ih (h.repetition _)
    · exact h

theorem approximateBestSubset_spec (rand : Nat → Nat → Bool) (iterations : Nat)
    {nTotalLower : Int} (hlower : totalOf vValue = nTotalLower)
    (htarget : nTargetValue ≤ nTotalLower) :
    let best := approximateBestSubset vValue nTotalLower nTargetValue rand iterations
    totalOf (chosen vValue best.1) = best.2 ∧ nTargetValue ≤ best.2 := by
  have h : Search.Coherent vValue nTargetValue
      ⟨[],0,false,List.replicate vValue.length true,nTotalLower⟩ :=
    ⟨by simp [chosen,totalOf],by rw [chosen_all,hlower],htarget⟩
  have hrun : (Search.repetitions vValue nTargetValue rand 0 iterations _).Coherent _ _ :=
    h.repetitions iterations
  exact ⟨hrun.best,hrun.reached⟩

end

/-! The loop over the outputs splits the eligible ones -/

section
variable {Ptr : Type} {txs : WalletTxs Ptr} {nTargetValue nConfMine nConfTheirs : Int}

/-- The coins of `done` are those in vValue and a list of larger ones. -/
structure Scan.Splits (nTargetValue : Int) (done : List (Coin Ptr)) (s : Scan Ptr) : Prop where
  total : s.nTotalLower = totalOf s.vValue
  small : ∀ coin ∈ s.vValue, coin.1 < amountAdd nTargetValue CENT
  perm : ∃ larger, (s.vValue ++ larger).Perm done ∧
    (∀ coin ∈ larger, amountAdd nTargetValue CENT ≤ coin.1) ∧
    (s.coinLowestLarger.2 = none → larger = [] ∧ s.coinLowestLarger.1 = maxAmount) ∧
    ∀ k, s.coinLowestLarger.2 = some k → (s.coinLowestLarger.1,k) ∈ larger

theorem Scan.Splits.start : (Scan.start : Scan Ptr).Splits nTargetValue [] :=
  ⟨rfl,by simp [Scan.start],[],by simp [Scan.start],by simp,by simp [Scan.start],
    by simp [Scan.start]⟩

/-- What the loop ends with: a coin of exactly the target's value, or a split of all coins. -/
def Scan.Ends (nTargetValue : Int) (coins : List (Coin Ptr)) (s : Scan Ptr) : Prop :=
  (∃ coin ∈ coins, coin.1 = nTargetValue ∧ s.exactCoin = some coin) ∨
    (s.exactCoin = none ∧ s.Splits nTargetValue coins)

theorem Scan.Splits.lower {done : List (Coin Ptr)} {s : Scan Ptr} {coin : Coin Ptr}
    (h : s.Splits nTargetValue done) (hlt : coin.1 < amountAdd nTargetValue CENT) :
    Scan.Splits nTargetValue (done ++ [coin])
      { s with vValue := s.vValue ++ [coin], nTotalLower := s.nTotalLower+coin.1 } := by
  obtain ⟨larger,hperm,hlarge,hnone,hsome⟩ := h.perm
  refine ⟨by simp [h.total,totalOf],?_,larger,?_,hlarge,hnone,hsome⟩
  · intro c hc
    obtain hc | hc := List.mem_append.1 hc
    · exact h.small c hc
    · rw [List.mem_singleton.1 hc]
      exact hlt
  · have hmove : (s.vValue ++ [coin] ++ larger).Perm (s.vValue ++ larger ++ [coin]) := by
      rw [List.append_assoc,List.append_assoc]
      exact List.perm_append_comm.append_left _
    exact hmove.trans (hperm.append_right _)

theorem Scan.Splits.larger {done : List (Coin Ptr)} {s : Scan Ptr} {coin : Coin Ptr}
    (h : s.Splits nTargetValue done) (hle : amountAdd nTargetValue CENT ≤ coin.1)
    (hmax : coin.1 < maxAmount) :
    Scan.Splits nTargetValue (done ++ [coin])
      (if coin.1 < s.coinLowestLarger.1 then
        { s with coinLowestLarger := (coin.1,some coin.2) } else s) := by
  obtain ⟨larger,hperm,hlarge,hnone,hsome⟩ := h.perm
  have hperm' : (s.vValue ++ (larger ++ [coin])).Perm (done ++ [coin]) := by
    rw [← List.append_assoc]
    exact hperm.append_right _
  have hlarge' : ∀ c ∈ larger ++ [coin], amountAdd nTargetValue CENT ≤ c.1 := by
    intro c hc
    obtain hc | hc := List.mem_append.1 hc
    · exact hlarge c hc
    · rw [List.mem_singleton.1 hc]
      exact hle
  split
  · exact ⟨h.total,h.small,_,hperm',hlarge',by simp,by simp⟩
  · rename_i hge
    refine ⟨h.total,h.small,_,hperm',hlarge',?_,?_⟩
    · intro hn
      exact absurd ((hnone hn).2 ▸ hmax) hge
    · intro k hk
      exact List.mem_append_left _ (hsome k hk)

theorem Scan.run_ends (vCoins : List (COutput Ptr)) {done : List (Coin Ptr)} {s : Scan Ptr}
    (hmax : ∀ output ∈ vCoins, txs.valueOf output.key < maxAmount) (hs : s.exactCoin = none)
    (h : s.Splits nTargetValue done) :
    (Scan.run txs nTargetValue nConfMine nConfTheirs s vCoins).Ends nTargetValue
      (done ++ (vCoins.filter (txs.eligible nConfMine nConfTheirs)).map txs.coin) := by
  induction vCoins generalizing done s with
  | nil => exact .inr ⟨hs,by simpa [run] using h⟩
  | cons output vCoins ih =>
    have hout := hmax output (by simp)
    have hrest : ∀ o ∈ vCoins, txs.valueOf o.key < maxAmount := by
      intro o ho
      exact hmax o (by simp [ho])
    unfold run
    by_cases he : txs.eligible nConfMine nConfTheirs output = true
    · have hcons : ∀ l : List (Coin Ptr),
          done ++ txs.coin output :: l = (done ++ [txs.coin output]) ++ l := by simp
      simp only [he,Bool.not_true,Bool.false_eq_true,if_false,List.filter_cons_of_pos,
        List.map_cons]
      split
      · rename_i heq
        exact .inl ⟨_,by simp,heq,rfl⟩
      · rw [hcons]
        split
        · rename_i hlt
          exact ih hrest hs (h.lower hlt)
        · rename_i hge
          have hl := h.larger (Int.not_lt.1 hge) hout
          split
          · rename_i hlt
            rw [if_pos hlt] at hl
            exact ih hrest hs hl
          · rename_i hnl
            rw [if_neg hnl] at hl
            exact ih hrest hs hl
    · simp only [he,Bool.not_false,if_true,List.filter_cons_of_neg,Bool.false_eq_true,
        not_false_eq_true]
      exact ih hrest hs h

end

/-! The selection -/

section
variable {Ptr : Type} {txs : WalletTxs Ptr} {nTargetValue nConfMine nConfTheirs : Int}
  {vCoins : List (COutput Ptr)} {chance : Chance Ptr}

theorem totalOf_coin (outputs : List (COutput Ptr)) :
    totalOf (outputs.map txs.coin) = (outputs.map fun o => txs.valueOf o.key).sum := by
  simp [totalOf,WalletTxs.coin,Function.comp_def]

theorem totalOf_le_of_subperm {coins more : List (Coin Ptr)} (h : coins.Subperm more)
    (hpos : ∀ coin ∈ more, 0 < coin.1) : totalOf coins ≤ totalOf more := by
  obtain ⟨l,hperm,hsub⟩ := h
  rw [← totalOf_perm hperm]
  apply (hsub.map Prod.fst).sum_le_sum
  intro n hn
  obtain ⟨coin,hcoin,rfl⟩ := List.mem_map.1 hn
  exact (hpos coin hcoin).le

theorem Scan.bestSubset_spec {done : List (Coin Ptr)} {s : Scan Ptr}
    (hadd : nTargetValue ≤ amountAdd nTargetValue CENT) (h : s.Splits nTargetValue done)
    (hlower : nTargetValue ≤ s.nTotalLower) :
    nTargetValue ≤ totalOf (chosen (chance.sort s.vValue) (s.bestSubset nTargetValue chance).1) := by
  have hsort : totalOf (chance.sort s.vValue) = s.nTotalLower := by
    rw [totalOf_perm (chance.sort_perm _),h.total]
  unfold bestSubset
  dsimp only
  split
  · rename_i hc
    have hs := approximateBestSubset_spec (chance.rand 1) 1000 hsort hc.2
    rw [hs.1]
    exact hadd.trans hs.2
  · have hs := approximateBestSubset_spec (chance.rand 0) 1000 hsort hlower
    rw [hs.1]
    exact hs.2

theorem amountAdd_eq {a b : Int} (ha : 0 ≤ a) (hb : 0 ≤ b) (h : a+b < 2^63) :
    amountAdd a b = a+b := by
  unfold amountAdd
  rw [Int.bmod_def]
  omega

theorem amountAdd_neg {a b : Int} (ha : a < 2^63) (hb : b < 2^63) (h : 2^63 ≤ a+b) :
    amountAdd a b < 0 := by
  unfold amountAdd
  rw [Int.bmod_def]
  omega

/-- The eligible outputs in the order of the shuffle. -/
def shuffled (txs : WalletTxs Ptr) (chance : Chance Ptr) (nConfMine nConfTheirs : Int)
    (vCoins : List (COutput Ptr)) : List (COutput Ptr) :=
  (chance.shuffle vCoins).filter (txs.eligible nConfMine nConfTheirs)

theorem shuffled_perm (txs : WalletTxs Ptr) (chance : Chance Ptr) (nConfMine nConfTheirs : Int)
    (vCoins : List (COutput Ptr)) :
    (shuffled txs chance nConfMine nConfTheirs vCoins).Perm
      (vCoins.filter (txs.eligible nConfMine nConfTheirs)) :=
  (chance.shuffle_perm vCoins).filter _

theorem value_le_max (hpos : ∀ o ∈ vCoins, 0 < txs.valueOf o.key)
    (hrange : moneyRange ((vCoins.map fun o => txs.valueOf o.key).sum) = true)
    {outputs : List (COutput Ptr)} (h : outputs.Subperm vCoins) :
    (outputs.map fun o => txs.valueOf o.key).sum ≤ MAX_MONEY := by
  have hcoins : (outputs.map txs.coin).Subperm (vCoins.map txs.coin) := by
    obtain ⟨l,hperm,hl⟩ := h
    exact ⟨l.map txs.coin,hperm.map _,hl.map _⟩
  have hle := totalOf_le_of_subperm hcoins (by
    intro coin hcoin
    obtain ⟨o,ho,rfl⟩ := List.mem_map.1 hcoin
    exact hpos o ho)
  rw [totalOf_coin,totalOf_coin] at hle
  simp only [moneyRange,Bool.and_eq_true,decide_eq_true_eq] at hrange
  exact hle.trans hrange.2

theorem selectCoinsMinConf_ends (nTargetValue nConfMine nConfTheirs : Int) (chance : Chance Ptr)
    (hpos : ∀ o ∈ vCoins, 0 < txs.valueOf o.key)
    (hrange : moneyRange ((vCoins.map fun o => txs.valueOf o.key).sum) = true) :
    (Scan.run txs nTargetValue nConfMine nConfTheirs .start (chance.shuffle vCoins)).Ends
      nTargetValue ((shuffled txs chance nConfMine nConfTheirs vCoins).map txs.coin) := by
  apply Scan.run_ends _ _ rfl Scan.Splits.start
  intro o ho
  have hmem := (chance.shuffle_perm vCoins).subset ho
  have hle := value_le_max hpos hrange (List.singleton_subperm_iff.2 hmem)
  simp only [List.map_cons,List.map_nil,List.sum_cons,List.sum_nil,Int.add_zero,MAX_MONEY,
    COIN] at hle
  simp only [maxAmount]
  omega

end

section
variable {Ptr : Type} [DecidableEq Ptr] {txs : WalletTxs Ptr}
  {nTargetValue nConfMine nConfTheirs : Int} {vCoins : List (COutput Ptr)} {chance : Chance Ptr}

/-- The selection succeeds exactly when the eligible outputs reach the target, and then it is a
subset of them with the returned value, which reaches the target. -/
structure Selection.Sound (txs : WalletTxs Ptr) (outputs : List (COutput Ptr))
    (nTargetValue : Int) (r : Selection Ptr) : Prop where
  result_iff : r.fResult = true ↔ nTargetValue ≤ (outputs.map fun o => txs.valueOf o.key).sum
  subset : r.fResult = true → r.setCoinsRet ⊆ (outputs.map COutput.key).toFinset
  value : r.fResult = true → ∑ k ∈ r.setCoinsRet, txs.valueOf k = r.nValueRet
  enough : r.fResult = true → nTargetValue ≤ r.nValueRet

theorem Selection.of_eq (coins : List (Coin Ptr)) :
    Selection.of coins = ⟨true,(coins.map Prod.snd).toFinset,totalOf coins⟩ := by
  have hfold : ∀ (set : Finset (Ptr × Nat)) (n : Int),
      coins.foldl (fun r coin => ⟨true,insert coin.2 r.setCoinsRet,r.nValueRet+coin.1⟩)
        (⟨true,set,n⟩ : Selection Ptr) =
      ⟨true,set ∪ (coins.map Prod.snd).toFinset,n+totalOf coins⟩ := by
    induction coins with
    | nil => intro set n; simp [totalOf]
    | cons coin coins ih =>
      intro set n
      rw [List.foldl_cons,ih]
      simp [Int.add_assoc,Finset.insert_union,Finset.union_insert]
  unfold of
  rw [hfold]
  simp

/-- Any part of the eligible coins that reaches the target is a sound selection. -/
theorem Selection.of_sound {outputs : List (COutput Ptr)} {coins : List (Coin Ptr)}
    (hnodup : (outputs.map COutput.key).Nodup) (hpos : ∀ o ∈ outputs, 0 < txs.valueOf o.key)
    (hsub : coins.Subperm (outputs.map txs.coin)) (htarget : nTargetValue ≤ totalOf coins) :
    (Selection.of coins).Sound txs outputs nTargetValue := by
  have hkeys : (coins.map Prod.snd).Subperm (outputs.map COutput.key) := by
    obtain ⟨l,hperm,hl⟩ := hsub
    refine ⟨l.map Prod.snd,hperm.map _,?_⟩
    have h := hl.map Prod.snd
    rwa [List.map_map] at h
  have hvalue : coins.map Prod.fst = (coins.map Prod.snd).map txs.valueOf := by
    rw [List.map_map]
    apply List.map_congr_left
    intro coin hcoin
    obtain ⟨o,-,rfl⟩ := List.mem_map.1 (hsub.subset hcoin)
    rfl
  rw [of_eq]
  refine ⟨?_,?_,?_,?_⟩
  · rw [← totalOf_coin]
    refine iff_of_true rfl (htarget.trans (totalOf_le_of_subperm hsub ?_))
    intro coin hcoin
    obtain ⟨o,ho,rfl⟩ := List.mem_map.1 hcoin
    exact hpos o ho
  · intro _ k hk
    exact List.mem_toFinset.2 (hkeys.subset (List.mem_toFinset.1 hk))
  · intro _
    have hn : (coins.map Prod.snd).Nodup := by
      obtain ⟨l,hperm,hl⟩ := hkeys
      exact hperm.nodup_iff.1 (hl.nodup hnodup)
    rw [List.sum_toFinset _ hn,← hvalue]
    rfl
  · intro _
    exact htarget

theorem Scan.approximate_sound {outputs : List (COutput Ptr)} {s : Scan Ptr}
    (hnodup : (outputs.map COutput.key).Nodup) (hpos : ∀ o ∈ outputs, 0 < txs.valueOf o.key)
    (hadd : nTargetValue ≤ amountAdd nTargetValue CENT)
    (h : s.Splits nTargetValue (outputs.map txs.coin)) (hlower : nTargetValue ≤ s.nTotalLower) :
    (s.approximate nTargetValue chance).Sound txs outputs nTargetValue := by
  obtain ⟨larger,hperm,hlarge,-,hsome⟩ := h.perm
  have hchosen : (Selection.of (chosen (chance.sort s.vValue)
      (s.bestSubset nTargetValue chance).1)).Sound txs outputs nTargetValue := by
    apply Selection.of_sound hnodup hpos _ (s.bestSubset_spec hadd h hlower)
    have hsub := (chosen_sublist (chance.sort s.vValue) (s.bestSubset nTargetValue chance).1).subperm
    have hpart := (List.sublist_append_left s.vValue larger).subperm
    exact (hsub.trans (chance.sort_perm _).subperm).trans (hpart.trans hperm.subperm)
  unfold approximate
  dsimp only
  split
  · rename_i k hk
    split
    · have hmem := hsome k hk
      apply Selection.of_sound hnodup hpos
      · apply List.singleton_subperm_iff.2
        exact hperm.subset (List.mem_append_right _ hmem)
      · have hle := hlarge _ hmem
        simpa [totalOf] using hadd.trans hle
    · exact hchosen
  · exact hchosen

theorem selectCoinsMinConf_sound_shuffled (hnodup : (vCoins.map COutput.key).Nodup)
    (hpos : ∀ o ∈ vCoins, 0 < txs.valueOf o.key)
    (hrange : moneyRange ((vCoins.map fun o => txs.valueOf o.key).sum) = true)
    (hadd : nTargetValue ≤ amountAdd nTargetValue CENT) :
    (selectCoinsMinConf txs chance nTargetValue nConfMine nConfTheirs vCoins).Sound txs
      (shuffled txs chance nConfMine nConfTheirs vCoins) nTargetValue := by
  have hends := selectCoinsMinConf_ends nTargetValue nConfMine nConfTheirs chance hpos hrange
  set outputs := shuffled txs chance nConfMine nConfTheirs vCoins with houtputs
  have hsub : outputs.Subperm vCoins :=
    (shuffled_perm txs chance nConfMine nConfTheirs vCoins).subperm.trans
      List.filter_sublist.subperm
  have hn : (outputs.map COutput.key).Nodup := by
    obtain ⟨l,hperm,hl⟩ := hsub
    exact (hperm.map _).nodup_iff.1 ((hl.map _).nodup hnodup)
  have hp : ∀ o ∈ outputs, 0 < txs.valueOf o.key := fun o ho => hpos o (hsub.subset ho)
  unfold selectCoinsMinConf
  obtain ⟨coin,hcoin,heq,hexact⟩ | ⟨hexact,hsplit⟩ := hends
  · dsimp only
    rw [hexact]
    apply Selection.of_sound hn hp (List.singleton_subperm_iff.2 hcoin)
    simp [totalOf,heq]
  · dsimp only
    rw [hexact]
    obtain ⟨larger,hperm,hlarge,hnone,hsome⟩ := hsplit.perm
    dsimp only
    split
    · rename_i heq
      apply Selection.of_sound hn hp
      · exact ((List.sublist_append_left _ larger).subperm).trans hperm.subperm
      · rw [← hsplit.total,heq]
    · split
      · rename_i hlt
        split
        · rename_i k hk
          have hmem := hsome k hk
          apply Selection.of_sound hn hp
          · exact List.singleton_subperm_iff.2 (hperm.subset (List.mem_append_right _ hmem))
          · simpa [totalOf] using hadd.trans (hlarge _ hmem)
        · rename_i hk
          have hsum : (outputs.map fun o => txs.valueOf o.key).sum < nTargetValue := by
            rw [← totalOf_coin,← totalOf_perm hperm,(hnone hk).1,List.append_nil,← hsplit.total]
            exact hlt
          refine ⟨iff_of_false (by simp) (Int.not_le.2 hsum),?_,?_,?_⟩ <;> simp
      · rename_i hne hnlt
        exact Scan.approximate_sound hn hp hadd hsplit (Int.not_lt.1 hnlt)

theorem Selection.Sound.perm {outputs others : List (COutput Ptr)} {r : Selection Ptr}
    (hr : r.Sound txs outputs nTargetValue) (h : outputs.Perm others) :
    r.Sound txs others nTargetValue := by
  refine ⟨?_,?_,hr.value,hr.enough⟩
  · rw [hr.result_iff,(h.map _).sum_eq]
  · intro hres
    rw [← List.toFinset_eq_of_perm _ _ (h.map COutput.key)]
    exact hr.subset hres

/-- Below the limit of CAmount every outcome of the selection is sound and complete. -/
theorem selectCoinsMinConf_sound (hnodup : (vCoins.map COutput.key).Nodup)
    (hpos : ∀ o ∈ vCoins, 0 < txs.valueOf o.key)
    (hrange : moneyRange ((vCoins.map fun o => txs.valueOf o.key).sum) = true)
    (htarget : 0 < nTargetValue) (hfits : nTargetValue+CENT < 2^63) :
    (selectCoinsMinConf txs chance nTargetValue nConfMine nConfTheirs vCoins).Sound txs
      (vCoins.filter (txs.eligible nConfMine nConfTheirs)) nTargetValue := by
  have hcent : amountAdd nTargetValue CENT = nTargetValue+CENT :=
    amountAdd_eq htarget.le (by decide) hfits
  have hadd : nTargetValue ≤ amountAdd nTargetValue CENT := by
    rw [hcent]
    simp [CENT]
  exact (selectCoinsMinConf_sound_shuffled hnodup hpos hrange hadd).perm
    (shuffled_perm txs chance nConfMine nConfTheirs vCoins)

/-- When the target plus CENT wraps, every eligible output passes for a larger coin. -/
theorem selectCoinsMinConf_wrapped (hpos : ∀ o ∈ vCoins, 0 < txs.valueOf o.key)
    (hrange : moneyRange ((vCoins.map fun o => txs.valueOf o.key).sum) = true)
    (htarget : MAX_MONEY < nTargetValue) (hadd : amountAdd nTargetValue CENT < 0)
    (hne : vCoins.filter (txs.eligible nConfMine nConfTheirs) ≠ []) :
    (selectCoinsMinConf txs chance nTargetValue nConfMine nConfTheirs vCoins).fResult = true := by
  have hends := selectCoinsMinConf_ends nTargetValue nConfMine nConfTheirs chance hpos hrange
  have hperm' := shuffled_perm txs chance nConfMine nConfTheirs vCoins
  set outputs := shuffled txs chance nConfMine nConfTheirs vCoins with houtputs
  have hp : ∀ coin ∈ outputs.map txs.coin, 0 < coin.1 := by
    intro coin hcoin
    obtain ⟨o,ho,rfl⟩ := List.mem_map.1 hcoin
    exact hpos o (List.mem_of_mem_filter (hperm'.subset ho))
  unfold selectCoinsMinConf
  obtain ⟨coin,hcoin,heq,hexact⟩ | ⟨hexact,hsplit⟩ := hends
  · dsimp only
    rw [hexact]
    rfl
  · obtain ⟨larger,hperm,hlarge,hnone,hsome⟩ := hsplit.perm
    have hempty : (Scan.run txs nTargetValue nConfMine nConfTheirs .start
        (chance.shuffle vCoins)).vValue = [] := by
      apply List.eq_nil_iff_forall_not_mem.2
      intro coin hcoin
      have h₁ := hsplit.small coin hcoin
      have h₂ := hp coin (hperm.subset (List.mem_append_left _ hcoin))
      omega
    have htotal := hsplit.total
    rw [hempty] at htotal hperm
    have hlt : (0 : Int) < nTargetValue := by
      simp only [MAX_MONEY,COIN] at htarget
      omega
    dsimp only
    rw [hexact]
    dsimp only
    rw [htotal,if_neg (by simp [totalOf]; omega),if_pos (by simp [totalOf]; omega)]
    split
    · rfl
    · rename_i hk
      rw [(hnone hk).1] at hperm
      exfalso
      apply hne
      have houts : outputs = [] := List.map_eq_nil_iff.1 hperm.symm.eq_nil
      rw [houts] at hperm'
      exact hperm'.symm.eq_nil

theorem selectCoinsMinConf_empty (hpos : ∀ o ∈ vCoins, 0 < txs.valueOf o.key)
    (hrange : moneyRange ((vCoins.map fun o => txs.valueOf o.key).sum) = true)
    (htarget : 0 < nTargetValue)
    (hnil : vCoins.filter (txs.eligible nConfMine nConfTheirs) = []) :
    selectCoinsMinConf txs chance nTargetValue nConfMine nConfTheirs vCoins = ⟨false,∅,0⟩ := by
  have hends := selectCoinsMinConf_ends nTargetValue nConfMine nConfTheirs chance hpos hrange
  have houts := (hnil ▸ shuffled_perm txs chance nConfMine nConfTheirs vCoins).eq_nil
  rw [houts] at hends
  unfold selectCoinsMinConf
  obtain ⟨coin,hcoin,-,-⟩ | ⟨hexact,hsplit⟩ := hends
  · simp at hcoin
  · obtain ⟨larger,hperm,-,-,hsome⟩ := hsplit.perm
    obtain ⟨hempty,hlarger⟩ := List.append_eq_nil_iff.1 hperm.eq_nil
    have htotal := hsplit.total
    rw [hempty] at htotal
    dsimp only
    rw [hexact]
    dsimp only
    rw [htotal,if_neg (by simp [totalOf]; omega),if_pos (by simp [totalOf]; omega)]
    split
    · rename_i k hk
      have hmem := hsome k hk
      simp [hlarger] at hmem
    · rfl

/-- For every outcome of the shuffle, the sort and the random bits, the selection is sound and
complete unless the target plus CENT leaves the range of CAmount. -/
theorem selectCoinsMinConf_sound_iff (txs : WalletTxs Ptr) (chance : Chance Ptr)
    (nTargetValue nConfMine nConfTheirs : Int) (vCoins : List (COutput Ptr))
    (hnodup : (vCoins.map COutput.key).Nodup) (hpos : ∀ o ∈ vCoins, 0 < txs.valueOf o.key)
    (hrange : moneyRange ((vCoins.map fun o => txs.valueOf o.key).sum) = true)
    (htarget : 0 < nTargetValue) (hamount : nTargetValue < 2^63) :
    (selectCoinsMinConf txs chance nTargetValue nConfMine nConfTheirs vCoins).Sound txs
        (vCoins.filter (txs.eligible nConfMine nConfTheirs)) nTargetValue ↔
      nTargetValue+CENT < 2^63 ∨ vCoins.filter (txs.eligible nConfMine nConfTheirs) = [] := by
  by_cases hfits : nTargetValue+CENT < 2^63
  · exact iff_of_true (selectCoinsMinConf_sound hnodup hpos hrange htarget hfits) (.inl hfits)
  · have hneg : amountAdd nTargetValue CENT < 0 :=
      amountAdd_neg hamount (by decide) (Int.not_lt.1 hfits)
    have hlarge : MAX_MONEY < nTargetValue := by
      simp only [CENT,MAX_MONEY,COIN] at hfits ⊢
      omega
    simp only [hfits,false_or]
    constructor
    · intro h
      by_contra hne
      have hle := h.result_iff.1 (selectCoinsMinConf_wrapped hpos hrange hlarge hneg hne)
      have hsub : (vCoins.filter (txs.eligible nConfMine nConfTheirs)).Subperm vCoins :=
        List.filter_sublist.subperm
      have hmax := value_le_max hpos hrange hsub
      omega
    · intro hnil
      rw [selectCoinsMinConf_empty hpos hrange htarget hnil,hnil]
      refine ⟨iff_of_false (by simp) (by simpa using htarget),?_,?_,?_⟩ <;> simp

end

/-- One confirmed output of one coin. -/
def oneCoin : WalletTxs Unit := ⟨fun _ => [⟨1,[]⟩],fun _ => false⟩

/-- The outcome that leaves every order as it is and draws only ones. -/
def plainChance (Ptr : Type) : Chance Ptr where
  shuffle := id
  shuffle_perm := fun l => .refl l
  sort := fun l => l.mergeSort fun a b => decide (b.1 ≤ a.1)
  sort_perm := fun l => List.mergeSort_perm l _
  sort_sorted := by
    intro l
    have h : (l.mergeSort fun a b => decide (b.1 ≤ a.1)).Pairwise
        fun a b => decide (b.1 ≤ a.1) = true :=
      List.pairwise_mergeSort (by grind) (by grind) l
    simpa using h
  rand := fun _ _ _ => true

theorem selectCoinsMinConf_sound_one :
    (selectCoinsMinConf oneCoin (plainChance Unit) 1 1 6 [⟨(),0,6,true⟩]).Sound oneCoin
      ([⟨(),0,6,true⟩].filter (oneCoin.eligible 1 6)) 1 :=
  (selectCoinsMinConf_sound_iff oneCoin (plainChance Unit) 1 1 6 [⟨(),0,6,true⟩] (by simp)
    (by decide) (by decide) (by decide) (by decide)).2 (.inl (by decide))

/-- A single unit is returned as enough for the largest amount. -/
theorem selectCoinsMinConf_wraps :
    (selectCoinsMinConf oneCoin (plainChance Unit) (2^63-1) 1 6 [⟨(),0,6,true⟩]).fResult = true ∧
      (selectCoinsMinConf oneCoin (plainChance Unit) (2^63-1) 1 6 [⟨(),0,6,true⟩]).nValueRet = 1 ∧
      ¬ (selectCoinsMinConf oneCoin (plainChance Unit) (2^63-1) 1 6 [⟨(),0,6,true⟩]).Sound oneCoin
        ([⟨(),0,6,true⟩].filter (oneCoin.eligible 1 6)) (2^63-1) := by
  refine ⟨by decide,by decide,?_⟩
  intro h
  exact absurd (h.enough (by decide)) (by decide)

end Anoncoin
