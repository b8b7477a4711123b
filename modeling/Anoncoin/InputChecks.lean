import Anoncoin.ConnectSpec

/-!
When `CheckInputs` succeeds, for any view whose reads are answered from one map: the
condition on the map, that success gives it, and that it gives success.
-/

set_option autoImplicit false

namespace Anoncoin
open Lib

namespace PlainCoins

/-- The inputs are there and pay for the outputs. -/
structure Spends (m : PlainCoins) (tx : CTransaction) : Prop where
  available : ∀ txin ∈ tx.vin, ∃ o, m.output txin.prevout = some o ∧ moneyRange o.nValue = true
  valueIn : moneyRange (m.inputValue tx.vin) = true
  valueOut : ∃ v, tx.getValueOut = some v ∧ v ≤ m.inputValue tx.vin

/-- No input comes from a coinbase that is too young at the height. -/
def Mature (m : PlainCoins) (nSpendHeight : Nat) (tx : CTransaction) : Prop :=
  ∀ txin ∈ tx.vin, ∀ c, m txin.prevout.hash = some c → c.fCoinBase = true →
    ¬(nSpendHeight : Int)-c.nHeight < COINBASE_MATURITY

variable {m m' : PlainCoins} {tx : CTransaction}

theorem inputValue_congr {vin : List CTxIn}
    (h : ∀ txin ∈ vin, m'.output txin.prevout = m.output txin.prevout) :
    m'.inputValue vin = m.inputValue vin := by
  unfold inputValue
  rw [List.map_congr_left]
  intro txin hin
  rw [h txin hin]

theorem Spends.output_ne (hs : m.Spends tx) {txin : CTxIn} (hin : txin ∈ tx.vin) :
    m.output txin.prevout ≠ none := by
  obtain ⟨o,ho,-⟩ := hs.available txin hin
  rw [ho]
  exact Option.some_ne_none o

theorem inputValue_cons (txin : CTxIn) (rest : List CTxIn) {o : CTxOut}
    (h : m.output txin.prevout = some o) :
    m.inputValue (txin :: rest) = o.nValue+m.inputValue rest := by
  simp [inputValue,h]

theorem inputValue_nonneg {vin : List CTxIn}
    (h : ∀ txin ∈ vin, ∃ o, m.output txin.prevout = some o ∧ moneyRange o.nValue = true) :
    0 ≤ m.inputValue vin := by
  induction vin with
  | nil => simp [inputValue]
  | cons txin rest ih =>
    obtain ⟨o,ho,hr⟩ := h txin (by simp)
    have hrest := ih fun x hx => h x (by simp [hx])
    have h₀ := ((moneyRange_iff _).mp hr).1
    rw [inputValue_cons txin rest ho]
    omega

/-- Outputs that are there and named once each can all be spent. -/
theorem spendAll_of_available {vin : List CTxIn} (hnd : (vin.map CTxIn.prevout).Nodup)
    (h : ∀ txin ∈ vin, m.output txin.prevout ≠ none) : ∃ us m', m.spendAll vin = some (us,m') := by
  induction vin generalizing m with
  | nil => exact ⟨[],m,rfl⟩
  | cons txin rest ih =>
    rw [List.map_cons,List.nodup_cons] at hnd
    obtain ⟨o,ho⟩ := Option.ne_none_iff_exists'.mp (h txin (by simp))
    obtain ⟨c,hc,hco⟩ := Option.bind_eq_some_iff.mp ho
    have hsome : (c.spend txin.prevout).isSome = true := by
      rw [CCoins.spend_isSome,← CCoins.output_isSome,hco]
      rfl
    obtain ⟨⟨c',u⟩,hs⟩ := Option.isSome_iff_exists.mp hsome
    have hspend : m.spend txin.prevout =
        some (u,Function.update m txin.prevout.hash c'.unspent) := by
      simp [spend,hc,hs]
    obtain ⟨-,hout⟩ := spend_output hspend
    have hrest : ∀ x ∈ rest, output (Function.update m txin.prevout.hash c'.unspent) x.prevout ≠
        none := by
      intro x hx
      have hne : x.prevout ≠ txin.prevout := by
        intro he
        exact hnd.1 (he ▸ List.mem_map_of_mem hx)
      rw [hout,if_neg hne]
      exact h x (by simp [hx])
    obtain ⟨us,m',hall⟩ := ih hnd.2 hrest
    exact ⟨u :: us,m',by simp [spendAll,hspend,hall]⟩

end PlainCoins

namespace CCoinsView

variable {inv : CCoinsView → Prop} {m : PlainCoins} {best : Uint256} {v : CCoinsView}

/-- An output that the map has is handed out with its record. -/
theorem ReadsFrom.access_output (h : ReadsFrom inv m best) (hv : inv v) {out : COutPoint}
    {o : CTxOut} (ho : m.output out = some o) :
    ∃ c v', v.accessCoins out.hash = (some c,v') ∧ inv v' ∧ m out.hash = some c ∧
      c.vout[out.n]? = some o ∧ c.isAvailable out.n = true := by
  obtain ⟨hans,hinv⟩ := h.access v out.hash hv
  obtain ⟨c,hc,hco⟩ := Option.bind_eq_some_iff.mp ho
  cases ha : v.accessCoins out.hash with
  | mk r v' =>
  rw [ha] at hans hinv
  cases r with
  | none =>
    rw [hc] at hans
    contradiction
  | some d =>
    rw [hc,Option.bind_some] at hans
    obtain ⟨rfl,-⟩ := CCoins.unspent_eq_some.mp hans
    refine ⟨d,v',rfl,hinv,hc,(CCoins.output_eq_some.mp hco).1,?_⟩
    rw [← CCoins.output_isSome,hco]
    rfl

end CCoinsView

namespace NodeEnv
open CCoinsView
variable {env : NodeEnv} {inv : CCoinsView → Prop} {m : PlainCoins} {best : Uint256}
  {v : CCoinsView}

/-- What the value loop of `CheckInputs` has found out when it gets to its end. -/
theorem checkInputValues_finds (h : ReadsFrom inv m best) (hv : inv v) (nSpendHeight : Nat)
    {vin : List CTxIn} {n : Int} (hn : moneyRange n = true) :
    Meets (fun _ => True) (checkInputValues nSpendHeight v n vin) fun r =>
      r.1 = n+m.inputValue vin ∧ moneyRange r.1 = true ∧
      ∀ txin ∈ vin, (∃ o, m.output txin.prevout = some o ∧ moneyRange o.nValue = true) ∧
        ∀ c, m txin.prevout.hash = some c → c.fCoinBase = true →
          ¬(nSpendHeight : Int)-c.nHeight < COINBASE_MATURITY := by
  induction vin generalizing v n with
  | nil => exact ⟨by simp [PlainCoins.inputValue],hn,fun txin hin => by simp at hin⟩
  | cons txin rest ih =>
    unfold checkInputValues
    obtain ⟨hans,hinv⟩ := h.access v txin.prevout.hash hv
    cases ha : v.accessCoins txin.prevout.hash with
    | mk r v' =>
    rw [ha] at hans hinv
    cases r with
    | none => trivial
    | some c =>
      simp only
      apply (Meets.ensure trivial).bind
      intro _ hmature
      apply (Meets.orThrow fun _ => trivial).bind
      intro o ho
      apply (Meets.orThrow fun _ => trivial).bind
      intro k hk
      obtain rfl := addInt64_eq_some hk
      apply (Meets.ensure trivial).bind
      intro _ hrange
      obtain ⟨hro,hrn⟩ := Bool.and_eq_true_iff.mp hrange
      apply (ih hinv hrn).mono
      rintro r ⟨hval,hrr,hall⟩
      have hsome := h.output_in_range hv ha ho hro
      refine ⟨?_,hrr,?_⟩
      · rw [PlainCoins.inputValue_cons txin rest hsome,hval]
        omega
      · intro x hx
        rcases List.mem_cons.mp hx with rfl | hx
        · refine ⟨⟨o,hsome,hro⟩,?_⟩
          intro d hd hcb
          rw [hd,Option.bind_some] at hans
          obtain ⟨rfl,-⟩ := CCoins.unspent_eq_some.mp hans
          simpa [hcb] using hmature
        · exact hall x hx

theorem checkInputs_finds (h : ReadsFrom inv m best) (hv : inv v) {tx : CTransaction}
    (hcb : tx.isCoinBase = false) (fScriptChecks : Bool) (flags : Nat) :
    Meets (fun _ => True) (env.checkInputs tx v fScriptChecks flags) fun _ =>
      best ≠ 0 ∧ m.Spends tx ∧ ∃ nHeight, env.blockHeight best = some nHeight ∧ m.Mature (nHeight+1) tx := by
  unfold checkInputs
  obtain ⟨-,hinv₁⟩ := h.haveInputs hv hcb
  obtain ⟨hbest,hinv₂⟩ := h.best _ hinv₁
  simp only [hcb,Bool.false_eq_true,if_false]
  apply (Meets.ensure trivial).bind
  intro _ _
  apply (Meets.ensure trivial).bind
  intro _ hne
  apply (Meets.orThrow fun _ => trivial).bind
  intro nHeight hheight
  rw [hbest] at hne hheight
  apply (checkInputValues_finds h hinv₂ (nHeight+1) (by decide)).bind
  rintro ⟨nValueIn,v'⟩ ⟨hval,hrange,hall⟩
  simp only [Int.zero_add] at hval
  subst hval
  apply (Meets.orThrow fun _ => trivial).bind
  intro nValueOut hout
  apply (Meets.ensure trivial).bind
  intro _ hpay
  apply (Meets.ensure trivial).bind
  intro _ _
  apply (Meets.ensure trivial).bind
  intro _ _
  have hspends : m.Spends tx := by
    refine ⟨fun txin hin => (hall txin hin).1,hrange,nValueOut,hout,?_⟩
    simpa using hpay
  apply (meets_any _).mono
  intro _ _
  exact ⟨by simpa using hne,hspends,nHeight,hheight,fun txin hin => (hall txin hin).2⟩

/-- The value loop goes through when the outputs are there. -/
theorem checkInputValues_ok (h : ReadsFrom inv m best) (hv : inv v) {nSpendHeight : Nat}
    {vin : List CTxIn} {n : Int} (hn : 0 ≤ n) (hle : n+m.inputValue vin ≤ MAX_MONEY)
    (hout : ∀ txin ∈ vin, ∃ o, m.output txin.prevout = some o ∧ moneyRange o.nValue = true)
    (hmature : ∀ txin ∈ vin, ∀ c, m txin.prevout.hash = some c → c.fCoinBase = true →
      ¬(nSpendHeight : Int)-c.nHeight < COINBASE_MATURITY) :
    ∃ v', checkInputValues nSpendHeight v n vin = .ok (n+m.inputValue vin,v') ∧ inv v' := by
  induction vin generalizing v n with
  | nil => exact ⟨v,by simp [checkInputValues,PlainCoins.inputValue,pure,Except.pure],hv⟩
  | cons txin rest ih =>
    obtain ⟨o,ho,hr⟩ := hout txin (by simp)
    obtain ⟨c,v',ha,hinv,hc,hget,-⟩ := h.access_output hv ho
    have hrest : ∀ x ∈ rest, ∃ o, m.output x.prevout = some o ∧ moneyRange o.nValue = true :=
      fun x hx => hout x (by simp [hx])
    have hnonneg := PlainCoins.inputValue_nonneg hrest
    have hr' := (moneyRange_iff _).mp hr
    rw [PlainCoins.inputValue_cons txin rest ho] at hle ⊢
    have hadd : addInt64 n o.nValue = some (n+o.nValue) := by
      simp only [MAX_MONEY,COIN] at hle
      exact addInt64_of_bounds (by omega) (by omega)
    have hsum : moneyRange (n+o.nValue) = true := (moneyRange_iff _).mpr ⟨by omega,by omega⟩
    have hold : (!(c.fCoinBase && decide ((nSpendHeight : Int)-c.nHeight < COINBASE_MATURITY))) =
        true := by
      have hm := hmature txin (by simp) c hc
      cases hcb : c.fCoinBase with
      | false => rfl
      | true => simpa using hm hcb
    obtain ⟨v₂,hrun,hinv₂⟩ := ih hinv (n := n+o.nValue) (by omega) (by omega) hrest
      fun x hx => hmature x (by simp [hx])
    refine ⟨v₂,?_,hinv₂⟩
    unfold checkInputValues
    simp only [ha,hold,hget,hadd,hr,hsum,ensure_true,orThrow_some,ok_bind,Bool.and_self,hrun]
    rw [Int.add_assoc]

/-- Where the map can pay, `CheckInputs` comes to its scripts. -/
theorem checkInputs_pays (h : ReadsFrom inv m best) (hv : inv v) {tx : CTransaction}
    (hcb : tx.isCoinBase = false) {nHeight : Nat} (hbest : best ≠ 0)
    (hheight : env.blockHeight best = some nHeight) (hs : m.Spends tx)
    (hmature : m.Mature (nHeight+1) tx) (fScriptChecks : Bool) (flags : Nat) :
    ∃ v', inv v' ∧ env.checkInputs tx v fScriptChecks flags =
      if fScriptChecks then env.checkInputScripts tx flags v' [] 0 tx.vin else .ok ([],v') := by
  obtain ⟨hhave,hinv₁⟩ := h.haveInputs hv hcb
  obtain ⟨hb,hinv₂⟩ := h.best _ hinv₁
  have hall : (tx.vin.all fun txin => (m.output txin.prevout).isSome) = true := by
    rw [List.all_eq_true]
    intro txin hin
    exact Option.isSome_iff_ne_none.mpr (hs.output_ne hin)
  have hrange := (moneyRange_iff _).mp hs.valueIn
  obtain ⟨v₃,hrun,hinv₃⟩ := checkInputValues_ok h hinv₂ (n := 0) (by omega) (by omega)
    hs.available hmature
  obtain ⟨nValueOut,hout,hpay⟩ := hs.valueOut
  have hpos := ((moneyRange_iff _).mp (CTransaction.getValueOut_range hout)).1
  have hfee : moneyRange (0+(m.inputValue tx.vin-nValueOut)) = true :=
    (moneyRange_iff _).mpr ⟨by omega,by omega⟩
  refine ⟨v₃,hinv₃,?_⟩
  unfold checkInputs
  simp only [hcb,Bool.false_eq_true,if_false,hhave,hall,hb,ensure_true,ok_bind,hheight,
    orThrow_some,hrun,hout,Int.zero_add]
  have h₁ : (best != 0) = true := by simpa using hbest
  have h₂ : (!decide (m.inputValue tx.vin < nValueOut)) = true := by
    simpa using hpay
  have h₃ : (!decide (m.inputValue tx.vin-nValueOut < 0)) = true := by
    simpa using hpay
  rw [Int.zero_add] at hfee
  simp only [h₁,h₂,h₃,hfee,ensure_true,ok_bind]
  rfl

/-- The scripts of the inputs pass, from input `nIn` on. -/
def ScriptsPass (env : NodeEnv) (m : PlainCoins) (tx : CTransaction) (flags : Nat) :
    Nat → List CTxIn → Prop
  | _, [] => True
  | nIn, txin :: rest =>
    (∀ o, m.output txin.prevout = some o → env.verifyScript o.scriptPubKey tx nIn flags = true) ∧
      ScriptsPass env m tx flags (nIn+1) rest

theorem checkInputScripts_iff (h : ReadsFrom inv m best) (hv : inv v) (tx : CTransaction)
    (flags : Nat) {pvChecks : List Bool} {nIn : Nat} {vin : List CTxIn}
    (hall : ∀ txin ∈ vin, m.output txin.prevout ≠ none) :
    (∃ r, env.checkInputScripts tx flags v pvChecks nIn vin = .ok r ∧ r.1.all id = true) ↔
      pvChecks.all id = true ∧ env.ScriptsPass m tx flags nIn vin := by
  induction vin generalizing v pvChecks nIn with
  | nil =>
    simp only [checkInputScripts,ScriptsPass,and_true]
    exact ⟨fun ⟨r,hr,hok⟩ => by obtain rfl := Except.ok.inj hr; exact hok,fun hok => ⟨_,rfl,hok⟩⟩
  | cons txin rest ih =>
    obtain ⟨o,ho⟩ := Option.ne_none_iff_exists'.mp (hall txin List.mem_cons_self)
    obtain ⟨c,v',ha,hinv,-,hget,-⟩ := h.access_output hv ho
    have hrest : ∀ x ∈ rest, m.output x.prevout ≠ none := fun x hx =>
      hall x (List.mem_cons_of_mem _ hx)
    unfold checkInputScripts ScriptsPass
    simp only [ha,hget,orThrow_some,ok_bind,ho,Option.some.injEq,forall_eq']
    cases env.scriptCheckThreads with
    | true =>
      simp only [if_true]
      rw [ih hinv hrest,List.all_append]
      simp [and_assoc]
    | false =>
      simp only [Bool.false_eq_true,if_false]
      cases hcheck : env.verifyScript o.scriptPubKey tx nIn flags with
      | true =>
        simp only [Bool.true_or,ensure_true,ok_bind,true_and]
        exact ih hinv hrest
      | false =>
        simp only [Bool.false_or,Bool.false_eq_true,false_and,and_false,iff_false]
        rintro ⟨r,hr,-⟩
        obtain ⟨_,_,hr⟩ := bind_ok_iff.mp hr
        obtain ⟨_,hfail,_⟩ := bind_ok_iff.mp hr
        contradiction

end NodeEnv

section Update
variable {v : CCoinsView} {m : PlainCoins} {best : Uint256}

theorem spendInputs_ok (h : v.Holds m best) {vin : List CTxIn} {us : CTxUndo} {m' : PlainCoins}
    (hs : m.spendAll vin = some (us,m')) (acc : CTxUndo) :
    ∃ v', spendInputs v acc vin = .ok (acc ++ us,v') ∧ v'.Holds m' best := by
  induction vin generalizing v m us acc with
  | nil =>
    simp only [PlainCoins.spendAll,Option.some.injEq,Prod.mk.injEq] at hs
    obtain ⟨rfl,rfl⟩ := hs
    exact ⟨v,by simp [spendInputs,pure,Except.pure],h⟩
  | cons txin rest ih =>
    obtain ⟨u,m₁,us',hspend,hrest,rfl⟩ := PlainCoins.spendAll_cons hs
    obtain ⟨c,c',hc,hcs,rfl⟩ := PlainCoins.spend_cases hspend
    obtain ⟨d,-,hsee,hbody⟩ := h.modifyCoins txin.prevout.hash
    rw [hc] at hsee
    obtain ⟨rfl,-⟩ := CCoins.unspent_eq_some.mp hsee
    obtain ⟨v₁,hr,hv₁⟩ := (hbody fun coins =>
      (coins.spend txin.prevout).map fun r => (r.2,r.1)).2 u c' (by simp [hcs])
    have hclean : c'.cleanup = c' := by
      obtain ⟨o,-,-,rfl,-⟩ := CCoins.spend_cases hcs
      exact CCoins.cleanup_cleanup _
    rw [hclean] at hv₁
    obtain ⟨v₂,hrun,hv₂⟩ := ih hv₁ hrest (acc ++ [u])
    refine ⟨v₂,?_,hv₂⟩
    unfold spendInputs
    rw [hr]
    simp only [orThrow_some,ok_bind,hrun,List.append_assoc,List.singleton_append]

/-- `UpdateCoins` for a transaction whose inputs are all there. -/
theorem updateCoins_ok (env : NodeEnv) (h : v.Holds m best) {tx : CTransaction}
    (hcb : tx.isCoinBase = false) {us : CTxUndo} {m₁ : PlainCoins}
    (hs : m.spendAll tx.vin = some (us,m₁)) (nHeight : Nat) :
    ∃ v', env.updateCoins tx v nHeight = .ok (us,v') ∧ v'.Holds
      (Function.update m₁ (env.getTxHash tx) (CCoins.fromTx tx nHeight).unspent) best := by
  obtain ⟨v₁,hrun,hv₁⟩ := spendInputs_ok h hs []
  obtain ⟨v₂,hr,hv₂⟩ := NodeEnv.addOutputs_meets env hv₁ tx nHeight
  refine ⟨v₂,?_,hv₂⟩
  unfold NodeEnv.updateCoins
  simp only [hcb,Bool.false_eq_true,if_false,hrun,List.nil_append,ok_bind,hr,orThrow_some]
  rfl

end Update

end Anoncoin
