import Anoncoin.Transaction
import Anoncoin.Lib.Containers

/-!
The per-transaction coin record of coins.h and the undo record of undo.h.
-/

set_option autoImplicit false

namespace Anoncoin
open Lib

structure CCoins where
  fCoinBase : Bool
  vout : List CTxOut
  nHeight : Nat
  nVersion : Int
  deriving DecidableEq, Repr

/-- The default constructor, which is also what `Clear` leaves. -/
def CCoins.empty : CCoins := ⟨false,[],0,0⟩

/-- `Cleanup` pops spent outputs off the end of the vector. -/
def CCoins.cleanup (c : CCoins) : CCoins := { c with vout := c.vout.rdropWhile CTxOut.isNull }

def CCoins.clearUnspendable (c : CCoins) : CCoins :=
  CCoins.cleanup { c with
    vout := c.vout.map fun (o : CTxOut) => if o.scriptPubKey.isUnspendable then .null else o }

def CCoins.fromTx (tx : CTransaction) (nHeight : Nat) : CCoins :=
  CCoins.clearUnspendable ⟨tx.isCoinBase,tx.vout,nHeight,tx.nVersion⟩

def CCoins.isPruned (c : CCoins) : Bool := c.vout.all CTxOut.isNull

def CCoins.isAvailable (c : CCoins) (nPos : Nat) : Bool :=
  match c.vout[nPos]? with
  | some o => !o.isNull
  | none => false

/-- `operator==`: all fully spent records are equal. -/
def CCoins.equal (a b : CCoins) : Bool := (a.isPruned && b.isPruned) || a == b

structure CTxInUndo where
  txout : CTxOut
  fCoinBase : Bool
  nHeight : Nat
  nVersion : Int
  deriving DecidableEq, Repr

/-- `CCoins::Spend`. Metadata goes into the undo record only when the last unspent
output is taken. -/
def CCoins.spend (c : CCoins) (out : COutPoint) : Option (CCoins × CTxInUndo) :=
  match c.vout[out.n]? with
  | none => none
  | some o =>
      if o.isNull then none else
        let c' := { c with vout := c.vout.set out.n .null }.cleanup
        if c'.vout.isEmpty then some (c',⟨o,c.fCoinBase,c.nHeight,c.nVersion⟩)
        else some (c',⟨o,false,0,0⟩)

/-- One iteration of the input loop of `DisconnectBlock`: the record after the
output is put back, and whether none of its consistency errors was raised. -/
def CCoins.restore (coins : CCoins) (n : Nat) (undo : CTxInUndo) : CCoins × Bool :=
  let fMeta := if undo.nHeight ≠ 0 then coins.isPruned else !coins.isPruned
  let coins := if undo.nHeight ≠ 0 then
    ⟨undo.fCoinBase,[],undo.nHeight,undo.nVersion⟩ else coins
  let fFree := !coins.isAvailable n
  ({ coins with vout := (pad .null (n+1) coins.vout).set n undo.txout },fMeta && fFree)

/-- A record as the code keeps it: spent outputs carry no script, and none of them
stands at the end of the vector. -/
structure CCoins.Canonical (c : CCoins) : Prop where
  clean : c.cleanup = c
  null : ∀ o ∈ c.vout, o.isNull = true → o = .null

/-- A plain map from txid to the unspent records. -/
abbrev PlainCoins := Uint256 → Option CCoins

/-- Fully spent records are identified with absent ones. -/
def CCoins.unspent (c : CCoins) : Option CCoins := if c.isPruned then none else some c

@[simp] theorem CCoins.cleanup_isPruned (c : CCoins) : c.cleanup.isPruned = c.isPruned := by
  rw [Bool.eq_iff_iff]
  simp only [isPruned,cleanup,List.all_eq_true]
  constructor
  · intro h o ho
    obtain ⟨i,hi,rfl⟩ := List.mem_iff_getElem.mp ho
    by_cases hlt : i < (c.vout.rdropWhile CTxOut.isNull).length
    · have he := rdropWhile_getElem?_within CTxOut.isNull c.vout i hlt
      rw [List.getElem?_eq_getElem hlt,List.getElem?_eq_getElem hi] at he
      rw [← Option.some.inj he]
      exact h _ (List.getElem_mem hlt)
    · exact rdropWhile_getElem?_beyond CTxOut.isNull c.vout i _ (by omega)
        (List.getElem?_eq_getElem hi)
  · intro h o ho
    exact h o ((List.rdropWhile_prefix _ _).subset ho)

@[simp] theorem CCoins.cleanup_cleanup (c : CCoins) : c.cleanup.cleanup = c.cleanup := by
  simp [cleanup,List.rdropWhile_idempotent]

theorem CCoins.cleanup_subset (c : CCoins) : c.cleanup.vout ⊆ c.vout :=
  (List.rdropWhile_prefix _ _).subset

@[simp] theorem CCoins.empty_isPruned : CCoins.empty.isPruned = true := rfl

theorem CCoins.isPruned_iff_vout_nil {c : CCoins} (h : c.cleanup = c) :
    c.isPruned = true ↔ c.vout = [] := by
  have hv : c.vout.rdropWhile CTxOut.isNull = c.vout := congrArg CCoins.vout h
  rw [← hv,List.rdropWhile_eq_nil_iff]
  simp only [isPruned,List.all_eq_true]

theorem CCoins.cleanup_canonical {c : CCoins}
    (h : ∀ o ∈ c.vout, o.isNull = true → o = .null) : c.cleanup.Canonical :=
  ⟨c.cleanup_cleanup,fun o ho hn => h o (c.cleanup_subset ho) hn⟩

theorem CCoins.unspent_eq_none {c : CCoins} : c.unspent = none ↔ c.isPruned = true := by
  unfold unspent; split <;> simp_all

theorem CCoins.unspent_eq_some {c d : CCoins} :
    c.unspent = some d ↔ c = d ∧ c.isPruned = false := by
  unfold unspent; split <;> simp_all

theorem CCoins.isAvailable_not_pruned {c : CCoins} {n : Nat} (h : c.isAvailable n = true) :
    c.isPruned = false := by
  unfold isAvailable at h
  split at h
  · rename_i o ho
    have hmem := List.mem_of_getElem? ho
    by_contra hp
    have hall := List.all_eq_true.mp (Bool.eq_true_of_not_eq_false hp) o hmem
    simp [hall] at h
  · contradiction

/-- What a successful `Spend` did. -/
theorem CCoins.spend_cases {c c' : CCoins} {out : COutPoint} {u : CTxInUndo}
    (h : c.spend out = some (c',u)) :
    ∃ o, c.vout[out.n]? = some o ∧ o.isNull = false ∧
      c' = { c with vout := c.vout.set out.n .null }.cleanup ∧
      u = if c'.isPruned then ⟨o,c.fCoinBase,c.nHeight,c.nVersion⟩ else ⟨o,false,0,0⟩ := by
  unfold spend at h
  cases ho : c.vout[out.n]? with
  | none => simp [ho] at h
  | some o =>
    by_cases hn : o.isNull = true
    · simp [ho,hn] at h
    · have hclean : ({ c with vout := c.vout.set out.n .null } : CCoins).cleanup.cleanup =
          ({ c with vout := c.vout.set out.n .null } : CCoins).cleanup := cleanup_cleanup _
      have hiff := isPruned_iff_vout_nil hclean
      refine ⟨o,rfl,by simpa using hn,?_⟩
      simp only [ho,hn] at h
      simp only [Bool.false_eq_true,if_false,List.isEmpty_iff] at h
      split at h
      · rename_i he
        obtain ⟨rfl,rfl⟩ := Prod.mk.inj (Option.some.inj h)
        exact ⟨rfl,by rw [if_pos (hiff.mpr he)]⟩
      · rename_i he
        obtain ⟨rfl,rfl⟩ := Prod.mk.inj (Option.some.inj h)
        exact ⟨rfl,by rw [if_neg (fun hp => he (hiff.mp hp))]⟩

theorem CCoins.spend_isSome {c : CCoins} {out : COutPoint} :
    (c.spend out).isSome = c.isAvailable out.n := by
  unfold spend isAvailable
  cases c.vout[out.n]? with
  | none => rfl
  | some o =>
    cases hn : o.isNull <;> simp only [hn,Bool.false_eq_true,if_false,if_true,Bool.not_false,
      Bool.not_true,Option.isSome_none]
    split <;> rfl

theorem CCoins.spend_canonical {c c' : CCoins} {out : COutPoint} {u : CTxInUndo}
    (hc : c.Canonical) (h : c.spend out = some (c',u)) : c'.Canonical := by
  obtain ⟨o,-,-,rfl,-⟩ := spend_cases h
  apply cleanup_canonical
  intro x hx hn
  rcases List.mem_or_eq_of_mem_set hx with hx | rfl
  · exact hc.null x hx hn
  · rfl

/-- Putting a spent output back restores the record exactly, whatever fully spent
record the view hands out for it in between. -/
theorem CCoins.restore_spend {c c' d : CCoins} {out : COutPoint} {u : CTxInUndo}
    (hc : c.Canonical) (hh : c.nHeight ≠ 0) (h : c.spend out = some (c',u))
    (hd : d.unspent = c'.unspent) :
    d.restore out.n u = (c,true) := by
  obtain ⟨o,ho,hnull,hc',hu⟩ := spend_cases h
  have hback : (pad .null (out.n+1) c'.vout).set out.n o = c.vout := by
    rw [hc']
    exact set_pad_rdropWhile CTxOut.isNull .null c.vout out.n o (congrArg CCoins.vout hc.clean)
      hc.null ho
  by_cases hp : c'.isPruned = true
  · have hnil : c'.vout = [] := (isPruned_iff_vout_nil (by rw [hc']; simp)).mp hp
    have hdp : d.isPruned = true := by
      rw [← unspent_eq_none,hd,unspent_eq_none]
      exact hp
    rw [if_pos hp] at hu
    subst hu
    rw [hnil] at hback
    simp only [restore,ne_eq,hh,not_false_eq_true,if_true,hdp]
    simp only [isAvailable,List.getElem?_nil,Bool.not_false,Bool.and_self]
    rw [hback]
  · have hdc : d = c' := by
      have : c'.unspent = some c' := unspent_eq_some.mpr ⟨rfl,by simpa using hp⟩
      rw [this] at hd
      exact (unspent_eq_some.mp hd).1
    subst hdc
    rw [if_neg hp] at hu
    subst hu
    have hfree : d.isAvailable out.n = false := by
      rw [hc']
      unfold isAvailable cleanup
      split
      · rename_i x hx
        have hlt := (List.getElem?_eq_some_iff.mp hx).1
        rw [rdropWhile_getElem?_within CTxOut.isNull _ _ hlt,
          List.getElem?_set_self (List.getElem?_eq_some_iff.mp ho).1] at hx
        rw [← Option.some.inj hx]
        rfl
      · rfl
    have hmeta : d = { c with vout := d.vout } := by rw [hc']; rfl
    simp only [restore,ne_eq,not_true_eq_false,if_false,hp,hfree,hback]
    simp only [Bool.not_false,Bool.and_self,Prod.mk.injEq,and_true]
    rw [hmeta]

end Anoncoin
