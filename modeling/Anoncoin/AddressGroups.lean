import Mathlib.Data.Finset.Insert
import Mathlib.Data.Finset.Union
import Anoncoin.Lib.Components
import Anoncoin.WalletAmounts

/-!
`GetAddressGroupings` (wallet.cpp): which addresses a wallet has shown to belong together. The
sets of pointers and of addresses are walked through in orders that are parameters, and so is
the address that `new` gives.
-/

set_option autoImplicit false

namespace Anoncoin
open Lib

abbrev AddressSet := Finset CTxDestination

section
variable (getID : CPubKey → CKeyID) (fDataCarrier : Bool)

namespace CWallet
variable (w : CWallet)

def prevOut (txin : CTxIn) : Option CTxOut :=
  (w.mapWallet txin.prevout.hash).bind fun prev => prev.tx.vout[txin.prevout.n]?

/-- `IsMine` of an input. -/
def isMineIn (txin : CTxIn) : Except WalletError IsMineType :=
  match w.prevOut txin with
  | none => .ok .no
  | some txout => w.keystore.mineOf getID fDataCarrier txout

/-- One input: the grouping and `any_mine`. -/
def groupInput (r : AddressSet × Bool) (txin : CTxIn) : Except WalletError (AddressSet × Bool) := do
  let mine ← w.isMineIn getID fDataCarrier txin
  if mine = .no then pure r
  else
    match (w.prevOut txin).bind fun txout =>
        extractDestination getID fDataCarrier txout.scriptPubKey with
    | none => pure r
    | some address => pure (insert address r.1,true)

def groupChange (grouping : AddressSet) (txout : CTxOut) : Except WalletError AddressSet := do
  let change ← w.isChange getID fDataCarrier txout
  if change then
    match extractDestination getID fDataCarrier txout.scriptPubKey with
    | none => pure grouping
    | some txoutAddr => pure (insert txoutAddr grouping)
  else pure grouping

def groupOutput (groupings : Finset AddressSet) (txout : CTxOut) :
    Except WalletError (Finset AddressSet) := do
  let mine ← w.keystore.mineOf getID fDataCarrier txout
  if mine = .no then pure groupings
  else
    match extractDestination getID fDataCarrier txout.scriptPubKey with
    | none => pure groupings
    | some address => pure (insert {address} groupings)

/-- One transaction in the first loop of `GetAddressGroupings`. -/
def groupTx (groupings : Finset AddressSet) (tx : CTransaction) :
    Except WalletError (Finset AddressSet) := do
  let (grouping,any_mine) ← tx.vin.foldlM (w.groupInput getID fDataCarrier) (∅,false)
  let grouping ←
    if any_mine then tx.vout.foldlM (w.groupChange getID fDataCarrier) grouping
    else pure grouping
  let groupings := if grouping = ∅ then groupings else insert grouping groupings
  tx.vout.foldlM (w.groupOutput getID fDataCarrier) groupings

/-- The first loop of `GetAddressGroupings`, over the entries of `mapWallet` in their order. -/
def initialGroupings (hashes : List Uint256) : Except WalletError (Finset AddressSet) :=
  hashes.foldlM (fun groupings hash =>
    match w.mapWallet hash with
    | none => pure groupings
    | some pcoin => w.groupTx getID fDataCarrier groupings pcoin.tx) ∅

end CWallet

end

/-- The order of each kind of set, and the address that `new` gives where these are in use. -/
structure GroupOrders where
  addresses : SetOrder CTxDestination
  groupings : SetOrder AddressSet
  pointers : SetOrder Nat
  new : List Nat → Nat
  new_fresh : ∀ live, new live ∉ live

instance : Nonempty GroupOrders := by
  obtain ⟨addresses⟩ : Nonempty (SetOrder CTxDestination) := inferInstance
  obtain ⟨groupings⟩ : Nonempty (SetOrder AddressSet) := inferInstance
  obtain ⟨pointers⟩ : Nonempty (SetOrder Nat) := inferInstance
  refine ⟨⟨addresses,groupings,pointers,fun live => live.sum+1,fun live hmem => ?_⟩⟩
  have := List.le_sum_of_mem hmem
  omega

/-- The groups on the heap. -/
structure AddressGroups where
  heap : AList fun _ : Nat => AddressSet
  uniqueGroupings : Finset Nat
  setmap : CTxDestination → Option Nat

namespace AddressGroups

def create : AddressGroups := ⟨∅,∅,fun _ => none⟩

/-- The loop that merges all hit groups into the new one and deletes them. There is no result
when a pointer is not in use. -/
def mergeHits (merged : Nat) : List Nat → AddressGroups → Option AddressGroups
  | [],s => some s
  | hit :: hits,s => do
    let group ← s.heap.lookup hit
    let into ← s.heap.lookup merged
    mergeHits merged hits { s with
      heap := (s.heap.insert merged (into ∪ group)).erase hit
      uniqueGroupings := s.uniqueGroupings.erase hit }

variable (order : GroupOrders)

/-- The groups that are hit by a new one. -/
def hits (s : AddressGroups) (grouping : AddressSet) : Finset Nat :=
  ((order.addresses.toList grouping).filterMap s.setmap).toFinset

/-- One grouping in the second loop. -/
def addGrouping (s : AddressGroups) (grouping : AddressSet) : Option AddressGroups := do
  let merged := order.new s.heap.keys
  let s' ← mergeHits merged (order.pointers.toList (s.hits order grouping))
    { s with heap := s.heap.insert merged grouping }
  let elements ← s'.heap.lookup merged
  pure { s' with
    uniqueGroupings := insert merged s'.uniqueGroupings
    setmap := (order.addresses.toList elements).foldl
      (fun setmap element => Function.update setmap element (some merged)) s'.setmap }

/-- The last loop, which copies each group and deletes it. -/
def collect : List Nat → (AList fun _ : Nat => AddressSet) → Finset AddressSet →
    Option (Finset AddressSet)
  | [],_,ret => some ret
  | uniqueGrouping :: rest,heap,ret => do
    let group ← heap.lookup uniqueGrouping
    collect rest (heap.erase uniqueGrouping) (insert group ret)

/-- What follows the first loop. -/
def unite (groupings : Finset AddressSet) : Option (Finset AddressSet) := do
  let s ← (order.groupings.toList groupings).foldlM (addGrouping order) create
  collect (order.pointers.toList s.uniqueGroupings) s.heap ∅

end AddressGroups

/-- There is no result where a pointer is used that is not in use. -/
def CWallet.getAddressGroupings (getID : CPubKey → CKeyID) (fDataCarrier : Bool)
    (order : GroupOrders) (w : CWallet) (hashes : List Uint256) :
    Except WalletError (Option (Finset AddressSet)) :=
  (w.initialGroupings getID fDataCarrier hashes).map (AddressGroups.unite order)

namespace AddressGroups
variable {order : GroupOrders} {s s' : AddressGroups}

/-- What the merged groups hold, and that nothing else changes. -/
theorem mergeHits_some {merged : Nat} {hits : List Nat} {into : AddressSet}
    (hmerged : s.heap.lookup merged = some into) (hnot : merged ∉ hits) (hnodup : hits.Nodup)
    (hlive : ∀ p ∈ hits, (s.heap.lookup p).isSome) :
    ∃ s', mergeHits merged hits s = some s' ∧ s'.setmap = s.setmap ∧
      (∀ p, p ∈ s'.uniqueGroupings ↔ p ∈ s.uniqueGroupings ∧ p ∉ hits) ∧
      (∀ p, p ≠ merged → s'.heap.lookup p = if p ∈ hits then none else s.heap.lookup p) ∧
      ∃ all, s'.heap.lookup merged = some all ∧
        ∀ x, x ∈ all ↔ x ∈ into ∨ ∃ p ∈ hits, ∃ group, s.heap.lookup p = some group ∧ x ∈ group := by
  induction hits generalizing s into with
  | nil => exact ⟨s,rfl,rfl,by simp,by simp,into,hmerged,by simp⟩
  | cons hit hits ih =>
    have hne : merged ≠ hit := fun heq => hnot (heq ▸ List.mem_cons_self)
    have htail : merged ∉ hits := fun hmem => hnot (List.mem_cons_of_mem _ hmem)
    obtain ⟨hfirst,hrest⟩ := List.nodup_cons.mp hnodup
    obtain ⟨group,hgroup⟩ := Option.isSome_iff_exists.mp (hlive hit List.mem_cons_self)
    have hlookup (p : Nat) (hp : p ≠ merged) (hp' : p ≠ hit) :
        ((s.heap.insert merged (into ∪ group)).erase hit).lookup p = s.heap.lookup p := by
      rw [AList.lookup_erase_ne hp',AList.lookup_insert_ne hp]
    have hother (p : Nat) (hp : p ∈ hits) :
        ((s.heap.insert merged (into ∪ group)).erase hit).lookup p = s.heap.lookup p :=
      hlookup p (fun heq => htail (heq ▸ hp)) (fun heq => hfirst (heq ▸ hp))
    obtain ⟨s',hs',hsetmap,hunique,hheap,all,hall,hmem⟩ := @ih
      { s with
        heap := (s.heap.insert merged (into ∪ group)).erase hit
        uniqueGroupings := s.uniqueGroupings.erase hit } (into ∪ group)
      (by rw [AList.lookup_erase_ne hne,AList.lookup_insert]) htail hrest
      (fun p hp => by rw [hother p hp]; exact hlive p (List.mem_cons_of_mem _ hp))
    refine ⟨s',?_,hsetmap,?_,?_,all,hall,?_⟩
    · unfold mergeHits
      rw [hgroup,hmerged]
      exact hs'
    · intro p
      rw [hunique p,Finset.mem_erase,List.mem_cons]
      tauto
    · intro p hp
      rw [hheap p hp]
      by_cases heq : p = hit
      · subst heq
        rw [if_neg hfirst,if_pos List.mem_cons_self]
        exact AList.lookup_erase _ _
      · rw [hlookup p hp heq]
        simp only [List.mem_cons,heq,false_or]
    · intro x
      rw [hmem x,Finset.mem_union,or_assoc]
      apply or_congr_right
      constructor
      · rintro (hx | ⟨p,hp,found,hfound,hx⟩)
        · exact ⟨hit,List.mem_cons_self,group,hgroup,hx⟩
        · exact ⟨p,List.mem_cons_of_mem _ hp,found,(hother p hp).symm.trans hfound,hx⟩
      · rintro ⟨p,hp,found,hfound,hx⟩
        rcases List.mem_cons.mp hp with rfl | hp
        · rw [hgroup] at hfound
          exact .inl (Option.some.inj hfound ▸ hx)
        · exact .inr ⟨p,hp,found,(hother p hp).trans hfound,hx⟩

/-- The map points to the groups on the heap, and equal pointers are those of joined
addresses. -/
structure Labelled (groupings : Finset AddressSet) (s : AddressGroups) : Prop where
  labels : Labels ((fun g : AddressSet => (↑g : Set CTxDestination)) '' ↑groupings) s.setmap
  live : ∀ p, p ∈ s.uniqueGroupings ↔ (s.heap.lookup p).isSome
  pointed : ∀ x p, s.setmap x = some p → p ∈ s.uniqueGroupings
  group : ∀ p group, s.heap.lookup p = some group → ∀ x, x ∈ group ↔ s.setmap x = some p

theorem labelled_create : Labelled ∅ create := by
  constructor
  · rw [Finset.coe_empty,Set.image_empty]
    exact labels_empty
  · simp [create]
  · simp [create]
  · simp [create]

theorem mem_hits (s : AddressGroups) (grouping : AddressSet) (p : Nat) :
    p ∈ s.hits order grouping ↔ ∃ y ∈ grouping, s.setmap y = some p := by
  unfold hits
  simp [order.addresses.mem_toList]

theorem foldl_update (elements : List CTxDestination) (p : Nat)
    (setmap : CTxDestination → Option Nat) (x : CTxDestination) :
    elements.foldl (fun setmap element => Function.update setmap element (some p)) setmap x =
      if x ∈ elements then some p else setmap x := by
  induction elements generalizing setmap with
  | nil => simp
  | cons element elements ih =>
    rw [List.foldl_cons,ih]
    by_cases hx : x ∈ elements
    · simp [hx]
    · by_cases heq : x = element
      · simp [heq]
      · simp [hx,heq]

/-- What one grouping does: the groups that it hits give way to a new one at `m`. -/
structure Merged (s : AddressGroups) (grouping : AddressSet) (m : Nat) (s' : AddressGroups) :
    Prop where
  unused : m ∉ s.uniqueGroupings
  unique : ∀ p, p ∈ s'.uniqueGroupings ↔
    p = m ∨ p ∈ s.uniqueGroupings ∧ ¬∃ y ∈ grouping, s.setmap y = some p
  deleted : ∀ p, p ≠ m → (∃ y ∈ grouping, s.setmap y = some p) → s'.heap.lookup p = none
  kept : ∀ p, p ≠ m → (¬∃ y ∈ grouping, s.setmap y = some p) →
    s'.heap.lookup p = s.heap.lookup p
  group : ∃ all, s'.heap.lookup m = some all ∧
    ∀ x, x ∈ all ↔ x ∈ merged s.setmap (↑grouping : Set CTxDestination)
  inside : ∀ x ∈ merged s.setmap (↑grouping : Set CTxDestination), s'.setmap x = some m
  outside : ∀ x ∉ merged s.setmap (↑grouping : Set CTxDestination), s'.setmap x = s.setmap x

theorem Labelled.addGrouping_some {groupings : Finset AddressSet} (h : Labelled groupings s)
    (grouping : AddressSet) :
    ∃ m s', s.addGrouping order grouping = some s' ∧ Merged s grouping m s' := by
  have hnone : s.heap.lookup (order.new s.heap.keys) = none :=
    AList.lookup_eq_none.mpr (order.new_fresh _)
  generalize hm : order.new s.heap.keys = m at hnone
  have hunused : m ∉ s.uniqueGroupings := by
    rw [h.live,hnone]
    simp
  have hhits (p : Nat) : p ∈ order.pointers.toList (s.hits order grouping) ↔
      ∃ y ∈ grouping, s.setmap y = some p := by
    rw [order.pointers.mem_toList,mem_hits]
  have hne {p : Nat} (hp : p ∈ order.pointers.toList (s.hits order grouping)) : p ≠ m := by
    rintro rfl
    obtain ⟨y,-,hy⟩ := (hhits p).mp hp
    exact hunused (h.pointed y p hy)
  have hold (p : Nat) (hp : p ≠ m) : (s.heap.insert m grouping).lookup p = s.heap.lookup p :=
    AList.lookup_insert_ne hp
  have hlive : ∀ p ∈ order.pointers.toList (s.hits order grouping),
      ((s.heap.insert m grouping).lookup p).isSome := by
    intro p hp
    obtain ⟨y,-,hy⟩ := (hhits p).mp hp
    rw [hold p (hne hp)]
    exact (h.live p).mp (h.pointed y p hy)
  obtain ⟨s₁,hs₁,hsetmap,hunique,hheap,all,hall,hmem⟩ :=
    @mergeHits_some { s with heap := s.heap.insert m grouping } m _ grouping
      (AList.lookup_insert _) (fun hmem => hne hmem rfl) (order.pointers.nodup_toList _) hlive
  have hmerged (x : CTxDestination) :
      x ∈ all ↔ x ∈ merged s.setmap (↑grouping : Set CTxDestination) := by
    rw [hmem x]
    apply or_congr_right
    constructor
    · rintro ⟨p,hp,group,hgroup,hx⟩
      obtain ⟨y,hy,hlabel⟩ := (hhits p).mp hp
      rw [hold p (hne hp)] at hgroup
      exact ⟨y,hy,p,hlabel,(h.group p group hgroup x).mp hx⟩
    · rintro ⟨y,hy,p,hlabel,hx⟩
      have hp := (hhits p).mpr ⟨y,hy,hlabel⟩
      obtain ⟨group,hgroup⟩ := Option.isSome_iff_exists.mp (hlive p hp)
      refine ⟨p,hp,group,hgroup,?_⟩
      rw [hold p (hne hp)] at hgroup
      exact (h.group p group hgroup x).mpr hx
  have hrepoint (x : CTxDestination) :
      (order.addresses.toList all).foldl
        (fun setmap element => Function.update setmap element (some m)) s₁.setmap x =
          if x ∈ all then some m else s.setmap x := by
    rw [foldl_update,hsetmap]
    simp only [order.addresses.mem_toList]
  refine ⟨m,{ s₁ with
    uniqueGroupings := insert m s₁.uniqueGroupings
    setmap := (order.addresses.toList all).foldl
      (fun setmap element => Function.update setmap element (some m)) s₁.setmap },?_,?_⟩
  · subst hm
    unfold AddressGroups.addGrouping
    simp only [hs₁,hall,Option.bind_eq_bind,Option.bind_some]
    rfl
  · constructor
    · exact hunused
    · intro p
      rw [Finset.mem_insert,hunique p,hhits]
    · intro p hp hhit
      rw [hheap p hp,if_pos ((hhits p).mpr hhit)]
    · intro p hp hmiss
      rw [hheap p hp,if_neg fun hin => hmiss ((hhits p).mp hin),hold p hp]
    · exact ⟨all,hall,hmerged⟩
    · exact fun x hx => (hrepoint x).trans (if_pos ((hmerged x).mpr hx))
    · exact fun x hx => (hrepoint x).trans (if_neg fun hin => hx ((hmerged x).mp hin))

/-- One grouping keeps the map in step with the heap. -/
theorem Merged.labelled {groupings : Finset AddressSet} {grouping : AddressSet} {m : Nat}
    (hm : Merged s grouping m s') (h : Labelled groupings s) :
    Labelled (insert grouping groupings) s' := by
  have hnew (x : CTxDestination) : s.setmap x ≠ some m := fun hx => hm.unused (h.pointed x m hx)
  obtain ⟨all,hall,hmem⟩ := hm.group
  have hmiss {x : CTxDestination} {p : Nat}
      (hx : x ∉ merged s.setmap (↑grouping : Set CTxDestination)) (hlabel : s.setmap x = some p) :
      ¬∃ y ∈ grouping, s.setmap y = some p := by
    rintro ⟨y,hy,hyp⟩
    exact hx (.inr ⟨y,hy,p,hyp,hlabel⟩)
  have hhit {x : CTxDestination} {p : Nat}
      (hx : x ∈ merged s.setmap (↑grouping : Set CTxDestination)) (hlabel : s.setmap x = some p) :
      ∃ y ∈ grouping, s.setmap y = some p := by
    rcases hx with hg | ⟨y,hy,q,hq,hxq⟩
    · exact ⟨x,hg,hlabel⟩
    · rw [hlabel] at hxq
      exact ⟨y,hy,hq.trans hxq.symm⟩
  constructor
  · rw [Finset.coe_insert,Set.image_insert_eq]
    exact h.labels.insert hnew hm.inside hm.outside
  · intro p
    rw [hm.unique]
    by_cases hp : p = m
    · subst hp
      simp [hall]
    · by_cases hin : ∃ y ∈ grouping, s.setmap y = some p
      · simp [hp,hin,hm.deleted p hp hin]
      · simp [hp,hin,hm.kept p hp hin,h.live p]
  · intro x p hx
    rw [hm.unique]
    by_cases hin : x ∈ merged s.setmap (↑grouping : Set CTxDestination)
    · rw [hm.inside x hin] at hx
      exact .inl (Option.some.inj hx).symm
    · rw [hm.outside x hin] at hx
      exact .inr ⟨h.pointed x p hx,hmiss hin hx⟩
  · intro p group hgroup x
    by_cases hp : p = m
    · subst hp
      obtain rfl := Option.some.inj (hall.symm.trans hgroup)
      rw [hmem x]
      constructor
      · exact hm.inside x
      · intro hx
        by_contra hin
        rw [hm.outside x hin] at hx
        exact hnew x hx
    · by_cases hdel : ∃ y ∈ grouping, s.setmap y = some p
      · rw [hm.deleted p hp hdel] at hgroup
        contradiction
      · rw [hm.kept p hp hdel] at hgroup
        rw [h.group p group hgroup x]
        by_cases hin : x ∈ merged s.setmap (↑grouping : Set CTxDestination)
        · rw [hm.inside x hin]
          constructor
          · intro hlabel
            exact absurd (hhit hin hlabel) hdel
          · intro heq
            exact absurd (Option.some.inj heq).symm hp
        · rw [hm.outside x hin]

/-- The second loop goes through, whatever the orders are. -/
theorem Labelled.foldlM {groupings : Finset AddressSet} (h : Labelled groupings s)
    (l : List AddressSet) :
    ∃ s', l.foldlM (addGrouping order) s = some s' ∧ Labelled (l.toFinset ∪ groupings) s' := by
  induction l generalizing s groupings with
  | nil => exact ⟨s,rfl,by simpa using h⟩
  | cons grouping l ih =>
    obtain ⟨m,s₁,hs₁,hm⟩ := @addGrouping_some order s groupings h grouping
    obtain ⟨s',hs',h'⟩ := ih (hm.labelled h)
    refine ⟨s',?_,?_⟩
    · rw [List.foldlM_cons,hs₁]
      exact hs'
    · rw [List.toFinset_cons,Finset.insert_union,← Finset.union_insert]
      exact h'

/-- The last loop copies every group. -/
theorem collect_some {l : List Nat} {heap : AList fun _ : Nat => AddressSet}
    (ret : Finset AddressSet) (hnodup : l.Nodup) (hlive : ∀ p ∈ l, (heap.lookup p).isSome) :
    ∃ ret', collect l heap ret = some ret' ∧
      ∀ group, group ∈ ret' ↔ group ∈ ret ∨ ∃ p ∈ l, heap.lookup p = some group := by
  induction l generalizing heap ret with
  | nil => exact ⟨ret,rfl,by simp⟩
  | cons p l ih =>
    obtain ⟨hfirst,hrest⟩ := List.nodup_cons.mp hnodup
    obtain ⟨found,hfound⟩ := Option.isSome_iff_exists.mp (hlive p List.mem_cons_self)
    have hother (q : Nat) (hq : q ∈ l) : (heap.erase p).lookup q = heap.lookup q :=
      AList.lookup_erase_ne fun heq => hfirst (heq ▸ hq)
    obtain ⟨ret',hret',hmem⟩ := @ih (heap.erase p) (insert found ret) hrest fun q hq => by
      rw [hother q hq]
      exact hlive q (List.mem_cons_of_mem _ hq)
    refine ⟨ret',?_,?_⟩
    · unfold collect
      rw [hfound]
      exact hret'
    · intro group
      rw [hmem group,Finset.mem_insert]
      constructor
      · rintro ((rfl | hold) | ⟨q,hq,hgroup⟩)
        · exact .inr ⟨p,List.mem_cons_self,hfound⟩
        · exact .inl hold
        · exact .inr ⟨q,List.mem_cons_of_mem _ hq,(hother q hq).symm.trans hgroup⟩
      · rintro (hold | ⟨q,hq,hgroup⟩)
        · exact .inl (.inr hold)
        · rcases List.mem_cons.mp hq with rfl | hq
          · exact .inl (.inl (Option.some.inj (hgroup.symm.trans hfound)))
          · exact .inr ⟨q,hq,(hother q hq).trans hgroup⟩

end AddressGroups

/-- The sets are the classes of what is joined by the groupings. -/
structure Partitions (groupings ret : Finset AddressSet) : Prop where
  disjoint : ∀ s ∈ ret, ∀ t ∈ ret, s ≠ t → Disjoint s t
  covers : ∀ a, (∃ s ∈ ret, a ∈ s) ↔ ∃ g ∈ groupings, a ∈ g
  joined : ∀ a b, (∃ s ∈ ret, a ∈ s ∧ b ∈ s) ↔
    Joined { g : Set CTxDestination | ∃ s ∈ groupings, ↑s = g } a b

namespace AddressGroups
variable {order : GroupOrders} {s : AddressGroups} {groupings ret : Finset AddressSet}

theorem Labelled.partitions (h : Labelled groupings s)
    (hret : ∀ group, group ∈ ret ↔ ∃ p ∈ s.uniqueGroupings, s.heap.lookup p = some group) :
    Partitions groupings ret := by
  have hjoined (a b : CTxDestination) : (∃ s ∈ ret, a ∈ s ∧ b ∈ s) ↔
      Joined { g : Set CTxDestination | ∃ s ∈ groupings, ↑s = g } a b := by
    refine Iff.trans ?_ (h.labels a b)
    constructor
    · rintro ⟨group,hgroup,ha,hb⟩
      obtain ⟨p,-,hp⟩ := (hret group).mp hgroup
      exact ⟨p,(h.group p group hp a).mp ha,(h.group p group hp b).mp hb⟩
    · rintro ⟨p,ha,hb⟩
      have hp := h.pointed a p ha
      obtain ⟨group,hgroup⟩ := Option.isSome_iff_exists.mp ((h.live p).mp hp)
      exact ⟨group,(hret group).mpr ⟨p,hp,hgroup⟩,(h.group p group hgroup a).mpr ha,
        (h.group p group hgroup b).mpr hb⟩
  refine ⟨?_,?_,hjoined⟩
  · intro s₁ hs₁ s₂ hs₂ hne
    obtain ⟨p,-,hp⟩ := (hret s₁).mp hs₁
    obtain ⟨q,-,hq⟩ := (hret s₂).mp hs₂
    rw [Finset.disjoint_left]
    intro x hx hx'
    have hpx := (h.group p s₁ hp x).mp hx
    have hqx := (h.group q s₂ hq x).mp hx'
    obtain rfl := Option.some.inj (hpx.symm.trans hqx)
    exact hne (Option.some.inj (hp.symm.trans hq))
  · intro a
    have hself := hjoined a a
    rw [joined_self_iff] at hself
    simpa using hself

/-- The second and third loop give the classes, whatever the orders are. -/
theorem unite_partitions (order : GroupOrders) (groupings : Finset AddressSet) :
    ∃ ret, unite order groupings = some ret ∧ Partitions groupings ret := by
  obtain ⟨s,hs,h⟩ := @Labelled.foldlM order _ _ labelled_create (order.groupings.toList groupings)
  have hall : (order.groupings.toList groupings).toFinset ∪ ∅ = groupings := by
    ext group
    simp [order.groupings.mem_toList]
  rw [hall] at h
  obtain ⟨ret,hcollect,hret⟩ := @collect_some _ s.heap ∅
    (order.pointers.nodup_toList s.uniqueGroupings) fun p hp =>
      (h.live p).mp ((order.pointers.mem_toList _ p).mp hp)
  refine ⟨ret,?_,h.partitions fun group => ?_⟩
  · unfold unite
    rw [hs]
    exact hcollect
  · rw [hret group]
    simp [order.pointers.mem_toList]

end AddressGroups

/-- Where the ownership of the outputs can be told, the result is the partition that belongs to
the initial groupings. -/
theorem CWallet.getAddressGroupings_partitions (getID : CPubKey → CKeyID) (fDataCarrier : Bool)
    (order : GroupOrders) (w : CWallet) (hashes : List Uint256) :
    match w.initialGroupings getID fDataCarrier hashes with
    | .error e => w.getAddressGroupings getID fDataCarrier order hashes = .error e
    | .ok groupings => ∃ ret,
        w.getAddressGroupings getID fDataCarrier order hashes = .ok (some ret) ∧
          Partitions groupings ret := by
  unfold getAddressGroupings
  cases w.initialGroupings getID fDataCarrier hashes with
  | error e => rfl
  | ok groupings =>
    obtain ⟨ret,hret,hpartitions⟩ := AddressGroups.unite_partitions order groupings
    exact ⟨ret,congrArg Except.ok hret,hpartitions⟩

end Anoncoin
