import Anoncoin.Lib.Slots
import Anoncoin.AddrMan

/-!
The tables of the address manager by themselves: which slots hold an entry, and what one
slot or one entry can be changed to.
-/

set_option autoImplicit false

namespace Anoncoin
open Lib

/-- What the tables have to do with an entry. -/
structure Place where
  service : CService
  fInTried : Bool
  nRefCount : Int

def CAddrInfo.place (info : CAddrInfo) : Place := ⟨info.toCService,info.fInTried,info.nRefCount⟩

/-- Every occupied slot is at the position that is computed from its entry, and the entries
know how often they occur. -/
structure Slotted (H : AddrHashes) (nKey : Uint256) (places : Nat → Option Place)
    (vvTried : TriedSlot → Option Nat) (vvNew : NewSlot → Option Nat) : Prop where
  tried : ∀ s nId, vvTried s = some nId ↔
    ∃ p, places nId = some p ∧ p.fInTried = true ∧ H.triedSlot nKey p.service = s
  new : ∀ s nId, vvNew s = some nId →
    ∃ p, places nId = some p ∧ p.fInTried = false ∧
      H.getBucketPosition nKey p.service true s.1 = s.2
  refs : ∀ nId p, places nId = some p → p.nRefCount = occurrences vvNew nId
  most : ∀ nId p, places nId = some p → p.nRefCount ≤ ADDRMAN_NEW_BUCKETS_PER_ADDRESS

namespace Slotted
variable {H : AddrHashes} {nKey : Uint256} {places : Nat → Option Place}
  {vvTried : TriedSlot → Option Nat} {vvNew vvNew' : NewSlot → Option Nat} {nId : Nat} {p q : Place}

theorem forall_update {Q : Nat → Place → Prop} (hq : Q nId q)
    (hrest : ∀ j x, j ≠ nId → places j = some x → Q j x) :
    ∀ j x, Function.update places nId (some q) j = some x → Q j x := by
  intro j x hx
  by_cases hj : j = nId
  · rw [hj,Function.update_self] at hx
    rw [hj,← Option.some.inj hx]
    exact hq
  · rw [Function.update_of_ne hj] at hx
    exact hrest j x hj hx

theorem noRefs (h : Slotted H nKey places vvTried vvNew) (hp : places nId = some p)
    (hzero : p.nRefCount = 0) : ∀ s, vvNew s ≠ some nId := by
  have hrefs := h.refs nId p hp
  exact occurrences_eq_zero_iff.mp (by omega)

theorem absent (h : Slotted H nKey places vvTried vvNew) (hp : places nId = none) :
    ∀ s, vvNew s ≠ some nId := by
  intro s hs
  obtain ⟨p,hsome,-⟩ := h.new s nId hs
  rw [hp] at hsome
  contradiction

theorem new_of_place (h : Slotted H nKey places vvTried vvNew) (hp : places nId = some p)
    {s : NewSlot} (hs : vvNew s = some nId) :
    p.fInTried = false ∧ H.getBucketPosition nKey p.service true s.1 = s.2 := by
  obtain ⟨q,hq,hf,hpos⟩ := h.new s nId hs
  rw [hp] at hq
  obtain rfl := Option.some.inj hq
  exact ⟨hf,hpos⟩

/-- An entry in no slot of the new table can be changed freely, as far as the other slots are
concerned. -/
theorem new_elsewhere (h : Slotted H nKey places vvTried vvNew) (hnone : ∀ s, vvNew s ≠ some nId)
    (v : Option Place) : ∀ s j, vvNew s = some j → ∃ p, Function.update places nId v j = some p ∧
      p.fInTried = false ∧ H.getBucketPosition nKey p.service true s.1 = s.2 := by
  intro s j hs
  have hj : j ≠ nId := by
    intro hj
    exact hnone s (hj ▸ hs)
  rw [Function.update_of_ne hj]
  exact h.new s j hs

/-- A tried entry is in no slot of the new table. -/
theorem tried_noRefs (h : Slotted H nKey places vvTried vvNew) (hp : places nId = some p)
    (ht : p.fInTried = true) : p.nRefCount = 0 := by
  have hnone : occurrences vvNew nId = 0 := by
    rw [occurrences_eq_zero_iff]
    intro s hs
    rw [(h.new_of_place hp hs).1] at ht
    contradiction
  rw [h.refs nId p hp,hnone]
  rfl

/-- One entry is changed, but not where it belongs, and its slots in the new table with it. -/
theorem revise (h : Slotted H nKey places vvTried vvNew) (hp : places nId = some p)
    (htried : q.fInTried = p.fInTried) (hkey : q.service.getKey = p.service.getKey)
    (haddr : q.service.toCNetAddr = p.service.toCNetAddr)
    (hslots : ∀ s j, vvNew' s = some j → vvNew s = some j ∨
      (j = nId ∧ p.fInTried = false ∧ H.getBucketPosition nKey p.service true s.1 = s.2))
    (hothers : ∀ j, j ≠ nId → occurrences vvNew' j = occurrences vvNew j)
    (hrefs : q.nRefCount = occurrences vvNew' nId)
    (hmost : q.nRefCount ≤ ADDRMAN_NEW_BUCKETS_PER_ADDRESS) :
    Slotted H nKey (Function.update places nId (some q)) vvTried vvNew' := by
  have hslot : H.triedSlot nKey q.service = H.triedSlot nKey p.service := by
    simp only [AddrHashes.triedSlot,AddrHashes.getTriedBucket,AddrHashes.getBucketPosition,hkey,haddr]
  have hpos : ∀ b, H.getBucketPosition nKey q.service true b =
      H.getBucketPosition nKey p.service true b := by
    intro b
    simp only [AddrHashes.getBucketPosition,hkey]
  refine ⟨?_,?_,?_,?_⟩
  · intro s j
    rw [h.tried]
    by_cases hj : j = nId
    · simp [hj,hp,hslot,htried]
    · simp [hj]
  · intro s j hs
    by_cases hj : j = nId
    · subst hj
      refine ⟨q,Function.update_self _ _ _,?_⟩
      rw [htried,hpos]
      rcases hslots s j hs with hold | ⟨-,hnew⟩
      · exact h.new_of_place hp hold
      · exact hnew
    · rw [Function.update_of_ne hj]
      rcases hslots s j hs with hold | ⟨rfl,-⟩
      · exact h.new s j hold
      · contradiction
  · refine forall_update hrefs fun j x hj hx => ?_
    rw [hothers j hj]
    exact h.refs j x hx
  · exact forall_update hmost fun j x _ hx => h.most j x hx

/-- A slot is taken away from the entry that it held. -/
theorem unslot (h : Slotted H nKey places vvTried vvNew) (hp : places nId = some p) {s : NewSlot}
    (hs : vvNew s = some nId) :
    Slotted H nKey (Function.update places nId (some { p with nRefCount := p.nRefCount-1 })) vvTried
      (Function.update vvNew s none) := by
  have hrefs := h.refs nId p hp
  have hmost := h.most nId p hp
  have hone := occurrences_update vvNew s none nId
  simp only [hs,if_true,reduceCtorEq,if_false] at hone
  refine h.revise hp rfl rfl rfl ?_ ?_ (by simp only; omega) (by simp only; omega)
  · intro t j ht
    by_cases hts : t = s
    · simp [hts] at ht
    · rw [Function.update_of_ne hts] at ht
      exact .inl ht
  · exact fun j hj => occurrences_update_other (by simp [hs,Ne.symm hj]) (by simp)

/-- An empty slot is given to an entry that belongs there. -/
theorem slot (h : Slotted H nKey places vvTried vvNew) (hp : places nId = some p) {s : NewSlot}
    (hs : vvNew s = none) (htried : p.fInTried = false)
    (hpos : H.getBucketPosition nKey p.service true s.1 = s.2)
    (hroom : p.nRefCount < ADDRMAN_NEW_BUCKETS_PER_ADDRESS) :
    Slotted H nKey (Function.update places nId (some { p with nRefCount := p.nRefCount+1 })) vvTried
      (Function.update vvNew s (some nId)) := by
  have hrefs := h.refs nId p hp
  have hone := occurrences_update vvNew s (some nId) nId
  simp only [hs,if_true,reduceCtorEq,if_false] at hone
  refine h.revise hp rfl rfl rfl ?_ ?_ (by simp only; omega) (by simp only; omega)
  · intro t j ht
    by_cases hts : t = s
    · rw [hts,Function.update_self] at ht
      rw [hts]
      exact .inr ⟨(Option.some.inj ht).symm,htried,hpos⟩
    · rw [Function.update_of_ne hts] at ht
      exact .inl ht
  · exact fun j hj => occurrences_update_other (by simp [hs]) (by simp [Ne.symm hj])

theorem releaseNew_eq (service : CService) (n : Int) :
    CAddrMan.releaseNew H nKey service nId vvNew n =
      release nId ((List.finRange ADDRMAN_NEW_BUCKET_COUNT).map fun bucket : Fin _ =>
        ((bucket,H.getBucketPosition nKey service true bucket) : NewSlot)) vvNew n := by
  simp only [CAddrMan.releaseNew,release,List.foldl_map]

/-- The loop of `MakeTried` finds every slot that holds the entry. -/
theorem released (h : Slotted H nKey places vvTried vvNew) (hp : places nId = some p) :
    Slotted H nKey (Function.update places nId (some { p with
        nRefCount := (CAddrMan.releaseNew H nKey p.service nId vvNew p.nRefCount).2 })) vvTried
        (CAddrMan.releaseNew H nKey p.service nId vvNew p.nRefCount).1 ∧
      (CAddrMan.releaseNew H nKey p.service nId vvNew p.nRefCount).2 = 0 := by
  rw [releaseNew_eq]
  have htable := release_table nId ((List.finRange ADDRMAN_NEW_BUCKET_COUNT).map
    fun bucket : Fin _ => ((bucket,H.getBucketPosition nKey p.service true bucket) : NewSlot))
    vvNew p.nRefCount
  have hcount := release_count nId ((List.finRange ADDRMAN_NEW_BUCKET_COUNT).map
    fun bucket : Fin _ => ((bucket,H.getBucketPosition nKey p.service true bucket) : NewSlot))
    vvNew p.nRefCount
  generalize hr : release nId _ vvNew p.nRefCount = r at htable hcount ⊢
  have hgone : ∀ s, r.1 s ≠ some nId := by
    intro s hs
    rw [htable] at hs
    by_cases hv : vvNew s = some nId
    · have hpos := (h.new_of_place hp hv).2
      rw [if_pos ⟨List.mem_map.mpr ⟨s.1,List.mem_finRange _,Prod.ext rfl hpos⟩,hv⟩] at hs
      simp at hs
    · rw [if_neg fun hin => hv hin.2] at hs
      exact hv hs
  have hkept : ∀ s j, j ≠ nId → (r.1 s = some j ↔ vvNew s = some j) := by
    intro s j hj
    rw [htable]
    split
    · next hin =>
      rw [hin.2]
      simp [Ne.symm hj]
    · rfl
  have hrefs := h.refs nId p hp
  rw [occurrences_eq_zero_iff.mpr hgone] at hcount
  have hzero : r.2 = 0 := by omega
  refine ⟨h.revise hp rfl rfl rfl ?_ ?_ ?_ ?_,hzero⟩
  · intro s j hs
    by_cases hj : j = nId
    · rw [hj] at hs
      exact absurd hs (hgone s)
    · exact .inl ((hkept s j hj).mp hs)
  · intro j hj
    simp only [occurrences,hkept _ j hj]
  · rw [occurrences_eq_zero_iff.mpr hgone,hzero]
    rfl
  · simp only [hzero]
    decide

/-- A new entry without slots. -/
theorem insertFresh (h : Slotted H nKey places vvTried vvNew) (hnone : places nId = none)
    (htried : q.fInTried = false) (hrefs : q.nRefCount = 0) :
    Slotted H nKey (Function.update places nId (some q)) vvTried vvNew := by
  have habsent := h.absent hnone
  refine ⟨?_,?_,?_,?_⟩
  · intro s j
    rw [h.tried]
    by_cases hj : j = nId
    · simp [hj,hnone,htried]
    · simp [hj]
  · exact h.new_elsewhere habsent _
  · refine forall_update ?_ fun j x _ hx => h.refs j x hx
    rw [hrefs,occurrences_eq_zero_iff.mpr habsent]
    rfl
  · refine forall_update ?_ fun j x _ hx => h.most j x hx
    rw [hrefs]
    decide

/-- An entry without slots goes. -/
theorem erase (h : Slotted H nKey places vvTried vvNew) (hp : places nId = some p)
    (htried : p.fInTried = false) (hrefs : p.nRefCount = 0) :
    Slotted H nKey (Function.update places nId none) vvTried vvNew := by
  have hnone := h.noRefs hp hrefs
  have hsome : ∀ j x, Function.update places nId none j = some x → places j = some x := by
    intro j x hx
    by_cases hj : j = nId
    · simp [hj] at hx
    · rwa [Function.update_of_ne hj] at hx
  refine ⟨?_,?_,fun j x hx => h.refs j x (hsome j x hx),fun j x hx => h.most j x (hsome j x hx)⟩
  · intro s j
    rw [h.tried]
    by_cases hj : j = nId
    · simp [hj,hp,htried]
    · simp [hj]
  · exact h.new_elsewhere hnone _

/-- The entry of a slot of the tried table is taken out of it. -/
theorem untry (h : Slotted H nKey places vvTried vvNew) (hp : places nId = some p) {s : TriedSlot}
    (hs : vvTried s = some nId) :
    Slotted H nKey (Function.update places nId (some { p with fInTried := false }))
      (Function.update vvTried s none) vvNew := by
  obtain ⟨x,hx,htried,hslot⟩ := (h.tried s nId).mp hs
  rw [hp] at hx
  obtain rfl := Option.some.inj hx
  have hnone := h.noRefs hp (h.tried_noRefs hp htried)
  refine ⟨?_,?_,?_,?_⟩
  · intro t j
    by_cases hj : j = nId
    · subst hj
      have hother : Function.update vvTried s none t ≠ some j := by
        intro ht
        by_cases hts : t = s
        · simp [hts] at ht
        · rw [Function.update_of_ne hts] at ht
          obtain ⟨y,hy,-,hyslot⟩ := (h.tried t j).mp ht
          rw [hp] at hy
          obtain rfl := Option.some.inj hy
          exact hts (hyslot.symm.trans hslot)
      simp [hother]
    · rw [Function.update_of_ne hj,← h.tried t j]
      by_cases hts : t = s
      · subst hts
        simp [hs,Ne.symm hj]
      · rw [Function.update_of_ne hts]
  · exact h.new_elsewhere hnone _
  · exact forall_update (h.refs nId p hp) fun j y _ hy => h.refs j y hy
  · exact forall_update (h.most nId p hp) fun j y _ hy => h.most j y hy

/-- An entry without slots goes to its place in the tried table. -/
theorem tryOut (h : Slotted H nKey places vvTried vvNew) (hp : places nId = some p)
    (htried : p.fInTried = false) (hrefs : p.nRefCount = 0)
    (hs : vvTried (H.triedSlot nKey p.service) = none) :
    Slotted H nKey (Function.update places nId (some { p with fInTried := true }))
      (Function.update vvTried (H.triedSlot nKey p.service) (some nId)) vvNew := by
  have hnone := h.noRefs hp hrefs
  refine ⟨?_,?_,?_,?_⟩
  · intro t j
    by_cases hj : j = nId
    · subst hj
      by_cases hts : t = H.triedSlot nKey p.service
      · simp [hts]
      · have hother : vvTried t ≠ some j := by
          intro ht
          obtain ⟨y,hy,hyt,-⟩ := (h.tried t j).mp ht
          rw [hp] at hy
          obtain rfl := Option.some.inj hy
          rw [htried] at hyt
          contradiction
        simp [hts,hother,Ne.symm hts]
    · rw [Function.update_of_ne hj,← h.tried t j]
      by_cases hts : t = H.triedSlot nKey p.service
      · subst hts
        simp [hs,Ne.symm hj]
      · rw [Function.update_of_ne hts]
  · exact h.new_elsewhere hnone _
  · exact forall_update (h.refs nId p hp) fun j y _ hy => h.refs j y hy
  · exact forall_update (h.most nId p hp) fun j y _ hy => h.most j y hy

end Slotted

end Anoncoin
