import Mathlib.Tactic.Ring
import Mathlib.Logic.Equiv.Basic
import Anoncoin.Lib.Containers
import Anoncoin.AddrTables

/-!
The representation invariant of the address manager, as it stands in the middle of an
operation: what changing one entry, `SwapRandom`, `Delete` and `ClearNew` keep of it.
-/

set_option autoImplicit false

namespace Anoncoin
open Lib

/-- The entry without its position in the random order. -/
def CAddrInfo.strip (info : CAddrInfo) : CAddrInfo := { info with nRandomPos := 0 }

/-- 1 for an entry of the new table. -/
def Place.new (p : Place) : Int := if p.fInTried then 0 else 1

/-- 1 for an entry of the tried table. -/
def Place.tried (p : Place) : Int := if p.fInTried then 1 else 0

section Strip
variable {info info' : CAddrInfo}

theorem CAddrInfo.place_of_strip (h : info'.strip = info.strip) : info'.place = info.place :=
  show info'.strip.place = info.strip.place from congrArg _ h

theorem CAddrInfo.nRefCount_of_strip (h : info'.strip = info.strip) :
    info'.nRefCount = info.nRefCount := congrArg Place.nRefCount (place_of_strip h)

theorem CAddrInfo.fInTried_of_strip (h : info'.strip = info.strip) :
    info'.fInTried = info.fInTried := congrArg Place.fInTried (place_of_strip h)

theorem CAddrInfo.addr_of_strip (h : info'.strip = info.strip) :
    info'.toCNetAddr = info.toCNetAddr :=
  show info'.strip.toCNetAddr = info.strip.toCNetAddr from
    congrArg (fun x : CAddrInfo => x.toCNetAddr) h

end Strip

namespace CAddrMan

def places (m : CAddrMan) (nId : Nat) : Option Place := (m.mapInfo.lookup nId).map CAddrInfo.place

/-- A sum over the entries. -/
def total (m : CAddrMan) (f : Place → Int) : Int :=
  (m.mapInfo.entries.map fun e => f e.2.place).sum

/-- Ids, addresses and positions in the random order belong to each other. -/
structure Named (m : CAddrMan) : Prop where
  addr : ∀ a nId, m.mapAddr.lookup a = some nId ↔
    ∃ info, m.mapInfo.lookup nId = some info ∧ info.toCNetAddr = a
  random : ∀ i nId : Nat, m.vRandom[i]? = some nId ↔
    ∃ info, m.mapInfo.lookup nId = some info ∧ info.nRandomPos = (i : Int)
  placed : ∀ nId info, m.mapInfo.lookup nId = some info → 0 ≤ info.nRandomPos
  fresh : ∀ nId info, m.mapInfo.lookup nId = some info → nId < m.nIdCount
  size : (m.vRandom.length : Int) = m.total fun _ => 1

/-- The counters, less what an operation has counted ahead. -/
structure Counted (m : CAddrMan) (dNew dTried : Int) : Prop where
  new : m.nNew+dNew = m.total Place.new
  tried : m.nTried+dTried = m.total Place.tried

/-- Every entry but the pending ones has a slot. -/
def Settled (m : CAddrMan) (pending : List Nat) : Prop :=
  ∀ nId p, m.places nId = some p → nId ∉ pending → p.fInTried = false → p.nRefCount ≠ 0

/-- The invariant in the middle of an operation. -/
structure Sound (H : AddrHashes) (m : CAddrMan) (pending : List Nat) (dNew dTried : Int) : Prop where
  named : m.Named
  slotted : Slotted H m.nKey m.places m.vvTried m.vvNew
  counted : m.Counted dNew dTried
  settled : m.Settled pending

section Access
variable {m : CAddrMan} {nId : Nat} {info : CAddrInfo}

@[simp] theorem lookup_setInfo (m : CAddrMan) (nId : Nat) (info : CAddrInfo) (j : Nat) :
    (m.setInfo nId info).mapInfo.lookup j = if j = nId then some info else m.mapInfo.lookup j := by
  by_cases hj : j = nId
  · subst hj
    simp [setInfo]
  · simp [setInfo,hj]

@[simp] theorem places_setInfo (m : CAddrMan) (nId : Nat) (info : CAddrInfo) :
    (m.setInfo nId info).places = Function.update m.places nId (some info.place) := by
  funext j
  by_cases hj : j = nId
  · simp [places,hj]
  · simp [places,hj]

theorem places_of_lookup (h : m.mapInfo.lookup nId = some info) :
    m.places nId = some info.place := by
  simp [places,h]

theorem places_none (h : m.mapInfo.lookup nId = none) : m.places nId = none := by
  simp [places,h]

theorem lookup_of_places {p : Place} (h : m.places nId = some p) :
    ∃ info, m.mapInfo.lookup nId = some info ∧ info.place = p := Option.map_eq_some_iff.mp h

theorem total_setInfo (h : m.mapInfo.lookup nId = some info) (info' : CAddrInfo) (f : Place → Int) :
    (m.setInfo nId info').total f = m.total f-f info.place+f info'.place := by
  have herase := sum_erase (fun e => f e.2.place) h
  have hinsert := sum_insert (fun e => f e.2.place) m.mapInfo nId info'
  simp only [total,setInfo] at herase hinsert ⊢
  omega

theorem total_setInfo_new (h : m.mapInfo.lookup nId = none) (info' : CAddrInfo) (f : Place → Int) :
    (m.setInfo nId info').total f = m.total f+f info'.place := by
  have herase := sum_erase_none (fun e => f e.2.place) h
  have hinsert := sum_insert (fun e => f e.2.place) m.mapInfo nId info'
  simp only [total,setInfo] at herase hinsert ⊢
  omega

end Access

section Frames
variable {m m' : CAddrMan} {nId : Nat} {info info' : CAddrInfo}

/-- An entry is changed, but not its name. -/
theorem Named.setInfo (h : m.Named) (hl : m.mapInfo.lookup nId = some info)
    (haddr : info'.toCNetAddr = info.toCNetAddr) (hpos : info'.nRandomPos = info.nRandomPos) :
    (m.setInfo nId info').Named := by
  refine ⟨?_,?_,?_,?_,?_⟩
  · intro a j
    rw [show (m.setInfo nId info').mapAddr = m.mapAddr from rfl,h.addr]
    by_cases hj : j = nId
    · subst hj
      simp [hl,haddr]
    · simp [hj]
  · intro i j
    rw [show (m.setInfo nId info').vRandom = m.vRandom from rfl,h.random]
    by_cases hj : j = nId
    · subst hj
      simp [hl,hpos]
    · simp [hj]
  · intro j x hx
    rw [lookup_setInfo] at hx
    by_cases hj : j = nId
    · rw [if_pos hj] at hx
      rw [← Option.some.inj hx,hpos]
      exact h.placed nId info hl
    · rw [if_neg hj] at hx
      exact h.placed j x hx
  · intro j x hx
    rw [lookup_setInfo] at hx
    by_cases hj : j = nId
    · rw [hj]
      exact h.fresh nId info hl
    · rw [if_neg hj] at hx
      exact h.fresh j x hx
  · rw [total_setInfo hl,show (m.setInfo nId info').vRandom = m.vRandom from rfl]
    simpa using h.size

/-- Only the random order differs. -/
structure Reordered (m m' : CAddrMan) : Prop where
  rest : m' = { m with mapInfo := m'.mapInfo, vRandom := m'.vRandom }
  same : ∀ nId, (m'.mapInfo.lookup nId).map CAddrInfo.strip =
    (m.mapInfo.lookup nId).map CAddrInfo.strip
  total : ∀ f, m'.total f = m.total f
  length : m'.vRandom.length = m.vRandom.length

theorem Reordered.refl (m : CAddrMan) : Reordered m m := ⟨rfl,fun _ => rfl,fun _ => rfl,rfl⟩

theorem Reordered.lookup (h : Reordered m m') (hl : m.mapInfo.lookup nId = some info) :
    ∃ info', m'.mapInfo.lookup nId = some info' ∧ info'.strip = info.strip := by
  have hsame := h.same nId
  rw [hl,Option.map_some] at hsame
  exact Option.map_eq_some_iff.mp hsame

theorem Reordered.places (h : Reordered m m') : m'.places = m.places := by
  funext j
  have hplace : ∀ x : CAddrInfo, x.place = x.strip.place := fun _ => rfl
  have hmap : ∀ o : Option CAddrInfo, o.map CAddrInfo.place =
      (o.map CAddrInfo.strip).map CAddrInfo.place := by
    intro o
    cases o with
    | none => rfl
    | some x => rfl
  rw [CAddrMan.places,CAddrMan.places,hmap,hmap (m.mapInfo.lookup j),h.same]

end Frames

section Order
variable {m m' : CAddrMan} {nId : Nat} {info : CAddrInfo}

theorem Named.lookup_of_random (h : m.Named) {i : Nat} (hi : i < m.vRandom.length) :
    ∃ info, m.mapInfo.lookup m.vRandom[i] = some info ∧ info.nRandomPos = (i : Int) :=
  (h.random i _).mp (List.getElem?_eq_getElem hi)

/-- The ids in the random order are distinct. -/
theorem Named.random_inj (h : m.Named) {i j : Nat} (hi : m.vRandom[i]? = some nId)
    (hj : m.vRandom[j]? = some nId) : i = j := by
  obtain ⟨info₁,hl₁,hp₁⟩ := (h.random i nId).mp hi
  obtain ⟨info₂,hl₂,hp₂⟩ := (h.random j nId).mp hj
  rw [hl₁] at hl₂
  rw [← Option.some.inj hl₂,hp₁] at hp₂
  omega

theorem Named.reorder (h : m.Named) (hr : Reordered m m')
    (hrandom : ∀ i nId : Nat, m'.vRandom[i]? = some nId ↔
      ∃ info, m'.mapInfo.lookup nId = some info ∧ info.nRandomPos = (i : Int))
    (hplaced : ∀ nId info, m'.mapInfo.lookup nId = some info → 0 ≤ info.nRandomPos) :
    m'.Named := by
  have hback : Reordered m' m := by
    refine ⟨?_,fun j => (hr.same j).symm,fun f => (hr.total f).symm,hr.length.symm⟩
    rw [hr.rest]
  refine ⟨?_,hrandom,hplaced,?_,?_⟩
  · intro a j
    rw [hr.rest]
    refine (h.addr a j).trans ⟨?_,?_⟩
    · rintro ⟨x,hx,ha⟩
      obtain ⟨y,hy,hxy⟩ := hr.lookup hx
      exact ⟨y,hy,(CAddrInfo.addr_of_strip hxy).trans ha⟩
    · rintro ⟨x,hx,ha⟩
      obtain ⟨y,hy,hxy⟩ := hback.lookup hx
      exact ⟨y,hy,(CAddrInfo.addr_of_strip hxy).trans ha⟩
  · intro j x hx
    obtain ⟨y,hy,-⟩ := hback.lookup hx
    rw [hr.rest]
    exact h.fresh j y hy
  · rw [hr.length,hr.total]
    exact h.size

theorem getElem?_swap {l : List Nat} {i j a b : Nat} (hi : l[i]? = some a) (hj : l[j]? = some b)
    (k : Nat) : ((l.set i b).set j a)[k]? = l[Equiv.swap i j k]? := by
  have hli := (List.getElem?_eq_some_iff.mp hi).1
  have hlj := (List.getElem?_eq_some_iff.mp hj).1
  rw [List.getElem?_set,List.getElem?_set,List.length_set,Equiv.swap_apply_def]
  by_cases hkj : j = k
  · subst hkj
    by_cases hki : j = i
    · subst hki
      simp [← hi,hlj]
    · simp [hki,hi,hlj]
  · by_cases hki : i = k
    · subst hki
      simp [hkj,hj,hli]
    · simp [hkj,hki,Ne.symm hkj,Ne.symm hki]

theorem Reordered.of_swapRandom {i j : Int} (hrun : m.swapRandom i j = some m') : Reordered m m' := by
  unfold CAddrMan.swapRandom at hrun
  split at hrun
  · rw [← Option.some.inj hrun]
    exact .refl m
  · simp only [Option.bind_eq_bind,Option.bind_eq_some_iff] at hrun
    obtain ⟨-,-,nId1,-,nId2,-,info1,hl₁,-,-,info2,hl₂,hm'⟩ := hrun
    rw [← Option.some.inj hm']
    refine ⟨rfl,?_,?_,by simp [CAddrMan.setInfo]⟩
    · intro nId
      rw [lookup_setInfo] at hl₂
      simp only [lookup_setInfo]
      by_cases h1 : nId = nId1
      · subst h1
        by_cases h2 : nId = nId2
        · subst h2
          rw [if_pos rfl,Option.some.injEq] at hl₂
          simp [hl₁,← hl₂,CAddrInfo.strip]
        · simp [hl₁,h2,CAddrInfo.strip]
      · by_cases h2 : nId = nId2
        · subst h2
          rw [if_neg h1] at hl₂
          simp [hl₂,CAddrInfo.strip]
        · simp [h1,h2]
    · intro f
      have hfirst := total_setInfo hl₁ { info1 with nRandomPos := j } f
      have hsecond := total_setInfo hl₂ { info2 with nRandomPos := i } f
      simp only [CAddrInfo.place] at hfirst hsecond
      refine Eq.trans hsecond ?_
      omega

/-- `SwapRandom` moves the entry at the first position to the second one. -/
theorem Named.swapRandom (h : m.Named) {i j : Nat} (hi : i < m.vRandom.length)
    (hj : j < m.vRandom.length) :
    ∃ m', m.swapRandom i j = some m' ∧ m'.Named ∧ Reordered m m' ∧
      m'.vRandom[j]? = m.vRandom[i]? := by
  by_cases hij : i = j
  · subst hij
    exact ⟨m,if_pos rfl,h,.refl m,rfl⟩
  obtain ⟨info₁,hl₁,hp₁⟩ := h.lookup_of_random hi
  obtain ⟨info₂,hl₂,hp₂⟩ := h.lookup_of_random hj
  have hvi : m.vRandom[i]? = some m.vRandom[i] := List.getElem?_eq_getElem hi
  have hvj : m.vRandom[j]? = some m.vRandom[j] := List.getElem?_eq_getElem hj
  generalize m.vRandom[i] = nId1 at hl₁ hvi
  generalize m.vRandom[j] = nId2 at hl₂ hvj
  have hne : nId2 ≠ nId1 := by
    intro he
    exact hij (h.random_inj hvi (he ▸ hvj))
  have hlook₂ : (m.setInfo nId1 { info₁ with nRandomPos := j }).mapInfo.lookup nId2 =
      some info₂ := by
    rw [lookup_setInfo,if_neg hne]
    exact hl₂
  have hrun : m.swapRandom i j = some { (m.setInfo nId1 { info₁ with nRandomPos := j }).setInfo
      nId2 { info₂ with nRandomPos := i } with
      vRandom := (m.vRandom.set i nId2).set j nId1 } := by
    unfold CAddrMan.swapRandom
    rw [if_neg (by omega)]
    simp only [Int.toNat_natCast,hvi,hvj]
    rw [guard,if_pos (by omega)]
    simp only [Option.pure_def,Option.bind_eq_bind,Option.bind_some,hl₁,hl₂,hlook₂]
    rfl
  have hreordered := Reordered.of_swapRandom hrun
  refine ⟨_,hrun,h.reorder hreordered ?_ ?_,hreordered,?_⟩
  · intro k nId
    rw [getElem?_swap hvi hvj,h.random]
    simp only [lookup_setInfo]
    have hk := Equiv.swap_apply_def i j k
    by_cases h2 : nId = nId2
    · subst h2
      simp only [hl₂,if_true,Option.some.injEq,exists_eq_left',hp₂]
      split_ifs at hk <;> omega
    · rw [if_neg h2]
      by_cases h1 : nId = nId1
      · subst h1
        simp only [hl₁,if_true,Option.some.injEq,exists_eq_left',hp₁]
        split_ifs at hk <;> omega
      · rw [if_neg h1]
        have hother : ∀ info : CAddrInfo, m.mapInfo.lookup nId = some info →
            info.nRandomPos ≠ (i : Int) ∧ info.nRandomPos ≠ (j : Int) := by
          intro info hl
          refine ⟨fun hp => h1 ?_,fun hp => h2 ?_⟩
          · exact Option.some.inj (((h.random i nId).mpr ⟨info,hl,hp⟩).symm.trans hvi)
          · exact Option.some.inj (((h.random j nId).mpr ⟨info,hl,hp⟩).symm.trans hvj)
        refine exists_congr fun info => and_congr_right fun hl => ?_
        obtain ⟨hni,hnj⟩ := hother info hl
        split_ifs at hk <;> omega
  · intro nId x hx
    simp only [lookup_setInfo] at hx
    split_ifs at hx
    · rw [← Option.some.inj hx]
      exact Int.natCast_nonneg i
    · rw [← Option.some.inj hx]
      exact Int.natCast_nonneg j
    · exact h.placed nId x hx
  · rw [List.getElem?_set_self (by simpa using hj),hvi]

/-- The position of an entry in the random order. -/
theorem Named.position (h : m.Named) (hl : m.mapInfo.lookup nId = some info) :
    ∃ i : Nat, info.nRandomPos = (i : Int) ∧ m.vRandom[i]? = some nId := by
  obtain ⟨i,hi⟩ := Int.eq_ofNat_of_zero_le (h.placed nId info hl)
  exact ⟨i,hi,(h.random i nId).mpr ⟨info,hl,hi⟩⟩

/-- The last entry of the random order is removed with its address. -/
theorem Named.dropLast (h : m.Named) (hl : m.mapInfo.lookup nId = some info)
    (hlast : m.vRandom.getLast? = some nId) (nNew : Int) :
    Named { m with
      vRandom := m.vRandom.dropLast
      mapAddr := m.mapAddr.erase info.toCNetAddr
      mapInfo := m.mapInfo.erase nId
      nNew := nNew } := by
  rw [List.getLast?_eq_getElem?] at hlast
  have hsome : ∀ j x, (m.mapInfo.erase nId).lookup j = some x ↔
      j ≠ nId ∧ m.mapInfo.lookup j = some x := by
    intro j x
    by_cases hj : j = nId
    · subst hj
      simp
    · simp [hj]
  refine ⟨?_,?_,?_,?_,?_⟩
  · intro a j
    simp only [hsome,and_assoc,exists_and_left]
    rw [← h.addr]
    by_cases ha : a = info.toCNetAddr
    · subst ha
      rw [(h.addr _ nId).mpr ⟨info,hl,rfl⟩]
      simp [eq_comm]
    · rw [AList.lookup_erase_ne ha]
      refine ⟨fun haddr => ⟨?_,haddr⟩,fun haddr => haddr.2⟩
      rintro rfl
      obtain ⟨x,hx,hxa⟩ := (h.addr a j).mp haddr
      rw [hl] at hx
      rw [← Option.some.inj hx] at hxa
      exact ha hxa.symm
  · intro i j
    simp only [hsome,and_assoc,exists_and_left]
    rw [← h.random,List.getElem?_dropLast]
    split
    · next hi =>
      refine ⟨fun hr => ⟨?_,hr⟩,fun hr => hr.2⟩
      rintro rfl
      have heq := h.random_inj hr hlast
      omega
    · next hi =>
      refine ⟨fun hr => by simp at hr,fun hr => absurd ?_ hr.1⟩
      have hlt := (List.getElem?_eq_some_iff.mp hr.2).1
      have heq : i = m.vRandom.length-1 := by omega
      rw [heq,hlast] at hr
      exact (Option.some.inj hr.2).symm
  · intro j x hx
    exact h.placed j x ((hsome j x).mp hx).2
  · intro j x hx
    exact h.fresh j x ((hsome j x).mp hx).2
  · have herase := sum_erase (fun e => (1 : Int)) hl
    have hlt := (List.getElem?_eq_some_iff.mp hlast).1
    have hsize := h.size
    simp only [total,List.length_dropLast] at herase hsize ⊢
    omega

end Order

section Delete
variable {H : AddrHashes} {m m' : CAddrMan} {pending : List Nat} {dNew dTried : Int} {nId : Nat}
  {info : CAddrInfo}

theorem Reordered.vvNew (h : Reordered m m') : m'.vvNew = m.vvNew := by rw [h.rest]

theorem Reordered.vvTried (h : Reordered m m') : m'.vvTried = m.vvTried := by rw [h.rest]

theorem Reordered.nKey (h : Reordered m m') : m'.nKey = m.nKey := by rw [h.rest]

theorem Sound.reorder (h : m.Sound H pending dNew dTried) (hr : Reordered m m') (hn : m'.Named) :
    m'.Sound H pending dNew dTried := by
  have hnew : m'.nNew = m.nNew := by rw [hr.rest]
  have htried : m'.nTried = m.nTried := by rw [hr.rest]
  refine ⟨hn,?_,⟨?_,?_⟩,?_⟩
  · rw [hr.nKey,hr.places,hr.vvTried,hr.vvNew]
    exact h.slotted
  · rw [hnew,hr.total]
    exact h.counted.new
  · rw [htried,hr.total]
    exact h.counted.tried
  · intro j p hp
    rw [hr.places] at hp
    exact h.settled j p hp

theorem places_erase (m : CAddrMan) (nId : Nat) :
    (fun j => ((m.mapInfo.erase nId).lookup j).map CAddrInfo.place) =
      Function.update m.places nId none := by
  funext j
  by_cases hj : j = nId
  · subst hj
    simp
  · simp [places,hj]

/-- `Delete` of an entry without slots. -/
theorem Sound.delete (h : m.Sound H (nId :: pending) dNew dTried)
    (hl : m.mapInfo.lookup nId = some info) (ht : info.fInTried = false)
    (href : info.nRefCount = 0) :
    ∃ m', m.delete nId = some m' ∧ m'.Sound H pending dNew dTried ∧ m'.nKey = m.nKey ∧
      m'.vvTried = m.vvTried ∧ m'.vvNew = m.vvNew ∧
      ∀ j, (m'.mapInfo.lookup j).map CAddrInfo.strip =
        if j = nId then none else (m.mapInfo.lookup j).map CAddrInfo.strip := by
  obtain ⟨i,hpos,hi⟩ := h.named.position hl
  have hlt := (List.getElem?_eq_some_iff.mp hi).1
  obtain ⟨m₁,hswap,hn₁,hr₁,hlast⟩ :=
    h.named.swapRandom hlt (show m.vRandom.length-1 < m.vRandom.length by omega)
  obtain ⟨info₁,hl₁,hstrip⟩ := hr₁.lookup hl
  have hplace := CAddrInfo.place_of_strip hstrip
  have haddr := CAddrInfo.addr_of_strip hstrip
  have h₁ := h.reorder hr₁ hn₁
  have hrun : m.delete nId = some { m₁ with
      vRandom := m₁.vRandom.dropLast
      mapAddr := m₁.mapAddr.erase info₁.toCNetAddr
      mapInfo := m₁.mapInfo.erase nId
      nNew := m₁.nNew-1 } := by
    have hcast : (m.vRandom.length : Int)-1 = (m.vRandom.length-1 : Nat) := by omega
    unfold CAddrMan.delete
    rw [hl,Option.bind_eq_bind,Option.bind_some,guard,if_pos ht,guard,if_pos href,hpos,hcast,hswap,haddr]
    rfl
  have hnamed := hn₁.dropLast hl₁ (by rw [List.getLast?_eq_getElem?,hr₁.length,hlast,hi]) (m₁.nNew-1)
  refine ⟨_,hrun,⟨hnamed,?_,⟨?_,?_⟩,?_⟩,hr₁.nKey,hr₁.vvTried,hr₁.vvNew,?_⟩
  · have hslotted := h₁.slotted.erase (places_of_lookup hl₁) (by rw [hplace]; exact ht)
      (by rw [hplace]; exact href)
    rw [← places_erase] at hslotted
    exact hslotted
  · have herase := sum_erase (fun e => e.2.place.new) hl₁
    have hone : info₁.place.new = 1 := by
      rw [hplace]
      exact if_neg (by simp [CAddrInfo.place,ht])
    have hnew := h₁.counted.new
    simp only [total] at herase hnew ⊢
    rw [hone] at herase
    omega
  · have herase := sum_erase (fun e => e.2.place.tried) hl₁
    have hzero : info₁.place.tried = 0 := by
      rw [hplace]
      exact if_neg (by simp [CAddrInfo.place,ht])
    have htried := h₁.counted.tried
    simp only [total] at herase htried ⊢
    rw [hzero] at herase
    omega
  · intro j p hp hj
    have hsome : Function.update m₁.places nId none j = some p := by
      rw [← places_erase]
      exact hp
    by_cases hid : j = nId
    · simp [hid] at hsome
    · rw [Function.update_of_ne hid] at hsome
      refine h₁.settled j p hsome ?_
      simp [hid,hj]
  · intro j
    by_cases hj : j = nId
    · subst hj
      simp
    · rw [if_neg hj,← hr₁.same]
      simp [hj]

end Delete

section Entries
variable {H : AddrHashes} {m m' : CAddrMan} {pending pending' : List Nat}
  {dNew dTried dNew' dTried' : Int} {nId : Nat} {info info' : CAddrInfo}

/-- One entry is changed together with the tables and the counters. -/
theorem Sound.setEntry (h : m.Sound H pending dNew dTried) (hl : m.mapInfo.lookup nId = some info)
    (info' : CAddrInfo) (haddr : info'.toCNetAddr = info.toCNetAddr) (hpos : info'.nRandomPos = info.nRandomPos)
    {vvTried' : TriedSlot → Option Nat} {vvNew' : NewSlot → Option Nat} {nTried' nNew' : Int}
    (hslotted : Slotted H m.nKey (Function.update m.places nId (some info'.place)) vvTried' vvNew')
    (hnew : nNew'+dNew' = m.nNew+dNew-info.place.new+info'.place.new)
    (htried : nTried'+dTried' = m.nTried+dTried-info.place.tried+info'.place.tried)
    (hpending : ∀ j, j ≠ nId → j ∉ pending' → j ∉ pending)
    (hthis : nId ∈ pending' ∨ info'.fInTried = true ∨ info'.nRefCount ≠ 0) :
    Sound H { m.setInfo nId info' with
      vvTried := vvTried', vvNew := vvNew', nTried := nTried', nNew := nNew' }
      pending' dNew' dTried' := by
  have hnamed := h.named.setInfo hl haddr hpos
  refine ⟨⟨hnamed.addr,hnamed.random,hnamed.placed,hnamed.fresh,hnamed.size⟩,?_,⟨?_,?_⟩,?_⟩
  · have hplaces := places_setInfo m nId info'
    exact hplaces ▸ hslotted
  · have htotal := total_setInfo hl info' Place.new
    have hold := h.counted.new
    refine hnew.trans ?_
    rw [hold]
    exact htotal.symm
  · have htotal := total_setInfo hl info' Place.tried
    have hold := h.counted.tried
    refine htried.trans ?_
    rw [hold]
    exact htotal.symm
  · intro j p hp hj hf
    have hsome : Function.update m.places nId (some info'.place) j = some p := by
      rw [← places_setInfo]
      exact hp
    by_cases hid : j = nId
    · rw [hid,Function.update_self] at hsome
      rw [← Option.some.inj hsome] at hf ⊢
      rcases hthis with hin | ht | href
      · exact absurd (hid ▸ hin) hj
      · rw [show info'.place.fInTried = info'.fInTried from rfl,ht] at hf
        contradiction
      · exact href
    · rw [Function.update_of_ne hid] at hsome
      exact h.settled j p hsome (hpending j hid hj) hf

/-- One entry is changed together with its slots in the new table. -/
theorem Sound.setSlots (h : m.Sound H pending dNew dTried) (hl : m.mapInfo.lookup nId = some info)
    (info' : CAddrInfo) (haddr : info'.toCNetAddr = info.toCNetAddr) (hpos : info'.nRandomPos = info.nRandomPos)
    (hf : info'.fInTried = info.fInTried) {vvNew' : NewSlot → Option Nat}
    (hslotted : Slotted H m.nKey (Function.update m.places nId (some info'.place)) m.vvTried vvNew')
    (hpending : ∀ j, j ≠ nId → j ∉ pending' → j ∉ pending)
    (hthis : nId ∈ pending' ∨ info'.fInTried = true ∨ info'.nRefCount ≠ 0) :
    Sound H { m.setInfo nId info' with vvNew := vvNew' } pending' dNew dTried := by
  have hnew : info'.place.new = info.place.new := 
    congrArg (fun b : Bool => if b then (0 : Int) else 1) hf
  have htried : info'.place.tried = info.place.tried := 
    congrArg (fun b : Bool => if b then (1 : Int) else 0) hf
  refine h.setEntry hl info' haddr hpos hslotted ?_ ?_ hpending hthis
  · rw [hnew,show (m.setInfo nId info').nNew = m.nNew from rfl]
    omega
  · rw [htried,show (m.setInfo nId info').nTried = m.nTried from rfl]
    omega

/-- The index plays no part in the rest of the invariant. -/
theorem Sound.setHashes (h : m.Sound H pending dNew dTried)
    (mapI2pHashes : AList fun _ : Uint256 => Nat) :
    Sound H { m with mapI2pHashes := mapI2pHashes } pending dNew dTried :=
  ⟨⟨h.named.addr,h.named.random,h.named.placed,h.named.fresh,h.named.size⟩,h.slotted,
    ⟨h.counted.new,h.counted.tried⟩,h.settled⟩

theorem checkAndDeleteB32Hash_eq (m : CAddrMan) (nId : Nat) (info : CAddrInfo) :
    m.checkAndDeleteB32Hash H nId info =
      { m with mapI2pHashes := (m.checkAndDeleteB32Hash H nId info).mapI2pHashes } := by
  unfold checkAndDeleteB32Hash
  split
  · dsimp only
    split <;> rfl
  · rfl

theorem indexHash_eq (m : CAddrMan) (addr : CNetAddr) (nId : Nat) : m.indexHash H addr nId =
    { m with mapI2pHashes := (m.indexHash H addr nId).mapI2pHashes } := by
  unfold indexHash
  dsimp only
  split <;> rfl

/-- What is left of the entries after a slot of the new table is emptied. -/
structure Cleared (m m' : CAddrMan) (s : NewSlot) : Prop where
  nKey : m'.nKey = m.nKey
  vvTried : m'.vvTried = m.vvTried
  vvNew : m'.vvNew = Function.update m.vvNew s none
  kept : ∀ j, m.vvNew s ≠ some j → (m'.mapInfo.lookup j).map CAddrInfo.strip =
    (m.mapInfo.lookup j).map CAddrInfo.strip

theorem Sound.clearNew (h : m.Sound H pending dNew dTried) (s : NewSlot) :
    ∃ m', m.clearNew H s = some m' ∧ m'.Sound H pending dNew dTried ∧ Cleared m m' s := by
  cases hs : m.vvNew s with
  | none =>
    refine ⟨m,by simp [CAddrMan.clearNew,hs],h,rfl,rfl,?_,fun _ _ => rfl⟩
    rw [← hs,Function.update_eq_self]
  | some nIdDelete =>
    obtain ⟨p,hp,hf,-⟩ := h.slotted.new s nIdDelete hs
    obtain ⟨info,hl,rfl⟩ := lookup_of_places hp
    have href := h.slotted.refs nIdDelete _ hp
    have hone := occurrences_pos hs
    have hpositive : 0 < info.nRefCount := by
      rw [show info.nRefCount = info.place.nRefCount from rfl]
      omega
    have hslotted := h.slotted.unslot hp hs
    obtain ⟨less,hless⟩ : ∃ x, x = { info with nRefCount := info.nRefCount-1 } := ⟨_,rfl⟩
    have hset : Sound H ((m.setInfo nIdDelete less).setNew s none) (nIdDelete :: pending)
        dNew dTried := by
      refine h.setSlots hl less ?_ ?_ ?_ ?_ (by simp +contextual) (by simp)
      · rw [hless]
      · rw [hless]
      · rw [hless]
      · rw [hless]
        exact hslotted
    have hlookup : ∀ j, j ≠ nIdDelete → ((m.setInfo nIdDelete less).setNew s none).mapInfo.lookup j =
        m.mapInfo.lookup j := by
      intro j hj
      exact (lookup_setInfo m nIdDelete less j).trans (if_neg hj)
    have hself : ((m.setInfo nIdDelete less).setNew s none).mapInfo.lookup nIdDelete = some less :=
      (lookup_setInfo m nIdDelete less nIdDelete).trans (if_pos rfl)
    have hrun : m.clearNew H s = if less.nRefCount = 0 then
        (((m.setInfo nIdDelete less).setNew s none).checkAndDeleteB32Hash H nIdDelete less).delete
          nIdDelete
        else some ((m.setInfo nIdDelete less).setNew s none) := by
      unfold CAddrMan.clearNew
      simp only [hs,hl,Option.bind_eq_bind,Option.bind_some]
      rw [guard,if_pos hpositive,hless]
      rfl
    generalize hm₁ : (m.setInfo nIdDelete less).setNew s none = m₁ at hset hlookup hself hrun
    have hkeep : m₁.nKey = m.nKey ∧ m₁.vvTried = m.vvTried ∧
        m₁.vvNew = Function.update m.vvNew s none := by
      subst hm₁
      exact ⟨rfl,rfl,rfl⟩
    obtain ⟨hkey,htried,hnew⟩ := hkeep
    by_cases hzero : less.nRefCount = 0
    · rw [if_pos hzero] at hrun
      have hset₂ := hset.setHashes (m₁.checkAndDeleteB32Hash H nIdDelete less).mapI2pHashes
      rw [checkAndDeleteB32Hash_eq] at hrun
      have hless₀ : less.fInTried = false := by rw [hless]; exact hf
      obtain ⟨m',hdelete,hsound,hk,hvt,hvn,hsame⟩ := hset₂.delete hself hless₀ hzero
      refine ⟨m',hrun.trans hdelete,hsound,hk.trans hkey,hvt.trans htried,hvn.trans hnew,?_⟩
      intro j hj
      have hid : j ≠ nIdDelete := fun he => hj (he ▸ hs)
      rw [hsame,if_neg hid,← hlookup j hid]
    · rw [if_neg hzero] at hrun
      refine ⟨m₁,hrun,⟨hset.named,hset.slotted,hset.counted,?_⟩,hkey,htried,hnew,?_⟩
      · intro j p hpj hj
        by_cases hid : j = nIdDelete
        · subst hid
          rw [places_of_lookup hself] at hpj
          rw [← Option.some.inj hpj]
          exact fun _ => hzero
        · exact hset.settled j p hpj (by simp [hid,hj])
      · intro j hj
        rw [hlookup j fun he => hj (he ▸ hs)]

end Entries

end CAddrMan

end Anoncoin
