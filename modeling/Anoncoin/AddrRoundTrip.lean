import Anoncoin.AddrReload

/-!
peers.dat, the round trip: entries are numbered anew, the slots of the new table are filled
again from the lists of ids, and nothing is lost.
-/

set_option autoImplicit false

namespace Anoncoin
open Lib

/-- The entries that `Unserialize` reads as they were written. That an I2P destination is marked
as one is part of every entry. -/
def CAddrInfo.Normal (info : CAddrInfo) : Prop :=
  info.nServices.toNat < 256 ∧ (info.isI2P = true → info.port = 0) ∧
    (info.isI2P = false → info.port ≠ 0)

instance (info : CAddrInfo) : Decidable info.Normal := inferInstanceAs (Decidable (_ ∧ _ ∧ _))

instance (info : CAddrInfo) : Decidable info.Timed := inferInstanceAs (Decidable (_ ∧ _ ∧ _))

namespace CAddrMan

section Numbering
variable {H : AddrHashes} {m : CAddrMan} {nId : Nat} {info : CAddrInfo}

/-- All entries in the order in which they are written. -/
def written (m : CAddrMan) : List (Nat × CAddrInfo) := m.newInfos ++ m.triedInfos

/-- The id that an entry has after it is read back. -/
def newId (m : CAddrMan) (nId : Nat) : Nat := (m.written.map Prod.fst).idxOf nId

theorem Check.mem_written (h : m.Check H) :
    (nId,info) ∈ m.written ↔ m.mapInfo.lookup nId = some info := by
  rw [written,List.mem_append,newInfos,triedInfos,List.mem_filter,List.mem_filter,mem_infosInOrder]
  constructor
  · rintro (⟨hl,-⟩ | ⟨hl,-⟩)
    · exact hl
    · exact hl
  · intro hl
    cases hf : info.fInTried with
    | true => exact .inr ⟨hl,rfl⟩
    | false =>
      refine .inl ⟨hl,?_⟩
      have hzero := h.zero nId info hl
      simp [hzero,hf]

theorem Check.written_nodup (h : m.Check H) : (m.written.map Prod.fst).Nodup := by
  have hnodup := infosInOrder_nodup m
  rw [written,List.map_append,List.nodup_append]
  refine ⟨hnodup.sublist (List.filter_sublist.map _),hnodup.sublist (List.filter_sublist.map _),?_⟩
  intro a ha b hb heq
  obtain ⟨⟨i,x⟩,hx,rfl⟩ := List.mem_map.mp ha
  obtain ⟨⟨j,y⟩,hy,rfl⟩ := List.mem_map.mp hb
  dsimp only at heq
  subst heq
  obtain ⟨hxl,href⟩ := List.mem_filter.mp hx
  obtain ⟨hyl,ht⟩ := List.mem_filter.mp hy
  have hxl := mem_infosInOrder.mp hxl
  have hyl := mem_infosInOrder.mp hyl
  rw [hxl] at hyl
  rw [← Option.some.inj hyl] at ht
  have hzero := (h.zero i x hxl).mpr ht
  simp [hzero] at href

/-- Every entry is found at its new id. -/
theorem Check.written_newId (h : m.Check H) (hl : m.mapInfo.lookup nId = some info) :
    m.written[m.newId nId]? = some (nId,info) := by
  have hmem := h.mem_written.mpr hl
  have hid : nId ∈ m.written.map Prod.fst := List.mem_map.mpr ⟨_,hmem,rfl⟩
  have hlt := List.idxOf_lt_length_of_mem hid
  rw [List.length_map] at hlt
  have hget : (m.written.map Prod.fst)[m.newId nId]? = some nId := List.getElem?_idxOf hid
  rw [List.getElem?_map] at hget
  obtain ⟨⟨j,y⟩,hy,rfl⟩ := Option.map_eq_some_iff.mp hget
  have hyl := h.mem_written.mp (List.mem_of_getElem? hy)
  rw [hl] at hyl
  rw [hy,Option.some.inj hyl]

theorem Check.newId_eq (h : m.Check H) {j nId : Nat} {info : CAddrInfo}
    (hwritten : m.written[j]? = some (nId,info)) :
    m.mapInfo.lookup nId = some info ∧ m.newId nId = j := by
  have hl := h.mem_written.mp (List.mem_of_getElem? hwritten)
  obtain ⟨hlt,-⟩ := List.getElem?_eq_some_iff.mp hwritten
  have hlt' : j < (m.written.map Prod.fst).length := by rwa [List.length_map]
  refine ⟨hl,((List.getElem?_inj hlt' h.written_nodup).mp ?_).symm⟩
  rw [List.getElem?_map,List.getElem?_map,hwritten,h.written_newId hl]

/-- New ids are distinct. -/
theorem Check.newId_inj (h : m.Check H) {i j : Nat} {x y : CAddrInfo}
    (hi : m.mapInfo.lookup i = some x) (hj : m.mapInfo.lookup j = some y)
    (heq : m.newId i = m.newId j) : i = j := by
  have hx := h.written_newId hi
  rw [heq,h.written_newId hj] at hx
  exact (Prod.mk.inj (Option.some.inj hx)).1.symm

/-- `mapUnkIds` gives the new entries their new ids. -/
theorem unkId_eq (l : List (Nat × CAddrInfo)) (nIds : Nat) (hnodup : (l.map Prod.fst).Nodup)
    (hmem : (nId,info) ∈ l) (href : info.nRefCount ≠ 0) :
    unkId nId l nIds = nIds+((l.filter fun e => e.2.nRefCount ≠ 0).map Prod.fst).idxOf nId := by
  induction l generalizing nIds with
  | nil => simp at hmem
  | cons e rest ih =>
    obtain ⟨j,y⟩ := e
    rw [List.map_cons,List.nodup_cons] at hnodup
    rw [unkId]
    by_cases hj : j = nId
    · subst hj
      have hy : y = info := by
        rcases List.mem_cons.mp hmem with he | hrest
        · exact (Prod.mk.inj he).2.symm
        · exact absurd (List.mem_map.mpr ⟨_,hrest,rfl⟩) hnodup.1
      subst hy
      rw [if_pos rfl,List.filter_cons_of_pos (by simpa using href),List.map_cons]
      simp
    · have hrest : (nId,info) ∈ rest := by
        rcases List.mem_cons.mp hmem with he | hrest
        · exact absurd (Prod.mk.inj he).1.symm hj
        · exact hrest
      rw [if_neg hj,ih _ hnodup.2 hrest]
      by_cases hy : y.nRefCount ≠ 0
      · rw [if_pos hy,List.filter_cons_of_pos (by simpa using hy),List.map_cons,
          List.idxOf_cons_ne _ hj]
        omega
      · rw [if_neg hy,List.filter_cons_of_neg (by simpa using hy)]

theorem unkId_newId (hl : m.mapInfo.lookup nId = some info)
    (href : info.nRefCount ≠ 0) :
    unkId nId m.infosInOrder 0 = m.newId nId ∧ m.newId nId < m.newInfos.length := by
  have hmem : nId ∈ m.newInfos.map Prod.fst :=
    List.mem_map.mpr ⟨(nId,info),List.mem_filter.mpr ⟨mem_infosInOrder.mpr hl,by simpa using href⟩,rfl⟩
  have hid : m.newId nId = (m.newInfos.map Prod.fst).idxOf nId := by
    rw [newId,written,List.map_append,List.idxOf_append_of_mem hmem]
  have hlt := List.idxOf_lt_length_of_mem hmem
  rw [List.length_map] at hlt
  refine ⟨?_,hid ▸ hlt⟩
  rw [hid,unkId_eq m.infosInOrder 0 (infosInOrder_nodup m) (mem_infosInOrder.mpr hl) href,Nat.zero_add]
  rfl

end Numbering

section Placing
variable {H : AddrHashes} {nDefaultPort : Uint16} {m₀ m : CAddrMan} {S : Set NewSlot} {s : NewSlot}
  {nId : Nat}

/-- The manager when these slots of the new table have been filled again. -/
structure Placing (H : AddrHashes) (nDefaultPort : Uint16) (m₀ : CAddrMan) (S : Set NewSlot)
    (m : CAddrMan) : Prop where
  sound : Sound H m (List.range m₀.written.length) 0 0
  lookup : ∀ j, (m.mapInfo.lookup j).map (fun info => { info with nRefCount := 0 }) =
    m₀.written[j]?.map fun e => reloaded nDefaultPort e.2 j
  nKey : m.nKey = m₀.nKey
  nNew : m.nNew = m₀.nNew
  filled : ∀ s ∈ S, m.vvNew s = (m₀.vvNew s).map m₀.newId
  empty : ∀ s, s ∉ S → m.vvNew s = none
  index : DistinctHashes H (m₀.written.map Prod.snd) → m.HashesExact H

theorem occurrences_lt {σ : Type} [Fintype σ] {t t₀ : σ → Option Nat} {i j : Nat} {s : σ}
    (hsub : ∀ u, t u = some i → t₀ u = some j) (hs : t₀ s = some j) (hfree : t s = none) :
    occurrences t i < occurrences t₀ j := by
  refine Finset.card_lt_card ⟨?_,?_⟩
  · intro u hu
    simp only [Finset.mem_filter,Finset.mem_univ,true_and] at hu ⊢
    exact hsub u hu
  · intro hback
    have hin : s ∈ Finset.univ.filter fun u => t u = some i := hback (by simpa using hs)
    simp [hfree] at hin

/-- A loaded entry, and the one that was written. -/
theorem Placing.entry (h : Placing H nDefaultPort m₀ S m) {j : Nat} {info : CAddrInfo}
    (hl : m.mapInfo.lookup j = some info) : ∃ nId info₀, m₀.written[j]? = some (nId,info₀) ∧
      ({ info with nRefCount := 0 } : CAddrInfo) = reloaded nDefaultPort info₀ j := by
  have hlookup := h.lookup j
  rw [hl,Option.map_some] at hlookup
  obtain ⟨⟨nId,info₀⟩,hwritten,hcore⟩ := Option.map_eq_some_iff.mp hlookup.symm
  exact ⟨nId,info₀,hwritten,hcore.symm⟩

/-- A slot that was empty stays so. -/
theorem Placing.skip (h : Placing H nDefaultPort m₀ S m) (hs : m₀.vvNew s = none) (hfree : s ∉ S) :
    Placing H nDefaultPort m₀ (insert s S) m := by
  refine ⟨h.sound,h.lookup,h.nKey,h.nNew,?_,fun t ht => h.empty t fun hin => ht (.inr hin),h.index⟩
  rintro t (rfl | ht)
  · rw [h.empty t hfree,hs]
    rfl
  · exact h.filled t ht

/-- The entry that an id of a bucket stands for, and when it is put into its slot. -/
theorem placeNew_eq {info₀ : CAddrInfo} (hcheck : m₀.Check H)
    (hlookup : ∀ j, (m.mapInfo.lookup j).map (fun info => { info with nRefCount := 0 }) =
      m₀.written[j]?.map fun e => reloaded nDefaultPort e.2 j)
    (hnNew : m.nNew = m₀.nNew) (hl₀ : m₀.mapInfo.lookup nId = some info₀)
    (hf₀ : info₀.fInTried = false) (bucket : Fin ADDRMAN_NEW_BUCKET_COUNT) :
    ∃ info, m.mapInfo.lookup (m₀.newId nId) = some info ∧
      ({ info with nRefCount := 0 } : CAddrInfo) = reloaded nDefaultPort info₀ (m₀.newId nId) ∧
      m.placeNew H m₀.fileOf bucket (unkId nId m₀.infosInOrder 0) =
        if m.vvNew (bucket,H.getBucketPosition m.nKey info.toCService true bucket) = none ∧
            info.nRefCount < ADDRMAN_NEW_BUCKETS_PER_ADDRESS then
          (m.setInfo (m₀.newId nId) { info with nRefCount := info.nRefCount+1 }).setNew
            (bucket,H.getBucketPosition m.nKey info.toCService true bucket) (some (m₀.newId nId))
        else m := by
  have href₀ : info₀.nRefCount ≠ 0 := by
    intro hzero
    rw [(hcheck.zero nId info₀ hl₀).mp hzero] at hf₀
    contradiction
  obtain ⟨hunk,hlt⟩ := unkId_newId hl₀ href₀
  have hnewId := hlookup (m₀.newId nId)
  rw [hcheck.written_newId hl₀,Option.map_some] at hnewId
  obtain ⟨info,hl,hcore⟩ := Option.map_eq_some_iff.mp hnewId
  have hnew := hcheck.length_newInfos
  refine ⟨info,hl,hcore,?_⟩
  rw [CAddrMan.placeNew,hunk,hnNew,if_pos (by omega),Int.toNat_natCast,hl]
  dsimp only
  rw [dif_pos bucket.isLt]
  refine if_congr ?_ rfl rfl
  constructor
  · exact fun h => h.2.2
  · exact fun h => ⟨rfl,rfl,h⟩

/-- The entry of a slot finds its place in it again. -/
theorem Placing.placeNew (h : Placing H nDefaultPort m₀ S m) (hcheck : m₀.Check H)
    (hports : ∀ nId info, m₀.mapInfo.lookup nId = some info → PortKept nDefaultPort info)
    (hs : m₀.vvNew s = some nId) (hfree : s ∉ S) :
    Placing H nDefaultPort m₀ (insert s S)
      (m.placeNew H m₀.fileOf s.1 (unkId nId m₀.infosInOrder 0)) := by
  obtain ⟨info₀,hl₀,hf₀,hpos₀⟩ := hcheck.new s nId hs
  obtain ⟨info,hl,hcore,hplaced⟩ := placeNew_eq hcheck h.lookup h.nNew hl₀ hf₀ s.1
  have hservice : info.toCService = (reloaded nDefaultPort info₀ (m₀.newId nId)).toCService := by
    rw [← hcore]
  have hf : info.fInTried = false := by
    rw [← hf₀,← reloaded_fInTried info₀ (m₀.newId nId),← hcore]
  have hpos : H.getBucketPosition m.nKey info.toCService true s.1 = s.2 := by
    rw [← hpos₀,h.nKey,hservice]
    simp only [AddrHashes.getBucketPosition,reloaded_getKey (hports nId info₀ hl₀)]
  have hroom : info.nRefCount < ADDRMAN_NEW_BUCKETS_PER_ADDRESS := by
    have hrefs := h.sound.slotted.refs _ _ (places_of_lookup hl)
    have hmost := hcheck.most nId info₀ hl₀
    have hrefs₀ := hcheck.refs nId info₀ hl₀
    have hless : occurrences m.vvNew (m₀.newId nId) < occurrences m₀.vvNew nId := by
      refine occurrences_lt ?_ hs (h.empty s hfree)
      intro t ht
      by_cases hin : t ∈ S
      · rw [h.filled t hin] at ht
        obtain ⟨j,hj,hid⟩ := Option.map_eq_some_iff.mp ht
        obtain ⟨y,hy,-⟩ := hcheck.new t j hj
        rw [hj,hcheck.newId_inj hy hl₀ hid]
      · rw [h.empty t hin] at ht
        exact absurd ht (Option.some_ne_none _).symm
    rw [show info.nRefCount = info.place.nRefCount from rfl,hrefs]
    omega
  have hrun : m.placeNew H m₀.fileOf s.1 (unkId nId m₀.infosInOrder 0) =
      (m.setInfo (m₀.newId nId) { info with nRefCount := info.nRefCount+1 }).setNew s
        (some (m₀.newId nId)) := by
    rw [hplaced,hpos,if_pos ⟨h.empty s hfree,hroom⟩]
  rw [hrun]
  refine ⟨?_,?_,h.nKey,h.nNew,?_,?_,fun hdistinct => ((h.index hdistinct).setInfo hl
    { info with nRefCount := info.nRefCount+1 } rfl).congr rfl fun _ => rfl⟩
  · exact (h.sound.mono _).addSlot hl hf hroom (h.empty s hfree) hpos
  · intro j
    rw [← h.lookup j,show ∀ n, ((m.setInfo (m₀.newId nId) { info with nRefCount := n }).setNew s
      (some (m₀.newId nId))).mapInfo.lookup j = (m.setInfo (m₀.newId nId) { info with
        nRefCount := n }).mapInfo.lookup j from fun _ => rfl,lookup_setInfo]
    by_cases hj : j = m₀.newId nId
    · rw [if_pos hj,hj,hl]
      rfl
    · rw [if_neg hj]
  · rintro t (rfl | ht)
    · rw [hs]
      exact Function.update_self _ _ _
    · have hne : t ≠ s := fun he => hfree (he ▸ ht)
      exact (Function.update_of_ne hne _ _).trans (h.filled t ht)
  · intro t ht
    have hne : t ≠ s := fun he => ht (.inl he)
    exact (Function.update_of_ne hne _ _).trans (h.empty t fun hin => ht (.inr hin))

/-- The positions of a bucket one after the other. -/
theorem Placing.placeBucket (hcheck : m₀.Check H)
    (hports : ∀ nId info, m₀.mapInfo.lookup nId = some info → PortKept nDefaultPort info)
    (bucket : Fin ADDRMAN_NEW_BUCKET_COUNT) (l : List (Fin ADDRMAN_BUCKET_SIZE)) (hnodup : l.Nodup)
    (hfree : ∀ i ∈ l, (bucket,i) ∉ S) (h : Placing H nDefaultPort m₀ S m) :
    Placing H nDefaultPort m₀ (S ∪ { s | s.1 = bucket ∧ s.2 ∈ l })
      (m.placeBucket H m₀.fileOf ((l.filterMap fun i => m₀.vvNew (bucket,i)).map fun nId =>
        (unkId nId m₀.infosInOrder 0 : Int)) bucket) := by
  induction l generalizing S m with
  | nil =>
    have hsame : S ∪ { s : NewSlot | s.1 = bucket ∧ s.2 ∈ ([] : List (Fin ADDRMAN_BUCKET_SIZE)) } = S := by
      ext t
      simp
    rw [hsame]
    exact h
  | cons i rest ih =>
    rw [List.nodup_cons] at hnodup
    have hset : insert (bucket,i) S ∪ { s : NewSlot | s.1 = bucket ∧ s.2 ∈ rest } =
        S ∪ { s : NewSlot | s.1 = bucket ∧ s.2 ∈ i :: rest } := by
      ext ⟨b,j⟩
      simp only [Set.mem_union,Set.mem_insert_iff,Set.mem_ofPred_eq,Prod.mk.injEq,List.mem_cons]
      tauto
    have hrest : ∀ j ∈ rest, (bucket,j) ∉ insert (bucket,i) S := by
      rintro j hj (he | hin)
      · exact hnodup.1 ((Prod.mk.inj he).2 ▸ hj)
      · exact hfree j (by simp [hj]) hin
    rw [← hset]
    cases hs : m₀.vvNew (bucket,i) with
    | none =>
      simp only [List.filterMap_cons,hs]
      exact ih hnodup.2 hrest (h.skip hs (hfree i (by simp)))
    | some nId =>
      simp only [List.filterMap_cons,hs]
      exact ih hnodup.2 hrest (h.placeNew hcheck hports hs (hfree i (by simp)))

theorem fileOf_buckets (m : CAddrMan) : m.fileOf.buckets =
    (List.finRange ADDRMAN_NEW_BUCKET_COUNT).map fun bucket =>
      (m.bucketIds bucket).map fun nId => (unkId nId m.infosInOrder 0 : Int) := by
  rw [fileOf]

theorem take_succ_finRange {α : Type} {k n : Nat} (g : Fin k → α) (hn : n < k) :
    ((List.finRange k).map g).take (n+1) = ((List.finRange k).map g).take n ++ [g ⟨n,hn⟩] := by
  have hlen : n < ((List.finRange k).map g).length := by
    rw [List.length_map,List.length_finRange]
    exact hn
  rw [List.take_succ_eq_append_getElem hlen,List.getElem_map,List.getElem_finRange]
  rfl

/-- One more bucket. -/
theorem placeBuckets_succ (m₀ m : CAddrMan) {n : Nat} (hlt : n < ADDRMAN_NEW_BUCKET_COUNT) :
    (m₀.fileOf.buckets.take (n+1)).zipIdx.foldl (fun m e => m.placeBucket H m₀.fileOf e.1 e.2) m =
      ((m₀.fileOf.buckets.take n).zipIdx.foldl (fun m e => m.placeBucket H m₀.fileOf e.1 e.2)
        m).placeBucket H m₀.fileOf ((m₀.bucketIds ⟨n,hlt⟩).map fun nId =>
          (unkId nId m₀.infosInOrder 0 : Int)) n := by
  have hnext : m₀.fileOf.buckets.take (n+1) = m₀.fileOf.buckets.take n ++
      [(m₀.bucketIds ⟨n,hlt⟩).map fun nId => (unkId nId m₀.infosInOrder 0 : Int)] := by
    rw [fileOf_buckets]
    exact take_succ_finRange (fun bucket => (m₀.bucketIds bucket).map fun nId =>
      (unkId nId m₀.infosInOrder 0 : Int)) hlt
  have hlen : (m₀.fileOf.buckets.take n).length = n := by
    rw [List.length_take,fileOf_buckets,List.length_map,List.length_finRange]
    omega
  rw [hnext,List.zipIdx_append,List.foldl_append,hlen,Nat.zero_add,List.zipIdx_cons,
    List.zipIdx_nil,List.foldl_cons,List.foldl_nil]

/-- The buckets one after the other. -/
theorem Placing.placeBuckets (h : Placing H nDefaultPort m₀ ∅ m) (hcheck : m₀.Check H)
    (hports : ∀ nId info, m₀.mapInfo.lookup nId = some info → PortKept nDefaultPort info)
    (n : Nat) (hn : n ≤ ADDRMAN_NEW_BUCKET_COUNT) :
    Placing H nDefaultPort m₀ { s | s.1.val < n }
      ((m₀.fileOf.buckets.take n).zipIdx.foldl
        (fun m e => m.placeBucket H m₀.fileOf e.1 e.2) m) := by
  induction n with
  | zero =>
    have hsame : { s : NewSlot | s.1.val < 0 } = ∅ := by
      ext t
      simp
    rw [hsame]
    exact h
  | succ n ih =>
    have hbefore := ih (by omega)
    have hlt : n < ADDRMAN_NEW_BUCKET_COUNT := by omega
    have hset : { s : NewSlot | s.1.val < n+1 } = { s : NewSlot | s.1.val < n } ∪
        { s : NewSlot | s.1 = ⟨n,hlt⟩ ∧ s.2 ∈ List.finRange ADDRMAN_BUCKET_SIZE } := by
      ext ⟨b,j⟩
      simp only [Set.mem_union,Set.mem_ofPred_eq,List.mem_finRange,and_true,Fin.ext_iff]
      omega
    rw [placeBuckets_succ m₀ m hlt,hset]
    exact Placing.placeBucket hcheck hports ⟨n,hlt⟩ (List.finRange ADDRMAN_BUCKET_SIZE)
      (List.nodup_finRange _) (by simp) hbefore

end Placing

section Load
variable {H : AddrHashes} {nDefaultPort : Uint16} {f : PeersFile} {done : List CAddrInfo}
  {m₀ m : CAddrMan}

theorem Loading.start (H : AddrHashes) (nDefaultPort : Uint16) (f : PeersFile) :
    Loading H nDefaultPort f [] { empty f.nKey with nNew := f.nNew, nTried := f.nTried } := by
  have hnone : ∀ j, (empty f.nKey).mapInfo.lookup j = none := fun j => AList.lookup_empty j
  have hsound := empty_sound H f.nKey
  have hnew : f.nNew+((0 : Nat)-f.nNew) = (empty f.nKey).total Place.new := by
    rw [← hsound.counted.new]
    show f.nNew+(0-f.nNew) = 0+0
    omega
  have htried : f.nTried+((0 : Nat)-f.nTried) = (empty f.nKey).total Place.tried := by
    rw [← hsound.counted.tried]
    show f.nTried+(0-f.nTried) = 0+0
    omega
  refine ⟨⟨?_,hsound.slotted,⟨hnew,htried⟩,hsound.settled⟩,hnone,rfl,rfl,rfl,rfl,fun _ => rfl,
    fun _ b32hash j => ?_⟩
  · exact ⟨hsound.named.addr,hsound.named.random,hsound.named.placed,hsound.named.fresh,
      hsound.named.size⟩
  · show (empty f.nKey).mapI2pHashes.lookup b32hash = some j ↔
      ∃ info, (empty f.nKey).mapInfo.lookup j = some info ∧ _
    rw [show (empty f.nKey).mapI2pHashes.lookup b32hash = none from AList.lookup_empty b32hash,hnone j]
    simp

/-- The next id is set anew between the new and the tried entries. -/
theorem Loading.setCount (h : Loading H nDefaultPort f done m) (n : Nat) :
    Loading H nDefaultPort f done { m with nIdCount := n } :=
  ⟨h.sound,h.lookup,h.random,h.nKey,h.nNew,h.nTried,h.vvNew,fun hdistinct =>
    (h.index hdistinct).congr rfl fun _ => rfl⟩

theorem Check.new_of_newInfos (h : m.Check H) : ∀ x ∈ m.newInfos.map Prod.snd, x.fInTried = false := by
  intro x hx
  obtain ⟨⟨nId,y⟩,hmem,rfl⟩ := List.mem_map.mp hx
  obtain ⟨hin,href⟩ := List.mem_filter.mp hmem
  have hzero := h.zero nId y (mem_infosInOrder.mp hin)
  cases hf : y.fInTried with
  | false => rfl
  | true =>
    rw [hzero.mpr hf] at href
    contradiction

theorem tried_of_triedInfos (m : CAddrMan) : ∀ x ∈ m.triedInfos.map Prod.snd, x.fInTried = true := by
  intro x hx
  obtain ⟨⟨nId,y⟩,hmem,rfl⟩ := List.mem_map.mp hx
  exact (List.mem_filter.mp hmem).2

/-- The addresses of the entries are distinct. -/
theorem Check.addrs_nodup (h : m.Check H) :
    ((m.newInfos.map Prod.snd ++ m.triedInfos.map Prod.snd).map fun x => x.toCNetAddr).Nodup := by
  rw [← List.map_append,List.map_map]
  refine List.Nodup.map_on ?_ h.written_nodup.of_map
  rintro ⟨i,x⟩ hx ⟨j,y⟩ hy heq
  have hxl := h.mem_written.mp hx
  have hyl := h.mem_written.mp hy
  have haddr : x.toCNetAddr = y.toCNetAddr := heq
  have hi := h.addr i x hxl
  rw [haddr,h.addr j y hyl] at hi
  obtain rfl := Option.some.inj hi
  rw [hxl] at hyl
  rw [Option.some.inj hyl]

/-- The tried entries have distinct slots. -/
theorem Check.triedSlots_nodup (h : m.Check H) :
    ((m.triedInfos.map Prod.snd).map fun x => H.triedSlot m.nKey x.toCService).Nodup := by
  rw [List.map_map]
  have hnodup : m.triedInfos.Nodup :=
    ((infosInOrder_nodup m).sublist (List.filter_sublist.map Prod.fst)).of_map
  refine List.Nodup.map_on ?_ hnodup
  rintro ⟨i,x⟩ hx ⟨j,y⟩ hy heq
  obtain ⟨hxin,hxt⟩ := List.mem_filter.mp hx
  obtain ⟨hyin,hyt⟩ := List.mem_filter.mp hy
  have hxl := mem_infosInOrder.mp hxin
  have hyl := mem_infosInOrder.mp hyin
  have hslot : H.triedSlot m.nKey x.toCService = H.triedSlot m.nKey y.toCService := heq
  have hi := (h.tried _ i).mpr ⟨x,hxl,hxt,hslot⟩
  rw [(h.tried _ j).mpr ⟨y,hyl,hyt,rfl⟩] at hi
  obtain rfl := Option.some.inj hi
  rw [hxl] at hyl
  rw [Option.some.inj hyl]

/-- When all entries have been read, the counters are right. -/
theorem Check.counts (h : m.Check H) :
    ((m.written.map Prod.snd).countP (fun x => !x.fInTried) : Int) = m.nNew ∧
      ((m.written.map Prod.snd).countP (fun x => x.fInTried) : Int) = m.nTried := by
  have hnew := h.new_of_newInfos
  have htried := tried_of_triedInfos m
  have hlenNew := h.length_newInfos
  have hlenTried := h.length_triedInfos
  rw [written,List.map_append,List.countP_append,List.countP_append]
  have hnewNew : (m.newInfos.map Prod.snd).countP (fun x => !x.fInTried) = m.newInfos.length := by
    rw [List.countP_eq_length.mpr (fun x hx => by rw [hnew x hx]; rfl),List.length_map]
  have htriedNew : (m.triedInfos.map Prod.snd).countP (fun x => !x.fInTried) = 0 :=
    List.countP_eq_zero.mpr fun x hx => by simp [htried x hx]
  have hnewTried : (m.newInfos.map Prod.snd).countP (fun x => x.fInTried) = 0 :=
    List.countP_eq_zero.mpr fun x hx => by simp [hnew x hx]
  have htriedTried : (m.triedInfos.map Prod.snd).countP (fun x => x.fInTried) =
      m.triedInfos.length := by
    rw [List.countP_eq_length.mpr htried,List.length_map]
  omega

/-- When all entries have been read, the slots are filled. -/
theorem Loading.placing (h : Loading H nDefaultPort m₀.fileOf (m₀.written.map Prod.snd) m)
    (hcheck : m₀.Check H) (hcount : m.nIdCount = (m₀.written.map Prod.snd).length) :
    Placing H nDefaultPort m₀ ∅ m := by
  obtain ⟨hnew,htried⟩ := hcheck.counts
  have hsound := h.sound
  have hghost : ({ m with nIdCount := (m₀.written.map Prod.snd).length } : CAddrMan) = m := by
    rw [← hcount]
  rw [hghost,hnew,htried,List.length_map] at hsound
  refine ⟨hsound.offsets (Int.sub_self _) (Int.sub_self _),fun j => ?_,h.nKey,h.nNew,by simp,
    fun s _ => h.vvNew s,h.index⟩
  rw [h.lookup j,List.getElem?_map,Option.map_map,Option.map_map]
  congr 1
  funext e
  show ({ reloaded nDefaultPort e.2 j with nRefCount := 0 } : CAddrInfo) = reloaded nDefaultPort e.2 j
  unfold reloaded
  split <;> rfl

/-- When the slots are filled, every new entry has one. -/
theorem Placing.settled (h : Placing H nDefaultPort m₀ Set.univ m) (hcheck : m₀.Check H) :
    m.Sound H [] 0 0 := by
  refine ⟨h.sound.named,h.sound.slotted,h.sound.counted,fun j p hp _ hf => ?_⟩
  obtain ⟨info,hl,rfl⟩ := lookup_of_places hp
  obtain ⟨nId,info₀,hwritten,hcore⟩ := h.entry hl
  obtain ⟨hl₀,hj⟩ := hcheck.newId_eq hwritten
  have hf₀ : info₀.fInTried = false := by
    rw [← reloaded_fInTried info₀ j,← hcore]
    exact hf
  have href₀ : info₀.nRefCount ≠ 0 := by
    intro hzero
    rw [(hcheck.zero nId info₀ hl₀).mp hzero] at hf₀
    contradiction
  obtain ⟨s,hs⟩ := hcheck.slot_of_new hl₀ href₀
  have hfilled := h.filled s (Set.mem_univ s)
  rw [hs,Option.map_some,hj] at hfilled
  have hrefs := h.sound.slotted.refs j _ hp
  have hpos := occurrences_pos hfilled
  omega

/-- Nothing is pruned when every new entry has a slot. -/
theorem prune_eq (m : CAddrMan) (l : List (Nat × CAddrInfo))
    (h : ∀ e ∈ l, ¬(e.2.fInTried = false ∧ e.2.nRefCount = 0)) : m.prune l = some m := by
  induction l with
  | nil => rfl
  | cons e rest ih =>
    obtain ⟨nId,info⟩ := e
    rw [prune,if_neg (h (nId,info) (by simp))]
    exact ih fun e he => h e (by simp [he])

theorem Sound.prune (h : m.Sound H [] 0 0) : m.prune m.infosInOrder = some m := by
  refine prune_eq m _ ?_
  rintro ⟨nId,info⟩ hmem ⟨hf,href⟩
  exact h.settled nId info.place (places_of_lookup (mem_infosInOrder.mp hmem)) (by simp) hf href

/-- All entries are read; then come the slots of the new table. -/
theorem Check.load_eq (hcheck : m₀.Check H) (nDefaultPort : Uint16) :
    ∃ m, Placing H nDefaultPort m₀ ∅ m ∧ ∀ m', m₀.fileOf.buckets.zipIdx.foldl
      (fun m e => m.placeBucket H m₀.fileOf e.1 e.2) m = m' →
        load H nDefaultPort m₀.fileOf = m'.prune m'.infosInOrder := by
  have haddrs := hcheck.addrs_nodup
  have hnewInfos := (Loading.start H nDefaultPort m₀.fileOf).foldNew rfl rfl
    (m₀.newInfos.map Prod.snd) hcheck.new_of_newInfos
    (List.Nodup.sublist (List.Sublist.map _ (List.sublist_append_left _ _)) haddrs)
  have hcounted := hnewInfos.setCount m₀.nNew.toNat
  have hlen := hcheck.length_newInfos
  obtain ⟨m₁,hrun₁,h₁,hcount₁⟩ := hcounted.foldTried (by simp; omega) (m₀.triedInfos.map Prod.snd)
    (tried_of_triedInfos m₀) (by simpa using haddrs) (by rw [hcounted.nKey]; exact hcheck.triedSlots_nodup)
    (fun x _ => hcounted.triedFree (by simpa using hcheck.new_of_newInfos) _)
  rw [List.nil_append,← List.map_append] at h₁ hcount₁
  refine ⟨m₁,Loading.placing h₁ hcheck hcount₁,fun m' hm' => ?_⟩
  have hnew : m₀.fileOf.new = (m₀.newInfos.map Prod.snd).map CAddrInfo.record := by
    rw [List.map_map]
    rfl
  have htried : m₀.fileOf.tried = (m₀.triedInfos.map Prod.snd).map CAddrInfo.record := by
    rw [List.map_map]
    rfl
  have hsame : ({ m₁ with nTried := m₁.nTried-((0 : Nat) : Int) } : CAddrMan) = m₁ := by
    rw [Nat.cast_zero,Int.sub_zero]
  unfold CAddrMan.load
  rw [hnew,htried]
  refine (congrArg (fun r => r >>= _) hrun₁).trans ?_
  rw [Option.bind_eq_bind,Option.bind_some]
  dsimp only
  rw [hsame,hm']

theorem fileOf_buckets_all (m : CAddrMan) :
    m.fileOf.buckets.take ADDRMAN_NEW_BUCKET_COUNT = m.fileOf.buckets := by
  refine List.take_of_length_le ?_
  rw [fileOf_buckets,List.length_map,List.length_finRange]

/-- What `Serialize` wrote is loaded without a failed assertion and without a loss. -/
theorem Check.load (hcheck : m₀.Check H)
    (hports : ∀ nId info, m₀.mapInfo.lookup nId = some info → PortKept nDefaultPort info) :
    ∃ m, load H nDefaultPort m₀.fileOf = some m ∧ m.Sound H [] 0 0 ∧
      Placing H nDefaultPort m₀ Set.univ m := by
  obtain ⟨m₁,hstart,hload⟩ := hcheck.load_eq nDefaultPort
  have hplaced := hstart.placeBuckets hcheck hports ADDRMAN_NEW_BUCKET_COUNT (le_refl _)
  have hall : { s : NewSlot | s.1.val < ADDRMAN_NEW_BUCKET_COUNT } = Set.univ :=
    Set.eq_univ_of_forall fun s => s.1.isLt
  rw [hall,fileOf_buckets_all] at hplaced
  have hsettled := hplaced.settled hcheck
  exact ⟨_,(hload _ rfl).trans hsettled.prune,hsettled,hplaced⟩

end Load

/-- The second manager is the first one with other ids. -/
structure Renamed (m m' : CAddrMan) (rename : Nat → Nat) : Prop where
  nKey : m'.nKey = m.nKey
  inj : ∀ i j x y, m.mapInfo.lookup i = some x → m.mapInfo.lookup j = some y →
    rename i = rename j → i = j
  kept : ∀ nId info, m.mapInfo.lookup nId = some info → ∃ info',
    m'.mapInfo.lookup (rename nId) = some info' ∧ info'.record = info.record ∧
      info'.fInTried = info.fInTried
  onto : ∀ nId' info', m'.mapInfo.lookup nId' = some info' →
    ∃ nId info, m.mapInfo.lookup nId = some info ∧ rename nId = nId'
  vvNew : ∀ s, m'.vvNew s = (m.vvNew s).map rename
  vvTried : ∀ s, m'.vvTried s = (m.vvTried s).map rename

section RoundTrip
variable {H : AddrHashes} {nDefaultPort : Uint16} {m m' : CAddrMan} {x : CAddrInfo}

theorem portOf_normal (h : x.Normal) : portOf nDefaultPort x.toCAddress = x.port := by
  unfold portOf
  cases hi : x.isI2P with
  | true => rw [if_pos rfl,h.2.1 hi]
  | false => rw [if_neg (by decide),if_neg (h.2.2 hi)]

theorem readAddress_normal (h : x.Normal) : readAddress x.record = x.toCAddress := by
  have hbits : x.nServices &&& 0xFF = x.nServices := by
    apply BitVec.eq_of_toNat_eq
    rw [BitVec.toNat_and,show (0xFF : Uint64).toNat = 2^8-1 from rfl,Nat.and_two_pow_sub_one_eq_mod,
      Nat.mod_eq_of_lt h.1]
  show ({ x.toCAddress with nServices := x.nServices &&& 0xFF } : CAddress) = x.toCAddress
  rw [hbits]

theorem reloaded_record (h : x.Normal) (n : Nat) : (reloaded nDefaultPort x n).record = x.record := by
  unfold reloaded
  split
  · show (⟨readAddress x.record,x.source,x.nLastSuccess,x.nAttempts⟩ : AddrRecord) = x.record
    rw [readAddress_normal h]
    rfl
  · show (⟨newAddress nDefaultPort x.record,x.source,x.nLastSuccess,x.nAttempts⟩ : AddrRecord) = x.record
    have hsame := readAddress_normal h
    rw [newAddress_eq,portOf_normal h]
    rw [show ({ x.toCAddress with nServices := x.nServices &&& 0xFF, port := x.port } : CAddress) =
      readAddress x.record from rfl,hsame]
    rfl

theorem Placing.renamed (h : Placing H nDefaultPort m Set.univ m') (hcheck : m.Check H)
    (hcheck' : m'.Check H)
    (hnormal : ∀ nId info, m.mapInfo.lookup nId = some info → info.Normal) :
    Renamed m m' m.newId := by
  have hkept : ∀ nId info, m.mapInfo.lookup nId = some info → ∃ info',
      m'.mapInfo.lookup (m.newId nId) = some info' ∧ info'.record = info.record ∧
        info'.fInTried = info.fInTried := by
    intro nId info hl
    have hlookup := h.lookup (m.newId nId)
    rw [hcheck.written_newId hl,Option.map_some] at hlookup
    obtain ⟨info',hl',hcore⟩ := Option.map_eq_some_iff.mp hlookup
    refine ⟨info',hl',?_,?_⟩
    · rw [← reloaded_record (hnormal nId info hl) (m.newId nId),← hcore]
      rfl
    · rw [← reloaded_fInTried info (m.newId nId),← hcore]
  have honto : ∀ nId' info', m'.mapInfo.lookup nId' = some info' →
      ∃ nId info, m.mapInfo.lookup nId = some info ∧ m.newId nId = nId' := by
    intro nId' info' hl'
    obtain ⟨nId,info,hwritten,-⟩ := h.entry hl'
    exact ⟨nId,info,hcheck.newId_eq hwritten⟩
  have hslot : ∀ {info info' : CAddrInfo}, info'.record = info.record →
      H.triedSlot m'.nKey info'.toCService = H.triedSlot m.nKey info.toCService := by
    intro info info' hrecord
    have haddr : info'.toCAddress = info.toCAddress := congrArg AddrRecord.addr hrecord
    rw [h.nKey,haddr]
  refine ⟨h.nKey,fun i j x y hi hj heq => hcheck.newId_inj hi hj heq,hkept,honto,
    fun s => h.filled s (Set.mem_univ s),fun s => ?_⟩
  ext j
  rw [hcheck'.tried s j,Option.map_eq_some_iff]
  constructor
  · rintro ⟨info',hl',hf',hs⟩
    obtain ⟨nId,info,hl,rfl⟩ := honto j info' hl'
    obtain ⟨y,hy,hrecord,hf⟩ := hkept nId info hl
    rw [hl'] at hy
    obtain rfl := Option.some.inj hy
    exact ⟨nId,(hcheck.tried s nId).mpr ⟨info,hl,hf ▸ hf',hslot hrecord ▸ hs⟩,rfl⟩
  · rintro ⟨nId,hs,rfl⟩
    obtain ⟨info,hl,hf,hs⟩ := (hcheck.tried s nId).mp hs
    obtain ⟨info',hl',hrecord,hf'⟩ := hkept nId info hl
    exact ⟨info',hl',hf'.trans hf,(hslot hrecord).trans hs⟩

/-- The times that `Check_` looks at. The last try is not written. -/
theorem Placing.timed (h : Placing H nDefaultPort m Set.univ m') (hcheck : m.Check H)
    (htimed : ∀ nId info, m.mapInfo.lookup nId = some info → info.Timed) :
    ∀ nId info, m'.mapInfo.lookup nId = some info → info.Timed := by
  intro j info' hl'
  obtain ⟨nId,info,hwritten,hcore⟩ := h.entry hl'
  obtain ⟨-,hlast,htried⟩ := htimed nId info (hcheck.newId_eq hwritten).1
  have hsource : (reloaded nDefaultPort info j).source = info.source ∧ _ := reloaded_source info j
  obtain ⟨-,hsuccess,-,htry⟩ := hsource
  have hf : (reloaded nDefaultPort info j).fInTried = info.fInTried := reloaded_fInTried info j
  rw [← hcore] at hsuccess htry hf
  have hsuccess' : info'.nLastSuccess = info.nLastSuccess := hsuccess
  have htry' : info'.nLastTry = 0 := htry
  have hf' : info'.fInTried = info.fInTried := hf
  unfold CAddrInfo.Timed
  rw [hsuccess',htry',hf']
  exact ⟨by decide,hlast,htried⟩

theorem reads_unserialize_of_load {bytes : List UInt8} {f : PeersFile}
    (hread : Reads readPeers bytes f) (hload : load H nDefaultPort f = some m) :
    Reads (unserialize H nDefaultPort) bytes m := by
  refine hread.map ?_
  rw [hload]
  exact Reads.pure m

/-- `Unserialize` of what `Serialize` wrote is the same manager up to the ids, for every manager
that satisfies `Check_` and whose entries are in normal form. -/
theorem unserialize_serialize (H : AddrHashes) (nDefaultPort : Uint16) (nVersion : Uint32)
    (m : CAddrMan) (hcheck : m.Check H)
    (htimed : ∀ nId info, m.mapInfo.lookup nId = some info → info.Timed)
    (hnormal : ∀ nId info, m.mapInfo.lookup nId = some info → info.Normal) :
    ∃ bytes m', m.serialize nVersion = some bytes ∧ Reads (unserialize H nDefaultPort) bytes m' ∧
      (∃ rename, Renamed m m' rename) ∧ m'.Check H ∧ m'.Inverse ∧
      ∀ nId info, m'.mapInfo.lookup nId = some info → info.Timed := by
  have hports : ∀ nId info, m.mapInfo.lookup nId = some info → PortKept nDefaultPort info :=
    fun nId info hl _ => .inr (portOf_normal (hnormal nId info hl))
  obtain ⟨bytes,hwrite,hread⟩ := hcheck.reads_serialize nVersion
  obtain ⟨m',hload,hsound,hplaced⟩ := hcheck.load hports
  exact ⟨bytes,m',hwrite,reads_unserialize_of_load hread hload,
    ⟨m.newId,hplaced.renamed hcheck hsound.check hnormal⟩,hsound.check,
    ⟨hsound.named.addr,hsound.named.random⟩,hplaced.timed hcheck htimed⟩

theorem find_empty (nKey : Uint256) (addr : CNetAddr) : (empty nKey).find addr = none := by
  have hnone : (empty nKey).mapAddr.lookup addr = none := AList.lookup_empty addr
  rw [find,hnone]
  rfl

/-- An address announces itself to a new manager. -/
def firstCall : AddrOp := .add ⟨⟨openAddr,9377⟩,1,5⟩ openAddr 0 10 0

theorem firstCall_run : ((empty 1).step lastByte firstCall).map (fun m =>
    (m.vvNew (0,33),m.mapInfo.entries.all fun e => decide (e.2.Timed ∧ e.2.Normal))) =
    some (some 0,true) := by
  decide +kernel

theorem unserialize_serialize_one : ∃ m bytes m', (empty 1).step lastByte firstCall = some m ∧
    m.vvNew (0,33) = some 0 ∧ m.serialize 1 = some bytes ∧
    Reads (unserialize lastByte 9377) bytes m' ∧ ∃ rename, Renamed m m' rename := by
  have hop : (empty 1).KeepsPort firstCall := by
    intro _ nId info hfind
    rw [find_empty] at hfind
    exact absurd hfind (Option.some_ne_none _).symm
  obtain ⟨m,hrun,hsound⟩ := (empty_sound lastByte 1).step hop
  have hentries := firstCall_run
  rw [hrun,Option.map_some,Option.some.injEq,Prod.mk.injEq,List.all_eq_true] at hentries
  obtain ⟨hslot,hall⟩ := hentries
  have hentry : ∀ nId info, m.mapInfo.lookup nId = some info → info.Timed ∧ info.Normal :=
    fun nId info hl => of_decide_eq_true (hall ⟨nId,info⟩ (AList.mem_lookup_iff.mp hl))
  obtain ⟨bytes,m',hwrite,hread,hrenamed,-⟩ := unserialize_serialize lastByte 9377 1 m hsound.check
    (fun nId info hl => (hentry nId info hl).1) fun nId info hl => (hentry nId info hl).2
  exact ⟨m,bytes,m',hrun,hslot,hwrite,hread,hrenamed⟩

end RoundTrip

end CAddrMan

end Anoncoin
