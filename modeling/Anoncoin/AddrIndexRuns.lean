import Anoncoin.AddrIndexSteps

/-!
The index of I2P destinations over whole runs, with peers.dat written and read back in between.
Entries that are read back without a slot are pruned and leave their hashes behind.
-/

set_option autoImplicit false

namespace Anoncoin
open Lib

namespace CAddrMan

/-- An address of the new table as it is read back. -/
def readService (nDefaultPort : Uint16) (x : CAddrInfo) : CService :=
  { x.toCService with port := portOf nDefaultPort x.toCAddress }

/-- Only this id of the bucket is put at this position. -/
def Alone (H : AddrHashes) (nDefaultPort : Uint16) (m₀ : CAddrMan) (s : NewSlot) (nId : Nat) : Prop :=
  ∀ i j x, m₀.vvNew (s.1,i) = some j → m₀.mapInfo.lookup j = some x →
    (H.getBucketPosition m₀.nKey (readService nDefaultPort x) true s.1 = s.2 ↔ j = nId)

/-- Every I2P destination in the new table has a slot that it gets again when it is read back, for
no other address of the bucket is put there. -/
def KeepsSlots (H : AddrHashes) (nDefaultPort : Uint16) (m : CAddrMan) : Prop :=
  ∀ nId info, m.mapInfo.lookup nId = some info → info.isI2P = true → info.fInTried = false →
    ∃ s, m.vvNew s = some nId ∧ Alone H nDefaultPort m s nId

section Filling
variable {H : AddrHashes} {nDefaultPort : Uint16} {m₀ m m' : CAddrMan} {nId : Nat}
  {info₀ : CAddrInfo} {bucket : Fin ADDRMAN_NEW_BUCKET_COUNT} {i : Fin ADDRMAN_BUCKET_SIZE}

/-- The manager while the slots of the new table are filled, wherever that puts the entries. -/
structure Filling (H : AddrHashes) (nDefaultPort : Uint16) (m₀ m : CAddrMan) : Prop where
  fresh : ∀ nId info, m.mapInfo.lookup nId = some info → nId < m.nIdCount
  slots : ∀ s nId, m.vvNew s = some nId → nId < m.nIdCount
  refs : ∀ nId info, m.mapInfo.lookup nId = some info → 0 ≤ info.nRefCount
  lookup : ∀ j, (m.mapInfo.lookup j).map (fun info => { info with nRefCount := 0 }) =
    m₀.written[j]?.map fun e => reloaded nDefaultPort e.2 j
  nKey : m.nKey = m₀.nKey
  nNew : m.nNew = m₀.nNew
  index : m.HashesExact H

/-- The entry has a reference again. -/
def Placed (m : CAddrMan) (nId : Nat) : Prop :=
  ∃ info, m.mapInfo.lookup nId = some info ∧ 0 < info.nRefCount

theorem reloaded_service (x : CAddrInfo) (n : Nat) (hf : x.fInTried = false) :
    (reloaded nDefaultPort x n).toCService = readService nDefaultPort x := by
  rw [reloaded,if_neg (by simp [hf])]
  show (newAddress nDefaultPort x.record).toCService = _
  rw [newAddress_eq]
  rfl

/-- What one id of a bucket comes to. -/
theorem Filling.placeNew_cases (h : Filling H nDefaultPort m₀ m) (hcheck : m₀.Check H)
    (hs : m₀.vvNew (bucket,i) = some nId) (hl₀ : m₀.mapInfo.lookup nId = some info₀) :
    ∃ info, m.mapInfo.lookup (m₀.newId nId) = some info ∧
      ((m.placeNew H m₀.fileOf bucket (unkId nId m₀.infosInOrder 0) = m ∧
          (m.vvNew (bucket,H.getBucketPosition m₀.nKey (readService nDefaultPort info₀) true bucket) = none →
            0 < info.nRefCount)) ∨
        m.placeNew H m₀.fileOf bucket (unkId nId m₀.infosInOrder 0) =
          (m.setInfo (m₀.newId nId) { info with nRefCount := info.nRefCount+1 }).setNew
            (bucket,H.getBucketPosition m₀.nKey (readService nDefaultPort info₀) true bucket)
            (some (m₀.newId nId))) := by
  obtain ⟨y,hy,hf₀,-⟩ := hcheck.new (bucket,i) nId hs
  rw [hl₀] at hy
  obtain rfl := Option.some.inj hy
  obtain ⟨info,hl,hcore,hplaced⟩ := placeNew_eq hcheck h.lookup h.nNew hl₀ hf₀ bucket
  have hservice : info.toCService = readService nDefaultPort info₀ := by
    rw [← reloaded_service info₀ (m₀.newId nId) hf₀,← hcore]
  refine ⟨info,hl,?_⟩
  rw [hplaced,hservice,h.nKey]
  split
  · exact .inr rfl
  · next hno =>
    refine .inl ⟨rfl,fun hfree => ?_⟩
    by_contra hnone
    exact hno ⟨hfree,by
      rw [show ADDRMAN_NEW_BUCKETS_PER_ADDRESS = 8 from rfl]
      omega⟩

/-- The step for one id: nothing else is touched, and a free slot is taken. -/
theorem Filling.placeNew (h : Filling H nDefaultPort m₀ m) (hcheck : m₀.Check H)
    (hs : m₀.vvNew (bucket,i) = some nId) (hl₀ : m₀.mapInfo.lookup nId = some info₀)
    (hm' : m.placeNew H m₀.fileOf bucket (unkId nId m₀.infosInOrder 0) = m') :
    Filling H nDefaultPort m₀ m' ∧
      (∀ t, t ≠ (bucket,H.getBucketPosition m₀.nKey (readService nDefaultPort info₀) true bucket) →
        m'.vvNew t = m.vvNew t) ∧
      (∀ j, m.Placed j → m'.Placed j) ∧
      (m.vvNew (bucket,H.getBucketPosition m₀.nKey (readService nDefaultPort info₀) true bucket) = none →
        m'.Placed (m₀.newId nId)) := by
  obtain ⟨info,hl,⟨hsame,hpos⟩ | hplaced⟩ := h.placeNew_cases hcheck hs hl₀
  · rw [hsame] at hm'
    rw [← hm']
    exact ⟨h,fun _ _ => rfl,fun _ hj => hj,fun hfree => ⟨info,hl,hpos hfree⟩⟩
  · have hrefs := h.refs _ info hl
    have hlook : ∀ j, m'.mapInfo.lookup j = if j = m₀.newId nId then
        some { info with nRefCount := info.nRefCount+1 } else m.mapInfo.lookup j := by
      rw [← hm',hplaced]
      exact lookup_setInfo m (m₀.newId nId) { info with nRefCount := info.nRefCount+1 }
    have hself : m'.Placed (m₀.newId nId) := by
      refine ⟨_,(hlook _).trans (if_pos rfl),?_⟩
      show 0 < info.nRefCount+1
      omega
    have hvv : m'.vvNew = Function.update m.vvNew
        (bucket,H.getBucketPosition m₀.nKey (readService nDefaultPort info₀) true bucket)
        (some (m₀.newId nId)) := by
      rw [← hm',hplaced]
      rfl
    have hcount : m'.nIdCount = m.nIdCount := by rw [← hm',hplaced]; rfl
    refine ⟨⟨?_,?_,?_,?_,?_,?_,?_⟩,?_,?_,fun _ => hself⟩
    · intro j x hx
      rw [hlook] at hx
      rw [hcount]
      split at hx
      · next hj => exact hj ▸ h.fresh _ info hl
      · exact h.fresh j x hx
    · intro t j ht
      rw [hvv] at ht
      rw [hcount]
      by_cases hts : t = (bucket,H.getBucketPosition m₀.nKey (readService nDefaultPort info₀) true bucket)
      · rw [hts,Function.update_self,Option.some.injEq] at ht
        exact ht ▸ h.fresh _ info hl
      · rw [Function.update_of_ne hts] at ht
        exact h.slots t j ht
    · intro j x hx
      rw [hlook] at hx
      split at hx
      · rw [← Option.some.inj hx]
        show 0 ≤ info.nRefCount+1
        omega
      · exact h.refs j x hx
    · intro j
      rw [← h.lookup j,hlook]
      by_cases hj : j = m₀.newId nId
      · rw [if_pos hj,hj,hl]
        rfl
      · rw [if_neg hj]
    · rw [← hm',hplaced]
      exact h.nKey
    · rw [← hm',hplaced]
      exact h.nNew
    · rw [← hm',hplaced]
      exact (h.index.setInfo hl { info with nRefCount := info.nRefCount+1 } rfl).congr rfl fun _ => rfl
    · intro t ht
      rw [hvv,Function.update_of_ne ht]
    · rintro j ⟨x,hx,hpos⟩
      by_cases hj : j = m₀.newId nId
      · rw [hj]
        exact hself
      · exact ⟨x,by rw [hlook,if_neg hj]; exact hx,hpos⟩

/-- The ids of a bucket one after the other. -/
theorem Filling.placeBucket (h : Filling H nDefaultPort m₀ m) (hcheck : m₀.Check H)
    (bucket : Fin ADDRMAN_NEW_BUCKET_COUNT) (l : List (Fin ADDRMAN_BUCKET_SIZE))
    (hm' : m.placeBucket H m₀.fileOf ((l.filterMap fun i => m₀.vvNew (bucket,i)).map fun nId =>
      (unkId nId m₀.infosInOrder 0 : Int)) bucket = m') :
    Filling H nDefaultPort m₀ m' ∧ (∀ t : NewSlot, t.1 ≠ bucket → m'.vvNew t = m.vvNew t) ∧
      (∀ j, m.Placed j → m'.Placed j) ∧
      ∀ i ∈ l, ∀ nId, m₀.vvNew (bucket,i) = some nId → Alone H nDefaultPort m₀ (bucket,i) nId →
        m.vvNew (bucket,i) = none → m'.Placed (m₀.newId nId) := by
  induction l generalizing m with
  | nil =>
    have hsame : m = m' := hm'
    rw [← hsame]
    exact ⟨h,fun _ _ => rfl,fun _ hj => hj,by simp⟩
  | cons i rest ih =>
    cases hs : m₀.vvNew (bucket,i) with
    | none =>
      simp only [List.filterMap_cons,hs] at hm'
      obtain ⟨hfill,hothers,hkept,hplaced⟩ := ih h hm'
      refine ⟨hfill,hothers,hkept,fun k hk nId hnId halone hfree => ?_⟩
      rcases List.mem_cons.mp hk with rfl | hk
      · rw [hs] at hnId
        contradiction
      · exact hplaced k hk nId hnId halone hfree
    | some j =>
      obtain ⟨x,hx,-⟩ := hcheck.new (bucket,i) j hs
      obtain ⟨m₁,hm₁⟩ : ∃ m₁, m.placeNew H m₀.fileOf bucket (unkId j m₀.infosInOrder 0) = m₁ :=
        ⟨_,rfl⟩
      obtain ⟨h₁,hothers₁,hkept₁,hplaced₁⟩ := h.placeNew hcheck hs hx hm₁
      simp only [List.filterMap_cons,hs,List.map_cons] at hm'
      rw [CAddrMan.placeBucket,List.foldl_cons,hm₁] at hm'
      obtain ⟨hfill,hothers,hkept,hplaced⟩ := ih h₁ hm'
      refine ⟨hfill,?_,fun k hk => hkept k (hkept₁ k hk),fun k hk nId hnId halone hfree => ?_⟩
      · intro t ht
        rw [hothers t ht]
        exact hothers₁ t fun he => ht (congrArg Prod.fst he)
      · have hpos := halone i j x hs hx
        by_cases hj : j = nId
        · subst hj
          refine hkept _ (hplaced₁ ?_)
          rw [hpos.mpr rfl]
          exact hfree
        · have hin : k ∈ rest := by
            rcases List.mem_cons.mp hk with rfl | hk
            · rw [hs] at hnId
              exact absurd (Option.some.inj hnId) hj
            · exact hk
          refine hplaced k hin nId hnId halone ?_
          rw [hothers₁ (bucket,k) fun he => hj (hpos.mp (congrArg Prod.snd he).symm)]
          exact hfree

/-- The buckets one after the other. -/
theorem Filling.placeBuckets (h : Filling H nDefaultPort m₀ m) (hcheck : m₀.Check H)
    (hempty : ∀ t, m.vvNew t = none) (n : Nat) (hn : n ≤ ADDRMAN_NEW_BUCKET_COUNT)
    (hm' : (m₀.fileOf.buckets.take n).zipIdx.foldl (fun m e => m.placeBucket H m₀.fileOf e.1 e.2) m =
      m') :
    Filling H nDefaultPort m₀ m' ∧ (∀ t : NewSlot, n ≤ t.1.val → m'.vvNew t = none) ∧
      ∀ s nId, s.1.val < n → m₀.vvNew s = some nId → Alone H nDefaultPort m₀ s nId →
        m'.Placed (m₀.newId nId) := by
  induction n generalizing m' with
  | zero =>
    have hsame : m = m' := hm'
    rw [← hsame]
    exact ⟨h,fun t _ => hempty t,fun s nId hs => absurd hs (Nat.not_lt_zero _)⟩
  | succ n ih =>
    have hlt : n < ADDRMAN_NEW_BUCKET_COUNT := by omega
    obtain ⟨hfill,hfree,hplaced⟩ := ih (by omega) rfl
    rw [placeBuckets_succ m₀ m hlt] at hm'
    obtain ⟨hfill',hothers,hkept,hplaced'⟩ := hfill.placeBucket hcheck ⟨n,hlt⟩
      (List.finRange ADDRMAN_BUCKET_SIZE) hm'
    refine ⟨hfill',fun t ht => ?_,fun s nId hs hnId halone => ?_⟩
    · rw [hothers t fun he => by rw [he] at ht; exact absurd ht (Nat.not_succ_le_self n)]
      exact hfree t (by omega)
    · by_cases hb : s.1.val < n
      · exact hkept _ (hplaced s nId hb hnId halone)
      · have hs₁ : s.1 = ⟨n,hlt⟩ := Fin.ext (by show s.1.val = n; omega)
        obtain ⟨b,i⟩ := s
        dsimp only at hs₁
        subst hs₁
        exact hplaced' i (List.mem_finRange i) nId hnId halone (hfree _ (le_refl n))

/-- A manager of which the slots are about to be filled. -/
theorem Placing.filling (h : Placing H nDefaultPort m₀ ∅ m)
    (hdistinct : DistinctHashes H (m₀.written.map Prod.snd)) : Filling H nDefaultPort m₀ m := by
  refine ⟨h.sound.named.fresh,fun s j hs => ?_,fun j x hx => ?_,h.lookup,h.nKey,h.nNew,
    h.index hdistinct⟩
  · rw [h.empty s (Set.notMem_empty s)] at hs
    exact absurd hs (Option.some_ne_none _).symm
  · have hrefs := h.sound.slotted.refs j _ (places_of_lookup hx)
    rw [show x.nRefCount = x.place.nRefCount from rfl,hrefs]
    exact Int.natCast_nonneg _

/-- An exact index tells the destinations apart. -/
theorem HashesExact.distinct (h : m.HashesExact H) (hcheck : m.Check H) :
    DistinctHashes H (m.written.map Prod.snd) := by
  have hnodup := hcheck.written_nodup
  rw [DistinctHashes,List.pairwise_map]
  rw [List.Nodup,List.pairwise_map] at hnodup
  refine hnodup.imp_of_mem ?_
  rintro ⟨i,x⟩ ⟨j,y⟩ hx hy hne hxi hyi heq
  have hi := (h _ i).mpr ⟨x,hcheck.mem_written.mp hx,hxi,rfl⟩
  have hj := (h _ j).mpr ⟨y,hcheck.mem_written.mp hy,hyi,heq.symm⟩
  rw [hi] at hj
  exact hne (Option.some.inj hj)

/-- Pruning entries that are no I2P destinations. -/
theorem Tracked.prune (l : List (Nat × CAddrInfo)) (h : Tracked H m (l.map Prod.fst))
    (hnodup : (l.map Prod.fst).Nodup)
    (hentries : ∀ e ∈ l, (m.mapInfo.lookup e.1).map CAddrInfo.strip = some e.2.strip)
    (hrefs : ∀ e ∈ l, 0 ≤ e.2.nRefCount)
    (hplaced : ∀ e ∈ l, e.2.isI2P = true → e.2.fInTried = false → 0 < e.2.nRefCount)
    (hrun : m.prune l = some m') : Tracked H m' [] := by
  induction l generalizing m with
  | nil =>
    rw [← Option.some.inj hrun]
    exact h
  | cons e rest ih =>
    obtain ⟨nId,x⟩ := e
    rw [List.map_cons,List.nodup_cons] at hnodup
    have hentry := hentries (nId,x) (by simp)
    obtain ⟨info,hl,hstrip⟩ := Option.map_eq_some_iff.mp hentry
    have haddr := CAddrInfo.addr_of_strip hstrip
    have href : info.nRefCount = x.nRefCount := CAddrInfo.nRefCount_of_strip hstrip
    have hf : info.fInTried = x.fInTried := CAddrInfo.fInTried_of_strip hstrip
    have hrestRefs : ∀ e ∈ rest, 0 ≤ e.2.nRefCount := fun e he => hrefs e (by simp [he])
    have hrestPlaced : ∀ e ∈ rest, e.2.isI2P = true → e.2.fInTried = false → 0 < e.2.nRefCount :=
      fun e he => hplaced e (by simp [he])
    rw [CAddrMan.prune] at hrun
    split at hrun
    · next hgone =>
      simp only [Option.bind_eq_bind,Option.bind_eq_some_iff] at hrun
      obtain ⟨m₁,hdelete,hrun⟩ := hrun
      have hdeleted := deleted_of_delete hdelete
      have hother : info.isI2P ≠ true := by
        intro hi
        rw [haddr] at hi
        have hpos := hplaced (nId,x) (by simp) hi hgone.1
        exact absurd hgone.2 hpos.ne'
      have hmap : m₁.mapI2pHashes = (m.checkAndDeleteB32Hash H nId info).mapI2pHashes := by
        rw [hdeleted.mapI2pHashes,checkAndDeleteB32Hash,if_neg hother]
      have h₁ := h.forget hl hdeleted.nIdCount hdeleted.vvNew hmap hdeleted.same
      refine ih h₁ hnodup.2 (fun e he => ?_) hrestRefs hrestPlaced hrun
      have hne : e.1 ≠ nId := fun heq => hnodup.1 (heq ▸ List.mem_map.mpr ⟨e,he,rfl⟩)
      rw [hdeleted.same,if_neg hne]
      exact hentries e (by simp [he])
    · next hstays =>
      have h₁ : Tracked H m (rest.map Prod.fst) := by
        refine ⟨h.fresh,h.slots,fun j y hy hj hyf => ?_,h.index⟩
        by_cases hid : j = nId
        · subst hid
          rw [hl] at hy
          obtain rfl := Option.some.inj hy
          have hnonneg : 0 ≤ x.nRefCount := hrefs (j,x) (by simp)
          have hne : x.nRefCount ≠ 0 := fun hzero => hstays ⟨hf.symm.trans hyf,hzero⟩
          omega
        · exact h.settled j y hy (by simp [hid,hj]) hyf
      exact ih h₁ hnodup.2 (fun e he => hentries e (by simp [he])) hrestRefs hrestPlaced hrun

end Filling

/-- peers.dat is written, and read into a new manager. -/
def reload (H : AddrHashes) (nDefaultPort : Uint16) (nVersion : Uint32) (m : CAddrMan) :
    Option CAddrMan := do
  let bytes ← m.serialize nVersion
  match unserialize H nDefaultPort ⟨bytes,0,0⟩ with
  | .ok m' _ => some m'
  | .error _ _ => none

end CAddrMan

/-- The calls, and peers.dat being written and read back. -/
inductive AddrEvent where
  | call (op : AddrOp)
  | reload (nDefaultPort : Uint16) (nVersion : Uint32)

namespace CAddrMan

def event (H : AddrHashes) (m : CAddrMan) : AddrEvent → Option CAddrMan
  | .call op => m.step H op
  | .reload nDefaultPort nVersion => m.reload H nDefaultPort nVersion

/-- The events that keep the index exact. -/
def Faithful (H : AddrHashes) (m : CAddrMan) : AddrEvent → Prop
  | .call op => m.KeepsIndex H op
  | .reload nDefaultPort _ => m.Check H ∧ m.KeepsSlots H nDefaultPort

section Runs
variable {H : AddrHashes} {nDefaultPort : Uint16} {nVersion : Uint32} {m m' : CAddrMan}

theorem unserialize_eq {s s' : Stream} {f : PeersFile} (hread : readPeers s = .ok f s') :
    unserialize H nDefaultPort s = match load H nDefaultPort f with
      | none => .error .assertion s'
      | some m => .ok m s' := by
  unfold unserialize
  simp only [bind,EStateM.bind,hread]
  cases load H nDefaultPort f with
  | none => rfl
  | some m => rfl

/-- A manager that is read back keeps an exact index if no destination is pruned. -/
theorem Tracked.reload (h : Tracked H m []) (hcheck : m.Check H) (hkeeps : m.KeepsSlots H nDefaultPort)
    (hrun : m.reload H nDefaultPort nVersion = some m') : Tracked H m' [] := by
  obtain ⟨bytes,hwrite,hreads⟩ := hcheck.reads_serialize nVersion
  obtain ⟨s',hread,-⟩ := hreads ⟨bytes,0,0⟩ [] (List.append_nil bytes).symm
  unfold CAddrMan.reload at hrun
  rw [hwrite,Option.bind_eq_bind,Option.bind_some,unserialize_eq hread] at hrun
  obtain ⟨m₁,hstart,hload⟩ := hcheck.load_eq nDefaultPort
  obtain ⟨m₂,hm₂⟩ : ∃ x, (m.fileOf.buckets.take ADDRMAN_NEW_BUCKET_COUNT).zipIdx.foldl
      (fun m' e => m'.placeBucket H m.fileOf e.1 e.2) m₁ = x := ⟨_,rfl⟩
  obtain ⟨hfill,-,hplaced⟩ := (hstart.filling (h.index.distinct hcheck)).placeBuckets hcheck
    (fun t => hstart.empty t (Set.notMem_empty t)) ADDRMAN_NEW_BUCKET_COUNT (le_refl _) hm₂
  rw [fileOf_buckets_all] at hm₂
  rw [hload m₂ hm₂] at hrun
  have hprune : m₂.prune m₂.infosInOrder = some m' := by
    cases hp : m₂.prune m₂.infosInOrder with
    | none =>
      rw [hp] at hrun
      contradiction
    | some x =>
      rw [hp] at hrun
      exact hrun
  refine Tracked.prune m₂.infosInOrder ⟨hfill.fresh,hfill.slots,?_,hfill.index⟩ (infosInOrder_nodup m₂)
    ?_ ?_ ?_ hprune
  · intro j x hx hj
    exact absurd (List.mem_map.mpr ⟨(j,x),mem_infosInOrder.mpr hx,rfl⟩) hj
  · rintro ⟨j,x⟩ hmem
    rw [mem_infosInOrder.mp hmem]
    rfl
  · rintro ⟨j,x⟩ hmem
    exact hfill.refs j x (mem_infosInOrder.mp hmem)
  · rintro ⟨j,x⟩ hmem hi hf
    have hl := mem_infosInOrder.mp hmem
    have hlookup := hfill.lookup j
    rw [hl,Option.map_some] at hlookup
    obtain ⟨⟨nId,info⟩,hwritten,hcore⟩ := Option.map_eq_some_iff.mp hlookup.symm
    obtain ⟨hl₀,rfl⟩ := hcheck.newId_eq hwritten
    have hcore' : reloaded nDefaultPort info (m.newId nId) = { x with nRefCount := 0 } := hcore
    have hi₀ : info.isI2P = true := by
      rw [← reloaded_addr info (m.newId nId),hcore']
      exact hi
    have hf₀ : info.fInTried = false := by
      rw [← reloaded_fInTried info (m.newId nId),hcore']
      exact hf
    obtain ⟨s,hs,halone⟩ := hkeeps nId info hl₀ hi₀ hf₀
    obtain ⟨y,hy,hpos⟩ := hplaced s nId s.1.isLt hs halone
    rw [hl] at hy
    rw [← Option.some.inj hy] at hpos
    exact hpos

theorem Tracked.event (h : Tracked H m []) {e : AddrEvent} (he : m.Faithful H e)
    (hrun : m.event H e = some m') : Tracked H m' [] := by
  cases e with
  | call op => exact h.step he hrun
  | reload nDefaultPort nVersion => exact h.reload he.1 he.2 hrun

theorem empty_tracked (H : AddrHashes) (nKey : Uint256) : Tracked H (empty nKey) [] := by
  have hnone : ∀ j, (empty nKey).mapInfo.lookup j = none := fun j => AList.lookup_empty j
  refine ⟨?_,?_,?_,?_⟩
  · intro j x hx
    rw [hnone] at hx
    contradiction
  · intro s j hs
    exact absurd hs (Option.some_ne_none _).symm
  · intro j x hx
    rw [hnone] at hx
    contradiction
  · intro b32hash j
    rw [show (empty nKey).mapI2pHashes.lookup b32hash = none from AList.lookup_empty b32hash,hnone j]
    simp

end Runs

/-- In every run whose events are all of that kind the index is exact, every stored destination
is found under its address, and the assertion of `CopyDestinationStats` does not fail. -/
theorem index_exact_of_faithful (H : AddrHashes) (nKey : Uint256) (m : CAddrMan)
    (hm : ReachableBy (fun m e m' => m.event H e = some m') (Faithful H) (empty nKey) m) :
    m.HashesExact H ∧
      (∀ nId info, m.mapInfo.lookup nId = some info → info.isI2P = true →
        m.lookupB32addr (b32AddressFromDestination H info.getI2pDestination) = some (some info)) ∧
      m.copyDestinationStats ≠ none := by
  have htracked : Tracked H m [] := hm.invariant (fun m => Tracked H m []) (empty_tracked H nKey)
    fun s e s' hs he hstep => hs.event he hstep
  exact ⟨htracked.index,fun nId info hl hi => htracked.index.lookupB32addr hl hi,
    htracked.index.copyDestinationStats⟩

section Refused

/-- An I2P destination. -/
def garlicAddr : CNetAddr :=
  ⟨pchGarlicCat ++ List.replicate 10 0,List.replicate (I2P_DESTINATION_STORE-4) 66 ++ [65,65,65,65],
    CNetAddr.garlicIp_length,by rw [List.length_append,List.length_replicate]; rfl⟩

/-- As a hash of a destination, its first bytes. -/
def firstBytes : AddrHashes :=
  ⟨lastByte.hash,fun destination => BitVec.ofNat 256 (fromLittleEndian (destination.take 32))⟩

def garlicCall : AddrOp := .add ⟨⟨garlicAddr,0⟩,0,5⟩ openAddr 0 10 0

theorem garlicCall_run : ((empty 0).event firstBytes (.call garlicCall)).map (fun m =>
    (m.mapInfo.lookup 0).map fun info => info.isI2P) = some (some true) := by
  decide +kernel

theorem index_exact_of_faithful_one : ∃ m info,
    (empty 0).event firstBytes (.call garlicCall) = some m ∧ m.mapInfo.lookup 0 = some info ∧
      m.lookupB32addr (b32AddressFromDestination firstBytes info.getI2pDestination) =
        some (some info) := by
  obtain ⟨m,hrun,hm⟩ := Option.map_eq_some_iff.mp garlicCall_run
  obtain ⟨info,hl,hi⟩ := Option.map_eq_some_iff.mp hm
  have hop : (empty 0).Faithful firstBytes (.call garlicCall) := by
    intro _ _ _
    refine ⟨fun _ => ?_,fun _ j x hx => ?_⟩
    · rintro ⟨j,x,hs,-⟩
      exact absurd hs (Option.some_ne_none _).symm
    · rw [show (empty 0).mapInfo.lookup j = none from AList.lookup_empty j] at hx
      exact absurd hx (Option.some_ne_none _).symm
  exact ⟨m,info,hrun,hl,(index_exact_of_faithful firstBytes 0 m (.step .init hop hrun)).2.1 0 info hl hi⟩

/-- The destinations that are added in a run. -/
def destinations (events : List AddrEvent) : List (List UInt8) :=
  events.filterMap fun e => match e with
    | .call (.add addrIn _ _ _ _) =>
        if addrIn.withGarlic.isI2P then some addrIn.withGarlic.getI2pDestination else none
    | _ => none

/-- A destination is added whose slot is taken. -/
def refusedCalls : List AddrEvent :=
  [.call (.add ⟨⟨openAddr,1⟩,0,5⟩ openAddr 0 10 0),.call garlicCall]

theorem refusedCalls_run : (runAdmitted (fun m e => m.event firstBytes e) (fun _ _ => True) (empty 0)
    refusedCalls).map (fun m => (m.mapI2pHashes.lookup (firstBytes.getI2pDestinationHash
      garlicAddr.getI2pDestination),(m.mapInfo.lookup 1).isSome,m.copyDestinationStats.isSome)) =
    some (some 1,false,false) := by
  decide +kernel

/-- A refused destination leaves its hash behind: the index is not exact and the assertion of
`CopyDestinationStats` fails, though no two destinations have the same hash. -/
theorem refused_leaves_hash :
    (¬∀ (H : AddrHashes) (nKey : Uint256) (events : List AddrEvent) (m : CAddrMan),
      (∀ d ∈ destinations events, ∀ d' ∈ destinations events,
        H.getI2pDestinationHash d = H.getI2pDestinationHash d' → d = d') →
      runAdmitted (fun m e => m.event H e) (fun _ _ => True) (empty nKey) events = some m →
        m.HashesExact H) ∧
    ¬∀ (H : AddrHashes) (nKey : Uint256) (events : List AddrEvent) (m : CAddrMan),
      (∀ d ∈ destinations events, ∀ d' ∈ destinations events,
        H.getI2pDestinationHash d = H.getI2pDestinationHash d' → d = d') →
      runAdmitted (fun m e => m.event H e) (fun _ _ => True) (empty nKey) events = some m →
        m.copyDestinationStats ≠ none := by
  obtain ⟨m,hrun,hm⟩ := Option.map_eq_some_iff.mp refusedCalls_run
  simp only [Prod.mk.injEq] at hm
  obtain ⟨hhash,hgone,hassert⟩ := hm
  have hdistinct : ∀ d ∈ destinations refusedCalls, ∀ d' ∈ destinations refusedCalls,
      firstBytes.getI2pDestinationHash d = firstBytes.getI2pDestinationHash d' → d = d' := by
    have hone : destinations refusedCalls = [garlicAddr.getI2pDestination] := by decide +kernel
    rw [hone]
    intro d hd d' hd' _
    rw [List.mem_singleton.mp hd,List.mem_singleton.mp hd']
  constructor
  · intro h
    obtain ⟨info,hl,-⟩ := (h firstBytes 0 refusedCalls m hdistinct hrun _ 1).mp hhash
    rw [hl] at hgone
    exact Bool.noConfusion hgone
  · intro h
    have hsome := h firstBytes 0 refusedCalls m hdistinct hrun
    rw [Option.isSome_eq_false_iff,Option.isNone_iff_eq_none] at hassert
    exact hsome hassert

end Refused

end CAddrMan

end Anoncoin
