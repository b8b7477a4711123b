import Anoncoin.ChainReplay
import Anoncoin.Supply

/-!
Runs of a chain state. Whatever was connected, disconnected, read, flushed or lost in a crash
on the way, `pcoinsTip` answers as the replay of its branch does.
-/

set_option autoImplicit false

namespace Anoncoin
open Lib

namespace BlockStore
open CCoinsView
variable {env : NodeEnv} {S : BlockStore env}

/-- The record of an entry is there, with its undo data when the entry has a parent. -/
def Recorded (records : Uint256 → Option S.BlockRecord) (e : S.Entry) : Prop :=
  ∃ r, records e.hash = some r ∧ (e.pprev ≠ none → r.undo ≠ none)

/-- The records lead from the tip to genesis. -/
def Complete (records : Uint256 → Option S.BlockRecord) (tip : Option S.Entry) : Prop :=
  ∀ e, tip = some e → ∀ a : S.Entry, a.1 ∈ e.1.ancestors → Recorded records a

/-- Records are filed under the hash of their entry, and their undo data is what the replay of
its branch gives. -/
structure Sound (records : Uint256 → Option S.BlockRecord) : Prop where
  key : ∀ h r, records h = some r → r.pindex.hash = h
  undo : ∀ h r u, records h = some r → r.undo = some u → ∃ v, r.pindex.replay = .ok (v,some u)

theorem Sound.pindex {records : Uint256 → Option S.BlockRecord} (h : Sound records) {e : S.Entry}
    {r : S.BlockRecord} (hr : records e.hash = some r) : r.pindex = e :=
  Entry.hash_inj (h.key _ r hr)

theorem Entry.pprev_val {e p : S.Entry} (h : e.pprev = some p) : e.1.pprev = some p.1 := by
  obtain ⟨i,hi⟩ := e
  cases i with
  | genesis d => contradiction
  | child d q =>
    obtain rfl := Option.some.inj h
    rfl

theorem Entry.eq_or_mem {e p a : S.Entry} (hp : e.pprev = some p) (ha : a.1 ∈ e.1.ancestors) :
    a = e ∨ a.1 ∈ p.1.ancestors := by
  obtain ⟨i,hi⟩ := e
  cases i with
  | genesis d => contradiction
  | child d q =>
    obtain rfl := Option.some.inj hp
    rcases List.mem_cons.mp ha with he | hq
    · exact .inl (Subtype.ext he)
    · exact .inr hq

theorem Entry.mem_of_pprev {e p a : S.Entry} (hp : e.pprev = some p) (ha : a.1 ∈ p.1.ancestors) :
    a.1 ∈ e.1.ancestors := by
  obtain ⟨i,hi⟩ := e
  cases i with
  | genesis d => contradiction
  | child d q =>
    obtain rfl := Option.some.inj hp
    exact List.mem_cons_of_mem _ ha

theorem Entry.eq_of_genesis {e a : S.Entry} (hp : e.pprev = none) (ha : a.1 ∈ e.1.ancestors) :
    a = e := by
  obtain ⟨i,hi⟩ := e
  cases i with
  | genesis d => exact Subtype.ext (List.mem_singleton.mp ha)
  | child d q => contradiction

/-- The record of each block down from the tip, with the undo data of the replay. -/
theorem Complete.record {records : Uint256 → Option S.BlockRecord} {e a : S.Entry}
    (h : Complete records (some e)) (hs : Sound records) (ha : a.1 ∈ e.1.ancestors) :
    ∃ r, records a.hash = some r ∧ r.pindex = a ∧
      (a.pprev ≠ none → ∃ u v, r.undo = some u ∧ a.replay = .ok (v,some u)) := by
  obtain ⟨r,hr,hundo⟩ := h e rfl a ha
  refine ⟨r,hr,hs.pindex hr,fun hp => ?_⟩
  obtain ⟨u,hu⟩ := Option.ne_none_iff_exists'.mp (hundo hp)
  obtain ⟨v,hreplay⟩ := hs.undo _ r u hr hu
  rw [hs.pindex hr] at hreplay
  exact ⟨u,v,hu,hreplay⟩

theorem Stands.best {v : CCoinsView} {e : S.Entry} (h : Stands v (some e)) :
    (e.hash == v.getBestBlock.1) = true := by
  obtain ⟨m,-,hv⟩ := h
  rw [hv.best]
  exact beq_self_eq_true _

theorem Complete.parent {records : Uint256 → Option S.BlockRecord} {e : S.Entry}
    (h : Complete records (some e)) : Complete records e.pprev := by
  intro p hp a ha
  exact h e rfl a (Entry.mem_of_pprev hp ha)

theorem Complete.child {records : Uint256 → Option S.BlockRecord} {e : S.Entry}
    (h : Complete records e.pprev) (he : Recorded records e) : Complete records (some e) := by
  intro e' he' a ha
  obtain rfl := Option.some.inj he'
  cases hp : e.pprev with
  | none =>
    obtain rfl := Entry.eq_of_genesis hp ha
    exact he
  | some p =>
    rcases Entry.eq_or_mem hp ha with rfl | hap
    · exact he
    · exact h p hp a hap

/-- Records that only gain undo data, and never lose any. -/
def Grows (records records' : Uint256 → Option S.BlockRecord) : Prop :=
  ∀ h r, records h = some r → ∃ r', records' h = some r' ∧ (r.undo ≠ none → r'.undo ≠ none)

theorem Grows.refl (records : Uint256 → Option S.BlockRecord) : Grows records records :=
  fun _ r hr => ⟨r,hr,id⟩

theorem Grows.trans {r₀ r₁ r₂ : Uint256 → Option S.BlockRecord} (h : Grows r₀ r₁)
    (h' : Grows r₁ r₂) : Grows r₀ r₂ := by
  intro k r hr
  obtain ⟨r',hr',hu⟩ := h k r hr
  obtain ⟨r'',hr'',hu'⟩ := h' k r' hr'
  exact ⟨r'',hr'',fun hne => hu' (hu hne)⟩

theorem Complete.grows {records records' : Uint256 → Option S.BlockRecord} {tip : Option S.Entry}
    (h : Complete records tip) (hg : Grows records records') : Complete records' tip := by
  intro e he a ha
  obtain ⟨r,hr,hu⟩ := h e he a ha
  obtain ⟨r',hr',hu'⟩ := hg _ r hr
  exact ⟨r',hr',fun hp => hu' (hu hp)⟩

namespace Chainstate

/-- The tip that `pcoinsTip` stands at, one ahead of `chainActive` inside the calls. -/
def coinsTip (s : S.Chainstate) : Option S.Entry := s.pindexNew.getD s.chainActive

theorem coinsTip_idle {s : S.Chainstate} (hn : s.pindexNew = none) : s.coinsTip = s.chainActive := by
  rw [coinsTip,hn,Option.getD_none]

/-- What holds of a chain state at any time. The database stands at a tip of its own, to which
its records lead. -/
structure Inv (s : S.Chainstate) : Prop where
  depth : s.pcoinsTip.depth = 1
  tip : Stands s.pcoinsTip s.coinsTip
  complete : Complete s.mapBlockIndex s.coinsTip
  saved : ∃ tip, Stands (.cache .new (.db s.pcoinsTip.bottom)) tip ∧ Complete s.blockIndexDB tip
  memory : Sound s.mapBlockIndex
  database : Sound s.blockIndexDB
  clean : ∀ h, h ∉ s.setDirtyBlockIndex → s.blockIndexDB h = s.mapBlockIndex h
  grows : Grows s.blockIndexDB s.mapBlockIndex

theorem inv_initial : Inv S.initial where
  depth := rfl
  tip := ⟨_,rfl,initial_holds⟩
  complete e he := by contradiction
  saved := ⟨none,⟨_,rfl,initial_holds⟩,fun e he => by contradiction⟩
  memory := ⟨fun h r hr => by contradiction,fun h r u hr => by contradiction⟩
  database := ⟨fun h r hr => by contradiction,fun h r u hr => by contradiction⟩
  clean h _ := rfl
  grows h r hr := by contradiction

variable {s s' : S.Chainstate}

/-- A record set for an entry that had none, or had one without undo data. -/
theorem Inv.setRecord (h : Inv s) {r : S.BlockRecord}
    (hold : ∀ r₀, s.mapBlockIndex r.pindex.hash = some r₀ → r₀.undo = none)
    (hundo : ∀ u, r.undo = some u → ∃ v, r.pindex.replay = .ok (v,some u)) :
    Inv (s.setRecord r) := by
  have hrecord : ∀ k r₀, (s.setRecord r).mapBlockIndex k = some r₀ →
      (k = r.pindex.hash ∧ r₀ = r) ∨ s.mapBlockIndex k = some r₀ := by
    intro k r₀ hr₀
    by_cases hk : k = r.pindex.hash
    · subst hk
      exact .inl ⟨rfl,by simpa [Chainstate.setRecord,eq_comm] using hr₀⟩
    · exact .inr (by simpa [Chainstate.setRecord,hk] using hr₀)
  have hgrows : Grows s.mapBlockIndex (s.setRecord r).mapBlockIndex := by
    intro k r₀ hr₀
    by_cases hk : k = r.pindex.hash
    · subst hk
      exact ⟨r,by simp [Chainstate.setRecord],fun hne => absurd (hold r₀ hr₀) hne⟩
    · exact ⟨r₀,by simpa [Chainstate.setRecord,hk] using hr₀,id⟩
  refine ⟨h.depth,h.tip,h.complete.grows hgrows,h.saved,⟨?_,?_⟩,h.database,?_,
    h.grows.trans hgrows⟩
  · intro k r₀ hr₀
    rcases hrecord k r₀ hr₀ with ⟨rfl,rfl⟩ | hr₀
    · rfl
    · exact h.memory.key k r₀ hr₀
  · intro k r₀ u hr₀ hu
    rcases hrecord k r₀ hr₀ with ⟨rfl,rfl⟩ | hr₀
    · exact hundo u hu
    · exact h.memory.undo k r₀ u hr₀ hu
  · intro k hk
    simp only [Chainstate.setRecord,List.mem_insert_iff,not_or] at hk
    simpa [Chainstate.setRecord,hk.1] using h.clean k hk.2

theorem Inv.addToBlockIndex (h : Inv s) {e : S.Entry} (hs : s.addToBlockIndex e = some s') :
    Inv s' := by
  unfold Chainstate.addToBlockIndex at hs
  split at hs
  · split at hs
    · obtain rfl := Option.some.inj hs
      exact h
    · rename_i hnone
      obtain rfl := Option.some.inj hs
      exact h.setRecord (fun r₀ hr₀ => by rw [hnone] at hr₀; contradiction)
        fun u hu => by contradiction
  · contradiction

/-- A change of `pcoinsTip` that keeps its answers and the database. -/
theorem Inv.withCoins (h : Inv s) {v : CCoinsView} (hdepth : v.depth = 1)
    (hbottom : v.bottom = s.pcoinsTip.bottom) (htip : Stands v s.coinsTip) :
    Inv { s with pcoinsTip := v } :=
  ⟨hdepth,htip,h.complete,by simpa only [hbottom] using h.saved,h.memory,h.database,h.clean,
    h.grows⟩

theorem Inv.readCoins (h : Inv s) (t : Uint256) :
    Inv { s with pcoinsTip := (s.pcoinsTip.getCoins t).2 } := by
  obtain ⟨m,hm,hv⟩ := h.tip
  exact h.withCoins (by rw [getCoins_depth,h.depth]) (getCoins_bottom _ t)
    ⟨m,hm,(hv.accessCoins t).2⟩

theorem Inv.readBestBlock (h : Inv s) : Inv { s with pcoinsTip := s.pcoinsTip.getBestBlock.2 } := by
  obtain ⟨m,hm,hv⟩ := h.tip
  exact h.withCoins ((kept_depth 1).best _ h.depth) (getBestBlock_bottom _)
    ⟨m,hm,hv.getBestBlock⟩

/-- The undo data that `ConnectBlock` writes is that of the replay. -/
theorem Inv.writeUndo (h : Inv s) {k : Uint256} {r : S.BlockRecord}
    (hr : s.mapBlockIndex k = some r) {v : CCoinsView} {undo : Option CBlockUndo}
    (hundo : r.pindex.replay = .ok (v,undo)) :
    Inv (s.writeUndo r undo) ∧ Recorded (s.writeUndo r undo).mapBlockIndex r.pindex := by
  have hkey : s.mapBlockIndex r.pindex.hash = some r := by rw [h.memory.key k r hr,hr]
  have hadv := (replay_advances r.pindex).result hundo
  unfold Chainstate.writeUndo
  cases undo with
  | none =>
    refine ⟨h,r,hkey,fun hp => ?_⟩
    obtain ⟨_,_,_,_,hadv,_⟩ := hadv
    cases hadv with
    | genesis hnone => exact absurd hnone hp
  | some blockundo =>
    cases hu : r.undo with
    | some u => exact ⟨h,r,hkey,fun _ hnone => by rw [hu] at hnone; contradiction⟩
    | none =>
      refine ⟨h.setRecord ?_ ?_,{ r with undo := some blockundo },
        by simp [Chainstate.setRecord],fun _ => by simp⟩
      · intro r₀ hr₀
        rw [hkey] at hr₀
        obtain rfl := Option.some.inj hr₀
        exact hu
      · intro u hu'
        obtain rfl := Option.some.inj hu'
        exact ⟨v,hundo⟩

/-- The parts of a chain state that the undo data is no part of. -/
theorem writeUndo_eq (s : S.Chainstate) (r : S.BlockRecord) (undo : Option CBlockUndo) :
    (s.writeUndo r undo).pcoinsTip = s.pcoinsTip ∧
      (s.writeUndo r undo).chainActive = s.chainActive ∧
      (s.writeUndo r undo).pindexNew = s.pindexNew := by
  unfold Chainstate.writeUndo
  cases undo with
  | none => exact ⟨rfl,rfl,rfl⟩
  | some blockundo =>
    cases r.undo with
    | some u => exact ⟨rfl,rfl,rfl⟩
    | none => exact ⟨rfl,rfl,rfl⟩

/-- A new cache in front of `pcoinsTip` stands where `pcoinsTip` does. -/
theorem Inv.newCache (h : Inv s) (hn : s.pindexNew = none) :
    Stands (.cache .new s.pcoinsTip) s.chainActive := by
  obtain ⟨m,hm,hv⟩ := h.tip
  rw [coinsTip_idle hn] at hm hv
  exact ⟨m,hm,Holds.newCache hv.ok hv.coins hv.best⟩

/-- What `ConnectBlock` makes of a new cache in front of `pcoinsTip`. -/
theorem Inv.connectOn (h : Inv s) (hn : s.pindexNew = none) {r : S.BlockRecord}
    (hp : r.pindex.pprev = s.chainActive) :
    Meets (fun _ => True) (connectOn S s.pcoinsTip r) fun x =>
      (∃ v, r.pindex.replay = .ok (v,x.2)) ∧ ∃ v, x.1.flushInto = some v ∧
        Stands v (some r.pindex) ∧ v.depth = 1 ∧ v.bottom = s.pcoinsTip.bottom := by
  have hstands : Stands (.cache .new s.pcoinsTip) r.pindex.pprev := by
    rw [hp]
    exact h.newCache hn
  have hconnected := hstands.connected r.undo.isSome
  obtain ⟨_,-,hview⟩ := hstands
  have hkept := @NodeEnv.connectBlock_keeps env _ (.cache .new s.pcoinsTip)
    ((kept_depth 2).and (kept_bottom s.pcoinsTip.bottom)) _ _ hview
    ⟨by simp only [CCoinsView.depth,h.depth],rfl⟩ (S.block r.pindex.1)
    (S.connectIndex r.pindex r.undo.isSome)
  unfold Chainstate.connectOn
  apply (hconnected.and hkept).mono
  rintro ⟨v,undo⟩ ⟨⟨⟨m,hm,hv⟩,hreplay⟩,⟨hdepth,hbottom⟩,⟨w,hset⟩,-⟩
  obtain ⟨v',hflush,hv',hdepth',hbottom'⟩ := flushInto_spec hv hdepth r.pindex.hash_ne hset
  exact ⟨hreplay,v',hflush,⟨m,hm,hv'⟩,hdepth',by rw [hbottom',hbottom]⟩

theorem Inv.connectTip (h : Inv s) (hn : s.pindexNew = none) {k : Uint256} {r : S.BlockRecord}
    (hr : s.mapBlockIndex k = some r) (hs : s.connectTip r none = .ok s') : Inv s' := by
  obtain ⟨_,hp,hs⟩ := bind_ok_iff.mp hs
  rw [ensure_ok_iff,decide_eq_true_eq] at hp
  obtain ⟨_,-,hs⟩ := bind_ok_iff.mp hs
  obtain ⟨⟨v,undo⟩,hc,hs⟩ := bind_ok_iff.mp hs
  obtain ⟨pcoinsTip,hf,hs⟩ := bind_ok_iff.mp hs
  rw [orThrow_ok_iff] at hf
  obtain rfl := Except.ok.inj hs
  obtain ⟨⟨v₀,hreplay⟩,v',hf',hstands,hdepth,hbottom⟩ := (h.connectOn hn hp).result hc
  obtain rfl := Option.some.inj (hf.symm.trans hf')
  obtain ⟨hinv,hrecorded⟩ := h.writeUndo hr hreplay
  obtain ⟨hcoins,hactive,hnew⟩ := writeUndo_eq s r undo
  have hcomplete : Complete (s.writeUndo r undo).mapBlockIndex r.pindex.pprev := by
    have hold := hinv.complete
    rwa [coinsTip_idle (hnew.trans hn),hactive,← hp] at hold
  refine ⟨hdepth,hstands,hcomplete.child hrecorded,?_,hinv.memory,hinv.database,hinv.clean,
    hinv.grows⟩
  have hsaved := hinv.saved
  rw [hcoins,← hbottom] at hsaved
  exact hsaved

theorem Inv.connectTipFails (h : Inv s) (hn : s.pindexNew = none) {k : Uint256}
    {r : S.BlockRecord} (hr : s.mapBlockIndex k = some r) (hs : s.connectTipFails r = .ok s') :
    Inv s' := by
  obtain ⟨_,hp,hs⟩ := bind_ok_iff.mp hs
  rw [ensure_ok_iff,decide_eq_true_eq] at hp
  obtain ⟨x,hc,hs⟩ := bind_ok_iff.mp hs
  obtain rfl := Except.ok.inj hs
  obtain ⟨⟨v₀,hreplay⟩,-⟩ := (h.connectOn hn hp).result hc
  exact (h.writeUndo hr hreplay).1

/-- `DisconnectTip` goes through for every tip with a parent, and leads to the parent. -/
theorem Inv.disconnectTip_ok (h : Inv s) (hn : s.pindexNew = none) {e p : S.Entry}
    (he : s.chainActive = some e) (hp : e.pprev = some p) :
    ∃ v, s.disconnectTip = .ok { s with pcoinsTip := v, pindexNew := some (some p) } ∧
      Stands v (some p) ∧ v.depth = 1 ∧ v.bottom = s.pcoinsTip.bottom := by
  have hstands := h.newCache hn
  have hcomplete := h.complete
  rw [coinsTip_idle hn] at hcomplete
  rw [he] at hstands hcomplete
  obtain ⟨r,hr,-,hundo⟩ := hcomplete.record h.memory (CBlockIndex.self_mem_ancestors e.1)
  obtain ⟨u,v₀,hu,hreplay⟩ := hundo (by rw [hp]; exact Option.some_ne_none p)
  obtain ⟨v₁,hd,m,hm,hv₁⟩ := hstands.disconnectBlock hp hreplay
  have hkept := @NodeEnv.disconnectBlock_keeps _ (.cache .new s.pcoinsTip) env
    ((kept_depth 2).and (kept_bottom s.pcoinsTip.bottom))
    ⟨by simp only [CCoinsView.depth,h.depth],rfl⟩ (S.block e.1) (S.connectIndex e true) u
  obtain ⟨⟨hdepth,hbottom⟩,q,hq,w,hset⟩ := hkept.result hd
  obtain rfl : q = p.hash := by
    simp only [connectIndex,hp,Option.map_some,Option.some.injEq] at hq
    exact hq.symm
  obtain ⟨v₂,hflush,hv₂,hdepth',hbottom'⟩ := flushInto_spec hv₁ hdepth p.hash_ne hset
  refine ⟨v₂,?_,⟨m,hm,hv₂⟩,hdepth',by rw [hbottom',hbottom]⟩
  unfold Chainstate.disconnectTip
  simp only [he,hr,hu,hd,hflush,hstands.best,hp,orThrow_some,ok_bind,ensure_true]
  rfl

/-- A genesis block cannot be disconnected: it has no undo data. -/
theorem Inv.disconnectTip_genesis (h : Inv s) (hn : s.pindexNew = none) {e : S.Entry}
    (he : s.chainActive = some e) (hp : e.pprev = none) : s.disconnectTip = .error .error := by
  have hstands := h.newCache hn
  have hcomplete := h.complete
  rw [coinsTip_idle hn] at hcomplete
  rw [he] at hstands hcomplete
  obtain ⟨r,hr,hpindex,-⟩ := hcomplete.record h.memory (CBlockIndex.self_mem_ancestors e.1)
  have hu : r.undo = none := by
    cases hu : r.undo with
    | none => rfl
    | some u =>
      obtain ⟨v,hreplay⟩ := h.memory.undo _ r u hr hu
      rw [hpindex] at hreplay
      obtain ⟨_,_,_,_,hadv,_⟩ := (replay_advances e).result hreplay
      cases hadv with
      | child hne => exact absurd hp hne
  unfold Chainstate.disconnectTip
  simp only [he,hr,hu,hstands.best,orThrow_some,ok_bind,ensure_true]
  rfl

theorem Inv.disconnectTip (h : Inv s) (hn : s.pindexNew = none) (hs : s.disconnectTip = .ok s') :
    Inv s' := by
  cases he : s.chainActive with
  | none =>
    simp only [Chainstate.disconnectTip,he] at hs
    contradiction
  | some e =>
    cases hp : e.pprev with
    | none =>
      rw [h.disconnectTip_genesis hn he hp] at hs
      contradiction
    | some p =>
      obtain ⟨v,hd,hstands,hdepth,hbottom⟩ := h.disconnectTip_ok hn he hp
      obtain rfl := Except.ok.inj (hd.symm.trans hs)
      have hcomplete := h.complete
      rw [coinsTip_idle hn,he] at hcomplete
      exact ⟨hdepth,hstands,hp ▸ hcomplete.parent,by simpa only [hbottom] using h.saved,h.memory,
        h.database,h.clean,h.grows⟩

theorem Inv.updateTip (h : Inv s) (hs : s.updateTip = some s') : Inv s' := by
  obtain ⟨tip,hn,rfl⟩ := Option.map_eq_some_iff.mp hs
  have htip : s.coinsTip = tip := by rw [coinsTip,hn,Option.getD_some]
  exact ⟨h.depth,htip ▸ h.tip,htip ▸ h.complete,h.saved,h.memory,h.database,h.clean,h.grows⟩

theorem Inv.writeBlockIndex (h : Inv s) (k : Uint256) : Inv (s.writeBlockIndex k) := by
  have hgrows : Grows s.blockIndexDB (s.writeBlockIndex k).blockIndexDB := by
    intro j r hr
    by_cases hj : j = k
    · subst hj
      obtain ⟨r',hr',hu⟩ := h.grows j r hr
      exact ⟨r',by simpa [Chainstate.writeBlockIndex] using hr',hu⟩
    · exact ⟨r,by simpa [Chainstate.writeBlockIndex,hj] using hr,id⟩
  have hrecord : ∀ j r, (s.writeBlockIndex k).blockIndexDB j = some r →
      s.blockIndexDB j = some r ∨ s.mapBlockIndex j = some r := by
    intro j r hr
    by_cases hj : j = k
    · subst hj
      exact .inr (by simpa [Chainstate.writeBlockIndex] using hr)
    · exact .inl (by simpa [Chainstate.writeBlockIndex,hj] using hr)
  obtain ⟨tip,hstands,hcomplete⟩ := h.saved
  refine ⟨h.depth,h.tip,h.complete,⟨tip,hstands,hcomplete.grows hgrows⟩,h.memory,⟨?_,?_⟩,?_,?_⟩
  · intro j r hr
    rcases hrecord j r hr with hd | hm
    · exact h.database.key j r hd
    · exact h.memory.key j r hm
  · intro j r u hr hu
    rcases hrecord j r hr with hd | hm
    · exact h.database.undo j r u hd hu
    · exact h.memory.undo j r u hm hu
  · intro j hj
    by_cases hjk : j = k
    · subst hjk
      simp [Chainstate.writeBlockIndex]
    · have hclean : j ∉ s.setDirtyBlockIndex := by
        intro hmem
        exact hj (by simp [Chainstate.writeBlockIndex,hmem,hjk])
      simpa [Chainstate.writeBlockIndex,hjk] using h.clean j hclean
  · intro j r hr
    rcases hrecord j r hr with hd | hm
    · exact h.grows j r hd
    · exact ⟨r,hm,id⟩

/-- Once every dirty entry is written, the records lead to where the coins are about to be. -/
theorem Inv.flushCoins (h : Inv s) (hd : s.setDirtyBlockIndex = []) (hs : s.flushCoins = some s') :
    Inv s' := by
  obtain ⟨v,hf,rfl⟩ := Option.map_eq_some_iff.mp hs
  obtain ⟨m,hm,hv⟩ := h.tip
  obtain ⟨hv',hdepth,hsaved⟩ := flush_database hv h.depth hf
  have hsame : s.blockIndexDB = s.mapBlockIndex := by
    funext k
    exact h.clean k (by rw [hd]; exact List.not_mem_nil)
  exact ⟨hdepth,⟨m,hm,hv'⟩,h.complete,⟨s.coinsTip,⟨m,hm,hsaved⟩,hsame ▸ h.complete⟩,h.memory,
    h.database,h.clean,h.grows⟩

/-- The start after a crash finds the entry of the best block of the coin database. -/
theorem Inv.restart_stands (h : Inv s) :
    Stands s.restart.pcoinsTip s.restart.chainActive ∧
      Complete s.blockIndexDB s.restart.chainActive := by
  obtain ⟨tip,hstands,hcomplete⟩ := h.saved
  have hbest : s.pcoinsTip.bottom.hashBestChain.getD 0 = bestOf tip := by
    obtain ⟨m,-,hv⟩ := hstands
    rw [← hv.best]
    simp [getBestBlock,CCoinsViewCache.new]
  have htip : s.restart.chainActive = tip := by
    simp only [restart,hbest]
    cases tip with
    | none =>
      cases hr : s.blockIndexDB 0 with
      | none =>
        simp only [bestOf,Option.map_none,Option.getD_none,hr]
      | some r => exact absurd (h.database.key _ r hr) r.pindex.hash_ne
    | some e =>
      obtain ⟨r,hr,hpindex,-⟩ := hcomplete.record h.database (CBlockIndex.self_mem_ancestors e.1)
      simp only [bestOf,Option.map_some,Option.getD_some,hr,hpindex]
  rw [htip]
  exact ⟨hstands,hcomplete⟩

theorem Inv.restart (h : Inv s) : Inv s.restart := by
  obtain ⟨hstands,hcomplete⟩ := h.restart_stands
  exact ⟨rfl,hstands,hcomplete,⟨_,hstands,hcomplete⟩,h.database,h.database,fun _ _ => rfl,
    Grows.refl _⟩

theorem toOption_eq_some {α : Type} {x : Validation α} {a : α} (h : x.toOption = some a) :
    x = .ok a := by
  cases x with
  | error f => contradiction
  | ok b =>
    obtain rfl := Option.some.inj h
    rfl

theorem Inv.step (h : Inv s) (e : S.Event) (hs : s.step e = some s') : Inv s' := by
  cases e with
  | addToBlockIndex e => exact h.addToBlockIndex hs
  | readCoins t =>
    obtain rfl := Option.some.inj hs
    exact h.readCoins t
  | readBestBlock =>
    obtain rfl := Option.some.inj hs
    exact h.readBestBlock
  | connectTip k =>
    obtain ⟨hn,hs⟩ := Option.ite_none_right_eq_some.mp hs
    obtain ⟨r,hr,hs⟩ := Option.bind_eq_some_iff.mp hs
    exact h.connectTip (Option.isNone_iff_eq_none.mp hn) hr (toOption_eq_some hs)
  | connectTipFails k =>
    obtain ⟨hn,hs⟩ := Option.ite_none_right_eq_some.mp hs
    obtain ⟨r,hr,hs⟩ := Option.bind_eq_some_iff.mp hs
    exact h.connectTipFails (Option.isNone_iff_eq_none.mp hn) hr (toOption_eq_some hs)
  | disconnectTip =>
    obtain ⟨hn,hs⟩ := Option.ite_none_right_eq_some.mp hs
    exact h.disconnectTip (Option.isNone_iff_eq_none.mp hn) (toOption_eq_some hs)
  | updateTip => exact h.updateTip hs
  | writeBlockIndex k =>
    obtain ⟨-,hs⟩ := Option.ite_none_right_eq_some.mp hs
    obtain rfl := Option.some.inj hs
    exact h.writeBlockIndex k
  | flushCoins =>
    obtain ⟨hd,hs⟩ := Option.ite_none_right_eq_some.mp hs
    exact h.flushCoins (List.isEmpty_iff.mp hd) hs
  | crash =>
    obtain rfl := Option.some.inj hs
    exact h.restart

theorem Reached.inv (h : Reached s) : Inv s :=
  ReachableBy.invariant Inv h inv_initial fun _ e _ hinv _ hs => hinv.step e hs

end Chainstate
end BlockStore

end Anoncoin
