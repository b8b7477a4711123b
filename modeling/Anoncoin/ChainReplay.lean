import Anoncoin.Chainstate
import Anoncoin.ConnectAgreement
import Anoncoin.ConnectFrame
import Anoncoin.ConnectSafety

/-!
The replay of a branch: its blocks connected one after the other from an empty database on.
`ConnectBlock` and `DisconnectBlock` on a view that answers as the replay does lead to views
that answer as the replays of the child and of the parent do.
-/

set_option autoImplicit false

namespace Anoncoin
open Lib

namespace CCoinsView
variable {v : CCoinsView} {m : PlainCoins} {best : Uint256}

theorem getCoins_bottom (v : CCoinsView) (t : Uint256) : (v.getCoins t).2.bottom = v.bottom := by
  induction v with
  | db d => rfl
  | cache l base ih =>
    simp only [getCoins]
    split
    · rfl
    · split
      · rename_i base' hb
        rw [hb] at ih
        exact ih
      · rename_i tmp base' hb
        rw [hb] at ih
        exact ih

theorem getBestBlock_bottom (v : CCoinsView) : v.getBestBlock.2.bottom = v.bottom := by
  induction v with
  | db d => rfl
  | cache l base ih =>
    simp only [getBestBlock]
    split
    · exact ih
    · rfl

/-- Nothing that is read or modified through a cache gets to the database. -/
theorem kept_bottom (d : CCoinsViewDB) : Kept fun v => v.bottom = d where
  access v t hv := by rw [accessCoins,getCoins_bottom,hv]
  best v hv := by rw [getBestBlock_bottom,hv]
  modify v t body a v' hv hr := by
    obtain ⟨l,l',base,base',rfl,rfl,-,hbase⟩ := modifyCoins_shape hr
    rcases hbase with rfl | rfl
    · exact hv
    · rw [bottom,getCoins_bottom]
      exact hv
  setBest v b v' hv hr := by
    cases v with
    | db d => contradiction
    | cache l base =>
      obtain rfl := Option.some.inj hr
      exact hv

theorem Kept.and {p q : CCoinsView → Prop} (hp : Kept p) (hq : Kept q) :
    Kept fun v => p v ∧ q v where
  access v t h := ⟨hp.access v t h.1,hq.access v t h.2⟩
  best v h := ⟨hp.best v h.1,hq.best v h.2⟩
  modify v t body a v' h hr := ⟨hp.modify v t body a v' h.1 hr,hq.modify v t body a v' h.2 hr⟩
  setBest v b v' h hr := ⟨hp.setBest v b v' h.1 hr,hq.setBest v b v' h.2 hr⟩

/-- A new cache in front of a view answers as the view does. -/
theorem Holds.newCache (h : v.Ok) (hc : v.coins = m) (hb : v.getBestBlock.1 = best) :
    (cache .new v).Holds m best where
  ok := ⟨rfl,fun t e he => by simp [CCoinsViewCache.new] at he,h⟩
  depth := Nat.succ_pos _
  coins := by
    rw [← hc]
    funext t
    simp [CCoinsView.coins,CCoinsViewCache.new]
  best := by
    rw [← hb]
    simp [CCoinsView.getBestBlock,CCoinsViewCache.new]

/-- A cache over the coin database. -/
theorem exists_of_depth_one (h : v.depth = 1) : ∃ l d, v = .cache l (.db d) := by
  cases v with
  | db d => simp [depth] at h
  | cache l base =>
    cases base with
    | db d => exact ⟨l,d,rfl⟩
    | cache l' base => simp [depth] at h

theorem exists_of_depth_two (h : v.depth = 2) : ∃ l l' d, v = .cache l (.cache l' (.db d)) := by
  cases v with
  | db d => simp [depth] at h
  | cache l base =>
    obtain ⟨l',d,rfl⟩ := exists_of_depth_one (v := base) (by simpa [depth] using h)
    exact ⟨l,l',d,rfl⟩

/-- A view over `pcoinsTip` that has just been told its best block: its flush makes
`pcoinsTip` answer as the view did, and leaves the database alone. -/
theorem flushInto_spec {w : CCoinsView} (h : v.Holds m best) (hdepth : v.depth = 2)
    (hbest : best ≠ 0) (hset : w.setBestBlock best = some v) :
    ∃ v', v.flushInto = some v' ∧ v'.Holds m best ∧ v'.depth = 1 ∧ v'.bottom = v.bottom := by
  obtain ⟨l,l',d,rfl⟩ := exists_of_depth_two hdepth
  have hl : l.hashBlock = best := by
    cases w with
    | db d => contradiction
    | cache k base =>
      obtain ⟨rfl,-⟩ := cache.inj (Option.some.inj hset)
      rfl
  obtain ⟨base',hflush,hok,hcoins,-⟩ := flush_spec h.ok
  have hwrite : (cache l' (.db d)).batchWrite l.cacheCoins l.hashBlock = some base' := by
    obtain ⟨b,hb,heq⟩ := Option.map_eq_some_iff.mp hflush
    obtain ⟨-,rfl⟩ := cache.inj heq
    exact hb
  simp only [batchWrite] at hwrite
  split at hwrite
  · contradiction
  · obtain ⟨coins,-,rfl⟩ := Option.map_eq_some_iff.mp hwrite
    refine ⟨_,by rw [flushInto,hflush]; rfl,⟨hok.2.2,Nat.zero_lt_one,by rw [hcoins,h.coins],?_⟩,
      rfl,rfl⟩
    simp only [getBestBlock,hl,if_neg hbest]

/-- `Flush` of `pcoinsTip` leaves its answers in the database. -/
theorem flush_database (h : v.Holds m best) (hdepth : v.depth = 1) {v' : CCoinsView}
    (hf : v.flush = some v') :
    v'.Holds m best ∧ v'.depth = 1 ∧ (cache .new (.db v'.bottom)).Holds m best := by
  obtain ⟨l,d,rfl⟩ := exists_of_depth_one hdepth
  obtain ⟨base',hflush,hok,hcoins,-⟩ := flush_spec h.ok
  rw [hf] at hflush
  obtain rfl := Option.some.inj hflush
  have hbase : .db (d.batchWrite l.cacheCoins l.hashBlock) = base' :=
    (cache.inj (Option.some.inj hf)).2
  subst hbase
  have hbest : (CCoinsView.db (d.batchWrite l.cacheCoins l.hashBlock)).getBestBlock.1 = best := by
    have hold := h.best
    simp only [getBestBlock,CCoinsViewDB.batchWrite] at hold ⊢
    split at hold
    · rename_i hzero
      simp only [hzero,ne_eq,not_true_eq_false,if_false]
      exact hold
    · rename_i hne
      simp only [ne_eq,hne,not_false_eq_true,if_true,Option.getD_some]
      exact hold
  have hsame : (CCoinsView.db (d.batchWrite l.cacheCoins l.hashBlock)).coins = m := by
    rw [hcoins,h.coins]
  refine ⟨⟨hok,Nat.succ_pos _,?_,?_⟩,rfl,Holds.newCache hok.2.2 hsame hbest⟩
  · rw [← hsame]
    funext t
    simp [CCoinsView.coins]
  · have hold := h.best
    simp only [getBestBlock] at hold hbest ⊢
    split at hold
    · rename_i hzero
      rw [if_pos hzero]
      exact hbest
    · rename_i hne
      rw [if_neg hne]
      exact hold

theorem Holds.sameLedger {w : CCoinsView} (hv : v.Holds m best) (hw : w.Holds m best) :
    SameLedger v w := ⟨m,best,hv,hw⟩

/-- Views of one ledger give the same answers. -/
theorem SameLedger.holds {w : CCoinsView} (h : SameLedger v w) (hw : w.Holds m best) :
    v.Holds m best := by
  obtain ⟨m',best',hv',hw'⟩ := h
  obtain rfl : m' = m := by rw [← hw'.coins,hw.coins]
  obtain rfl : best' = best := by rw [← hw'.best,hw.best]
  exact hv'

end CCoinsView

namespace NodeEnv
open CCoinsView
variable {env : NodeEnv} {v : CCoinsView} {m m' : PlainCoins}

/-- `DisconnectBlock` of a block that has been connected ends well on every view of the ledger
that the block left. -/
theorem BlockConnected.disconnectBlock {block : CBlock} {pindex : ConnectIndex}
    {blockundo : CBlockUndo} (hc : env.BlockConnected block pindex.nHeight m blockundo m')
    (hm : m.Valid) (hh : pindex.nHeight ≠ 0)
    (hinj : ∀ x ∈ block.vtx, ∀ y ∈ block.vtx, env.getTxHash x = env.getTxHash y → x = y)
    (h : v.Holds m' pindex.hashBlock) {p : Uint256} (hp : pindex.pprev = some p) :
    ∃ v', env.disconnectBlock block pindex v blockundo = .ok (true,v') ∧ v'.Holds m p := by
  obtain ⟨hlen,v₁,hr₁,hv₁⟩ := hc.disconnect hm hh hinj h.getBestBlock
  obtain ⟨v₂,hr₂,hv₂⟩ := hv₁.setBestBlock (pindex.prev_ne p hp)
  have hself : (pindex.hashBlock == v.getBestBlock.1) = true := by
    rw [h.best]
    exact beq_self_eq_true _
  refine ⟨v₂,?_,hv₂⟩
  unfold NodeEnv.disconnectBlock
  simp only [hself,hp,hlen,ensure_true,orThrow_some,ok_bind,hr₁,hr₂]
  rfl

end NodeEnv

namespace BlockStore
open CCoinsView
variable {env : NodeEnv} {S : BlockStore env} {m : PlainCoins}

/-- The best block of a view that stands at a tip; zero stands for none. -/
def bestOf (tip : Option S.Entry) : Uint256 := (tip.map Entry.hash).getD 0

theorem connectIndex_pprev (e : S.Entry) (b : Bool) :
    (S.connectIndex e b).pprev.getD 0 = bestOf e.pprev := rfl

theorem block_genesis_iff (e : S.Entry) :
    (S.block e.1).toCBlockHeader.getHash env.hashes env.testNet = env.hashGenesisBlock ↔
      e.pprev = none := by
  rw [S.hash_eq e.1 e.2]
  exact Entry.hash_genesis_iff

/-- Whether there is an undo position already makes no difference, as every write succeeds. -/
theorem connectBlock_undoPos (e : S.Entry) (b b' : Bool) (v : CCoinsView) :
    env.connectBlock (S.block e.1) (S.connectIndex e b) v false =
      env.connectBlock (S.block e.1) (S.connectIndex e b') v false := by
  have hpos : ∀ c : Bool, (c || env.findUndoPos) = true := by
    intro c
    rw [S.undoPos,Bool.or_true]
  have hwrite : ∀ c : Bool, (c || env.writeUndo) = true := by
    intro c
    rw [S.undo,Bool.or_true]
  unfold NodeEnv.connectBlock
  by_cases hg : (S.block e.1).toCBlockHeader.getHash env.hashes env.testNet = env.hashGenesisBlock
  · simp only [if_pos hg]
    rfl
  · have hp : (e.pprev.map Entry.hash).isSome = true := by
      rw [Option.isSome_map,Option.isSome_iff_ne_none]
      exact fun h => hg ((block_genesis_iff e).mpr h)
    simp only [if_neg hg,connectIndex,hpos,hwrite,hp,Bool.or_true,ensure_true]
    rfl

/-- The blocks of a branch, one after the other: on the view of its parent. -/
theorem replay_child {e p : S.Entry} (h : e.pprev = some p) :
    e.replay = p.replay >>= fun r =>
      env.connectBlock (S.block e.1) (S.connectIndex e false) r.1 false := by
  obtain ⟨i,hi⟩ := e
  cases i with
  | genesis d => contradiction
  | child d q =>
    obtain rfl := Option.some.inj h
    rfl

theorem replay_genesis {e : S.Entry} (h : e.pprev = none) :
    e.replay = env.connectBlock (S.block e.1) (S.connectIndex e false) S.initial.pcoinsTip false := by
  obtain ⟨i,hi⟩ := e
  cases i with
  | genesis d => rfl
  | child d q => contradiction

/-- The ledger of a branch: what its replay leaves. -/
def LedgerOf : Option S.Entry → PlainCoins → Prop
  | none, m => m = fun _ => none
  | some e, m => ∃ r, e.replay = .ok r ∧ r.1.Holds m e.hash

theorem LedgerOf.unique {tip : Option S.Entry} {m' : PlainCoins} (h : LedgerOf tip m)
    (h' : LedgerOf tip m') : m = m' := by
  cases tip with
  | none => exact h.trans h'.symm
  | some e =>
    obtain ⟨r,hr,hv⟩ := h
    obtain ⟨r',hr',hv'⟩ := h'
    obtain rfl := Except.ok.inj (hr.symm.trans hr')
    rw [← hv.coins,hv'.coins]

/-- What one block of a branch does to its ledger. -/
inductive Advanced (e : S.Entry) (m : PlainCoins) : Option CBlockUndo → PlainCoins → Prop
  | genesis : e.pprev = none → Advanced e m none m
  | child {blockundo : CBlockUndo} {m' : PlainCoins} : e.pprev ≠ none →
      env.BlockConnected (S.block e.1) e.nHeight m blockundo m' → Advanced e m (some blockundo) m'

theorem Advanced.valid {e : S.Entry} {undo : Option CBlockUndo} {m' : PlainCoins}
    (h : Advanced e m undo m') (hm : m.Valid) : m'.Valid := by
  cases h with
  | genesis => exact hm
  | child hp hc =>
    obtain ⟨p,hp⟩ := Option.ne_none_iff_exists'.mp hp
    have hheight := Entry.nHeight_pprev hp
    exact hc.valid hm (by omega)

/-- A block connected on a view of its parent's ledger advances it. -/
theorem connectBlock_advances (e : S.Entry) (b : Bool) {v : CCoinsView}
    (hv : v.Holds m (bestOf e.pprev)) (hm : m.Valid) :
    Meets (fun _ => True)
      (env.connectBlock (S.block e.1) (S.connectIndex e b) v false) fun r =>
        ∃ m', Advanced e m r.2 m' ∧ r.1.Holds m' e.hash := by
  have hmeets := env.connectBlock_meets hv hm.inRange (S.block e.1) (S.connectIndex e b) false
  apply (hmeets.forget.and (NodeEnv.connectBlock_keeps kept_true hv trivial (S.block e.1)
    (S.connectIndex e b))).mono
  rintro ⟨v',undo⟩ ⟨⟨hgenesis,hblock⟩,-,-,hundo⟩
  rw [block_genesis_iff] at hundo
  cases undo with
  | none => exact ⟨m,.genesis (hundo.mp rfl),hgenesis rfl rfl⟩
  | some blockundo =>
    obtain ⟨-,m',hc,hv'⟩ := hblock blockundo rfl
    exact ⟨m',.child (fun h => by simp [h] at hundo) hc,hv'⟩

theorem initial_holds : S.initial.pcoinsTip.Holds (fun _ => none) (bestOf (none : Option S.Entry)) :=
  Holds.newCache (fun t c hc => by simp at hc) (by funext t; simp [CCoinsView.coins]) rfl

/-- A replay that goes through has gone through for the parent, and has advanced its ledger. -/
theorem replay_advances (e : S.Entry) :
    Meets (fun _ => True) e.replay fun r => ∃ m m', LedgerOf e.pprev m ∧ m.Valid ∧
      Advanced e m r.2 m' ∧ m'.Valid ∧ r.1.Holds m' e.hash := by
  have hempty : PlainCoins.Valid fun _ => none := fun t c hc => by contradiction
  induction e using Entry.induction with
  | genesis e he =>
    rw [replay_genesis he]
    apply (connectBlock_advances e false (he ▸ initial_holds) hempty).mono
    rintro r ⟨m',hadv,hv⟩
    exact ⟨_,m',by rw [he]; rfl,hempty,hadv,hadv.valid hempty,hv⟩
  | child e p hp ih =>
    rw [replay_child hp]
    cases hr : p.replay with
    | error f => trivial
    | ok r₀ =>
      obtain ⟨-,m,-,-,-,hm,hv₀⟩ := ih.result hr
      have hparent : r₀.1.Holds m (bestOf e.pprev) := by
        rw [hp]
        exact hv₀
      apply (connectBlock_advances e false hparent hm).mono
      rintro r ⟨m',hadv,hv⟩
      refine ⟨m,m',?_,hm,hadv,hadv.valid hm,hv⟩
      rw [hp]
      exact ⟨r₀,hr,hv₀⟩

/-- The last block of a branch advanced the ledger of the branch below it. -/
theorem LedgerOf.parent {e : S.Entry} (h : LedgerOf (some e) m) :
    ∃ m₀ undo, LedgerOf e.pprev m₀ ∧ m₀.Valid ∧ Advanced e m₀ undo m ∧ m.Valid := by
  obtain ⟨r,hr,hv⟩ := h
  obtain ⟨m₀,m',hm₀,hvalid,hadv,hvalid',hv'⟩ := (replay_advances e).result hr
  obtain rfl : m = m' := by rw [← hv.coins,hv'.coins]
  exact ⟨m₀,r.2,hm₀,hvalid,hadv,hvalid'⟩

theorem LedgerOf.valid {tip : Option S.Entry} (h : LedgerOf tip m) : m.Valid := by
  cases tip with
  | none =>
    obtain rfl := h
    exact fun t c hc => by contradiction
  | some e =>
    obtain ⟨_,_,-,-,-,hvalid⟩ := h.parent
    exact hvalid

/-- The view answers as the replay of the branch of an entry does. -/
def Replays (v : CCoinsView) (e : S.Entry) : Prop :=
  ∃ r, e.replay = .ok r ∧ v.getBestBlock.1 = e.hash ∧ SameAnswers v r.1

/-- The view stands where the replay of the branch of a tip leads to. -/
def Stands (v : CCoinsView) (tip : Option S.Entry) : Prop :=
  ∃ m, LedgerOf tip m ∧ v.Holds m (bestOf tip)

theorem Stands.replays {v : CCoinsView} {e : S.Entry} (h : Stands v (some e)) : Replays v e := by
  obtain ⟨m,⟨r,hr,hv'⟩,hv⟩ := h
  exact ⟨r,hr,hv.best,(hv.sameLedger hv').answers⟩

theorem Replays.answers {v w : CCoinsView} {e : S.Entry} (h : Replays v e) (h' : Replays w e) :
    SameAnswers v w := by
  obtain ⟨r,hr,-,hv⟩ := h
  obtain ⟨r',hr',-,hw⟩ := h'
  obtain rfl := Except.ok.inj (hr.symm.trans hr')
  exact ⟨hv.1.trans hw.1.symm,fun t => (hv.2 t).trans (hw.2 t).symm⟩

theorem Stands.answers {v w : CCoinsView} {tip : Option S.Entry} (h : Stands v tip)
    (h' : Stands w tip) : SameAnswers v w := by
  obtain ⟨m,hm,hv⟩ := h
  obtain ⟨m',hm',hw⟩ := h'
  obtain rfl := hm.unique hm'
  exact (hv.sameLedger hw).answers

/-- `ConnectBlock` on any view that stands at the parent comes to what the replay comes to. -/
theorem Stands.connectBlock {v : CCoinsView} {e : S.Entry} (h : Stands v e.pprev) (b : Bool) :
    Agrees (fun r r' => r.2 = r'.2 ∧ SameLedger r.1 r'.1)
      (env.connectBlock (S.block e.1) (S.connectIndex e b) v false) e.replay := by
  obtain ⟨m,hm,hv⟩ := h
  rw [connectBlock_undoPos e b false]
  cases hp : e.pprev with
  | none =>
    rw [replay_genesis hp]
    rw [hp] at hm hv
    obtain rfl := hm
    exact NodeEnv.connectBlock_agrees (hv.sameLedger initial_holds) _ _ _
  | some p =>
    rw [replay_child hp]
    rw [hp] at hm hv
    obtain ⟨r,hr,hvr⟩ := hm
    rw [hr]
    exact NodeEnv.connectBlock_agrees (hv.sameLedger hvr) _ _ _

/-- Where the block is connected, the view stands at the block. -/
theorem Stands.connected {v : CCoinsView} {e : S.Entry} (h : Stands v e.pprev) (b : Bool) :
    Meets (fun _ => True) (env.connectBlock (S.block e.1) (S.connectIndex e b) v false) fun r =>
      Stands r.1 (some e) ∧ ∃ v', e.replay = .ok (v',r.2) := by
  cases hr : env.connectBlock (S.block e.1) (S.connectIndex e b) v false with
  | error f => trivial
  | ok r =>
    obtain ⟨r',hr',hundo,hsame⟩ := (h.connectBlock b).ok_left hr
    obtain ⟨-,m',-,-,-,-,hv'⟩ := (replay_advances e).result hr'
    refine ⟨⟨m',⟨r',hr',hv'⟩,hsame.holds hv'⟩,r'.1,?_⟩
    rw [hr',hundo]

/-- `DisconnectBlock` with the undo data of the replay leads back to the parent. -/
theorem Stands.disconnectBlock {v v₀ : CCoinsView} {e p : S.Entry} (h : Stands v (some e))
    (hp : e.pprev = some p) {undo : CBlockUndo} (hundo : e.replay = .ok (v₀,some undo)) :
    ∃ v', env.disconnectBlock (S.block e.1) (S.connectIndex e true) v undo = .ok (true,v') ∧
      Stands v' (some p) := by
  obtain ⟨m',hm',hv⟩ := h
  obtain ⟨m,m₁,hm,hvalid,hadv,-,hv₁⟩ := (replay_advances e).result hundo
  obtain rfl : m' = m₁ := hm'.unique ⟨_,hundo,hv₁⟩
  have hheight := Entry.nHeight_pprev hp
  cases hadv with
  | child _ hc =>
    have hprev : (S.connectIndex e true).pprev = some p.hash := by
      simp only [connectIndex,hp,Option.map_some]
    have hc' : env.BlockConnected (S.block e.1) (S.connectIndex e true).nHeight m undo m' := hc
    obtain ⟨v',hr,hv'⟩ := hc'.disconnectBlock hvalid (by simp only [connectIndex]; omega)
      (S.txids e.1 e.2) hv hprev
    refine ⟨v',hr,m,?_,hv'⟩
    rw [← hp]
    exact hm

end BlockStore

end Anoncoin
