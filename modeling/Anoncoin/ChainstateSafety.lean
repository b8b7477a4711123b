import Mathlib.Algebra.Order.BigOperators.Group.Finset
import Anoncoin.ChainstateRuns

/-!
What the invariant of the chain state is good for: the state does not depend on its history,
a crash costs blocks but never consistency, blocks can always be taken off again, and no
detour over other branches creates coins.
-/

set_option autoImplicit false

namespace Anoncoin
open Lib

namespace BlockStore.Chainstate
open CCoinsView
variable {env : NodeEnv} {S : BlockStore env} {s s' : S.Chainstate}

theorem Inv.replays (h : Inv s) {e : S.Entry} (he : s.coinsTip = some e) :
    Replays s.pcoinsTip e :=
  Stands.replays (he ▸ h.tip)

/-- The loop of `FlushStateToDisk` over the dirty entries writes what is in memory. -/
theorem Inv.writeEntries (h : Inv s) (entries : List Uint256) :
    Inv (entries.foldl Chainstate.writeBlockIndex s) ∧
      (entries.foldl Chainstate.writeBlockIndex s).mapBlockIndex = s.mapBlockIndex ∧
      (entries.foldl Chainstate.writeBlockIndex s).chainActive = s.chainActive ∧
      (entries.foldl Chainstate.writeBlockIndex s).pindexNew = s.pindexNew ∧
      (entries.foldl Chainstate.writeBlockIndex s).setDirtyBlockIndex =
        s.setDirtyBlockIndex.filter fun k => k ∉ entries := by
  induction entries generalizing s with
  | nil => exact ⟨h,rfl,rfl,rfl,by simp⟩
  | cons k rest ih =>
    obtain ⟨hinv,hindex,hactive,hnew,hdirty⟩ := ih (h.writeBlockIndex k)
    refine ⟨hinv,hindex,hactive,hnew,?_⟩
    rw [List.foldl_cons,hdirty]
    simp only [Chainstate.writeBlockIndex,List.filter_filter]
    apply List.filter_congr
    intro j _
    by_cases hj : j = k <;> simp [hj]

theorem bestOf_inj {tip tip' : Option S.Entry} (h : bestOf tip = bestOf tip') : tip = tip' := by
  cases tip with
  | none =>
    cases tip' with
    | none => rfl
    | some f => exact absurd h.symm f.hash_ne
  | some e =>
    cases tip' with
    | none => exact absurd h e.hash_ne
    | some f => exact congrArg some (Entry.hash_inj h)

/-- The batch with the coins succeeds, and the database then stands where the coins do. -/
theorem Inv.flushCoins_saves (h : Inv s) (hclean : s.setDirtyBlockIndex = []) :
    ∃ s', s.flushCoins = some s' ∧ Inv s' ∧ s'.restart.chainActive = s.coinsTip := by
  obtain ⟨m,hm,hv⟩ := h.tip
  obtain ⟨l,d,hshape⟩ := exists_of_depth_one h.depth
  rw [hshape] at hv
  obtain ⟨base,hflush,-⟩ := flush_spec hv.ok
  obtain ⟨-,-,hsaved⟩ := flush_database hv rfl hflush
  have hs' : s.flushCoins = some { s with
      pcoinsTip := .cache { l with cacheCoins := ∅ } base } := by
    rw [Chainstate.flushCoins,hshape,hflush]
    rfl
  have hinv := h.flushCoins hclean hs'
  refine ⟨_,hs',hinv,bestOf_inj (S := S) ?_⟩
  obtain ⟨⟨m',-,hr⟩,-⟩ := hinv.restart_stands
  rw [← hr.best]
  exact hsaved.best

theorem Inv.writeEntries_clean (h : Inv s) :
    (s.setDirtyBlockIndex.foldl Chainstate.writeBlockIndex s).setDirtyBlockIndex = [] := by
  obtain ⟨-,-,-,-,hdirty⟩ := h.writeEntries s.setDirtyBlockIndex
  rw [hdirty,List.filter_eq_nil_iff]
  intro k hk
  simpa using hk

/-- `FlushStateToDisk` succeeds, and leaves the index in memory and the tips as they are. -/
theorem Inv.flushStateToDisk_ok (h : Inv s) :
    ∃ s', s.flushStateToDisk = some s' ∧ Inv s' ∧ s'.restart.chainActive = s.coinsTip ∧
      s'.mapBlockIndex = s.mapBlockIndex ∧ s'.chainActive = s.chainActive ∧
      s'.pindexNew = s.pindexNew := by
  obtain ⟨hinv,hindex,hactive,hnew,-⟩ := h.writeEntries s.setDirtyBlockIndex
  obtain ⟨s',hs',hinv',hrestart⟩ := hinv.flushCoins_saves h.writeEntries_clean
  obtain ⟨v,-,rfl⟩ := Option.map_eq_some_iff.mp hs'
  refine ⟨_,hs',hinv',?_,hindex,hactive,hnew⟩
  rw [hrestart,coinsTip,hactive,hnew,coinsTip]

theorem Inv.connectTip_ok (h : Inv s) (hn : s.pindexNew = none) {r : S.BlockRecord}
    (hp : r.pindex.pprev = s.chainActive) {x : CCoinsView × Option CBlockUndo}
    (hc : Chainstate.connectOn S s.pcoinsTip r = .ok x) : ∃ s', s.connectTip r none = .ok s' := by
  obtain ⟨-,v,hflush,-⟩ := (h.connectOn hn hp).result hc
  refine ⟨{ s.writeUndo r x.2 with pcoinsTip := v, pindexNew := some (some r.pindex) },?_⟩
  unfold Chainstate.connectTip
  simp only [hp,decide_true,ensure_true,ok_bind,rejectWith,pure_bind,hc,hflush,orThrow_some]
  rfl

/-- A block is turned down exactly when its `ConnectBlock` turns it down. -/
theorem Inv.connectTip_error_iff (h : Inv s) (hn : s.pindexNew = none) {r : S.BlockRecord}
    (hp : r.pindex.pprev = s.chainActive) {f : Failure} :
    s.connectTip r none = .error f ↔ Chainstate.connectOn S s.pcoinsTip r = .error f := by
  cases hc : Chainstate.connectOn S s.pcoinsTip r with
  | ok x =>
    obtain ⟨s',hs'⟩ := h.connectTip_ok hn hp hc
    simp [hs']
  | error f' =>
    have hfail : s.connectTip r none = .error f' := by
      unfold Chainstate.connectTip
      simp only [hp,decide_true,ensure_true,ok_bind,rejectWith,pure_bind,hc]
      rfl
    rw [hfail]
    simp

theorem Inv.connectOn_error_iff (h : Inv s) (hn : s.pindexNew = none) {r : S.BlockRecord}
    (hp : r.pindex.pprev = s.chainActive) {f : Failure} :
    Chainstate.connectOn S s.pcoinsTip r = .error f ↔ r.pindex.replay = .error f := by
  have hstands : Stands (.cache .new s.pcoinsTip) r.pindex.pprev := by
    rw [hp]
    exact h.newCache hn
  have hagree := hstands.connectBlock r.undo.isSome
  exact ⟨hagree.error_left,hagree.symm.error_left⟩

theorem Inv.connectTip_of_replay (h : Inv s) (hn : s.pindexNew = none) {r : S.BlockRecord}
    (hp : r.pindex.pprev = s.chainActive) (hr : ∃ x, r.pindex.replay = .ok x) :
    ∃ s', s.connectTip r none = .ok s' := by
  cases hc : Chainstate.connectOn S s.pcoinsTip r with
  | ok x => exact h.connectTip_ok hn hp hc
  | error f =>
    obtain ⟨x,hx⟩ := hr
    rw [(h.connectOn_error_iff hn hp).mp hc] at hx
    contradiction

/-- The disk takes its writes and the view stands at the parent, so that it is the block that
is turned down. -/
theorem Inv.connectOn_rejects (h : Inv s) (hn : s.pindexNew = none) {r : S.BlockRecord}
    (hp : r.pindex.pprev = s.chainActive) {f : Failure}
    (hf : Chainstate.connectOn S s.pcoinsTip r = .error f) : Rejection f := by
  obtain ⟨m,hm,hv⟩ := h.newCache hn
  rw [← hp] at hm hv
  have hprev : (S.connectIndex r.pindex r.undo.isSome).pprev.isSome = true ∨
      (S.block r.pindex.1).toCBlockHeader.getHash env.hashes env.testNet =
        env.hashGenesisBlock := by
    rw [block_genesis_iff]
    simp only [connectIndex,Option.isSome_map]
    cases hq : r.pindex.pprev with
    | none => exact .inr rfl
    | some q => exact .inl rfl
  have hends := (NodeEnv.connectBlock_ends hv hm.valid.inRange _ hprev false).fault hf
  cases f with
  | dos level reason => trivial
  | error => exact absurd hends (by simp [NodeEnv.Ends,S.undoPos])
  | abort =>
    rcases hends with hbest | hundo | hindex
    · exact hbest rfl
    · simp [S.undo] at hundo
    · simp [S.txIndex] at hindex
  | assertion => exact hends
  | thrown => exact hends
  | outOfBounds => exact hends
  | overflow => exact hends

end BlockStore.Chainstate

namespace BlockStore
variable {env : NodeEnv} {S : BlockStore env}

/-- The blocks above genesis of a branch, one for each height. -/
def heightOf (tip : Option S.Entry) : Nat := (tip.map Entry.nHeight).getD 0

/-- A branch is worth at most the subsidies of its heights. -/
theorem LedgerOf.total_le {tip : Option S.Entry} {m : PlainCoins} (h : LedgerOf tip m) :
    PlainCoins.total m ≤ ∑ i ∈ Finset.range (heightOf tip), getBlockValue (i+1) 0 := by
  have hempty : PlainCoins.total (fun _ => none) = 0 := by simp [PlainCoins.total]
  cases tip with
  | none =>
    obtain rfl := h
    rw [hempty]
    exact Finset.sum_nonneg fun i _ => NodeEnv.getBlockValue_nonneg (i+1)
  | some e =>
    induction e using Entry.induction generalizing m with
    | genesis e he =>
      obtain ⟨m₀,undo,hm₀,-,hadv,-⟩ := h.parent
      rw [he] at hm₀
      obtain rfl := hm₀
      cases hadv with
      | genesis _ =>
        rw [hempty]
        exact Finset.sum_nonneg fun i _ => NodeEnv.getBlockValue_nonneg (i+1)
      | child hne => exact absurd he hne
    | child e p hp ih =>
      obtain ⟨m₀,undo,hm₀,hvalid,hadv,-⟩ := h.parent
      rw [hp] at hm₀
      have hold := ih hm₀
      have hheight := Entry.nHeight_pprev hp
      cases hadv with
      | genesis hnone => exact absurd (hp.symm.trans hnone) (Option.some_ne_none p)
      | child _ hc =>
        have hadd := hc.total_le hvalid (by omega)
        simp only [heightOf,Option.map_some,Option.getD_some] at hold ⊢
        rw [hheight,Finset.sum_range_succ]
        rw [hheight] at hadd
        omega

/-- No detour creates coins: whatever branches were connected and disconnected and whatever
crashes came, the coins are worth at most the subsidies of the heights up to the tip. -/
theorem Chainstate.Reached.worth_le_subsidies {s : S.Chainstate} (h : s.Reached) :
    PlainCoins.total s.pcoinsTip.coins ≤
      ∑ i ∈ Finset.range (heightOf s.coinsTip), getBlockValue (i+1) 0 := by
  obtain ⟨m,hm,hv⟩ := h.inv.tip
  rw [hv.coins]
  exact hm.total_le

end BlockStore

section Fork

/-! Two blocks on top of one genesis block, for runs that go from one to the other. -/

/-- Hash a header to its nonce. -/
def nonceHash (bytes : List UInt8) : Uint256 := BitVec.ofNat 256 (bytes.getD 76 0).toNat

def forkEnv : NodeEnv :=
  { NodeEnv.openEnv with
    hashes := ⟨nonceHash,nonceHash,nonceHash⟩
    hashGenesisBlock := 1
    blockHeight := fun h => if h = 1 then some 0 else some 1 }

def forkData (nNonce : Nat) : IndexData :=
  ⟨2,0,0,0x1e0ffff0,BitVec.ofNat 32 nNonce,BitVec.ofNat 256 nNonce,BitVec.ofNat 256 nNonce⟩

def forkGenesis : CBlockIndex := .genesis (forkData 1)

def forkEntries : List CBlockIndex :=
  [forkGenesis,.child (forkData 2) forkGenesis,.child (forkData 3) forkGenesis]

/-- A block with a coinbase that is numbered by the nonce. -/
def forkBlock (i : CBlockIndex) : CBlock where
  toCBlockHeader := { CBlockHeader.null with
    nVersion := i.data.nVersion, hashPrevBlock := (i.pprev.map fun p => p.data.fakeBIhash).getD 0
    nBits := i.data.nBits, nNonce := i.data.nNonce }
  vtx := [⟨1,[⟨⟨0,4294967295⟩,[0,0],0⟩],[⟨420000000,[]⟩],i.data.nNonce.toNat⟩]

def forkStore : BlockStore forkEnv where
  known i := i ∈ forkEntries
  block := forkBlock
  pprev d p h := by
    obtain ⟨-,rfl⟩ | ⟨-,rfl⟩ : (d = forkData 2 ∧ p = forkGenesis) ∨
        (d = forkData 3 ∧ p = forkGenesis) := by simpa [forkEntries,forkGenesis] using h
    · decide
    · decide
  hash_ne := (by decide : ∀ i ∈ forkEntries, i.data.hashBlock ≠ 0)
  hash_inj i j hi hj := (by decide : ∀ i ∈ forkEntries, ∀ j ∈ forkEntries,
    i.data.hashBlock = j.data.hashBlock → i = j) i hi j hj
  hash_eq := (by decide : ∀ i ∈ forkEntries, (forkBlock i).toCBlockHeader.getHash forkEnv.hashes
    forkEnv.testNet = i.data.hashBlock)
  genesis_hash d h := (by decide : ∀ i ∈ forkEntries, i.pprev = none →
    i.data.hashBlock = forkEnv.hashGenesisBlock) _ h rfl
  height := (by decide : ∀ i ∈ forkEntries, forkEnv.blockHeight i.data.hashBlock = some i.nHeight)
  txids i _ x hx y hy _ := by
    rw [List.mem_singleton.mp hx,List.mem_singleton.mp hy]
  header _ _ := rfl
  undoPos := rfl
  undo := rfl
  txIndex := rfl

def forkEntry (n : Fin 3) : forkStore.Entry := ⟨forkEntries.get n,List.get_mem forkEntries n⟩

/-- Genesis and the first block connected and flushed, the first block taken off again and the
second one connected. -/
def forkRun : List forkStore.Event :=
  [.addToBlockIndex (forkEntry 0),.connectTip 1,.updateTip,.addToBlockIndex (forkEntry 1),
    .connectTip 2,.updateTip,.writeBlockIndex 2,.writeBlockIndex 1,.flushCoins,
    .disconnectTip,.updateTip,.addToBlockIndex (forkEntry 2),.connectTip 3,.updateTip]

/-- The state after the first `n` events. -/
def forkState (n : Nat) : forkStore.Chainstate :=
  ((forkRun.take n).foldlM BlockStore.Chainstate.step forkStore.initial).getD forkStore.initial

theorem forkState_reached {n : Nat} (h : ((forkRun.take n).foldlM BlockStore.Chainstate.step
    forkStore.initial).isSome = true) : (forkState n).Reached :=
  ReachableBy.of_foldlM .init (by rw [forkState,← Option.some_get h]; rfl)

theorem forkState_no_inflation : PlainCoins.total (forkState 14).pcoinsTip.coins ≤
    ∑ i ∈ Finset.range (BlockStore.heightOf (forkState 14).coinsTip), getBlockValue (i+1) 0 :=
  (forkState_reached (n := 14) (by decide)).worth_le_subsidies

end Fork

end Anoncoin
