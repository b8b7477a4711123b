import Anoncoin.KeyPool
import Anoncoin.Locator

/-!
The start of the wallet: `LoadWallet` and `ScanForWalletTransactions` (wallet.cpp), step 8 of
`AppInit2` (init.cpp) without `-rescan`.
-/

set_option autoImplicit false

namespace Anoncoin

namespace CChain

def next (c : CChain) (pindex : CBlockIndex) : Option CBlockIndex :=
  if c.contains pindex then c.get (pindex.nHeight+1) else none

end CChain

/-- What the start-up reads of the wallet: its keys, the locator of the file, and the time of
its first key. -/
structure WalletFile where
  keys : KeyPoolWallet
  bestBlock : Option (List Uint256)
  nTimeFirstKey : Int

/-- A key that is made lowers the time of the first key. -/
def firstKeyTime (nTimeFirstKey nCreationTime : Int) : Int :=
  if nTimeFirstKey = 0 ∨ nCreationTime < nTimeFirstKey then nCreationTime else nTimeFirstKey

/-- The test of the first loop of `ScanForWalletTransactions`. -/
def BeforeBirthday (nTimeFirstKey : Int) (pindex : CBlockIndex) : Prop :=
  nTimeFirstKey ≠ 0 ∧ (pindex.getBlockTime : Int) < nTimeFirstKey-7200

instance (nTimeFirstKey : Int) (pindex : CBlockIndex) :
    Decidable (BeforeBirthday nTimeFirstKey pindex) := by
  unfold BeforeBirthday
  infer_instance

namespace CChain

/-- The loop that skips what is older than the wallet. -/
def skipLoop (c : CChain) (nTimeFirstKey : Int) :
    Nat → Option CBlockIndex → Option CBlockIndex
  | fuel+1, some pindex =>
      if BeforeBirthday nTimeFirstKey pindex then skipLoop c nTimeFirstKey fuel (c.next pindex)
      else some pindex
  | _, _ => none

/-- The blocks whose transactions `AddToWalletIfInvolvingMe` is given. -/
def scanLoop (c : CChain) : Nat → Option CBlockIndex → List CBlockIndex
  | fuel+1, some pindex => pindex :: scanLoop c fuel (c.next pindex)
  | _, _ => []

def scanForWalletTransactions (c : CChain) (nTimeFirstKey : Int)
    (pindexStart : Option CBlockIndex) : List CBlockIndex :=
  c.scanLoop c.vChain.length (c.skipLoop nTimeFirstKey c.vChain.length pindexStart)

end CChain

/-- What the start-up finds: the active chain and the block index, the source of keys and the
times at which they are made. -/
structure WalletStart where
  chainActive : CChain
  node : NodeState
  pskip : CBlockIndex → Option CBlockIndex
  source : KeySource
  getTime : Nat → Int

namespace WalletStart
variable (start : WalletStart)

def getLocator : List Uint256 := start.chainActive.getLocator start.pskip

def findFork (locator : List Uint256) : Option CBlockIndex :=
  start.node.findForkInGlobalIndex start.chainActive locator

/-- The value that `LoadWallet` assigns to its parameter `fFirstRunRet`. -/
def loadWallet (w : WalletFile) : Bool := !w.keys.vchDefaultKey.isValid

def getKeyFromPool (w : WalletFile) : Except KeyPoolError (Option CPubKey × WalletFile) :=
  (w.keys.getKeyFromPool start.source).map fun r => (r.1,{ w with
    keys := r.2
    nTimeFirstKey := ((List.range' w.keys.nMade (r.2.nMade-w.keys.nMade)).map
      start.getTime).foldl firstKeyTime w.nTimeFirstKey })

def setDefaultKey (w : WalletFile) (newDefaultKey : Option CPubKey) : WalletFile :=
  { w with keys := { w.keys with
      vchDefaultKey := newDefaultKey.getD w.keys.vchDefaultKey } }

/-- The branch of a first run. -/
def firstRun (w : WalletFile) : Except KeyPoolError WalletFile :=
  (start.getKeyFromPool w).map fun r =>
    { setDefaultKey r.2 r.1 with bestBlock := some start.getLocator }

def pindexRescan (w : WalletFile) : Option CBlockIndex :=
  match w.bestBlock with
  | some locator => start.findFork locator
  | none => start.chainActive.genesis

/-- The scanned blocks, and the wallet with its new locator. -/
def rescan (w : WalletFile) : List CBlockIndex × WalletFile :=
  if start.chainActive.tip.isSome ∧ start.chainActive.tip ≠ start.pindexRescan w then
    (start.chainActive.scanForWalletTransactions w.nTimeFirstKey (start.pindexRescan w),
      { w with bestBlock := some start.getLocator })
  else ([],w)

def startupWith (fFirstRun : Bool) (w : WalletFile) :
    Except KeyPoolError (List CBlockIndex × WalletFile) :=
  (if fFirstRun then start.firstRun w else .ok w).map start.rescan

/-- `LoadWallet` has its flag by value, so that `fFirstRun` is still what it was set to. -/
def startup (w : WalletFile) : Except KeyPoolError (List CBlockIndex × WalletFile) :=
  start.startupWith true w

/-- A block of the active chain above the fork point of the stored locator which is not too
old for the keys of the wallet. -/
def ConnectedSince (w : WalletFile) (b : CBlockIndex) : Prop :=
  start.chainActive.contains b = true ∧ ¬BeforeBirthday w.nTimeFirstKey b ∧
    ∃ locator ∈ w.bestBlock, ∃ fork ∈ start.findFork locator, fork.nHeight < b.nHeight

/-- Every such block is scanned. -/
def CatchesUp (w : WalletFile) : Prop :=
  ∀ b, start.ConnectedSince w b → ∃ r, start.startup w = .ok r ∧ b ∈ r.1

end WalletStart

namespace CChain
variable {tip i : CBlockIndex}

theorem next_pathTo (hi : i ∈ tip.ancestors) :
    (pathTo tip).next i = tip.ancestorAt (i.nHeight+1) := by
  unfold next
  rw [if_pos ((pathTo_contains tip i).mpr hi),pathTo_get]

/-- Above the block there is nothing, or the block behind it. -/
theorem next_cases (hi : i ∈ tip.ancestors) :
    ((pathTo tip).next i = none ∧ i = tip) ∨
      ∃ j, (pathTo tip).next i = some j ∧ j ∈ tip.ancestors ∧ j.nHeight = i.nHeight+1 := by
  rw [next_pathTo hi]
  cases hj : tip.ancestorAt (i.nHeight+1) with
  | some j => exact .inr ⟨j,rfl,CBlockIndex.ancestorAt_eq_some.mp hj⟩
  | none =>
    refine .inl ⟨rfl,?_⟩
    have hle := CBlockIndex.nHeight_le_of_mem_ancestors hi
    by_cases heq : i.nHeight = tip.nHeight
    · exact CBlockIndex.ancestors_eq_of_nHeight hi (CBlockIndex.self_mem_ancestors tip) heq
    · obtain ⟨j,hj'⟩ := @CBlockIndex.exists_ancestorAt tip (i.nHeight+1) (by omega)
      rw [hj] at hj'
      contradiction

theorem mem_scanLoop {fuel : Nat} {b : CBlockIndex} (hi : i ∈ tip.ancestors)
    (hfuel : tip.nHeight < i.nHeight+fuel) :
    b ∈ (pathTo tip).scanLoop fuel (some i) ↔
      b ∈ tip.ancestors ∧ i.nHeight ≤ b.nHeight := by
  induction fuel generalizing i with
  | zero =>
    have := CBlockIndex.nHeight_le_of_mem_ancestors hi
    omega
  | succ fuel ih =>
    have hsame (hb : b ∈ tip.ancestors) (heq : b.nHeight = i.nHeight) : b = i :=
      CBlockIndex.ancestors_eq_of_nHeight hb hi heq
    unfold scanLoop
    rw [List.mem_cons]
    rcases next_cases hi with ⟨hnone,rfl⟩ | ⟨j,hj,hmem,hheight⟩
    · rw [hnone]
      constructor
      · rintro (rfl | hb)
        · exact ⟨hi,le_refl _⟩
        · cases fuel <;> simp [scanLoop] at hb
      · rintro ⟨hb,hle⟩
        have := CBlockIndex.nHeight_le_of_mem_ancestors hb
        exact .inl (hsame hb (by omega))
    · rw [hj,ih hmem (by omega)]
      constructor
      · rintro (rfl | ⟨hb,hle⟩)
        · exact ⟨hi,le_refl _⟩
        · exact ⟨hb,by omega⟩
      · rintro ⟨hb,hle⟩
        by_cases heq : b.nHeight = i.nHeight
        · exact .inl (hsame hb heq)
        · exact .inr ⟨hb,by omega⟩

/-- The first loop goes to the first block that is not older than the wallet. -/
theorem skipLoop_pathTo {fuel : Nat} {nTimeFirstKey : Int} {b : CBlockIndex}
    (hi : i ∈ tip.ancestors) (hfuel : tip.nHeight < i.nHeight+fuel) (hb : b ∈ tip.ancestors)
    (hle : i.nHeight ≤ b.nHeight) (hdue : ¬BeforeBirthday nTimeFirstKey b) :
    ∃ j, (pathTo tip).skipLoop nTimeFirstKey fuel (some i) = some j ∧ j ∈ tip.ancestors ∧
      j.nHeight ≤ b.nHeight := by
  induction fuel generalizing i with
  | zero =>
    have := CBlockIndex.nHeight_le_of_mem_ancestors hi
    omega
  | succ fuel ih =>
    unfold skipLoop
    by_cases hold : BeforeBirthday nTimeFirstKey i
    · have hne : i.nHeight ≠ b.nHeight := by
        intro heq
        rw [CBlockIndex.ancestors_eq_of_nHeight hi hb heq] at hold
        exact hdue hold
      have hbtip := CBlockIndex.nHeight_le_of_mem_ancestors hb
      rw [if_pos hold]
      rcases next_cases hi with ⟨-,rfl⟩ | ⟨j,hj,hmem,hheight⟩
      · omega
      · rw [hj]
        exact ih hmem (by omega) (by omega)
    · rw [if_neg hold]
      exact ⟨i,rfl,hi,hle⟩

/-- The scan visits every block from its start on that is not older than the wallet. -/
theorem mem_scan {nTimeFirstKey : Int} {b : CBlockIndex} (hi : i ∈ tip.ancestors)
    (hb : b ∈ tip.ancestors) (hle : i.nHeight ≤ b.nHeight)
    (hdue : ¬BeforeBirthday nTimeFirstKey b) :
    b ∈ (pathTo tip).scanForWalletTransactions nTimeFirstKey (some i) := by
  unfold scanForWalletTransactions
  rw [length_pathTo]
  obtain ⟨j,hj,hmem,hlow⟩ :=
    @skipLoop_pathTo tip i (tip.nHeight+1) nTimeFirstKey b hi (by omega) hb hle hdue
  rw [hj]
  exact (mem_scanLoop hmem (by omega)).mpr ⟨hb,hlow⟩

end CChain

namespace WalletStart
variable {start : WalletStart} {w : WalletFile}

theorem firstRun_bestBlock {w' : WalletFile} (h : start.firstRun w = .ok w') :
    w'.bestBlock = some start.getLocator := by
  unfold firstRun at h
  cases hkey : start.getKeyFromPool w with
  | error e =>
    rw [hkey] at h
    contradiction
  | ok r =>
    rw [hkey] at h
    cases h
    rfl

/-- A wallet whose locator leads to the tip is not scanned. -/
theorem rescan_of_tip (h : start.pindexRescan w = start.chainActive.tip) :
    start.rescan w = ([],w) := by
  unfold rescan
  rw [h]
  simp

/-- With the tip in the block index, its own locator leads to it. -/
theorem findFork_getLocator {tip : CBlockIndex} (hc : start.chainActive = .pathTo tip)
    (hfind : start.node.findByFakeHash tip.data.fakeBIhash = some tip) :
    start.findFork start.getLocator = some tip := by
  have htip : start.chainActive.contains tip = true := by
    rw [hc]
    exact (CChain.pathTo_contains tip tip).mpr (CBlockIndex.self_mem_ancestors tip)
  obtain ⟨vHave,hlocator⟩ := @CChain.getLocator_pathTo start.pskip tip
  unfold findFork getLocator
  rw [hc,hlocator,← hc]
  exact NodeState.findForkInGlobalIndex_head hfind htip vHave

/-- The first run writes the locator of the tip, and nothing is scanned. -/
theorem startup_scans_nothing {tip : CBlockIndex} {r : List CBlockIndex × WalletFile}
    (hc : start.chainActive = .pathTo tip)
    (hfind : start.node.findByFakeHash tip.data.fakeBIhash = some tip)
    (h : start.startup w = .ok r) : r.1 = [] := by
  unfold startup startupWith at h
  rw [if_pos rfl] at h
  cases hrun : start.firstRun w with
  | error e =>
    rw [hrun] at h
    contradiction
  | ok w' =>
    rw [hrun] at h
    cases h
    have hrescan : start.pindexRescan w' = start.chainActive.tip := by
      unfold pindexRescan
      rw [firstRun_bestBlock hrun,hc,CChain.pathTo_tip]
      exact findFork_getLocator hc hfind
    rw [rescan_of_tip hrescan]

/-- Were the flag handed back, a wallet with a default key would miss nothing. -/
theorem catchesUp_of_loadWallet {tip b : CBlockIndex} (hc : start.chainActive = .pathTo tip)
    (hkey : w.keys.vchDefaultKey.isValid = true) (hb : start.ConnectedSince w b) :
    ∃ r, start.startupWith (loadWallet w) w = .ok r ∧ b ∈ r.1 := by
  obtain ⟨hmem,hdue,locator,hlocator,fork,hfork,habove⟩ := hb
  have hflag : loadWallet w = false := by
    unfold loadWallet
    rw [hkey]
    rfl
  have hrescan : start.pindexRescan w = some fork := by
    unfold pindexRescan
    rw [Option.mem_def.mp hlocator]
    exact hfork
  rw [hc,CChain.pathTo_contains] at hmem
  have hforkmem : fork ∈ tip.ancestors := by
    unfold findFork at hfork
    rw [hc] at hfork
    exact NodeState.findForkInGlobalIndex_mem hfork
  have hne : tip ≠ fork := by
    rintro rfl
    have := CBlockIndex.nHeight_le_of_mem_ancestors hmem
    omega
  refine ⟨start.rescan w,?_,?_⟩
  · unfold startupWith
    rw [hflag]
    rfl
  · unfold rescan
    rw [hrescan,hc,CChain.pathTo_tip]
    simp only [Option.isSome_some,ne_eq,Option.some.injEq,hne,not_false_eq_true,and_self,if_true]
    exact CChain.mem_scan hforkmem hmem (by omega) hdue

/-- The start scans no block, so that it catches up exactly where no block was connected. -/
theorem catchesUp_iff {tip : Option CBlockIndex}
    (hc : start.chainActive = (⟨[]⟩ : CChain).setTip tip)
    (hfind : ∀ i ∈ tip, start.node.findByFakeHash i.data.fakeBIhash = some i) :
    start.CatchesUp w ↔ ∀ b, ¬start.ConnectedSince w b := by
  constructor
  · intro h b hb
    obtain ⟨r,hr,hmem⟩ := h b hb
    cases tip with
    | none =>
      have hcontains := hb.1
      rw [hc] at hcontains
      simp [CChain.setTip,CChain.contains,CChain.get] at hcontains
    | some tip =>
      rw [CChain.setTip_empty] at hc
      rw [startup_scans_nothing hc (hfind tip rfl) hr] at hmem
      exact List.not_mem_nil hmem
  · intro h b hb
    exact absurd hb (h b)

end WalletStart

def scanGenesis : CBlockIndex := .genesis ⟨1,0,0,0,0,1,1⟩

def scanTip : CBlockIndex := .child ⟨2,0,600,0,0,2,2⟩ scanGenesis

/-- Two blocks, of which the index knows both. -/
def twoBlocks : WalletStart where
  chainActive := .pathTo scanTip
  node := ⟨fun r => if r = 1 then some scanGenesis else if r = 2 then some scanTip else none,
    fun f => some f,fun _ => false,some scanTip⟩
  pskip := fun _ => none
  source := lengthKeys 0
  getTime := fun _ => 1200

/-- A wallet with one key, which was written when the chain was at the block of `vHave`. -/
def writtenAt (vHave : List Uint256) : WalletFile where
  keys := { KeyPoolWallet.create with
    haveKey := [(lengthKeys 0).getID ((lengthKeys 0).newKey 0)]
    vchDefaultKey := (lengthKeys 0).newKey 0
    nMade := 1 }
  bestBlock := some vHave
  nTimeFirstKey := 1

namespace WalletStart

theorem catchesUp_at_tip : twoBlocks.CatchesUp (writtenAt [2,1]) := by
  refine (@catchesUp_iff twoBlocks (writtenAt [2,1]) (some scanTip) (by rfl) ?_).mpr ?_
  · intro i hi
    obtain rfl := Option.some.inj hi
    decide
  · rintro b ⟨hmem,-,locator,hlocator,fork,hfork,habove⟩
    obtain rfl := Option.some.inj hlocator
    have htip : twoBlocks.findFork [2,1] = some scanTip := by decide
    rw [htip] at hfork
    obtain rfl := Option.some.inj hfork
    have hle := CBlockIndex.nHeight_le_of_mem_ancestors
      ((CChain.pathTo_contains scanTip b).mp hmem)
    omega

/-- The wallet was written at genesis; the block connected since then is not scanned, and the
new locator has the wallet behind it. -/
theorem connected_block_missed :
    (∃ w, twoBlocks.startup (writtenAt [1]) = .ok ([],w) ∧ w.bestBlock = some [2,1]) ∧
      (writtenAt [1]).keys.vchDefaultKey.isValid = true ∧
      twoBlocks.ConnectedSince (writtenAt [1]) scanTip ∧
      ¬twoBlocks.CatchesUp (writtenAt [1]) := by
  have hrun : ∃ w, twoBlocks.startup (writtenAt [1]) = .ok ([],w) ∧ w.bestBlock = some [2,1] :=
    ⟨_,rfl,rfl⟩
  have hsince : twoBlocks.ConnectedSince (writtenAt [1]) scanTip :=
    ⟨by decide,by decide,[1],rfl,scanGenesis,by decide,by decide⟩
  refine ⟨hrun,by decide,hsince,?_⟩
  intro h
  obtain ⟨w,hw,-⟩ := hrun
  obtain ⟨r,hr,hmem⟩ := h scanTip hsince
  rw [hw] at hr
  obtain rfl := Except.ok.inj hr
  exact List.not_mem_nil hmem

end WalletStart

end Anoncoin
