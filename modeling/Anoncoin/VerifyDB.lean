import Anoncoin.ChainstateSafety

/-!
`VerifyDB` of main.cpp, the check of the chain state at every start: the last blocks are
checked, disconnected on a cache that is given up afterwards, and connected again.
-/

set_option autoImplicit false

namespace Anoncoin
open Lib

/-- `GetCacheSize`. -/
def CCoinsView.getCacheSize : CCoinsView → Nat
  | .db _ => 0
  | .cache l _ => l.cacheCoins.entries.length

namespace BlockStore
variable {env : NodeEnv} (S : BlockStore env)

/-- The entries from one down to genesis. -/
def path : (i : CBlockIndex) → S.known i → List S.Entry
  | .genesis d, h => [⟨.genesis d,h⟩]
  | .child d p, h => ⟨.child d p,h⟩ :: path p (S.pprev d p h)

variable {S} in
def Entry.path : S.Entry → List S.Entry
  | ⟨i,h⟩ => S.path i h

variable {S} in
/-- The blocks that `VerifyDB` goes through from the tip down, never genesis. -/
def Entry.checkedBlocks (tip : S.Entry) (nCheckDepth : Int) : List S.Entry :=
  let nCheckDepth := if nCheckDepth ≤ 0 then 1000000000 else nCheckDepth
  let nCheckDepth := if (tip.nHeight : Int) < nCheckDepth then (tip.nHeight : Int) else nCheckDepth
  (tip.path.filter fun e => e.pprev.isSome).takeWhile fun e =>
    !decide ((e.nHeight : Int) < tip.nHeight-nCheckDepth)

/-- What the loop of `VerifyDB` over the blocks keeps. -/
structure VerifyState where
  coins : CCoinsView
  pindexState : S.Entry
  pindexFailure : Option S.Entry

end BlockStore

namespace BlockStore.Chainstate
variable {env : NodeEnv} {S : BlockStore env}

/-- Check levels 1 to 3 for one block. A block that fails `CheckBlock`, or that cannot be
disconnected, ends `VerifyDB`; level 2 reads the undo data, which is there to be read wherever
there is an undo position. -/
def verifyBlock (s : S.Chainstate) (nCheckLevel nCoinCacheSize : Nat) (v : S.VerifyState)
    (pindex : S.Entry) : Validation S.VerifyState := do
  let () ← (if 1 ≤ nCheckLevel then env.checkBlock (S.block pindex.1) true true else pure ())
  if 3 ≤ nCheckLevel ∧ pindex = v.pindexState ∧
      v.coins.getCacheSize+(v.coins.sub 1).getCacheSize ≤ 2*nCoinCacheSize+32000 then do
    let r ← orThrow (s.mapBlockIndex pindex.hash) .assertion
    ensure (pindex.hash == v.coins.getBestBlock.1) .assertion
    let blockUndo ← orThrow r.undo .error
    let disconnected ← env.disconnectBlock (S.block pindex.1) (S.connectIndex pindex true) v.coins
      blockUndo
    let pprev ← orThrow pindex.pprev .outOfBounds
    pure ⟨disconnected.2,pprev,if disconnected.1 then v.pindexFailure else some pindex⟩
  else pure v

/-- The loop from the tip down; `shutdown` tells after which blocks it is given up. The answer
is whether it got to its end. -/
def verifyBlocks (s : S.Chainstate) (nCheckLevel nCoinCacheSize : Nat)
    (shutdown : S.Entry → Bool) : S.VerifyState → List S.Entry → Validation (Bool × S.VerifyState)
  | v, [] => pure (true,v)
  | v, pindex :: rest => do
      let v ← s.verifyBlock nCheckLevel nCoinCacheSize v pindex
      if shutdown pindex then pure (false,v)
      else verifyBlocks s nCheckLevel nCoinCacheSize shutdown v rest

/-- Check level 4: the blocks are connected again, lowest first. -/
def reconnectBlocks (S : BlockStore env) (coins : CCoinsView) : List S.Entry → Validation CCoinsView
  | [] => pure coins
  | pindex :: rest => do
      let r ← env.connectBlock (S.block pindex.1) (S.connectIndex pindex true) coins false
      reconnectBlocks S r.1 rest

/-- `VerifyDB`, with the cache that it works on. -/
def verifyDB (s : S.Chainstate) (nCheckLevel nCheckDepth : Int) (nCoinCacheSize : Nat)
    (shutdown : S.Entry → Bool) : Validation CCoinsView :=
  let coins : CCoinsView := .cache .new s.pcoinsTip
  match s.chainActive with
  | none => pure coins
  | some tip =>
      if tip.pprev = none then pure coins
      else do
        let nCheckLevel := (max 0 (min 4 nCheckLevel)).toNat
        let v ← s.verifyBlocks nCheckLevel nCoinCacheSize shutdown ⟨coins,tip,none⟩
          (tip.checkedBlocks nCheckDepth)
        if v.1 then do
          ensure v.2.pindexFailure.isNone .error
          if 4 ≤ nCheckLevel then
            reconnectBlocks S v.2.coins
              (tip.path.takeWhile fun e => e ≠ v.2.pindexState).reverse
          else pure v.2.coins
        else pure v.2.coins

end BlockStore.Chainstate

namespace CCoinsView
variable {m : PlainCoins} {best : Uint256}

/-- What the view under a cache answers is no business of the cache. -/
theorem kept_base (m : PlainCoins) (best : Uint256) :
    Kept fun v => ∃ l base, v = cache l base ∧ base.Holds m best where
  access v t h := by
    obtain ⟨l,base,rfl,hb⟩ := h
    have hacc := (hb.accessCoins t).2
    simp only [accessCoins,getCoins]
    split
    · exact ⟨_,_,rfl,hb⟩
    · split
      · rename_i base' hr
        simp only [accessCoins,hr] at hacc
        exact ⟨_,_,rfl,hacc⟩
      · rename_i tmp base' hr
        simp only [accessCoins,hr] at hacc
        exact ⟨_,_,rfl,hacc⟩
  best v h := by
    obtain ⟨l,base,rfl,hb⟩ := h
    simp only [getBestBlock]
    split
    · exact ⟨_,_,rfl,hb.getBestBlock⟩
    · exact ⟨_,_,rfl,hb⟩
  modify v t body a v' h hr := by
    obtain ⟨l,base,rfl,hb⟩ := h
    obtain ⟨l₀,l',base₀,base',heq,rfl,-,hbase⟩ := modifyCoins_shape hr
    obtain ⟨rfl,rfl⟩ := cache.inj heq
    rcases hbase with rfl | rfl
    · exact ⟨_,_,rfl,hb⟩
    · exact ⟨_,_,rfl,(hb.accessCoins t).2⟩
  setBest v b v' h hr := by
    obtain ⟨l,base,rfl,hb⟩ := h
    obtain rfl := Option.some.inj hr
    exact ⟨_,_,rfl,hb⟩

end CCoinsView

namespace BlockStore
open CCoinsView
variable {env : NodeEnv} {S : BlockStore env}

theorem Entry.path_genesis {e : S.Entry} (h : e.pprev = none) : e.path = [e] := by
  obtain ⟨i,hi⟩ := e
  cases i with
  | genesis d => rfl
  | child d p => contradiction

theorem Entry.path_child {e p : S.Entry} (h : e.pprev = some p) : e.path = e :: p.path := by
  obtain ⟨i,hi⟩ := e
  cases i with
  | genesis d => contradiction
  | child d q =>
    obtain rfl := Option.some.inj h
    rfl

theorem Entry.mem_path {e a : S.Entry} : a ∈ e.path ↔ a.1 ∈ e.1.ancestors := by
  induction e using Entry.induction with
  | genesis e he =>
    rw [path_genesis he,List.mem_singleton]
    refine ⟨fun h => h ▸ CBlockIndex.self_mem_ancestors _,Entry.eq_of_genesis he⟩
  | child e p hp ih =>
    rw [path_child hp,List.mem_cons,ih]
    constructor
    · rintro (rfl | ha)
      · exact CBlockIndex.self_mem_ancestors _
      · exact Entry.mem_of_pprev hp ha
    · exact Entry.eq_or_mem hp

theorem Entry.self_mem_path (e : S.Entry) : e ∈ e.path :=
  Entry.mem_path.mpr (CBlockIndex.self_mem_ancestors _)

theorem Entry.mem_checkedBlocks {tip e : S.Entry} {nCheckDepth : Int}
    (h : e ∈ tip.checkedBlocks nCheckDepth) : e ∈ tip.path ∧ e.pprev.isSome = true := by
  have hfilter := List.takeWhile_subset _ h
  simpa using List.mem_filter.mp hfilter

/-- A branch that can be replayed can be replayed up to each of its blocks. -/
theorem replay_ancestor {e a : S.Entry} (he : ∃ r, e.replay = .ok r) (ha : a ∈ e.path) :
    ∃ r, a.replay = .ok r := by
  induction e using Entry.induction with
  | genesis e hp =>
    rw [Entry.path_genesis hp,List.mem_singleton] at ha
    exact ha ▸ he
  | child e p hp ih =>
    rw [Entry.path_child hp] at ha
    rcases List.mem_cons.mp ha with rfl | ha
    · exact he
    · obtain ⟨r,hr⟩ := he
      rw [replay_child hp] at hr
      obtain ⟨r₀,hr₀,-⟩ := bind_ok_iff.mp hr
      exact ih ⟨r₀,hr₀⟩ ha

/-- `CheckBlock` has no objection to a block of a branch that can be replayed. -/
theorem checkBlock_of_replay {e : S.Entry} (he : ∃ r, e.replay = .ok r) :
    env.checkBlock (S.block e.1) true true = .ok () := by
  have hconnect : ∀ v r, env.connectBlock (S.block e.1) (S.connectIndex e false) v false = .ok r →
      env.checkBlock (S.block e.1) true true = .ok () := by
    intro v r hr
    obtain ⟨u,hu,-⟩ := bind_ok_iff.mp hr
    exact hu
  obtain ⟨r,hr⟩ := he
  cases hp : e.pprev with
  | none =>
    rw [replay_genesis hp] at hr
    exact hconnect _ _ hr
  | some p =>
    rw [replay_child hp] at hr
    obtain ⟨r₀,-,hr⟩ := bind_ok_iff.mp hr
    exact hconnect _ _ hr

namespace Chainstate
variable {s : S.Chainstate}

/-- How far `VerifyDB` has got: its cache stands at `pindexState`, no inconsistency has been
found, and `pcoinsTip` is what it was. -/
structure Verifying (s : S.Chainstate) (tip : S.Entry) (v : S.VerifyState) : Prop where
  stands : Stands v.coins (some v.pindexState)
  path : v.pindexState ∈ tip.path
  clean : v.pindexFailure = none
  base : ∃ m l base, v.coins = .cache l base ∧ LedgerOf s.coinsTip m ∧
    base.Holds m (bestOf s.coinsTip)

theorem replay_of_tip {tip : S.Entry} (hinv : Inv s) (htip : s.coinsTip = some tip) :
    ∃ r, tip.replay = .ok r := by
  obtain ⟨m,hm,-⟩ := hinv.tip
  rw [htip] at hm
  obtain ⟨r,hr,-⟩ := hm
  exact ⟨r,hr⟩

theorem Verifying.disconnected {tip : S.Entry} {v : S.VerifyState} (h : Verifying s tip v)
    (hinv : Inv s) (htip : s.coinsTip = some tip) {p : S.Entry} (hp : v.pindexState.pprev = some p) :
    ∃ r u coins, s.mapBlockIndex v.pindexState.hash = some r ∧ r.undo = some u ∧
      (v.pindexState.hash == v.coins.getBestBlock.1) = true ∧
      env.disconnectBlock (S.block v.pindexState.1) (S.connectIndex v.pindexState true) v.coins u =
        .ok (true,coins) ∧ Verifying s tip ⟨coins,p,v.pindexFailure⟩ := by
  have hcomplete := hinv.complete
  rw [htip] at hcomplete
  obtain ⟨r,hr,-,hundo⟩ := hcomplete.record hinv.memory (Entry.mem_path.mp h.path)
  obtain ⟨u,v₀,hu,hreplay⟩ := hundo (by rw [hp]; exact Option.some_ne_none p)
  obtain ⟨coins,hd,hstands⟩ := h.stands.disconnectBlock hp hreplay
  obtain ⟨m,l,base,hcoins,hm,hbase⟩ := h.base
  have hkept := (@NodeEnv.disconnectBlock_keeps _ v.coins env (kept_base m (bestOf s.coinsTip))
    ⟨l,base,hcoins,hbase⟩ (S.block v.pindexState.1) (S.connectIndex v.pindexState true) u).result hd
  obtain ⟨⟨l',base',hcoins',hbase'⟩,-⟩ := hkept
  refine ⟨r,u,coins,hr,hu,h.stands.best,hd,hstands,?_,h.clean,m,l',base',hcoins',hm,hbase'⟩
  rw [Entry.mem_path]
  exact CBlockIndex.ancestors_trans (CBlockIndex.pprev_mem_ancestors (Entry.pprev_val hp))
    (Entry.mem_path.mp h.path)

theorem Verifying.verifyBlock {tip pindex : S.Entry} {v : S.VerifyState} (h : Verifying s tip v)
    (hinv : Inv s) (htip : s.coinsTip = some tip) (hpath : pindex ∈ tip.path)
    (hp : pindex.pprev.isSome = true) (nCheckLevel nCoinCacheSize : Nat) :
    ∃ v', s.verifyBlock nCheckLevel nCoinCacheSize v pindex = .ok v' ∧ Verifying s tip v' := by
  obtain ⟨r,hr⟩ := replay_of_tip hinv htip
  have hcheck : (if 1 ≤ nCheckLevel then env.checkBlock (S.block pindex.1) true true
      else pure ()) = .ok () := by
    rw [checkBlock_of_replay (replay_ancestor ⟨r,hr⟩ hpath)]
    split <;> rfl
  unfold Chainstate.verifyBlock
  rw [hcheck]
  simp only [ok_bind]
  split
  · rename_i hlevel
    obtain ⟨p,hp⟩ := Option.isSome_iff_exists.mp hp
    rw [hlevel.2.1] at hp ⊢
    obtain ⟨r,u,coins,hr,hu,hbest,hd,hv'⟩ := h.disconnected hinv htip hp
    refine ⟨_,?_,hv'⟩
    simp only [hr,hu,hbest,hd,hp,orThrow_some,ensure_true,ok_bind,if_true]
    rfl
  · exact ⟨v,rfl,h⟩

theorem Verifying.verifyBlocks {tip : S.Entry} {v : S.VerifyState} (h : Verifying s tip v)
    (hinv : Inv s) (htip : s.coinsTip = some tip) {blocks : List S.Entry}
    (hblocks : ∀ e ∈ blocks, e ∈ tip.path ∧ e.pprev.isSome = true)
    (nCheckLevel nCoinCacheSize : Nat) (shutdown : S.Entry → Bool) :
    ∃ finished v', s.verifyBlocks nCheckLevel nCoinCacheSize shutdown v blocks =
      .ok (finished,v') ∧ Verifying s tip v' := by
  induction blocks generalizing v with
  | nil => exact ⟨true,v,rfl,h⟩
  | cons pindex rest ih =>
    obtain ⟨⟨hpath,hp⟩,hrest⟩ := List.forall_mem_cons.mp hblocks
    obtain ⟨v₁,hr,h₁⟩ := h.verifyBlock hinv htip hpath hp nCheckLevel nCoinCacheSize
    unfold Chainstate.verifyBlocks
    simp only [hr,ok_bind]
    split
    · exact ⟨false,v₁,rfl,h₁⟩
    · exact ih h₁ hrest

theorem reconnectBlocks_append (coins : CCoinsView) (blocks : List S.Entry) (e : S.Entry) :
    reconnectBlocks S coins (blocks ++ [e]) = reconnectBlocks S coins blocks >>= fun v =>
      env.connectBlock (S.block e.1) (S.connectIndex e true) v false >>= fun r => pure r.1 := by
  induction blocks generalizing coins with
  | nil => rfl
  | cons f rest ih => simp only [List.cons_append,reconnectBlocks,ih,bind_assoc]

/-- From a block of a branch that can be replayed, the blocks above it lead back to the tip. -/
theorem reconnectBlocks_ok {tip e : S.Entry} (htip : ∃ r, tip.replay = .ok r) (he : e ∈ tip.path)
    {v : CCoinsView} (h : Stands v (some e)) {m : PlainCoins} {best : Uint256}
    (hbase : ∃ l base, v = .cache l base ∧ base.Holds m best) :
    ∃ v', reconnectBlocks S v (tip.path.takeWhile fun f => f ≠ e).reverse = .ok v' ∧
      Stands v' (some tip) ∧ ∃ l base, v' = .cache l base ∧ base.Holds m best := by
  induction tip using Entry.induction with
  | genesis tip hp =>
    rw [Entry.path_genesis hp] at he ⊢
    obtain rfl := List.mem_singleton.mp he
    exact ⟨v,by simp [reconnectBlocks,pure,Except.pure],h,hbase⟩
  | child tip p hp ih =>
    rw [Entry.path_child hp] at he ⊢
    by_cases hne : tip = e
    · subst hne
      exact ⟨v,by simp [reconnectBlocks,pure,Except.pure],h,hbase⟩
    · have hpath : p ∈ tip.path := by
        rw [Entry.path_child hp]
        exact List.mem_cons_of_mem _ (Entry.self_mem_path p)
      obtain ⟨v₁,hr₁,hstands,hbase₁⟩ := ih (replay_ancestor htip hpath)
        ((List.mem_cons.mp he).resolve_left (Ne.symm hne))
      obtain ⟨x,hx⟩ := htip
      rw [← hp] at hstands
      obtain ⟨r,hr,-⟩ := (hstands.connectBlock true).symm.ok_left hx
      obtain ⟨hnext,-⟩ := (hstands.connected true).result hr
      obtain ⟨_,-,hview⟩ := hstands
      have hkept := (@NodeEnv.connectBlock_keeps env _ v₁ (kept_base m best) _ _ hview hbase₁
        (S.block tip.1) (S.connectIndex tip true)).result hr
      refine ⟨r.1,?_,hnext,hkept.1⟩
      rw [List.takeWhile_cons_of_pos (by simpa using hne),List.reverse_cons,
        reconnectBlocks_append,hr₁]
      simp only [ok_bind,hr]
      rfl

end Chainstate
end BlockStore

end Anoncoin
