import Anoncoin.CoinsCache

/-!
Runs of operations on a stack of coin caches, and their refinement of plain maps:
one map for each layer, of which the top one takes the modifications and a flush
copies a map one layer down.
-/

set_option autoImplicit false

namespace Anoncoin

/-- Operations on a stack; layer 0 is the top. Modifications go to the top layer
only, and may store anything in the record they are handed. -/
inductive CoinsOp where
  | getCoins (layer : Nat) (txid : Uint256)
  | haveCoins (layer : Nat) (txid : Uint256)
  | accessCoins (layer : Nat) (txid : Uint256)
  | modifyCoins (txid : Uint256) (modification : CCoins → CCoins)
  | setBestBlock (layer : Nat) (hashBlock : Uint256)
  | flush (layer : Nat)

def CoinsOp.layer : CoinsOp → Nat
  | .getCoins i _ | .haveCoins i _ | .accessCoins i _ | .setBestBlock i _ | .flush i => i
  | .modifyCoins _ _ => 0

inductive CoinsAnswer where
  | coins (c : Option CCoins)
  | found (b : Bool)
  | done
  deriving DecidableEq

namespace CCoinsView

/-- Run an operation on the view that is `i` layers down. -/
def atLayer (f : CCoinsView → Option (CoinsAnswer × CCoinsView)) :
    Nat → CCoinsView → Option (CoinsAnswer × CCoinsView)
  | 0, v => f v
  | _+1, .db _ => none
  | i+1, .cache l base => (atLayer f i base).map fun r => (r.1,.cache l r.2)

def step (v : CCoinsView) : CoinsOp → Option (CoinsAnswer × CCoinsView)
  | .getCoins i t => v.atLayer (fun w => some (.coins (w.getCoins t).1,(w.getCoins t).2)) i
  | .haveCoins i t => v.atLayer (fun w => some (.found (w.haveCoins t).1,(w.haveCoins t).2)) i
  | .accessCoins i t =>
      v.atLayer (fun w => some (.coins (w.accessCoins t).1,(w.accessCoins t).2)) i
  | .modifyCoins t f =>
      (v.modifyCoins t fun c => some (c,f c)).map fun r => (.coins (some r.1),r.2)
  | .setBestBlock i h => v.atLayer (fun w => (w.setBestBlock h).map fun w' => (.done,w')) i
  | .flush i => v.atLayer (fun w => w.flush.map fun w' => (.done,w')) i

def runOps : CCoinsView → List CoinsOp → Option (List CoinsAnswer × CCoinsView)
  | v, [] => some ([],v)
  | v, op :: rest =>
      match v.step op with
      | none => none
      | some (a,v') => (runOps v' rest).map fun r => (a :: r.1,r.2)

/-- `n` newly constructed caches over a database. -/
def stackOver (d : CCoinsViewDB) : Nat → CCoinsView
  | 0 => .db d
  | n+1 => .cache .new (stackOver d n)

/-- The view `i` layers down. -/
def sub : Nat → CCoinsView → CCoinsView
  | 0, v => v
  | _+1, .db d => .db d
  | i+1, .cache _ base => base.sub i

/-- The layer directly above layer `i` holds fresh entries only. -/
def Flushable : Nat → CCoinsView → Prop
  | 0, _ => True
  | _+1, .db _ => True
  | 1, .cache l _ => ∀ t e, l.cacheCoins.lookup t = some e → e.fresh = true
  | i+2, .cache _ base => base.Flushable (i+1)

/-- A lower layer is flushed only while the layer above it has nothing pulled in
from it: a child view is flushed before its parent. -/
def FlushOrder : CCoinsView → List CoinsOp → Prop
  | _, [] => True
  | v, op :: rest =>
      (∀ i, op = .flush i → v.Flushable i) ∧
        ∀ a v', v.step op = some (a,v') → v'.FlushOrder rest

end CCoinsView

/-- The specification. A read answers with the map of its layer; a modification
stores into the top map what it makes of the record of that map (of some fully
spent record, when the map has none). -/
inductive PlainStep : (Nat → PlainCoins) → CoinsOp → CoinsAnswer → (Nat → PlainCoins) → Prop where
  | getCoins {p : Nat → PlainCoins} {i : Nat} {t : Uint256} {c : Option CCoins} :
      c.bind CCoins.unspent = p i t → PlainStep p (.getCoins i t) (.coins c) p
  | accessCoins {p : Nat → PlainCoins} {i : Nat} {t : Uint256} {c : Option CCoins} :
      c.bind CCoins.unspent = p i t → PlainStep p (.accessCoins i t) (.coins c) p
  | haveCoins {p : Nat → PlainCoins} {i : Nat} {t : Uint256} :
      PlainStep p (.haveCoins i t) (.found (p i t).isSome) p
  | modifyCoins {p : Nat → PlainCoins} {t : Uint256} {f : CCoins → CCoins} {c : CCoins} :
      c.unspent = p 0 t →
      PlainStep p (.modifyCoins t f) (.coins (some c))
        (Function.update p 0 (Function.update (p 0) t (f c).cleanup.unspent))
  | setBestBlock {p : Nat → PlainCoins} {i : Nat} {h : Uint256} :
      PlainStep p (.setBestBlock i h) .done p
  | flush {p : Nat → PlainCoins} {i : Nat} :
      PlainStep p (.flush i) .done (Function.update p (i+1) (p i))

inductive PlainRun :
    (Nat → PlainCoins) → List CoinsOp → List CoinsAnswer → (Nat → PlainCoins) → Prop where
  | nil {p : Nat → PlainCoins} : PlainRun p [] [] p
  | cons {p q r : Nat → PlainCoins} {op : CoinsOp} {a : CoinsAnswer} {ops : List CoinsOp}
      {as : List CoinsAnswer} :
      PlainStep p op a q → PlainRun q ops as r → PlainRun p (op :: ops) (a :: as) r

namespace CCoinsView

/-- The stack stands for one plain map per layer. -/
structure Represents (v : CCoinsView) (p : Nat → PlainCoins) : Prop where
  ok : v.Ok
  coins : ∀ i, i ≤ v.depth → (v.sub i).coins = p i

/-- An operation on a lower layer that keeps all answers keeps the whole stack. -/
theorem atLayer_spec {f : CCoinsView → Option (CoinsAnswer × CCoinsView)} {a : PlainCoins →
    CoinsAnswer → Prop} {k : Nat}
    (hf : ∀ w : CCoinsView, w.Ok → k ≤ w.depth → ∃ b w', f w = some (b,w') ∧ a w.coins b ∧
      w'.Ok ∧ w.Covers w' ∧ w'.depth = w.depth ∧ ∀ j, (w'.sub j).coins = (w.sub j).coins)
    {i : Nat} {v : CCoinsView} (hv : v.Ok) (hi : i+k ≤ v.depth) :
    ∃ b v', v.atLayer f i = some (b,v') ∧ a (v.sub i).coins b ∧ v'.Ok ∧ v.Covers v' ∧
      v'.depth = v.depth ∧ ∀ j, (v'.sub j).coins = (v.sub j).coins := by
  induction i generalizing v with
  | zero => exact hf v hv (by omega)
  | succ i ih =>
    cases v with
    | db d => simp only [depth] at hi; omega
    | cache l base =>
      obtain ⟨b,base',hr,ha,hok,hcov,hdep,hsub⟩ := ih hv.2.2 (by simp only [depth] at hi; omega)
      refine ⟨b,cache l base',by simp [atLayer,hr],ha,hv.cache_base hcov hok,hcov.cache,
        by simp [depth,hdep],?_⟩
      intro j
      cases j with
      | zero => exact coins_cache_congr hcov.coins
      | succ j => exact hsub j

theorem getCoins_sub {v : CCoinsView} (hv : v.Ok) (t : Uint256) (j : Nat) :
    ((v.getCoins t).2.sub j).coins = (v.sub j).coins := by
  induction v generalizing j with
  | db d => rfl
  | cache l base ih =>
    cases j with
    | zero => exact (getCoins_spec hv t).2.1.coins
    | succ j =>
      simp only [getCoins]
      cases l.cacheCoins.lookup t with
      | some e => rfl
      | none =>
        have h := ih hv.2.2 j
        cases hr : base.getCoins t with
        | mk r base' =>
        rw [hr] at h
        cases r <;> exact h

theorem haveCoins_eq {v : CCoinsView} (hv : v.Ok) (t : Uint256) :
    v.haveCoins t = ((v.coins t).isSome,(v.getCoins t).2) := by
  obtain ⟨hans,-,-,hclean⟩ := getCoins_spec hv t
  unfold haveCoins
  cases hr : v.getCoins t with
  | mk r v' =>
  rw [hr] at hans hclean
  cases r with
  | none => simp [← hans]
  | some c =>
    have hiff := CCoins.isPruned_iff_vout_nil (hclean c rfl).1
    simp only [← hans,Option.bind_some,Prod.mk.injEq,and_true]
    cases hp : c.isPruned with
    | true => simp [hiff.mp hp,CCoins.unspent_eq_none.mpr hp]
    | false =>
      have hne : c.vout ≠ [] := by
        intro h
        simp [hiff.mpr h] at hp
      simp [hne,CCoins.unspent,hp]

theorem setBestBlock_spec {l : CCoinsViewCache} {base : CCoinsView} (hv : (cache l base).Ok)
    (h : Uint256) : (cache { l with hashBlock := h } base).Ok ∧
      (cache l base).Covers (cache { l with hashBlock := h } base) :=
  ⟨hv,⟨rfl,fun _ he => he⟩⟩

theorem batchWrite_sub {base base' : CCoinsView} {m : CCoinsMap} {h : Uint256}
    (hw : base.batchWrite m h = some base') {j : Nat} (hj : j < base.depth) :
    (base'.sub (j+1)).coins = (base.sub (j+1)).coins := by
  cases base with
  | db d => simp [depth] at hj
  | cache p base₂ =>
    simp only [batchWrite] at hw
    split at hw
    · contradiction
    · obtain ⟨m',-,rfl⟩ := Option.map_eq_some_iff.mp hw
      rfl

/-- Flushing layer `i` copies its answers one layer down and changes nothing else. -/
theorem flushAt_spec {i : Nat} {v : CCoinsView} (hv : v.Ok) (hi : i < v.depth)
    (hf : v.Flushable i) :
    ∃ v', v.atLayer (fun w => w.flush.map fun w' => (CoinsAnswer.done,w')) i =
        some (.done,v') ∧ v'.Ok ∧ v'.depth = v.depth ∧ (0 < i → v.Covers v') ∧
      v'.Flushable (i+1) ∧ (v'.sub (i+1)).coins = (v.sub i).coins ∧
      ∀ j, j ≤ v.depth → j ≠ i+1 → (v'.sub j).coins = (v.sub j).coins := by
  induction i generalizing v with
  | zero =>
    cases v with
    | db d => simp [depth] at hi
    | cache l base =>
      obtain ⟨base',hw,hok,hcoins,hdep⟩ := batchWrite_spec hv l.hashBlock
      have hempty : ∀ t e, (∅ : CCoinsMap).lookup t = some e → EntryOk base' t e := by
        intro t e he
        simp at he
      refine ⟨cache { l with cacheCoins := ∅ } base',by simp [atLayer,flush,hw],
        ⟨hv.1,hempty,hok⟩,by simp [depth,hdep],fun h => by contradiction,
        fun t e he => by simp at he,hcoins,?_⟩
      intro j hjd hj
      cases j with
      | zero =>
        funext t
        simp only [sub,coins,AList.lookup_empty]
        rw [hcoins]
        rfl
      | succ j =>
        cases j with
        | zero => contradiction
        | succ j =>
          simp only [depth] at hjd
          exact batchWrite_sub hw (by omega)
  | succ i ih =>
    cases v with
    | db d => simp [depth] at hi
    | cache l base =>
      have hfb : base.Flushable i := by
        cases i with
        | zero => trivial
        | succ i => exact hf
      simp only [depth] at hi
      obtain ⟨base',hr,hok,hdep,hcov,hfl,hdown,hrest⟩ := ih hv.2.2 (by omega) hfb
      have hcoins : base'.coins = base.coins := hrest 0 (by omega) (by omega)
      have hent : ∀ t e, l.cacheCoins.lookup t = some e → EntryOk base' t e := by
        intro t e he
        have hold := hv.2.1 t e he
        refine ⟨hold.clean,fun hd => ?_,fun hfr => ?_,fun hfr => ?_⟩
        · rw [hcoins]
          exact hold.same hd
        · rw [hcoins]
          exact hold.absent hfr
        · cases i with
          | zero =>
            have hall := hf t e he
            rw [hfr] at hall
            contradiction
          | succ i => exact (hcov (by omega)).entry t (hold.pulled hfr)
      refine ⟨cache l base',by simp [atLayer,hr],⟨hv.1,hent,hok⟩,by simp [depth,hdep],
        fun _ => ⟨coins_cache_congr hcoins,fun _ h => h⟩,hfl,hdown,?_⟩
      intro j hjd hj
      cases j with
      | zero => exact coins_cache_congr hcoins
      | succ j =>
        simp only [depth] at hjd
        exact hrest j (by omega) (by omega)

theorem getCoinsAt_spec {v : CCoinsView} (hv : v.Ok) {i : Nat} (hi : i ≤ v.depth)
    (t : Uint256) :
    ∃ c v', v.atLayer (fun w => some (.coins (w.getCoins t).1,(w.getCoins t).2)) i =
        some (.coins c,v') ∧ c.bind CCoins.unspent = (v.sub i).coins t ∧ v'.Ok ∧
      v'.depth = v.depth ∧ ∀ j, (v'.sub j).coins = (v.sub j).coins := by
  obtain ⟨b,v',hr,⟨c,rfl,hc⟩,hok,-,hdep,hsub⟩ := atLayer_spec
    (a := fun m b => ∃ c, b = .coins c ∧ c.bind CCoins.unspent = m t) (k := 0)
    (f := fun w => some (.coins (w.getCoins t).1,(w.getCoins t).2))
    (fun w hw _ => by
      obtain ⟨h₁,h₂,h₃,-⟩ := getCoins_spec hw t
      exact ⟨_,_,rfl,⟨_,rfl,h₁⟩,h₃,h₂,getCoins_depth w t,getCoins_sub hw t⟩)
    hv (i := i) (by omega)
  exact ⟨c,v',hr,hc,hok,hdep,hsub⟩

theorem haveCoinsAt_spec {v : CCoinsView} (hv : v.Ok) {i : Nat} (hi : i ≤ v.depth)
    (t : Uint256) :
    ∃ v', v.atLayer (fun w => some (.found (w.haveCoins t).1,(w.haveCoins t).2)) i =
        some (.found ((v.sub i).coins t).isSome,v') ∧ v'.Ok ∧
      v'.depth = v.depth ∧ ∀ j, (v'.sub j).coins = (v.sub j).coins := by
  obtain ⟨b,v',hr,rfl,hok,-,hdep,hsub⟩ := atLayer_spec
    (a := fun m b => b = .found (m t).isSome) (k := 0)
    (f := fun w => some (.found (w.haveCoins t).1,(w.haveCoins t).2))
    (fun w hw _ => by
      obtain ⟨-,h₂,h₃,-⟩ := getCoins_spec hw t
      rw [haveCoins_eq hw t]
      exact ⟨_,_,rfl,rfl,h₃,h₂,getCoins_depth w t,getCoins_sub hw t⟩)
    hv (i := i) (by omega)
  exact ⟨v',hr,hok,hdep,hsub⟩

theorem setBestBlockAt_spec {v : CCoinsView} (hv : v.Ok) {i : Nat} (hi : i < v.depth)
    (h : Uint256) :
    ∃ v', v.atLayer (fun w => (w.setBestBlock h).map fun w' => (CoinsAnswer.done,w')) i =
        some (.done,v') ∧ v'.Ok ∧
      v'.depth = v.depth ∧ ∀ j, (v'.sub j).coins = (v.sub j).coins := by
  obtain ⟨b,v',hr,rfl,hok,-,hdep,hsub⟩ := atLayer_spec
    (a := fun _ b => b = .done) (k := 1)
    (f := fun w => (w.setBestBlock h).map fun w' => (CoinsAnswer.done,w'))
    (fun w hw hd => by
      cases w with
      | db d => simp [depth] at hd
      | cache l base =>
        obtain ⟨hok,hcov⟩ := setBestBlock_spec hw h
        refine ⟨.done,_,rfl,rfl,hok,hcov,rfl,?_⟩
        intro j
        cases j <;> rfl)
    hv (i := i) (by omega)
  exact ⟨v',hr,hok,hdep,hsub⟩

theorem modifyCoins_sub {v v' : CCoinsView} {α : Type} {a : α} {t : Uint256}
    {body : CCoins → Option (α × CCoins)} (hv : v.Ok)
    (h : v.modifyCoins t body = some (a,v')) (j : Nat) :
    (v'.sub (j+1)).coins = (v.sub (j+1)).coins := by
  obtain ⟨l,l',base,base',rfl,rfl,-,hbase⟩ := modifyCoins_shape h
  rcases hbase with rfl | rfl
  · rfl
  · exact getCoins_sub hv.2.2 t j

/-- Any one operation succeeds and does to the plain maps what it says. -/
theorem step_spec {v : CCoinsView} {p : Nat → PlainCoins} {op : CoinsOp} (hv : v.Represents p)
    (hl : op.layer < v.depth) (hf : ∀ i, op = .flush i → v.Flushable i) :
    ∃ a v' q, v.step op = some (a,v') ∧ PlainStep p op a q ∧ v'.Represents q ∧
      v'.depth = v.depth := by
  have hkeep : ∀ {v' : CCoinsView}, v'.Ok → v'.depth = v.depth →
      (∀ j, (v'.sub j).coins = (v.sub j).coins) → v'.Represents p := by
    intro v' hok hdep hsub
    exact ⟨hok,fun i hi => by rw [hsub i]; exact hv.coins i (by omega)⟩
  cases op with
  | getCoins i t =>
    simp only [CoinsOp.layer] at hl
    obtain ⟨c,v',hr,hc,hok,hdep,hsub⟩ := getCoinsAt_spec hv.ok (i := i) (by omega) t
    rw [hv.coins i (by omega)] at hc
    exact ⟨_,v',p,hr,.getCoins hc,hkeep hok hdep hsub,hdep⟩
  | accessCoins i t =>
    simp only [CoinsOp.layer] at hl
    obtain ⟨c,v',hr,hc,hok,hdep,hsub⟩ := getCoinsAt_spec hv.ok (i := i) (by omega) t
    rw [hv.coins i (by omega)] at hc
    exact ⟨_,v',p,hr,.accessCoins hc,hkeep hok hdep hsub,hdep⟩
  | haveCoins i t =>
    simp only [CoinsOp.layer] at hl
    obtain ⟨v',hr,hok,hdep,hsub⟩ := haveCoinsAt_spec hv.ok (i := i) (by omega) t
    rw [hv.coins i (by omega)] at hr
    exact ⟨_,v',p,hr,.haveCoins,hkeep hok hdep hsub,hdep⟩
  | setBestBlock i h =>
    simp only [CoinsOp.layer] at hl
    obtain ⟨v',hr,hok,hdep,hsub⟩ := setBestBlockAt_spec hv.ok hl h
    exact ⟨_,v',p,hr,.setBestBlock,hkeep hok hdep hsub,hdep⟩
  | flush i =>
    simp only [CoinsOp.layer] at hl
    obtain ⟨v',hr,hok,hdep,-,-,hdown,hrest⟩ := flushAt_spec hv.ok hl (hf i rfl)
    refine ⟨_,v',_,hr,.flush,⟨hok,?_⟩,hdep⟩
    intro j hj
    by_cases hji : j = i+1
    · subst hji
      rw [Function.update_self,hdown,hv.coins i (by omega)]
    · rw [Function.update_of_ne hji,hrest j (by omega) hji,hv.coins j (by omega)]
  | modifyCoins t f =>
    simp only [CoinsOp.layer] at hl
    obtain ⟨c,-,hsee,hbody⟩ := modifyCoins_spec hv.ok hl t
    obtain ⟨v',hr,hok,hcoins,hdep⟩ := (hbody fun c => some (c,f c)).2 c (f c) rfl
    have htop : v.coins = p 0 := hv.coins 0 (by omega)
    rw [htop] at hsee hcoins
    refine ⟨_,v',_,by simp [step,hr],.modifyCoins hsee,⟨hok,?_⟩,hdep⟩
    intro j hj
    cases j with
    | zero =>
      rw [Function.update_self]
      exact hcoins
    | succ j =>
      rw [Function.update_of_ne (by omega),modifyCoins_sub hv.ok hr,hv.coins _ (by omega)]

/-- Whole runs, by induction on the operations. -/
theorem runOps_spec {ops : List CoinsOp} {v : CCoinsView} {p : Nat → PlainCoins}
    (hv : v.Represents p) (hl : ∀ op ∈ ops, op.layer < v.depth) (hf : v.FlushOrder ops) :
    ∃ as v' q, v.runOps ops = some (as,v') ∧ PlainRun p ops as q ∧ v'.Represents q ∧
      v'.depth = v.depth := by
  induction ops generalizing v p with
  | nil => exact ⟨[],v,p,rfl,.nil,hv,rfl⟩
  | cons op rest ih =>
    obtain ⟨hnow,hlater⟩ := hf
    obtain ⟨a,v₁,q,hstep,hplain,hrep,hdep⟩ := step_spec hv (hl op (by simp)) hnow
    have hl' : ∀ op ∈ rest, op.layer < v₁.depth := by
      intro o ho
      rw [hdep]
      exact hl o (by simp [ho])
    obtain ⟨as,v₂,r,hrun,hplains,hrep₂,hdep₂⟩ := ih hrep hl' (hlater a v₁ hstep)
    exact ⟨a :: as,v₂,r,by simp [runOps,hstep,hrun],.cons hplain hplains,hrep₂,
      hdep₂.trans hdep⟩

/-- Flushing the layers one after the other from the top. -/
def flushAll (n : Nat) : List CoinsOp := (List.range n).map .flush

theorem flushOrder_from {n i : Nat} {v : CCoinsView} (hv : v.Ok) (hi : i+n ≤ v.depth)
    (hf : v.Flushable i) : v.FlushOrder ((List.range' i n).map .flush) := by
  induction n generalizing v i with
  | zero => trivial
  | succ n ih =>
    obtain ⟨w,hr,hok,hdep,-,hfl,-,-⟩ := flushAt_spec hv (i := i) (by omega) hf
    rw [List.range'_succ,List.map_cons]
    refine ⟨fun j hj => ?_,fun a v' hstep => ?_⟩
    · obtain rfl := CoinsOp.flush.inj hj
      exact hf
    · simp only [step,hr,Option.some.injEq,Prod.mk.injEq] at hstep
      obtain ⟨-,rfl⟩ := hstep
      exact ih hok (by omega) hfl

theorem flushOrder_flushAll {v : CCoinsView} (hv : v.Ok) : v.FlushOrder (flushAll v.depth) := by
  unfold flushAll
  rw [List.range_eq_range']
  exact flushOrder_from hv (by omega) trivial

/-- A run of flushes from layer `i` down carries the map of layer `i` to the bottom. -/
theorem plainRun_flushes {n i : Nat} {p q : Nat → PlainCoins} {as : List CoinsAnswer}
    (h : PlainRun p ((List.range' i n).map .flush) as q) : q (i+n) = p i := by
  induction n generalizing i p as with
  | zero =>
    cases h
    rfl
  | succ n ih =>
    rw [List.range'_succ,List.map_cons] at h
    cases h with
    | cons hstep hrest =>
      cases hstep
      have h := ih hrest
      rw [Function.update_self] at h
      rw [← h]
      congr 1
      omega

theorem sub_depth (v : CCoinsView) : ∃ d, v.sub v.depth = .db d := by
  induction v with
  | db d => exact ⟨d,rfl⟩
  | cache l base ih => exact ih

theorem Ok.sub {v : CCoinsView} (hv : v.Ok) (i : Nat) : (v.sub i).Ok := by
  induction i generalizing v with
  | zero => exact hv
  | succ i ih =>
    cases v with
    | db d => exact hv
    | cache l base => exact ih hv.2.2

theorem Ok.db_lookup {d : CCoinsViewDB} (h : (db d).Ok) (t : Uint256) :
    d.coins.lookup t = (db d).coins t := by
  cases hl : d.coins.lookup t with
  | none => simp [CCoinsView.coins,hl]
  | some c => simp [CCoinsView.coins,hl,CCoins.unspent,(h t c hl).2]

theorem flushAll_spec {v : CCoinsView} {p : Nat → PlainCoins} (hv : v.Represents p) :
    ∃ as v' d, v.runOps (flushAll v.depth) = some (as,v') ∧ v'.sub v.depth = .db d ∧
      ∀ t, d.coins.lookup t = p 0 t := by
  have hl : ∀ op ∈ flushAll v.depth, op.layer < v.depth := by
    intro op hop
    simp only [flushAll,List.mem_map,List.mem_range] at hop
    obtain ⟨i,hi,rfl⟩ := hop
    exact hi
  obtain ⟨as,v',q,hrun,hplain,hrep,hdep⟩ := runOps_spec hv hl (flushOrder_flushAll hv.ok)
  have hq : q v.depth = p 0 := by
    unfold flushAll at hplain
    rw [List.range_eq_range'] at hplain
    simpa using plainRun_flushes hplain
  obtain ⟨d,hd⟩ := v'.sub_depth
  rw [hdep] at hd
  refine ⟨as,v',d,hrun,hd,fun t => ?_⟩
  have hok := hrep.ok.sub v.depth
  rw [hd] at hok
  rw [hok.db_lookup,← hd,hrep.coins _ (by omega),hq]

theorem stackOver_depth (d : CCoinsViewDB) (n : Nat) : (stackOver d n).depth = n := by
  induction n with
  | zero => rfl
  | succ n ih => simp [stackOver,depth,ih]

theorem stackOver_ok {d : CCoinsViewDB} (hd : (db d).Ok) (n : Nat) : (stackOver d n).Ok := by
  induction n with
  | zero => exact hd
  | succ n ih => exact ⟨rfl,fun t e he => by simp [CCoinsViewCache.new] at he,ih⟩

theorem stackOver_coins (d : CCoinsViewDB) (n : Nat) : (stackOver d n).coins = (db d).coins := by
  induction n with
  | zero => rfl
  | succ n ih =>
    funext t
    simp only [stackOver,coins,CCoinsViewCache.new,AList.lookup_empty,ih]

theorem stackOver_sub {d : CCoinsViewDB} {n i : Nat} (h : i ≤ n) :
    (stackOver d n).sub i = stackOver d (n-i) := by
  induction i generalizing n with
  | zero => rfl
  | succ i ih =>
    obtain ⟨m,rfl⟩ : ∃ m, n = m+1 := ⟨n-1,by omega⟩
    simp only [stackOver,sub]
    rw [ih (by omega)]
    congr 1
    omega

theorem stackOver_represents {d : CCoinsViewDB} (hd : (db d).Ok) (n : Nat) :
    (stackOver d n).Represents fun _ t => d.coins.lookup t := by
  refine ⟨stackOver_ok hd n,?_⟩
  intro i hi
  rw [stackOver_depth] at hi
  rw [stackOver_sub hi,stackOver_coins]
  funext t
  exact (hd.db_lookup t).symm

/-- A database with one transaction of one unspent output. -/
def oneCoinDB : CCoinsViewDB where
  coins := (∅ : AList fun _ : Uint256 => CCoins).insert 1 ⟨false,[⟨5,[]⟩],1,1⟩
  hashBestChain := none

theorem oneCoinDB_ok : (db oneCoinDB).Ok := by
  intro t c h
  by_cases ht : t = 1
  · subst ht
    simp only [oneCoinDB,AList.lookup_insert,Option.some.injEq] at h
    subst h
    exact ⟨by decide,by decide⟩
  · rw [oneCoinDB,AList.lookup_insert_ne ht] at h
    contradiction

end CCoinsView

end Anoncoin
