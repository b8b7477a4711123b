import Anoncoin.Coins

/-!
The layered coin views of coins.cpp over the coin database of txdb.cpp. A view is a
database or a cache in front of another view; `none` is a failed assertion.
-/

set_option autoImplicit false

namespace Anoncoin
open Lib

structure CCoinsCacheEntry where
  coins : CCoins
  dirty : Bool
  fresh : Bool
  deriving DecidableEq, Repr

abbrev CCoinsMap := AList fun _ : Uint256 => CCoinsCacheEntry

/-- The chainstate database: records under ('c', txid) and the record under 'B'. -/
structure CCoinsViewDB where
  coins : AList fun _ : Uint256 => CCoins
  hashBestChain : Option Uint256

def batchWriteCoins (table : AList fun _ : Uint256 => CCoins) (hash : Uint256) (c : CCoins) :
    AList fun _ : Uint256 => CCoins :=
  if c.isPruned then table.erase hash else table.insert hash c

def batchWriteDirty (table : AList fun _ : Uint256 => CCoins)
    (e : Σ _ : Uint256, CCoinsCacheEntry) : AList fun _ : Uint256 => CCoins :=
  if e.2.dirty then batchWriteCoins table e.1 e.2.coins else table

def CCoinsViewDB.batchWrite (db : CCoinsViewDB) (mapCoins : CCoinsMap) (hashBlock : Uint256) :
    CCoinsViewDB where
  coins := mapCoins.entries.foldl batchWriteDirty db.coins
  hashBestChain := if hashBlock ≠ 0 then some hashBlock else db.hashBestChain

/-- The fields of one `CCoinsViewCache`, without its `base` pointer. -/
structure CCoinsViewCache where
  hasModifier : Bool
  hashBlock : Uint256
  cacheCoins : CCoinsMap

/-- The constructor `CCoinsViewCache(baseIn)`. -/
def CCoinsViewCache.new : CCoinsViewCache := ⟨false,0,∅⟩

inductive CCoinsView where
  | db : CCoinsViewDB → CCoinsView
  | cache : CCoinsViewCache → CCoinsView → CCoinsView

namespace CCoinsView

/-- `GetCoins`, which for a cache is `FetchCoins`: a miss is pulled in from the base,
and an entry pulled in fully spent counts as fresh. -/
def getCoins : CCoinsView → Uint256 → Option CCoins × CCoinsView
  | .db d, txid => (d.coins.lookup txid,.db d)
  | .cache l base, txid =>
      match l.cacheCoins.lookup txid with
      | some e => (some e.coins,.cache l base)
      | none =>
          match getCoins base txid with
          | (none,base') => (none,.cache l base')
          | (some tmp,base') =>
              (some tmp,.cache { l with
                cacheCoins := l.cacheCoins.insert txid ⟨tmp,false,tmp.isPruned⟩ } base')

/-- `AccessCoins` hands out a pointer to the same entry; it exists for caches only. -/
def accessCoins (v : CCoinsView) (txid : Uint256) : Option CCoins × CCoinsView :=
  v.getCoins txid

/-- `HaveCoins` of a cache looks at `vout.empty()`, not at `IsPruned`. -/
def haveCoins (v : CCoinsView) (txid : Uint256) : Bool × CCoinsView :=
  match v.getCoins txid with
  | (some c,v') => (!c.vout.isEmpty,v')
  | (none,v') => (false,v')

/-- `GetBestBlock` remembers the answer of the base while its own hash is zero. -/
def getBestBlock : CCoinsView → Uint256 × CCoinsView
  | .db d => (d.hashBestChain.getD 0,.db d)
  | .cache l base =>
      if l.hashBlock = 0 then
        let r := getBestBlock base
        (r.1,.cache { l with hashBlock := r.1 } r.2)
      else (l.hashBlock,.cache l base)

def setBestBlock (hashBlockIn : Uint256) : CCoinsView → Option CCoinsView
  | .db _ => none
  | .cache l base => some (.cache { l with hashBlock := hashBlockIn } base)

/-- The entry `ModifyCoins` works on when the cache has none yet. -/
def pullForModify : Option CCoins → CCoinsCacheEntry
  | none => ⟨.empty,true,true⟩
  | some c => ⟨c,true,c.isPruned⟩

/-- `ModifyCoins`: the modifiable record, and the view with the entry marked dirty. -/
def beginModify (txid : Uint256) : CCoinsView → Option (CCoins × CCoinsView)
  | .db _ => none
  | .cache l base =>
      if l.hasModifier then none else
        match l.cacheCoins.lookup txid with
        | some e => some (e.coins,.cache { l with
            hasModifier := true
            cacheCoins := l.cacheCoins.insert txid { e with dirty := true } } base)
        | none =>
            let r := base.getCoins txid
            let e := pullForModify r.1
            some (e.coins,.cache { l with
              hasModifier := true
              cacheCoins := l.cacheCoins.insert txid e } r.2)

/-- Store the modified record and run `~CCoinsModifier`. -/
def endModify (txid : Uint256) (c : CCoins) : CCoinsView → Option CCoinsView
  | .db _ => none
  | .cache l base =>
      if !l.hasModifier then none else
        match l.cacheCoins.lookup txid with
        | none => none
        | some e =>
            let e : CCoinsCacheEntry := { e with coins := c.cleanup }
            if e.fresh && e.coins.isPruned then
              some (.cache { l with
                hasModifier := false, cacheCoins := l.cacheCoins.erase txid } base)
            else
              some (.cache { l with
                hasModifier := false, cacheCoins := l.cacheCoins.insert txid e } base)

/-- A whole modification: what the body computes from the record it sees, and the
view after the modifier is gone. -/
def modifyCoins {α : Type} (v : CCoinsView) (txid : Uint256)
    (body : CCoins → Option (α × CCoins)) : Option (α × CCoinsView) :=
  match v.beginModify txid with
  | none => none
  | some (c,v₁) =>
      match body c with
      | none => none
      | some (a,c') => (v₁.endModify txid c').map fun v₂ => (a,v₂)

/-- The loop body of `CCoinsViewCache::BatchWrite`. -/
def batchWriteEntry (cacheCoins : CCoinsMap) (e : Σ _ : Uint256, CCoinsCacheEntry) :
    Option CCoinsMap :=
  if e.2.dirty then
    match cacheCoins.lookup e.1 with
    | none =>
        if e.2.coins.isPruned then some cacheCoins
        else if e.2.fresh then some (cacheCoins.insert e.1 ⟨e.2.coins,true,true⟩)
        else none
    | some itUs =>
        if itUs.fresh && e.2.coins.isPruned then some (cacheCoins.erase e.1)
        else some (cacheCoins.insert e.1 ⟨e.2.coins,true,itUs.fresh⟩)
  else some cacheCoins

def batchWrite (mapCoins : CCoinsMap) (hashBlockIn : Uint256) : CCoinsView → Option CCoinsView
  | .db d => some (.db (d.batchWrite mapCoins hashBlockIn))
  | .cache l base =>
      if l.hasModifier then none else
        (mapCoins.entries.foldlM batchWriteEntry l.cacheCoins).map fun cacheCoins =>
          .cache { l with cacheCoins := cacheCoins, hashBlock := hashBlockIn } base

def flush : CCoinsView → Option CCoinsView
  | .db _ => none
  | .cache l base =>
      (base.batchWrite l.cacheCoins l.hashBlock).map fun base' =>
        .cache { l with cacheCoins := ∅ } base'

/-- What a view answers for a txid, fully spent records counting as absent. -/
def coins : CCoinsView → PlainCoins
  | .db d, txid => (d.coins.lookup txid).bind CCoins.unspent
  | .cache l base, txid =>
      match l.cacheCoins.lookup txid with
      | some e => e.coins.unspent
      | none => base.coins txid

/-- The view has its own entry for the txid. A database needs none: only caches
assert anything when a child writes to them. -/
def HasEntry : CCoinsView → Uint256 → Prop
  | .db _, _ => True
  | .cache l _, txid => ∃ e, l.cacheCoins.lookup txid = some e

/-- What one cache promises about its entries relative to its base. -/
structure EntryOk (base : CCoinsView) (txid : Uint256) (e : CCoinsCacheEntry) : Prop where
  clean : e.coins.cleanup = e.coins
  same : e.dirty = false → e.coins.unspent = base.coins txid
  absent : e.fresh = true → base.coins txid = none
  pulled : e.fresh = false → base.HasEntry txid

def Ok : CCoinsView → Prop
  | .db d => ∀ txid c, d.coins.lookup txid = some c → c.cleanup = c ∧ c.isPruned = false
  | .cache l base =>
      l.hasModifier = false ∧ (∀ txid e, l.cacheCoins.lookup txid = some e → EntryOk base txid e) ∧
        base.Ok

/-- One view can stand for another as the base of a cache: same answers, and no
entry a child may rely on is missing. -/
structure Covers (base base' : CCoinsView) : Prop where
  coins : base'.coins = base.coins
  entry : ∀ txid, base.HasEntry txid → base'.HasEntry txid

theorem Covers.entryOk {base base' : CCoinsView} (h : base.Covers base') {txid : Uint256}
    {e : CCoinsCacheEntry} (he : EntryOk base txid e) : EntryOk base' txid e where
  clean := he.clean
  same hd := by rw [h.coins]; exact he.same hd
  absent hf := by rw [h.coins]; exact he.absent hf
  pulled hf := h.entry txid (he.pulled hf)

theorem coins_cache_congr {l : CCoinsViewCache} {base base' : CCoinsView}
    (h : base'.coins = base.coins) : (cache l base').coins = (cache l base).coins := by
  funext txid
  simp only [coins,h]

theorem Covers.cache {l : CCoinsViewCache} {base base' : CCoinsView} (h : base.Covers base') :
    (cache l base).Covers (cache l base') :=
  ⟨coins_cache_congr h.coins,fun _ he => he⟩

theorem Ok.cache_base {l : CCoinsViewCache} {base base' : CCoinsView} (h : (cache l base).Ok)
    (hc : base.Covers base') (hb : base'.Ok) : (cache l base').Ok :=
  ⟨h.1,fun txid e he => hc.entryOk (h.2.1 txid e he),hb⟩

/-- Everything `GetCoins` does: it answers with the view's record, keeps every
answer, keeps the promises of the caches, and leaves an entry behind on a hit. -/
theorem getCoins_spec {v : CCoinsView} (hv : v.Ok) (txid : Uint256) :
    (v.getCoins txid).1.bind CCoins.unspent = v.coins txid ∧
    v.Covers (v.getCoins txid).2 ∧ (v.getCoins txid).2.Ok ∧
    ∀ c, (v.getCoins txid).1 = some c → c.cleanup = c ∧ (v.getCoins txid).2.HasEntry txid := by
  induction v with
  | db d =>
    refine ⟨rfl,⟨rfl,fun _ h => h⟩,hv,?_⟩
    intro c hc
    exact ⟨(hv txid c hc).1,trivial⟩
  | cache l base ih =>
    obtain ⟨hm,he,hb⟩ := hv
    simp only [getCoins]
    cases hl : l.cacheCoins.lookup txid with
    | some e =>
      refine ⟨by simp [coins,hl],⟨rfl,fun _ h => h⟩,⟨hm,he,hb⟩,?_⟩
      intro c hc
      obtain rfl := Option.some.inj hc
      exact ⟨(he txid e hl).clean,e,hl⟩
    | none =>
      obtain ⟨h₁,h₂,h₃,h₄⟩ := ih hb
      have hcov : (CCoinsView.cache l base).coins txid = base.coins txid := by simp [coins,hl]
      rw [hcov]
      cases hr : base.getCoins txid with
      | mk r base' =>
      rw [hr] at h₁ h₂ h₃ h₄
      simp only at h₁ h₂ h₃ h₄
      cases r with
      | none =>
        refine ⟨h₁,h₂.cache,Ok.cache_base ⟨hm,he,hb⟩ h₂ h₃,?_⟩
        intro c hc
        contradiction
      | some tmp =>
        obtain ⟨hclean,hent⟩ := h₄ tmp rfl
        have hnew : EntryOk base' txid ⟨tmp,false,tmp.isPruned⟩ := by
          refine ⟨hclean,fun _ => ?_,fun hf => ?_,fun _ => hent⟩
          · rw [h₂.coins]; exact h₁
          · rw [h₂.coins,← h₁]; exact CCoins.unspent_eq_none.mpr hf
        refine ⟨h₁,⟨?_,?_⟩,⟨hm,?_,h₃⟩,?_⟩
        · funext t
          simp only [coins]
          by_cases ht : t = txid
          · subst ht
            rw [AList.lookup_insert,hl]
            exact h₁
          · rw [AList.lookup_insert_ne ht,h₂.coins]
        · intro t ht
          by_cases hte : t = txid
          · subst hte
            exact ⟨_,AList.lookup_insert _⟩
          · obtain ⟨e,hte'⟩ := ht
            exact ⟨e,by rw [AList.lookup_insert_ne hte]; exact hte'⟩
        · intro t e hte
          by_cases ht : t = txid
          · subst ht
            rw [AList.lookup_insert] at hte
            exact Option.some.inj hte ▸ hnew
          · rw [AList.lookup_insert_ne ht] at hte
            exact h₂.entryOk (he t e hte)
        · intro c hc
          obtain rfl := Option.some.inj hc
          exact ⟨hclean,_,AList.lookup_insert _⟩

/-- Number of caches above the database. -/
def depth : CCoinsView → Nat
  | .db _ => 0
  | .cache _ base => base.depth+1

@[simp] theorem getCoins_depth (v : CCoinsView) (txid : Uint256) :
    (v.getCoins txid).2.depth = v.depth := by
  induction v with
  | db d => rfl
  | cache l base ih =>
    simp only [getCoins]
    cases l.cacheCoins.lookup txid with
    | some e => rfl
    | none =>
      cases hr : base.getCoins txid with
      | mk r base' =>
      rw [hr] at ih
      cases r <;> simp_all [depth]

/-- The modifier's release stores the cleaned record, or drops the entry when it is
fresh and fully spent; both ways the view answers with the new record. -/
theorem endModify_spec {l : CCoinsViewCache} {base : CCoinsView} {txid : Uint256}
    {e : CCoinsCacheEntry} (c : CCoins) (hm : l.hasModifier = true)
    (hl : l.cacheCoins.lookup txid = some e) (hd : e.dirty = true)
    (hf : e.fresh = true → base.coins txid = none) (hp : e.fresh = false → base.HasEntry txid)
    (ho : ∀ t e, t ≠ txid → l.cacheCoins.lookup t = some e → EntryOk base t e) (hb : base.Ok) :
    ∃ v', (cache l base).endModify txid c = some v' ∧ v'.Ok ∧
      v'.coins = Function.update (cache l base).coins txid c.cleanup.unspent ∧
      v'.depth = base.depth+1 := by
  simp only [endModify,hm,hl,Bool.not_true,Bool.false_eq_true,if_false]
  by_cases hdrop : (e.fresh && c.cleanup.isPruned) = true
  · obtain ⟨hfresh,hprune⟩ := Bool.and_eq_true_iff.mp hdrop
    refine ⟨_,by rw [if_pos hdrop],?_,?_,rfl⟩
    · refine ⟨rfl,?_,hb⟩
      intro t x hx
      by_cases ht : t = txid
      · subst ht
        simp only [AList.lookup_erase] at hx
        contradiction
      · simp only [AList.lookup_erase_ne ht] at hx
        exact ho t x ht hx
    · funext t
      by_cases ht : t = txid
      · subst ht
        simp [coins,AList.lookup_erase,hf hfresh,CCoins.unspent_eq_none.mpr hprune]
      · simp [coins,AList.lookup_erase_ne ht,ht]
  · refine ⟨_,by rw [if_neg hdrop],?_,?_,rfl⟩
    · refine ⟨rfl,?_,hb⟩
      intro t x hx
      by_cases ht : t = txid
      · subst ht
        simp only [AList.lookup_insert,Option.some.injEq] at hx
        subst hx
        exact ⟨c.cleanup_cleanup,fun h => by simp [hd] at h,hf,hp⟩
      · simp only [AList.lookup_insert_ne ht] at hx
        exact ho t x ht hx
    · funext t
      by_cases ht : t = txid
      · subst ht
        simp [coins,AList.lookup_insert]
      · simp [coins,AList.lookup_insert_ne ht,ht]

/-- `ModifyCoins` hands out the view's record, marks it, and changes no answer of
the view. -/
theorem beginModify_spec {l : CCoinsViewCache} {base : CCoinsView} (hv : (cache l base).Ok)
    (txid : Uint256) :
    ∃ c l' base' e, (cache l base).beginModify txid = some (c,cache l' base') ∧
      c.cleanup = c ∧ c.unspent = (cache l base).coins txid ∧
      l'.hasModifier = true ∧ l'.cacheCoins.lookup txid = some e ∧ e.dirty = true ∧
      (e.fresh = true → base'.coins txid = none) ∧ (e.fresh = false → base'.HasEntry txid) ∧
      (∀ t e, t ≠ txid → l'.cacheCoins.lookup t = some e → EntryOk base' t e) ∧ base'.Ok ∧
      (∀ t, t ≠ txid → (cache l' base').coins t = (cache l base).coins t) ∧
      base'.depth = base.depth := by
  obtain ⟨hm,he,hb⟩ := hv
  simp only [beginModify,hm,Bool.false_eq_true,if_false]
  cases hl : l.cacheCoins.lookup txid with
  | some e =>
    refine ⟨e.coins,_,base,{ e with dirty := true },rfl,(he txid e hl).clean,by simp [coins,hl],
      rfl,AList.lookup_insert _,rfl,(he txid e hl).absent,(he txid e hl).pulled,?_,hb,?_,rfl⟩
    · intro t x ht hx
      simp only [AList.lookup_insert_ne ht] at hx
      exact he t x hx
    · intro t ht
      simp [coins,AList.lookup_insert_ne ht]
  | none =>
    obtain ⟨h₁,h₂,h₃,h₄⟩ := getCoins_spec hb txid
    have hcoins : (cache l base).coins txid = base.coins txid := by simp [coins,hl]
    have hrest : ∀ t x, t ≠ txid →
        (l.cacheCoins.insert txid (pullForModify (base.getCoins txid).1)).lookup t = some x →
        EntryOk (base.getCoins txid).2 t x := by
      intro t x ht hx
      simp only [AList.lookup_insert_ne ht] at hx
      exact h₂.entryOk (he t x hx)
    have hsame : ∀ t, t ≠ txid →
        (cache ⟨true,l.hashBlock,
          l.cacheCoins.insert txid (pullForModify (base.getCoins txid).1)⟩
          (base.getCoins txid).2).coins t = (cache l base).coins t := by
      intro t ht
      simp [coins,AList.lookup_insert_ne ht,h₂.coins]
    refine ⟨_,_,_,pullForModify (base.getCoins txid).1,rfl,?_,?_,rfl,AList.lookup_insert _,?_,
      ?_,?_,hrest,h₃,hsame,getCoins_depth base txid⟩
    · cases hr : (base.getCoins txid).1 with
      | none => rfl
      | some c => exact (h₄ c hr).1
    · cases hr : (base.getCoins txid).1 with
      | none =>
        rw [hcoins,← h₁,hr]
        rfl
      | some c =>
        rw [hcoins,← h₁,hr]
        rfl
    · cases (base.getCoins txid).1 <;> rfl
    · intro hf
      rw [h₂.coins,← h₁]
      cases hr : (base.getCoins txid).1 with
      | none => rfl
      | some c =>
        simp only [hr,pullForModify] at hf
        exact CCoins.unspent_eq_none.mpr hf
    · intro hf
      cases hr : (base.getCoins txid).1 with
      | none => simp [hr,pullForModify] at hf
      | some c => exact (h₄ c hr).2

/-- A modification sees the view's record (some fully spent record when the view
has none), and afterwards the view answers with what the body stored. -/
theorem modifyCoins_spec {v : CCoinsView} (hv : v.Ok) (hd : 0 < v.depth) (txid : Uint256) :
    ∃ c : CCoins, c.cleanup = c ∧ c.unspent = v.coins txid ∧
      ∀ {α : Type} (body : CCoins → Option (α × CCoins)),
        (body c = none → v.modifyCoins txid body = none) ∧
        ∀ a c', body c = some (a,c') →
          ∃ v', v.modifyCoins txid body = some (a,v') ∧ v'.Ok ∧
            v'.coins = Function.update v.coins txid c'.cleanup.unspent ∧ v'.depth = v.depth := by
  cases v with
  | db d => simp [depth] at hd
  | cache l base =>
    obtain ⟨c,l',base',e,hbegin,hclean,hsee,hm,hl,hdirty,hf,hp,ho,hb,hsame,hdep⟩ :=
      beginModify_spec hv txid
    refine ⟨c,hclean,hsee,fun body => ⟨?_,?_⟩⟩
    · intro hbody
      simp [modifyCoins,hbegin,hbody]
    · intro a c' hbody
      obtain ⟨v',hend,hok,hcoins,hdep'⟩ := endModify_spec c' hm hl hdirty hf hp ho hb
      refine ⟨v',by simp [modifyCoins,hbegin,hbody,hend],hok,?_,by simp [hdep',hdep,depth]⟩
      rw [hcoins]
      funext t
      by_cases ht : t = txid
      · subst ht
        simp
      · simp [ht,hsame t ht]

theorem endModify_shape {l : CCoinsViewCache} {base v' : CCoinsView} {t : Uint256} {c : CCoins}
    (h : (cache l base).endModify t c = some v') :
    ∃ l', v' = cache l' base ∧ l'.hashBlock = l.hashBlock := by
  simp only [endModify] at h
  split at h
  · contradiction
  · split at h
    · contradiction
    · split at h <;> obtain rfl := Option.some.inj h <;> exact ⟨_,rfl,rfl⟩

/-- A modification keeps the best block of its own layer and only reads the base. -/
theorem modifyCoins_shape {v v' : CCoinsView} {α : Type} {a : α} {t : Uint256}
    {body : CCoins → Option (α × CCoins)} (h : v.modifyCoins t body = some (a,v')) :
    ∃ l l' base base', v = cache l base ∧ v' = cache l' base' ∧ l'.hashBlock = l.hashBlock ∧
      (base' = base ∨ base' = (base.getCoins t).2) := by
  cases v with
  | db d => simp [modifyCoins,beginModify] at h
  | cache l base =>
    unfold modifyCoins at h
    split at h
    · contradiction
    · rename_i c v₁ hbegin
      split at h
      · contradiction
      · obtain ⟨v₂,hend,he⟩ := Option.map_eq_some_iff.mp h
        obtain ⟨-,rfl⟩ := Prod.mk.inj he
        simp only [beginModify] at hbegin
        split at hbegin
        · contradiction
        · split at hbegin
          · obtain ⟨-,rfl⟩ := Prod.mk.inj (Option.some.inj hbegin)
            obtain ⟨l',rfl,hh⟩ := endModify_shape hend
            exact ⟨l,l',base,base,rfl,rfl,hh,.inl rfl⟩
          · obtain ⟨-,rfl⟩ := Prod.mk.inj (Option.some.inj hbegin)
            obtain ⟨l',rfl,hh⟩ := endModify_shape hend
            exact ⟨l,l',base,_,rfl,rfl,hh,.inr rfl⟩

@[simp] theorem getBestBlock_getCoins (v : CCoinsView) (t : Uint256) :
    (v.getCoins t).2.getBestBlock.1 = v.getBestBlock.1 := by
  induction v with
  | db d => rfl
  | cache l base ih =>
    simp only [getCoins]
    cases l.cacheCoins.lookup t with
    | some e => rfl
    | none =>
      cases hr : base.getCoins t with
      | mk r base' =>
      rw [hr] at ih
      cases r <;> by_cases hz : l.hashBlock = 0 <;> simp_all [getBestBlock]

theorem getBestBlock_modifyCoins {v v' : CCoinsView} {α : Type} {a : α} {t : Uint256}
    {body : CCoins → Option (α × CCoins)} (h : v.modifyCoins t body = some (a,v')) :
    v'.getBestBlock.1 = v.getBestBlock.1 := by
  obtain ⟨l,l',base,base',rfl,rfl,hh,hbase⟩ := modifyCoins_shape h
  simp only [getBestBlock,hh]
  rcases hbase with rfl | rfl <;> split <;> simp

/-- Asking for the best block changes no answer. -/
theorem getBestBlock_spec {v : CCoinsView} (hv : v.Ok) :
    v.getBestBlock.2.Ok ∧ v.Covers v.getBestBlock.2 ∧ v.getBestBlock.2.depth = v.depth ∧
      v.getBestBlock.2.getBestBlock.1 = v.getBestBlock.1 := by
  induction v with
  | db d => exact ⟨hv,⟨rfl,fun _ h => h⟩,rfl,rfl⟩
  | cache l base ih =>
    obtain ⟨hok,hcov,hdep,hbest⟩ := ih hv.2.2
    simp only [getBestBlock]
    split
    · rename_i hz
      have hbase := hv.cache_base hcov hok
      refine ⟨hbase,⟨?_,fun _ h => h⟩,by simp [depth,hdep],?_⟩
      · exact coins_cache_congr hcov.coins
      · simp only [getBestBlock]
        split
        · exact hbest
        · rfl
    · rename_i hz
      exact ⟨hv,⟨rfl,fun _ h => h⟩,rfl,by simp only [getBestBlock,if_neg hz]⟩

/-- What a dirty child entry makes of the parent's entry under the same key. -/
def mergeEntry (us : Option CCoinsCacheEntry) (e : CCoinsCacheEntry) :
    Option (Option CCoinsCacheEntry) :=
  if e.dirty then
    match us with
    | none =>
        if e.coins.isPruned then some none
        else if e.fresh then some (some ⟨e.coins,true,true⟩) else none
    | some itUs =>
        if itUs.fresh && e.coins.isPruned then some none
        else some (some ⟨e.coins,true,itUs.fresh⟩)
  else some us

theorem batchWriteEntry_keyed (m : CCoinsMap) (txid : Uint256) (e : CCoinsCacheEntry)
    (b : Option CCoinsCacheEntry) (h : mergeEntry (m.lookup txid) e = some b) :
    ∃ m', batchWriteEntry m ⟨txid,e⟩ = some m' ∧
      (fun t => m'.lookup t) = Function.update (fun t => m.lookup t) txid b := by
  have hkeep : m.lookup txid = b →
      (fun t => m.lookup t) = Function.update (fun t => m.lookup t) txid b := by
    intro hb
    rw [← hb,Function.update_eq_self]
  have hins : ∀ x, b = some x →
      (fun t => (m.insert txid x).lookup t) = Function.update (fun t => m.lookup t) txid b := by
    intro x hx
    funext t
    by_cases ht : t = txid
    · subst ht; simp [AList.lookup_insert,hx]
    · simp [AList.lookup_insert_ne ht,ht]
  have hera : b = none →
      (fun t => (m.erase txid).lookup t) = Function.update (fun t => m.lookup t) txid b := by
    intro hx
    funext t
    by_cases ht : t = txid
    · subst ht; simp [AList.lookup_erase,hx]
    · simp [AList.lookup_erase_ne ht,ht]
  unfold mergeEntry at h
  unfold batchWriteEntry
  cases hd : e.dirty with
  | false =>
    simp only [hd,Bool.false_eq_true,if_false,Option.some.injEq] at h ⊢
    exact ⟨m,rfl,hkeep h⟩
  | true =>
    simp only [hd,if_true] at h ⊢
    cases hus : m.lookup txid with
    | none =>
      simp only [hus] at h ⊢
      split at h
      · simp only [Option.some.injEq] at h
        exact ⟨m,by simp_all,hkeep (hus.trans h)⟩
      · split at h
        · simp only [Option.some.injEq] at h
          exact ⟨_,by simp_all,hins _ h.symm⟩
        · contradiction
    | some us =>
      simp only [hus] at h ⊢
      split at h
      · simp only [Option.some.injEq] at h
        exact ⟨_,by simp_all,hera h.symm⟩
      · simp only [Option.some.injEq] at h
        exact ⟨_,by simp_all,hins _ h.symm⟩

/-- The merge of a child's entry succeeds, and leaves the parent answering with the
child's record and keeping its promises to its own base. -/
theorem mergeEntry_spec {l : CCoinsViewCache} {base : CCoinsView} (hv : (cache l base).Ok)
    {txid : Uint256} {e : CCoinsCacheEntry} (he : EntryOk (cache l base) txid e) :
    ∃ b, mergeEntry (l.cacheCoins.lookup txid) e = some b ∧
      (match b with
        | some x => x.coins.unspent
        | none => base.coins txid) = e.coins.unspent ∧
      ∀ x, b = some x → EntryOk base txid x := by
  obtain ⟨-,hl,-⟩ := hv
  unfold mergeEntry
  cases hd : e.dirty with
  | false =>
    have hs := he.same hd
    simp only [Bool.false_eq_true,if_false]
    refine ⟨_,rfl,?_,fun x hx => hl txid x hx⟩
    rw [hs]
    rfl
  | true =>
    simp only [if_true]
    cases hus : l.cacheCoins.lookup txid with
    | none =>
      have hfresh : e.fresh = true := by
        by_contra hf
        obtain ⟨x,hx⟩ := he.pulled (by simpa using hf)
        rw [hus] at hx
        contradiction
      have habs : base.coins txid = none := by
        have h := he.absent hfresh
        simpa [coins,hus] using h
      cases hp : e.coins.isPruned with
      | true =>
        refine ⟨none,rfl,?_,fun x hx => by contradiction⟩
        rw [CCoins.unspent_eq_none.mpr hp]
        exact habs
      | false =>
        refine ⟨some ⟨e.coins,true,true⟩,by simp [hfresh],rfl,?_⟩
        intro x hx
        obtain rfl := Option.some.inj hx
        exact ⟨he.clean,fun h => by contradiction,fun _ => habs,fun h => by contradiction⟩
    | some us =>
      have hok := hl txid us hus
      by_cases hdrop : (us.fresh && e.coins.isPruned) = true
      · obtain ⟨hf,hp⟩ := Bool.and_eq_true_iff.mp hdrop
        refine ⟨none,by simp [hf,hp],?_,fun x hx => by contradiction⟩
        rw [CCoins.unspent_eq_none.mpr hp]
        exact hok.absent hf
      · refine ⟨some ⟨e.coins,true,us.fresh⟩,by simp only [if_neg hdrop],rfl,?_⟩
        intro x hx
        obtain rfl := Option.some.inj hx
        exact ⟨he.clean,fun h => by contradiction,hok.absent,hok.pulled⟩

theorem batchWriteDirty_keyed (m : AList fun _ : Uint256 => CCoins) (txid : Uint256)
    (e : CCoinsCacheEntry) :
    (fun t => (batchWriteDirty m ⟨txid,e⟩).lookup t) =
      Function.update (fun t => m.lookup t) txid
        (if e.dirty then e.coins.unspent else m.lookup txid) := by
  funext t
  unfold batchWriteDirty batchWriteCoins CCoins.unspent
  by_cases ht : t = txid
  · subst ht
    simp only [Function.update_self]
    split
    · split <;> simp [AList.lookup_erase,AList.lookup_insert]
    · rfl
  · simp only [Function.update_of_ne ht]
    split
    · split
      · exact AList.lookup_erase_ne ht
      · exact AList.lookup_insert_ne ht
    · rfl

theorem CCoinsViewDB.batchWrite_lookup (d : CCoinsViewDB) (m : CCoinsMap) (h : Uint256)
    (txid : Uint256) :
    (d.batchWrite m h).coins.lookup txid =
      match m.lookup txid with
      | none => d.coins.lookup txid
      | some e => if e.dirty then e.coins.unspent else d.coins.lookup txid := by
  obtain ⟨t,hfold,hget⟩ := foldlM_keyed
    (fun (m : AList fun _ : Uint256 => CCoins) t => m.lookup t)
    (fun t e => some (batchWriteDirty t e))
    (fun _ c e => some (if e.dirty then e.coins.unspent else c))
    (fun s k a b hb => ⟨_,rfl,by rw [batchWriteDirty_keyed,Option.some.inj hb]⟩)
    m.entries d.coins m.nodupKeys (fun k a _ => ⟨_,rfl⟩)
  have ht : t = m.entries.foldl batchWriteDirty d.coins := by
    have hp := List.foldlM_pure (m := Option) (f := batchWriteDirty) (b := d.coins) (l := m.entries)
    exact Option.some.inj (hfold.symm.trans hp)
  have hk := hget txid
  simp only [CCoinsViewDB.batchWrite,← ht]
  simp only [AList.lookup] at hk ⊢
  split at hk <;> simp_all

/-- Writing a child's entries to its base never fails an assertion, and makes the
base answer what the child answered. -/
theorem batchWrite_spec {l : CCoinsViewCache} {base : CCoinsView} (hv : (cache l base).Ok)
    (h : Uint256) :
    ∃ base', base.batchWrite l.cacheCoins h = some base' ∧ base'.Ok ∧
      base'.coins = (cache l base).coins ∧ base'.depth = base.depth := by
  obtain ⟨hm,hl,hb⟩ := hv
  cases base with
  | db d =>
    refine ⟨_,rfl,?_,?_,rfl⟩
    · intro txid c hc
      rw [CCoinsViewDB.batchWrite_lookup] at hc
      split at hc
      · exact hb txid c hc
      · rename_i e he
        split at hc
        · obtain ⟨rfl,hp⟩ := CCoins.unspent_eq_some.mp hc
          exact ⟨(hl txid e he).clean,hp⟩
        · exact hb txid c hc
    · funext txid
      simp only [coins,CCoinsViewDB.batchWrite_lookup]
      cases he : l.cacheCoins.lookup txid with
      | none => rfl
      | some e =>
        simp only
        split
        · cases hu : e.coins.unspent with
          | none => rfl
          | some c =>
            obtain ⟨rfl,hp⟩ := CCoins.unspent_eq_some.mp hu
            exact hu
        · rename_i hd
          exact ((hl txid e he).same (by simpa using hd)).symm
  | cache p base₂ =>
    have hmerge : ∀ k a, l.cacheCoins.entries.dlookup k = some a →
        ∃ b, mergeEntry (p.cacheCoins.lookup k) a = some b := by
      intro k a hka
      obtain ⟨b,hb',-,-⟩ := mergeEntry_spec hb (hl k a hka)
      exact ⟨b,hb'⟩
    obtain ⟨m',hfold,hget⟩ := foldlM_keyed (fun (m : CCoinsMap) t => m.lookup t)
      batchWriteEntry (fun _ us e => mergeEntry us e)
      (fun s k a b => batchWriteEntry_keyed s k a b) l.cacheCoins.entries p.cacheCoins
      l.cacheCoins.nodupKeys hmerge
    have hkey : ∀ txid,
        (match m'.lookup txid with
          | some x => x.coins.unspent
          | none => base₂.coins txid) = (cache l (cache p base₂)).coins txid ∧
        ∀ x, m'.lookup txid = some x → EntryOk base₂ txid x := by
      intro txid
      have hk := hget txid
      cases he : l.cacheCoins.entries.dlookup txid with
      | none =>
        have he' : l.cacheCoins.lookup txid = none := he
        rw [he] at hk
        simp only at hk
        rw [hk]
        exact ⟨by simp only [coins,he'],hb.2.1 txid⟩
      | some e =>
        have he' : l.cacheCoins.lookup txid = some e := he
        obtain ⟨b,hb',hans,hok⟩ := mergeEntry_spec hb (hl txid e he)
        rw [he] at hk
        simp only [hb',Option.some.injEq] at hk
        rw [← hk]
        refine ⟨?_,hok⟩
        simp only [coins,he']
        exact hans
    refine ⟨cache { p with cacheCoins := m', hashBlock := h } base₂,?_,?_,?_,rfl⟩
    · simp [batchWrite,hb.1,hfold]
    · exact ⟨hb.1,fun txid x hx => (hkey txid).2 x hx,hb.2.2⟩
    · funext txid
      exact (hkey txid).1

/-- `Flush` keeps every answer and leaves the cache empty. -/
theorem flush_spec {l : CCoinsViewCache} {base : CCoinsView} (hv : (cache l base).Ok) :
    ∃ base', (cache l base).flush = some (cache { l with cacheCoins := ∅ } base') ∧
      (cache { l with cacheCoins := ∅ } base').Ok ∧ base'.coins = (cache l base).coins ∧
      base'.depth = base.depth := by
  obtain ⟨base',hw,hok,hcoins,hdep⟩ := batchWrite_spec hv l.hashBlock
  refine ⟨base',by simp [flush,hw],⟨hv.1,?_,hok⟩,hcoins,hdep⟩
  intro txid e he
  simp at he

end CCoinsView

end Anoncoin
