import Mathlib.Data.Finset.Sort
import Anoncoin.KeyStore

/-!
The key pool of the wallet (wallet.cpp) and the holders of reserved keys. Keys come one
after another from the random source; the writes of the wallet database succeed.
-/

set_option autoImplicit false

namespace Anoncoin
open Lib

/-- `CPubKey()`. -/
def CPubKey.empty : CPubKey := ⟨[]⟩

def CPubKey.isValid (pubkey : CPubKey) : Bool := decide (0 < pubkey.size)

structure CReserveKey where
  nIndex : Int
  vchPubKey : CPubKey
  deriving DecidableEq, Repr

def CReserveKey.create : CReserveKey := ⟨-1,.empty⟩

/-- What a call throws, and an assertion that fails. -/
inductive KeyPoolError where
  | readFailed
  | unknownKey
  | addFailed
  | notValid
  deriving DecidableEq, Repr

/-- The random source of keys, the id of a key and the argument `-keypool`. -/
structure KeySource where
  newKey : Nat → CPubKey
  getID : CPubKey → CKeyID
  nKeyPool : Int

/-- The pool with its records, the keys of the key store, the keys made so far, the holders
by number, and the keys that were kept or handed out for good. -/
structure KeyPoolWallet where
  setKeyPool : Finset Int
  pool : AList fun _ : Int => CPubKey
  haveKey : List CKeyID
  fLocked : Bool
  vchDefaultKey : CPubKey
  nMade : Nat
  holder : Nat → CReserveKey
  kept : List CPubKey

namespace KeyPoolWallet
variable (source : KeySource)

def create : KeyPoolWallet := ⟨∅,∅,[],false,.empty,0,fun _ => .create,[]⟩

/-- `max(GetArg("-keypool", 100), (int64_t)0)`. -/
def nKeys : Nat := source.nKeyPool.toNat

/-- `nTargetSize + 1`, an `unsigned int`. -/
def targetSize (kpSize : Uint32) : Nat :=
  ((if 0 < kpSize.toNat then kpSize.toNat else nKeys source%2^32)+1)%2^32

def generateNewKey (w : KeyPoolWallet) : Except KeyPoolError (CPubKey × KeyPoolWallet) :=
  if w.fLocked then .error .addFailed
  else .ok (source.newKey w.nMade,{ w with
    haveKey := source.getID (source.newKey w.nMade) :: w.haveKey
    nMade := w.nMade+1 })

/-- A new key is written to the pool and its index added to the set. -/
def addPoolKey (w : KeyPoolWallet) (nIndex : Int) : Except KeyPoolError KeyPoolWallet :=
  (w.generateNewKey source).map fun r => { r.2 with
    pool := r.2.pool.insert nIndex r.1
    setKeyPool := insert nIndex r.2.setKeyPool }

/-- The index behind the last one of the set. -/
def nEnd (w : KeyPoolWallet) : Int :=
  if h : w.setKeyPool.Nonempty then w.setKeyPool.max' h+1 else 1

/-- The loop of `TopUpKeyPool`; each round adds one index. -/
def topUpLoop (size : Nat) : Nat → KeyPoolWallet → Except KeyPoolError KeyPoolWallet
  | 0, w => .ok w
  | rounds+1, w =>
      if w.setKeyPool.card < size then
        (w.addPoolKey source w.nEnd).bind (topUpLoop size rounds)
      else .ok w

def topUpKeyPool (w : KeyPoolWallet) (kpSize : Uint32) :
    Except KeyPoolError (Bool × KeyPoolWallet) :=
  if w.fLocked then .ok (false,w)
  else (topUpLoop source (targetSize source kpSize) (targetSize source kpSize) w).map (Prod.mk true)

/-- The loop of `NewKeyPool`. -/
def newPoolLoop : Nat → Nat → KeyPoolWallet → Except KeyPoolError KeyPoolWallet
  | 0, _, w => .ok w
  | rounds+1, i, w => (w.addPoolKey source (i+1)).bind (newPoolLoop rounds (i+1))

/-- The records of the set are erased before the wallet is seen to be locked. -/
def clearPool (w : KeyPoolWallet) : KeyPoolWallet :=
  { w with
    pool := w.setKeyPool.sort.foldl (fun pool nIndex => pool.erase nIndex) w.pool
    setKeyPool := ∅ }

def newKeyPool (w : KeyPoolWallet) : Except KeyPoolError (Bool × KeyPoolWallet) :=
  if w.fLocked then .ok (false,w.clearPool)
  else (newPoolLoop source (nKeys source) 0 w.clearPool).map (Prod.mk true)

/-- The first index of the set and its record. -/
def takeFirst (w : KeyPoolWallet) : Except KeyPoolError (Int × CPubKey × KeyPoolWallet) :=
  if h : w.setKeyPool.Nonempty then
    let nIndex := w.setKeyPool.min' h
    match w.pool.lookup nIndex with
    | none => .error .readFailed
    | some vchPubKey =>
        if source.getID vchPubKey ∉ w.haveKey then .error .unknownKey
        else if !vchPubKey.isValid then .error .notValid
        else .ok (nIndex,vchPubKey,{ w with setKeyPool := w.setKeyPool.erase nIndex })
  else .ok (-1,.empty,w)

def reserveKeyFromKeyPool (w : KeyPoolWallet) :
    Except KeyPoolError (Int × CPubKey × KeyPoolWallet) :=
  if w.fLocked then w.takeFirst source
  else (w.topUpKeyPool source 0).bind fun r => r.2.takeFirst source

def keepKey (w : KeyPoolWallet) (nIndex : Int) : KeyPoolWallet :=
  { w with pool := w.pool.erase nIndex }

def returnKey (w : KeyPoolWallet) (nIndex : Int) : KeyPoolWallet :=
  { w with setKeyPool := insert nIndex w.setKeyPool }

def getKeyFromPool (w : KeyPoolWallet) : Except KeyPoolError (Option CPubKey × KeyPoolWallet) :=
  (w.reserveKeyFromKeyPool source).bind fun r =>
    if r.1 = -1 then
      if r.2.2.fLocked then .ok (none,r.2.2)
      else (r.2.2.generateNewKey source).map fun g =>
        (some g.1,{ g.2 with kept := g.1 :: g.2.kept })
    else .ok (some r.2.1,{ r.2.2.keepKey r.1 with kept := r.2.1 :: r.2.2.kept })

/-- `GetOldestKeyPoolTime` reserves a key and returns it. -/
def getOldestKeyPoolTime (w : KeyPoolWallet) : Except KeyPoolError KeyPoolWallet :=
  (w.reserveKeyFromKeyPool source).map fun r =>
    if r.1 = -1 then r.2.2 else r.2.2.returnKey r.1

def setHolder (w : KeyPoolWallet) (i : Nat) (key : CReserveKey) : KeyPoolWallet :=
  { w with holder := Function.update w.holder i key }

/-- `CReserveKey::GetReservedKey`; a locked wallet without keys falls back to the default key. -/
def getReservedKey (w : KeyPoolWallet) (i : Nat) : Except KeyPoolError (Bool × KeyPoolWallet) :=
  if (w.holder i).nIndex = -1 then
    (w.reserveKeyFromKeyPool source).bind fun r =>
      if r.1 ≠ -1 then .ok (true,r.2.2.setHolder i ⟨r.1,r.2.1⟩)
      else if r.2.2.vchDefaultKey.isValid then
        .ok (true,r.2.2.setHolder i ⟨-1,r.2.2.vchDefaultKey⟩)
      else .ok (false,r.2.2)
  else if (w.holder i).vchPubKey.isValid then .ok (true,w) else .error .notValid

/-- `CReserveKey::KeepKey`. -/
def keepReserved (w : KeyPoolWallet) (i : Nat) : KeyPoolWallet :=
  if (w.holder i).nIndex = -1 then w.setHolder i .create
  else { (w.keepKey (w.holder i).nIndex).setHolder i .create with
    kept := (w.holder i).vchPubKey :: w.kept }

/-- `CReserveKey::ReturnKey`, which the destructor calls, too. -/
def returnReserved (w : KeyPoolWallet) (i : Nat) : KeyPoolWallet :=
  if (w.holder i).nIndex = -1 then w.setHolder i .create
  else (w.returnKey (w.holder i).nIndex).setHolder i .create

/-- The wallet is loaded again: every record of the pool is in the set, no key is reserved. -/
def reload (w : KeyPoolWallet) (fLocked : Bool) : KeyPoolWallet :=
  { w with
    setKeyPool := w.pool.keys.toFinset
    fLocked := fLocked
    holder := fun _ => .create }

end KeyPoolWallet

inductive KeyPoolCall where
  | topUpKeyPool (kpSize : Uint32)
  | newKeyPool
  | getReservedKey (i : Nat)
  | keepKey (i : Nat)
  | returnKey (i : Nat)
  | getKeyFromPool
  | getOldestKeyPoolTime
  | setDefaultKey (vchPubKey : CPubKey)
  | setLocked (fLocked : Bool)
  | reload (fLocked : Bool)

namespace KeyPoolWallet
variable (source : KeySource)

def step (w : KeyPoolWallet) : KeyPoolCall → Except KeyPoolError KeyPoolWallet
  | .topUpKeyPool kpSize => (w.topUpKeyPool source kpSize).map Prod.snd
  | .newKeyPool => (w.newKeyPool source).map Prod.snd
  | .getReservedKey i => (w.getReservedKey source i).map Prod.snd
  | .keepKey i => .ok (w.keepReserved i)
  | .returnKey i => .ok (w.returnReserved i)
  | .getKeyFromPool => (w.getKeyFromPool source).map Prod.snd
  | .getOldestKeyPoolTime => w.getOldestKeyPoolTime source
  | .setDefaultKey vchPubKey => .ok { w with vchDefaultKey := vchPubKey }
  | .setLocked fLocked => .ok { w with fLocked := fLocked }
  | .reload fLocked => .ok (w.reload fLocked)

def Outstanding (w : KeyPoolWallet) (i : Nat) : Prop := (w.holder i).nIndex ≠ -1

/-- No reserved index is among `count` ones from `first` on. -/
def NotReserved (w : KeyPoolWallet) (first : Int) (count : Nat) : Prop :=
  ∀ i, w.Outstanding i → ¬(first ≤ (w.holder i).nIndex ∧ (w.holder i).nIndex < first+count)

/-- The indices that `TopUpKeyPool` gives to new keys are not reserved. -/
def TopUpClear (w : KeyPoolWallet) (kpSize : Uint32) : Prop :=
  w.fLocked = false → w.NotReserved w.nEnd (targetSize source kpSize-w.setKeyPool.card)

/-- The indices that a call gives to new keys are not reserved. -/
def Clear (w : KeyPoolWallet) : KeyPoolCall → Prop
  | .topUpKeyPool kpSize => w.TopUpClear source kpSize
  | .newKeyPool => w.fLocked = false → w.NotReserved 1 (nKeys source)
  | .getReservedKey i => (w.holder i).nIndex = -1 → w.TopUpClear source 0
  | .getKeyFromPool => w.TopUpClear source 0
  | .getOldestKeyPoolTime => w.TopUpClear source 0
  | _ => True

/-- Each index of the set has its record, reserved indices and keys are held once, and a key
that was kept is neither held nor kept again. -/
structure Safe (w : KeyPoolWallet) : Prop where
  record : ∀ nIndex ∈ w.setKeyPool, ∃ vchPubKey, w.pool.lookup nIndex = some vchPubKey
  apart : ∀ i j, i ≠ j → w.Outstanding i → w.Outstanding j →
    (w.holder i).nIndex ≠ (w.holder j).nIndex ∧ (w.holder i).vchPubKey ≠ (w.holder j).vchPubKey
  notKept : ∀ i, w.Outstanding i → (w.holder i).vchPubKey ∉ w.kept
  keptOnce : w.kept.Nodup

/-- The records are those of the set and of the holders, with keys that were made once. -/
structure Inv (w : KeyPoolWallet) : Prop where
  record : ∀ nIndex, (w.pool.lookup nIndex).isSome = true ↔
    nIndex ∈ w.setKeyPool ∨ ∃ i, w.Outstanding i ∧ (w.holder i).nIndex = nIndex
  positive : ∀ nIndex, (w.pool.lookup nIndex).isSome = true → 1 ≤ nIndex
  held : ∀ i, w.Outstanding i → w.pool.lookup (w.holder i).nIndex = some (w.holder i).vchPubKey
  taken : ∀ i, w.Outstanding i → (w.holder i).nIndex ∉ w.setKeyPool
  apart : ∀ i j, w.Outstanding i → w.Outstanding j →
    (w.holder i).nIndex = (w.holder j).nIndex → i = j
  distinct : ∀ m n vchPubKey, w.pool.lookup m = some vchPubKey →
    w.pool.lookup n = some vchPubKey → m = n
  made : ∀ nIndex vchPubKey, w.pool.lookup nIndex = some vchPubKey →
    vchPubKey ∉ w.kept ∧ ∃ n < w.nMade, vchPubKey = source.newKey n
  known : ∀ n < w.nMade, source.getID (source.newKey n) ∈ w.haveKey
  keptMade : ∀ vchPubKey ∈ w.kept, ∃ n < w.nMade, vchPubKey = source.newKey n
  keptOnce : w.kept.Nodup

end KeyPoolWallet

/-- Keys are made once and are valid. -/
structure KeySource.Fresh (source : KeySource) : Prop where
  injective : Function.Injective source.newKey
  valid : ∀ n, (source.newKey n).isValid = true

namespace KeyPoolWallet
variable {source : KeySource} {w w' : KeyPoolWallet}

theorem inv_create : Inv source create := by
  have hnone (i : Nat) : ¬create.Outstanding i := fun h => h rfl
  refine ⟨?_,?_,fun i h => absurd h (hnone i),fun i h => absurd h (hnone i),
    fun i _ h => absurd h (hnone i),?_,?_,?_,?_,List.nodup_nil⟩
  · intro nIndex
    simp [create,Outstanding,CReserveKey.create]
  · intro nIndex h
    simp [create] at h
  · intro m n vchPubKey h
    simp [create] at h
  · intro nIndex vchPubKey h
    simp [create] at h
  · intro n h
    exact absurd h (Nat.not_lt_zero n)
  · intro vchPubKey h
    simp [create] at h

theorem Inv.safe (h : Inv source w) : Safe w := by
  refine ⟨?_,?_,?_,h.keptOnce⟩
  · intro nIndex hn
    exact Option.isSome_iff_exists.mp ((h.record nIndex).mpr (.inl hn))
  · intro i j hij hi hj
    have hindex : (w.holder i).nIndex ≠ (w.holder j).nIndex := fun heq => hij (h.apart i j hi hj heq)
    refine ⟨hindex,fun hkey => hindex ?_⟩
    have hheld := h.held j hj
    rw [← hkey] at hheld
    exact h.distinct _ _ _ (h.held i hi) hheld
  · intro i hi
    exact (h.made _ _ (h.held i hi)).1

/-- The holders, the lock and what was kept stay. -/
structure SameHolders (w w' : KeyPoolWallet) : Prop where
  holder : w'.holder = w.holder
  fLocked : w'.fLocked = w.fLocked
  kept : w'.kept = w.kept

theorem SameHolders.trans {w'' : KeyPoolWallet} (h : SameHolders w w') (h' : SameHolders w' w'') :
    SameHolders w w'' :=
  ⟨h'.holder.trans h.holder,h'.fLocked.trans h.fLocked,h'.kept.trans h.kept⟩

theorem generateNewKey_unlocked (h : w.fLocked = false) :
    w.generateNewKey source = .ok (source.newKey w.nMade,{ w with
      haveKey := source.getID (source.newKey w.nMade) :: w.haveKey
      nMade := w.nMade+1 }) := by
  unfold generateNewKey
  simp [h]

/-- The next key is new: it is in no record and was not kept. -/
theorem Inv.newKey_fresh (h : Inv source w) (hs : source.Fresh) :
    (∀ nIndex, w.pool.lookup nIndex ≠ some (source.newKey w.nMade)) ∧
      source.newKey w.nMade ∉ w.kept := by
  constructor
  · intro nIndex heq
    obtain ⟨n,hn,hkey⟩ := (h.made nIndex _ heq).2
    have := hs.injective hkey
    omega
  · intro hmem
    obtain ⟨n,hn,hkey⟩ := h.keptMade _ hmem
    have := hs.injective hkey
    omega

theorem Inv.made_succ (h : Inv source w) {n : Nat} (hn : n < w.nMade+1) :
    source.getID (source.newKey n) ∈ source.getID (source.newKey w.nMade) :: w.haveKey := by
  rcases Nat.lt_succ_iff_lt_or_eq.mp hn with hlt | rfl
  · exact List.mem_cons_of_mem _ (h.known n hlt)
  · exact List.mem_cons_self

/-- A new key under an index that is neither in the set nor reserved. -/
theorem Inv.addPoolKey (h : Inv source w) (hs : source.Fresh) (hu : w.fLocked = false)
    {nIndex : Int} (hpos : 1 ≤ nIndex) (hset : nIndex ∉ w.setKeyPool)
    (hfree : ∀ i, w.Outstanding i → (w.holder i).nIndex ≠ nIndex) :
    ∃ w', w.addPoolKey source nIndex = .ok w' ∧ Inv source w' ∧
      w'.setKeyPool = insert nIndex w.setKeyPool ∧ SameHolders w w' := by
  obtain ⟨hnew,hnewKept⟩ := h.newKey_fresh hs
  have hnone : w.pool.lookup nIndex = none := by
    rw [← Option.not_isSome_iff_eq_none,h.record nIndex]
    rintro (hmem | ⟨i,hi,heq⟩)
    · exact hset hmem
    · exact hfree i hi heq
  refine ⟨{ w with
    pool := w.pool.insert nIndex (source.newKey w.nMade)
    haveKey := source.getID (source.newKey w.nMade) :: w.haveKey
    nMade := w.nMade+1
    setKeyPool := insert nIndex w.setKeyPool },?_,?_,rfl,rfl,rfl,rfl⟩
  · unfold KeyPoolWallet.addPoolKey
    rw [generateNewKey_unlocked hu]
    rfl
  · have hlookup (m : Int) : (w.pool.insert nIndex (source.newKey w.nMade)).lookup m =
        if m = nIndex then some (source.newKey w.nMade) else w.pool.lookup m := by
      by_cases hm : m = nIndex
      · rw [hm,AList.lookup_insert,if_pos rfl]
      · rw [AList.lookup_insert_ne hm,if_neg hm]
    refine ⟨?_,?_,?_,?_,h.apart,?_,?_,?_,?_,h.keptOnce⟩
    · intro m
      simp only [hlookup,Finset.mem_insert]
      by_cases hm : m = nIndex
      · simp [hm]
      · rw [if_neg hm,h.record m]
        simp only [hm,false_or]
        exact Iff.rfl
    · intro m hm
      simp only [hlookup] at hm
      by_cases heq : m = nIndex
      · rw [heq]
        exact hpos
      · rw [if_neg heq] at hm
        exact h.positive m hm
    · intro i hi
      simp only [hlookup]
      rw [if_neg (hfree i hi)]
      exact h.held i hi
    · intro i hi
      simp only [Finset.mem_insert,not_or]
      exact ⟨hfree i hi,h.taken i hi⟩
    · intro m n vchPubKey hm hn
      simp only [hlookup] at hm hn
      by_cases hmi : m = nIndex
      · by_cases hni : n = nIndex
        · rw [hmi,hni]
        · rw [if_pos hmi,Option.some.injEq] at hm
          rw [if_neg hni,← hm] at hn
          exact absurd hn (hnew n)
      · rw [if_neg hmi] at hm
        by_cases hni : n = nIndex
        · rw [if_pos hni,Option.some.injEq] at hn
          rw [← hn] at hm
          exact absurd hm (hnew m)
        · rw [if_neg hni] at hn
          exact h.distinct m n vchPubKey hm hn
    · intro m vchPubKey hm
      simp only [hlookup] at hm
      by_cases hmi : m = nIndex
      · rw [if_pos hmi,Option.some.injEq] at hm
        rw [← hm]
        exact ⟨hnewKept,w.nMade,Nat.lt_succ_self _,rfl⟩
      · rw [if_neg hmi] at hm
        obtain ⟨hkept,n,hn,hkey⟩ := h.made m vchPubKey hm
        exact ⟨hkept,n,Nat.lt_succ_of_lt hn,hkey⟩
    · intro n hn
      exact h.made_succ hn
    · intro vchPubKey hmem
      obtain ⟨n,hn,hkey⟩ := h.keptMade vchPubKey hmem
      exact ⟨n,Nat.lt_succ_of_lt hn,hkey⟩

theorem lt_nEnd (w : KeyPoolWallet) {nIndex : Int} (h : nIndex ∈ w.setKeyPool) : nIndex < w.nEnd := by
  unfold nEnd
  rw [dif_pos ⟨nIndex,h⟩]
  exact Int.lt_add_one_of_le (Finset.le_max' _ _ h)

theorem Inv.one_le_nEnd (h : Inv source w) : 1 ≤ w.nEnd := by
  unfold nEnd
  split
  · rename_i hne
    have hmem := Finset.max'_mem w.setKeyPool hne
    have hpos := h.positive _ ((h.record _).mpr (.inl hmem))
    omega
  · exact le_refl 1

theorem nEnd_insert (h : w'.setKeyPool = insert w.nEnd w.setKeyPool) : w'.nEnd = w.nEnd+1 := by
  have hne : w'.setKeyPool.Nonempty := ⟨w.nEnd,by simp [h]⟩
  have hmax : w'.setKeyPool.max' hne = w.nEnd := by
    apply le_antisymm
    · apply Finset.max'_le
      intro m hm
      rw [h,Finset.mem_insert] at hm
      rcases hm with rfl | hm
      · exact le_refl _
      · exact le_of_lt (w.lt_nEnd hm)
    · exact Finset.le_max' _ _ (by simp [h])
  conv_lhs => unfold nEnd
  rw [dif_pos hne,hmax]

theorem Inv.topUpLoop (h : Inv source w) (hs : source.Fresh) (hu : w.fLocked = false) (size : Nat)
    (rounds : Nat) (hclear : w.NotReserved w.nEnd (size-w.setKeyPool.card)) :
    ∃ w', KeyPoolWallet.topUpLoop source size rounds w = .ok w' ∧ Inv source w' ∧
      SameHolders w w' ∧ (size ≤ w.setKeyPool.card+rounds → size ≤ w'.setKeyPool.card) := by
  induction rounds generalizing w with
  | zero => exact ⟨w,rfl,h,⟨rfl,rfl,rfl⟩,id⟩
  | succ rounds ih =>
    unfold KeyPoolWallet.topUpLoop
    split
    · rename_i hlt
      have hset : w.nEnd ∉ w.setKeyPool := fun hmem => lt_irrefl _ (w.lt_nEnd hmem)
      obtain ⟨w₁,hadd,h₁,hset₁,hsame₁⟩ := h.addPoolKey hs hu h.one_le_nEnd hset (by
        intro i hi heq
        exact hclear i hi ⟨by omega,by omega⟩)
      have hcard : w₁.setKeyPool.card = w.setKeyPool.card+1 := by
        rw [hset₁,Finset.card_insert_of_notMem hset]
      have hclear₁ : w₁.NotReserved w₁.nEnd (size-w₁.setKeyPool.card) := by
        intro i hi
        have hi' : w.Outstanding i := by
          unfold Outstanding at hi ⊢
          rwa [hsame₁.holder] at hi
        have hc := hclear i hi'
        rw [hsame₁.holder,nEnd_insert hset₁,hcard]
        omega
      obtain ⟨w₂,hloop,h₂,hsame₂,hfull⟩ := ih h₁ (hsame₁.fLocked.trans hu) hclear₁
      rw [hadd]
      exact ⟨w₂,hloop,h₂,hsame₁.trans hsame₂,fun hle => hfull (by omega)⟩
    · rename_i hge
      exact ⟨w,rfl,h,⟨rfl,rfl,rfl⟩,fun _ => not_lt.mp hge⟩

theorem Inv.topUpKeyPool (h : Inv source w) (hs : source.Fresh) {kpSize : Uint32}
    (hclear : w.TopUpClear source kpSize) :
    ∃ r w', w.topUpKeyPool source kpSize = .ok (r,w') ∧ Inv source w' ∧ SameHolders w w' ∧
      (w.fLocked = false → targetSize source kpSize ≤ w'.setKeyPool.card) := by
  unfold KeyPoolWallet.topUpKeyPool
  cases hu : w.fLocked with
  | true => exact ⟨false,w,rfl,h,⟨rfl,rfl,rfl⟩,nofun⟩
  | false =>
    obtain ⟨w',hloop,h',hsame,hfull⟩ := h.topUpLoop hs hu (targetSize source kpSize)
      (targetSize source kpSize) (hclear hu)
    simp only [Bool.false_eq_true,if_false,hloop]
    exact ⟨true,w',rfl,h',hsame,fun _ => hfull (by omega)⟩

theorem lookup_foldl_erase (indices : List Int) (pool : AList fun _ : Int => CPubKey) (m : Int) :
    (indices.foldl (fun pool nIndex => pool.erase nIndex) pool).lookup m =
      if m ∈ indices then none else pool.lookup m := by
  induction indices generalizing pool with
  | nil => simp
  | cons n rest ih =>
    rw [List.foldl_cons,ih]
    by_cases hm : m = n
    · rw [hm,AList.lookup_erase,if_pos List.mem_cons_self,ite_self]
    · rw [AList.lookup_erase_ne hm]
      simp [hm]

/-- Records whose indices are neither in the set nor reserved do not exist. -/
theorem Inv.clearPool (h : Inv source w) : Inv source w.clearPool ∧ SameHolders w w.clearPool := by
  have hlookup (m : Int) : w.clearPool.pool.lookup m =
      if m ∈ w.setKeyPool then none else w.pool.lookup m := by
    simp only [KeyPoolWallet.clearPool,lookup_foldl_erase,Finset.mem_sort]
  have hsub {m : Int} {vchPubKey : CPubKey}
      (hm : w.clearPool.pool.lookup m = some vchPubKey) : w.pool.lookup m = some vchPubKey := by
    rw [hlookup] at hm
    split at hm
    · contradiction
    · exact hm
  refine ⟨⟨?_,?_,?_,?_,h.apart,?_,?_,h.known,h.keptMade,h.keptOnce⟩,rfl,rfl,rfl⟩
  · intro m
    rw [hlookup]
    by_cases hm : m ∈ w.setKeyPool
    · rw [if_pos hm]
      simp only [Option.isSome_none,Bool.false_eq_true,false_iff,not_or]
      refine ⟨by simp [KeyPoolWallet.clearPool],?_⟩
      rintro ⟨i,hi,heq⟩
      exact h.taken i hi (by rw [show (w.holder i).nIndex = m from heq]; exact hm)
    · rw [if_neg hm,h.record m]
      simp only [hm,false_or]
      simp [KeyPoolWallet.clearPool,Outstanding]
  · intro m hm
    obtain ⟨vchPubKey,hv⟩ := Option.isSome_iff_exists.mp hm
    exact h.positive m (by rw [hsub hv]; rfl)
  · intro i hi
    have htaken : (w.clearPool.holder i).nIndex ∉ w.setKeyPool := h.taken i hi
    rw [hlookup,if_neg htaken]
    exact h.held i hi
  · intro i hi
    simp [KeyPoolWallet.clearPool]
  · intro m n vchPubKey hm hn
    exact h.distinct m n vchPubKey (hsub hm) (hsub hn)
  · intro m vchPubKey hm
    exact h.made m vchPubKey (hsub hm)

theorem Inv.newPoolLoop (h : Inv source w) (hs : source.Fresh) (hu : w.fLocked = false)
    (rounds i : Nat) (hset : ∀ m ∈ w.setKeyPool, m ≤ i) (hclear : w.NotReserved (i+1) rounds) :
    ∃ w', KeyPoolWallet.newPoolLoop source rounds i w = .ok w' ∧ Inv source w' ∧
      SameHolders w w' := by
  induction rounds generalizing w i with
  | zero => exact ⟨w,rfl,h,rfl,rfl,rfl⟩
  | succ rounds ih =>
    have hnot : ((i : Int)+1) ∉ w.setKeyPool := fun hmem => by
      have := hset _ hmem
      omega
    obtain ⟨w₁,hadd,h₁,hset₁,hsame₁⟩ := h.addPoolKey hs hu (by omega) hnot (by
      intro j hj heq
      exact hclear j hj ⟨by omega,by push_cast; omega⟩)
    have hle : ∀ m ∈ w₁.setKeyPool, m ≤ ((i+1 : Nat) : Int) := by
      intro m hm
      rw [hset₁,Finset.mem_insert] at hm
      rcases hm with rfl | hm
      · push_cast
        exact le_refl _
      · have := hset m hm
        push_cast
        omega
    have hclear₁ : w₁.NotReserved ((i+1 : Nat)+1) rounds := by
      intro j hj
      have hj' : w.Outstanding j := by
        unfold Outstanding at hj ⊢
        rwa [hsame₁.holder] at hj
      have hc := hclear j hj'
      rw [hsame₁.holder]
      push_cast at hc ⊢
      omega
    obtain ⟨w₂,hloop,h₂,hsame₂⟩ := ih h₁ (hsame₁.fLocked.trans hu) (i+1) hle hclear₁
    unfold KeyPoolWallet.newPoolLoop
    rw [hadd]
    exact ⟨w₂,hloop,h₂,hsame₁.trans hsame₂⟩

theorem Inv.newKeyPool (h : Inv source w) (hs : source.Fresh)
    (hclear : w.fLocked = false → w.NotReserved 1 (nKeys source)) :
    ∃ r w', w.newKeyPool source = .ok (r,w') ∧ Inv source w' := by
  obtain ⟨h₁,hsame⟩ := h.clearPool
  unfold KeyPoolWallet.newKeyPool
  cases hu : w.fLocked with
  | true => exact ⟨false,w.clearPool,rfl,h₁⟩
  | false =>
    have hc : w.clearPool.NotReserved (((0 : Nat) : Int)+1) (nKeys source) := hclear hu
    obtain ⟨w',hloop,h',-⟩ := h₁.newPoolLoop hs (hsame.fLocked.trans hu) (nKeys source) 0
      (by simp [KeyPoolWallet.clearPool]) hc
    simp only [Bool.false_eq_true,if_false,hloop]
    exact ⟨true,w',rfl,h'⟩

/-- The wallet after a key was taken out of the set. -/
structure Taken (source : KeySource) (before : KeyPoolWallet) (nIndex : Int) (vchPubKey : CPubKey)
    (w : KeyPoolWallet) : Prop where
  inv : Inv source before
  mem : nIndex ∈ before.setKeyPool
  lookup : before.pool.lookup nIndex = some vchPubKey
  eq : w = { before with setKeyPool := before.setKeyPool.erase nIndex }

theorem Taken.one_le {before : KeyPoolWallet} {nIndex : Int} {vchPubKey : CPubKey}
    (h : Taken source before nIndex vchPubKey w) : 1 ≤ nIndex :=
  h.inv.positive nIndex (by rw [h.lookup]; rfl)

theorem Taken.free {before : KeyPoolWallet} {nIndex : Int} {vchPubKey : CPubKey}
    (h : Taken source before nIndex vchPubKey w) {i : Nat} (hi : before.Outstanding i) :
    (before.holder i).nIndex ≠ nIndex := by
  intro heq
  exact h.inv.taken i hi (heq ▸ h.mem)

theorem Inv.takeFirst (h : Inv source w) (hs : source.Fresh) :
    ∃ r, w.takeFirst source = .ok r ∧ ((r.1 = -1 ∧ r.2.2 = w ∧ w.setKeyPool = ∅) ∨
      Taken source w r.1 r.2.1 r.2.2) := by
  unfold KeyPoolWallet.takeFirst
  by_cases hne : w.setKeyPool.Nonempty
  · have hmem := Finset.min'_mem w.setKeyPool hne
    obtain ⟨vchPubKey,hlookup⟩ := h.safe.record _ hmem
    obtain ⟨-,n,hn,hkey⟩ := h.made _ _ hlookup
    have hknown : source.getID vchPubKey ∈ w.haveKey := by
      rw [hkey]
      exact h.known n hn
    have hvalid : vchPubKey.isValid = true := by
      rw [hkey]
      exact hs.valid n
    rw [dif_pos hne]
    simp only [hlookup,hknown,not_true_eq_false,if_false,hvalid,Bool.not_true,Bool.false_eq_true]
    exact ⟨_,rfl,.inr ⟨h,hmem,hlookup,rfl⟩⟩
  · rw [dif_neg hne]
    exact ⟨_,rfl,.inl ⟨rfl,rfl,Finset.not_nonempty_iff_eq_empty.mp hne⟩⟩

/-- What a reservation comes to; it never fails. -/
theorem Inv.reserveKeyFromKeyPool (h : Inv source w) (hs : source.Fresh)
    (hclear : w.TopUpClear source 0) :
    ∃ r before, w.reserveKeyFromKeyPool source = .ok r ∧ Inv source before ∧
      SameHolders w before ∧ ((r.1 = -1 ∧ r.2.2 = before) ∨
        Taken source before r.1 r.2.1 r.2.2) := by
  unfold KeyPoolWallet.reserveKeyFromKeyPool
  cases hu : w.fLocked with
  | true =>
    obtain ⟨r,hr,hcase⟩ := h.takeFirst hs
    refine ⟨r,w,hr,h,⟨rfl,rfl,rfl⟩,?_⟩
    rcases hcase with ⟨hindex,hw,-⟩ | htaken
    · exact .inl ⟨hindex,hw⟩
    · exact .inr htaken
  | false =>
    obtain ⟨t,w₁,htop,h₁,hsame,-⟩ := h.topUpKeyPool hs hclear
    obtain ⟨r,hr,hcase⟩ := h₁.takeFirst hs
    simp only [Bool.false_eq_true,if_false,htop]
    refine ⟨r,w₁,hr,h₁,hsame,?_⟩
    rcases hcase with ⟨hindex,hw,-⟩ | htaken
    · exact .inl ⟨hindex,hw⟩
    · exact .inr htaken

/-- A taken key goes to a holder that has none. -/
theorem Taken.hold {before : KeyPoolWallet} {nIndex : Int} {vchPubKey : CPubKey}
    (h : Taken source before nIndex vchPubKey w) {i : Nat} (hi : ¬before.Outstanding i) :
    Inv source (w.setHolder i ⟨nIndex,vchPubKey⟩) := by
  have hpos := h.one_le
  have hfree := @Taken.free source w before nIndex vchPubKey h
  obtain ⟨hinv,hmem,hlookup,rfl⟩ := h
  have hother {j : Nat} (hj : j ≠ i) :
      Function.update before.holder i ⟨nIndex,vchPubKey⟩ j = before.holder j :=
    Function.update_of_ne hj _ _
  have hself : Function.update before.holder i ⟨nIndex,vchPubKey⟩ i = ⟨nIndex,vchPubKey⟩ :=
    Function.update_self _ _ _
  refine ⟨?_,hinv.positive,?_,?_,?_,hinv.distinct,hinv.made,hinv.known,hinv.keptMade,
    hinv.keptOnce⟩
  · intro m
    simp only [setHolder,Outstanding]
    rw [hinv.record m,Finset.mem_erase]
    constructor
    · rintro (hm | ⟨j,hj,heq⟩)
      · by_cases hmi : m = nIndex
        · refine .inr ⟨i,?_,?_⟩
          · rw [hself]
            simp only
            omega
          · rw [hself,hmi]
        · exact .inl ⟨hmi,hm⟩
      · have hji : j ≠ i := fun hji => hi (hji ▸ hj)
        refine .inr ⟨j,?_,?_⟩
        · rw [hother hji]
          exact hj
        · rw [hother hji]
          exact heq
    · rintro (hm | ⟨j,hj,heq⟩)
      · exact .inl hm.2
      · by_cases hji : j = i
        · rw [hji,hself] at heq
          exact .inl (heq ▸ hmem)
        · rw [hother hji] at hj heq
          exact .inr ⟨j,hj,heq⟩
  · intro j hj
    simp only [setHolder,Outstanding] at hj ⊢
    by_cases hji : j = i
    · rw [hji,hself]
      exact hlookup
    · rw [hother hji] at hj ⊢
      exact hinv.held j hj
  · intro j hj
    simp only [setHolder,Outstanding] at hj ⊢
    by_cases hji : j = i
    · rw [hji,hself]
      exact Finset.notMem_erase _ _
    · rw [hother hji] at hj ⊢
      exact fun hm => hinv.taken j hj (Finset.mem_of_mem_erase hm)
  · intro j k hj hk heq
    simp only [setHolder,Outstanding] at hj hk heq
    by_cases hji : j = i
    · by_cases hki : k = i
      · rw [hji,hki]
      · rw [hji,hself,hother hki] at heq
        rw [hother hki] at hk
        exact absurd heq.symm (hfree hk)
    · by_cases hki : k = i
      · rw [hki,hself,hother hji] at heq
        rw [hother hji] at hj
        exact absurd heq (hfree hj)
      · rw [hother hji] at hj heq
        rw [hother hki] at hk heq
        exact hinv.apart j k hj hk heq

/-- A taken key is kept for good. -/
theorem Taken.keep {before : KeyPoolWallet} {nIndex : Int} {vchPubKey : CPubKey}
    (h : Taken source before nIndex vchPubKey w) :
    Inv source { w.keepKey nIndex with kept := vchPubKey :: w.kept } := by
  have hfree := @Taken.free source w before nIndex vchPubKey h
  obtain ⟨hinv,hmem,hlookup,rfl⟩ := h
  have hlook (m : Int) : (before.pool.erase nIndex).lookup m =
      if m = nIndex then none else before.pool.lookup m := by
    by_cases hm : m = nIndex
    · rw [hm,AList.lookup_erase,if_pos rfl]
    · rw [AList.lookup_erase_ne hm,if_neg hm]
  have hsub {m : Int} {key : CPubKey} (hm : (before.pool.erase nIndex).lookup m = some key) :
      m ≠ nIndex ∧ before.pool.lookup m = some key := by
    rw [hlook] at hm
    split at hm
    · contradiction
    · rename_i hne
      exact ⟨hne,hm⟩
  obtain ⟨hkept,hmade⟩ := hinv.made nIndex vchPubKey hlookup
  refine ⟨?_,?_,?_,?_,hinv.apart,?_,?_,hinv.known,?_,List.nodup_cons.mpr ⟨hkept,hinv.keptOnce⟩⟩
  · intro m
    simp only [keepKey,hlook,Finset.mem_erase]
    by_cases hm : m = nIndex
    · rw [if_pos hm]
      simp only [hm,Option.isSome_none,Bool.false_eq_true,ne_eq,not_true_eq_false,false_and,
        false_or,false_iff,not_exists]
      rintro i ⟨hi,heq⟩
      exact hfree hi heq
    · rw [if_neg hm,hinv.record m]
      simp only [hm,ne_eq,not_false_eq_true,true_and]
      exact Iff.rfl
  · intro m hm
    obtain ⟨key,hkey⟩ := Option.isSome_iff_exists.mp hm
    exact hinv.positive m (by rw [(hsub hkey).2]; rfl)
  · intro i hi
    simp only [keepKey,hlook]
    rw [if_neg (hfree hi)]
    exact hinv.held i hi
  · intro i hi hm
    exact hinv.taken i hi (Finset.mem_of_mem_erase hm)
  · intro m n key hm hn
    exact hinv.distinct m n key (hsub hm).2 (hsub hn).2
  · intro m key hm
    obtain ⟨hne,hm⟩ := hsub hm
    obtain ⟨hkey,hmadeKey⟩ := hinv.made m key hm
    refine ⟨?_,hmadeKey⟩
    simp only [List.mem_cons,not_or]
    refine ⟨fun heq => hne ?_,hkey⟩
    rw [heq] at hm
    exact hinv.distinct m nIndex vchPubKey hm hlookup
  · intro key hkey
    rcases List.mem_cons.mp hkey with rfl | hkey
    · exact hmade
    · exact hinv.keptMade key hkey

/-- A taken key goes back. -/
theorem Taken.giveBack {before : KeyPoolWallet} {nIndex : Int} {vchPubKey : CPubKey}
    (h : Taken source before nIndex vchPubKey w) : w.returnKey nIndex = before := by
  obtain ⟨-,hmem,-,rfl⟩ := h
  unfold returnKey
  rw [Finset.insert_erase hmem]

/-- A holder without a reserved key may be set to the default key or be made anew. -/
theorem Inv.setFree (h : Inv source w) {i : Nat} (hi : ¬w.Outstanding i) (vchPubKey : CPubKey) :
    Inv source (w.setHolder i ⟨-1,vchPubKey⟩) := by
  have hself : Function.update w.holder i ⟨-1,vchPubKey⟩ i = ⟨-1,vchPubKey⟩ :=
    Function.update_self _ _ _
  have hother {j : Nat} (hj : (Function.update w.holder i ⟨-1,vchPubKey⟩ j).nIndex ≠ -1) :
      Function.update w.holder i ⟨-1,vchPubKey⟩ j = w.holder j := by
    apply Function.update_of_ne
    rintro rfl
    exact hj (by rw [hself])
  refine ⟨?_,h.positive,?_,?_,?_,h.distinct,h.made,h.known,h.keptMade,h.keptOnce⟩
  · intro m
    refine (h.record m).trans ?_
    constructor
    · rintro (hm | ⟨j,hj,heq⟩)
      · exact .inl hm
      · have hji : j ≠ i := fun hji => hi (hji ▸ hj)
        have hsame : Function.update w.holder i ⟨-1,vchPubKey⟩ j = w.holder j :=
          Function.update_of_ne hji _ _
        refine .inr ⟨j,?_,?_⟩
        · simp only [Outstanding,setHolder,hsame]
          exact hj
        · simp only [setHolder,hsame]
          exact heq
    · rintro (hm | ⟨j,hj,heq⟩)
      · exact .inl hm
      · have hsame := hother hj
        simp only [Outstanding,setHolder,hsame] at hj heq
        exact .inr ⟨j,hj,heq⟩
  · intro j hj
    have hsame := hother hj
    simp only [Outstanding,setHolder] at hj ⊢
    rw [hsame] at hj ⊢
    exact h.held j hj
  · intro j hj
    have hsame := hother hj
    simp only [Outstanding,setHolder,hsame] at hj ⊢
    exact h.taken j hj
  · intro j k hj hk heq
    have hsamej := hother hj
    have hsamek := hother hk
    simp only [Outstanding,setHolder,hsamej,hsamek] at hj hk heq
    exact h.apart j k hj hk heq

/-- A holder that gives up its key leaves a taken key. -/
theorem Inv.release (h : Inv source w) {i : Nat} (hi : w.Outstanding i) :
    Taken source (w.returnReserved i) (w.holder i).nIndex (w.holder i).vchPubKey
      (w.setHolder i .create) := by
  have hreturn : w.returnReserved i = { w with
      setKeyPool := insert (w.holder i).nIndex w.setKeyPool
      holder := Function.update w.holder i .create } := by
    unfold returnReserved
    rw [if_neg hi]
    rfl
  have hself : Function.update w.holder i .create i = .create := Function.update_self _ _ _
  have hother {j : Nat} (hj : (Function.update w.holder i .create j).nIndex ≠ -1) :
      j ≠ i ∧ Function.update w.holder i .create j = w.holder j := by
    have hji : j ≠ i := by
      rintro rfl
      exact hj (by rw [hself]; rfl)
    exact ⟨hji,Function.update_of_ne hji _ _⟩
  refine ⟨?_,?_,?_,?_⟩
  · rw [hreturn]
    refine ⟨?_,h.positive,?_,?_,?_,h.distinct,h.made,h.known,h.keptMade,h.keptOnce⟩
    · intro m
      refine (h.record m).trans ?_
      simp only [Outstanding,Finset.mem_insert]
      constructor
      · rintro (hm | ⟨j,hj,heq⟩)
        · exact .inl (.inr hm)
        · by_cases hji : j = i
          · rw [← heq,hji]
            exact .inl (.inl rfl)
          · have hsame : Function.update w.holder i .create j = w.holder j :=
              Function.update_of_ne hji _ _
            refine .inr ⟨j,?_,?_⟩
            · rw [hsame]
              exact hj
            · rw [hsame]
              exact heq
      · rintro ((rfl | hm) | ⟨j,hj,heq⟩)
        · exact .inr ⟨i,hi,rfl⟩
        · exact .inl hm
        · have hsame := (hother hj).2
          rw [hsame] at hj heq
          exact .inr ⟨j,hj,heq⟩
    · intro j hj
      have hsame := (hother hj).2
      simp only [Outstanding] at hj ⊢
      rw [hsame] at hj ⊢
      exact h.held j hj
    · intro j hj
      obtain ⟨hji,hsame⟩ := hother hj
      simp only [Outstanding,Finset.mem_insert,not_or,hsame] at hj ⊢
      exact ⟨fun heq => hji (h.apart j i hj hi heq),h.taken j hj⟩
    · intro j k hj hk heq
      have hsamej := (hother hj).2
      have hsamek := (hother hk).2
      simp only [Outstanding,hsamej,hsamek] at hj hk heq
      exact h.apart j k hj hk heq
  · rw [hreturn]
    exact Finset.mem_insert_self _ _
  · rw [hreturn]
    exact h.held i hi
  · rw [hreturn]
    simp only [setHolder,Finset.erase_insert (h.taken i hi)]

/-- A key that is handed out at once is kept, too. -/
theorem Inv.giveNew (h : Inv source w) (hs : source.Fresh) :
    Inv source { w with
      haveKey := source.getID (source.newKey w.nMade) :: w.haveKey
      nMade := w.nMade+1
      kept := source.newKey w.nMade :: w.kept } := by
  obtain ⟨hnew,hnewKept⟩ := h.newKey_fresh hs
  refine ⟨h.record,h.positive,h.held,h.taken,h.apart,h.distinct,?_,?_,?_,
    List.nodup_cons.mpr ⟨hnewKept,h.keptOnce⟩⟩
  · intro nIndex vchPubKey hlookup
    obtain ⟨hkept,n,hn,hkey⟩ := h.made nIndex vchPubKey hlookup
    refine ⟨?_,n,Nat.lt_succ_of_lt hn,hkey⟩
    simp only [List.mem_cons,not_or]
    refine ⟨fun heq => hnew nIndex ?_,hkept⟩
    rw [← heq]
    exact hlookup
  · intro n hn
    exact h.made_succ hn
  · intro vchPubKey hmem
    rcases List.mem_cons.mp hmem with rfl | hmem
    · exact ⟨w.nMade,Nat.lt_succ_self _,rfl⟩
    · obtain ⟨n,hn,hkey⟩ := h.keptMade vchPubKey hmem
      exact ⟨n,Nat.lt_succ_of_lt hn,hkey⟩

theorem Inv.getReservedKey (h : Inv source w) (hs : source.Fresh) {i : Nat}
    (hclear : (w.holder i).nIndex = -1 → w.TopUpClear source 0) :
    ∃ r w', w.getReservedKey source i = .ok (r,w') ∧ Inv source w' := by
  unfold KeyPoolWallet.getReservedKey
  by_cases hi : (w.holder i).nIndex = -1
  · obtain ⟨r,before,hr,hbefore,hsame,hcase⟩ := h.reserveKeyFromKeyPool hs (hclear hi)
    have hfree : ¬before.Outstanding i := by
      unfold Outstanding
      rw [hsame.holder]
      exact not_not.mpr hi
    rw [if_pos hi,hr]
    simp only [Except.bind]
    rcases hcase with ⟨hindex,hw⟩ | htaken
    · rw [if_neg (not_not.mpr hindex),hw]
      split
      · exact ⟨_,_,rfl,hbefore.setFree hfree _⟩
      · exact ⟨_,_,rfl,hbefore⟩
    · have hpos := htaken.one_le
      rw [if_pos (by omega)]
      exact ⟨_,_,rfl,htaken.hold hfree⟩
  · have hvalid : (w.holder i).vchPubKey.isValid = true := by
      obtain ⟨-,n,-,hkey⟩ := h.made _ _ (h.held i hi)
      rw [hkey]
      exact hs.valid n
    rw [if_neg hi,if_pos hvalid]
    exact ⟨_,_,rfl,h⟩

theorem Inv.getKeyFromPool (h : Inv source w) (hs : source.Fresh)
    (hclear : w.TopUpClear source 0) :
    ∃ r w', w.getKeyFromPool source = .ok (r,w') ∧ Inv source w' := by
  obtain ⟨r,before,hr,hbefore,-,hcase⟩ := h.reserveKeyFromKeyPool hs hclear
  unfold KeyPoolWallet.getKeyFromPool
  rw [hr]
  simp only [Except.bind]
  rcases hcase with ⟨hindex,hw⟩ | htaken
  · rw [if_pos hindex,hw]
    cases hu : before.fLocked with
    | true => exact ⟨_,_,rfl,hbefore⟩
    | false =>
      simp only [Bool.false_eq_true,if_false,generateNewKey_unlocked hu]
      exact ⟨_,_,rfl,hbefore.giveNew hs⟩
  · have hpos := htaken.one_le
    rw [if_neg (by omega)]
    exact ⟨_,_,rfl,htaken.keep⟩

theorem Inv.getOldestKeyPoolTime (h : Inv source w) (hs : source.Fresh)
    (hclear : w.TopUpClear source 0) :
    ∃ w', w.getOldestKeyPoolTime source = .ok w' ∧ Inv source w' := by
  obtain ⟨r,before,hr,hbefore,-,hcase⟩ := h.reserveKeyFromKeyPool hs hclear
  unfold KeyPoolWallet.getOldestKeyPoolTime
  rw [hr]
  simp only [Except.map]
  rcases hcase with ⟨hindex,hw⟩ | htaken
  · rw [if_pos hindex,hw]
    exact ⟨_,rfl,hbefore⟩
  · have hpos := htaken.one_le
    rw [if_neg (by omega),htaken.giveBack]
    exact ⟨_,rfl,hbefore⟩

theorem Inv.keepReserved (h : Inv source w) (i : Nat) : Inv source (w.keepReserved i) := by
  unfold KeyPoolWallet.keepReserved
  split
  · rename_i hi
    exact h.setFree (not_not.mpr hi) .empty
  · rename_i hi
    exact (h.release hi).keep

theorem Inv.returnReserved (h : Inv source w) (i : Nat) : Inv source (w.returnReserved i) := by
  by_cases hi : (w.holder i).nIndex = -1
  · unfold KeyPoolWallet.returnReserved
    rw [if_pos hi]
    exact h.setFree (not_not.mpr hi) .empty
  · exact (h.release hi).inv

/-- After a restart the records, and so the set, hold what was in the set or reserved. -/
theorem Inv.reload (h : Inv source w) (fLocked : Bool) : Inv source (w.reload fLocked) := by
  have hnone (i : Nat) : ¬(w.reload fLocked).Outstanding i := fun hi => hi rfl
  refine ⟨?_,h.positive,fun i hi => absurd hi (hnone i),fun i hi => absurd hi (hnone i),
    fun i _ hi => absurd hi (hnone i),h.distinct,h.made,h.known,h.keptMade,h.keptOnce⟩
  intro m
  simp only [KeyPoolWallet.reload,List.mem_toFinset,AList.mem_keys,AList.lookup_isSome]
  constructor
  · exact .inl
  · rintro (hm | ⟨i,hi,-⟩)
    · exact hm
    · exact absurd hi (hnone i)

/-- A step that overwrites no reserved record is made, and keeps the invariant. -/
theorem Inv.step (h : Inv source w) (hs : source.Fresh) {call : KeyPoolCall}
    (hclear : w.Clear source call) :
    ∃ w', w.step source call = .ok w' ∧ Inv source w' := by
  cases call with
  | topUpKeyPool kpSize =>
    obtain ⟨r,w',hr,h',-,-⟩ := h.topUpKeyPool hs hclear
    exact ⟨w',by simp [KeyPoolWallet.step,hr,Except.map],h'⟩
  | newKeyPool =>
    obtain ⟨r,w',hr,h'⟩ := h.newKeyPool hs hclear
    exact ⟨w',by simp [KeyPoolWallet.step,hr,Except.map],h'⟩
  | getReservedKey i =>
    obtain ⟨r,w',hr,h'⟩ := h.getReservedKey hs hclear
    exact ⟨w',by simp [KeyPoolWallet.step,hr,Except.map],h'⟩
  | keepKey i => exact ⟨_,rfl,h.keepReserved i⟩
  | returnKey i => exact ⟨_,rfl,h.returnReserved i⟩
  | getKeyFromPool =>
    obtain ⟨r,w',hr,h'⟩ := h.getKeyFromPool hs hclear
    exact ⟨w',by simp [KeyPoolWallet.step,hr,Except.map],h'⟩
  | getOldestKeyPoolTime => exact h.getOldestKeyPoolTime hs hclear
  | setDefaultKey vchPubKey =>
    exact ⟨_,rfl,h.record,h.positive,h.held,h.taken,h.apart,h.distinct,h.made,h.known,h.keptMade,
      h.keptOnce⟩
  | setLocked fLocked =>
    exact ⟨_,rfl,h.record,h.positive,h.held,h.taken,h.apart,h.distinct,h.made,h.known,h.keptMade,
      h.keptOnce⟩
  | reload fLocked => exact ⟨_,rfl,h.reload fLocked⟩

/-- The states that runs lead to in which no call writes the record of a reserved index. -/
def ClearRun (source : KeySource) (w : KeyPoolWallet) : Prop :=
  ReachableBy (fun s e s' => s.step source e = .ok s') (fun s e => s.Clear source e) create w

theorem ClearRun.inv (h : ClearRun source w) (hs : source.Fresh) : Inv source w :=
  ReachableBy.invariant (Inv source) h inv_create fun s e s' hinv hclear hstep => by
    obtain ⟨s₁,hs₁,hinv₁⟩ := hinv.step hs hclear
    rw [hstep] at hs₁
    obtain rfl := Except.ok.inj hs₁
    exact hinv₁

end KeyPoolWallet

/-- Keys told apart by their length. -/
def lengthKeys (nKeyPool : Int) : KeySource where
  newKey n := ⟨2 :: List.replicate n 0⟩
  getID pubkey := BitVec.ofNat 160 pubkey.vch.length
  nKeyPool := nKeyPool

theorem lengthKeys_fresh (nKeyPool : Int) : (lengthKeys nKeyPool).Fresh := by
  refine ⟨?_,fun n => rfl⟩
  intro m n h
  have hlen := congrArg (fun key : CPubKey => key.vch.length) h
  simpa [lengthKeys] using hlen

namespace KeyPoolWallet

end KeyPoolWallet

end Anoncoin
