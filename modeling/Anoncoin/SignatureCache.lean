import Anoncoin.KeyPool
import Anoncoin.Lib.OrderedSet
import Anoncoin.Lib.Runs
import Anoncoin.Signing

/-!
The cache of valid signatures (sigcache.cpp), a set in the order of the triples, and the checker
that asks it first. Several threads may be between their lookup and their insertion.
-/

set_option autoImplicit false

namespace Anoncoin
open Lib

def byteLess (a b : UInt8) : Bool := decide (a < b)

/-- `operator<` of vectors, and the sign of `memcmp` on as many bytes. -/
def bytesLess : List UInt8 → List UInt8 → Bool := lexLess byteLess

namespace CPubKey

def header (pubkey : CPubKey) : UInt8 := pubkey.vch.headD 0xff

/-- `operator==`. -/
def equal (a b : CPubKey) : Bool :=
  a.header == b.header && a.vch.take a.size == b.vch.take a.size

/-- `operator<`. -/
def less (a b : CPubKey) : Bool :=
  decide (a.header < b.header) ||
    (a.header == b.header && bytesLess (a.vch.take a.size) (b.vch.take a.size))

end CPubKey

/-- `sigdata_type`. -/
structure Sigdata where
  hash : Uint256
  vchSig : Valtype
  pubKey : CPubKey
  deriving DecidableEq, Repr

namespace Sigdata

/-- The comparison of the tuples. -/
def less (a b : Sigdata) : Bool :=
  decide (a.hash < b.hash) || (!decide (b.hash < a.hash) &&
    (bytesLess a.vchSig b.vchSig || (!bytesLess b.vchSig a.vchSig && a.pubKey.less b.pubKey)))

/-- The parts are equal, each by its own `operator==`. -/
def Same (a b : Sigdata) : Prop :=
  a.hash = b.hash ∧ a.vchSig = b.vchSig ∧ a.pubKey.equal b.pubKey = true

/-- What is compared. -/
def parts (a : Sigdata) : Uint256 × Valtype × UInt8 × Valtype :=
  (a.hash,a.vchSig,a.pubKey.header,a.pubKey.toByteVector)

theorem totalLess_byteLess : TotalLess byteLess := by
  have hnat : byteLess = fun a b => decide (a.toNat < b.toNat) := by
    funext a b
    exact decide_eq_decide.mpr UInt8.lt_iff_toNat_lt
  rw [hnat]
  exact totalLess_lt fun a b => UInt8.toNat_inj.mp

theorem totalLess_bytesLess : TotalLess bytesLess := totalLess_byteLess.lexLess

/-- The comparison of what is compared. -/
def partsLess : (a b : Uint256 × Valtype × UInt8 × Valtype) → Bool :=
  pairLess (fun a b => decide (a < b)) (pairLess bytesLess (pairLess byteLess bytesLess))

theorem totalLess_hash : TotalLess fun a b : Uint256 => decide (a < b) := by
  have hnat : (fun a b : Uint256 => decide (a < b)) = fun a b => decide (a.toNat < b.toNat) := by
    funext a b
    exact decide_eq_decide.mpr BitVec.lt_def
  rw [hnat]
  exact totalLess_lt fun a b => BitVec.eq_of_toNat_eq

theorem totalLess_partsLess : TotalLess partsLess :=
  totalLess_hash.pairLess
    (totalLess_bytesLess.pairLess (totalLess_byteLess.pairLess totalLess_bytesLess))

theorem size_of_header {a b : CPubKey} (h : a.header = b.header) : a.size = b.size :=
  congrArg CPubKey.getLen h

theorem pubKeyLess_eq (a b : CPubKey) :
    a.less b = pairLess byteLess bytesLess (a.header,a.toByteVector) (b.header,b.toByteVector) := by
  rw [Bool.eq_iff_iff,pairLess_iff totalLess_byteLess]
  unfold CPubKey.less CPubKey.toByteVector byteLess
  simp only [Bool.or_eq_true,Bool.and_eq_true,beq_iff_eq]
  refine or_congr_right (and_congr_right fun h => ?_)
  rw [size_of_header h]

theorem less_eq (a b : Sigdata) : a.less b = partsLess a.parts b.parts := by
  unfold less
  rw [pubKeyLess_eq]
  rfl

instance : StrictLess less where
  irrefl a := by rw [less_eq,totalLess_partsLess.irrefl]
  trans hab hbc := by
    rw [less_eq] at hab hbc ⊢
    exact totalLess_partsLess.trans hab hbc

/-- Triples that the set cannot tell apart are equal. -/
theorem same_of_not_less {a b : Sigdata} (hab : a.less b = false) (hba : b.less a = false) :
    Same a b := by
  rw [less_eq] at hab hba
  have hparts := totalLess_partsLess.connected (by rw [hab]; exact Bool.false_ne_true)
    (by rw [hba]; exact Bool.false_ne_true)
  simp only [parts,Prod.mk.injEq] at hparts
  obtain ⟨hhash,hsig,hheader,hbytes⟩ := hparts
  refine ⟨hhash,hsig,?_⟩
  unfold CPubKey.toByteVector at hbytes
  unfold CPubKey.equal
  rw [Bool.and_eq_true,beq_iff_eq,beq_iff_eq,hbytes,size_of_header hheader]
  exact ⟨hheader,rfl⟩

/-- `CPubKey::Verify` of the triple. -/
def verify (ecdsaVerify : Valtype → Valtype → Uint256 → Bool) (k : Sigdata) : Bool :=
  k.pubKey.isValid && ecdsaVerify k.vchSig k.pubKey.toByteVector k.hash

theorem Same.verify {a b : Sigdata} (h : Same a b)
    (ecdsaVerify : Valtype → Valtype → Uint256 → Bool) :
    a.verify ecdsaVerify = b.verify ecdsaVerify := by
  obtain ⟨hhash,hsig,hkey⟩ := h
  unfold CPubKey.equal at hkey
  rw [Bool.and_eq_true,beq_iff_eq,beq_iff_eq] at hkey
  have hsize := size_of_header hkey.1
  unfold Sigdata.verify CPubKey.isValid CPubKey.toByteVector
  rw [hhash,hsig,hkey.2,hsize]

end Sigdata

/-- `setValid`. -/
abbrev CSignatureCache := OrderedSet Sigdata.less

namespace CSignatureCache

def get (setValid : CSignatureCache) (k : Sigdata) : Bool := (setValid.find? k).isSome

/-- The entry at a random place goes. -/
def evictOne (setValid : CSignatureCache) (randomHash : Uint256) : CSignatureCache :=
  match setValid.lowerBound ⟨randomHash,[],CPubKey.ofBytes []⟩ with
  | it :: _ => setValid.erase it
  | [] =>
    match setValid.elements with
    | it :: _ => setValid.erase it
    | [] => setValid

theorem evictOne_cases (setValid : CSignatureCache) (randomHash : Uint256) :
    (∃ it ∈ setValid.elements, evictOne setValid randomHash = setValid.erase it) ∨
      setValid.elements = [] := by
  unfold evictOne
  cases hlower : setValid.lowerBound ⟨randomHash,[],CPubKey.ofBytes []⟩ with
  | cons it later =>
    refine .inl ⟨it,?_,rfl⟩
    exact OrderedSet.mem_of_mem_lowerBound (hlower ▸ List.mem_cons_self)
  | nil =>
    cases helements : setValid.elements with
    | cons it later => exact .inl ⟨it,List.mem_cons_self,rfl⟩
    | nil => exact .inr rfl

theorem size_evictOne_lt {setValid : CSignatureCache} (randomHash : Uint256)
    (h : 0 < setValid.size) : (evictOne setValid randomHash).size < setValid.size := by
  rcases evictOne_cases setValid randomHash with ⟨it,hit,heq⟩ | hempty
  · rw [heq]
    exact OrderedSet.size_erase_lt hit
  · unfold OrderedSet.size at h
    rw [hempty] at h
    exact absurd h (Nat.lt_irrefl 0)

/-- The loop of `Set`, which takes one random hash after another. -/
def evict (randomHash : Nat → Uint256) (nMaxCacheSize : Nat) (setValid : CSignatureCache) (n : Nat) :
    CSignatureCache :=
  if nMaxCacheSize < setValid.size then
    evict randomHash nMaxCacheSize (evictOne setValid (randomHash n)) (n+1)
  else setValid
  termination_by setValid.size
  decreasing_by exact size_evictOne_lt _ (Nat.lt_of_le_of_lt (Nat.zero_le _) ‹_›)

def set (setValid : CSignatureCache) (randomHash : Nat → Uint256) (nMaxCacheSize : Int)
    (k : Sigdata) : CSignatureCache :=
  if nMaxCacheSize ≤ 0 then setValid
  else (evict randomHash nMaxCacheSize.toNat setValid 0).insert k

section
variable {setValid : CSignatureCache} {randomHash : Nat → Uint256} {k a : Sigdata}

theorem evict_spec (randomHash : Nat → Uint256) (nMaxCacheSize : Nat) (setValid : CSignatureCache)
    (n : Nat) :
    (evict randomHash nMaxCacheSize setValid n).size ≤ nMaxCacheSize ∧
      ∀ a ∈ (evict randomHash nMaxCacheSize setValid n).elements, a ∈ setValid.elements := by
  induction setValid, n using evict.induct randomHash nMaxCacheSize with
  | case1 setValid n hmore ih =>
    rw [evict,if_pos hmore]
    refine ⟨ih.1,fun a ha => ?_⟩
    rcases evictOne_cases setValid (randomHash n) with ⟨it,-,heq⟩ | hempty
    · have hmem := ih.2 a ha
      rw [heq] at hmem
      exact OrderedSet.mem_of_mem_erase hmem
    · unfold OrderedSet.size at hmore
      rw [hempty] at hmore
      exact absurd hmore (Nat.not_lt_zero _)
  | case2 setValid n hdone =>
    rw [evict,if_neg hdone]
    exact ⟨Nat.le_of_not_lt hdone,fun _ ha => ha⟩

/-- Nothing is in the cache that was not there or is inserted. -/
theorem mem_of_mem_set {nMaxCacheSize : Int}
    (h : a ∈ (set setValid randomHash nMaxCacheSize k).elements) : a = k ∨ a ∈ setValid.elements := by
  unfold set at h
  split_ifs at h
  · exact .inr h
  · exact (OrderedSet.mem_of_mem_insert h).imp_right fun hmem =>
      (evict_spec _ _ _ _).2 a hmem

theorem mem_of_get (h : get setValid k = true) : ∃ a ∈ setValid.elements, Sigdata.Same a k := by
  unfold get at h
  obtain ⟨a,ha⟩ := Option.isSome_iff_exists.mp h
  obtain ⟨hmem,hlow,hhigh⟩ := OrderedSet.find?_some ha
  exact ⟨a,hmem,Sigdata.same_of_not_less hlow hhigh⟩

end

end CSignatureCache

/-- A public key from bytes is those bytes or invalid. -/
theorem CPubKey.ofBytes_cases (vch : Valtype) :
    (isValidPubKey vch = true ∧ CPubKey.ofBytes vch = ⟨vch⟩ ∧ (⟨vch⟩ : CPubKey).isValid = true ∧
      (⟨vch⟩ : CPubKey).toByteVector = vch) ∨
    (isValidPubKey vch = false ∧ CPubKey.ofBytes vch = ⟨[0xff]⟩) := by
  unfold CPubKey.ofBytes isValidPubKey
  cases vch with
  | nil => exact .inr ⟨rfl,rfl⟩
  | cons chHeader rest =>
    have hlen : pubKeyLen chHeader = CPubKey.getLen chHeader := rfl
    dsimp only
    rw [List.headD_cons,hlen]
    by_cases hsize : CPubKey.getLen chHeader = rest.length+1
    · have hsizes : (⟨chHeader :: rest⟩ : CPubKey).size = (chHeader :: rest).length := hsize
      refine .inl ⟨beq_iff_eq.mpr hsize,if_pos ⟨by simp,by rw [hsize]; rfl⟩,?_,?_⟩
      · unfold CPubKey.isValid
        rw [hsizes]
        simp
      · unfold CPubKey.toByteVector
        rw [hsizes,List.take_length]
    · exact .inr ⟨beq_eq_false_iff_ne.mpr hsize,if_neg fun hand => hsize hand.2.symm⟩

/-- A call of the checker; `CheckSig` is given the signature hash for each hash type. -/
inductive CheckerCall where
  | verifySignature (vchSig : Valtype) (pubkey : CPubKey) (sighash : Uint256)
  | checkSig (vchSigIn vchPubKey : Valtype) (sighash : UInt32 → Uint256)

namespace CheckerCall

/-- What `VerifySignature` is asked, if the call comes to ask it. -/
def sigdata : CheckerCall → Option Sigdata
  | .verifySignature vchSig pubkey sighash => some ⟨sighash,vchSig,pubkey⟩
  | .checkSig vchSigIn vchPubKey sighash =>
    let pubkey := CPubKey.ofBytes vchPubKey
    if pubkey.isValid then
      vchSigIn.getLast?.map fun nHashType => ⟨sighash nHashType.toUInt32,vchSigIn.dropLast,pubkey⟩
    else none

/-- The answer of the checker without the cache. -/
def direct (ecdsaVerify : Valtype → Valtype → Uint256 → Bool) (call : CheckerCall) : Bool :=
  match call.sigdata with
  | none => false
  | some k => k.verify ecdsaVerify

/-- For `CheckSig` that is the checker of the interpreter. -/
theorem direct_checkSig (ecdsaVerify : Valtype → Valtype → Uint256 → Bool)
    (sighash : CScript → UInt32 → Uint256) (n : Nat) (vchSigIn vchPubKey : Valtype)
    (scriptCode : CScript) :
    (checkSig vchSigIn vchPubKey (sighash scriptCode)).direct ecdsaVerify =
      transactionChecker sighash ecdsaVerify n vchSigIn vchPubKey scriptCode := by
  have hinvalid : (⟨[0xff]⟩ : CPubKey).isValid = false := rfl
  rcases CPubKey.ofBytes_cases vchPubKey with ⟨hvalid,hbytes,hisValid,hvector⟩ | ⟨hvalid,hbytes⟩
  · simp only [direct,sigdata,transactionChecker,hvalid,hbytes,hisValid,if_true]
    cases vchSigIn.getLast? with
    | none => rfl
    | some nHashType =>
      simp only [Option.map_some,Sigdata.verify,hisValid,hvector,Bool.true_and]
  · simp only [direct,sigdata,transactionChecker,hvalid,hbytes,hinvalid,Bool.false_eq_true,if_false]

end CheckerCall

/-- The cache, the triples that threads have verified and are about to insert, and the answers
so far. -/
structure CheckerState where
  setValid : CSignatureCache
  waiting : List Sigdata
  answers : List (CheckerCall × Bool)

inductive CheckerEvent where
  | call (call : CheckerCall) (store : Bool)
  | insert (i : Nat) (nMaxCacheSize : Int) (randomHash : Nat → Uint256)

namespace CheckerState

def init : CheckerState := ⟨.empty,[],[]⟩

/-- `CachingTransactionSignatureChecker::VerifySignature` up to its insertion, and one insertion. -/
def step (ecdsaVerify : Valtype → Valtype → Uint256 → Bool) (s : CheckerState) :
    CheckerEvent → CheckerState
  | .call call store =>
    match call.sigdata with
    | none => { s with answers := (call,false) :: s.answers }
    | some k =>
      if s.setValid.get k then { s with answers := (call,true) :: s.answers }
      else if !k.verify ecdsaVerify then { s with answers := (call,false) :: s.answers }
      else if store then { s with waiting := k :: s.waiting, answers := (call,true) :: s.answers }
      else { s with answers := (call,true) :: s.answers }
  | .insert i nMaxCacheSize randomHash =>
    match s.waiting[i]? with
    | none => s
    | some k =>
      { s with
        setValid := s.setValid.set randomHash nMaxCacheSize k
        waiting := s.waiting.eraseIdx i }

/-- Everything that is or will be cached is valid, and every answer was the direct one. -/
structure Sound (ecdsaVerify : Valtype → Valtype → Uint256 → Bool) (s : CheckerState) : Prop where
  cached : ∀ k ∈ s.setValid.elements, k.verify ecdsaVerify = true
  waiting : ∀ k ∈ s.waiting, k.verify ecdsaVerify = true
  answers : ∀ call answer, (call,answer) ∈ s.answers → answer = call.direct ecdsaVerify

variable {ecdsaVerify : Valtype → Valtype → Uint256 → Bool} {s : CheckerState}

theorem Sound.get (h : s.Sound ecdsaVerify) {k : Sigdata} (hget : s.setValid.get k = true) :
    k.verify ecdsaVerify = true := by
  obtain ⟨a,hmem,hsame⟩ := CSignatureCache.mem_of_get hget
  rw [← hsame.verify]
  exact h.cached a hmem

theorem Sound.answered (h : s.Sound ecdsaVerify) {call : CheckerCall} {answer : Bool}
    (hanswer : answer = call.direct ecdsaVerify) :
    Sound ecdsaVerify { s with answers := (call,answer) :: s.answers } where
  cached := h.cached
  waiting := h.waiting
  answers call' answer' hmem := by
    rcases List.mem_cons.mp hmem with heq | hlater
    · obtain ⟨rfl,rfl⟩ := Prod.mk.inj heq
      exact hanswer
    · exact h.answers call' answer' hlater

theorem Sound.step (h : s.Sound ecdsaVerify) (e : CheckerEvent) :
    (s.step ecdsaVerify e).Sound ecdsaVerify := by
  cases e with
  | call call store =>
    unfold CheckerState.step
    dsimp only
    have hdirect : call.direct ecdsaVerify =
        match call.sigdata with
        | none => false
        | some k => k.verify ecdsaVerify := rfl
    cases hk : call.sigdata with
    | none =>
      rw [hk] at hdirect
      exact h.answered hdirect.symm
    | some k =>
      rw [hk] at hdirect
      dsimp only at hdirect ⊢
      split_ifs with hget hbad hstore
      · exact h.answered ((hdirect.trans (h.get hget)).symm)
      · rw [Bool.not_eq_true'] at hbad
        exact h.answered (hdirect.trans hbad).symm
      · rw [Bool.not_eq_true',Bool.not_eq_false] at hbad
        have hnext := h.answered (hdirect.trans hbad).symm
        refine ⟨hnext.cached,fun k' hk' => ?_,hnext.answers⟩
        rcases List.mem_cons.mp hk' with rfl | hlater
        · exact hbad
        · exact h.waiting k' hlater
      · rw [Bool.not_eq_true',Bool.not_eq_false] at hbad
        exact h.answered (hdirect.trans hbad).symm
  | insert i nMaxCacheSize randomHash =>
    cases hi : s.waiting[i]? with
    | none =>
      simp only [CheckerState.step,hi]
      exact h
    | some k =>
      simp only [CheckerState.step,hi]
      refine ⟨fun a ha => ?_,fun a ha => h.waiting a (List.mem_of_mem_eraseIdx ha),h.answers⟩
      rcases CSignatureCache.mem_of_mem_set ha with rfl | hmem
      · exact h.waiting _ (List.mem_of_getElem? hi)
      · exact h.cached a hmem

theorem sound_of_reachable
    (h : Reachable (step ecdsaVerify) (fun _ _ => True) init s) : s.Sound ecdsaVerify := by
  refine h.invariant ⟨fun k hk => ?_,fun k hk => ?_,fun call answer hmem => ?_⟩ fun s e hs _ =>
    hs.step e
  · exact absurd hk List.not_mem_nil
  · exact absurd hk List.not_mem_nil
  · exact absurd hmem List.not_mem_nil

/-- Whatever was called, stored and evicted, in any order, every answer is the direct one, now
and at the next call, every cached triple is valid, and triples that compare equivalent are
equal. -/
theorem cachedChecker_agrees (h : Reachable (step ecdsaVerify) (fun _ _ => True) init s) :
    (∀ call answer, (call,answer) ∈ s.answers → answer = call.direct ecdsaVerify) ∧
      (∀ k, (s.setValid.get k || k.verify ecdsaVerify) = k.verify ecdsaVerify) ∧
      (∀ k ∈ s.setValid.elements, k.verify ecdsaVerify = true) ∧
      ∀ a b : Sigdata, a.less b = false → b.less a = false → Sigdata.Same a b := by
  have hsound := sound_of_reachable h
  refine ⟨hsound.answers,fun k => ?_,hsound.cached,fun a b => Sigdata.same_of_not_less⟩
  cases hget : s.setValid.get k with
  | true => rw [hsound.get hget]; rfl
  | false => rfl

/-- The state after these events. -/
def run (ecdsaVerify : Valtype → Valtype → Uint256 → Bool) (events : List CheckerEvent) :
    CheckerState :=
  events.foldr (fun e s => s.step ecdsaVerify e) init

theorem reachable_run (events : List CheckerEvent) :
    Reachable (step ecdsaVerify) (fun _ _ => True) init (run ecdsaVerify events) := by
  induction events with
  | nil => exact .init
  | cons e events ih => exact .step ih trivial

/-- A valid signature is stored, evicted for another one and checked again; the last event comes
first. -/
def evictionEvents : List CheckerEvent :=
  [.call (.verifySignature [1] ⟨2 :: List.replicate 32 7⟩ 5) false,.insert 0 1 fun _ => 9,
    .call (.verifySignature [2] ⟨2 :: List.replicate 32 7⟩ 5) true,.insert 0 1 fun _ => 9,
    .call (.verifySignature [1] ⟨2 :: List.replicate 32 7⟩ 5) true]

def oneByte (vchSig _pubkey : Valtype) (_sighash : Uint256) : Bool := vchSig.length == 1

def evictedTriple : Sigdata := ⟨5,[1],⟨2 :: List.replicate 32 7⟩⟩

theorem cachedChecker_agrees_evicted :
    (run oneByte evictionEvents).answers.map Prod.snd = [true,true,true] ∧
      ((run oneByte evictionEvents).setValid.get evictedTriple || evictedTriple.verify oneByte) =
        evictedTriple.verify oneByte :=
  ⟨by decide +kernel,(cachedChecker_agrees (reachable_run evictionEvents)).2.1 evictedTriple⟩

end CheckerState

end Anoncoin
