import Anoncoin.Lib.Runs
import Anoncoin.BlockIndex

/-!
Runs of header processing, and which headers have their proof of work checked, with
which hash function.
-/

set_option autoImplicit false

namespace Anoncoin
open Lib

namespace Consensus
variable {net : Consensus}

/-- A check that rules out no error: only what holds after success is of interest. -/
def AnyFailure (_ : Failure) : Prop := True

theorem checkBlockHeader_meets (tip : Option CBlockIndex) (now : Int) (block : CBlockHeader) :
    Meets AnyFailure (net.checkBlockHeader tip now block true) fun _ =>
      net.isExceptionBlock (net.getHash block) = false → net.testNet = false →
        skipPoWCheck tip = false → net.checkProofOfWork block block.nBits = true := by
  unfold checkBlockHeader
  simp only
  cases hex : net.isExceptionBlock (net.getHash block) with
  | true => exact fun h => by contradiction
  | false =>
    cases hnet : net.testNet with
    | true =>
      simp only [Bool.not_true,Bool.and_false,Bool.false_eq_true,if_false]
      apply (Meets.ensure trivial).bind
      intro _ hpow
      exact (Meets.ensure trivial).mono fun _ _ _ _ _ => hpow
    | false =>
      cases hskip : skipPoWCheck tip with
      | true => exact fun _ _ h => by contradiction
      | false =>
        simp only [Bool.not_false,Bool.and_true,Bool.false_eq_true,if_false,if_true,Bool.not_true]
        apply (Meets.ensure trivial).bind
        intro _ hpow
        exact (Meets.ensure trivial).mono fun _ _ _ _ _ => hpow

theorem checkAgainstPrev_meets (work : Uint32) (block : CBlockHeader) (prev : CBlockIndex) :
    Meets AnyFailure (net.checkAgainstPrev work block prev) fun _ =>
      net.switchHeight6 < prev.nHeight+1 → block.atLeastV3 = true := by
  unfold checkAgainstPrev
  apply (Meets.ensure trivial).bind
  intro _ _
  apply (Meets.ensure trivial).bind
  intro _ _
  apply (Meets.ensure trivial).bind
  intro _ _
  apply (Meets.ensure trivial).mono
  intro _ hver h6
  simpa only [h6,decide_true,Bool.and_true,Bool.not_not] using hver

/-- Above the last switch height the contextual checks insist on version 3. -/
theorem contextualCheckBlockHeader_meets (s : NodeState) (work : Uint32) (block : CBlockHeader)
    (prev : CBlockIndex) :
    Meets AnyFailure (net.contextualCheckBlockHeader s work block (some prev)) fun _ =>
      net.getHash block ≠ net.hashGenesisBlock → net.fastFetch (prev.nHeight+1) = false →
        net.switchHeight6 < prev.nHeight+1 → block.atLeastV3 = true := by
  unfold contextualCheckBlockHeader
  simp only
  split
  · rename_i hgen
    exact fun h => absurd hgen h
  · apply (Meets.orThrow (fun _ => trivial)).bind
    intro p hp
    obtain rfl := Option.some.inj hp
    apply (Meets.ensure trivial).bind
    intro _ _
    apply (Meets.ensure trivial).bind
    intro _ _
    cases hlow : net.fastFetch (prev.nHeight+1) with
    | true => exact fun _ hhigh => Bool.noConfusion hhigh
    | false => exact (checkAgainstPrev_meets work block prev).mono fun _ hv _ _ => hv

/-- What was added, and on which parent. -/
structure Added (net : Consensus) (s : NodeState) (block : CBlockHeader) (pindex : CBlockIndex)
    (s' : NodeState) : Prop where
  data : pindex.data = net.indexData block
  parent : match pindex.pprev with
    | none => block.hashPrevBlock = 0
    | some p => s.findByFakeHash block.hashPrevBlock = some p
  index : s'.mapBlockIndex = Function.update s.mapBlockIndex (net.getHash block) (some pindex)
  crossReference : ∀ f r, s'.mapBlockHashCrossReference f = some r →
    s.mapBlockHashCrossReference f = some r ∨
      (f = block.calcSha256dHash net.hashes ∧ r = net.getHash block)

theorem setRealHash_cases {s : NodeState} {f r g q : Uint256}
    (h : (s.setRealHash f r).mapBlockHashCrossReference g = some q) :
    s.mapBlockHashCrossReference g = some q ∨ (g = f ∧ q = r) := by
  simp only [NodeState.setRealHash] at h
  split at h
  · exact .inl h
  · by_cases hg : g = f
    · subst hg
      rw [Function.update_self] at h
      exact .inr ⟨rfl,(Option.some.inj h).symm⟩
    · rw [Function.update_of_ne hg] at h
      exact .inl h

theorem findByFakeHash_eq_some {s : NodeState} {f : Uint256} {p : CBlockIndex} :
    s.findByFakeHash f = some p ↔
      ∃ r, s.mapBlockHashCrossReference f = some r ∧ r ≠ 0 ∧ s.mapBlockIndex r = some p := by
  unfold NodeState.findByFakeHash NodeState.getRealHash
  cases hr : s.mapBlockHashCrossReference f with
  | none => simp
  | some r =>
    simp only [Option.getD_some,Option.some.injEq,exists_eq_left']
    split
    · rename_i hne
      exact ⟨fun h => ⟨hne,h⟩,fun h => h.2⟩
    · rename_i hz
      exact ⟨fun h => by contradiction,fun h => absurd h.1 hz⟩

/-- A reference added for the new block itself cannot be the one that finds its parent. -/
theorem findByFakeHash_setRealHash {s : NodeState} {f r g : Uint256} {p : CBlockIndex}
    (hr : s.mapBlockIndex r = none) (h : (s.setRealHash f r).findByFakeHash g = some p) :
    s.findByFakeHash g = some p := by
  obtain ⟨q,hq,hne,hp⟩ := findByFakeHash_eq_some.mp h
  rcases setRealHash_cases hq with hold | ⟨-,rfl⟩
  · exact findByFakeHash_eq_some.mpr ⟨q,hold,hne,hp⟩
  · have hp' : s.mapBlockIndex q = some p := hp
    rw [hr] at hp'
    contradiction

theorem linkToPrev_meets (s : NodeState) (hashPrevBlock : Uint256) (data : IndexData) :
    Meets AnyFailure (net.linkToPrev s hashPrevBlock data) fun pindex =>
      pindex.data = data ∧ match pindex.pprev with
        | none => hashPrevBlock = 0
        | some p => s.findByFakeHash hashPrevBlock = some p := by
  unfold linkToPrev
  split
  · apply (Meets.orThrow (fun _ => trivial)).bind
    intro p hp
    exact ⟨rfl,hp⟩
  · rename_i hzero
    apply (Meets.ensure trivial).bind
    intro _ _
    exact ⟨rfl,not_not.mp hzero⟩

theorem addToBlockIndex_meets {s : NodeState} {block : CBlockHeader}
    (hnew : s.mapBlockIndex (net.getHash block) = none) :
    Meets AnyFailure (net.addToBlockIndex s block) fun r => Added net s block r.1 r.2 := by
  unfold addToBlockIndex
  simp only [hnew]
  apply (linkToPrev_meets _ _ _).bind
  rintro pindex ⟨hdata,hparent⟩
  refine ⟨hdata,?_,rfl,fun f r h => setRealHash_cases h⟩
  cases hp : pindex.pprev with
  | none => simpa only [hp] using hparent
  | some p =>
    simp only [hp] at hparent
    exact findByFakeHash_setRealHash hnew hparent

theorem findByFakeHash_setRealHash_eq {s : NodeState} {f r g : Uint256} {p : CBlockIndex}
    (h : s.findByFakeHash g = some p) : (s.setRealHash f r).findByFakeHash g = some p := by
  obtain ⟨q,hq,hne,hp⟩ := findByFakeHash_eq_some.mp h
  refine findByFakeHash_eq_some.mpr ⟨q,?_,hne,hp⟩
  simp only [NodeState.setRealHash]
  split
  · exact hq
  · rename_i hnone
    have hg : g ≠ f := by
      intro hg
      subst hg
      simp [hq] at hnone
    rw [Function.update_of_ne hg]
    exact hq

/-- The state after `AddToBlockIndex` has stored a new entry. -/
def addedState (net : Consensus) (s : NodeState) (block : CBlockHeader) (pindex : CBlockIndex) :
    NodeState :=
  { s.setRealHash (block.calcSha256dHash net.hashes) (net.getHash block) with
    mapBlockIndex := Function.update s.mapBlockIndex (net.getHash block) (some pindex) }

/-- A new header on a known parent enters the index once it passes the checks. -/
theorem acceptBlockHeader_new {s : NodeState} {now : Int} {work : Uint32} {block : CBlockHeader}
    {pprev : CBlockIndex} (hnew : s.mapBlockIndex (net.getHash block) = none)
    (hcheck : net.checkBlockHeader s.tip now block true = .ok ())
    (hgen : net.getHash block ≠ net.hashGenesisBlock) (hzero : block.hashPrevBlock ≠ 0)
    (hfind : s.findByFakeHash block.hashPrevBlock = some pprev)
    (hfail : s.failed pprev.data.hashBlock = false)
    (hctx : net.contextualCheckBlockHeader s work block (some pprev) = .ok ()) :
    net.acceptBlockHeader s now work block =
      .ok (.child (net.indexData block) pprev,
        net.addedState s block (.child (net.indexData block) pprev)) := by
  have hprev : net.getPrev s block = .ok (some pprev) := by
    unfold getPrev
    simp only [if_neg hgen,hfind,hfail,orThrow_some,ok_bind,Bool.not_false,ensure_true]
    rfl
  have hlink : ∀ d, net.linkToPrev (s.setRealHash (block.calcSha256dHash net.hashes)
      (net.getHash block)) block.hashPrevBlock d = .ok (.child d pprev) := by
    intro d
    unfold linkToPrev
    simp only [if_pos hzero,findByFakeHash_setRealHash_eq hfind,orThrow_some,ok_bind]
    rfl
  unfold acceptBlockHeader addToBlockIndex
  simp only [hnew,hcheck,hprev,hctx,ok_bind,hlink]
  rfl

/-- The genesis block needs no parent. -/
theorem acceptBlockHeader_genesis {s : NodeState} {now : Int} {work : Uint32}
    {block : CBlockHeader} (hnew : s.mapBlockIndex (net.getHash block) = none)
    (hcheck : net.checkBlockHeader s.tip now block true = .ok ())
    (hgen : net.getHash block = net.hashGenesisBlock) (hzero : block.hashPrevBlock = 0) :
    net.acceptBlockHeader s now work block =
      .ok (.genesis (net.indexData block),
        net.addedState s block (.genesis (net.indexData block))) := by
  have hprev : net.getPrev s block = .ok none := by
    unfold getPrev
    rw [if_pos hgen]
    rfl
  have hctx : net.contextualCheckBlockHeader s work block none = .ok () := by
    unfold contextualCheckBlockHeader
    simp only
    rw [if_pos hgen]
    rfl
  have hlink : ∀ s, net.linkToPrev s block.hashPrevBlock (net.indexData block) =
      .ok (.genesis (net.indexData block)) := by
    intro s
    have heq : ((net.indexData block).hashBlock == net.hashGenesisBlock) = true :=
      beq_iff_eq.mpr hgen
    unfold linkToPrev
    simp only [hzero,ne_eq,not_true_eq_false,if_false,heq,ensure_true,ok_bind]
    rfl
  unfold acceptBlockHeader addToBlockIndex
  simp only [hnew,hcheck,hprev,hctx,ok_bind,hlink]
  rfl

theorem findByFakeHash_addedState {s : NodeState} {block : CBlockHeader} (pindex : CBlockIndex)
    (hnone : s.mapBlockHashCrossReference (block.calcSha256dHash net.hashes) = none)
    (hzero : net.getHash block ≠ 0) :
    (net.addedState s block pindex).findByFakeHash (block.calcSha256dHash net.hashes) =
      some pindex := by
  refine findByFakeHash_eq_some.mpr ⟨net.getHash block,?_,hzero,?_⟩
  · simp [addedState,NodeState.setRealHash,hnone]
  · simp [addedState]

theorem addedState_self (s : NodeState) (block : CBlockHeader) (pindex : CBlockIndex) :
    (net.addedState s block pindex).mapBlockIndex (net.getHash block) = some pindex :=
  Function.update_self ..

theorem addedState_mapBlockIndex {s : NodeState} {block : CBlockHeader} {pindex : CBlockIndex}
    {r : Uint256} (hne : r ≠ net.getHash block) :
    (net.addedState s block pindex).mapBlockIndex r = s.mapBlockIndex r :=
  Function.update_of_ne hne _ _

theorem addedState_crossReference {s : NodeState} {block : CBlockHeader} {pindex : CBlockIndex}
    {f : Uint256} (hne : f ≠ block.calcSha256dHash net.hashes) :
    (net.addedState s block pindex).mapBlockHashCrossReference f =
      s.mapBlockHashCrossReference f := by
  simp only [addedState,NodeState.setRealHash]
  split
  · rfl
  · exact Function.update_of_ne hne _ _

theorem checkBlockHeader_eq_ok {tip : Option CBlockIndex} {now : Int} {block : CBlockHeader}
    (hpow : net.checkProofOfWork block block.nBits = true) (htime : block.nTime.toNat ≤ now) :
    net.checkBlockHeader tip now block true = .ok () := by
  have hlimit : ∀ limit : Int, 0 ≤ limit → (!decide (now+limit < block.nTime.toNat)) = true := by
    intro limit hl
    rw [decide_eq_false (by omega),Bool.not_false]
  unfold checkBlockHeader
  simp only [hpow,ensure_true,ok_bind]
  cases tip with
  | none =>
    simp only [hlimit 0 (le_refl 0),ensure_true]
    exact ite_self (Except.ok ())
  | some tip =>
    have htip : (0 : Int) ≤ if tip.nHeight < nDifficultySwitchHeight4 then 2*60*60 else 15*60 := by
      split <;> decide
    simp only [hlimit _ htip,ensure_true]
    exact ite_self (Except.ok ())

theorem checkBlockHeader_skip {tip : Option CBlockIndex} (now : Int) (block : CBlockHeader)
    (hmain : net.testNet = false) (hskip : skipPoWCheck tip = true) :
    net.checkBlockHeader tip now block true = .ok () := by
  unfold checkBlockHeader
  simp only [hmain,hskip,Bool.not_false,Bool.and_true,Bool.not_true]
  cases net.isExceptionBlock (net.getHash block) <;> rfl

/-- A header that was not known before passed the header check, and was added. -/
theorem acceptBlockHeader_meets {s : NodeState} {now : Int} {work : Uint32} {block : CBlockHeader}
    (hnew : s.mapBlockIndex (net.getHash block) = none) :
    Meets AnyFailure (net.acceptBlockHeader s now work block) fun r =>
      Added net s block r.1 r.2 ∧
        (net.isExceptionBlock (net.getHash block) = false → net.testNet = false →
          skipPoWCheck s.tip = false → net.checkProofOfWork block block.nBits = true) := by
  unfold acceptBlockHeader
  simp only [hnew]
  apply (checkBlockHeader_meets s.tip now block).bind
  intro _ hpow
  have hany : ∀ {α : Type} (x : Validation α), Meets AnyFailure x fun _ => True := by
    intro α x
    cases x <;> trivial
  apply (hany _).bind
  intro prev _
  apply (hany _).bind
  intro _ _
  exact (addToBlockIndex_meets hnew).mono fun r hr => ⟨hr,hpow⟩

end Consensus

/-- What happens to the index and the tip over the life of a node: headers arrive,
blocks are marked failed, and the tip moves to another entry. -/
inductive HeaderEvent where
  | acceptBlockHeader (nAdjustedTime : Int) (checkPowVal : Uint32) (block : CBlockHeader)
  | setFailed (failed : Uint256 → Bool)
  | setTip (hashBlock : Uint256)

namespace Consensus
variable (net : Consensus)

/-- One event; the second component is the header that entered the index, if any. -/
def headerStep (s : NodeState) : HeaderEvent → NodeState × List (CBlockHeader × CBlockIndex)
  | .acceptBlockHeader now work block =>
      match net.acceptBlockHeader s now work block with
      | .error _ => (s,[])
      | .ok (pindex,s') =>
          (s',if (s.mapBlockIndex (net.getHash block)).isSome then [] else [(block,pindex)])
  | .setFailed failed => ({ s with failed := failed },[])
  | .setTip hashBlock => ({ s with tip := s.mapBlockIndex hashBlock },[])

def headerRun (s : NodeState) : List HeaderEvent → NodeState × List (CBlockHeader × CBlockIndex)
  | [] => (s,[])
  | e :: rest =>
      let r := net.headerStep s e
      let q := headerRun r.1 rest
      (q.1,r.2 ++ q.2)

variable {net}

theorem headerStep_added {s : NodeState} {e : HeaderEvent} {a : CBlockHeader × CBlockIndex}
    (h : a ∈ (net.headerStep s e).2) :
    ∃ now work, e = .acceptBlockHeader now work a.1 ∧
      Added net s a.1 a.2 (net.headerStep s e).1 ∧
      (net.isExceptionBlock (net.getHash a.1) = false → net.testNet = false →
        skipPoWCheck s.tip = false → net.checkProofOfWork a.1 a.1.nBits = true) := by
  cases e with
  | setFailed f => simp [headerStep] at h
  | setTip t => simp [headerStep] at h
  | acceptBlockHeader now work block =>
    simp only [headerStep] at h ⊢
    cases hacc : net.acceptBlockHeader s now work block with
    | error f => simp [hacc] at h
    | ok r =>
      obtain ⟨pindex,s'⟩ := r
      simp only [hacc] at h
      cases hknown : s.mapBlockIndex (net.getHash block) with
      | some i => simp [hknown] at h
      | none =>
        simp only [hknown,Option.isSome_none,Bool.false_eq_true,if_false,List.mem_singleton] at h
        subst h
        obtain ⟨hadd,hpow⟩ := (acceptBlockHeader_meets hknown).result hacc
        exact ⟨now,work,rfl,hadd,hpow⟩

theorem Added.nHeight {s s' : NodeState} {block : CBlockHeader} {pindex : CBlockIndex}
    (h : Added net s block pindex s') :
    pindex.nHeight = 0 ∨ ∃ p, s.findByFakeHash block.hashPrevBlock = some p ∧
      pindex.nHeight = p.nHeight+1 := by
  have hparent := h.parent
  cases pindex with
  | genesis d => exact .inl rfl
  | child d p => exact .inr ⟨p,hparent,rfl⟩

/-- A header above the fifth switch height is only taken while the proof-of-work
check is not skipped: there is no tip, or the tip has reached that height. -/
def PowGuarded (s : NodeState) : HeaderEvent → Prop
  | .acceptBlockHeader _ _ block => ∀ p, s.findByFakeHash block.hashPrevBlock = some p →
      nDifficultySwitchHeight5 < p.nHeight+1 → skipPoWCheck s.tip = false
  | _ => True

def RunGuarded (net : Consensus) (s : NodeState) : List HeaderEvent → Prop
  | [] => True
  | e :: rest => PowGuarded s e ∧ RunGuarded net (net.headerStep s e).1 rest

end Consensus

namespace NodeState

/-- Before the genesis block is stored. -/
def initial : NodeState := ⟨fun _ => none,fun _ => none,fun _ => false,none⟩

end NodeState

/-- Headers come from the network. -/
def HeaderEvent.FromWire : HeaderEvent → Prop
  | .acceptBlockHeader _ _ block => block.FromWire
  | _ => True

namespace Consensus

/-- The states of a node that started with an empty index. -/
def Reachable (net : Consensus) : NodeState → Prop :=
  Lib.Reachable (fun s e => (net.headerStep s e).1) (fun _ e => e.FromWire) .initial

theorem Reachable.accept {net : Consensus} {s s' : NodeState} {now : Int} {work : Uint32}
    {block : CBlockHeader} {pindex : CBlockIndex} (h : net.Reachable s) (hw : block.FromWire)
    (hacc : net.acceptBlockHeader s now work block = .ok (pindex,s')) : net.Reachable s' := by
  have hstep : net.Reachable (net.headerStep s (.acceptBlockHeader now work block)).1 :=
    Lib.Reachable.step h hw
  simpa only [headerStep,hacc] using hstep

end Consensus

/-- The nonce at the end of the 80 bytes of a header. -/
def headerNonce (bytes : List UInt8) : Nat := fromLittleEndian (bytes.drop 76)

theorem headerNonce_bytes (h : CBlockHeader) : headerNonce h.bytes = h.nNonce.toNat := by
  have hsplit : h.bytes = (littleEndian 4 h.nVersion.toNat ++ (littleEndian 32 h.hashPrevBlock.toNat
      ++ (littleEndian 32 h.hashMerkleRoot.toNat ++ (littleEndian 4 h.nTime.toNat ++
        littleEndian 4 h.nBits.toNat)))) ++ littleEndian 4 h.nNonce.toNat := by
    simp only [CBlockHeader.bytes,List.append_assoc]
  have hdrop : h.bytes.drop 76 = littleEndian 4 h.nNonce.toNat := by
    rw [hsplit]
    exact List.drop_left' (by simp)
  rw [headerNonce,hdrop]
  exact fromLittleEndian_littleEndian h.nNonce.isLt

/-- A network that numbers blocks by their nonce. Scrypt gives large nonces a hash
above every target, and GOST gives numbers of its own. -/
def numberedNet : Consensus where
  hashes := ⟨fun b => BitVec.ofNat 256 (headerNonce b+1),
    fun b => if headerNonce b < 2^31 then BitVec.ofNat 256 (headerNonce b+1)
      else BitVec.ofNat 256 (2^255),
    fun b => BitVec.ofNat 256 (2^200+headerNonce b)⟩
  testNet := false
  powLimitScrypt := (setCompact 0x1e0ffff0).target
  powLimitGost3411 := (setCompact 0x1e0ffff0).target
  testNetStartingDifficulty := 0
  hashGenesisBlock := 1
  gExceptionBlocks := []
  checkpointsEnabled := false
  mapCheckpoints := []

/-- The header on top of the block of height `n` of a chain with one block per second. -/
def steadyHeader (nVersion nNonce : Uint32) (n : Nat) : CBlockHeader where
  nVersion := nVersion
  hashPrevBlock := BitVec.ofNat 256 (n+1)
  hashMerkleRoot := 0
  nTime := BitVec.ofNat 32 (n+1)
  nBits := 0x1e0ffff0
  nNonce := nNonce
  nHeight := 0

def steadyGenesis : CBlockHeader where
  nVersion := 2
  hashPrevBlock := 0
  hashMerkleRoot := 0
  nTime := 0
  nBits := 0x1e0ffff0
  nNonce := 0
  nHeight := 0

/-- The chain of the version 2 headers, each with its height as nonce. -/
def steadyChain : Nat → CBlockIndex
  | 0 => .genesis (numberedNet.indexData steadyGenesis)
  | n+1 => .child (numberedNet.indexData (steadyHeader 2 (BitVec.ofNat 32 (n+1)) n)) (steadyChain n)

theorem steadyChain_nHeight (n : Nat) : (steadyChain n).nHeight = n := by
  induction n with
  | zero => rfl
  | succ n ih => simp only [steadyChain,CBlockIndex.nHeight,ih]

theorem steadyChild_nHeight (d : IndexData) (n : Nat) :
    (CBlockIndex.child d (steadyChain n)).nHeight = n+1 := by
  simp only [CBlockIndex.nHeight,steadyChain_nHeight]

theorem steadyChain_lastTimes (k n : Nat) :
    ∀ t ∈ CBlockIndex.lastTimes k (steadyChain n), t ≤ n := by
  have htime : ∀ m, (BitVec.ofNat 32 (m+1)).toNat ≤ m+1 := by
    intro m
    rw [BitVec.toNat_ofNat]
    exact Nat.mod_le _ _
  induction k generalizing n with
  | zero => intro t ht; simp [CBlockIndex.lastTimes] at ht
  | succ k ih =>
    intro t ht
    cases n with
    | zero =>
      simp only [steadyChain,CBlockIndex.lastTimes,List.mem_singleton] at ht
      rw [ht]
      exact le_refl 0
    | succ n =>
      simp only [steadyChain,CBlockIndex.lastTimes,List.mem_cons] at ht
      rcases ht with rfl | ht
      · exact htime n
      · have h := ih n t ht
        omega

theorem steadyChain_getMedianTimePast (n : Nat) : (steadyChain n).getMedianTimePast ≤ n :=
  steadyChain_lastTimes _ _ _ (CBlockIndex.getMedianTimePast_mem _)

namespace Consensus

theorem numberedNet_sha256d (h : CBlockHeader) :
    h.calcSha256dHash numberedNet.hashes = BitVec.ofNat 256 (h.nNonce.toNat+1) := by
  simp only [CBlockHeader.calcSha256dHash,numberedNet,headerNonce_bytes]

theorem numberedNet_getHash {h : CBlockHeader} (hv : h.atLeastV3 = false) (hh : h.nHeight = 0) :
    numberedNet.getHash h = if h.nNonce.toNat < 2^31 then BitVec.ofNat 256 (h.nNonce.toNat+1)
      else BitVec.ofNat 256 (2^255) := by
  have hwire := (CBlockHeader.fromWire_of_nHeight hh).getHash numberedNet.hashes false
  rw [hv] at hwire
  unfold getHash
  have hnet : numberedNet.testNet = false := rfl
  rw [hnet,hwire]
  simp only [Bool.false_eq_true,if_false,CBlockHeader.getScryptHash,numberedNet,headerNonce_bytes]

theorem steadyHeader_v2 (nNonce : Uint32) (n : Nat) :
    (steadyHeader 2 nNonce n).atLeastV3 = false := by
  change decide (3 ≤ (2 : Uint32).toInt) = false
  decide

theorem steadyHeader_wire (nVersion nNonce : Uint32) (n : Nat) :
    (steadyHeader nVersion nNonce n).FromWire := CBlockHeader.fromWire_of_nHeight rfl

theorem blockNumber_toNat {n : Nat} (hn : n < 2^32) : (BitVec.ofNat 256 (n+1)).toNat = n+1 := by
  rw [BitVec.toNat_ofNat]
  exact Nat.mod_eq_of_lt (by omega)

theorem blockNumber_ne_zero {n : Nat} (hn : n < 2^32) : BitVec.ofNat 256 (n+1) ≠ 0 := by
  intro h
  have h := congrArg BitVec.toNat h
  rw [blockNumber_toNat hn] at h
  simp at h

theorem steadyHeader_nNonce {n : Nat} (hn : n+1 < 2^31) :
    (steadyHeader 2 (BitVec.ofNat 32 (n+1)) n).nNonce.toNat = n+1 := by
  simp only [steadyHeader,BitVec.toNat_ofNat]
  exact Nat.mod_eq_of_lt (by omega)

theorem steadyHeader_getHash {n : Nat} (hn : n+1 < 2^31) :
    numberedNet.getHash (steadyHeader 2 (BitVec.ofNat 32 (n+1)) n) = BitVec.ofNat 256 (n+1+1) := by
  rw [numberedNet_getHash (steadyHeader_v2 _ _) rfl,steadyHeader_nNonce hn,if_pos hn]

theorem checkAgainstPrev_steady {nVersion nNonce : Uint32} {n : Nat} (hn : n+1 < 2^32)
    (hv : 2 ≤ nVersion.toInt) (h6 : n+1 ≤ numberedNet.switchHeight6) :
    numberedNet.checkAgainstPrev 0x1e0ffff0 (steadyHeader nVersion nNonce n) (steadyChain n) =
      .ok () := by
  have htime : (!decide ((steadyHeader nVersion nNonce n).nTime.toNat ≤
      (steadyChain n).getMedianTimePast)) = true := by
    have hmed := steadyChain_getMedianTimePast n
    simp only [steadyHeader,BitVec.toNat_ofNat,Nat.mod_eq_of_lt hn,Bool.not_eq_true',
      decide_eq_false_iff_not]
    omega
  have hver : (!(decide (nVersion.toInt < 2) &&
      decide (nDifficultySwitchHeight4 < (steadyChain n).nHeight+1))) = true := by
    simp only [decide_eq_false (by omega : ¬nVersion.toInt < 2),Bool.false_and,Bool.not_false]
  have hver3 : (!(!(steadyHeader nVersion nNonce n).atLeastV3 &&
      decide (numberedNet.switchHeight6 < (steadyChain n).nHeight+1))) = true := by
    rw [steadyChain_nHeight,decide_eq_false (not_lt.mpr h6),Bool.and_false,Bool.not_false]
  have hbits : (steadyHeader nVersion nNonce n).nBits = 0x1e0ffff0 := rfl
  have hversion : (steadyHeader nVersion nNonce n).nVersion = nVersion := rfl
  unfold checkAgainstPrev
  simp only [hbits,hversion,htime,hver,hver3,bne_self_eq_false,Bool.false_and,Bool.not_false,
    ensure_true,ok_bind]

theorem contextual_steady (s : NodeState) {nVersion nNonce : Uint32} {n : Nat} (hn : n+1 < 2^32)
    (hv : 2 ≤ nVersion.toInt) (h6 : n+1 ≤ numberedNet.switchHeight6) :
    numberedNet.contextualCheckBlockHeader s 0x1e0ffff0 (steadyHeader nVersion nNonce n)
      (some (steadyChain n)) = .ok () := by
  have hlast : numberedNet.getLastCheckpoint s = none := rfl
  have hcp : ∀ k h, numberedNet.checkCheckpoint k h = true := fun _ _ => rfl
  unfold contextualCheckBlockHeader
  simp only
  split
  · rfl
  · simp only [orThrow_some,ok_bind,hlast,hcp,Option.all_none,ensure_true,
      checkAgainstPrev_steady hn hv h6]
    exact ite_self (Except.ok ())

/-- Small numbers are below the target of the headers. -/
theorem steadyHeader_checkProofOfWork {block : CBlockHeader} (hv : block.atLeastV3 = false)
    (hh : block.nHeight = 0) (hn : block.nNonce.toNat < 2^31) :
    numberedNet.checkProofOfWork block 0x1e0ffff0 = true := by
  have hlimit : numberedNet.proofOfWorkLimit block = (setCompact 0x1e0ffff0).target := ite_self _
  have hlow : ¬(setCompact 0x1e0ffff0).target < BitVec.ofNat 256 (block.nNonce.toNat+1) := by
    rw [BitVec.lt_def,blockNumber_toNat (by omega)]
    have htarget : 2^31 < (setCompact 0x1e0ffff0).target.toNat := by decide
    omega
  unfold checkProofOfWork
  rw [numberedNet_getHash hv hh,if_pos hn,hlimit]
  simp only [if_neg hlow]
  decide

/-- A state that holds the steady chain up to height `n` and nothing above. -/
structure SteadyReached (n : Nat) (s : NodeState) : Prop where
  reachable : numberedNet.Reachable s
  found : s.findByFakeHash (BitVec.ofNat 256 (n+1)) = some (steadyChain n)
  indexed : ∀ k ≤ n, s.mapBlockIndex (BitVec.ofNat 256 (k+1)) = some (steadyChain k)
  unindexed : ∀ r, n+1 < r.toNat → s.mapBlockIndex r = none
  unreferenced : ∀ f, n+1 < f.toNat → s.mapBlockHashCrossReference f = none
  failed : ∀ h, s.failed h = false
  tip : s.tip = none

/-- Whatever the tip, a version 2 header with work enters the index on top. -/
theorem accept_steady {s : NodeState} {n : Nat} {nNonce : Uint32} (hs : SteadyReached n s)
    (tip : Option CBlockIndex) (hn : n+1 < 2^32) (h6 : n+1 ≤ numberedNet.switchHeight6)
    (hnew : n+1 < (numberedNet.getHash (steadyHeader 2 nNonce n)).toNat)
    (hcheck : numberedNet.checkBlockHeader tip (n+1 : Nat) (steadyHeader 2 nNonce n) true =
      .ok ()) :
    numberedNet.acceptBlockHeader { s with tip := tip } (n+1 : Nat) 0x1e0ffff0
      (steadyHeader 2 nNonce n) =
      .ok (.child (numberedNet.indexData (steadyHeader 2 nNonce n)) (steadyChain n),
        numberedNet.addedState { s with tip := tip } (steadyHeader 2 nNonce n)
          (.child (numberedNet.indexData (steadyHeader 2 nNonce n)) (steadyChain n))) := by
  have hgen : numberedNet.getHash (steadyHeader 2 nNonce n) ≠ numberedNet.hashGenesisBlock := by
    intro hgen
    rw [hgen] at hnew
    change n+1 < 1 at hnew
    omega
  have hctx := @contextual_steady { s with tip := tip } 2 nNonce n hn (by decide) h6
  exact acceptBlockHeader_new (hs.unindexed _ hnew) hcheck hgen (blockNumber_ne_zero (by omega))
    hs.found (hs.failed _) hctx

theorem steadyTime (nVersion nNonce : Uint32) (n : Nat) :
    ((steadyHeader nVersion nNonce n).nTime.toNat : Int) ≤ (n+1 : Nat) := by
  simp only [steadyHeader,BitVec.toNat_ofNat]
  exact Int.ofNat_le.mpr (Nat.mod_le _ _)

theorem steadyHeader_number_lt {n : Nat} (hn : n+1 < 2^31) :
    n+1 < (numberedNet.getHash (steadyHeader 2 (BitVec.ofNat 32 (n+1)) n)).toNat := by
  rw [steadyHeader_getHash hn,blockNumber_toNat (by omega)]
  omega

theorem steadyHeader_checkBlockHeader (tip : Option CBlockIndex) {n : Nat} (hn : n+1 < 2^31) :
    numberedNet.checkBlockHeader tip (n+1 : Nat) (steadyHeader 2 (BitVec.ofNat 32 (n+1)) n) true =
      .ok () :=
  checkBlockHeader_eq_ok (steadyHeader_checkProofOfWork (steadyHeader_v2 _ _) rfl
    (by rw [steadyHeader_nNonce hn]; exact hn)) (steadyTime _ _ _)

/-- The next header of the steady chain is accepted. -/
theorem accept_steady_next {s : NodeState} {n : Nat} (hs : SteadyReached n s) (hn : n+1 < 2^31)
    (h6 : n+1 ≤ numberedNet.switchHeight6) :
    numberedNet.acceptBlockHeader s (n+1 : Nat) 0x1e0ffff0
      (steadyHeader 2 (BitVec.ofNat 32 (n+1)) n) =
      .ok (steadyChain (n+1),numberedNet.addedState s (steadyHeader 2 (BitVec.ofNat 32 (n+1)) n)
        (steadyChain (n+1))) := by
  have hsame : { s with tip := none } = s := by
    rw [← hs.tip]
  have hacc := accept_steady hs none (by omega) h6 (steadyHeader_number_lt hn)
    (steadyHeader_checkBlockHeader _ hn)
  rw [hsame] at hacc
  exact hacc

theorem ne_of_number_lt {r : Uint256} {n : Nat} (hn : n < 2^32) (hr : n+1 < r.toNat) :
    r ≠ BitVec.ofNat 256 (n+1) := by
  intro h
  rw [h,blockNumber_toNat hn] at hr
  omega

theorem steadyReached_zero :
    SteadyReached 0 (numberedNet.addedState .initial steadyGenesis (steadyChain 0)) := by
  have hv : steadyGenesis.atLeastV3 = false := by decide
  have hhash : numberedNet.getHash steadyGenesis = BitVec.ofNat 256 (0+1) :=
    numberedNet_getHash hv rfl
  have hsha := numberedNet_sha256d steadyGenesis
  have hcheck : numberedNet.checkBlockHeader none 0 steadyGenesis true = .ok () :=
    checkBlockHeader_eq_ok (steadyHeader_checkProofOfWork hv rfl (by decide)) (by decide)
  have hacc := @acceptBlockHeader_genesis numberedNet .initial 0 0 steadyGenesis rfl hcheck hhash rfl
  have hinit : numberedNet.Reachable .initial := .init
  refine ⟨hinit.accept (CBlockHeader.fromWire_of_nHeight rfl) hacc,?_,?_,?_,?_,fun _ => rfl,rfl⟩
  · have hfind := @findByFakeHash_addedState numberedNet .initial steadyGenesis (steadyChain 0) rfl
      (by rw [hhash]; decide)
    rw [hsha] at hfind
    exact hfind
  · intro k hk
    obtain rfl : k = 0 := by omega
    rw [← hhash]
    exact addedState_self ..
  · intro r hr
    exact addedState_mapBlockIndex (by rw [hhash]; exact ne_of_number_lt (by decide) hr)
  · intro f hf
    exact addedState_crossReference (by rw [hsha]; exact ne_of_number_lt (by decide) hf)

theorem steadyReached_added {n : Nat} {s : NodeState} (hs : SteadyReached n s) (hn : n+1 < 2^31)
    (h6 : n+1 ≤ numberedNet.switchHeight6) :
    SteadyReached (n+1) (numberedNet.addedState s (steadyHeader 2 (BitVec.ofNat 32 (n+1)) n)
      (steadyChain (n+1))) := by
  have hhash := steadyHeader_getHash hn
  have hsha : (steadyHeader 2 (BitVec.ofNat 32 (n+1)) n).calcSha256dHash numberedNet.hashes =
      BitVec.ofNat 256 (n+1+1) := by
    rw [numberedNet_sha256d,steadyHeader_nNonce hn]
  have hnum : (BitVec.ofNat 256 (n+1+1)).toNat = n+1+1 := blockNumber_toNat (by omega)
  have hacc := accept_steady_next hs hn h6
  refine ⟨hs.reachable.accept (steadyHeader_wire _ _ _) hacc,?_,?_,?_,?_,hs.failed,hs.tip⟩
  · have hfind := @findByFakeHash_addedState numberedNet s
      (steadyHeader 2 (BitVec.ofNat 32 (n+1)) n) (steadyChain (n+1))
      (by rw [hsha]; exact hs.unreferenced _ (by omega))
      (by rw [hhash]; exact blockNumber_ne_zero (by omega))
    rw [hsha] at hfind
    exact hfind
  · intro k hk
    rcases Nat.lt_or_ge k (n+1) with hlt | hge
    · have hne : BitVec.ofNat 256 (k+1) ≠ BitVec.ofNat 256 (n+1+1) :=
        (ne_of_number_lt (by omega) (by rw [hnum]; omega)).symm
      rw [addedState_mapBlockIndex (by rw [hhash]; exact hne)]
      exact hs.indexed k (by omega)
    · obtain rfl : k = n+1 := by omega
      rw [← hhash]
      exact addedState_self ..
  · intro r hr
    rw [addedState_mapBlockIndex (by rw [hhash]; exact ne_of_number_lt (by omega) hr)]
    exact hs.unindexed r (by omega)
  · intro f hf
    rw [addedState_crossReference (by rw [hsha]; exact ne_of_number_lt (by omega) hf)]
    exact hs.unreferenced f (by omega)

theorem steadyReached_succ {n : Nat} {s : NodeState} (hs : SteadyReached n s) (hn : n+1 < 2^31)
    (h6 : n+1 ≤ numberedNet.switchHeight6) : ∃ s', SteadyReached (n+1) s' :=
  ⟨_,steadyReached_added hs hn h6⟩

theorem steadyReached {n : Nat} (hn : n ≤ numberedNet.switchHeight6) :
    ∃ s, SteadyReached n s := by
  have h31 : numberedNet.switchHeight6 < 2^31 := by decide
  induction n with
  | zero => exact ⟨_,steadyReached_zero⟩
  | succ n ih =>
    obtain ⟨s,hs⟩ := ih (by omega)
    exact steadyReached_succ hs (by omega) hn

/-- Below the fifth switch height the tip makes no difference, above it the check runs. -/
theorem skipPoWCheck_steadyChain (n : Nat) :
    skipPoWCheck (some (steadyChain n)) = decide (n < nDifficultySwitchHeight5) := by
  simp only [skipPoWCheck,steadyChain_nHeight]

/-- The tip moves to the end of the chain before the next header comes. -/
def guardedEvents (n : Nat) : List HeaderEvent :=
  [.setTip (BitVec.ofNat 256 (n+1)),
    .acceptBlockHeader (n+1 : Nat) 0x1e0ffff0 (steadyHeader 2 (BitVec.ofNat 32 (n+1)) n)]

theorem guardedEvents_guarded {s : NodeState} {n : Nat} (hs : SteadyReached n s)
    (h : nDifficultySwitchHeight5 ≤ n) : RunGuarded numberedNet s (guardedEvents n) := by
  have hskip : skipPoWCheck (s.mapBlockIndex (BitVec.ofNat 256 (n+1))) = false := by
    rw [hs.indexed n (le_refl n),skipPoWCheck_steadyChain]
    exact decide_eq_false (not_lt.mpr h)
  exact ⟨trivial,fun _ _ _ => hskip,trivial⟩

theorem guardedEvents_adds {s : NodeState} {n : Nat} (hs : SteadyReached n s) (hn : n+1 < 2^31)
    (h6 : n+1 ≤ numberedNet.switchHeight6) :
    (steadyHeader 2 (BitVec.ofNat 32 (n+1)) n,steadyChain (n+1)) ∈
      (numberedNet.headerRun s (guardedEvents n)).2 := by
  have hacc := accept_steady hs (some (steadyChain n)) (by omega) h6 (steadyHeader_number_lt hn)
    (steadyHeader_checkBlockHeader _ hn)
  have hnew := hs.unindexed _ (steadyHeader_number_lt hn)
  simp only [guardedEvents,headerRun,headerStep,hs.indexed n (le_refl n),hacc,hnew,
    List.nil_append,List.append_nil,steadyChain]
  exact List.mem_singleton.mpr rfl

/-- A header whose hash is above every target. -/
def unworkedHeader (n : Nat) : CBlockHeader := steadyHeader 2 (BitVec.ofNat 32 (2^31)) n

theorem getHash_unworkedHeader (n : Nat) :
    numberedNet.getHash (unworkedHeader n) = BitVec.ofNat 256 (2^255) := by
  have hnonce : ¬(unworkedHeader n).nNonce.toNat < 2^31 := by
    change ¬(BitVec.ofNat 32 (2^31)).toNat < 2^31
    decide
  have hv : (unworkedHeader n).atLeastV3 = false := steadyHeader_v2 _ _
  rw [numberedNet_getHash hv rfl,if_neg hnonce]

theorem unworkedHeader_checkProofOfWork (n : Nat) :
    numberedNet.checkProofOfWork (unworkedHeader n) (unworkedHeader n).nBits = false := by
  have hlimit : numberedNet.proofOfWorkLimit (unworkedHeader n) = (setCompact 0x1e0ffff0).target :=
    ite_self _
  have hbits : (unworkedHeader n).nBits = 0x1e0ffff0 := rfl
  unfold checkProofOfWork
  rw [getHash_unworkedHeader,hbits,hlimit]
  decide

end Consensus

end Anoncoin
