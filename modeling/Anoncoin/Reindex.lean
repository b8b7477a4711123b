import Anoncoin.HeaderRules

/-!
`LoadExternalBlockFile` (main.cpp): the blocks of a file are handed to
`ProcessNewBlock`, and blocks whose parent is not known yet are parked in
`mapBlocksUnknownParent` under the real hash of that parent.
-/

set_option autoImplicit false

namespace Anoncoin

/-- The index by real hash, with the flag `BLOCK_HAVE_DATA` of each entry, the cross
reference, the parked blocks in the order of their insertion, and the blocks that were
handed to `ProcessNewBlock`. A disk position stands for the block that is stored there. -/
structure ReindexState where
  mapBlockIndex : Uint256 → Option Bool
  mapBlockHashCrossReference : Uint256 → Option Uint256
  mapBlocksUnknownParent : List (Uint256 × CBlock)
  processed : List CBlock

namespace ReindexState

def initial : ReindexState := ⟨fun _ => none,fun _ => none,[],[]⟩

def getRealHash (s : ReindexState) (fakeHash : Uint256) : Uint256 :=
  (s.mapBlockHashCrossReference fakeHash).getD 0

/-- The test for an unknown parent. -/
def parentKnown (s : ReindexState) (block : CBlock) : Bool :=
  s.getRealHash block.hashPrevBlock != 0 &&
    (s.mapBlockIndex (s.getRealHash block.hashPrevBlock)).isSome

end ReindexState

namespace Consensus
variable (net : Consensus)

def realHash (block : CBlock) : Uint256 := net.getHash block.toCBlockHeader

def fakeHash (block : CBlock) : Uint256 := block.calcSha256dHash net.hashes

/-- `ProcessNewBlock` on a valid block: only an unknown parent can make it fail. -/
def processNewBlock (s : ReindexState) (block : CBlock) : Bool × ReindexState :=
  let s := { s with processed := s.processed ++ [block] }
  match s.mapBlockIndex (net.realHash block) with
  | some _ => (true,{ s with
      mapBlockIndex := Function.update s.mapBlockIndex (net.realHash block) (some true) })
  | none =>
      if net.realHash block = net.hashGenesisBlock ∨ s.parentKnown block = true then
        (true,{ s with
          mapBlockIndex := Function.update s.mapBlockIndex (net.realHash block) (some true)
          mapBlockHashCrossReference :=
            if (s.mapBlockHashCrossReference (net.fakeHash block)).isSome then
              s.mapBlockHashCrossReference
            else Function.update s.mapBlockHashCrossReference (net.fakeHash block)
              (some (net.realHash block)) })
      else (false,s)

/-- The inner loop: the parked blocks under one key, in order. Those that were processed
join the queue. -/
def processParked : ReindexState → List CBlock → List Uint256 × ReindexState
  | s, [] => ([],s)
  | s, block :: rest =>
      let r := net.processNewBlock s block
      let q := processParked r.2 rest
      (if r.1 then net.realHash block :: q.1 else q.1,q.2)

def underKey (head : Uint256) (parked : List (Uint256 × CBlock)) : List CBlock :=
  (parked.filter fun p => p.1 == head).map Prod.snd

/-- `mapBlocksUnknownParent` without the entries of one key. -/
def eraseKey (head : Uint256) (parked : List (Uint256 × CBlock)) : List (Uint256 × CBlock) :=
  parked.filter fun p => p.1 != head

theorem processNewBlock_parked (s : ReindexState) (block : CBlock) :
    (net.processNewBlock s block).2.mapBlocksUnknownParent = s.mapBlocksUnknownParent := by
  unfold processNewBlock
  simp only
  split
  · rfl
  · split <;> rfl

theorem processParked_parked (s : ReindexState) (blocks : List CBlock) :
    (net.processParked s blocks).2.mapBlocksUnknownParent = s.mapBlocksUnknownParent := by
  induction blocks generalizing s with
  | nil => rfl
  | cons b rest ih =>
    simp only [processParked]
    rw [ih,processNewBlock_parked]

theorem processParked_length (s : ReindexState) (blocks : List CBlock) :
    (net.processParked s blocks).1.length ≤ blocks.length := by
  induction blocks generalizing s with
  | nil => exact le_refl 0
  | cons b rest ih =>
    have h := ih (net.processNewBlock s b).2
    simp only [processParked]
    split
    · simp only [List.length_cons]
      omega
    · simp only [List.length_cons]
      omega

theorem underKey_length (head : Uint256) (parked : List (Uint256 × CBlock)) :
    (underKey head parked).length+(eraseKey head parked).length = parked.length := by
  unfold underKey eraseKey
  induction parked with
  | nil => rfl
  | cons p rest ih =>
    cases hp : p.1 == head with
    | true =>
      simp [hp,bne] at ih ⊢
      omega
    | false =>
      simp [hp,bne] at ih ⊢
      omega

/-- The queue loop of `LoadExternalBlockFile`: each entry that joins the queue has left
the parked blocks. -/
def processQueue : List Uint256 → ReindexState → ReindexState
  | [], s => s
  | head :: queue, s =>
      let r := net.processParked
        { s with mapBlocksUnknownParent := eraseKey head s.mapBlocksUnknownParent }
        (underKey head s.mapBlocksUnknownParent)
      processQueue (queue ++ r.1) r.2
  termination_by queue s => queue.length+s.mapBlocksUnknownParent.length
  decreasing_by
    have hlen := underKey_length head s.mapBlocksUnknownParent
    have hq := net.processParked_length
      { s with mapBlocksUnknownParent := eraseKey head s.mapBlocksUnknownParent }
      (underKey head s.mapBlocksUnknownParent)
    rw [processParked_parked]
    simp only [List.length_append,List.length_cons]
    omega

/-- One block of the file. -/
def loadBlock (s : ReindexState) (block : CBlock) : ReindexState :=
  if net.realHash block ≠ net.hashGenesisBlock ∧ s.parentKnown block = false then
    { s with mapBlocksUnknownParent :=
        s.mapBlocksUnknownParent ++ [(s.getRealHash block.hashPrevBlock,block)] }
  else
    let s := if s.mapBlockIndex (net.realHash block) = some true then s
      else (net.processNewBlock s block).2
    net.processQueue [net.realHash block] s

/-- `LoadExternalBlockFile` with a disk position, on the blocks in the order of the file. -/
def loadExternalBlockFile (s : ReindexState) (file : List CBlock) : ReindexState :=
  file.foldl net.loadBlock s

/-- A path of blocks from genesis to the given block, each the parent of the next. -/
inductive Ancestry : List CBlock → CBlock → Prop
  | genesis {b : CBlock} : net.realHash b = net.hashGenesisBlock → Ancestry [b] b
  | child {path : List CBlock} {p b : CBlock} : Ancestry path p →
      b.hashPrevBlock = net.fakeHash p → Ancestry (path ++ [b]) b

/-- The block follows its ancestry in the order of the file. -/
def InOrder (file : List CBlock) (b : CBlock) : Prop :=
  ∃ path, net.Ancestry path b ∧ path.Sublist file

/-- The proof-of-work hash identifies the headers of the file, and is never 0. -/
structure HashesIdentify (file : List CBlock) : Prop where
  ne_zero : ∀ b ∈ file, net.realHash b ≠ 0
  bytes : ∀ a ∈ file, ∀ b ∈ file, net.realHash a = net.realHash b → a.bytes = b.bytes

variable {net}

theorem Ancestry.mem {path : List CBlock} {b : CBlock} (h : net.Ancestry path b) : b ∈ path := by
  cases h <;> simp

theorem InOrder.mem {file : List CBlock} {b : CBlock} (h : net.InOrder file b) : b ∈ file := by
  obtain ⟨path,hpath,hsub⟩ := h
  exact hsub.subset hpath.mem

theorem sublist_concat_iff {α : Type} {path file : List α} {a b : α} :
    (path ++ [a]).Sublist (file ++ [b]) ↔
      (path ++ [a]).Sublist file ∨ (a = b ∧ path.Sublist file) := by
  rw [← List.reverse_sublist,← @List.reverse_sublist _ (path ++ [a]),
    ← @List.reverse_sublist _ path]
  simp only [List.reverse_append,List.reverse_cons,List.reverse_nil,List.nil_append,
    List.singleton_append]
  constructor
  · intro h
    cases h with
    | cons _ h => exact .inl h
    | cons_cons _ h => exact .inr ⟨rfl,h⟩
  · rintro (h | ⟨rfl,h⟩)
    · exact h.cons _
    · exact h.cons_cons _

/-- A block more in the file: it is in order itself when its parent is. -/
theorem inOrder_concat {file : List CBlock} {b x : CBlock} :
    net.InOrder (file ++ [b]) x ↔ net.InOrder file x ∨ (x = b ∧
      (net.realHash b = net.hashGenesisBlock ∨
        ∃ p, net.InOrder file p ∧ b.hashPrevBlock = net.fakeHash p)) := by
  constructor
  · rintro ⟨path,hpath,hsub⟩
    cases hpath with
    | genesis hg =>
      rcases (@sublist_concat_iff _ [] _ _ _).mp hsub with h | ⟨rfl,-⟩
      · exact .inl ⟨_,.genesis hg,h⟩
      · exact .inr ⟨rfl,.inl hg⟩
    | child hp hlink =>
      rcases sublist_concat_iff.mp hsub with h | ⟨rfl,h⟩
      · exact .inl ⟨_,.child hp hlink,h⟩
      · exact .inr ⟨rfl,.inr ⟨_,⟨_,hp,h⟩,hlink⟩⟩
  · rintro (⟨path,hpath,hsub⟩ | ⟨rfl,hg | ⟨p,⟨path,hpath,hsub⟩,hlink⟩⟩)
    · exact ⟨path,hpath,hsub.trans (List.sublist_append_left _ _)⟩
    · exact ⟨[x],.genesis hg,List.sublist_append_right _ _⟩
    · exact ⟨path ++ [x],.child hpath hlink,hsub.append_right _⟩

/-- The state after some blocks of the file: exactly the blocks in order are known. -/
structure Tracks (net : Consensus) (done : List CBlock) (s : ReindexState) : Prop where
  index : ∀ r, s.mapBlockIndex r ≠ none ↔ ∃ b, net.InOrder done b ∧ net.realHash b = r
  data : ∀ r, s.mapBlockIndex r ≠ some false
  reference : ∀ f, s.mapBlockHashCrossReference f ≠ none ↔
    ∃ b, net.InOrder done b ∧ net.fakeHash b = f
  target : ∀ f r, s.mapBlockHashCrossReference f = some r → r ≠ 0 ∧ s.mapBlockIndex r ≠ none
  parked : ∀ p ∈ s.mapBlocksUnknownParent, p.1 = 0
  processed : ∀ r, (∃ b ∈ s.processed, net.realHash b = r) ↔ s.mapBlockIndex r ≠ none

variable {done : List CBlock} {s : ReindexState} {b : CBlock}

theorem Tracks.parentKnown (h : Tracks net done s) (b : CBlock) :
    s.parentKnown b = true ↔ ∃ p, net.InOrder done p ∧ b.hashPrevBlock = net.fakeHash p := by
  have href : s.parentKnown b = true ↔ s.mapBlockHashCrossReference b.hashPrevBlock ≠ none := by
    unfold ReindexState.parentKnown ReindexState.getRealHash
    cases hr : s.mapBlockHashCrossReference b.hashPrevBlock with
    | none => simp
    | some r =>
      obtain ⟨hzero,hidx⟩ := h.target _ _ hr
      simp [Option.isSome_iff_ne_none,hidx]
      exact hzero
  rw [href,h.reference]
  simp only [eq_comm]

/-- A parent that is not known has no real hash yet. -/
theorem Tracks.getRealHash (h : Tracks net done s) (hp : s.parentKnown b = false) :
    s.getRealHash b.hashPrevBlock = 0 := by
  unfold ReindexState.parentKnown ReindexState.getRealHash at hp
  unfold ReindexState.getRealHash
  cases hr : s.mapBlockHashCrossReference b.hashPrevBlock with
  | none => rfl
  | some r =>
    obtain ⟨hzero,hidx⟩ := h.target _ _ hr
    simp [hr,hidx] at hp
    exact absurd hp hzero

theorem processQueue_eq_self (hkey : ∀ p ∈ s.mapBlocksUnknownParent, p.1 ≠ net.realHash b) :
    net.processQueue [net.realHash b] s = s := by
  have hunder : underKey (net.realHash b) s.mapBlocksUnknownParent = [] := by
    unfold underKey
    rw [List.map_eq_nil_iff,List.filter_eq_nil_iff]
    intro p hp
    simpa using hkey p hp
  have herase : eraseKey (net.realHash b) s.mapBlocksUnknownParent = s.mapBlocksUnknownParent := by
    unfold eraseKey
    rw [List.filter_eq_self]
    intro p hp
    simpa using hkey p hp
  simp [processQueue,hunder,herase,processParked]

/-- A block that is not in order is parked, under the key 0. -/
theorem Tracks.park (h : Tracks net done s) (hg : net.realHash b ≠ net.hashGenesisBlock)
    (hp : s.parentKnown b = false) :
    Tracks net (done ++ [b]) { s with mapBlocksUnknownParent :=
      s.mapBlocksUnknownParent ++ [(s.getRealHash b.hashPrevBlock,b)] } := by
  have hsame : ∀ x, net.InOrder (done ++ [b]) x ↔ net.InOrder done x := by
    intro x
    rw [inOrder_concat,← h.parentKnown,hp]
    simp [hg]
  refine ⟨?_,h.data,?_,h.target,?_,h.processed⟩
  · intro r
    simp only [hsame]
    exact h.index r
  · intro f
    simp only [hsame]
    exact h.reference f
  · intro p hp'
    rcases List.mem_append.mp hp' with hold | hnew
    · exact h.parked p hold
    · rw [List.mem_singleton.mp hnew]
      exact h.getRealHash hp

theorem exists_inOrder_concat {file : List CBlock} {P : CBlock → Prop}
    (hb : net.realHash b = net.hashGenesisBlock ∨
      ∃ p, net.InOrder file p ∧ b.hashPrevBlock = net.fakeHash p) :
    (∃ x, net.InOrder (file ++ [b]) x ∧ P x) ↔ (∃ x, net.InOrder file x ∧ P x) ∨ P b := by
  constructor
  · rintro ⟨x,hx,hP⟩
    rcases inOrder_concat.mp hx with hold | ⟨rfl,-⟩
    · exact .inl ⟨x,hold,hP⟩
    · exact .inr hP
  · rintro (⟨x,hx,hP⟩ | hP)
    · exact ⟨x,inOrder_concat.mpr (.inl hx),hP⟩
    · exact ⟨b,inOrder_concat.mpr (.inr ⟨rfl,hb⟩),hP⟩

/-- A block in order that is known already adds nothing. -/
theorem Tracks.known (h : Tracks net done s) (hid : net.HashesIdentify (done ++ [b]))
    (hb : net.realHash b = net.hashGenesisBlock ∨
      ∃ p, net.InOrder done p ∧ b.hashPrevBlock = net.fakeHash p)
    (hidx : s.mapBlockIndex (net.realHash b) ≠ none) : Tracks net (done ++ [b]) s := by
  obtain ⟨q,hq,hreal⟩ := (h.index _).mp hidx
  have hfake : net.fakeHash q = net.fakeHash b := by
    have hbytes := hid.bytes q (List.mem_append_left _ hq.mem) b (by simp) hreal
    simp only [fakeHash,CBlockHeader.calcSha256dHash,hbytes]
  refine ⟨?_,h.data,?_,h.target,h.parked,h.processed⟩
  · intro r
    rw [exists_inOrder_concat hb,h.index]
    constructor
    · exact .inl
    · rintro (hold | rfl)
      · exact hold
      · exact ⟨q,hq,hreal⟩
  · intro f
    rw [exists_inOrder_concat hb,h.reference]
    constructor
    · exact .inl
    · rintro (hold | rfl)
      · exact hold
      · exact ⟨q,hq,hfake⟩

/-- A new block in order is processed, and becomes known under both hashes. -/
theorem Tracks.process (h : Tracks net done s) (hid : net.HashesIdentify (done ++ [b]))
    (hb : net.realHash b = net.hashGenesisBlock ∨
      ∃ p, net.InOrder done p ∧ b.hashPrevBlock = net.fakeHash p)
    (hidx : s.mapBlockIndex (net.realHash b) = none) :
    Tracks net (done ++ [b]) (net.processNewBlock s b).2 := by
  have hknown : net.realHash b = net.hashGenesisBlock ∨ s.parentKnown b = true := by
    rw [h.parentKnown]
    exact hb
  have hknown' : net.realHash b = net.hashGenesisBlock ∨
    ({ s with processed := s.processed ++ [b] } : ReindexState).parentKnown b = true := hknown
  have hindex : ∀ r, Function.update s.mapBlockIndex (net.realHash b) (some true) r ≠ none ↔
      s.mapBlockIndex r ≠ none ∨ net.realHash b = r := by
    intro r
    by_cases hr : r = net.realHash b
    · subst hr
      simp
    · simp [Function.update_of_ne hr,Ne.symm hr]
  unfold processNewBlock
  simp only [hidx,if_pos hknown']
  refine ⟨?_,?_,?_,?_,h.parked,?_⟩
  · intro r
    simp only
    rw [hindex,exists_inOrder_concat hb,h.index]
  · intro r
    by_cases hr : r = net.realHash b
    · subst hr
      simp
    · simp only [Function.update_of_ne hr]
      exact h.data r
  · intro f
    rw [exists_inOrder_concat hb,← h.reference]
    split
    · rename_i hsome
      constructor
      · exact .inl
      · rintro (hold | rfl)
        · exact hold
        · exact Option.isSome_iff_ne_none.mp hsome
    · by_cases hf : f = net.fakeHash b
      · subst hf
        simp
      · simp [Function.update_of_ne hf,Ne.symm hf]
  · intro f r hr
    have hnew : r = net.realHash b ∨ (r ≠ 0 ∧ s.mapBlockIndex r ≠ none) := by
      split at hr
      · exact .inr (h.target f r hr)
      · simp only at hr
        by_cases hf : f = net.fakeHash b
        · subst hf
          rw [Function.update_self] at hr
          exact .inl (Option.some.inj hr).symm
        · rw [Function.update_of_ne hf] at hr
          exact .inr (h.target f r hr)
    rcases hnew with rfl | ⟨hz,hi⟩
    · exact ⟨hid.ne_zero b (by simp),(hindex _).mpr (.inr rfl)⟩
    · exact ⟨hz,(hindex r).mpr (.inl hi)⟩
  · intro r
    simp only [List.mem_append,List.mem_singleton]
    rw [hindex,← h.processed]
    constructor
    · rintro ⟨x,hx | rfl,hr⟩
      · exact .inl ⟨x,hx,hr⟩
      · exact .inr hr
    · rintro (⟨x,hx,hr⟩ | hr)
      · exact ⟨x,.inl hx,hr⟩
      · exact ⟨b,.inr rfl,hr⟩

theorem Tracks.loadBlock (h : Tracks net done s) (hid : net.HashesIdentify (done ++ [b])) :
    Tracks net (done ++ [b]) (net.loadBlock s b) := by
  unfold Consensus.loadBlock
  split
  · rename_i hout
    exact h.park hout.1 hout.2
  · rename_i hin
    have hb : net.realHash b = net.hashGenesisBlock ∨
        ∃ p, net.InOrder done p ∧ b.hashPrevBlock = net.fakeHash p := by
      rw [← h.parentKnown]
      by_cases hg : net.realHash b = net.hashGenesisBlock
      · exact .inl hg
      · cases hp : s.parentKnown b with
        | true => exact .inr rfl
        | false => exact absurd ⟨hg,hp⟩ hin
    have hkey : ∀ {s' : ReindexState}, Tracks net (done ++ [b]) s' →
        net.processQueue [net.realHash b] s' = s' := by
      intro s' hs'
      apply processQueue_eq_self
      intro p hp heq
      rw [hs'.parked p hp] at heq
      exact hid.ne_zero b (by simp) heq.symm
    simp only
    split
    · rename_i hdata
      have hnext := h.known hid hb (by simp [hdata])
      rw [hkey hnext]
      exact hnext
    · rename_i hdata
      have hnone : s.mapBlockIndex (net.realHash b) = none := by
        cases hi : s.mapBlockIndex (net.realHash b) with
        | none => rfl
        | some d =>
          cases d with
          | true => exact absurd hi hdata
          | false => exact absurd hi (h.data _)
      have hnext := h.process hid hb hnone
      rw [hkey hnext]
      exact hnext

theorem HashesIdentify.left {file more : List CBlock} (h : net.HashesIdentify (file ++ more)) :
    net.HashesIdentify file :=
  ⟨fun b hb => h.ne_zero b (List.mem_append_left _ hb),
    fun a ha b hb => h.bytes a (List.mem_append_left _ ha) b (List.mem_append_left _ hb)⟩

theorem Tracks.loadExternalBlockFile {rest : List CBlock} (h : Tracks net done s)
    (hid : net.HashesIdentify (done ++ rest)) :
    Tracks net (done ++ rest) (net.loadExternalBlockFile s rest) := by
  induction rest generalizing done s with
  | nil =>
    rw [List.append_nil]
    exact h
  | cons b rest ih =>
    have happ : done ++ b :: rest = done ++ [b] ++ rest := by simp
    rw [happ] at hid ⊢
    exact ih (h.loadBlock hid.left) hid

theorem tracks_initial : Tracks net [] .initial := by
  have hnone : ∀ b, ¬net.InOrder [] b := fun b h => by simpa using h.mem
  constructor <;> simp [ReindexState.initial,hnone]

/-- The block, or another one with its hash, was handed to `ProcessNewBlock`. -/
def Handed (net : Consensus) (s : ReindexState) (b : CBlock) : Prop :=
  ∃ p ∈ s.processed, net.realHash p = net.realHash b

theorem handed_iff {file : List CBlock} (hid : net.HashesIdentify file) (b : CBlock) :
    Handed net (net.loadExternalBlockFile .initial file) b ↔
      ∃ x, net.InOrder file x ∧ net.realHash x = net.realHash b := by
  have h : Tracks net file (net.loadExternalBlockFile .initial file) :=
    tracks_initial.loadExternalBlockFile hid
  unfold Handed
  rw [h.processed,h.index]

/-- The whole ancestry of the block occurs in the file. -/
def Available (net : Consensus) (file : List CBlock) (b : CBlock) : Prop :=
  ∃ path, net.Ancestry path b ∧ ∀ x ∈ path, x ∈ file

/-- A file of valid blocks is loaded completely exactly when every block whose ancestry
is in the file comes after it. -/
theorem load_complete_iff {file : List CBlock} (hid : net.HashesIdentify file) :
    (∀ b, Available net file b → Handed net (net.loadExternalBlockFile .initial file) b) ↔
      ∀ b, Available net file b → ∃ x, net.InOrder file x ∧ net.realHash x = net.realHash b := by
  simp only [handed_iff hid]

def steadyBlock : Nat → CBlock
  | 0 => ⟨steadyGenesis,[]⟩
  | n+1 => ⟨steadyHeader 2 (BitVec.ofNat 32 (n+1)) n,[]⟩

theorem steadyBlock_realHash {n : Nat} (hn : n < 2^31) :
    numberedNet.realHash (steadyBlock n) = BitVec.ofNat 256 (n+1) := by
  cases n with
  | zero => exact numberedNet_getHash (by decide) rfl
  | succ n => exact steadyHeader_getHash hn

theorem steadyBlock_fakeHash {n : Nat} (hn : n < 2^31) :
    numberedNet.fakeHash (steadyBlock n) = BitVec.ofNat 256 (n+1) := by
  unfold fakeHash
  cases n with
  | zero => exact numberedNet_sha256d _
  | succ n =>
    rw [numberedNet_sha256d]
    exact congrArg (fun k => BitVec.ofNat 256 (k+1)) (steadyHeader_nNonce hn)

theorem steadyBlock_hashPrevBlock (n : Nat) :
    (steadyBlock (n+1)).hashPrevBlock = BitVec.ofNat 256 (n+1) := rfl

theorem steadyBlock_ancestry {n : Nat} (hn : n < 2^31) :
    numberedNet.Ancestry ((List.range (n+1)).map steadyBlock) (steadyBlock n) := by
  induction n with
  | zero => exact .genesis (steadyBlock_realHash (by decide))
  | succ n ih =>
    rw [List.range_succ,List.map_append]
    refine .child (ih (by omega)) ?_
    rw [steadyBlock_fakeHash (by omega)]
    exact steadyBlock_hashPrevBlock n

theorem steadyBlocks_hashesIdentify {ns : List Nat} (hns : ∀ n ∈ ns, n < 2^31) :
    numberedNet.HashesIdentify (ns.map steadyBlock) := by
  constructor
  · intro b hb
    obtain ⟨n,hn,rfl⟩ := List.mem_map.mp hb
    rw [steadyBlock_realHash (hns n hn)]
    exact blockNumber_ne_zero (by have h := hns n hn; omega)
  · intro a ha b hb heq
    obtain ⟨n,hn,rfl⟩ := List.mem_map.mp ha
    obtain ⟨m,hm,rfl⟩ := List.mem_map.mp hb
    have hn' := hns n hn
    have hm' := hns m hm
    rw [steadyBlock_realHash hn',steadyBlock_realHash hm'] at heq
    have hnat := congrArg BitVec.toNat heq
    rw [blockNumber_toNat (by omega),blockNumber_toNat (by omega)] at hnat
    obtain rfl : n = m := by omega
    rfl

theorem steadyBlock_available {ns : List Nat} {n : Nat} (hn : n < 2^31)
    (h : ∀ k ≤ n, k ∈ ns) : Available numberedNet (ns.map steadyBlock) (steadyBlock n) := by
  refine ⟨_,steadyBlock_ancestry hn,?_⟩
  intro x hx
  obtain ⟨k,hk,rfl⟩ := List.mem_map.mp hx
  exact List.mem_map_of_mem (h k (Nat.lt_succ_iff.mp (List.mem_range.mp hk)))

theorem load_steady_in_order :
    Handed numberedNet
      (numberedNet.loadExternalBlockFile .initial ((List.range 3).map steadyBlock))
      (steadyBlock 2) := by
  have hlt : ∀ n ∈ List.range 3, n < 2^31 := fun n hn => by
    have h := List.mem_range.mp hn
    omega
  refine (load_complete_iff (steadyBlocks_hashesIdentify hlt)).mpr ?_ _
    (steadyBlock_available (by decide) (by decide))
  rintro x ⟨path,hpath,hmem⟩
  obtain ⟨n,hn,rfl⟩ := List.mem_map.mp (hmem x hpath.mem)
  have hsub : ((List.range (n+1)).map steadyBlock).Sublist ((List.range 3).map steadyBlock) :=
    (List.range_sublist.mpr (List.mem_range.mp hn)).map _
  exact ⟨_,⟨_,steadyBlock_ancestry (hlt n hn),hsub⟩,rfl⟩

theorem steadyBlock_not_inOrder :
    ¬numberedNet.InOrder ([0,2,1].map steadyBlock) (steadyBlock 2) := by
  have h2 := @steadyBlock_realHash 2 (by decide)
  have hne : ∀ k, k < 2 → steadyBlock 2 ≠ steadyBlock k := by
    intro k hk heq
    have hreal := congrArg numberedNet.realHash heq
    rw [h2,steadyBlock_realHash (by omega)] at hreal
    have hnat := congrArg BitVec.toNat hreal
    rw [blockNumber_toNat (by decide),blockNumber_toNat (by omega)] at hnat
    omega
  have hgen : numberedNet.realHash (steadyBlock 2) ≠ numberedNet.hashGenesisBlock := by
    rw [h2]
    decide
  intro h
  rcases (@inOrder_concat numberedNet ([0,2].map steadyBlock) (steadyBlock 1) _).mp h with
    h | ⟨heq,-⟩
  · rcases (@inOrder_concat numberedNet ([0].map steadyBlock) (steadyBlock 2) _).mp h with
      h | ⟨-,hg | ⟨p,hp,hlink⟩⟩
    · exact hne 0 (by decide) (List.mem_singleton.mp h.mem)
    · exact hgen hg
    · have hp0 : p = steadyBlock 0 := List.mem_singleton.mp hp.mem
      rw [hp0,steadyBlock_fakeHash (by decide),steadyBlock_hashPrevBlock] at hlink
      exact absurd hlink (by decide)
  · exact hne 1 (by decide) heq

/-- A grandchild stored before its parent is parked under the key 0 and stays there. -/
theorem load_out_of_order_loses_block :
    numberedNet.HashesIdentify ([0,2,1].map steadyBlock) ∧
    Available numberedNet ([0,2,1].map steadyBlock) (steadyBlock 2) ∧
    ¬Handed numberedNet (numberedNet.loadExternalBlockFile .initial ([0,2,1].map steadyBlock))
      (steadyBlock 2) := by
  have hid := @steadyBlocks_hashesIdentify [0,2,1] (by decide)
  refine ⟨hid,steadyBlock_available (by decide) (by decide),?_⟩
  rw [handed_iff hid]
  rintro ⟨x,hx,hreal⟩
  obtain ⟨n,hn,rfl⟩ := List.mem_map.mp hx.mem
  have hlt : n < 2^31 := by
    simp only [List.mem_cons,List.not_mem_nil,or_false] at hn
    omega
  rw [steadyBlock_realHash hlt,steadyBlock_realHash (by decide)] at hreal
  have hnat := congrArg BitVec.toNat hreal
  rw [blockNumber_toNat (by omega),blockNumber_toNat (by decide)] at hnat
  obtain rfl : n = 2 := by omega
  exact steadyBlock_not_inOrder hx

end Consensus

end Anoncoin
