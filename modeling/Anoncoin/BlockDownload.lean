import Anoncoin.OrphanPool
import Anoncoin.Lib.Containers

/-!
The bookkeeping of block downloads in main.cpp: the list of requested blocks of every
peer, and the global map from a block's hash into these lists.
-/

set_option autoImplicit false

namespace Anoncoin
open Lib

structure QueuedBlock where
  hash : Uint256
  pindex : Option Uint256
  nTime : Int
  nValidatedQueuedBefore : Int
  fValidatedHeaders : Bool
  deriving DecidableEq, Repr

/-- A node of a `list<QueuedBlock>`. An iterator is the address of a node. -/
structure QueuedNode where
  address : Nat
  block : QueuedBlock
  deriving DecidableEq, Repr

/-- The fields of `CNodeState` that the functions below use. -/
structure CNodeState where
  fCurrentlyConnected : Bool
  nMisbehavior : Int
  fSyncStarted : Bool
  nStallingSince : Int
  vBlocksInFlight : List QueuedNode
  nBlocksInFlight : Int
  fPreferredDownload : Bool
  deriving DecidableEq, Repr

def CNodeState.new : CNodeState := ⟨false,0,false,0,[],0,false⟩

/-- The globals of main.cpp about peers. -/
structure PeerState where
  mapNodeState : AList fun _ : NodeId => CNodeState
  mapBlocksInFlight : AList fun _ : Uint256 => NodeId × Nat
  nQueuedValidatedHeaders : Int
  nSyncStarted : Int
  nPreferredDownload : Int
  orphans : OrphanPool

/-- A boolean in an integer expression. -/
def boolInt (b : Bool) : Int := if b then 1 else 0

/-- The element that an iterator into the list refers to. -/
def findNode (l : List QueuedNode) (it : Nat) : Option QueuedBlock :=
  (l.find? fun node => node.address == it).map QueuedNode.block

def eraseNode (l : List QueuedNode) (it : Nat) : List QueuedNode :=
  l.eraseP fun node => node.address == it

namespace PeerState

def init : PeerState := ⟨∅,∅,0,0,0,.empty⟩

/-- `State`; `none` is the null pointer. -/
def state (s : PeerState) (nodeid : NodeId) : Option CNodeState := s.mapNodeState.lookup nodeid

def initializeNode (s : PeerState) (nodeid : NodeId) : PeerState :=
  match s.state nodeid with
  | some _ => s
  | none => { s with mapNodeState := s.mapNodeState.insert nodeid .new }

/-- What `FinalizeNode` does to the globals, with the orphans that are left. -/
def forgetNode (s : PeerState) (nodeid : NodeId) (state : CNodeState) (orphans : OrphanPool) :
    PeerState :=
  { s with
    nSyncStarted := s.nSyncStarted-boolInt state.fSyncStarted
    mapBlocksInFlight := state.vBlocksInFlight.foldl (fun m node => m.erase node.block.hash)
      s.mapBlocksInFlight
    orphans := orphans
    nPreferredDownload := s.nPreferredDownload-boolInt state.fPreferredDownload
    mapNodeState := s.mapNodeState.erase nodeid }

/-- `FinalizeNode`, but for the report to the address manager. A null pointer or an
invalid iterator that is used gives `none`. -/
def finalizeNode (getHash : CTransaction → Uint256) (s : PeerState) (nodeid : NodeId) :
    Option PeerState := do
  let state ← s.state nodeid
  let orphans ← s.orphans.eraseOrphansFor getHash nodeid
  some (s.forgetNode nodeid state orphans)

/-- The end of `MarkBlockAsReceived`, for the entry that the iterator refers to. -/
def dequeueBlock (s : PeerState) (nodeid : NodeId) (state : CNodeState) (hash : Uint256) (it : Nat)
    (block : QueuedBlock) : PeerState :=
  { s with
    nQueuedValidatedHeaders := s.nQueuedValidatedHeaders-boolInt block.fValidatedHeaders
    mapNodeState := s.mapNodeState.insert nodeid { state with
      vBlocksInFlight := eraseNode state.vBlocksInFlight it
      nBlocksInFlight := state.nBlocksInFlight-1
      nStallingSince := 0 }
    mapBlocksInFlight := s.mapBlocksInFlight.erase hash }

def markBlockAsReceived (s : PeerState) (hash : Uint256) : Option PeerState :=
  match s.mapBlocksInFlight.lookup hash with
  | none => some s
  | some (nodeid,it) => do
      let state ← s.state nodeid
      let block ← findNode state.vBlocksInFlight it
      some (s.dequeueBlock nodeid state hash it block)

/-- The end of `MarkBlockAsInFlight`; the new list node has the address `it`. -/
def queueBlock (s : PeerState) (nodeid : NodeId) (state : CNodeState) (hash : Uint256)
    (pindex : Option Uint256) (nTime : Int) (it : Nat) : PeerState :=
  let newentry : QueuedBlock := ⟨hash,pindex,nTime,s.nQueuedValidatedHeaders,pindex.isSome⟩
  { s with
    nQueuedValidatedHeaders := s.nQueuedValidatedHeaders+boolInt newentry.fValidatedHeaders
    mapNodeState := s.mapNodeState.insert nodeid { state with
      vBlocksInFlight := state.vBlocksInFlight ++ [⟨it,newentry⟩]
      nBlocksInFlight := state.nBlocksInFlight+1 }
    mapBlocksInFlight := s.mapBlocksInFlight.insert hash (nodeid,it) }

def markBlockAsInFlight (s : PeerState) (nodeid : NodeId) (hash : Uint256)
    (pindex : Option Uint256) (nTime : Int) (it : Nat) : Option PeerState := do
  let _ ← s.state nodeid
  let s ← s.markBlockAsReceived hash
  let state ← s.state nodeid
  some (s.queueBlock nodeid state hash pindex nTime it)

end PeerState

inductive PeerEvent where
  | initializeNode (nodeid : NodeId)
  | finalizeNode (nodeid : NodeId)
  | markBlockAsReceived (hash : Uint256)
  | markBlockAsInFlight (nodeid : NodeId) (hash : Uint256) (pindex : Option Uint256) (nTime : Int)
      (it : Nat)
  | orphan (e : OrphanEvent)

namespace PeerState

def step (getHash : CTransaction → Uint256) (s : PeerState) : PeerEvent → Option PeerState
  | .initializeNode nodeid => some (s.initializeNode nodeid)
  | .finalizeNode nodeid => s.finalizeNode getHash nodeid
  | .markBlockAsReceived hash => s.markBlockAsReceived hash
  | .markBlockAsInFlight nodeid hash pindex nTime it =>
      s.markBlockAsInFlight nodeid hash pindex nTime it
  | .orphan e => (s.orphans.step getHash e).map fun orphans => { s with orphans := orphans }

/-- No list holds a node at the address. -/
def isFree (s : PeerState) (it : Nat) : Bool :=
  s.mapNodeState.entries.all fun e => e.2.vBlocksInFlight.all fun node => node.address != it

/-- What the callers and the allocator see to: a peer is finalized, and blocks are
requested from it, only while it is there, and a new list node is put where no other
one is by then. -/
def admits (s : PeerState) : PeerEvent → Bool
  | .finalizeNode nodeid => (s.state nodeid).isSome
  | .markBlockAsInFlight nodeid hash _ _ it =>
      (s.state nodeid).isSome && (s.markBlockAsReceived hash).all fun s => s.isFree it
  | _ => true

def admitsAll (getHash : CTransaction → Uint256) (s : PeerState) : List PeerEvent → Bool
  | [] => true
  | e :: rest => s.admits e && (s.step getHash e).all fun s' => admitsAll getHash s' rest

def run (getHash : CTransaction → Uint256) (s : PeerState) (events : List PeerEvent) :
    Option PeerState := events.foldlM (step getHash) s

/-- The peer's list has the block at the address. -/
def Listed (s : PeerState) (nodeid : NodeId) (it : Nat) (block : QueuedBlock) : Prop :=
  ∃ state, s.state nodeid = some state ∧ ⟨it,block⟩ ∈ state.vBlocksInFlight

/-- The map is the inverse of the lists, and the lists are counted. -/
structure InFlightExact (s : PeerState) : Prop where
  points : ∀ hash nodeid it, s.mapBlocksInFlight.lookup hash = some (nodeid,it) ↔
    ∃ block, s.Listed nodeid it block ∧ block.hash = hash
  addresses : ∀ nodeid state, s.state nodeid = some state →
    (state.vBlocksInFlight.map QueuedNode.address).Nodup
  counted : ∀ nodeid state, s.state nodeid = some state →
    state.nBlocksInFlight = state.vBlocksInFlight.length

/-- The number of entries with validated headers in a list. -/
def validatedIn (l : List QueuedNode) : Int :=
  (l.map fun node => boolInt node.block.fValidatedHeaders).sum

/-- The number of entries with validated headers in the lists of all peers. -/
def validatedQueued (s : PeerState) : Int :=
  (s.mapNodeState.entries.map fun e => validatedIn e.2.vBlocksInFlight).sum

section Lists
variable {l : List QueuedNode} {it : Nat} {block : QueuedBlock}

theorem findNode_of_mem (hnd : (l.map QueuedNode.address).Nodup) (h : ⟨it,block⟩ ∈ l) :
    findNode l it = some block := by
  induction l with
  | nil => simp at h
  | cons node rest ih =>
    rw [List.map_cons,List.nodup_cons] at hnd
    rcases List.mem_cons.mp h with rfl | h
    · simp [findNode]
    · have hne : node.address ≠ it := by
        intro he
        rw [he] at hnd
        exact hnd.1 (List.mem_map_of_mem h)
      have hrest := ih hnd.2 h
      unfold findNode at hrest ⊢
      rw [List.find?_cons_of_neg (by simpa using hne)]
      exact hrest

theorem eraseNode_of_mem (hnd : (l.map QueuedNode.address).Nodup) (h : ⟨it,block⟩ ∈ l) :
    ∃ l₁ l₂, l = l₁ ++ ⟨it,block⟩ :: l₂ ∧ eraseNode l it = l₁ ++ l₂ := by
  obtain ⟨node,l₁,l₂,-,hnode,hl,herase⟩ := List.exists_of_eraseP
    (p := fun node : QueuedNode => node.address == it) h (by simp)
  have haddr : node.address = it := by simpa using hnode
  refine ⟨l₁,l₂,?_,herase⟩
  have hsame : node = ⟨it,block⟩ := by
    rw [hl,List.map_append,List.map_cons] at hnd
    rw [hl] at h
    have hnd' := List.nodup_middle.mp hnd
    rw [List.nodup_cons,haddr,List.mem_append,not_or] at hnd'
    rcases List.mem_append.mp h with h | h
    · exact absurd (List.mem_map_of_mem h) hnd'.1.1
    · rcases List.mem_cons.mp h with h | h
      · exact h.symm
      · exact absurd (List.mem_map_of_mem h) hnd'.1.2
  rw [hsame] at hl
  exact hl

theorem eraseNode_mem_iff (hnd : (l.map QueuedNode.address).Nodup) (h : ⟨it,block⟩ ∈ l)
    {node : QueuedNode} : node ∈ eraseNode l it ↔ node ∈ l ∧ node.address ≠ it := by
  obtain ⟨l₁,l₂,hl,herase⟩ := eraseNode_of_mem hnd h
  rw [herase]
  rw [hl,List.map_append,List.map_cons] at hnd
  have hnd' := List.nodup_middle.mp hnd
  rw [List.nodup_cons,List.mem_append,not_or] at hnd'
  constructor
  · intro hn
    refine ⟨by rw [hl]; simp only [List.mem_append,List.mem_cons] at hn ⊢; tauto,?_⟩
    intro he
    rcases List.mem_append.mp hn with hn | hn
    · have hmem := List.mem_map_of_mem (f := QueuedNode.address) hn
      rw [he] at hmem
      exact hnd'.1.1 hmem
    · have hmem := List.mem_map_of_mem (f := QueuedNode.address) hn
      rw [he] at hmem
      exact hnd'.1.2 hmem
  · rintro ⟨hn,hne⟩
    rw [hl] at hn
    simp only [List.mem_append,List.mem_cons] at hn ⊢
    rcases hn with hn | rfl | hn
    · exact .inl hn
    · exact absurd rfl hne
    · exact .inr hn

theorem eraseNode_counts (hnd : (l.map QueuedNode.address).Nodup) (h : ⟨it,block⟩ ∈ l) :
    ((eraseNode l it).map QueuedNode.address).Nodup ∧ (eraseNode l it).length+1 = l.length ∧
      validatedIn (eraseNode l it)+boolInt block.fValidatedHeaders = validatedIn l := by
  obtain ⟨l₁,l₂,hl,herase⟩ := eraseNode_of_mem hnd h
  have hnd' : ((l₁ ++ l₂).map QueuedNode.address).Nodup := by
    rw [hl,List.map_append,List.map_cons] at hnd
    rw [List.map_append]
    exact (List.nodup_cons.mp (List.nodup_middle.mp hnd)).2
  refine ⟨by rw [herase]; exact hnd',by rw [herase,hl]; simp; omega,?_⟩
  rw [herase,hl]
  simp only [validatedIn,List.map_append,List.sum_append,List.map_cons,List.sum_cons]
  omega

theorem eraseAll_lookup (m : AList fun _ : Uint256 => NodeId × Nat) (l : List QueuedNode)
    (hash : Uint256) :
    (l.foldl (fun m node => m.erase node.block.hash) m).lookup hash =
      if ∃ node ∈ l, node.block.hash = hash then none else m.lookup hash := by
  induction l generalizing m with
  | nil => simp
  | cons node rest ih =>
    rw [List.foldl_cons,ih]
    by_cases hn : node.block.hash = hash
    · subst hn
      simp [AList.lookup_erase]
    · simp [hn,AList.lookup_erase_ne (Ne.symm hn)]

end Lists

variable {s : PeerState} {getHash : CTransaction → Uint256}

theorem InFlightExact.unique (h : s.InFlightExact) {n n' : NodeId} {it it' : Nat}
    {b b' : QueuedBlock} (hb : s.Listed n it b) (hb' : s.Listed n' it' b')
    (he : b.hash = b'.hash) : n = n' ∧ it = it' := by
  have h₁ := (h.points b.hash n it).mpr ⟨b,hb,rfl⟩
  have h₂ := (h.points b.hash n' it').mpr ⟨b',hb',he.symm⟩
  rw [h₁] at h₂
  exact Prod.mk.inj (Option.some.inj h₂)

theorem InFlightExact.listed_inj (h : s.InFlightExact) {n : NodeId} {it : Nat} {b b' : QueuedBlock}
    (hb : s.Listed n it b) (hb' : s.Listed n it b') : b = b' := by
  obtain ⟨st,hst,hmem⟩ := hb
  obtain ⟨st',hst',hmem'⟩ := hb'
  rw [hst] at hst'
  obtain rfl := Option.some.inj hst'
  have h₁ := findNode_of_mem (h.addresses n st hst) hmem
  rw [findNode_of_mem (h.addresses n st hst) hmem'] at h₁
  exact (Option.some.inj h₁).symm

theorem init_inFlightExact : init.InFlightExact := by
  constructor <;> simp [init,state,Listed]

theorem listed_insert {n n' : NodeId} {st : CNodeState} {it : Nat} {b : QueuedBlock}
    {s' : PeerState} (hs' : s'.mapNodeState = s.mapNodeState.insert n st) :
    s'.Listed n' it b ↔ if n' = n then ⟨it,b⟩ ∈ st.vBlocksInFlight else s.Listed n' it b := by
  unfold Listed state
  rw [hs']
  by_cases hn : n' = n
  · subst hn
    simp [AList.lookup_insert]
  · rw [AList.lookup_insert_ne hn,if_neg hn]

/-- The lists and counters of peers after the state of one of them is replaced. -/
theorem lists_insert {n : NodeId} {st : CNodeState} {s' : PeerState} {P : CNodeState → Prop}
    (hs' : s'.mapNodeState = s.mapNodeState.insert n st) (hold : ∀ n st, s.state n = some st → P st)
    (hnew : P st) : ∀ n st, s'.state n = some st → P st := by
  intro n' st' hst'
  unfold state at hst'
  rw [hs'] at hst'
  by_cases hn : n' = n
  · subst hn
    rw [AList.lookup_insert] at hst'
    rw [← Option.some.inj hst']
    exact hnew
  · rw [AList.lookup_insert_ne hn] at hst'
    exact hold n' st' hst'

theorem initializeNode_exact (h : s.InFlightExact) (nodeid : NodeId) :
    (s.initializeNode nodeid).InFlightExact := by
  unfold initializeNode
  cases hst : s.state nodeid with
  | some st => exact h
  | none =>
    have hlisted : ∀ n it b, ({ s with
        mapNodeState := s.mapNodeState.insert nodeid CNodeState.new } : PeerState).Listed n it b ↔
        s.Listed n it b := by
      intro n it b
      rw [listed_insert (s := s) rfl]
      by_cases hn : n = nodeid
      · subst hn
        simp [CNodeState.new,Listed,hst]
      · rw [if_neg hn]
    refine ⟨?_,lists_insert rfl h.addresses (by simp [CNodeState.new]),
      lists_insert rfl h.counted (by simp [CNodeState.new])⟩
    intro hash n it
    simp only [hlisted]
    exact h.points hash n it

/-- The difference between the counter and what it should count. -/
def drift (s : PeerState) : Int := s.nQueuedValidatedHeaders-s.validatedQueued

/-- Replacing the state of a peer exchanges its part of the count. -/
theorem validatedQueued_insert {n : NodeId} {st st' : CNodeState} {s' : PeerState}
    (hst : s.state n = some st) (hs' : s'.mapNodeState = s.mapNodeState.insert n st') :
    s'.validatedQueued+validatedIn st.vBlocksInFlight =
      s.validatedQueued+validatedIn st'.vBlocksInFlight := by
  have hins := sum_insert (fun e : Σ _ : NodeId, CNodeState => validatedIn e.2.vBlocksInFlight)
    s.mapNodeState n st'
  have hdel := sum_erase (fun e : Σ _ : NodeId, CNodeState => validatedIn e.2.vBlocksInFlight) hst
  simp only [validatedQueued,hs'] at hins hdel ⊢
  omega

theorem state_insert_isSome {n : NodeId} {st st' : CNodeState} {s' : PeerState}
    (hst : s.state n = some st) (hs' : s'.mapNodeState = s.mapNodeState.insert n st') (k : NodeId) :
    (s'.state k).isSome = (s.state k).isSome := by
  unfold state at hst ⊢
  rw [hs']
  by_cases hk : k = n
  · subst hk
    rw [AList.lookup_insert,hst]
    rfl
  · rw [AList.lookup_insert_ne hk]

section Dequeue
variable {nodeid : NodeId} {st : CNodeState} {it : Nat} {block : QueuedBlock}

theorem dequeueBlock_listed (h : s.InFlightExact) (hst : s.state nodeid = some st)
    (hmem : ⟨it,block⟩ ∈ st.vBlocksInFlight) (hash : Uint256) {n : NodeId} {it' : Nat}
    {b : QueuedBlock} :
    (s.dequeueBlock nodeid st hash it block).Listed n it' b ↔
      s.Listed n it' b ∧ ¬(n = nodeid ∧ it' = it) := by
  have hnd := h.addresses nodeid st hst
  rw [listed_insert (s := s) rfl]
  by_cases hn : n = nodeid
  · subst hn
    rw [if_pos rfl,eraseNode_mem_iff hnd hmem]
    simp [Listed,hst]
  · simp [hn]

theorem dequeueBlock_exact (h : s.InFlightExact) (hst : s.state nodeid = some st)
    (hmem : ⟨it,block⟩ ∈ st.vBlocksInFlight) :
    (s.dequeueBlock nodeid st block.hash it block).InFlightExact := by
  obtain ⟨hnd,hlen,-⟩ := eraseNode_counts (h.addresses nodeid st hst) hmem
  refine ⟨?_,lists_insert rfl h.addresses hnd,lists_insert rfl h.counted ?_⟩
  · intro hash n it'
    simp only [dequeueBlock_listed h hst hmem]
    simp only [dequeueBlock]
    by_cases hh : hash = block.hash
    · subst hh
      rw [AList.lookup_erase]
      constructor
      · intro hnone
        contradiction
      · rintro ⟨b,⟨hb,hne⟩,he⟩
        obtain ⟨rfl,rfl⟩ := h.unique ⟨st,hst,hmem⟩ hb he.symm
        exact absurd ⟨rfl,rfl⟩ hne
    · rw [AList.lookup_erase_ne hh,h.points hash n it']
      constructor
      · rintro ⟨b,hb,rfl⟩
        refine ⟨b,⟨hb,?_⟩,rfl⟩
        rintro ⟨rfl,rfl⟩
        rw [h.listed_inj hb ⟨st,hst,hmem⟩] at hh
        exact hh rfl
      · rintro ⟨b,⟨hb,-⟩,rfl⟩
        exact ⟨b,hb,rfl⟩
  · have hc := h.counted nodeid st hst
    simp only
    omega

theorem dequeueBlock_drift (h : s.InFlightExact) (hst : s.state nodeid = some st)
    (hmem : ⟨it,block⟩ ∈ st.vBlocksInFlight) (hash : Uint256) :
    (s.dequeueBlock nodeid st hash it block).drift = s.drift := by
  obtain ⟨-,-,hval⟩ := eraseNode_counts (h.addresses nodeid st hst) hmem
  have hnodes : (s.dequeueBlock nodeid st hash it block).mapNodeState =
    s.mapNodeState.insert nodeid _ := rfl
  have hsum := validatedQueued_insert hst hnodes
  simp only [drift,dequeueBlock] at hsum ⊢
  omega

end Dequeue

/-- `MarkBlockAsReceived` takes out the one entry of the block, if there is one. -/
theorem markBlockAsReceived_spec (h : s.InFlightExact) (hash : Uint256) :
    ∃ s', s.markBlockAsReceived hash = some s' ∧ s'.InFlightExact ∧
      s'.mapBlocksInFlight.lookup hash = none ∧
      (∀ n, (s'.state n).isSome = (s.state n).isSome) ∧ s'.orphans = s.orphans ∧
      s'.drift = s.drift := by
  cases hl : s.mapBlocksInFlight.lookup hash with
  | none => exact ⟨s,by simp only [markBlockAsReceived,hl],h,hl,fun n => rfl,rfl,rfl⟩
  | some r =>
    obtain ⟨nodeid,it⟩ := r
    obtain ⟨block,⟨st,hst,hmem⟩,rfl⟩ := (h.points hash nodeid it).mp hl
    have hfind := findNode_of_mem (h.addresses nodeid st hst) hmem
    refine ⟨s.dequeueBlock nodeid st block.hash it block,?_,dequeueBlock_exact h hst hmem,
      AList.lookup_erase _ _,state_insert_isSome hst rfl,rfl,dequeueBlock_drift h hst hmem _⟩
    simp only [markBlockAsReceived,hl,hst,hfind,Option.bind_eq_bind,Option.bind_some]

section Queue
variable {nodeid : NodeId} {st : CNodeState} {hash : Uint256} {pindex : Option Uint256}
  {nTime : Int} {it : Nat}

theorem isFree_address (hfree : s.isFree it = true) (hst : s.state nodeid = some st) :
    it ∉ st.vBlocksInFlight.map QueuedNode.address := by
  unfold isFree at hfree
  rw [List.all_eq_true] at hfree
  have hentry := hfree ⟨nodeid,st⟩ (AList.mem_lookup_iff.mp hst)
  rw [List.all_eq_true] at hentry
  intro hmem
  obtain ⟨node,hnode,he⟩ := List.mem_map.mp hmem
  have hne := hentry node hnode
  simp [he] at hne

/-- A new entry for a block that is in no list. -/
theorem queueBlock_exact (h : s.InFlightExact) (hst : s.state nodeid = some st)
    (hnew : s.mapBlocksInFlight.lookup hash = none) (hfree : s.isFree it = true) :
    (s.queueBlock nodeid st hash pindex nTime it).InFlightExact := by
  have haddr := isFree_address hfree hst
  have hnd : ((st.vBlocksInFlight ++ [(⟨it,⟨hash,pindex,nTime,s.nQueuedValidatedHeaders,
      pindex.isSome⟩⟩ : QueuedNode)]).map QueuedNode.address).Nodup := by
    rw [List.map_append,List.nodup_append]
    refine ⟨h.addresses nodeid st hst,by simp,?_⟩
    intro a ha b hb he
    simp only [List.map_cons,List.map_nil,List.mem_singleton] at hb
    subst hb he
    exact haddr ha
  refine ⟨?_,lists_insert rfl h.addresses hnd,lists_insert rfl h.counted ?_⟩
  · intro hash' n it'
    have hlisted : ∀ b, (s.queueBlock nodeid st hash pindex nTime it).Listed n it' b ↔
        s.Listed n it' b ∨ n = nodeid ∧ it' = it ∧
          b = ⟨hash,pindex,nTime,s.nQueuedValidatedHeaders,pindex.isSome⟩ := by
      intro b
      rw [listed_insert (s := s) rfl]
      by_cases hn : n = nodeid
      · subst hn
        simp [Listed,hst]
      · simp [hn]
    simp only [hlisted]
    simp only [queueBlock]
    by_cases hh : hash' = hash
    · subst hh
      rw [AList.lookup_insert]
      constructor
      · intro he
        obtain ⟨rfl,rfl⟩ := Prod.mk.inj (Option.some.inj he)
        exact ⟨⟨hash',pindex,nTime,s.nQueuedValidatedHeaders,pindex.isSome⟩,.inr ⟨rfl,rfl,rfl⟩,rfl⟩
      · rintro ⟨b,hb | ⟨rfl,rfl,rfl⟩,he⟩
        · rw [(h.points hash' n it').mpr ⟨b,hb,he⟩] at hnew
          contradiction
        · rfl
    · rw [AList.lookup_insert_ne hh,h.points hash' n it']
      constructor
      · rintro ⟨b,hb,he⟩
        exact ⟨b,.inl hb,he⟩
      · rintro ⟨b,hb | ⟨-,-,rfl⟩,he⟩
        · exact ⟨b,hb,he⟩
        · exact absurd he.symm hh
  · have hc := h.counted nodeid st hst
    simp [hc]

theorem queueBlock_drift (hst : s.state nodeid = some st) :
    (s.queueBlock nodeid st hash pindex nTime it).drift = s.drift := by
  have hnodes : (s.queueBlock nodeid st hash pindex nTime it).mapNodeState =
    s.mapNodeState.insert nodeid _ := rfl
  have hsum := validatedQueued_insert hst hnodes
  simp only [drift,queueBlock,validatedIn,List.map_append,List.sum_append,List.map_cons,
    List.map_nil,List.sum_cons,List.sum_nil] at hsum ⊢
  omega

end Queue

theorem listed_erase {n n' : NodeId} {it : Nat} {b : QueuedBlock} {s' : PeerState}
    (hs' : s'.mapNodeState = s.mapNodeState.erase n) :
    s'.Listed n' it b ↔ n' ≠ n ∧ s.Listed n' it b := by
  unfold Listed state
  rw [hs']
  by_cases hn : n' = n
  · subst hn
    simp [AList.lookup_erase]
  · rw [AList.lookup_erase_ne hn]
    simp [hn]

theorem lists_erase {n : NodeId} {s' : PeerState} {P : CNodeState → Prop}
    (hs' : s'.mapNodeState = s.mapNodeState.erase n) (hold : ∀ n st, s.state n = some st → P st) :
    ∀ n st, s'.state n = some st → P st := by
  intro n' st' hst'
  unfold state at hst'
  rw [hs'] at hst'
  by_cases hn : n' = n
  · subst hn
    rw [AList.lookup_erase] at hst'
    contradiction
  · rw [AList.lookup_erase_ne hn] at hst'
    exact hold n' st' hst'

/-- `FinalizeNode` takes the peer's entries out of the map with the peer; the counter
of validated headers stays what it was. -/
theorem finalizeNode_spec (h : s.InFlightExact) (ho : s.orphans.Consistent getHash)
    {nodeid : NodeId} {st : CNodeState} (hst : s.state nodeid = some st) :
    ∃ s', s.finalizeNode getHash nodeid = some s' ∧ s'.InFlightExact ∧
      s'.orphans.Consistent getHash ∧ s'.drift = s.drift+validatedIn st.vBlocksInFlight := by
  obtain ⟨orphans,hrun,hc,-⟩ := OrphanPool.eraseOrphansFor_spec ho nodeid
  have hnodes : (s.forgetNode nodeid st orphans).mapNodeState = s.mapNodeState.erase nodeid := rfl
  refine ⟨s.forgetNode nodeid st orphans,
    by simp only [finalizeNode,hst,hrun,Option.bind_eq_bind,Option.bind_some],
    ⟨?_,lists_erase hnodes h.addresses,lists_erase hnodes h.counted⟩,hc,?_⟩
  · intro hash n it
    simp only [listed_erase hnodes]
    simp only [forgetNode,eraseAll_lookup]
    by_cases hin : ∃ node ∈ st.vBlocksInFlight, node.block.hash = hash
    · rw [if_pos hin]
      constructor
      · intro hnone
        contradiction
      · rintro ⟨b,⟨hn,hb⟩,rfl⟩
        obtain ⟨⟨a,block⟩,hmem,he⟩ := hin
        exact absurd (h.unique hb ⟨st,hst,hmem⟩ he.symm).1 hn
    · rw [if_neg hin,h.points hash n it]
      constructor
      · rintro ⟨b,hb,rfl⟩
        refine ⟨b,⟨?_,hb⟩,rfl⟩
        rintro rfl
        obtain ⟨st',hst',hmem⟩ := hb
        rw [hst] at hst'
        obtain rfl := Option.some.inj hst'
        exact hin ⟨_,hmem,rfl⟩
      · rintro ⟨b,⟨-,hb⟩,he⟩
        exact ⟨b,hb,he⟩
  · have hdel := sum_erase (fun e : Σ _ : NodeId, CNodeState => validatedIn e.2.vBlocksInFlight) hst
    simp only [drift,validatedQueued,forgetNode] at hdel ⊢
    omega

theorem initializeNode_drift (s : PeerState) (nodeid : NodeId) :
    (s.initializeNode nodeid).drift = s.drift := by
  unfold initializeNode
  cases hst : s.state nodeid with
  | some st => rfl
  | none =>
    have hins := sum_insert (fun e : Σ _ : NodeId, CNodeState => validatedIn e.2.vBlocksInFlight)
      s.mapNodeState nodeid .new
    have hdel := sum_erase_none
      (fun e : Σ _ : NodeId, CNodeState => validatedIn e.2.vBlocksInFlight) hst
    simp only [drift,validatedQueued,CNodeState.new] at hins hdel ⊢
    rw [hins,hdel]
    simp [validatedIn]

theorem initializeNode_orphans (s : PeerState) (nodeid : NodeId) :
    (s.initializeNode nodeid).orphans = s.orphans := by
  unfold initializeNode
  cases s.state nodeid <;> rfl

/-- The entries with validated headers that a step removes without counting them. -/
def uncounted (s : PeerState) : PeerEvent → Int
  | .finalizeNode nodeid => ((s.state nodeid).map fun st => validatedIn st.vBlocksInFlight).getD 0
  | _ => 0

/-- What a step keeps, and by how much it moves the counter away from the count. -/
theorem step_spec (h : s.InFlightExact) (ho : s.orphans.Consistent getHash) {e : PeerEvent}
    (hadm : s.admits e = true) :
    ∃ s', s.step getHash e = some s' ∧ s'.InFlightExact ∧ s'.orphans.Consistent getHash ∧
      s'.drift = s.drift+s.uncounted e := by
  cases e with
  | initializeNode nodeid =>
    refine ⟨_,rfl,initializeNode_exact h nodeid,?_,?_⟩
    · rw [initializeNode_orphans]
      exact ho
    · simp [uncounted,initializeNode_drift]
  | finalizeNode nodeid =>
    obtain ⟨st,hst⟩ := Option.isSome_iff_exists.mp hadm
    obtain ⟨s',hs',hexact,hc,hdrift⟩ := finalizeNode_spec h ho hst
    exact ⟨s',hs',hexact,hc,by rw [hdrift]; simp [uncounted,hst]⟩
  | markBlockAsReceived hash =>
    obtain ⟨s',hs',hexact,-,-,horphans,hdrift⟩ := markBlockAsReceived_spec h hash
    exact ⟨s',hs',hexact,by rw [horphans]; exact ho,by simp [hdrift,uncounted]⟩
  | markBlockAsInFlight nodeid hash pindex nTime it =>
    obtain ⟨hlive,hfree⟩ := Bool.and_eq_true_iff.mp hadm
    obtain ⟨s₁,hs₁,hexact,hnone,hstates,horphans,hdrift⟩ := markBlockAsReceived_spec h hash
    rw [hs₁] at hfree
    obtain ⟨st₀,hst₀⟩ := Option.isSome_iff_exists.mp hlive
    obtain ⟨st,hst⟩ := Option.isSome_iff_exists.mp ((hstates nodeid).trans hlive)
    refine ⟨s₁.queueBlock nodeid st hash pindex nTime it,?_,
      queueBlock_exact hexact hst hnone (by simpa using hfree),?_,?_⟩
    · simp only [step,markBlockAsInFlight,hst₀,hs₁,hst,Option.bind_eq_bind,Option.bind_some]
    · simp only [queueBlock,horphans]
      exact ho
    · rw [queueBlock_drift hst,hdrift]
      simp [uncounted]
  | orphan e =>
    obtain ⟨orphans,hrun,hc⟩ := OrphanPool.step_consistent ho e
    refine ⟨{ s with orphans := orphans },by simp only [step,hrun,Option.map_some],
      ⟨h.points,h.addresses,h.counted⟩,hc,?_⟩
    simp [drift,uncounted,validatedQueued]

theorem run_exact (h : s.InFlightExact) (ho : s.orphans.Consistent getHash)
    {events : List PeerEvent} (hadm : s.admitsAll getHash events = true) :
    ∃ s', s.run getHash events = some s' ∧ s'.InFlightExact := by
  induction events generalizing s with
  | nil => exact ⟨s,rfl,h⟩
  | cons e rest ih =>
    obtain ⟨hfirst,hrest⟩ := Bool.and_eq_true_iff.mp hadm
    obtain ⟨s₁,hs₁,hexact,hc,-⟩ := step_spec h ho hfirst
    rw [hs₁] at hrest
    obtain ⟨s₂,hs₂,hexact₂⟩ := ih hexact hc (by simpa using hrest)
    refine ⟨s₂,?_,hexact₂⟩
    unfold run at hs₂ ⊢
    rw [List.foldlM_cons,hs₁]
    exact hs₂

/-- After any operations on any peers no null pointer and no invalid iterator has been
used, the map is a bijection from the hashes in flight to the list nodes of the live
peers, and the lists are counted. -/
theorem inFlight_bijection (getHash : CTransaction → Uint256) (events : List PeerEvent)
    (hadm : init.admitsAll getHash events = true) :
    ∃ s, init.run getHash events = some s ∧ s.InFlightExact ∧
      (∀ hash hash' x, s.mapBlocksInFlight.lookup hash = some x →
        s.mapBlocksInFlight.lookup hash' = some x → hash = hash') ∧
      ∀ n n' it it' b b', s.Listed n it b → s.Listed n' it' b' → b.hash = b'.hash →
        n = n' ∧ it = it' := by
  obtain ⟨s,hs,h⟩ := run_exact init_inFlightExact OrphanPool.empty_consistent hadm
  refine ⟨s,hs,h,?_,fun n n' it it' b b' hb hb' he => h.unique hb hb' he⟩
  rintro hash hash' ⟨n,it⟩ hx hx'
  obtain ⟨b,hb,rfl⟩ := (h.points hash n it).mp hx
  obtain ⟨b',hb',rfl⟩ := (h.points hash' n it).mp hx'
  rw [h.listed_inj hb hb']

/-- Two peers, a block that is requested again from the second one at the address the
first list node had, and the first peer gone. -/
def handover : List PeerEvent :=
  [.initializeNode 0,.initializeNode 1,.markBlockAsInFlight 0 5 (some 6) 0 40,
    .markBlockAsInFlight 0 7 none 0 41,.markBlockAsInFlight 1 5 (some 6) 9 40,.finalizeNode 0,
    .markBlockAsReceived 7]

theorem inFlight_bijection_handover :
    init.admitsAll (fun _ => 0) handover = true ∧
    ∃ s, init.run (fun _ => 0) handover = some s ∧ s.InFlightExact := by
  have hadm : init.admitsAll (fun _ => 0) handover = true := by decide +kernel
  obtain ⟨s,hs,h,-⟩ := inFlight_bijection (fun _ => 0) handover hadm
  exact ⟨hadm,s,hs,h⟩

/-- The entry that a request adds has the counter from before it. -/
theorem markBlockAsInFlight_entry (h : s.InFlightExact) {nodeid : NodeId} {hash : Uint256}
    {pindex : Option Uint256} {nTime : Int} {it : Nat}
    (hadm : s.admits (.markBlockAsInFlight nodeid hash pindex nTime it) = true) {s' : PeerState}
    (hs' : s.markBlockAsInFlight nodeid hash pindex nTime it = some s') {b : QueuedBlock}
    (hb : s'.Listed nodeid it b) :
    b.nValidatedQueuedBefore+boolInt b.fValidatedHeaders = s'.nQueuedValidatedHeaders := by
  obtain ⟨hlive,hfree⟩ := Bool.and_eq_true_iff.mp hadm
  obtain ⟨s₁,hs₁,-,-,hstates,-⟩ := markBlockAsReceived_spec h hash
  rw [hs₁] at hfree
  obtain ⟨st₀,hst₀⟩ := Option.isSome_iff_exists.mp hlive
  obtain ⟨st,hst⟩ := Option.isSome_iff_exists.mp ((hstates nodeid).trans hlive)
  simp only [markBlockAsInFlight,hst₀,hs₁,hst,Option.bind_eq_bind,Option.bind_some,
    Option.some.injEq] at hs'
  subst hs'
  rw [listed_insert (s := s₁) rfl,if_pos rfl] at hb
  rcases List.mem_append.mp hb with hb | hb
  · exact absurd (List.mem_map_of_mem hb) (isFree_address (by simpa using hfree) hst)
  · simp only [List.mem_singleton,QueuedNode.mk.injEq,true_and] at hb
    subst hb
    rfl

/-- The counter is the number of entries with validated headers. -/
def HeadersCounted (s : PeerState) : Prop := s.nQueuedValidatedHeaders = s.validatedQueued

/-- An entry that the step adds knows how many entries with validated headers there are
besides it. -/
def NewEntryCounted (s' : PeerState) : PeerEvent → Prop
  | .markBlockAsInFlight nodeid _ _ _ it => ∀ b, s'.Listed nodeid it b →
      b.nValidatedQueuedBefore = s'.validatedQueued-boolInt b.fValidatedHeaders
  | _ => True

/-- Both, in every state and at every step of a run. -/
def CountedAlong (getHash : CTransaction → Uint256) (s : PeerState) : List PeerEvent → Prop
  | [] => s.HeadersCounted
  | e :: rest => s.HeadersCounted ∧ ∀ s', s.step getHash e = some s' →
      s'.NewEntryCounted e ∧ CountedAlong getHash s' rest

/-- A peer is only finalized while no block with a validated header is requested from it. -/
def finalizesClean (s : PeerState) : PeerEvent → Bool
  | .finalizeNode nodeid => (s.state nodeid).all fun st =>
      st.vBlocksInFlight.all fun node => !node.block.fValidatedHeaders
  | _ => true

def finalizesCleanAlong (getHash : CTransaction → Uint256) (s : PeerState) :
    List PeerEvent → Bool
  | [] => true
  | e :: rest => s.finalizesClean e &&
      (s.step getHash e).all fun s' => finalizesCleanAlong getHash s' rest

theorem validatedIn_nonneg (l : List QueuedNode) : 0 ≤ validatedIn l := by
  induction l with
  | nil => simp [validatedIn]
  | cons node rest ih =>
    simp only [validatedIn,List.map_cons,List.sum_cons] at ih ⊢
    have hnode : 0 ≤ boolInt node.block.fValidatedHeaders := by
      cases node.block.fValidatedHeaders <;> decide
    omega

theorem validatedIn_eq_zero (l : List QueuedNode) :
    validatedIn l = 0 ↔ (l.all fun node => !node.block.fValidatedHeaders) = true := by
  induction l with
  | nil => simp [validatedIn]
  | cons node rest ih =>
    have hrest := validatedIn_nonneg rest
    have hcons : validatedIn (node :: rest) =
        boolInt node.block.fValidatedHeaders+validatedIn rest := by simp [validatedIn]
    rw [hcons,List.all_cons]
    cases hv : node.block.fValidatedHeaders with
    | false => simp [boolInt,ih]
    | true =>
      simp only [boolInt,if_true,Bool.not_true,Bool.false_and,Bool.false_eq_true,iff_false]
      omega

theorem uncounted_eq_zero {e : PeerEvent} : s.uncounted e = 0 ↔ s.finalizesClean e = true := by
  cases e with
  | finalizeNode nodeid =>
    simp only [uncounted,finalizesClean]
    cases hst : s.state nodeid with
    | none => simp
    | some st => simp [validatedIn_eq_zero]
  | initializeNode | markBlockAsReceived | markBlockAsInFlight | orphan =>
    simp [uncounted,finalizesClean]

theorem headersCounted_iff : s.HeadersCounted ↔ s.drift = 0 := by
  unfold HeadersCounted drift
  omega

theorem countedAlong_iff (h : s.InFlightExact) (ho : s.orphans.Consistent getHash)
    (hcount : s.HeadersCounted) {events : List PeerEvent}
    (hadm : s.admitsAll getHash events = true) :
    s.CountedAlong getHash events ↔ s.finalizesCleanAlong getHash events = true := by
  induction events generalizing s with
  | nil => simp [CountedAlong,finalizesCleanAlong,hcount]
  | cons e rest ih =>
    obtain ⟨hfirst,hrest⟩ := Bool.and_eq_true_iff.mp hadm
    obtain ⟨s₁,hs₁,hexact,hc,hdrift⟩ := step_spec h ho hfirst
    rw [hs₁] at hrest
    rw [headersCounted_iff.mp hcount,Int.zero_add] at hdrift
    have hnew : s₁.HeadersCounted → s₁.NewEntryCounted e := by
      intro hcount₁
      cases e with
      | markBlockAsInFlight nodeid hash pindex nTime it =>
        intro b hb
        have hentry := markBlockAsInFlight_entry h hfirst hs₁ hb
        unfold HeadersCounted at hcount₁
        omega
      | initializeNode | markBlockAsReceived | finalizeNode | orphan => trivial
    have hfirst₁ : s₁.CountedAlong getHash rest → s₁.HeadersCounted := by
      intro hal
      cases rest with
      | nil => exact hal
      | cons e' rest' => exact hal.1
    simp only [CountedAlong,finalizesCleanAlong,hs₁,Option.some.injEq,forall_eq',hcount,true_and,
      Bool.and_eq_true,Option.all_some]
    rw [← uncounted_eq_zero,← hdrift,← headersCounted_iff]
    constructor
    · rintro ⟨-,hal⟩
      have hcount₁ := hfirst₁ hal
      exact ⟨hcount₁,(ih hexact hc hcount₁ (by simpa using hrest)).mp hal⟩
    · rintro ⟨hcount₁,hal⟩
      exact ⟨hnew hcount₁,(ih hexact hc hcount₁ (by simpa using hrest)).mpr hal⟩

/-- The counter of queued validated headers is right all along a run exactly when no
peer is finalized that still has such a block outstanding. -/
theorem queuedValidatedHeaders_exact_iff (getHash : CTransaction → Uint256)
    (events : List PeerEvent) (hadm : init.admitsAll getHash events = true) :
    init.CountedAlong getHash events ↔ init.finalizesCleanAlong getHash events = true :=
  countedAlong_iff init_inFlightExact OrphanPool.empty_consistent rfl hadm

/-- The block arrives before the peer goes. -/
def received : List PeerEvent :=
  [.initializeNode 0,.markBlockAsInFlight 0 5 (some 6) 0 40,.markBlockAsReceived 5,.finalizeNode 0]

theorem queuedValidatedHeaders_exact_received :
    init.admitsAll (fun _ => 0) received = true ∧ init.CountedAlong (fun _ => 0) received := by
  have hadm : init.admitsAll (fun _ => 0) received = true := by decide +kernel
  have hclean : init.finalizesCleanAlong (fun _ => 0) received = true := by decide +kernel
  exact ⟨hadm,(queuedValidatedHeaders_exact_iff _ _ hadm).mpr hclean⟩

/-- The peer goes before the block arrives. -/
def abandoned : List PeerEvent :=
  [.initializeNode 0,.markBlockAsInFlight 0 5 (some 6) 0 40,.finalizeNode 0]

/-- No block is in flight any more, and the counter says one. -/
theorem queuedValidatedHeaders_abandoned :
    init.admitsAll (fun _ => 0) abandoned = true ∧
    ∃ s, init.run (fun _ => 0) abandoned = some s ∧ s.validatedQueued = 0 ∧
      s.nQueuedValidatedHeaders = 1 := by
  have hend : (init.run (fun _ => 0) abandoned).map
      (fun s => (s.validatedQueued,s.nQueuedValidatedHeaders)) = some (0,1) := by decide +kernel
  obtain ⟨s,hs,he⟩ := Option.map_eq_some_iff.mp hend
  obtain ⟨hv,hn⟩ := Prod.mk.inj he
  exact ⟨by decide +kernel,s,hs,hv,hn⟩

end PeerState

end Anoncoin
