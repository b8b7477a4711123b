import Anoncoin.AddrManCodec
import Anoncoin.Framing
import Anoncoin.Lib.Runs
import Anoncoin.StreamType

/-!
The messages of a peer with the stream types of their buffers (net.h, net.cpp, main.cpp): how they
are queued, how the version, verack and addr messages are processed, and what the addresses of
an addr message are made of.
-/

set_option autoImplicit false

namespace Anoncoin
open Lib

def SER_DISK : Uint32 := 1#32 <<< 1

def SER_GETHASH : Uint32 := 1#32 <<< 2

/-- Without its destination an address keeps the one of `Init`. -/
def CNetAddr.unserializeAs (nType : Uint32) : Reader ReadFailure CNetAddr :=
  if nType &&& SER_IPADDRONLY = 0 then CNetAddr.unserialize
  else do
    let ip ← take .endOfData 16
    if h : ip.length = 16 then pure { CNetAddr.unset with ip := ip, ip_length := h }
    else throw .endOfData

def CService.unserializeAs (nType : Uint32) : Reader ReadFailure CService := do
  let a ← CNetAddr.unserializeAs nType
  let high ← readUint 1
  let low ← readUint 1
  pure ⟨a,BitVec.ofNat 16 (256*high+low)⟩

/-- A field that is on some streams only. -/
def readUintIf (onStream : Prop) [Decidable onStream] (n value : Nat) : Reader ReadFailure Nat :=
  if onStream then readUint n else pure value

/-- The fields that are not on the stream are those of `Init`. -/
def CAddress.unserializeAs (nType : Uint32) : Reader ReadFailure CAddress := do
  let _ ← readUintIf (nType &&& SER_DISK ≠ 0) 4 0
  let nTime ← readUintIf (nType &&& SER_DISK ≠ 0 ∨ nType &&& SER_GETHASH ≠ 0) 4 100000000
  let nServices ← readUint 8
  let s ← CService.unserializeAs nType
  pure ⟨s,BitVec.ofNat 64 nServices,BitVec.ofNat 32 nTime⟩

/-- On disk it is the record of peers.dat. -/
theorem CAddress.unserializeAs_disk : CAddress.unserializeAs SER_DISK = CAddress.unserialize := by
  have hfull : SER_DISK &&& SER_IPADDRONLY = 0 := by decide
  have hdisk : SER_DISK &&& SER_DISK ≠ 0 := by decide
  unfold CAddress.unserializeAs CAddress.unserialize CService.unserializeAs CService.unserialize
    CNetAddr.unserializeAs readUintIf
  simp only [hfull,hdisk,if_true,ne_eq,not_false_eq_true,true_or]

/-- The elements of a vector of addresses have 552 bytes. -/
theorem addr_chunk_pos : 0 < 5000000/552 := by decide

/-- A message in the queue, with the stream types of its two buffers. -/
structure QueuedMessage extends CNetMessage where
  hdrbufType : Uint32
  vRecvType : Uint32
  deriving DecidableEq, Repr

/-- A node with what it has received; `fClosed` is a socket that is closed. -/
structure CNode extends PeerNode where
  vRecvMsg : List QueuedMessage
  fClosed : Bool
  deriving DecidableEq, Repr

/-- What processing depends on outside of the node: the start of the messages, the hash for the
checksum, what the version handler reads from a buffer of some type, and the default port. -/
structure MessageEnv where
  pchMessageStart : List UInt8
  hash : List UInt8 → Uint256
  readVersion : Uint32 → List UInt8 → VersionMessage
  nDefaultPort : Uint16

def CMessageHeader.getCommand (hdr : CMessageHeader) : List UInt8 :=
  if hdr.pchCommand.getD 11 0 = 0 then hdr.pchCommand.takeWhile (· ≠ 0) else hdr.pchCommand

/-- Printable signs up to the first zero, and zeros behind it. -/
def validCommand : List UInt8 → Bool
  | [] => true
  | c :: rest =>
    if c = 0 then rest.all (· == 0)
    else if c < 0x20 ∨ c > 0x7E then false
    else validCommand rest

def CMessageHeader.isValid (pchMessageStart : List UInt8) (hdr : CMessageHeader) : Bool :=
  hdr.pchMessageStart == pchMessageStart && validCommand hdr.pchCommand &&
    hdr.nMessageSize.toNat ≤ MAX_SIZE

/-- The commands `version`, `verack` and `addr`. -/
def versionCommand : List UInt8 := [0x76,0x65,0x72,0x73,0x69,0x6F,0x6E]

def verackCommand : List UInt8 := [0x76,0x65,0x72,0x61,0x63,0x6B]

def addrCommand : List UInt8 := [0x61,0x64,0x64,0x72]

def QueuedMessage.create (nRecvStreamType : Uint32) : QueuedMessage :=
  ⟨.create,nRecvStreamType,nRecvStreamType⟩

/-- The queue when its last message is one to read into. -/
def withCurrent (nRecvStreamType : Uint32) (vRecvMsg : List QueuedMessage) : List QueuedMessage :=
  match vRecvMsg.getLast? with
  | none => vRecvMsg ++ [.create nRecvStreamType]
  | some msg => if msg.complete then vRecvMsg ++ [.create nRecvStreamType] else vRecvMsg

/-- The loop of `ReceiveMsgBytes` over the queue, for at most `rounds` rounds: what it returns and
leaves. -/
def receiveLoop (nRecvStreamType : Uint32) : Nat → List QueuedMessage → List UInt8 → Uint32 →
    Option (Bool × List QueuedMessage)
  | rounds,vRecvMsg,pch,nBytes =>
    if nBytes > 0 then
      match rounds with
      | 0 => none
      | rounds+1 => do
        let vRecvMsg := withCurrent nRecvStreamType vRecvMsg
        let msg ← vRecvMsg.getLast?
        let (handled,absorbed) ← msg.toCNetMessage.absorb pch nBytes
        let vRecvMsg := vRecvMsg.dropLast ++ [{ msg with toCNetMessage := absorbed }]
        if handled < 0 then pure (false,vRecvMsg)
        else if absorbed.in_data ∧ absorbed.hdr.nMessageSize.toNat > MAX_PROTOCOL_MESSAGE_LENGTH then
          pure (false,vRecvMsg)
        else
          receiveLoop nRecvStreamType rounds vRecvMsg (pch.drop handled.toNat)
            (nBytes-BitVec.ofInt 32 handled)
    else some (true,vRecvMsg)

/-- What the addr handler does with the destination of an address; `none` is its assertion. -/
def CAddress.fixDestination (fPossibleI2pAddrs : Bool) (addr : CAddress) : Option CAddress :=
  if fPossibleI2pAddrs then
    let addr := addr.withGarlic
    if addr.isNativeI2P then some { addr with port := 0 }
    else
      some { addr with
        i2pDest := List.replicate I2P_DESTINATION_STORE 0
        dest_length := CNetAddr.noDestination_length }
  else if addr.getI2pDestination = [] then some addr
  else none

def CAddress.fixPort (nDefaultPort : Uint16) (addr : CAddress) : CAddress :=
  { addr with
    port := if !addr.isNativeI2P && addr.port == 0 then nDefaultPort else addr.port
    nServices := addr.nServices &&& 0xFF }

def CAddress.checkFromPeer (fPossibleI2pAddrs : Bool) (nDefaultPort : Uint16) (addr : CAddress) :
    Option CAddress := (addr.fixDestination fPossibleI2pAddrs).map (fixPort nDefaultPort)

namespace CNode

def new (nStreamType : Uint32) (fNativeI2P fI2P : Bool) : CNode :=
  ⟨.new nStreamType fNativeI2P fI2P,[],false⟩

def setRecvStreamType (n : CNode) (nType : Uint32) : CNode :=
  { n with
    nRecvStreamType := nType
    vRecvMsg := n.vRecvMsg.map fun msg => { msg with hdrbufType := nType, vRecvType := nType } }

def setStreamType (n : CNode) (nType : Uint32) : CNode :=
  { n with nStreamType := nType, nSendStreamType := nType }.setRecvStreamType nType

def setStreamTypeBasedOnServices (n : CNode) : CNode :=
  n.setStreamType
    (if SER_NETWORK.setWidth 64 ||| (n.nServices &&& NODE_I2P) ≠ 0 then 0 else SER_IPADDRONLY)

def switchToFull (n : CNode) (nRemaining : Nat) : CNode :=
  if n.isOldClearnet && nAddrWithI2P*2 < nRemaining then n.setStreamType SER_NETWORK else n

/-- Only the send stream and the services change here. -/
def adjustSend (n : CNode) : CNode := { n with toPeerNode := n.toPeerNode.adjustSend }

def adjustBoth (n : CNode) : CNode :=
  if 70009 ≤ n.nVersion then
    let n := n.setStreamTypeBasedOnServices
    if n.fI2P && n.nServices &&& NODE_I2P == 0 then { n with nServices := n.nServices ||| NODE_I2P }
    else n
  else n

def processVersion (n : CNode) (m : VersionMessage) (nHeight : Nat) : CNode :=
  if n.nVersion ≠ 0 then n
  else
    match m.ending with
    | .header fServices => { n with
        nVersion := m.nVersion, nServices := if fServices then m.nServices else n.nServices }
    | ending =>
        let n : CNode := { n with nVersion := m.nVersion, nServices := m.nServices }
        if PeerNode.isObsolete m.nVersion nHeight then { n with fDisconnect := true }
        else
          let n := n.switchToFull m.nRemaining
          match ending with
          | .header _ | .addrMe => n
          | .rest fDisconnect => { n with fDisconnect := fDisconnect }
          | .done => { n.adjustSend.adjustBoth with fSuccessfullyConnected := true }

def processVerack (n : CNode) : CNode :=
  if n.nVersion = 0 then n
  else
    let n : CNode := { n with fVerack := true }
    if n.isOldClearnet && n.nVersion ≠ 70006 then
      n.setRecvStreamType (n.nRecvStreamType &&& PeerNode.addressMask n.nServices)
    else n

/-- The addresses of an addr message as they are handed on; none are when the message cannot be
read or is refused. -/
def processAddr (env : MessageEnv) (n : CNode) (msg : QueuedMessage) : Option (List CAddress) :=
  match unserializeVector 552 addr_chunk_pos (CAddress.unserializeAs msg.vRecvType)
      ⟨msg.vRecv,0,0⟩ with
  | .error _ _ => some []
  | .ok vAddr _ =>
    if n.nVersion < MIN_PEER_PROTO_VERSION_AFTER_HF then some []
    else if vAddr.length > 1000 then some []
    else
      vAddr.mapM (CAddress.checkFromPeer (n.nRecvStreamType &&& SER_IPADDRONLY == 0)
        env.nDefaultPort)

/-- The messages that the handshake and the addresses are made of; the others change nothing here. -/
def processMessage (env : MessageEnv) (n : CNode) (msg : QueuedMessage) (nHeight : Nat) :
    Option CNode :=
  let strCommand := msg.hdr.getCommand
  if strCommand = versionCommand then
    some (n.processVersion (env.readVersion msg.vRecvType msg.vRecv) nHeight)
  else if n.nVersion = 0 then some n
  else if strCommand = verackCommand then some n.processVerack
  else if strCommand = addrCommand then (n.processAddr env msg).map fun _ => n
  else some n

/-- The messages that the loop of `ProcessMessages` is done with, the one of them that it processes,
and what it returns. -/
def nextMessage (env : MessageEnv) : List QueuedMessage → Nat × Option QueuedMessage × Bool
  | [] => (0,none,true)
  | msg :: rest =>
    if !msg.complete then (0,none,true)
    else if msg.hdr.pchMessageStart ≠ env.pchMessageStart then (1,none,false)
    else if !msg.hdr.isValid env.pchMessageStart ||
        (env.hash (msg.vRecv.take msg.hdr.nMessageSize.toNat)).setWidth 32 ≠ msg.hdr.nChecksum then
      let (done,next,fOk) := nextMessage env rest
      (done+1,next,fOk)
    else (1,some msg,true)

/-- Without the lock the queue stays as it is. -/
def closeSocketDisconnect (n : CNode) (lockRecv : Bool) : CNode :=
  { n with fDisconnect := true, fClosed := true, vRecvMsg := if lockRecv then [] else n.vRecvMsg }

/-- `fSendError` is an error of the socket while the handler answers, which closes it. -/
def processMessages (env : MessageEnv) (n : CNode) (nHeight : Nat) (fSendError : Bool) :
    Option (Bool × CNode) :=
  if n.fDisconnect then some (true,n)
  else do
    let (done,next,fOk) := nextMessage env n.vRecvMsg
    let n ←
      match next with
      | none => some n
      | some msg => do
        let n ← n.processMessage env msg nHeight
        pure (if fSendError then n.closeSocketDisconnect true else n)
    pure (fOk,if n.fDisconnect then n else { n with vRecvMsg := n.vRecvMsg.drop done })

end CNode

/-- Bytes arrive, the message thread comes to the node, or its socket is closed from elsewhere. -/
inductive NodeEvent where
  | received (chunk : Chunk)
  | processed (nHeight : Nat) (fSendError : Bool)
  | closed (lockRecv : Bool)

namespace CNode

/-- `none` is a failed assertion, or bytes that are not taken in. -/
def step (env : MessageEnv) (n : CNode) : NodeEvent → Option CNode
  | .received chunk =>
    if n.fClosed then some n
    else do
      let (fOk,vRecvMsg) ← receiveLoop n.nRecvStreamType chunk.bytes.length n.vRecvMsg chunk.bytes
        chunk.nBytes
      let n := { n with vRecvMsg := vRecvMsg }
      pure (if fOk then n else n.closeSocketDisconnect true)
  | .processed nHeight fSendError => do
    let (fOk,n) ← n.processMessages env nHeight fSendError
    pure (if fOk then n else n.closeSocketDisconnect true)
  | .closed lockRecv => some (n.closeSocketDisconnect lockRecv)

def run (env : MessageEnv) (n : CNode) (events : List NodeEvent) : Option CNode :=
  events.foldlM (step env) n

section Handlers
variable {n : CNode}

/-- The types of all buffers are that of the node. -/
def Typed (n : CNode) : Prop :=
  ∀ msg ∈ n.vRecvMsg, msg.hdrbufType = n.nRecvStreamType ∧ msg.vRecvType = n.nRecvStreamType

/-- The messages without their types. -/
def messages (n : CNode) : List CNetMessage := n.vRecvMsg.map QueuedMessage.toCNetMessage

/-- What a handler may do: the messages stay, and so do their types unless all are set. -/
structure Handles (n n' : CNode) : Prop where
  messages : n'.messages = n.messages
  typed : n.Typed → n'.Typed

theorem Handles.refl (n : CNode) : Handles n n := ⟨rfl,id⟩

theorem Handles.trans {n' n'' : CNode} (h : Handles n n') (h' : Handles n' n'') : Handles n n'' :=
  ⟨h'.messages.trans h.messages,fun ht => h'.typed (h.typed ht)⟩

/-- Nothing that the queue depends on is changed. -/
theorem handles_of_same {n' : CNode} (hqueue : n'.vRecvMsg = n.vRecvMsg)
    (htype : n'.nRecvStreamType = n.nRecvStreamType) : Handles n n' := by
  refine ⟨by rw [CNode.messages,hqueue]; rfl,fun ht => ?_⟩
  unfold Typed
  rw [hqueue,htype]
  exact ht

theorem handles_setRecvStreamType (n : CNode) (nType : Uint32) :
    Handles n (n.setRecvStreamType nType) := by
  constructor
  · simp [CNode.messages,setRecvStreamType,Function.comp_def]
  · intro _ msg hmsg
    obtain ⟨old,-,rfl⟩ := List.mem_map.mp hmsg
    exact ⟨rfl,rfl⟩

theorem handles_setStreamType (n : CNode) (nType : Uint32) : Handles n (n.setStreamType nType) := by
  have hsend : Handles n { n with nStreamType := nType, nSendStreamType := nType } :=
    handles_of_same rfl rfl
  exact hsend.trans (handles_setRecvStreamType _ nType)

theorem handles_switchToFull (n : CNode) (nRemaining : Nat) :
    Handles n (n.switchToFull nRemaining) := by
  unfold switchToFull
  split
  · exact handles_setStreamType n SER_NETWORK
  · exact .refl n

theorem handles_adjustSend (n : CNode) : Handles n n.adjustSend := by
  refine handles_of_same rfl ?_
  rw [adjustSend,PeerNode.adjustSend]
  split
  · split <;> rfl
  · rfl

theorem handles_adjustBoth (n : CNode) : Handles n n.adjustBoth := by
  unfold adjustBoth
  split
  · have hset : Handles n n.setStreamTypeBasedOnServices := handles_setStreamType n _
    dsimp only
    split
    · exact hset.trans (handles_of_same rfl rfl)
    · exact hset
  · exact .refl n

theorem handles_processVersion (n : CNode) (m : VersionMessage) (nHeight : Nat) :
    Handles n (n.processVersion m nHeight) := by
  have hread : Handles n { n with nVersion := m.nVersion, nServices := m.nServices } :=
    handles_of_same rfl rfl
  have hswitch := hread.trans (handles_switchToFull _ m.nRemaining)
  unfold processVersion
  by_cases hv : n.nVersion ≠ 0
  · rw [if_pos hv]
    exact .refl n
  · rw [if_neg hv]
    cases m.ending with
    | header fServices => exact handles_of_same rfl rfl
    | addrMe | rest | done =>
      dsimp only
      split
      · exact handles_of_same rfl rfl
      · first
        | exact hswitch
        | exact hswitch.trans (handles_of_same rfl rfl)
        | exact hswitch.trans ((handles_adjustSend _).trans ((handles_adjustBoth _).trans
            (handles_of_same rfl rfl)))

theorem handles_processVerack (n : CNode) : Handles n n.processVerack := by
  unfold processVerack
  split
  · exact .refl n
  · dsimp only
    have hverack : Handles n { n with fVerack := true } := handles_of_same rfl rfl
    split
    · exact hverack.trans (handles_setRecvStreamType _ _)
    · exact hverack

theorem switchToFull_toPeerNode (n : CNode) (nRemaining : Nat) :
    (n.switchToFull nRemaining).toPeerNode = n.toPeerNode.switchToFull nRemaining := by
  unfold switchToFull PeerNode.switchToFull
  split
  · rfl
  · rfl

theorem adjustBoth_toPeerNode (n : CNode) : n.adjustBoth.toPeerNode = n.toPeerNode.adjustBoth := by
  unfold adjustBoth PeerNode.adjustBoth
  split
  · dsimp only
    have hset : n.setStreamTypeBasedOnServices.toPeerNode =
        n.toPeerNode.setStreamTypeBasedOnServices := rfl
    rw [hset]
    split
    · rw [← hset]
    · exact hset
  · rfl

/-- The handlers do to the node what they do without its queue. -/
theorem processVersion_toPeerNode (n : CNode) (m : VersionMessage) (nHeight : Nat) :
    (n.processVersion m nHeight).toPeerNode = n.toPeerNode.processVersion m nHeight := by
  unfold processVersion PeerNode.processVersion
  by_cases hv : n.nVersion ≠ 0
  · rw [if_pos hv,if_pos hv]
  · rw [if_neg hv,if_neg hv]
    cases m.ending with
    | header fServices => rfl
    | addrMe =>
      dsimp only
      split
      · rfl
      · exact switchToFull_toPeerNode _ _
    | rest fDisconnect =>
      dsimp only
      split
      · rfl
      · rw [← switchToFull_toPeerNode { n with nVersion := m.nVersion, nServices := m.nServices }]
    | done =>
      dsimp only
      split
      · rfl
      · rw [adjustBoth_toPeerNode,adjustSend,switchToFull_toPeerNode]

theorem processVerack_toPeerNode (n : CNode) :
    n.processVerack.toPeerNode = n.toPeerNode.processVerack := by
  unfold processVerack PeerNode.processVerack
  split
  · rfl
  · dsimp only
    split
    · rfl
    · rfl

end Handlers

section Receiving
variable {t : Uint32} {q : List QueuedMessage}

/-- What keeps the queue in order: the types, and that only its last message can be incomplete. -/
structure InOrder (t : Uint32) (q : List QueuedMessage) : Prop where
  typed : ∀ msg ∈ q, msg.hdrbufType = t ∧ msg.vRecvType = t
  receiving : Receiving (q.map QueuedMessage.toCNetMessage)

/-- The message that is read into is the last one. -/
theorem withCurrent_eq (t : Uint32) (q : List QueuedMessage) : ∃ before msg,
    withCurrent t q = before ++ [msg] ∧
    currentMessage (q.map QueuedMessage.toCNetMessage) =
      (before.map QueuedMessage.toCNetMessage,msg.toCNetMessage) ∧
    ((∀ msg ∈ q, msg.hdrbufType = t ∧ msg.vRecvType = t) →
      ∀ other ∈ before ++ [msg], other.hdrbufType = t ∧ other.vRecvType = t) := by
  cases q using List.reverseRecOn with
  | nil =>
    refine ⟨[],.create t,rfl,rfl,fun _ other hother => ?_⟩
    obtain rfl := List.mem_singleton.mp hother
    exact ⟨rfl,rfl⟩
  | append_singleton before msg =>
    rw [withCurrent,List.getLast?_concat,List.map_append,List.map_singleton,currentMessage_append]
    dsimp only
    split
    · refine ⟨before ++ [msg],.create t,rfl,by simp [QueuedMessage.create],fun h => ?_⟩
      exact List.forall_mem_append.mpr ⟨h,List.forall_mem_singleton.mpr ⟨rfl,rfl⟩⟩
    · exact ⟨before,msg,rfl,rfl,id⟩

/-- Every call returns, and the queue is in order when nothing is refused. -/
theorem receiveLoop_spec {rounds : Nat} {pch : List UInt8} {nBytes : Uint32} (h : InOrder t q)
    (hlen : pch.length = nBytes.toNat) (hrounds : nBytes.toNat ≤ rounds) :
    ∃ fOk q', receiveLoop t rounds q pch nBytes = some (fOk,q') ∧ (fOk = true → InOrder t q') := by
  induction rounds generalizing q pch nBytes with
  | zero =>
    have hzero : nBytes = 0 := BitVec.eq_of_toNat_eq (by simpa using hrounds)
    exact ⟨true,q,by simp [receiveLoop,hzero],fun _ => h⟩
  | succ rounds ih =>
    by_cases hpos : nBytes > 0
    · obtain ⟨before,msg,hcurrent,herased,htyped⟩ := withCurrent_eq t q
      have hround := h.receiving.receiveRound_spec hlen (BitVec.lt_def.mp hpos)
      rw [receiveRound,herased] at hround
      rw [receiveLoop,if_pos hpos]
      simp only [hcurrent,List.getLast?_concat,List.dropLast_concat,Option.bind_eq_bind,
        Option.bind_some]
      cases habsorb : msg.toCNetMessage.absorb pch nBytes with
      | none => simp [habsorb] at hround
      | some result =>
        obtain ⟨handled,absorbed⟩ := result
        simp only [habsorb,Option.bind_eq_bind,Option.bind_some] at hround ⊢
        by_cases hneg : handled < 0
        · exact ⟨false,_,if_pos hneg,by simp⟩
        · rw [if_neg hneg] at hround ⊢
          by_cases hover : absorbed.in_data = true ∧
              absorbed.hdr.nMessageSize.toNat > MAX_PROTOCOL_MESSAGE_LENGTH
          · exact ⟨false,_,if_pos hover,by simp⟩
          · rw [if_neg hover] at hround ⊢
            obtain ⟨after,heq,-⟩ | ⟨after,pch',nBytes',heq,hafter,hlen',hless,-⟩ := hround
            · exact absurd (Option.some.inj heq) (by simp)
            · obtain ⟨rfl,rfl,rfl⟩ := Round.absorbed.inj (Option.some.inj heq)
              have hall := List.forall_mem_append.mp (htyped h.typed)
              refine ih ⟨List.forall_mem_append.mpr ⟨hall.1,fun other hother => ?_⟩,?_⟩ hlen'
                (by omega)
              · obtain rfl := List.mem_singleton.mp hother
                exact hall.2 msg List.mem_cons_self
              · rwa [List.map_append]
    · exact ⟨true,q,by rw [receiveLoop,if_neg hpos],fun _ => h⟩

end Receiving

section Messages
variable {t : Uint32} {q : List QueuedMessage}

/-- The messages that are done with are complete, so the others are in order. -/
theorem InOrder.drop_nextMessage (h : InOrder t q) (env : MessageEnv) :
    InOrder t (q.drop (nextMessage env q).1) := by
  induction q with
  | nil => exact h
  | cons msg rest ih =>
    unfold nextMessage
    by_cases hcomplete : msg.complete = true
    · have hrest : InOrder t rest :=
        ⟨(List.forall_mem_cons.mp h.typed).2,(h.receiving.tail hcomplete).1⟩
      simp only [hcomplete,Bool.not_true,Bool.false_eq_true,if_false]
      split
      · exact hrest
      · split
        · exact ih hrest
        · exact hrest
    · simpa [hcomplete] using h

theorem nextMessage_mem {env : MessageEnv} {msg : QueuedMessage}
    (h : (nextMessage env q).2.1 = some msg) : msg ∈ q := by
  induction q with
  | nil => contradiction
  | cons first rest ih =>
    unfold nextMessage at h
    split at h
    · contradiction
    · split at h
      · contradiction
      · split at h
        · exact List.mem_cons_of_mem _ (ih h)
        · obtain rfl := Option.some.inj h
          exact List.mem_cons_self

/-- On a stream of ip addresses no address comes with a destination. -/
theorem returns_unserializeAs (h : t &&& SER_IPADDRONLY ≠ 0) :
    Returns (CAddress.unserializeAs t) fun addr => addr.getI2pDestination = [] := by
  have haddr : Returns (CNetAddr.unserializeAs t) fun a => a.getI2pDestination = [] := by
    rw [CNetAddr.unserializeAs,if_neg h]
    refine (Returns.any _).bind fun ip _ => ?_
    split
    · exact .pure rfl
    · exact .throw
  have hservice : Returns (CService.unserializeAs t) fun s => s.getI2pDestination = [] :=
    haddr.bind fun a ha => (Returns.any _).bind fun high _ => (Returns.any _).bind fun low _ => .pure ha
  refine (Returns.any _).bind fun _ _ => (Returns.any _).bind fun _ _ =>
    (Returns.any _).bind fun _ _ => hservice.bind fun s hs => ?_
  exact .pure (p := fun addr : CAddress => addr.getI2pDestination = []) hs

/-- The assertion holds, and what is handed on has a destination only under its mark. -/
theorem fixDestination_spec {fPossibleI2pAddrs : Bool} {addr : CAddress}
    (h : fPossibleI2pAddrs = false → addr.getI2pDestination = []) :
    ∃ addr', addr.fixDestination fPossibleI2pAddrs = some addr' ∧
      (addr'.isNativeI2P = true → addr'.isI2P = true) := by
  unfold CAddress.fixDestination
  cases fPossibleI2pAddrs with
  | true =>
    rw [if_pos rfl]
    by_cases hnative : addr.withGarlic.isNativeI2P = true
    · exact ⟨_,if_pos hnative,CNetAddr.isI2P_of_native (a := addr.toCNetAddr)⟩
    · refine ⟨_,if_neg hnative,fun hcleared => ?_⟩
      rw [CNetAddr.isNativeI2P,Bool.and_eq_true] at hcleared
      exact absurd hcleared.1 (show ¬((0 : UInt8) != 0) = true by decide)
  | false =>
    have hnone := h rfl
    refine ⟨addr,by simp [hnone],fun hnative => ?_⟩
    rw [CNetAddr.getI2pDestination,if_pos hnative] at hnone
    have hlen := addr.dest_length
    rw [hnone] at hlen
    contradiction

/-- No address fails the assertion of the addr handler. -/
theorem processAddr_spec (env : MessageEnv) {n : CNode} {msg : QueuedMessage}
    (htype : msg.vRecvType = n.nRecvStreamType) : ∃ vAddr, n.processAddr env msg = some vAddr ∧
      ∀ addr ∈ vAddr, addr.isNativeI2P = true → addr.isI2P = true := by
  unfold processAddr
  split
  · exact ⟨[],rfl,by simp⟩
  · rename_i vAddr s hread
    split
    · exact ⟨[],rfl,by simp⟩
    · split
      · exact ⟨[],rfl,by simp⟩
      · have hempty : (n.nRecvStreamType &&& SER_IPADDRONLY == 0) = false →
            ∀ addr ∈ vAddr, addr.getI2pDestination = [] := by
          intro hflag
          rw [htype] at hread
          have hreturns := @returns_unserializeVector _ _ addr_chunk_pos _ _
            (returns_unserializeAs (t := n.nRecvStreamType) (by simpa using hflag))
          exact (hreturns _).result hread
        refine mapM_of_forall fun addr haddr => ?_
        obtain ⟨fixed,hfixed,hmarked⟩ := fixDestination_spec fun hflag => hempty hflag addr haddr
        exact ⟨fixed.fixPort env.nDefaultPort,by rw [CAddress.checkFromPeer,hfixed]; rfl,hmarked⟩

end Messages

section Runs

theorem InOrder.handles {n n' : CNode} (h : InOrder n.nRecvStreamType n.vRecvMsg)
    (hn : Handles n n') : InOrder n'.nRecvStreamType n'.vRecvMsg := by
  have hreceiving : Receiving n.messages := h.receiving
  rw [← hn.messages] at hreceiving
  exact ⟨hn.typed h.typed,hreceiving⟩

theorem processMessage_spec (env : MessageEnv) {n : CNode} {msg : QueuedMessage} (nHeight : Nat)
    (htype : msg.vRecvType = n.nRecvStreamType) :
    ∃ n', n.processMessage env msg nHeight = some n' ∧ Handles n n' := by
  unfold processMessage
  dsimp only
  split
  · exact ⟨_,rfl,handles_processVersion n _ nHeight⟩
  · split
    · exact ⟨n,rfl,.refl n⟩
    · split
      · exact ⟨_,rfl,handles_processVerack n⟩
      · split
        · obtain ⟨vAddr,haddr,-⟩ := processAddr_spec env htype
          exact ⟨n,by rw [haddr]; rfl,.refl n⟩
        · exact ⟨n,rfl,.refl n⟩

theorem InOrder.closed {n : CNode} (h : InOrder n.nRecvStreamType n.vRecvMsg) (lockRecv : Bool) :
    InOrder (n.closeSocketDisconnect lockRecv).nRecvStreamType
      (n.closeSocketDisconnect lockRecv).vRecvMsg := by
  unfold closeSocketDisconnect
  cases lockRecv with
  | false => exact h
  | true => exact ⟨by simp,Receiving.nil⟩

theorem processMessages_spec (env : MessageEnv) {n : CNode}
    (h : InOrder n.nRecvStreamType n.vRecvMsg) (nHeight : Nat) (fSendError : Bool) :
    ∃ fOk n', n.processMessages env nHeight fSendError = some (fOk,n') ∧
      InOrder n'.nRecvStreamType n'.vRecvMsg := by
  unfold processMessages
  split
  · exact ⟨true,n,rfl,h⟩
  · have hdrop := h.drop_nextMessage env
    have hmem : ∀ msg, (nextMessage env n.vRecvMsg).2.1 = some msg → msg ∈ n.vRecvMsg :=
      fun msg => nextMessage_mem
    generalize nextMessage env n.vRecvMsg = result at hdrop hmem
    obtain ⟨done,next,fOk⟩ := result
    cases next with
    | none =>
      refine ⟨fOk,_,rfl,?_⟩
      split
      · exact h
      · exact hdrop
    | some msg =>
      obtain ⟨n',hprocess,hhandles⟩ := processMessage_spec env nHeight
        (h.typed msg (hmem msg rfl)).2
      have hn' := h.handles hhandles
      simp only [hprocess,Option.bind_eq_bind,Option.bind_some]
      cases fSendError with
      | true => exact ⟨fOk,_,rfl,by simp [closeSocketDisconnect],Receiving.nil⟩
      | false =>
        refine ⟨fOk,_,rfl,?_⟩
        simp only [Bool.false_eq_true,if_false]
        split
        · exact hn'
        · refine ⟨fun msg hmsg => hn'.typed msg (List.mem_of_mem_drop hmsg),?_⟩
          have hmessages := hhandles.messages
          rw [CNode.messages,CNode.messages] at hmessages
          rw [List.map_drop,hmessages,← List.map_drop]
          exact hdrop.receiving

theorem step_spec (env : MessageEnv) {n : CNode} (h : InOrder n.nRecvStreamType n.vRecvMsg)
    (e : NodeEvent) : ∃ n', n.step env e = some n' ∧ InOrder n'.nRecvStreamType n'.vRecvMsg := by
  cases e with
  | closed lockRecv => exact ⟨_,rfl,h.closed lockRecv⟩
  | processed nHeight fSendError =>
    obtain ⟨fOk,n',hprocess,hn'⟩ := processMessages_spec env h nHeight fSendError
    rw [step,hprocess]
    cases fOk with
    | true => exact ⟨n',rfl,hn'⟩
    | false => exact ⟨_,rfl,hn'.closed true⟩
  | received chunk =>
    rw [step]
    split
    · exact ⟨n,rfl,h⟩
    · obtain ⟨fOk,q,hreceive,hq⟩ := receiveLoop_spec h chunk.toNat_nBytes.symm
        chunk.toNat_nBytes.le
      rw [hreceive]
      cases fOk with
      | true => exact ⟨_,rfl,hq rfl⟩
      | false => exact ⟨_,rfl,by simp [closeSocketDisconnect],Receiving.nil⟩

/-- In every run every buffer has the stream type of the node, no assertion fails and all bytes
are taken in. -/
theorem addr_messages_safe (env : MessageEnv) (nStreamType : Uint32) (fNativeI2P fI2P : Bool)
    (events : List NodeEvent) : ∃ n, (new nStreamType fNativeI2P fI2P).run env events = some n ∧
      ∀ msg ∈ n.vRecvMsg, msg.hdrbufType = n.nRecvStreamType ∧
        msg.vRecvType = n.nRecvStreamType := by
  have hstep (n : CNode) (hn : InOrder n.nRecvStreamType n.vRecvMsg) (e : NodeEvent)
      (_ : e ∈ events) := step_spec env hn e
  obtain ⟨n,hrun,hn⟩ := foldlM_invariant (s := new nStreamType fNativeI2P fI2P)
    ⟨by simp [new],Receiving.nil⟩ hstep
  exact ⟨n,hrun,hn.typed⟩

end Runs

end CNode

end Anoncoin
