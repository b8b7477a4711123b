import Anoncoin.AddrMessages
import Anoncoin.SocketSend

/-!
How a node takes its messages out of the receive buffer of a peer (`ProcessMessages` in main.cpp),
between the calls of `ReceiveMsgBytes` and `SocketSendData` of the socket thread.
-/

set_option autoImplicit false

namespace Anoncoin
open Lib

/-- What `ProcessMessage` is called with. -/
structure Message where
  strCommand : List UInt8
  vRecv : List UInt8
  deriving DecidableEq, Repr

/-- The network and the hash of the checksums. -/
structure Protocol where
  pchMessageStart : Vector UInt8 4
  hash : List UInt8 → Uint256

/-- How the loop of `ProcessMessages` ends, with what it leaves in the buffer. -/
inductive Taken where
  | stopped (vRecvMsg : List CNetMessage)
  | invalidStart (vRecvMsg : List CNetMessage)
  | process (msg : Message) (vRecvMsg : List CNetMessage)

namespace Protocol
variable (net : Protocol)

/-- The loop of `ProcessMessages`, which gives up where the send buffer is full. -/
def takeMessage (sendBufferFull : Bool) : List CNetMessage → Taken
  | [] => .stopped []
  | msg :: rest =>
    if sendBufferFull then .stopped (msg :: rest)
    else if !msg.complete then .stopped (msg :: rest)
    else if msg.hdr.pchMessageStart ≠ net.pchMessageStart.toList then .invalidStart rest
    else if !msg.hdr.isValid net.pchMessageStart.toList then takeMessage sendBufferFull rest
    else
      let nMessageSize := msg.hdr.nMessageSize
      let nChecksum := (net.hash (msg.vRecv.take nMessageSize.toNat)).setWidth 32
      if nChecksum ≠ msg.hdr.nChecksum then takeMessage sendBufferFull rest
      else .process ⟨msg.hdr.getCommand,msg.vRecv⟩ rest

end Protocol

/-- What becomes of the connection in a call of `ProcessMessage`: it may be marked for
disconnection, and it may be closed. -/
inductive Handling where
  | goesOn
  | disconnects
  | closes
  deriving DecidableEq, Repr

/-- A `CNode` with its two buffers: whether it is to be disconnected and whether it has a socket,
the bytes that came in, and the messages that `ProcessMessage` was called with. -/
structure Peer where
  queue : SendQueue
  fDisconnect : Bool
  hSocket : Bool
  vRecvMsg : List CNetMessage
  received : List UInt8
  handled : List Message

/-- A socket that was closed. -/
def Socket.invalid : Socket where
  send _ _ := .failed (.other 9)
  bounded _ _ _ h := by contradiction

/-- A message that a node can put into the queue: its command is printable and fits into the
header, and the other side takes its payload. -/
structure Outgoing extends Message where
  short : strCommand.length ≤ 12
  printable : ∀ p ∈ strCommand, ¬(p < 0x20 ∨ p > 0x7E)
  size : vRecv.length ≤ MAX_PROTOCOL_MESSAGE_LENGTH

def Outgoing.payload (m : Outgoing) : Payload :=
  ⟨m.vRecv,by have h := m.size; unfold MAX_PROTOCOL_MESSAGE_LENGTH at h; omega⟩

namespace Peer

def new : Peer := ⟨.new,false,true,[],[],[]⟩

/-- The buffer is wiped with the socket. -/
def closeSocketDisconnect (p : Peer) : Peer :=
  { p with fDisconnect := true, hSocket := false, vRecvMsg := [] }

/-- The socket is closed where it could not be written to. -/
def sent (p : Peer) (queue : SendQueue) : Peer :=
  if queue.fDisconnect then { p with queue := queue }.closeSocketDisconnect
  else { p with queue := queue }

def socket (p : Peer) (socket : Socket) : Socket := if p.hSocket then socket else .invalid

/-- A message is put into the queue; the socket thread sends or closes; the message thread
processes, where `fGetData` says that requests for data are left over. -/
inductive Action where
  | pushMessage (msg : Outgoing) (socket : Socket) (nTime : Int)
  | socketSendData (socket : Socket) (nTime : Int)
  | processMessages (fGetData : Bool) (handling : Handling)
  | close

variable (net : Protocol) (sendBufferSize : Uint64)

/-- `ProcessMessages`, and what `ThreadMessageHandler` does when it fails. -/
def processMessages (p : Peer) (fGetData : Bool) (handling : Handling) : Peer :=
  if fGetData then p
  else match net.takeMessage (decide (sendBufferSize ≤ p.queue.nSendSize)) p.vRecvMsg with
    | .stopped vRecvMsg => { p with vRecvMsg := vRecvMsg }
    | .invalidStart vRecvMsg => { p with vRecvMsg := vRecvMsg }.closeSocketDisconnect
    | .process msg vRecvMsg =>
      let p := { p with handled := p.handled ++ [msg] }
      match handling with
      | .goesOn => { p with vRecvMsg := vRecvMsg }
      | .disconnects => { p with fDisconnect := true }
      | .closes => p.closeSocketDisconnect

/-- There is no next state where an assertion fails. -/
def act (p : Peer) : Action → Option Peer
  | .pushMessage msg socket nTime =>
    (p.queue.step net.pchMessageStart net.hash
      (.pushMessage msg.strCommand msg.payload (p.socket socket) nTime)).map p.sent
  | .socketSendData socket nTime =>
    if p.hSocket then
      (p.queue.step net.pchMessageStart net.hash (.socketSendData socket nTime)).map p.sent
    else some p
  | .processMessages fGetData handling =>
    if p.fDisconnect then some p
    else some (p.processMessages net sendBufferSize fGetData handling)
  | .close => some p.closeSocketDisconnect

/-- The socket thread reads from the socket. There is no next state where a buffer is overrun. -/
def receive (p : Peer) (chunk : Chunk) : Option Peer :=
  if p.hSocket then
    match receiveMsgBytes chunk.bytes.length p.vRecvMsg chunk.bytes chunk.nBytes with
    | .returned accepted vRecvMsg _ =>
      let p := { p with vRecvMsg := vRecvMsg, received := p.received ++ chunk.bytes }
      some (if accepted then p else p.closeSocketDisconnect)
    | _ => none
  else some p

inductive Event where
  | act (a : Action)
  | receive (chunk : Chunk)

def step (p : Peer) : Event → Option Peer
  | .act a => p.act net sendBufferSize a
  | .receive chunk => p.receive chunk

def run (p : Peer) (events : List Event) : Option Peer := events.foldlM (step net sendBufferSize) p

end Peer

/-! The messages of a stream that are to be processed. -/

namespace Protocol
variable (net : Protocol)

/-- A message of this network. -/
def native (f : Frame) : Bool := decide (f.hdr.pchMessageStart = net.pchMessageStart.toList)

def intact (f : Frame) : Bool :=
  f.hdr.isValid net.pchMessageStart.toList &&
    decide ((net.hash f.payload).setWidth 32 = f.hdr.nChecksum)

end Protocol

def Frame.message (f : Frame) : Message := ⟨f.hdr.getCommand,f.payload⟩

/-- Those with a valid header and the right checksum, up to the first message of another
network. -/
def Protocol.messages (net : Protocol) (frames : List Frame) : List Message :=
  ((frames.takeWhile net.native).filter net.intact).map Frame.message

section Frames
variable {b payload rest : List UInt8}

theorem parseStream_oversize (hb : b.length = 24)
    (hsize : MAX_PROTOCOL_MESSAGE_LENGTH < (CMessageHeader.ofBytes b).payloadSize)
    (rest : List UInt8) : parseStream (b ++ rest) = ⟨[],false⟩ := by
  rw [parseStream_header hb,parseBody,if_pos hsize]

theorem parseStream_cut (hb : b.length = 24)
    (hsize : (CMessageHeader.ofBytes b).payloadSize ≤ MAX_PROTOCOL_MESSAGE_LENGTH)
    (hrest : rest.length < (CMessageHeader.ofBytes b).payloadSize) :
    parseStream (b ++ rest) = ⟨[],true⟩ := by
  rw [parseStream_header hb,parseBody,if_neg (not_lt.mpr hsize),if_pos hrest]

theorem parseStream_message (hb : b.length = 24)
    (hsize : (CMessageHeader.ofBytes b).payloadSize ≤ MAX_PROTOCOL_MESSAGE_LENGTH)
    (hpayload : payload.length = (CMessageHeader.ofBytes b).payloadSize) (rest : List UInt8) :
    parseStream (b ++ (payload ++ rest)) = (parseStream rest).after [⟨.ofBytes b,payload⟩] := by
  rw [parseStream_header hb,parseBody_payload hsize hpayload]

/-- A stream ends within a header or a payload, or a header refuses it, or a message comes before
the rest. -/
theorem stream_induction {P : List UInt8 → Prop} (short : ∀ s, s.length < 24 → P s)
    (oversize : ∀ b rest, b.length = 24 →
      MAX_PROTOCOL_MESSAGE_LENGTH < (CMessageHeader.ofBytes b).payloadSize → P (b ++ rest))
    (cut : ∀ b rest, b.length = 24 →
      (CMessageHeader.ofBytes b).payloadSize ≤ MAX_PROTOCOL_MESSAGE_LENGTH →
      rest.length < (CMessageHeader.ofBytes b).payloadSize → P (b ++ rest))
    (message : ∀ b payload rest, b.length = 24 →
      (CMessageHeader.ofBytes b).payloadSize ≤ MAX_PROTOCOL_MESSAGE_LENGTH →
      payload.length = (CMessageHeader.ofBytes b).payloadSize → P rest → P (b ++ (payload ++ rest)))
    (s : List UInt8) : P s := by
  induction hlen : s.length using Nat.strong_induction_on generalizing s with
  | _ n ih =>
    by_cases hshort : s.length < 24
    · exact short s hshort
    have hb : (s.take 24).length = 24 := List.length_take_of_le (not_lt.mp hshort)
    rw [← List.take_append_drop 24 s]
    rcases lt_or_ge MAX_PROTOCOL_MESSAGE_LENGTH (CMessageHeader.ofBytes (s.take 24)).payloadSize
      with hsize | hsize
    · exact oversize _ _ hb hsize
    rcases lt_or_ge (s.drop 24).length (CMessageHeader.ofBytes (s.take 24)).payloadSize
      with hrest | hrest
    · exact cut _ _ hb hsize hrest
    rw [← List.take_append_drop (CMessageHeader.ofBytes (s.take 24)).payloadSize (s.drop 24)]
    refine message _ _ _ hb hsize (List.length_take_of_le hrest) (ih _ ?_ _ rfl)
    simp only [List.length_drop]
    omega

theorem parseStream_payload {stream : List UInt8} {f : Frame}
    (h : f ∈ (parseStream stream).messages) : f.payload.length = f.hdr.payloadSize := by
  induction stream using stream_induction with
  | short s hs => simp [parseStream_short hs] at h
  | oversize b rest hb hsize => simp [parseStream_oversize hb hsize] at h
  | cut b rest hb hsize hrest => simp [parseStream_cut hb hsize hrest] at h
  | message b payload rest hb hsize hpayload ih =>
    rw [parseStream_message hb hsize hpayload] at h
    obtain rfl | hlater := List.mem_cons.mp h
    · exact hpayload
    · exact ih hlater

/-- What has arrived of a stream shows the first of its messages. -/
theorem parseStream_mono (s t : List UInt8) :
    (parseStream s).messages <+: (parseStream (s ++ t)).messages := by
  induction s using stream_induction with
  | short s hs => simp [parseStream_short hs]
  | oversize b rest hb hsize => simp [parseStream_oversize hb hsize]
  | cut b rest hb hsize hrest => simp [parseStream_cut hb hsize hrest]
  | message b payload rest hb hsize hpayload ih =>
    rw [List.append_assoc,List.append_assoc,parseStream_message hb hsize hpayload,
      parseStream_message hb hsize hpayload]
    exact (List.prefix_append_right_inj _).mpr ih

end Frames

namespace Protocol
variable {net : Protocol} {frames later : List Frame}

/-- None of the messages so far is of another network. -/
def Native (net : Protocol) (frames : List Frame) : Prop := ∀ f ∈ frames, net.native f = true

theorem Native.messages_append (h : net.Native frames) (later : List Frame) :
    net.messages (frames ++ later) = net.messages frames ++ net.messages later := by
  unfold messages
  rw [List.takeWhile_append_of_pos h,List.takeWhile_eq_self_iff.mpr h]
  simp

theorem messages_mono (h : frames <+: later) : net.messages frames <+: net.messages later := by
  obtain ⟨added,rfl⟩ := h
  have htake : frames.takeWhile net.native <+: (frames ++ added).takeWhile net.native := by
    rw [List.takeWhile_append]
    split
    · exact (List.takeWhile_prefix net.native).trans (List.prefix_append ..)
    · exact List.prefix_rfl
  exact (htake.filter net.intact).map Frame.message

theorem messages_singleton {f : Frame} (h : net.native f = true) :
    net.messages [f] = if net.intact f then [f.message] else [] := by
  unfold messages
  cases hi : net.intact f <;> simp [h,hi]

end Protocol

/-- Where the head of the buffer is not complete, nothing else is. -/
theorem Receiving.filter_eq_nil {vRecvMsg : List CNetMessage} (h : Receiving vRecvMsg)
    (hhead : ∀ msg ∈ vRecvMsg.head?, msg.complete = false) :
    vRecvMsg.filter CNetMessage.complete = [] := by
  cases vRecvMsg with
  | nil => rfl
  | cons msg rest =>
    have hmsg := hhead msg rfl
    have hall := h.filter_complete
    cases rest using List.reverseRecOn with
    | nil => simp [hmsg]
    | append_singleton before last =>
      have hcur := currentMessage_append (msg :: before) last
      have hb := h.before
      rw [← List.cons_append] at hb
      have hmem : msg ∈ (currentMessage (msg :: before ++ [last])).1 := by
        rw [hcur]
        split <;> simp
      rw [hb msg hmem] at hmsg
      contradiction

/-- The buffer stands behind the messages that were processed. -/
def InBuffer (net : Protocol) (stream : List UInt8) (handled : List Message)
    (vRecvMsg : List CNetMessage) : Prop :=
  ∃ processed : List CNetMessage, Connection.Follows ⟨vRecvMsg,processed,false⟩ stream ∧
    net.Native (processed.map CNetMessage.frame) ∧
    net.messages (processed.map CNetMessage.frame) = handled

namespace InBuffer
variable {net : Protocol} {stream : List UInt8} {handled : List Message}
  {vRecvMsg : List CNetMessage}

theorem receiving (h : InBuffer net stream handled vRecvMsg) : Receiving vRecvMsg := by
  obtain ⟨processed,hf,-⟩ := h
  exact hf.receiving rfl

theorem parse_eq (h : InBuffer net stream handled vRecvMsg) : ∃ frames, net.Native frames ∧
    net.messages frames = handled ∧ parseStream stream =
      ⟨frames ++ (vRecvMsg.filter CNetMessage.complete).map CNetMessage.frame,true⟩ := by
  obtain ⟨processed,hf,hnative,hhandled⟩ := h
  refine ⟨_,hnative,hhandled,?_⟩
  rw [hf.parse_eq]
  simp [Connection.messages]

theorem handled_prefix (h : InBuffer net stream handled vRecvMsg) :
    handled <+: net.messages (parseStream stream).messages := by
  obtain ⟨frames,hnative,rfl,hparse⟩ := h.parse_eq
  rw [hparse,hnative.messages_append]
  exact List.prefix_append ..

theorem handled_eq (h : InBuffer net stream handled vRecvMsg)
    (hhead : ∀ msg ∈ vRecvMsg.head?, msg.complete = false) :
    handled = net.messages (parseStream stream).messages ∧
      net.Native (parseStream stream).messages := by
  obtain ⟨frames,hnative,rfl,hparse⟩ := h.parse_eq
  rw [h.receiving.filter_eq_nil hhead,List.map_nil,List.append_nil] at hparse
  rw [hparse]
  exact ⟨rfl,hnative⟩

variable {msg : CNetMessage} {rest : List CNetMessage}

theorem head_mem (h : InBuffer net stream handled (msg :: rest)) (hc : msg.complete = true) :
    msg.frame ∈ (parseStream stream).messages := by
  obtain ⟨frames,-,-,hparse⟩ := h.parse_eq
  rw [hparse]
  simp [hc]

/-- The first message is taken out. -/
theorem tail (h : InBuffer net stream handled (msg :: rest)) (hc : msg.complete = true)
    (hn : net.native msg.frame = true) :
    InBuffer net stream
      (handled ++ if net.intact msg.frame then [msg.frame.message] else []) rest := by
  obtain ⟨processed,hf,hnative,rfl⟩ := h
  obtain ⟨c,hstep,hc'⟩ := hf.processed 0
  simp only [Connection.step,hc,if_true,Option.some.injEq] at hstep
  subst hstep
  refine ⟨_,hc',?_,?_⟩
  · simp only [List.map_append,List.map_cons,List.map_nil]
    exact List.forall_mem_append.mpr ⟨hnative,List.forall_mem_singleton.mpr hn⟩
  · simp only [List.map_append,List.map_cons,List.map_nil]
    rw [hnative.messages_append,Protocol.messages_singleton hn]

end InBuffer

theorem Protocol.takeMessage_native {net : Protocol} {msg : CNetMessage}
    (hc : msg.complete = true) (hn : net.native msg.frame = true)
    (hsize : msg.vRecv.length = msg.hdr.payloadSize) (rest : List CNetMessage) :
    net.takeMessage false (msg :: rest) =
      if net.intact msg.frame then .process msg.frame.message rest
      else net.takeMessage false rest := by
  have htake : msg.vRecv.take msg.hdr.nMessageSize.toNat = msg.vRecv :=
    List.take_of_length_le hsize.le
  have hstart : msg.hdr.pchMessageStart = net.pchMessageStart.toList := of_decide_eq_true hn
  rw [takeMessage]
  simp only [Bool.false_eq_true,if_false,hc,Bool.not_true,hstart,ne_eq,not_true_eq_false,htake]
  by_cases hvalid : msg.hdr.isValid net.pchMessageStart.toList = true
  · by_cases hsum : (net.hash msg.vRecv).setWidth 32 = msg.hdr.nChecksum
    · simp [intact,CNetMessage.frame,Frame.message,hvalid,hsum]
    · simp [intact,CNetMessage.frame,hvalid,hsum]
  · simp [intact,CNetMessage.frame,hvalid]

/-- A call stops and leaves what is to come, or meets a message of another network, or takes the
next message that is to be processed. -/
theorem InBuffer.takeMessage {net : Protocol} {stream : List UInt8} {handled : List Message}
    {vRecvMsg : List CNetMessage} (h : InBuffer net stream handled vRecvMsg) (full : Bool) :
    (∃ rest, net.takeMessage full vRecvMsg = .stopped rest ∧ InBuffer net stream handled rest) ∨
    (∃ rest, net.takeMessage full vRecvMsg = .invalidStart rest ∧
      ¬net.Native (parseStream stream).messages) ∨
    ∃ msg rest, net.takeMessage full vRecvMsg = .process msg rest ∧
      InBuffer net stream (handled ++ [msg]) rest := by
  cases full with
  | true =>
    refine .inl ⟨vRecvMsg,?_,h⟩
    cases vRecvMsg <;> rfl
  | false =>
    induction vRecvMsg with
    | nil => exact .inl ⟨[],rfl,h⟩
    | cons msg rest ih =>
      by_cases hc : msg.complete = true
      · have hmem := h.head_mem hc
        by_cases hn : net.native msg.frame = true
        · have htail := h.tail hc hn
          rw [Protocol.takeMessage_native hc hn (parseStream_payload hmem)]
          by_cases hi : net.intact msg.frame = true
          · rw [if_pos hi] at htail ⊢
            exact .inr (.inr ⟨_,_,rfl,htail⟩)
          · rw [if_neg hi,List.append_nil] at htail
            rw [if_neg hi]
            exact ih htail
        · refine .inr (.inl ⟨rest,?_,fun hall => hn (hall _ hmem)⟩)
          have hstart : msg.hdr.pchMessageStart ≠ net.pchMessageStart.toList := fun heq =>
            hn (decide_eq_true heq)
          simp [Protocol.takeMessage,hc,hstart]
      · refine .inl ⟨msg :: rest,?_,h⟩
        simp [Protocol.takeMessage,hc]

section Queue
variable {q q' : SendQueue} {rest rest' : List CSerializeData}

/-- No failure of the socket closes it. -/
def Socket.Lasting (socket : Socket) : Prop :=
  ∀ i bytes nErr, socket.send i bytes = .failed nErr → SendQueue.closes nErr = false

/-- What was taken stays taken, and a socket that lasts stays open. -/
theorem SendQueue.sendLoop_frame {socket : Socket} {nTime : Int} {i : Nat}
    (h : q.sendLoop socket nTime i rest = some (q',rest')) :
    q.taken <+: q'.taken ∧ (socket.Lasting → q'.fDisconnect = q.fDisconnect) := by
  induction rest generalizing q i with
  | nil =>
    obtain ⟨rfl,-⟩ := Prod.mk.inj (Option.some.inj h)
    exact ⟨List.prefix_rfl,fun _ => rfl⟩
  | cons data rest ih =>
    unfold SendQueue.sendLoop at h
    simp only at h
    split at h
    · split at h
      · split at h
        · split at h
          · obtain ⟨htaken,hopen⟩ := ih h
            exact ⟨(List.prefix_append ..).trans htaken,hopen⟩
          · obtain ⟨rfl,-⟩ := Prod.mk.inj (Option.some.inj h)
            exact ⟨List.prefix_append ..,fun _ => rfl⟩
        · obtain ⟨rfl,-⟩ := Prod.mk.inj (Option.some.inj h)
          exact ⟨List.prefix_rfl,fun _ => rfl⟩
      · rename_i nErr hfail
        obtain ⟨rfl,-⟩ := Prod.mk.inj (Option.some.inj h)
        exact ⟨List.prefix_rfl,fun hlast => by simp [hlast _ _ _ hfail]⟩
    · contradiction

theorem SendQueue.socketSendData_frame {socket : Socket} {nTime : Int}
    (h : q.socketSendData socket nTime = some q') :
    q.taken <+: q'.taken ∧ (socket.Lasting → q'.fDisconnect = q.fDisconnect) := by
  unfold SendQueue.socketSendData at h
  cases hloop : q.sendLoop socket nTime 0 q.vSendMsg with
  | none => simp [hloop] at h
  | some r =>
    obtain ⟨q₁,left⟩ := r
    have hframe := sendLoop_frame hloop
    simp only [hloop,Option.bind_eq_bind,Option.bind_some] at h
    split at h
    · contradiction
    · obtain rfl := Option.some.inj h
      exact hframe

theorem SendQueue.endMessage_frame {hash : List UInt8 → Uint256} {socket : Socket} {nTime : Int}
    {ssSend : CSerializeData} (h : q.endMessage hash socket nTime ssSend = some q') :
    q.taken <+: q'.taken ∧ (socket.Lasting → q'.fDisconnect = q.fDisconnect) := by
  unfold SendQueue.endMessage at h
  split at h
  · obtain rfl := Option.some.inj h
    exact ⟨List.prefix_rfl,fun _ => rfl⟩
  · cases hset : setSizeAndChecksum hash ssSend with
    | none => simp [hset] at h
    | some data =>
      simp only [hset,Option.bind_eq_bind,Option.bind_some] at h
      split at h
      · have hframe := socketSendData_frame h
        exact ⟨hframe.1,hframe.2⟩
      · obtain rfl := Option.some.inj h
        exact ⟨List.prefix_rfl,fun _ => rfl⟩

end Queue

/-- The bytes of a message on their way. -/
def Protocol.wire (net : Protocol) (m : Outgoing) : List UInt8 :=
  (setSizeAndChecksum net.hash
    (beginMessage net.pchMessageStart m.strCommand ++ m.payload.bytes)).getD []

namespace Peer

/-- The message that an action puts into the queue. -/
def Action.pushed : Action → Option Outgoing
  | .pushMessage msg _ _ => some msg
  | _ => none

/-- The queue stands behind the messages that were sent; the buffer stands behind those that
were processed, until the connection is to be disconnected. -/
structure Sound (net : Protocol) (sent : List Outgoing) (p : Peer) : Prop where
  queue : Streams (sent.flatMap net.wire) p.queue p.queue.vSendMsg
  buffer : Receiving p.vRecvMsg
  handled : p.handled <+: net.messages (parseStream p.received).messages
  kept : p.fDisconnect = false → p.hSocket = true ∧ InBuffer net p.received p.handled p.vRecvMsg

variable {net : Protocol} {sendBufferSize : Uint64} {sent : List Outgoing} {p p' : Peer}

theorem new_sound : Sound net [] new := by
  refine ⟨?_,Receiving.nil,List.nil_prefix,fun _ => ⟨rfl,[],Connection.Follows.opened,?_,rfl⟩⟩
  · exact ⟨by simp [new,SendQueue.new],rfl,by simp [new,SendQueue.new],fun _ => rfl,rfl⟩
  · simp [Protocol.Native]

theorem Sound.closed (h : Sound net sent p) : Sound net sent p.closeSocketDisconnect :=
  ⟨h.queue,Receiving.nil,h.handled,fun hopen => by simp [closeSocketDisconnect] at hopen⟩

theorem Sound.writes {sent' : List Outgoing} {queue : SendQueue} (h : Sound net sent p)
    (hq : Streams (sent'.flatMap net.wire) queue queue.vSendMsg) :
    Sound net sent' (p.sent queue) := by
  have hkeep : Sound net sent' { p with queue := queue } := ⟨hq,h.buffer,h.handled,h.kept⟩
  unfold Peer.sent
  split
  · exact hkeep.closed
  · exact hkeep

theorem Sound.processMessages (h : Sound net sent p) (hopen : p.fDisconnect = false)
    (fGetData : Bool) (handling : Handling) :
    Sound net sent (p.processMessages net sendBufferSize fGetData handling) := by
  obtain ⟨hsocket,hkept⟩ := h.kept hopen
  unfold Peer.processMessages
  cases fGetData with
  | true => exact h
  | false =>
    simp only [Bool.false_eq_true,if_false]
    obtain ⟨rest,htake,hrest⟩ | ⟨rest,htake,-⟩ | ⟨msg,rest,htake,hrest⟩ :=
      hkept.takeMessage (decide (sendBufferSize ≤ p.queue.nSendSize))
    · rw [htake]
      exact ⟨h.queue,hrest.receiving,h.handled,fun _ => ⟨hsocket,hrest⟩⟩
    · rw [htake]
      exact ⟨h.queue,Receiving.nil,h.handled,fun hopen => by simp [closeSocketDisconnect] at hopen⟩
    · rw [htake]
      have hhandled := hrest.handled_prefix
      cases handling with
      | goesOn => exact ⟨h.queue,hrest.receiving,hhandled,fun _ => ⟨hsocket,hrest⟩⟩
      | disconnects => exact ⟨h.queue,h.buffer,hhandled,fun hopen => by simp at hopen⟩
      | closes =>
        exact ⟨h.queue,Receiving.nil,hhandled,fun hopen => by simp [closeSocketDisconnect] at hopen⟩

theorem Sound.act (h : Sound net sent p) (a : Action) :
    ∃ p', p.act net sendBufferSize a = some p' ∧ Sound net (sent ++ a.pushed.toList) p' := by
  cases a with
  | pushMessage msg socket nTime =>
    obtain ⟨queue,hstep,hq⟩ := step_spec net.pchMessageStart net.hash h.queue
      (.pushMessage msg.strCommand msg.payload (p.socket socket) nTime)
    refine ⟨p.sent queue,by rw [Peer.act,hstep]; rfl,h.writes ?_⟩
    rw [List.flatMap_append]
    simpa [Action.pushed,Protocol.wire,SendEvent.message] using hq
  | socketSendData socket nTime =>
    simp only [Peer.act,Action.pushed,Option.toList_none,List.append_nil]
    split
    · obtain ⟨queue,hstep,hq⟩ := step_spec net.pchMessageStart net.hash h.queue
        (.socketSendData socket nTime)
      refine ⟨p.sent queue,by rw [hstep]; rfl,h.writes ?_⟩
      simpa [SendEvent.message] using hq
    · exact ⟨p,rfl,h⟩
  | processMessages fGetData handling =>
    simp only [Peer.act,Action.pushed,Option.toList_none,List.append_nil]
    cases hopen : p.fDisconnect with
    | true => exact ⟨p,rfl,h⟩
    | false => exact ⟨_,rfl,h.processMessages hopen fGetData handling⟩
  | close =>
    refine ⟨_,rfl,?_⟩
    simpa [Action.pushed] using h.closed

/-- A chunk that is refused belongs to a stream that is refused whatever follows. -/
theorem Sound.receive (h : Sound net sent p) (chunk : Chunk) :
    ∃ p', p.receive chunk = some p' ∧ Sound net sent p' := by
  unfold Peer.receive
  cases hsocket : p.hSocket with
  | false => exact ⟨p,rfl,h⟩
  | true =>
    have hmono : net.messages (parseStream p.received).messages <+:
        net.messages (parseStream (p.received ++ chunk.bytes)).messages :=
      Protocol.messages_mono (parseStream_mono _ _)
    simp only [if_true]
    obtain ⟨after,left,heq,-⟩ | ⟨after,heq,hrecv,hresume⟩ :=
      receiveMsgBytes_spec h.buffer chunk.toNat_nBytes.symm chunk.toNat_nBytes.le
    · rw [heq]
      exact ⟨_,rfl,h.queue,Receiving.nil,h.handled.trans hmono,
        fun hopen => by simp [closeSocketDisconnect] at hopen⟩
    · rw [heq]
      simp only [if_true]
      refine ⟨_,rfl,h.queue,hrecv,h.handled.trans hmono,fun hopen => ⟨rfl,?_⟩⟩
      obtain ⟨-,processed,hf,hrest⟩ := h.kept hopen
      refine ⟨processed,⟨fun _ => hrecv,fun _ rest => ?_,fun hr => by contradiction⟩,hrest⟩
      rw [List.append_assoc,hf.resumes rfl,hresume rest]

/-- An action that does not close the connection by itself. -/
def Action.Peaceful : Action → Prop
  | .pushMessage _ socket _ => socket.Lasting
  | .socketSendData socket _ => socket.Lasting
  | .processMessages _ handling => handling = .goesOn
  | .close => False

/-- The connection is up, and the socket could always be written to. -/
def Up (p : Peer) : Prop := p.fDisconnect = false ∧ p.queue.fDisconnect = false

theorem Up.writes (h : p.Up) {queue : SendQueue} (hq : queue.fDisconnect = false) :
    (p.sent queue).Up := by
  unfold Peer.sent
  rw [hq]
  exact ⟨h.1,hq⟩

theorem received_sent (queue : SendQueue) :
    (p.sent queue).received = p.received ∧ (p.sent queue).queue = queue := by
  unfold Peer.sent
  split <;> exact ⟨rfl,rfl⟩

/-- An action reads nothing and takes back nothing. -/
theorem act_frame {a : Action} (h : p.act net sendBufferSize a = some p') :
    p'.received = p.received ∧ p.queue.taken <+: p'.queue.taken := by
  cases a with
  | pushMessage msg socket nTime =>
    obtain ⟨queue,hstep,rfl⟩ := Option.map_eq_some_iff.mp h
    rw [(received_sent queue).1,(received_sent queue).2]
    exact ⟨rfl,(SendQueue.endMessage_frame hstep).1⟩
  | socketSendData socket nTime =>
    rw [Peer.act] at h
    split at h
    · obtain ⟨queue,hstep,rfl⟩ := Option.map_eq_some_iff.mp h
      rw [(received_sent queue).1,(received_sent queue).2]
      exact ⟨rfl,(SendQueue.socketSendData_frame hstep).1⟩
    · obtain rfl := Option.some.inj h
      exact ⟨rfl,List.prefix_rfl⟩
  | processMessages fGetData handling =>
    rw [Peer.act] at h
    unfold Peer.processMessages at h
    split at h
    · obtain rfl := Option.some.inj h
      exact ⟨rfl,List.prefix_rfl⟩
    · obtain rfl := Option.some.inj h
      split
      · exact ⟨rfl,List.prefix_rfl⟩
      · split
        · exact ⟨rfl,List.prefix_rfl⟩
        · exact ⟨rfl,List.prefix_rfl⟩
        · cases handling <;> exact ⟨rfl,List.prefix_rfl⟩
  | close =>
    obtain rfl := Option.some.inj h
    exact ⟨rfl,List.prefix_rfl⟩

theorem receive_frame {chunk : Chunk} (h : p.receive chunk = some p') : p'.queue = p.queue ∧
    (p'.received = p.received ∨ p'.received = p.received ++ chunk.bytes) := by
  unfold Peer.receive at h
  split at h
  · split at h
    · obtain rfl := Option.some.inj h
      split <;> exact ⟨rfl,.inr rfl⟩
    · contradiction
  · obtain rfl := Option.some.inj h
    exact ⟨rfl,.inl rfl⟩

/-- A node that received messages of its network only stays connected. -/
theorem Sound.act_up (h : Sound net sent p) (hup : p.Up) {a : Action} (ha : a.Peaceful)
    (hnative : net.Native (parseStream p.received).messages)
    (hact : p.act net sendBufferSize a = some p') : p'.Up := by
  obtain ⟨hsocket,hkept⟩ := h.kept hup.1
  cases a with
  | pushMessage msg socket nTime =>
    obtain ⟨queue,hstep,rfl⟩ := Option.map_eq_some_iff.mp hact
    rw [Peer.socket,if_pos hsocket] at hstep
    exact hup.writes (((SendQueue.endMessage_frame hstep).2 ha).trans hup.2)
  | socketSendData socket nTime =>
    rw [Peer.act,if_pos hsocket] at hact
    obtain ⟨queue,hstep,rfl⟩ := Option.map_eq_some_iff.mp hact
    exact hup.writes (((SendQueue.socketSendData_frame hstep).2 ha).trans hup.2)
  | processMessages fGetData handling =>
    obtain rfl : handling = .goesOn := ha
    simp only [Peer.act,hup.1,Bool.false_eq_true,if_false,Option.some.injEq] at hact
    subst hact
    unfold Peer.processMessages
    split
    · exact hup
    · obtain ⟨rest,htake,-⟩ | ⟨rest,-,hforeign⟩ | ⟨msg,rest,htake,-⟩ :=
        hkept.takeMessage (decide (sendBufferSize ≤ p.queue.nSendSize))
      · rw [htake]
        exact hup
      · exact absurd hnative hforeign
      · rw [htake]
        exact hup
  | close => exact absurd ha id

/-- A chunk of a stream that is accepted as it goes on does not close the connection. -/
theorem Sound.receive_up (h : Sound net sent p) (hup : p.Up) {chunk : Chunk} {rest : List UInt8}
    (hok : (parseStream (p.received ++ chunk.bytes ++ rest)).accepted = true)
    (hreceive : p.receive chunk = some p') : p'.Up := by
  obtain ⟨hsocket,processed,hf,-⟩ := h.kept hup.1
  unfold Peer.receive at hreceive
  rw [if_pos hsocket] at hreceive
  obtain ⟨after,left,heq,hresume⟩ | ⟨after,heq,-⟩ :=
    receiveMsgBytes_spec h.buffer chunk.toNat_nBytes.symm chunk.toNat_nBytes.le
  · rw [List.append_assoc,hf.resumes rfl,hresume rest] at hok
    contradiction
  · rw [heq] at hreceive
    obtain rfl := Option.some.inj hreceive
    exact hup

theorem Sound.step (h : Sound net sent p) (e : Event) :
    ∃ p', p.step net sendBufferSize e = some p' ∧ ∃ sent', Sound net sent' p' := by
  cases e with
  | act a =>
    obtain ⟨p',hact,h'⟩ := @Sound.act net sendBufferSize sent p h a
    exact ⟨p',hact,_,h'⟩
  | receive chunk =>
    obtain ⟨p',hreceive,h'⟩ := h.receive chunk
    exact ⟨p',hreceive,_,h'⟩

/-- Whatever bytes come in, in whatever chunks, and whenever the node sends and processes: no
assertion fails, no buffer is overrun, and `ProcessMessage` is called with the messages of the
stream that are valid, in their order, up to the first one of another network. None of them
is left out while the connection is up and there is nothing to take from the buffer. -/
theorem handled_of_stream (net : Protocol) (sendBufferSize : Uint64) (events : List Event) :
    ∃ p, new.run net sendBufferSize events = some p ∧
      p.handled <+: net.messages (parseStream p.received).messages ∧
      (p.fDisconnect = false → (∀ msg ∈ p.vRecvMsg.head?, msg.complete = false) →
        p.handled = net.messages (parseStream p.received).messages ∧
        (parseStream p.received).accepted = true ∧
        ∀ f ∈ (parseStream p.received).messages,
          f.hdr.pchMessageStart = net.pchMessageStart.toList) := by
  obtain ⟨p,hrun,sent,h⟩ := @foldlM_invariant _ _ new (step net sendBufferSize)
    (fun p => ∃ sent, Sound net sent p) events ⟨[],new_sound⟩ fun p ⟨sent,h⟩ e _ => h.step e
  refine ⟨p,hrun,h.handled,fun hopen hhead => ?_⟩
  obtain ⟨-,hkept⟩ := h.kept hopen
  obtain ⟨hhandled,hnative⟩ := hkept.handled_eq hhead
  obtain ⟨frames,-,-,hparse⟩ := hkept.parse_eq
  refine ⟨hhandled,by rw [hparse],fun f hf => of_decide_eq_true (hnative f hf)⟩

end Peer

end Anoncoin
