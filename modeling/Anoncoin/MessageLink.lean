import Anoncoin.ProcessMessages

/-!
Two nodes and the sockets between them: each reads what the other one's socket has taken.
-/

set_option autoImplicit false

namespace Anoncoin
open Lib

section Wire
variable (net : Protocol)

theorem memcpy_between {before old after pch : List UInt8} (h : old.length = pch.length) :
    memcpy (before ++ (old ++ after)) before.length pch pch.length =
      some (before ++ (pch ++ after)) := by
  unfold memcpy
  rw [if_pos ⟨by simp; omega,le_rfl⟩,List.take_left,List.take_length,List.drop_append,
    List.drop_eq_nil_of_le (by omega),List.nil_append,Nat.add_sub_cancel_left,List.drop_left' h]

/-- The header that `EndMessage` completes. -/
def Protocol.header (m : Outgoing) : List UInt8 :=
  net.pchMessageStart.toList ++ (resize m.strCommand 12 ++
    (littleEndian 4 m.vRecv.length ++ littleEndian 4 ((net.hash m.vRecv).setWidth 32).toNat))

variable {net} {m : Outgoing}

theorem Protocol.header_length : (net.header m).length = 24 := by
  simp [header,length_resize]

theorem Outgoing.toNat_size (m : Outgoing) :
    (BitVec.ofNat 32 m.vRecv.length : Uint32).toNat = m.vRecv.length := by
  have h := m.size
  unfold MAX_PROTOCOL_MESSAGE_LENGTH at h
  rw [BitVec.toNat_ofNat,Nat.mod_eq_of_lt (by omega)]

theorem Protocol.wire_eq : net.wire m = net.header m ++ m.vRecv := by
  have hstart : (net.pchMessageStart.toList ++ resize m.strCommand 12).length = 16 := by
    simp [length_resize]
  have hmid : (net.pchMessageStart.toList ++ resize m.strCommand 12 ++
      littleEndian 4 m.vRecv.length).length = 20 := by
    simp [length_resize]
  have hlen : (beginMessage net.pchMessageStart m.strCommand ++ m.payload.bytes).length-24 =
      m.vRecv.length := by
    simp only [beginMessage,Outgoing.payload,List.length_append,Vector.length_toList,length_resize,
      littleEndian_length]
    omega
  have hbegin : beginMessage net.pchMessageStart m.strCommand ++ m.payload.bytes =
      net.pchMessageStart.toList ++ resize m.strCommand 12 ++
        (littleEndian 4 0 ++ (littleEndian 4 0 ++ m.vRecv)) := by
    simp [beginMessage,Outgoing.payload]
  have hsize := @memcpy_between (net.pchMessageStart.toList ++ resize m.strCommand 12)
    (littleEndian 4 0) (littleEndian 4 0 ++ m.vRecv) (littleEndian 4 m.vRecv.length) (by simp)
  have hsum := @memcpy_between (net.pchMessageStart.toList ++ resize m.strCommand 12 ++
    littleEndian 4 m.vRecv.length) (littleEndian 4 0) m.vRecv
    (littleEndian 4 ((net.hash m.vRecv).setWidth 32).toNat) (by simp)
  rw [hstart,littleEndian_length,← List.append_assoc _ (littleEndian 4 m.vRecv.length)] at hsize
  rw [hmid,littleEndian_length] at hsum
  have hdrop : (net.pchMessageStart.toList ++ resize m.strCommand 12 ++
      littleEndian 4 m.vRecv.length ++ (littleEndian 4 0 ++ m.vRecv)).drop 24 = m.vRecv := by
    rw [← List.append_assoc]
    exact List.drop_left' (by simp [length_resize])
  unfold wire setSizeAndChecksum
  rw [hbegin] at hlen ⊢
  simp only [hlen,m.toNat_size,hsize,Option.bind_eq_bind,Option.bind_some]
  rw [hdrop,hsum,if_pos (by simp [length_resize]; omega)]
  simp [header]

/-- What the other side reads of the header. -/
theorem Protocol.ofBytes_header : CMessageHeader.ofBytes (net.header m) =
    ⟨net.pchMessageStart.toList,resize m.strCommand 12,BitVec.ofNat 32 m.vRecv.length,
      (net.hash m.vRecv).setWidth 32⟩ := by
  have hlt : m.vRecv.length < 256^4 :=
    m.toNat_size ▸ (BitVec.ofNat 32 m.vRecv.length : Uint32).isLt
  have hsum : ((net.hash m.vRecv).setWidth 32 : Uint32).toNat < 256^4 :=
    ((net.hash m.vRecv).setWidth 32 : Uint32).isLt
  have hstart : net.pchMessageStart.toList.length = 4 := by simp
  have hcommand : (resize m.strCommand 12).length = 12 := length_resize ..
  unfold CMessageHeader.ofBytes
  have hdrop4 : (net.header m).drop 4 = resize m.strCommand 12 ++ (littleEndian 4 m.vRecv.length ++
      littleEndian 4 ((net.hash m.vRecv).setWidth 32 : Uint32).toNat) := List.drop_left' hstart
  have hdrop16 : (net.header m).drop 16 = littleEndian 4 m.vRecv.length ++
      littleEndian 4 ((net.hash m.vRecv).setWidth 32 : Uint32).toNat := by
    rw [show 16 = 4+12 from rfl,← List.drop_drop,hdrop4,List.drop_left' hcommand]
  have hdrop20 : (net.header m).drop 20 =
      littleEndian 4 ((net.hash m.vRecv).setWidth 32 : Uint32).toNat := by
    rw [show 20 = 16+4 from rfl,← List.drop_drop,hdrop16,List.drop_left' (littleEndian_length ..)]
  have htake : (net.header m).take 4 = net.pchMessageStart.toList := List.take_left' hstart
  rw [hdrop4,hdrop16,hdrop20,htake,List.take_left' hcommand,
    List.take_left' (littleEndian_length 4 _),List.take_of_length_le (littleEndian_length 4 _).le,
    fromLittleEndian_littleEndian hlt,fromLittleEndian_littleEndian hsum,BitVec.ofNat_toNat,
    BitVec.setWidth_eq]

def Outgoing.frame (net : Protocol) (m : Outgoing) : Frame :=
  ⟨CMessageHeader.ofBytes (net.header m),m.vRecv⟩

theorem printable_ne_zero {p : UInt8} (h : ¬(p < 0x20 ∨ p > 0x7E)) : p ≠ 0 := by
  rintro rfl
  exact h (.inl (by decide))

theorem validCommand_zeros {command : List UInt8} (h : ∀ p ∈ command, p = 0) :
    validCommand command = true := by
  induction command with
  | nil => rfl
  | cons p command ih =>
    have hp := h p List.mem_cons_self
    simp only [validCommand,hp,if_true,List.all_eq_true,beq_iff_eq]
    exact fun q hq => h q (List.mem_cons_of_mem _ hq)

theorem validCommand_append {command zeros : List UInt8}
    (h : ∀ p ∈ command, ¬(p < 0x20 ∨ p > 0x7E)) (hz : ∀ p ∈ zeros, p = 0) :
    validCommand (command ++ zeros) = true := by
  induction command with
  | nil => exact validCommand_zeros hz
  | cons p command ih =>
    have hp := h p List.mem_cons_self
    rw [List.cons_append,validCommand,if_neg (printable_ne_zero hp),if_neg hp]
    exact ih fun q hq => h q (List.mem_cons_of_mem _ hq)

theorem Outgoing.resize_eq (m : Outgoing) : resize m.strCommand 12 =
    m.strCommand ++ List.replicate (12-m.strCommand.length) 0 := by
  rw [resize,List.take_of_length_le m.short]

theorem Outgoing.getCommand (m : Outgoing) : (m.frame net).hdr.getCommand = m.strCommand := by
  unfold Outgoing.frame CMessageHeader.getCommand
  rw [Protocol.ofBytes_header]
  simp only [m.resize_eq]
  split
  · have hne : ∀ p ∈ m.strCommand, decide (p ≠ 0) = true := fun p hp =>
      decide_eq_true (printable_ne_zero (m.printable p hp))
    rw [List.takeWhile_append_of_pos hne]
    cases 12-m.strCommand.length <;> simp [List.replicate_succ]
  · rename_i hlast
    have hfull : 12-m.strCommand.length = 0 := by
      by_contra hpos
      apply hlast
      rw [List.getD_eq_getElem?_getD,List.getElem?_append_right (by omega)]
      rw [List.getElem?_replicate_of_lt (by omega)]
      rfl
    rw [hfull,List.replicate_zero,List.append_nil]

theorem Outgoing.isValid (m : Outgoing) :
    (m.frame net).hdr.isValid net.pchMessageStart.toList = true := by
  have hsize := m.size
  unfold Outgoing.frame CMessageHeader.isValid
  rw [Protocol.ofBytes_header]
  have hcommand := @validCommand_append m.strCommand (List.replicate (12-m.strCommand.length) 0)
    m.printable (fun p hp => List.eq_of_mem_replicate hp)
  rw [← m.resize_eq] at hcommand
  simp only [beq_self_eq_true,Bool.true_and,hcommand,decide_eq_true_eq,m.toNat_size]
  unfold MAX_PROTOCOL_MESSAGE_LENGTH at hsize
  unfold MAX_SIZE
  omega

theorem Outgoing.native (m : Outgoing) : net.native (m.frame net) = true := by
  unfold Protocol.native Outgoing.frame
  rw [Protocol.ofBytes_header]
  exact decide_eq_true rfl

theorem Outgoing.intact (m : Outgoing) : net.intact (m.frame net) = true := by
  unfold Protocol.intact
  rw [m.isValid,Bool.true_and]
  unfold Outgoing.frame
  rw [Protocol.ofBytes_header]
  exact decide_eq_true rfl

/-- The stream of a node comes to its messages. -/
theorem parseStream_wire (sent : List Outgoing) :
    parseStream (sent.flatMap net.wire) = ⟨sent.map (Outgoing.frame net),true⟩ := by
  induction sent with
  | nil => exact parseStream_short (by simp)
  | cons m sent ih =>
    have hpayload : (CMessageHeader.ofBytes (net.header m)).payloadSize = m.vRecv.length := by
      rw [Protocol.ofBytes_header]
      exact m.toNat_size
    rw [List.flatMap_cons,Protocol.wire_eq,List.append_assoc,
      parseStream_message Protocol.header_length (by rw [hpayload]; exact m.size) hpayload.symm,ih]
    rfl

theorem messages_wire (sent : List Outgoing) :
    net.messages (sent.map (Outgoing.frame net)) = sent.map Outgoing.toMessage := by
  have hnative : net.Native (sent.map (Outgoing.frame net)) := by
    intro f hf
    obtain ⟨m,-,rfl⟩ := List.mem_map.mp hf
    exact m.native
  have hintact : ∀ f ∈ sent.map (Outgoing.frame net), net.intact f = true := by
    intro f hf
    obtain ⟨m,-,rfl⟩ := List.mem_map.mp hf
    exact m.intact
  unfold Protocol.messages
  rw [List.takeWhile_eq_self_iff.mpr hnative,List.filter_eq_self.mpr hintact,List.map_map]
  refine List.map_congr_left fun m _ => ?_
  simp only [Function.comp_apply,Frame.message,m.getCommand]
  rfl

end Wire

inductive Side where
  | left
  | right
  deriving DecidableEq, Repr

def Side.other : Side → Side
  | .left => .right
  | .right => .left

/-- Two nodes that are connected. -/
abbrev Link := Side → Peer

namespace Link

/-- A node acts, or it reads at most `nBytes` bytes, which `recv` limits to its buffer. -/
inductive Event where
  | act (side : Side) (a : Peer.Action)
  | receive (side : Side) (nBytes : Nat)

def opened : Link := fun _ => .new

theorem recv_fits (bytes : List UInt8) (nBytes : Nat) :
    (bytes.take (min nBytes 0x10000)).length < 2^32 := by
  rw [List.length_take]
  omega

/-- The next bytes for a node to read, from what the socket of the other node has taken. -/
def nextChunk (l : Link) (side : Side) (nBytes : Nat) : Chunk :=
  ⟨((l side.other).queue.taken.drop (l side).received.length).take (min nBytes 0x10000),
    recv_fits _ nBytes⟩

variable (net : Protocol) (sendBufferSize : Side → Uint64)

def step (l : Link) : Event → Option Link
  | .act side a => ((l side).act net (sendBufferSize side) a).map (Function.update l side)
  | .receive side nBytes =>
    ((l side).receive (l.nextChunk side nBytes)).map (Function.update l side)

def run (l : Link) (events : List Event) : Option Link := events.foldlM (step net sendBufferSize) l

/-- The message that a node puts into its queue. -/
def Event.pushedBy (side : Side) : Event → Option Outgoing
  | .act s a => if s = side then a.pushed else none
  | .receive _ _ => none

/-- The messages that a node sends in a run. -/
def sentBy (side : Side) (events : List Event) : List Outgoing :=
  events.filterMap (Event.pushedBy side)

/-- Each node reads what the other one's socket has taken. -/
structure Sound (sent : Side → List Outgoing) (l : Link) : Prop where
  peers : ∀ side, (l side).Sound net (sent side)
  reads : ∀ side, (l side).received <+: (l side.other).queue.taken

variable {net} {sendBufferSize} {sent : Side → List Outgoing} {l l' : Link}

theorem opened_sound : Sound net (fun _ => []) opened :=
  ⟨fun _ => Peer.new_sound,fun _ => List.prefix_rfl⟩

/-- What a node has read is the start of what the other one sent. -/
theorem Sound.stream (h : Sound net sent l) (side : Side) :
    (l side).received <+: (sent side.other).flatMap net.wire :=
  (h.reads side).trans ⟨_,(h.peers side.other).queue.stream⟩

/-- All that a node hears is of its own network. -/
theorem Sound.heard (h : Sound net sent l) (side : Side) :
    (parseStream (l side).received).messages <+: (sent side.other).map (Outgoing.frame net) := by
  obtain ⟨rest,hrest⟩ := h.stream side
  have hprefix := parseStream_mono (l side).received rest
  rwa [hrest,parseStream_wire] at hprefix

theorem Sound.native (h : Sound net sent l) (side : Side) :
    net.Native (parseStream (l side).received).messages := by
  intro f hf
  obtain ⟨m,-,rfl⟩ := List.mem_map.mp ((h.heard side).subset hf)
  exact m.native

/-- Each node has processed the first of the messages of the other one. -/
theorem Sound.delivered (h : Sound net sent l) (side : Side) :
    (l side).handled <+: (sent side.other).map Outgoing.toMessage := by
  have hheard := @Protocol.messages_mono net _ _ (h.heard side)
  rw [messages_wire] at hheard
  exact (h.peers side).handled.trans hheard

/-- Nothing is on its way to a node: the queue of the other one is empty, all bytes were read, and
there is nothing to take from the buffer. -/
def Drained (l : Link) (side : Side) : Prop :=
  (l side.other).queue.vSendMsg = [] ∧
    (l side).received.length = (l side.other).queue.taken.length ∧
    ∀ msg ∈ (l side).vRecvMsg.head?, msg.complete = false

theorem Sound.delivered_all (h : Sound net sent l) {side : Side}
    (hopen : (l side).fDisconnect = false) (hdrained : l.Drained side) :
    (l side).handled = (sent side.other).map Outgoing.toMessage := by
  obtain ⟨hqueue,hlen,hhead⟩ := hdrained
  have hstream := (h.peers side.other).queue.stream
  rw [hqueue,List.flatten_nil,List.drop_nil,List.append_nil] at hstream
  have hread : (l side).received = (sent side.other).flatMap net.wire :=
    ((h.reads side).eq_of_length hlen).trans hstream
  rw [((((h.peers side).kept hopen).2).handled_eq hhead).1,hread,parseStream_wire,messages_wire]

section Steps
variable {side : Side} {p : Peer}

/-- One node changes: what it has read and what it has sent goes on. -/
theorem Sound.update {sent' : Side → List Outgoing} (h : Sound net sent l)
    (hp : p.Sound net (sent' side)) (hsent : sent' side.other = sent side.other)
    (hreads : p.received <+: (l side.other).queue.taken)
    (htaken : (l side).queue.taken <+: p.queue.taken) :
    Sound net sent' (Function.update l side p) := by
  have hreads' := h.reads side.other
  have hpeer := h.peers side.other
  rw [← hsent] at hpeer
  constructor
  · intro s
    cases side <;> cases s <;> first | simpa using hp | simpa [Side.other] using hpeer
  · intro s
    cases side <;> cases s <;>
      first
      | simpa [Side.other] using hreads
      | simpa [Side.other] using hreads'.trans htaken

theorem nextChunk_reads (h : (l side).received <+: (l side.other).queue.taken) (nBytes : Nat) :
    (l side).received ++ (l.nextChunk side nBytes).bytes <+: (l side.other).queue.taken := by
  obtain ⟨rest,hrest⟩ := h
  have hbytes : (l.nextChunk side nBytes).bytes = rest.take (min nBytes 0x10000) := by
    simp only [nextChunk,← hrest,List.drop_left]
  rw [hbytes,← hrest,List.prefix_append_right_inj]
  exact List.take_prefix ..

/-- What the nodes have sent after an event. -/
def Event.extend (sent : Side → List Outgoing) (e : Event) (side : Side) : List Outgoing :=
  sent side ++ (e.pushedBy side).toList

theorem Sound.step (h : Sound net sent l) (e : Event) :
    ∃ l', l.step net sendBufferSize e = some l' ∧ Sound net (e.extend sent) l' := by
  cases e with
  | act side a =>
    obtain ⟨p,hact,hp⟩ := @Peer.Sound.act net (sendBufferSize side) _ _ (h.peers side) a
    obtain ⟨hreceived,htaken⟩ := Peer.act_frame hact
    refine ⟨Function.update l side p,by rw [Link.step,hact]; rfl,h.update ?_ ?_ ?_ htaken⟩
    · simpa [Event.extend,Event.pushedBy] using hp
    · cases side <;> simp [Event.extend,Event.pushedBy,Side.other]
    · rw [hreceived]
      exact h.reads side
  | receive side nBytes =>
    have hsame : Event.extend sent (.receive side nBytes) = sent := by
      funext s
      simp [Event.extend,Event.pushedBy]
    obtain ⟨p,hreceive,hp⟩ := (h.peers side).receive (l.nextChunk side nBytes)
    obtain ⟨hqueue,hreceived⟩ := Peer.receive_frame hreceive
    rw [hsame]
    refine ⟨Function.update l side p,by rw [Link.step,hreceive]; rfl,h.update hp rfl ?_ ?_⟩
    · obtain heq | heq := hreceived
      · rw [heq]
        exact h.reads side
      · rw [heq]
        exact nextChunk_reads (h.reads side) nBytes
    · rw [hqueue]

theorem Sound.run (h : Sound net sent l) (events : List Event) :
    ∃ l', l.run net sendBufferSize events = some l' ∧
      Sound net (fun side => sent side ++ sentBy side events) l' := by
  induction events generalizing sent l with
  | nil => exact ⟨l,rfl,by simpa [sentBy] using h⟩
  | cons e events ih =>
    obtain ⟨l₁,hstep,h₁⟩ := @Sound.step net sendBufferSize sent l h e
    obtain ⟨l₂,hrun,h₂⟩ := ih h₁
    refine ⟨l₂,?_,?_⟩
    · rw [Link.run,List.foldlM_cons,hstep]
      exact hrun
    · have hsent : (fun side => e.extend sent side ++ sentBy side events) =
          fun side => sent side ++ sentBy side (e :: events) := by
        funext side
        cases hpushed : e.pushedBy side <;> simp [Event.extend,sentBy,hpushed]
      rwa [hsent] at h₂

/-- However the nodes send, read and process, and whatever their sockets take: no assertion fails,
no buffer is overrun, and each node processes the messages of the other one in their order, none
of them twice and none with another content. None is left out where nothing is on its way. -/
theorem delivers (net : Protocol) (sendBufferSize : Side → Uint64) (events : List Event) :
    ∃ l, opened.run net sendBufferSize events = some l ∧ ∀ side,
      (l side).handled <+: (sentBy side.other events).map Outgoing.toMessage ∧
      ((l side).fDisconnect = false → l.Drained side →
        (l side).handled = (sentBy side.other events).map Outgoing.toMessage) := by
  obtain ⟨l,hrun,h⟩ := @Sound.run net sendBufferSize _ _ opened_sound events
  simp only [List.nil_append] at h
  exact ⟨l,hrun,fun side => ⟨h.delivered side,h.delivered_all⟩⟩

/-- An event that does not close a connection by itself. -/
def Event.Peaceful : Event → Prop
  | .act _ a => a.Peaceful
  | .receive _ _ => True

theorem update_up (h : ∀ s, (l s).Up) (hp : p.Up) (s : Side) :
    (Function.update l side p s).Up := by
  by_cases hs : s = side
  · subst hs
    simpa using hp
  · simpa [hs] using h s

theorem Sound.step_up (h : Sound net sent l) (hup : ∀ side, (l side).Up) {e : Event}
    (he : e.Peaceful) (hstep : l.step net sendBufferSize e = some l') : ∀ side, (l' side).Up := by
  cases e with
  | act side a =>
    obtain ⟨p,hact,rfl⟩ := Option.map_eq_some_iff.mp hstep
    exact update_up hup ((h.peers side).act_up (hup side) he (h.native side) hact)
  | receive side nBytes =>
    obtain ⟨p,hreceive,rfl⟩ := Option.map_eq_some_iff.mp hstep
    obtain ⟨rest,hrest⟩ := (nextChunk_reads (h.reads side) nBytes).trans
      ⟨_,(h.peers side.other).queue.stream⟩
    have hok : (parseStream ((l side).received ++ (l.nextChunk side nBytes).bytes ++
        rest)).accepted = true := by rw [hrest,parseStream_wire]
    exact update_up hup ((h.peers side).receive_up (hup side) hok hreceive)

/-- Nothing that a node sends makes the other one disconnect: as long as the sockets last and no
connection is closed for another reason, both stay connected. -/
theorem stays_up (net : Protocol) (sendBufferSize : Side → Uint64) (events : List Event)
    (hpeaceful : ∀ e ∈ events, e.Peaceful) : ∃ l, opened.run net sendBufferSize events = some l ∧
      ∀ side, (l side).fDisconnect = false := by
  obtain ⟨l,hrun,_,-,hup⟩ := @foldlM_invariant _ _ opened (step net sendBufferSize)
    (fun l => ∃ sent, Sound net sent l ∧ ∀ s, (l s).Up) events
    ⟨_,opened_sound,fun _ => ⟨rfl,rfl⟩⟩ fun l ⟨sent,h,hup⟩ e he => by
      obtain ⟨l',hstep,h'⟩ := @Sound.step net sendBufferSize sent l h e
      exact ⟨l',hstep,_,h',h.step_up hup (hpeaceful e he) hstep⟩
  exact ⟨l,hrun,fun side => (hup side).1⟩

end Steps

/-! A message that arrives in two parts, and the answer to it. -/

def pingMessage : Outgoing where
  strCommand := [0x70,0x69,0x6E,0x67]
  vRecv := [1,2,3,4,5,6,7,8]
  short := by decide
  printable := by simp
  size := by decide

def pongMessage : Outgoing := { pingMessage with
  strCommand := [0x70,0x6F,0x6E,0x67]
  short := by decide
  printable := by simp }

/-- A socket that takes so many bytes at a time. -/
def narrowSocket (n : Nat) : Socket where
  send _ bytes := .sent (min n bytes.length)
  bounded i bytes nBytes h := by
    obtain rfl := SendResult.sent.inj h
    exact min_le_right ..

theorem narrowSocket_lasting (n : Nat) : (narrowSocket n).Lasting := fun _ _ _ h => by contradiction

def pingNet : Protocol := ⟨#v[0xFA,0xCA,0xBA,0xDA],fun bytes => BitVec.ofNat 256 bytes.length⟩

def pingEvents : List Event :=
  [.act .left (.pushMessage pingMessage (narrowSocket 20) 0),.receive .right 100,
    .act .left (.socketSendData (narrowSocket 20) 1),.receive .right 100,
    .act .right (.processMessages false .goesOn),
    .act .right (.pushMessage pongMessage (narrowSocket 40) 2),.receive .left 100,
    .act .left (.processMessages false .goesOn)]

theorem pingEvents_up : ∃ l, opened.run pingNet (fun _ => 1000000) pingEvents = some l ∧
    ∀ side, (l side).fDisconnect = false :=
  stays_up pingNet _ pingEvents
    (by simp [pingEvents,Event.Peaceful,Peer.Action.Peaceful,narrowSocket_lasting])

example : (opened.run pingNet (fun _ => 1000000) pingEvents).map
    (fun l => ((l .right).handled,(l .left).handled)) =
      some ([pingMessage.toMessage],[pongMessage.toMessage]) := by decide +kernel

end Link

end Anoncoin
