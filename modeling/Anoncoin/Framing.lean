import Anoncoin.Serialize

/-!
The framing of the messages of a peer (net.cpp, net.h, protocol.h). The bytes of a socket
arrive in calls of `ReceiveMsgBytes`; what has been received of a message stays in its
`CNetMessage` between the calls.
-/

set_option autoImplicit false

namespace Anoncoin
open Lib

def MAX_PROTOCOL_MESSAGE_LENGTH : Nat := 2*1024*1024

structure CMessageHeader where
  pchMessageStart : List UInt8
  pchCommand : List UInt8
  nMessageSize : Uint32
  nChecksum : Uint32
  deriving DecidableEq, Repr

def CMessageHeader.unserialize : Reader ReadFailure CMessageHeader := do
  let pchMessageStart ← take .endOfData 4
  let pchCommand ← take .endOfData 12
  let nMessageSize ← readUint 4
  let nChecksum ← readUint 4
  pure ⟨pchMessageStart,pchCommand,BitVec.ofNat 32 nMessageSize,BitVec.ofNat 32 nChecksum⟩

/-- The header before one is read. -/
def CMessageHeader.unset : CMessageHeader := ⟨[],[],0,0⟩

/-- A message and how far it has been received. -/
structure CNetMessage where
  in_data : Bool
  hdrbuf : List UInt8
  hdr : CMessageHeader
  nHdrPos : Uint32
  vRecv : List UInt8
  nDataPos : Uint32
  deriving DecidableEq, Repr

/-- `memcpy(&buf[pos],pch,n)`; there is no result when it would pass an end of either side. -/
def memcpy (buf : List UInt8) (pos : Nat) (pch : List UInt8) (n : Nat) : Option (List UInt8) :=
  if pos+n ≤ buf.length ∧ n ≤ pch.length then
    some (buf.take pos ++ (pch.take n ++ buf.drop (pos+n)))
  else none

/-- `resize` of a vector of bytes. -/
def resize (v : List UInt8) (n : Nat) : List UInt8 := v.take n ++ List.replicate (n-v.length) 0

/-- `std::min`. -/
def stdMin (a b : Uint32) : Uint32 := if b < a then b else a

namespace CNetMessage

def create : CNetMessage := ⟨false,List.replicate 24 0,.unset,0,[],0⟩

def complete (msg : CNetMessage) : Bool :=
  if msg.in_data then decide (msg.hdr.nMessageSize = msg.nDataPos) else false

/-- Returns what was handled, or a negative number. -/
def readHeader (msg : CNetMessage) (pch : List UInt8) (nBytes : Uint32) :
    Option (Int × CNetMessage) := do
  let nRemaining := 24-msg.nHdrPos
  let nCopy := stdMin nRemaining nBytes
  let hdrbuf ← memcpy msg.hdrbuf msg.nHdrPos.toNat pch nCopy.toNat
  let msg := { msg with hdrbuf := hdrbuf, nHdrPos := msg.nHdrPos+nCopy }
  if msg.nHdrPos < 24 then pure (nCopy.toInt,msg)
  else match CMessageHeader.unserialize ⟨msg.hdrbuf,0,0⟩ with
    | .error _ s => pure (-1,{ msg with hdrbuf := s.input })
    | .ok hdr s =>
      let msg := { msg with hdrbuf := s.input, hdr := hdr }
      if msg.hdr.nMessageSize.toNat > MAX_SIZE then pure (-1,msg)
      else pure (nCopy.toInt,{ msg with in_data := true })

def readData (msg : CNetMessage) (pch : List UInt8) (nBytes : Uint32) :
    Option (Int × CNetMessage) := do
  let nRemaining := msg.hdr.nMessageSize-msg.nDataPos
  let nCopy := stdMin nRemaining nBytes
  let vRecv :=
    if msg.vRecv.length < (msg.nDataPos+nCopy).toNat then
      resize msg.vRecv (stdMin msg.hdr.nMessageSize (msg.nDataPos+nCopy+256*1024)).toNat
    else msg.vRecv
  let vRecv ← memcpy vRecv msg.nDataPos.toNat pch nCopy.toNat
  pure (nCopy.toInt,{ msg with vRecv := vRecv, nDataPos := msg.nDataPos+nCopy })

def absorb (msg : CNetMessage) (pch : List UInt8) (nBytes : Uint32) :
    Option (Int × CNetMessage) :=
  if !msg.in_data then msg.readHeader pch nBytes else msg.readData pch nBytes

end CNetMessage

/-- The messages before the current one, and the current one, which is new when the last
one is complete. -/
def currentMessage (vRecvMsg : List CNetMessage) : List CNetMessage × CNetMessage :=
  match vRecvMsg.getLast? with
  | none => (vRecvMsg,.create)
  | some msg => if msg.complete then (vRecvMsg,.create) else (vRecvMsg.dropLast,msg)

/-- What a round of the loop comes to: it returns false, or goes on. -/
inductive Round where
  | refused (vRecvMsg : List CNetMessage)
  | absorbed (vRecvMsg : List CNetMessage) (pch : List UInt8) (nBytes : Uint32)
  deriving DecidableEq, Repr

def receiveRound (vRecvMsg : List CNetMessage) (pch : List UInt8) (nBytes : Uint32) :
    Option Round := do
  let (before,msg) := currentMessage vRecvMsg
  let (handled,msg) ← msg.absorb pch nBytes
  if handled < 0 then pure (.refused (before ++ [msg]))
  else if msg.in_data ∧ msg.hdr.nMessageSize.toNat > MAX_PROTOCOL_MESSAGE_LENGTH then
    pure (.refused (before ++ [msg]))
  else pure (.absorbed (before ++ [msg]) (pch.drop handled.toNat) (nBytes-BitVec.ofInt 32 handled))

/-- How a call ends: it returns, with the bytes that it did not come to, or it copies
beyond a buffer, or it is still running. -/
inductive Receipt where
  | returned (accepted : Bool) (vRecvMsg : List CNetMessage) (nBytes : Uint32)
  | overrun
  | running
  deriving DecidableEq, Repr

/-- The loop of `ReceiveMsgBytes`, for at most `rounds` rounds. -/
def receiveMsgBytes : Nat → List CNetMessage → List UInt8 → Uint32 → Receipt
  | rounds,vRecvMsg,pch,nBytes =>
    if nBytes > 0 then
      match rounds with
      | 0 => .running
      | rounds+1 =>
        match receiveRound vRecvMsg pch nBytes with
        | none => .overrun
        | some (.refused vRecvMsg) => .returned false vRecvMsg nBytes
        | some (.absorbed vRecvMsg pch nBytes) => receiveMsgBytes rounds vRecvMsg pch nBytes
    else .returned true vRecvMsg nBytes

/-- A complete message as its receiver sees it. -/
structure Frame where
  hdr : CMessageHeader
  payload : List UInt8
  deriving DecidableEq, Repr

/-- What a stream comes to: its complete messages, and whether it is accepted. -/
structure Parsed where
  messages : List Frame
  accepted : Bool
  deriving DecidableEq, Repr

/-- The header that 24 bytes stand for. -/
def CMessageHeader.ofBytes (b : List UInt8) : CMessageHeader :=
  ⟨b.take 4,(b.drop 4).take 12,BitVec.ofNat 32 (fromLittleEndian ((b.drop 16).take 4)),
    BitVec.ofNat 32 (fromLittleEndian ((b.drop 20).take 4))⟩

def CMessageHeader.payloadSize (hdr : CMessageHeader) : Nat := hdr.nMessageSize.toNat

/-- The whole stream at once: a header, exactly as many bytes as it says, the next header. -/
def parseStream (stream : List UInt8) : Parsed :=
  if _h : stream.length < 24 then ⟨[],true⟩
  else
    let hdr := CMessageHeader.ofBytes (stream.take 24)
    let rest := stream.drop 24
    if MAX_PROTOCOL_MESSAGE_LENGTH < hdr.payloadSize then ⟨[],false⟩
    else if rest.length < hdr.payloadSize then ⟨[],true⟩
    else
      let later := parseStream (rest.drop hdr.payloadSize)
      ⟨⟨hdr,rest.take hdr.payloadSize⟩ :: later.messages,later.accepted⟩
  termination_by stream.length
  decreasing_by simp; omega

/-- The bytes of one call; their number is an `unsigned int`. -/
structure Chunk where
  bytes : List UInt8
  fits : bytes.length < 2^32

def Chunk.nBytes (chunk : Chunk) : Uint32 := BitVec.ofNat 32 chunk.bytes.length

/-- The receiving side of a connection: the messages that are still there, those that
`ProcessMessages` has taken out, and whether a call has returned false, after which the
socket is closed. -/
structure Connection where
  vRecvMsg : List CNetMessage
  processed : List CNetMessage
  rejected : Bool

inductive SocketEvent where
  | received (chunk : Chunk)
  | processed

def SocketEvent.bytes : SocketEvent → List UInt8
  | .received chunk => chunk.bytes
  | .processed => []

namespace Connection

def opened : Connection := ⟨[],[],false⟩

/-- There is no next connection when a call does not return. -/
def step (rounds : Nat) (c : Connection) : SocketEvent → Option Connection
  | .received chunk =>
    if c.rejected then some c
    else match receiveMsgBytes rounds c.vRecvMsg chunk.bytes chunk.nBytes with
      | .returned accepted vRecvMsg _ => some { c with vRecvMsg := vRecvMsg, rejected := !accepted }
      | _ => none
  | .processed =>
    match c.vRecvMsg with
    | msg :: vRecvMsg =>
      if msg.complete then some { c with vRecvMsg := vRecvMsg, processed := c.processed ++ [msg] }
      else some c
    | [] => some c

def run (rounds : Nat) : Connection → List SocketEvent → Option Connection
  | c,[] => some c
  | c,e :: events => (c.step rounds e).bind fun c => c.run rounds events

end Connection

def CNetMessage.frame (msg : CNetMessage) : Frame := ⟨msg.hdr,msg.vRecv⟩

/-- The complete messages of a connection, in the order in which they arrived. -/
def Connection.messages (c : Connection) : List Frame :=
  (c.processed ++ c.vRecvMsg.filter CNetMessage.complete).map CNetMessage.frame

theorem memcpy_eq_some {buf : List UInt8} {pos : Nat} {pch : List UInt8} {n : Nat}
    (hbuf : pos+n ≤ buf.length) (hpch : n ≤ pch.length) : ∃ buf', memcpy buf pos pch n = some buf' ∧
      buf'.length = buf.length ∧ buf'.take (pos+n) = buf.take pos ++ pch.take n := by
  refine ⟨_,if_pos ⟨hbuf,hpch⟩,?_,?_⟩
  · simp only [List.length_append,List.length_take,List.length_drop]
    omega
  · have hlen : (buf.take pos ++ pch.take n).length = pos+n := by
      simp only [List.length_append,List.length_take]
      omega
    rw [← List.append_assoc,List.take_left' hlen]

theorem length_resize (v : List UInt8) (n : Nat) : (resize v n).length = n := by
  simp only [resize,List.length_append,List.length_take,List.length_replicate]
  omega

theorem take_resize {v : List UInt8} {k n : Nat} (hv : k ≤ v.length) (hn : k ≤ n) :
    (resize v n).take k = v.take k := by
  rw [resize,List.take_append_of_le_length (by simp only [List.length_take]; omega),
    List.take_take,min_eq_left hn]

theorem toNat_stdMin (a b : Uint32) : (stdMin a b).toNat = min a.toNat b.toNat := by
  unfold stdMin
  split
  · rename_i h
    rw [BitVec.lt_def] at h
    omega
  · rename_i h
    rw [BitVec.lt_def] at h
    omega

/-- A number of bytes below 2 GiB is not changed by its conversion to `int`. -/
theorem toInt_small {n : Uint32} (h : n.toNat < 2^31) : n.toInt = n.toNat :=
  BitVec.toInt_eq_toNat_of_lt (by omega)

theorem CMessageHeader.unserialize_eq {b : List UInt8} (h : b.length = 24) :
    CMessageHeader.unserialize ⟨b,0,0⟩ = .ok (.ofBytes b) ⟨[],0,0⟩ := by
  have h₁ : take ReadFailure.endOfData 4 ⟨b,0,0⟩ = .ok (b.take 4) ⟨b.drop 4,0,0⟩ :=
    if_pos (by simp only; omega)
  have h₂ : take ReadFailure.endOfData 12 ⟨b.drop 4,0,0⟩ =
      .ok ((b.drop 4).take 12) ⟨b.drop 16,0,0⟩ := by
    rw [take,if_pos (by simp only [List.length_drop]; omega)]
    simp
  have h₃ : readUint 4 ⟨b.drop 16,0,0⟩ =
      .ok (fromLittleEndian ((b.drop 16).take 4)) ⟨b.drop 20,0,0⟩ := by
    refine bind_eq_ok.mpr ⟨_,_,if_pos (by simp only [List.length_drop]; omega),?_⟩
    simp [pure_eq_ok]
  have h₄ : readUint 4 ⟨b.drop 20,0,0⟩ =
      .ok (fromLittleEndian ((b.drop 20).take 4)) ⟨[],0,0⟩ := by
    refine bind_eq_ok.mpr ⟨_,_,if_pos (by simp only [List.length_drop]; omega),?_⟩
    simp [pure_eq_ok,h]
  exact bind_eq_ok.mpr ⟨_,_,h₁,bind_eq_ok.mpr ⟨_,_,h₂,bind_eq_ok.mpr ⟨_,_,h₃,
    bind_eq_ok.mpr ⟨_,_,h₄,pure_eq_ok.mpr ⟨rfl,rfl⟩⟩⟩⟩⟩

/-- What follows a header. -/
def parseBody (hdr : CMessageHeader) (rest : List UInt8) : Parsed :=
  if MAX_PROTOCOL_MESSAGE_LENGTH < hdr.payloadSize then ⟨[],false⟩
  else if rest.length < hdr.payloadSize then ⟨[],true⟩
  else
    let later := parseStream (rest.drop hdr.payloadSize)
    ⟨⟨hdr,rest.take hdr.payloadSize⟩ :: later.messages,later.accepted⟩

theorem parseStream_short {stream : List UInt8} (h : stream.length < 24) :
    parseStream stream = ⟨[],true⟩ := by
  rw [parseStream,dif_pos h]

theorem parseStream_header {b : List UInt8} (h : b.length = 24) (rest : List UInt8) :
    parseStream (b ++ rest) = parseBody (.ofBytes b) rest := by
  have hlen : ¬(b ++ rest).length < 24 := by
    rw [List.length_append]
    omega
  rw [parseStream,dif_neg hlen,List.take_left' h,List.drop_left' h]
  rfl

/-- Messages that were complete before the rest of the stream. -/
def Parsed.after (before : List Frame) (p : Parsed) : Parsed :=
  ⟨before ++ p.messages,p.accepted⟩

theorem parseBody_payload {hdr : CMessageHeader} {payload : List UInt8}
    (hsize : hdr.payloadSize ≤ MAX_PROTOCOL_MESSAGE_LENGTH) (h : payload.length = hdr.payloadSize)
    (rest : List UInt8) :
    parseBody hdr (payload ++ rest) = (parseStream rest).after [⟨hdr,payload⟩] := by
  have hlen : ¬(payload ++ rest).length < hdr.payloadSize := by
    rw [List.length_append]
    omega
  rw [parseBody,if_neg (by omega),if_neg hlen,List.take_left' h,List.drop_left' h]
  rfl

namespace CNetMessage

/-- The state of a message between two rounds. -/
structure Sound (msg : CNetMessage) : Prop where
  header : msg.in_data = false → msg.hdrbuf.length = 24 ∧ msg.nHdrPos.toNat < 24 ∧
    msg.nDataPos = 0 ∧ msg.vRecv = []
  data : msg.in_data = true → msg.hdr.payloadSize ≤ MAX_PROTOCOL_MESSAGE_LENGTH ∧
    msg.nDataPos.toNat ≤ msg.vRecv.length ∧ msg.vRecv.length ≤ msg.hdr.payloadSize

/-- What the stream comes to when `bytes` follow what is in the message. -/
def resume (msg : CNetMessage) (bytes : List UInt8) : Parsed :=
  if msg.in_data then parseBody msg.hdr (msg.vRecv.take msg.nDataPos.toNat ++ bytes)
  else parseStream (msg.hdrbuf.take msg.nHdrPos.toNat ++ bytes)

theorem resume_of_header {msg : CNetMessage} (hin : msg.in_data = false) (bytes : List UInt8) :
    msg.resume bytes = parseStream (msg.hdrbuf.take msg.nHdrPos.toNat ++ bytes) := by
  simp [resume,hin]

theorem resume_of_data {msg : CNetMessage} (hin : msg.in_data = true) (bytes : List UInt8) :
    msg.resume bytes = parseBody msg.hdr (msg.vRecv.take msg.nDataPos.toNat ++ bytes) := by
  simp [resume,hin]

theorem sound_create : Sound create := by
  refine ⟨fun _ => ?_,fun h => ?_⟩
  · simp [create]
  · simp [create] at h

theorem resume_create (bytes : List UInt8) : create.resume bytes = parseStream bytes := by
  simp [create,resume]

theorem complete_iff {msg : CNetMessage} :
    msg.complete = true ↔ msg.in_data = true ∧ msg.hdr.nMessageSize = msg.nDataPos := by
  unfold complete
  split
  · rename_i h
    simp [h]
  · rename_i h
    simp [h]

/-- The buffer of a complete message is its payload. -/
theorem Sound.resume_complete {msg : CNetMessage} (h : msg.Sound) (hc : msg.complete = true)
    (bytes : List UInt8) : msg.resume bytes = (parseStream bytes).after [msg.frame] := by
  obtain ⟨hin,hsize⟩ := complete_iff.mp hc
  obtain ⟨hmax,hpos,hlen⟩ := h.data hin
  have hdone : msg.vRecv.length = msg.hdr.payloadSize := by
    have := congrArg BitVec.toNat hsize
    unfold CMessageHeader.payloadSize at *
    omega
  have htake : msg.vRecv.take msg.nDataPos.toNat = msg.vRecv := by
    apply List.take_of_length_le
    have := congrArg BitVec.toNat hsize
    unfold CMessageHeader.payloadSize at *
    omega
  rw [resume_of_data hin,htake,parseBody_payload hmax hdone]
  rfl

theorem Sound.resume_nil {msg : CNetMessage} (h : msg.Sound) (hc : msg.complete = false) :
    msg.resume [] = ⟨[],true⟩ := by
  cases hin : msg.in_data with
  | false =>
    obtain ⟨-,hpos,-,-⟩ := h.header hin
    rw [resume_of_header hin,List.append_nil,
      parseStream_short (by rw [List.length_take]; omega)]
  | true =>
    obtain ⟨hmax,hpos,hlen⟩ := h.data hin
    have hne : msg.hdr.nMessageSize.toNat ≠ msg.nDataPos.toNat := fun heq => by
      have := complete_iff.mpr ⟨hin,BitVec.eq_of_toNat_eq heq⟩
      simp [this] at hc
    have hshort : (msg.vRecv.take msg.nDataPos.toNat).length < msg.hdr.payloadSize := by
      rw [List.length_take]
      unfold CMessageHeader.payloadSize at *
      omega
    rw [resume_of_data hin,List.append_nil,parseBody,if_neg (by omega),if_pos hshort]

/-- A read that takes some of the bytes. -/
structure Absorbed (msg : CNetMessage) (pch : List UInt8) (handled : Int) (msg' : CNetMessage) :
    Prop where
  handled_pos : 0 < handled
  handled_le : handled ≤ pch.length
  small : handled < 2^31
  sound : msg'.Sound
  resumes : ∀ rest, msg.resume (pch ++ rest) = msg'.resume (pch.drop handled.toNat ++ rest)

/-- A read after which the stream is rejected. -/
structure Refused (msg : CNetMessage) (pch : List UInt8) (handled : Int) (msg' : CNetMessage) :
    Prop where
  refused : handled < 0 ∨
    msg'.in_data = true ∧ msg'.hdr.nMessageSize.toNat > MAX_PROTOCOL_MESSAGE_LENGTH
  incomplete : msg'.complete = false
  resumes : ∀ rest, msg.resume (pch ++ rest) = ⟨[],false⟩

/-- What follows the copy into the header buffer. -/
theorem readHeader_eq {msg : CNetMessage} {pch buf : List UInt8} {nBytes nCopy : Uint32}
    (hk : stdMin (24-msg.nHdrPos) nBytes = nCopy)
    (hmem : memcpy msg.hdrbuf msg.nHdrPos.toNat pch nCopy.toNat = some buf)
    (hlen : buf.length = 24) : msg.readHeader pch nBytes =
      let msg := { msg with hdrbuf := buf, nHdrPos := msg.nHdrPos+nCopy }
      let hdr := CMessageHeader.ofBytes buf
      if msg.nHdrPos < 24 then some (nCopy.toInt,msg)
      else if hdr.nMessageSize.toNat > MAX_SIZE then
        some (-1,{ msg with hdrbuf := [], hdr := hdr })
      else some (nCopy.toInt,{ msg with in_data := true, hdrbuf := [], hdr := hdr }) := by
  subst hk
  simp only [readHeader,hmem,Option.bind_eq_bind,Option.bind_some,
    CMessageHeader.unserialize_eq hlen]
  rfl

section Header
variable {msg : CNetMessage} {pch buf : List UInt8} {nBytes nCopy : Uint32}

/-- A header that goes on after these bytes. -/
theorem absorbed_part (h : msg.Sound) (hin : msg.in_data = false)
    (hblen : buf.length = 24)
    (hbtake : buf.take (msg.nHdrPos.toNat+nCopy.toNat) =
      msg.hdrbuf.take msg.nHdrPos.toNat ++ pch.take nCopy.toNat)
    (hpos : 0 < nCopy.toNat) (hle : nCopy.toNat ≤ pch.length)
    (hshort : msg.nHdrPos.toNat+nCopy.toNat < 24) :
    msg.Absorbed pch nCopy.toInt { msg with hdrbuf := buf, nHdrPos := msg.nHdrPos+nCopy } := by
  obtain ⟨-,-,hdata,hrecv⟩ := h.header hin
  have hint := toInt_small (n := nCopy) (by omega)
  have hsum : (msg.nHdrPos+nCopy).toNat = msg.nHdrPos.toNat+nCopy.toNat :=
    BitVec.toNat_add_of_lt (by omega)
  refine ⟨by omega,by omega,by omega,⟨fun _ => ?_,fun hd => ?_⟩,fun rest => ?_⟩
  · exact ⟨hblen,by rw [hsum]; exact hshort,hdata,hrecv⟩
  · simp [hin] at hd
  · rw [hint,Int.toNat_natCast,resume_of_header hin,resume_of_header,hsum,hbtake,
      List.append_assoc,← List.append_assoc (pch.take _),List.take_append_drop]
    exact hin

/-- The end of a header: the rest is parsed under it. -/
theorem resume_header (hin : msg.in_data = false) (hblen : buf.length = 24)
    (hbtake : buf.take (msg.nHdrPos.toNat+nCopy.toNat) =
      msg.hdrbuf.take msg.nHdrPos.toNat ++ pch.take nCopy.toNat)
    (hfull : msg.nHdrPos.toNat+nCopy.toNat = 24) (rest : List UInt8) :
    msg.resume (pch ++ rest) = parseBody (.ofBytes buf) (pch.drop nCopy.toNat ++ rest) := by
  rw [hfull,List.take_of_length_le (by omega)] at hbtake
  rw [← parseStream_header hblen (pch.drop nCopy.toNat ++ rest),hbtake,
    resume_of_header hin,List.append_assoc,← List.append_assoc (pch.take _),List.take_append_drop]

/-- A header whose message is not too long. -/
theorem absorbed_header (h : msg.Sound) (hin : msg.in_data = false) (hblen : buf.length = 24)
    (hbtake : buf.take (msg.nHdrPos.toNat+nCopy.toNat) =
      msg.hdrbuf.take msg.nHdrPos.toNat ++ pch.take nCopy.toNat)
    (hpos : 0 < nCopy.toNat) (hle : nCopy.toNat ≤ pch.length)
    (hfull : msg.nHdrPos.toNat+nCopy.toNat = 24)
    (hmax : (CMessageHeader.ofBytes buf).payloadSize ≤ MAX_PROTOCOL_MESSAGE_LENGTH) :
    msg.Absorbed pch nCopy.toInt { msg with
      in_data := true, hdrbuf := [], nHdrPos := msg.nHdrPos+nCopy, hdr := .ofBytes buf } := by
  obtain ⟨-,-,hdata,hrecv⟩ := h.header hin
  have hint := toInt_small (n := nCopy) (by omega)
  refine ⟨by omega,by omega,by omega,⟨fun hd => ?_,fun _ => ?_⟩,fun rest => ?_⟩
  · simp at hd
  · exact ⟨hmax,by simp [hdata],by simp [hrecv]⟩
  · rw [resume_header hin hblen hbtake hfull rest,hint,Int.toNat_natCast,resume_of_data rfl,
      hdata,hrecv]
    rfl

/-- A header whose message is too long; the larger of the two limits is found out first. -/
theorem refused_header (h : msg.Sound) (hin : msg.in_data = false) (hblen : buf.length = 24)
    (hbtake : buf.take (msg.nHdrPos.toNat+nCopy.toNat) =
      msg.hdrbuf.take msg.nHdrPos.toNat ++ pch.take nCopy.toNat)
    (hfull : msg.nHdrPos.toNat+nCopy.toNat = 24) {handled : Int} {in_data : Bool}
    (hmax : MAX_PROTOCOL_MESSAGE_LENGTH < (CMessageHeader.ofBytes buf).payloadSize)
    (hhandled : handled < 0 ∨ in_data = true) :
    msg.Refused pch handled { msg with
      in_data := in_data, hdrbuf := [], nHdrPos := msg.nHdrPos+nCopy, hdr := .ofBytes buf } := by
  obtain ⟨-,-,hdata,-⟩ := h.header hin
  refine ⟨hhandled.imp_right fun hd => ⟨hd,hmax⟩,?_,fun rest => ?_⟩
  · apply Bool.eq_false_iff.mpr
    intro hc
    have hsize : (CMessageHeader.ofBytes buf).nMessageSize = msg.nDataPos := (complete_iff.mp hc).2
    rw [CMessageHeader.payloadSize,hsize,hdata] at hmax
    simp at hmax
  · rw [resume_header hin hblen hbtake hfull rest,parseBody,if_pos hmax]

theorem readHeader_spec (h : msg.Sound) (hin : msg.in_data = false)
    (hlen : pch.length = nBytes.toNat) (hpos : 0 < nBytes.toNat) :
    ∃ handled msg', msg.readHeader pch nBytes = some (handled,msg') ∧
      (msg.Absorbed pch handled msg' ∨ msg.Refused pch handled msg') := by
  obtain ⟨hbuf,hlt,-,-⟩ := h.header hin
  have hrem : (24-msg.nHdrPos).toNat = 24-msg.nHdrPos.toNat :=
    BitVec.toNat_sub_of_le (BitVec.le_def.mpr (by simp; omega))
  have hcopy := toNat_stdMin (24-msg.nHdrPos) nBytes
  rw [hrem] at hcopy
  generalize hk : stdMin (24-msg.nHdrPos) nBytes = nCopy at hcopy
  have hsum : (msg.nHdrPos+nCopy).toNat = msg.nHdrPos.toNat+nCopy.toNat :=
    BitVec.toNat_add_of_lt (by omega)
  obtain ⟨buf,hmem,hblen,hbtake⟩ :=
    @memcpy_eq_some msg.hdrbuf msg.nHdrPos.toNat pch nCopy.toNat (by omega) (by omega)
  have h24 : buf.length = 24 := hblen.trans hbuf
  rw [readHeader_eq hk hmem h24]
  by_cases hshort : msg.nHdrPos.toNat+nCopy.toNat < 24
  · have hless : msg.nHdrPos+nCopy < 24 := BitVec.lt_def.mpr (by simpa [hsum] using hshort)
    exact ⟨_,_,if_pos hless,
      .inl (absorbed_part h hin h24 hbtake (by omega) (by omega) hshort)⟩
  · have hfull : msg.nHdrPos.toNat+nCopy.toNat = 24 := by omega
    have hless : ¬msg.nHdrPos+nCopy < 24 := by
      rw [BitVec.lt_def,hsum,hfull]
      decide
    simp only [if_neg hless]
    by_cases hmax : (CMessageHeader.ofBytes buf).nMessageSize.toNat > MAX_SIZE
    · have hover : MAX_PROTOCOL_MESSAGE_LENGTH < (CMessageHeader.ofBytes buf).payloadSize :=
        Nat.lt_trans (by decide) hmax
      exact ⟨_,_,if_pos hmax,
        .inr (refused_header h hin h24 hbtake hfull hover (.inl (by decide)))⟩
    · refine ⟨_,_,if_neg hmax,?_⟩
      by_cases hover : MAX_PROTOCOL_MESSAGE_LENGTH < (CMessageHeader.ofBytes buf).payloadSize
      · exact .inr (refused_header h hin h24 hbtake hfull hover (.inr rfl))
      · exact .inl (absorbed_header h hin h24 hbtake (by omega) (by omega) hfull
          (Nat.le_of_not_lt hover))

end Header

theorem readData_spec {msg : CNetMessage} {pch : List UInt8} {nBytes : Uint32}
    (h : msg.Sound) (hin : msg.in_data = true) (hc : msg.complete = false)
    (hlen : pch.length = nBytes.toNat) (hpos : 0 < nBytes.toNat) :
    ∃ handled msg', msg.readData pch nBytes = some (handled,msg') ∧
      msg.Absorbed pch handled msg' := by
  obtain ⟨hmax,hfrom,hto⟩ := h.data hin
  have hlim : msg.hdr.nMessageSize.toNat ≤ 2*1024*1024 := hmax
  unfold CMessageHeader.payloadSize at hto
  have hne : msg.hdr.nMessageSize.toNat ≠ msg.nDataPos.toNat := fun heq => by
    have := complete_iff.mpr ⟨hin,BitVec.eq_of_toNat_eq heq⟩
    simp [this] at hc
  have hcopy := toNat_stdMin (msg.hdr.nMessageSize-msg.nDataPos) nBytes
  rw [BitVec.toNat_sub_of_le (BitVec.le_def.mpr (by omega))] at hcopy
  generalize hk : stdMin (msg.hdr.nMessageSize-msg.nDataPos) nBytes = nCopy at hcopy
  have hsum : (msg.nDataPos+nCopy).toNat = msg.nDataPos.toNat+nCopy.toNat :=
    BitVec.toNat_add_of_lt (by omega)
  obtain ⟨grown,hgrown,htake,hroom,hbound⟩ : ∃ grown,
      (if msg.vRecv.length < (msg.nDataPos+nCopy).toNat then
        resize msg.vRecv (stdMin msg.hdr.nMessageSize (msg.nDataPos+nCopy+256*1024)).toNat
      else msg.vRecv) = grown ∧
      grown.take msg.nDataPos.toNat = msg.vRecv.take msg.nDataPos.toNat ∧
      msg.nDataPos.toNat+nCopy.toNat ≤ grown.length ∧
      grown.length ≤ msg.hdr.nMessageSize.toNat := by
    refine ⟨_,rfl,?_⟩
    have hahead : (msg.nDataPos+nCopy+256*1024).toNat =
        msg.nDataPos.toNat+nCopy.toNat+256*1024 := by
      rw [BitVec.toNat_add_of_lt,hsum]
      · rfl
      · rw [hsum]
        simp
        omega
    split
    · rw [length_resize,toNat_stdMin,hahead]
      refine ⟨take_resize hfrom (by omega),by omega,by omega⟩
    · exact ⟨rfl,by omega,hto⟩
  obtain ⟨buf,hmem,hblen,hbtake⟩ :=
    @memcpy_eq_some grown msg.nDataPos.toNat pch nCopy.toNat hroom (by omega)
  have hint := toInt_small (n := nCopy) (by omega)
  refine ⟨nCopy.toInt,{ msg with vRecv := buf, nDataPos := msg.nDataPos+nCopy },?_,?_⟩
  · simp only [readData,hk,hgrown,hmem,Option.bind_eq_bind,Option.bind_some]
    rfl
  · refine ⟨by omega,by omega,by omega,⟨fun hd => ?_,fun _ => ?_⟩,fun rest => ?_⟩
    · simp [hin] at hd
    · exact ⟨hmax,by simp only [hsum]; omega,hblen.trans_le hbound⟩
    · rw [resume_of_data hin,resume_of_data,hsum,hbtake,htake,hint,Int.toNat_natCast,
        List.append_assoc,← List.append_assoc (pch.take _),List.take_append_drop]
      exact hin

theorem absorb_spec {msg : CNetMessage} {pch : List UInt8} {nBytes : Uint32}
    (h : msg.Sound) (hc : msg.complete = false) (hlen : pch.length = nBytes.toNat)
    (hpos : 0 < nBytes.toNat) : ∃ handled msg', msg.absorb pch nBytes = some (handled,msg') ∧
      (msg.Absorbed pch handled msg' ∨ msg.Refused pch handled msg') := by
  cases hin : msg.in_data with
  | false =>
    obtain ⟨handled,msg',heq,hread⟩ := readHeader_spec h hin hlen hpos
    exact ⟨handled,msg',by simpa [absorb,hin] using heq,hread⟩
  | true =>
    obtain ⟨handled,msg',heq,hread⟩ := readData_spec h hin hc hlen hpos
    exact ⟨handled,msg',by simpa [absorb,hin] using heq,.inl hread⟩

end CNetMessage

theorem Parsed.after_after (first second : List Frame) (p : Parsed) :
    (p.after second).after first = p.after (first ++ second) := by
  simp [Parsed.after]

/-- What the stream comes to when `bytes` follow what was received. -/
def resumeFrom (vRecvMsg : List CNetMessage) (bytes : List UInt8) : Parsed :=
  ((currentMessage vRecvMsg).2.resume bytes).after
    ((currentMessage vRecvMsg).1.map CNetMessage.frame)

/-- Only the last message can be incomplete. -/
structure Receiving (vRecvMsg : List CNetMessage) : Prop where
  before : ∀ msg ∈ (currentMessage vRecvMsg).1, msg.complete = true
  current : (currentMessage vRecvMsg).2.Sound
  incomplete : (currentMessage vRecvMsg).2.complete = false

theorem complete_create : CNetMessage.create.complete = false := by decide

theorem currentMessage_append (before : List CNetMessage) (msg : CNetMessage) :
    currentMessage (before ++ [msg]) =
      if msg.complete then (before ++ [msg],.create) else (before,msg) := by
  simp [currentMessage]

theorem currentMessage_cons {msg : CNetMessage} (h : msg.complete = true)
    (vRecvMsg : List CNetMessage) : currentMessage (msg :: vRecvMsg) =
      (msg :: (currentMessage vRecvMsg).1,(currentMessage vRecvMsg).2) := by
  cases hl : vRecvMsg.getLast? with
  | none =>
    rw [List.getLast?_eq_none_iff] at hl
    simp [hl,currentMessage,h]
  | some last =>
    have hne : vRecvMsg ≠ [] := by
      rintro rfl
      simp at hl
    have hcons : (msg :: vRecvMsg).getLast? = some last := by
      rw [List.getLast?_cons,hl]
      rfl
    simp only [currentMessage,hl,hcons,List.dropLast_cons_of_ne_nil hne]
    split <;> rfl

namespace Receiving
variable {vRecvMsg : List CNetMessage}

theorem nil : Receiving [] := ⟨by simp [currentMessage],CNetMessage.sound_create,complete_create⟩

theorem filter_complete (h : Receiving vRecvMsg) :
    vRecvMsg.filter CNetMessage.complete = (currentMessage vRecvMsg).1 := by
  cases vRecvMsg using List.reverseRecOn with
  | nil => rfl
  | append_singleton before msg =>
    have hb := h.before
    rw [currentMessage_append] at hb ⊢
    split at hb
    · rename_i hc
      rw [if_pos hc,List.filter_eq_self]
      exact hb
    · rename_i hc
      rw [if_neg hc,List.filter_append,List.filter_eq_self.mpr hb]
      simp [hc]

/-- What is received when the stream ends here. -/
theorem resumeFrom_nil (h : Receiving vRecvMsg) : resumeFrom vRecvMsg [] =
    ⟨(vRecvMsg.filter CNetMessage.complete).map CNetMessage.frame,true⟩ := by
  rw [resumeFrom,h.current.resume_nil h.incomplete,h.filter_complete]
  simp [Parsed.after]

/-- The current message was read into. -/
theorem append {before : List CNetMessage} {msg : CNetMessage}
    (hb : ∀ earlier ∈ before, earlier.complete = true) (hs : msg.Sound) :
    Receiving (before ++ [msg]) ∧ ∀ bytes, resumeFrom (before ++ [msg]) bytes =
      (msg.resume bytes).after (before.map CNetMessage.frame) := by
  by_cases hc : msg.complete = true
  · have hcur := currentMessage_append before msg
    rw [if_pos hc] at hcur
    refine ⟨⟨?_,?_,?_⟩,fun bytes => ?_⟩
    · rw [hcur]
      simpa [or_imp,forall_and,hc] using hb
    · rw [hcur]
      exact CNetMessage.sound_create
    · rw [hcur]
      exact complete_create
    · rw [resumeFrom,hcur,CNetMessage.resume_create,hs.resume_complete hc,Parsed.after_after]
      simp
  · have hcur := currentMessage_append before msg
    rw [if_neg hc] at hcur
    refine ⟨⟨?_,?_,?_⟩,fun bytes => ?_⟩
    · rw [hcur]
      exact hb
    · rw [hcur]
      exact hs
    · rw [hcur]
      exact Bool.eq_false_iff.mpr hc
    · rw [resumeFrom,hcur]

/-- A complete message at the front is taken out. -/
theorem tail {msg : CNetMessage} (h : Receiving (msg :: vRecvMsg)) (hc : msg.complete = true) :
    Receiving vRecvMsg ∧ ∀ bytes, resumeFrom (msg :: vRecvMsg) bytes =
      (resumeFrom vRecvMsg bytes).after [msg.frame] := by
  obtain ⟨hb,hs,hi⟩ := h
  rw [currentMessage_cons hc] at hb hs hi
  refine ⟨⟨fun earlier hm => hb earlier (List.mem_cons_of_mem _ hm),hs,hi⟩,fun bytes => ?_⟩
  rw [resumeFrom,currentMessage_cons hc,resumeFrom,Parsed.after_after]
  simp

/-- A round takes at least one byte, or refuses what no further bytes would change. -/
theorem receiveRound_spec {pch : List UInt8} {nBytes : Uint32} (h : Receiving vRecvMsg)
    (hlen : pch.length = nBytes.toNat) (hpos : 0 < nBytes.toNat) :
    (∃ after, receiveRound vRecvMsg pch nBytes = some (.refused after) ∧
      ∀ rest, resumeFrom vRecvMsg (pch ++ rest) =
        ⟨(after.filter CNetMessage.complete).map CNetMessage.frame,false⟩) ∨
    ∃ after pch' nBytes', receiveRound vRecvMsg pch nBytes = some (.absorbed after pch' nBytes') ∧
      Receiving after ∧ pch'.length = nBytes'.toNat ∧ nBytes'.toNat < nBytes.toNat ∧
      ∀ rest, resumeFrom vRecvMsg (pch ++ rest) = resumeFrom after (pch' ++ rest) := by
  obtain ⟨hb,hs,hi⟩ := h
  unfold receiveRound resumeFrom
  generalize currentMessage vRecvMsg = current at hb hs hi ⊢
  obtain ⟨before,msg⟩ := current
  obtain ⟨handled,msg',heq,hab⟩ := CNetMessage.absorb_spec hs hi hlen hpos
  simp only [heq,Option.bind_eq_bind,Option.bind_some]
  cases hab with
  | inl hab =>
    right
    have hover : ¬(msg'.in_data = true ∧
        msg'.hdr.nMessageSize.toNat > MAX_PROTOCOL_MESSAGE_LENGTH) := fun hd =>
      Nat.not_lt.mpr (hab.sound.data hd.1).1 hd.2
    have hpos' := hab.handled_pos
    have hle := hab.handled_le
    have hsmall := hab.small
    have hof : (BitVec.ofInt 32 handled).toNat = handled.toNat := by
      rw [BitVec.toNat_ofInt]
      omega
    have hsub : (nBytes-BitVec.ofInt 32 handled).toNat = nBytes.toNat-handled.toNat := by
      rw [BitVec.toNat_sub_of_le (BitVec.le_def.mpr (by omega)),hof]
    obtain ⟨hrecv,hresume⟩ := append hb hab.sound
    refine ⟨_,_,_,by rw [if_neg (by omega),if_neg hover]; rfl,hrecv,?_,?_,fun rest => ?_⟩
    · rw [List.length_drop,hsub,hlen]
    · omega
    · rw [hab.resumes rest]
      exact (hresume _).symm
  | inr hre =>
    left
    refine ⟨before ++ [msg'],?_,fun rest => ?_⟩
    · by_cases hneg : handled < 0
      · rw [if_pos hneg]
        rfl
      · rw [if_neg hneg,if_pos (hre.refused.resolve_left hneg)]
        rfl
    · rw [hre.resumes rest,List.filter_append,List.filter_eq_self.mpr hb]
      simp [hre.incomplete,Parsed.after]

end Receiving

theorem receiveMsgBytes_spec {rounds : Nat} {vRecvMsg : List CNetMessage} {pch : List UInt8}
    {nBytes : Uint32} (h : Receiving vRecvMsg) (hlen : pch.length = nBytes.toNat)
    (hrounds : nBytes.toNat ≤ rounds) :
    (∃ after left, receiveMsgBytes rounds vRecvMsg pch nBytes = .returned false after left ∧
      ∀ rest, resumeFrom vRecvMsg (pch ++ rest) =
        ⟨(after.filter CNetMessage.complete).map CNetMessage.frame,false⟩) ∨
    ∃ after, receiveMsgBytes rounds vRecvMsg pch nBytes = .returned true after 0 ∧
      Receiving after ∧ ∀ rest, resumeFrom vRecvMsg (pch ++ rest) = resumeFrom after rest := by
  induction rounds generalizing vRecvMsg pch nBytes with
  | zero =>
    have hzero : nBytes = 0 := BitVec.eq_of_toNat_eq (by simpa using hrounds)
    have hnil : pch = [] := List.length_eq_zero_iff.mp (by omega)
    subst hzero hnil
    exact .inr ⟨vRecvMsg,by simp [receiveMsgBytes],h,fun rest => rfl⟩
  | succ rounds ih =>
    by_cases hpos : nBytes > 0
    · have hround := h.receiveRound_spec hlen (BitVec.lt_def.mp hpos)
      obtain ⟨after,heq,hparse⟩ | ⟨after,pch',nBytes',heq,hrecv,hlen',hless,hparse⟩ := hround
      · refine .inl ⟨after,nBytes,?_,hparse⟩
        rw [receiveMsgBytes,if_pos hpos]
        simp only [heq]
      · have hcall : receiveMsgBytes (rounds+1) vRecvMsg pch nBytes =
            receiveMsgBytes rounds after pch' nBytes' := by
          rw [receiveMsgBytes,if_pos hpos]
          simp only [heq]
        rw [hcall]
        simp only [hparse]
        exact ih hrecv hlen' (by omega)
    · have hzero : nBytes = 0 := BitVec.eq_of_toNat_eq (by
        rw [gt_iff_lt,BitVec.lt_def] at hpos
        simpa using hpos)
      have hnil : pch = [] := List.length_eq_zero_iff.mp (by rw [hlen,hzero]; rfl)
      subst hzero hnil
      exact .inr ⟨vRecvMsg,by simp [receiveMsgBytes],h,fun rest => rfl⟩

theorem Chunk.toNat_nBytes (chunk : Chunk) : chunk.nBytes.toNat = chunk.bytes.length := by
  rw [Chunk.nBytes,BitVec.toNat_ofNat]
  exact Nat.mod_eq_of_lt chunk.fits

namespace Connection

/-- What the connection holds is what `stream` comes to, whatever follows it. -/
structure Follows (c : Connection) (stream : List UInt8) : Prop where
  receiving : c.rejected = false → Receiving c.vRecvMsg
  resumes : c.rejected = false → ∀ rest, parseStream (stream ++ rest) =
    (resumeFrom c.vRecvMsg rest).after (c.processed.map CNetMessage.frame)
  rejected : c.rejected = true → ∀ rest, parseStream (stream ++ rest) = ⟨c.messages,false⟩

namespace Follows
variable {c : Connection} {stream : List UInt8}

theorem opened : Follows .opened [] := by
  refine ⟨fun _ => Receiving.nil,fun _ rest => ?_,fun h => by simp [Connection.opened] at h⟩
  simp [Connection.opened,resumeFrom,currentMessage,Parsed.after,CNetMessage.resume_create]

theorem parse_eq (h : c.Follows stream) : parseStream stream = ⟨c.messages,!c.rejected⟩ := by
  cases hr : c.rejected with
  | false =>
    have hparse := h.resumes hr []
    rw [List.append_nil,(h.receiving hr).resumeFrom_nil] at hparse
    rw [hparse]
    simp [Parsed.after,Connection.messages]
  | true =>
    have hparse := h.rejected hr []
    rwa [List.append_nil] at hparse

/-- Every call returns, and has taken all its bytes when it returns true. -/
theorem received {rounds : Nat} (h : c.Follows stream) (chunk : Chunk)
    (hrounds : chunk.bytes.length ≤ rounds) : ∃ c', c.step rounds (.received chunk) = some c' ∧
      c'.Follows (stream ++ chunk.bytes) := by
  cases hr : c.rejected with
  | true =>
    refine ⟨c,by simp [step,hr],⟨by simp [hr],by simp [hr],fun _ rest => ?_⟩⟩
    rw [List.append_assoc]
    exact h.rejected hr _
  | false =>
    have hcall := receiveMsgBytes_spec (h.receiving hr) chunk.toNat_nBytes.symm
      (chunk.toNat_nBytes.trans_le hrounds)
    obtain ⟨after,left,heq,hparse⟩ | ⟨after,heq,hrecv,hparse⟩ := hcall
    · refine ⟨{ c with vRecvMsg := after, rejected := true },by simp [step,hr,heq],?_⟩
      refine ⟨fun h' => by simp at h',fun h' => by simp at h',fun _ rest => ?_⟩
      rw [List.append_assoc,h.resumes hr,hparse rest]
      simp [Parsed.after,Connection.messages]
    · refine ⟨{ c with vRecvMsg := after },by simp [step,hr,heq],?_⟩
      refine ⟨fun _ => hrecv,fun _ rest => ?_,fun h' => by simp [hr] at h'⟩
      rw [List.append_assoc,h.resumes hr,hparse rest]

/-- Taking out a message changes neither the messages nor what is to follow. -/
theorem processed (h : c.Follows stream) (rounds : Nat) :
    ∃ c', c.step rounds .processed = some c' ∧ c'.Follows stream := by
  cases hq : c.vRecvMsg with
  | nil => exact ⟨c,by simp [step,hq],h⟩
  | cons msg vRecvMsg =>
    by_cases hc : msg.complete = true
    · refine ⟨{ c with vRecvMsg := vRecvMsg, processed := c.processed ++ [msg] },
        by simp [step,hq,hc],⟨fun hr => ?_,fun hr rest => ?_,fun hr rest => ?_⟩⟩
      · have hrecv := h.receiving hr
        rw [hq] at hrecv
        exact (hrecv.tail hc).1
      · have hrecv := h.receiving hr
        rw [hq] at hrecv
        rw [h.resumes hr rest,hq,(hrecv.tail hc).2 rest,Parsed.after_after]
        simp
      · rw [h.rejected hr rest]
        simp [Connection.messages,hq,hc]
    · exact ⟨c,by simp [step,hq,hc],h⟩

theorem run {rounds : Nat} {events : List SocketEvent} (h : c.Follows stream)
    (hrounds : ∀ e ∈ events, e.bytes.length ≤ rounds) : ∃ c', c.run rounds events = some c' ∧
      c'.Follows (stream ++ events.flatMap SocketEvent.bytes) := by
  induction events generalizing c stream with
  | nil => exact ⟨c,rfl,by simpa using h⟩
  | cons e events ih =>
    have hstep : ∃ c', c.step rounds e = some c' ∧ c'.Follows (stream ++ e.bytes) := by
      cases e with
      | received chunk => exact h.received chunk (hrounds (.received chunk) (by simp))
      | processed => simpa [SocketEvent.bytes] using h.processed rounds
    obtain ⟨c₁,heq,hc₁⟩ := hstep
    obtain ⟨c₂,hrun,hc₂⟩ := ih hc₁ fun e he => hrounds e (by simp [he])
    refine ⟨c₂,?_,?_⟩
    · rw [Connection.run,heq]
      exact hrun
    · rwa [List.flatMap_cons,← List.append_assoc]

end Follows

/-- However the bytes of a stream are split into calls, and however many of the complete
messages are taken out in between, no copy passes a buffer and every call returns within as
many rounds as it has bytes, with all of them taken unless it rejects; the messages and the
verdict are those of the whole stream. -/
theorem framing_of_chunks {rounds : Nat} {events : List SocketEvent}
    (hrounds : ∀ e ∈ events, e.bytes.length ≤ rounds) :
    ∃ c, Connection.opened.run rounds events = some c ∧
      parseStream (events.flatMap SocketEvent.bytes) = ⟨c.messages,!c.rejected⟩ ∧
      (c.rejected = false → ∀ chunk : Chunk, chunk.bytes.length ≤ rounds →
        ∃ accepted vRecvMsg nBytes, receiveMsgBytes rounds c.vRecvMsg chunk.bytes chunk.nBytes =
          .returned accepted vRecvMsg nBytes ∧ (accepted = true → nBytes = 0)) := by
  obtain ⟨c,hrun,hc⟩ := Follows.opened.run hrounds
  refine ⟨c,hrun,hc.parse_eq,fun hr chunk hlen => ?_⟩
  have hcall := receiveMsgBytes_spec (hc.receiving hr) chunk.toNat_nBytes.symm
    (chunk.toNat_nBytes.trans_le hlen)
  obtain ⟨after,left,heq,-⟩ | ⟨after,heq,-,-⟩ := hcall
  · exact ⟨false,after,left,heq,fun h => by simp at h⟩
  · exact ⟨true,after,0,heq,fun _ => rfl⟩

/-- An empty message and the start of one of two bytes; then the rest of it, after the first
message has been taken out. -/
def splitEvents : List SocketEvent :=
  [.received ⟨List.replicate 24 0 ++ List.replicate 10 1,by decide⟩,.processed,
    .received ⟨List.replicate 6 1 ++ [2,0,0,0,5,5,5,5,7],by decide⟩,.received ⟨[8],by decide⟩]

theorem framing_of_chunks_split :
    (∃ c, Connection.opened.run 40 splitEvents = some c ∧
      parseStream (splitEvents.flatMap SocketEvent.bytes) = ⟨c.messages,!c.rejected⟩) ∧
    parseStream (splitEvents.flatMap SocketEvent.bytes) =
      ⟨[⟨⟨List.replicate 4 0,List.replicate 12 0,0,0⟩,[]⟩,
        ⟨⟨List.replicate 4 1,List.replicate 12 1,2,0x05050505⟩,[7,8]⟩],true⟩ := by
  refine ⟨?_,by decide +kernel⟩
  obtain ⟨c,hrun,hparse,-⟩ := @framing_of_chunks 40 splitEvents (by decide +kernel)
  exact ⟨c,hrun,hparse⟩

end Connection

end Anoncoin
