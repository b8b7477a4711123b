import Anoncoin.Framing

/-!
The queue of outgoing messages of a peer (net.cpp, net.h): a socket may take a part of what it
is given, and what is left is sent later.
-/

set_option autoImplicit false

namespace Anoncoin
open Lib

abbrev CSerializeData := List UInt8

inductive SocketError where
  | wouldBlock
  | msgSize
  | intr
  | inProgress
  | other (nErr : Int)
  deriving DecidableEq, Repr

/-- What `send` returns: how many bytes it took, or that it failed. -/
inductive SendResult where
  | sent (nBytes : Nat)
  | failed (nErr : SocketError)
  deriving DecidableEq, Repr

/-- The results of the calls of `send`, which are numbered. -/
structure Socket where
  send : Nat → List UInt8 → SendResult
  bounded : ∀ i bytes nBytes, send i bytes = .sent nBytes → nBytes ≤ bytes.length

/-- The sending side of a node, and what its socket has taken. -/
structure SendQueue where
  vSendMsg : List CSerializeData
  nSendSize : Uint64
  nSendOffset : Uint64
  nSendBytes : Uint64
  nLastSend : Int
  fDisconnect : Bool
  taken : List UInt8
  deriving DecidableEq, Repr

/-- The header that `BeginMessage` writes. -/
def beginMessage (pchMessageStart : Vector UInt8 4) (pszCommand : List UInt8) : List UInt8 :=
  pchMessageStart.toList ++ (resize pszCommand 12 ++ (littleEndian 4 0 ++ littleEndian 4 0))

/-- `EndMessage` sets the size and the checksum. -/
def setSizeAndChecksum (hash : List UInt8 → Uint256) (ssSend : CSerializeData) :
    Option CSerializeData := do
  let nSize : Uint32 := BitVec.ofNat 32 (ssSend.length-24)
  let ssSend ← memcpy ssSend 16 (littleEndian 4 nSize.toNat) 4
  let nChecksum := (hash (ssSend.drop 24)).setWidth 32
  if ssSend.length ≥ 20+4 then memcpy ssSend 20 (littleEndian 4 nChecksum.toNat) 4 else none

namespace SendQueue

def new : SendQueue := ⟨[],0,0,0,0,false,[]⟩

/-- Any other error than these closes the socket. -/
def closes (nErr : SocketError) : Bool :=
  nErr != .wouldBlock && nErr != .msgSize && nErr != .intr && nErr != .inProgress

/-- The loop of `SocketSendData`, from call `i` of `send`, with the messages from `it` on; `none`
is its assertion. -/
def sendLoop (socket : Socket) (nTime : Int) (i : Nat) (q : SendQueue) :
    List CSerializeData → Option (SendQueue × List CSerializeData)
  | [] => some (q,[])
  | data :: rest =>
    let size : Uint64 := BitVec.ofNat 64 data.length
    if size > q.nSendOffset then
      let bytes := (data.drop q.nSendOffset.toNat).take (size-q.nSendOffset).toNat
      match socket.send i bytes with
      | .sent nBytes =>
        if nBytes > 0 then
          let q := { q with
            nLastSend := nTime
            nSendBytes := q.nSendBytes+BitVec.ofNat 64 nBytes
            nSendOffset := q.nSendOffset+BitVec.ofNat 64 nBytes
            taken := q.taken ++ bytes.take nBytes }
          if q.nSendOffset = size then
            sendLoop socket nTime (i+1) { q with nSendOffset := 0, nSendSize := q.nSendSize-size } rest
          else some (q,data :: rest)
        else some (q,data :: rest)
      | .failed nErr => some ({ q with fDisconnect := q.fDisconnect || closes nErr },data :: rest)
    else none

/-- There is no result when an assertion fails. -/
def socketSendData (socket : Socket) (nTime : Int) (q : SendQueue) : Option SendQueue := do
  let (q,rest) ← q.sendLoop socket nTime 0 q.vSendMsg
  if rest = [] ∧ ¬(q.nSendOffset = 0 ∧ q.nSendSize = 0) then none
  else some { q with vSendMsg := rest }

def endMessage (hash : List UInt8 → Uint256) (socket : Socket) (nTime : Int) (q : SendQueue)
    (ssSend : CSerializeData) : Option SendQueue :=
  if ssSend.length = 0 then some q
  else do
    let data ← setSizeAndChecksum hash ssSend
    let q' := { q with
      vSendMsg := q.vSendMsg ++ [data]
      nSendSize := q.nSendSize+BitVec.ofNat 64 data.length }
    -- an empty queue is written to the socket at once
    if q.vSendMsg = [] then q'.socketSendData socket nTime else some q'

end SendQueue

/-- The bytes behind the header of a message. -/
structure Payload where
  bytes : List UInt8
  fits : 24+bytes.length < 2^64

/-- A message is put into the queue, or the socket thread sends; with the time and the results of
the socket. -/
inductive SendEvent where
  | pushMessage (pszCommand : List UInt8) (payload : Payload) (socket : Socket) (nTime : Int)
  | socketSendData (socket : Socket) (nTime : Int)

namespace SendQueue

def step (pchMessageStart : Vector UInt8 4) (hash : List UInt8 → Uint256) (q : SendQueue) :
    SendEvent → Option SendQueue
  | .pushMessage pszCommand payload socket nTime =>
    q.endMessage hash socket nTime (beginMessage pchMessageStart pszCommand ++ payload.bytes)
  | .socketSendData socket nTime => q.socketSendData socket nTime

def run (pchMessageStart : Vector UInt8 4) (hash : List UInt8 → Uint256) (q : SendQueue)
    (events : List SendEvent) : Option SendQueue := events.foldlM (step pchMessageStart hash) q

end SendQueue

/-- The message that an event puts into the queue. -/
def SendEvent.message (pchMessageStart : Vector UInt8 4) (hash : List UInt8 → Uint256) :
    SendEvent → Option CSerializeData
  | .pushMessage pszCommand payload _ _ =>
    setSizeAndChecksum hash (beginMessage pchMessageStart pszCommand ++ payload.bytes)
  | .socketSendData _ _ => none

section Stream

/-- What the counters say about the messages that are still there, and how the stream of all
messages is made up of what the socket has taken and the rest. -/
structure Streams (stream : List UInt8) (q : SendQueue) (rest : List CSerializeData) : Prop where
  sizes : ∀ data ∈ rest, data ≠ [] ∧ data.length < 2^64
  total : q.nSendSize = BitVec.ofNat 64 rest.flatten.length
  inside : ∀ data ∈ rest.head?, q.nSendOffset.toNat < data.length
  start : rest = [] → q.nSendOffset = 0
  stream : q.taken ++ rest.flatten.drop q.nSendOffset.toNat = stream

variable {stream : List UInt8} {q q' : SendQueue} {data : CSerializeData}
  {rest : List CSerializeData}

theorem toNat_size (h : data.length < 2^64) :
    (BitVec.ofNat 64 data.length : Uint64).toNat = data.length := by
  rw [BitVec.toNat_ofNat,Nat.mod_eq_of_lt h]

theorem Streams.drop_eq (h : Streams stream q (data :: rest)) :
    (data :: rest).flatten.drop q.nSendOffset.toNat =
      data.drop q.nSendOffset.toNat ++ rest.flatten := by
  have hlt := h.inside data rfl
  rw [List.flatten_cons,List.drop_append_of_le_length hlt.le]

/-- The socket has taken a part of the first message. -/
theorem Streams.advance (h : Streams stream q (data :: rest)) {nBytes : Nat}
    (hn : q.nSendOffset.toNat+nBytes < data.length)
    (hoffset : q'.nSendOffset = q.nSendOffset+BitVec.ofNat 64 nBytes)
    (hsize : q'.nSendSize = q.nSendSize)
    (htaken : q'.taken = q.taken ++ (data.drop q.nSendOffset.toNat).take nBytes) :
    Streams stream q' (data :: rest) := by
  have hfits := (h.sizes data List.mem_cons_self).2
  have hsum : q'.nSendOffset.toNat = q.nSendOffset.toNat+nBytes := by
    rw [hoffset,BitVec.toNat_add,BitVec.toNat_ofNat,Nat.add_mod_mod,Nat.mod_eq_of_lt (by omega)]
  refine ⟨h.sizes,hsize.trans h.total,fun first hfirst => ?_,fun hnil => by contradiction,?_⟩
  · obtain rfl := Option.some.inj hfirst
    omega
  · rw [htaken,hsum,List.flatten_cons,List.drop_append_of_le_length (by omega),← h.stream,h.drop_eq,
      ← List.drop_drop,List.append_assoc,← List.append_assoc (List.take _ _),List.take_append_drop]

/-- The socket has taken the rest of the first message. -/
theorem Streams.next (h : Streams stream q (data :: rest)) (hoffset : q'.nSendOffset = 0)
    (hsize : q'.nSendSize = q.nSendSize-BitVec.ofNat 64 data.length)
    (htaken : q'.taken = q.taken ++ data.drop q.nSendOffset.toNat) :
    Streams stream q' rest := by
  have hsizes := (List.forall_mem_cons.mp h.sizes).2
  refine ⟨hsizes,?_,fun first hfirst => ?_,fun _ => hoffset,?_⟩
  · rw [hsize,h.total,List.flatten_cons,List.length_append,BitVec.ofNat_add,BitVec.add_comm,
      BitVec.add_sub_cancel]
  · rw [hoffset]
    exact List.length_pos_of_ne_nil (hsizes first (List.mem_of_mem_head? hfirst)).1
  · have hstream := h.stream
    rw [h.drop_eq] at hstream
    rw [htaken,hoffset]
    simpa using hstream

theorem sendLoop_spec (socket : Socket) (nTime : Int) (i : Nat) (h : Streams stream q rest) :
    ∃ q' rest', q.sendLoop socket nTime i rest = some (q',rest') ∧ Streams stream q' rest' := by
  induction rest generalizing q i with
  | nil => exact ⟨q,[],rfl,h⟩
  | cons data rest ih =>
    have hfits := (h.sizes data List.mem_cons_self).2
    have hlt := h.inside data rfl
    have hsize := toNat_size hfits
    have hbytes : (data.drop q.nSendOffset.toNat).take
        ((BitVec.ofNat 64 data.length : Uint64)-q.nSendOffset).toNat =
          data.drop q.nSendOffset.toNat := by
      refine List.take_of_length_le ?_
      rw [List.length_drop,BitVec.toNat_sub_of_le (by rw [BitVec.le_def]; omega),hsize]
    rw [SendQueue.sendLoop]
    simp only [hbytes]
    rw [if_pos (by rw [gt_iff_lt,BitVec.lt_def]; omega)]
    cases hsend : socket.send i (data.drop q.nSendOffset.toNat) with
    | failed nErr => exact ⟨_,_,rfl,h.sizes,h.total,h.inside,h.start,h.stream⟩
    | sent nBytes =>
      have hle := socket.bounded i _ nBytes hsend
      rw [List.length_drop] at hle
      have hsum : (q.nSendOffset+BitVec.ofNat 64 nBytes).toNat = q.nSendOffset.toNat+nBytes := by
        rw [BitVec.toNat_add,BitVec.toNat_ofNat,Nat.add_mod_mod,Nat.mod_eq_of_lt (by omega)]
      have hend : q.nSendOffset+BitVec.ofNat 64 nBytes = BitVec.ofNat 64 data.length ↔
          q.nSendOffset.toNat+nBytes = data.length := by
        rw [← BitVec.toNat_inj,hsum,hsize]
      simp only [hend]
      by_cases hpos : nBytes > 0
      · rw [if_pos hpos]
        by_cases hall : q.nSendOffset.toNat+nBytes = data.length
        · rw [if_pos hall]
          refine ih (i+1) (h.next rfl rfl ?_)
          exact congrArg _ (List.take_of_length_le (by rw [List.length_drop]; omega))
        · rw [if_neg hall]
          exact ⟨_,_,rfl,h.advance (by omega) rfl rfl rfl⟩
      · rw [if_neg hpos]
        exact ⟨q,_,rfl,h⟩

theorem socketSendData_spec (socket : Socket) (nTime : Int) (h : Streams stream q q.vSendMsg) :
    ∃ q', q.socketSendData socket nTime = some q' ∧ Streams stream q' q'.vSendMsg := by
  obtain ⟨q',rest,hloop,hq'⟩ := sendLoop_spec socket nTime 0 h
  refine ⟨{ q' with vSendMsg := rest },?_,hq'.sizes,hq'.total,hq'.inside,hq'.start,hq'.stream⟩
  rw [SendQueue.socketSendData,hloop]
  simp only [Option.bind_eq_bind,Option.bind_some]
  refine if_neg fun hfail => ?_
  obtain ⟨hnil,hassert⟩ := hfail
  refine hassert ⟨hq'.start hnil,?_⟩
  rw [hq'.total,hnil]
  rfl

theorem setSizeAndChecksum_spec (hash : List UInt8 → Uint256) {ssSend : CSerializeData}
    (h : 24 ≤ ssSend.length) : ∃ data, setSizeAndChecksum hash ssSend = some data ∧
      data.length = ssSend.length := by
  obtain ⟨mid,hsize,hmid,-⟩ := @memcpy_eq_some ssSend 16
    (littleEndian 4 (BitVec.ofNat 32 (ssSend.length-24) : Uint32).toNat) 4 (by omega)
    (by rw [littleEndian_length])
  obtain ⟨data,hchecksum,hdata,-⟩ := @memcpy_eq_some mid 20
    (littleEndian 4 ((hash (mid.drop 24)).setWidth 32).toNat) 4 (by omega)
    (by rw [littleEndian_length])
  refine ⟨data,?_,hdata.trans hmid⟩
  rw [setSizeAndChecksum,hsize]
  simp only [Option.bind_eq_bind,Option.bind_some]
  rw [if_pos (by omega),hchecksum]

/-- A message is added behind the others. -/
theorem Streams.enqueue (h : Streams stream q q.vSendMsg) (hne : data ≠ [])
    (hfits : data.length < 2^64) : Streams (stream ++ data) { q with
      vSendMsg := q.vSendMsg ++ [data]
      nSendSize := q.nSendSize+BitVec.ofNat 64 data.length } (q.vSendMsg ++ [data]) := by
  have hle : q.nSendOffset.toNat ≤ q.vSendMsg.flatten.length := by
    cases hmsgs : q.vSendMsg with
    | nil =>
      rw [h.start hmsgs]
      exact Nat.zero_le _
    | cons first rest =>
      have hlt := h.inside first (by rw [hmsgs]; rfl)
      rw [List.flatten_cons,List.length_append]
      omega
  refine ⟨?_,?_,?_,fun hnil => ?_,?_⟩
  · exact List.forall_mem_append.mpr ⟨h.sizes,List.forall_mem_singleton.mpr ⟨hne,hfits⟩⟩
  · rw [h.total,List.flatten_append,List.length_append,BitVec.ofNat_add]
    simp
  · intro first hfirst
    cases hmsgs : q.vSendMsg with
    | nil =>
      rw [hmsgs] at hfirst
      obtain rfl := Option.some.inj hfirst
      rw [h.start hmsgs]
      exact List.length_pos_of_ne_nil hne
    | cons other rest =>
      rw [hmsgs] at hfirst
      exact h.inside first (by rw [hmsgs]; exact hfirst)
  · simp at hnil
  · rw [List.flatten_append,List.drop_append_of_le_length hle,← List.append_assoc,h.stream]
    simp

theorem step_spec (pchMessageStart : Vector UInt8 4) (hash : List UInt8 → Uint256)
    (h : Streams stream q q.vSendMsg) (e : SendEvent) : ∃ q', q.step pchMessageStart hash e = some q' ∧
      Streams (stream ++ (e.message pchMessageStart hash).getD []) q' q'.vSendMsg := by
  cases e with
  | socketSendData socket nTime =>
    obtain ⟨q',hsend,hq'⟩ := socketSendData_spec socket nTime h
    exact ⟨q',hsend,by simpa [SendEvent.message] using hq'⟩
  | pushMessage pszCommand payload socket nTime =>
    have hfits := payload.fits
    have hlen : (beginMessage pchMessageStart pszCommand ++ payload.bytes).length =
        24+payload.bytes.length := by
      simp [beginMessage,length_resize,littleEndian_length]
      omega
    obtain ⟨data,hdata,hsize⟩ := @setSizeAndChecksum_spec hash
      (beginMessage pchMessageStart pszCommand ++ payload.bytes) (by omega)
    have hadded := @h.enqueue _ _ data (List.ne_nil_of_length_pos (by omega)) (by omega)
    rw [SendQueue.step,SendQueue.endMessage,if_neg (by omega),SendEvent.message,hdata]
    simp only [Option.bind_eq_bind,Option.bind_some,Option.getD_some]
    split
    · exact socketSendData_spec socket nTime hadded
    · exact ⟨_,rfl,hadded⟩

/-- No byte is lost or sent twice: after every run what the socket has taken and what is left make
up the messages in their order. -/
theorem run_streams (pchMessageStart : Vector UInt8 4) (hash : List UInt8 → Uint256)
    (events : List SendEvent) : ∃ q, SendQueue.new.run pchMessageStart hash events = some q ∧
      Streams (events.filterMap (SendEvent.message pchMessageStart hash)).flatten q q.vSendMsg := by
  induction events using List.reverseRecOn with
  | nil => exact ⟨SendQueue.new,rfl,by simp [SendQueue.new],rfl,by simp [SendQueue.new],fun _ => rfl,rfl⟩
  | append_singleton events e ih =>
    obtain ⟨q,hrun,hq⟩ := ih
    obtain ⟨q',hstep,hq'⟩ := step_spec pchMessageStart hash hq e
    refine ⟨q',?_,?_⟩
    · rw [SendQueue.run,List.foldlM_append] at *
      rw [hrun]
      simpa using hstep
    · rw [List.filterMap_append,List.flatten_append]
      cases hmessage : e.message pchMessageStart hash with
      | none => simpa [hmessage] using hq'
      | some data => simpa [hmessage] using hq'

/-- Whatever the socket takes, no assertion fails, it has been given a prefix of the messages in
their order, and the counters are those of the messages that are left. -/
theorem partial_sends (pchMessageStart : Vector UInt8 4) (hash : List UInt8 → Uint256)
    (events : List SendEvent) : ∃ q, SendQueue.new.run pchMessageStart hash events = some q ∧
      q.taken <+: (events.filterMap (SendEvent.message pchMessageStart hash)).flatten ∧
      q.nSendSize = BitVec.ofNat 64 q.vSendMsg.flatten.length ∧
      (q.vSendMsg.flatten.length < 2^64 → q.nSendSize.toNat = q.vSendMsg.flatten.length) ∧
      ∀ data ∈ q.vSendMsg.head?, q.nSendOffset.toNat < data.length := by
  obtain ⟨q,hrun,hq⟩ := run_streams pchMessageStart hash events
  refine ⟨q,hrun,⟨_,hq.stream⟩,hq.total,fun hfits => ?_,hq.inside⟩
  rw [hq.total]
  exact toNat_size hfits

end Stream

end Anoncoin
