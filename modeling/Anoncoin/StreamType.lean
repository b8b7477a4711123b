import Anoncoin.Block

/-!
The version and verack messages of main.cpp and the stream types of net.h: whether
addresses go to and come from a peer with or without their I2P destination.
-/

set_option autoImplicit false

namespace Anoncoin

def SER_NETWORK : Uint32 := 1#32 <<< 0

def SER_IPADDRONLY : Uint32 := 1#32 <<< 18

def NODE_I2P : Uint64 := 1#64 <<< 7

def MIN_PEER_PROTO_VERSION : Int := 70006

def MIN_PEER_PROTO_VERSION_AFTER_HF : Int := 70010

def MIN_PEER_PROTO_VERSION_AFTER_HF2 : Int := 70012

/-- The size of a `CAddress` on a stream of type `SER_NETWORK`: services, ip, I2P
destination and port. -/
def nAddrWithI2P : Nat := 8+16+516+2

/-- The fields of `CNode` that the handshake decides on, and whether a verack has been
processed. -/
structure PeerNode where
  fNativeI2P : Bool
  fI2P : Bool
  nVersion : Int
  nServices : Uint64
  nStreamType : Uint32
  nSendStreamType : Uint32
  nRecvStreamType : Uint32
  fSuccessfullyConnected : Bool
  fDisconnect : Bool
  fVerack : Bool
  deriving DecidableEq, Repr

/-- How far the version handler gets: an exception while the first fields are read
(before or after the services), one at the first address, a rejection or an exception
after that, or the end. -/
inductive VersionEnd where
  | header (fServices : Bool)
  | addrMe
  | rest (fDisconnect : Bool)
  | done
  deriving DecidableEq, Repr

/-- What the handler takes from a version message; `nRemaining` is what is left of it
after the first fields. -/
structure VersionMessage where
  nVersion : Int
  nServices : Uint64
  nRemaining : Nat
  ending : VersionEnd
  deriving DecidableEq, Repr

/-- A version message comes with the height of the active chain at that time. -/
inductive PeerMessage where
  | version (m : VersionMessage) (nHeight : Nat)
  | verack
  deriving DecidableEq, Repr

namespace PeerNode

/-- A new connection with the given stream type. -/
def new (nStreamType : Uint32) (fNativeI2P fI2P : Bool) : PeerNode :=
  ⟨fNativeI2P,fI2P,0,0,nStreamType,nStreamType,nStreamType,false,false,false⟩

def setSendStreamType (n : PeerNode) (nType : Uint32) : PeerNode :=
  { n with nSendStreamType := nType }

def setRecvStreamType (n : PeerNode) (nType : Uint32) : PeerNode :=
  { n with nRecvStreamType := nType }

def setStreamType (n : PeerNode) (nType : Uint32) : PeerNode :=
  ({ n with nStreamType := nType }.setSendStreamType nType).setRecvStreamType nType

/-- The conditional operator binds less tightly than the bitwise or in front of it. -/
def setStreamTypeBasedOnServices (n : PeerNode) : PeerNode :=
  n.setStreamType
    (if SER_NETWORK.setWidth 64 ||| (n.nServices &&& NODE_I2P) ≠ 0 then 0 else SER_IPADDRONLY)

/-- The mask that the version and the verack handler put on a stream type. -/
def addressMask (nServices : Uint64) : Uint32 :=
  if nServices &&& NODE_I2P ≠ 0 then ~~~SER_IPADDRONLY else SER_IPADDRONLY

/-- `nVersion < 70009` on a connection that is not over I2P. -/
def isOldClearnet (n : PeerNode) : Bool := n.nVersion < 70009 && !n.fNativeI2P

def isObsolete (nVersion : Int) (nHeight : Nat) : Bool :=
  nVersion < MIN_PEER_PROTO_VERSION ||
    (nVersion < MIN_PEER_PROTO_VERSION_AFTER_HF && nDifficultySwitchHeight4 < nHeight) ||
    (nVersion < MIN_PEER_PROTO_VERSION_AFTER_HF2 && nDifficultySwitchHeight5 < nHeight)

/-- The stream type of a message that is too long for ip addresses. -/
def switchToFull (n : PeerNode) (nRemaining : Nat) : PeerNode :=
  if n.isOldClearnet && nAddrWithI2P*2 < nRemaining then n.setStreamType SER_NETWORK else n

/-- The send stream of older protocols; 70006 announces a service it does not have. -/
def adjustSend (n : PeerNode) : PeerNode :=
  if n.isOldClearnet then
    if n.nVersion = 70006 then { n with nServices := n.nServices &&& ~~~NODE_I2P }
    else n.setSendStreamType (n.nSendStreamType &&& addressMask n.nServices)
  else n

/-- Both streams from protocol 70009 on. -/
def adjustBoth (n : PeerNode) : PeerNode :=
  if 70009 ≤ n.nVersion then
    let n := n.setStreamTypeBasedOnServices
    if n.fI2P && n.nServices &&& NODE_I2P == 0 then { n with nServices := n.nServices ||| NODE_I2P }
    else n
  else n

def processVersion (n : PeerNode) (m : VersionMessage) (nHeight : Nat) : PeerNode :=
  if n.nVersion ≠ 0 then n
  else
    match m.ending with
    | .header fServices => { n with
        nVersion := m.nVersion, nServices := if fServices then m.nServices else n.nServices }
    | ending =>
        let n : PeerNode := { n with nVersion := m.nVersion, nServices := m.nServices }
        if isObsolete m.nVersion nHeight then { n with fDisconnect := true }
        else
          let n := n.switchToFull m.nRemaining
          match ending with
          | .header _ | .addrMe => n
          | .rest fDisconnect => { n with fDisconnect := fDisconnect }
          | .done => { n.adjustSend.adjustBoth with fSuccessfullyConnected := true }

def processVerack (n : PeerNode) : PeerNode :=
  if n.nVersion = 0 then n
  else
    let n : PeerNode := { n with fVerack := true }
    if n.isOldClearnet && n.nVersion ≠ 70006 then
      n.setRecvStreamType (n.nRecvStreamType &&& addressMask n.nServices)
    else n

def processMessage (n : PeerNode) (msg : PeerMessage) : PeerNode :=
  if n.fDisconnect then n
  else
    match msg with
    | .version m nHeight => n.processVersion m nHeight
    | .verack => n.processVerack

def processMessages (n : PeerNode) (msgs : List PeerMessage) : PeerNode :=
  msgs.foldl processMessage n

/-- The version message has been taken in to its end, and a verack has come. -/
def handshakeComplete (n : PeerNode) : Bool := n.fSuccessfullyConnected && n.fVerack

/-- Both stream types are network types, and leave out the I2P destination exactly when
the peer does not offer the service. -/
structure Negotiated (n : PeerNode) : Prop where
  send : n.nSendStreamType &&& SER_NETWORK ≠ 0
  recv : n.nRecvStreamType &&& SER_NETWORK ≠ 0
  sendAddress : n.nSendStreamType &&& SER_IPADDRONLY ≠ 0 ↔ n.nServices &&& NODE_I2P = 0
  recvAddress : n.nRecvStreamType &&& SER_IPADDRONLY ≠ 0 ↔ n.nServices &&& NODE_I2P = 0

/-- Whatever the services are, the type is zero. -/
theorem setStreamTypeBasedOnServices_eq (n : PeerNode) :
    n.setStreamTypeBasedOnServices = n.setStreamType 0 := by
  unfold setStreamTypeBasedOnServices
  rw [if_pos]
  intro h
  have hbit := congrArg (fun x : Uint64 => x.getLsbD 0) h
  simp [SER_NETWORK] at hbit

theorem mask_offered {t : Uint32} {s : Uint64} (hs : s &&& NODE_I2P ≠ 0)
    (ht : t &&& SER_NETWORK ≠ 0) :
    (t &&& addressMask s) &&& SER_NETWORK ≠ 0 ∧ (t &&& addressMask s) &&& SER_IPADDRONLY = 0 := by
  unfold addressMask
  rw [if_pos hs,BitVec.and_assoc,BitVec.and_assoc]
  have h₁ : ~~~SER_IPADDRONLY &&& SER_NETWORK = SER_NETWORK := by decide
  have h₂ : ~~~SER_IPADDRONLY &&& SER_IPADDRONLY = 0 := by decide
  rw [h₁,h₂]
  exact ⟨ht,BitVec.and_zero⟩

theorem mask_notOffered {t : Uint32} {s : Uint64} (hs : s &&& NODE_I2P = 0) :
    (t &&& addressMask s) &&& SER_NETWORK = 0 := by
  unfold addressMask
  rw [if_neg (by simpa using hs),BitVec.and_assoc]
  have h : SER_IPADDRONLY &&& SER_NETWORK = 0 := by decide
  rw [h]
  exact BitVec.and_zero

theorem mask_mask (t : Uint32) (s : Uint64) :
    (t &&& addressMask s) &&& addressMask s = t &&& addressMask s := by
  rw [BitVec.and_assoc,BitVec.and_self]

/-- The peer has announced this version and these services. -/
def Announced (msgs : List PeerMessage) (nVersion : Int) (nServices : Uint64) : Prop :=
  ∃ m nHeight, .version m nHeight ∈ msgs ∧ m.nVersion = nVersion ∧ m.nServices = nServices

/-- A clearnet connection: what is known before the version message, after one that was
not taken in to its end, and after one that was. -/
inductive Phase (msgs : List PeerMessage) (n : PeerNode) : Prop where
  | start : n.nVersion = 0 → n.fSuccessfullyConnected = false → n.fVerack = false →
      n.nSendStreamType &&& SER_NETWORK ≠ 0 → n.nRecvStreamType &&& SER_NETWORK ≠ 0 → Phase msgs n
  | stuck : n.nVersion ≠ 0 ∨ n.fDisconnect = true → n.fSuccessfullyConnected = false →
      Phase msgs n
  | full : Announced msgs n.nVersion n.nServices → 70009 ≤ n.nVersion →
      n.nSendStreamType = 0 → n.nRecvStreamType = 0 → Phase msgs n
  | old (t u : Uint32) : Announced msgs n.nVersion n.nServices → n.nVersion ≠ 0 →
      n.nVersion < 70009 → n.nVersion ≠ 70006 →
      t &&& SER_NETWORK ≠ 0 → u &&& SER_NETWORK ≠ 0 →
      n.nSendStreamType = t &&& addressMask n.nServices →
      n.nRecvStreamType = (if n.fVerack then u &&& addressMask n.nServices else u) → Phase msgs n
  | liar : n.nVersion = 70006 → Phase msgs n

/-- The rest of the connection is decided on clearnet. -/
def Clearnet (n : PeerNode) : Prop := n.fNativeI2P = false ∧ n.fI2P = false

variable {n : PeerNode} {msgs : List PeerMessage}

theorem Announced.append {nVersion : Int} {nServices : Uint64}
    (h : Announced msgs nVersion nServices) (msg : PeerMessage) :
    Announced (msgs ++ [msg]) nVersion nServices := by
  obtain ⟨m,nHeight,hm,hv,hs⟩ := h
  exact ⟨m,nHeight,by simp [hm],hv,hs⟩

theorem Phase.append (h : Phase msgs n) (msg : PeerMessage) : Phase (msgs ++ [msg]) n := by
  cases h with
  | start hv hc hk hs hr => exact .start hv hc hk hs hr
  | stuck hv hc => exact .stuck hv hc
  | full ha hv hs hr => exact .full (ha.append msg) hv hs hr
  | old t u ha h₀ h9 h6 ht hu hs hr => exact .old t u (ha.append msg) h₀ h9 h6 ht hu hs hr
  | liar hv => exact .liar hv

theorem switchToFull_cases (n : PeerNode) (nRemaining : Nat) :
    n.switchToFull nRemaining = n ∨ n.switchToFull nRemaining = n.setStreamType SER_NETWORK := by
  unfold switchToFull
  split
  · exact .inr rfl
  · exact .inl rfl

theorem adjustBoth_old (h : n.nVersion < 70009) : n.adjustBoth = n := by
  unfold adjustBoth
  rw [if_neg (by omega)]

theorem adjustBoth_full (h : 70009 ≤ n.nVersion) (hi2p : n.fI2P = false) :
    n.adjustBoth = n.setStreamType 0 := by
  unfold adjustBoth
  rw [if_pos h]
  simp only [setStreamTypeBasedOnServices_eq]
  rw [if_neg]
  simp [setStreamType,setSendStreamType,setRecvStreamType,hi2p]

/-- A version message that is taken in to its end leaves the start for good. -/
theorem phase_done (hc : n.Clearnet) (ha : Announced msgs n.nVersion n.nServices)
    (hv : n.nVersion ≠ 0) (hverack : n.fVerack = false)
    (hs : n.nSendStreamType &&& SER_NETWORK ≠ 0) (hr : n.nRecvStreamType &&& SER_NETWORK ≠ 0) :
    Phase msgs { n.adjustSend.adjustBoth with fSuccessfullyConnected := true } := by
  obtain ⟨hnative,hi2p⟩ := hc
  by_cases h9 : n.nVersion < 70009
  · have hold : n.isOldClearnet = true := by simp [isOldClearnet,h9,hnative]
    by_cases h6 : n.nVersion = 70006
    · have hadj : n.adjustSend = { n with nServices := n.nServices &&& ~~~NODE_I2P } := by
        simp [adjustSend,hold,h6]
      have hboth : n.adjustSend.adjustBoth = n.adjustSend := adjustBoth_old (by rw [hadj]; exact h9)
      rw [hboth,hadj]
      exact .liar h6
    · have hadj : n.adjustSend =
          n.setSendStreamType (n.nSendStreamType &&& addressMask n.nServices) := by
        simp [adjustSend,hold,h6]
      have hboth : n.adjustSend.adjustBoth = n.adjustSend := adjustBoth_old (by rw [hadj]; exact h9)
      rw [hboth,hadj]
      exact .old _ _ ha hv h9 h6 hs hr rfl (by simp [setSendStreamType,hverack])
  · have hadj : n.adjustSend = n := by simp [adjustSend,isOldClearnet,h9]
    rw [hadj,adjustBoth_full (by omega) hi2p]
    exact .full ha (by simp only [setStreamType,setSendStreamType,setRecvStreamType]; omega) rfl rfl

theorem isObsolete_zero (nHeight : Nat) : isObsolete 0 nHeight = true := by
  simp [isObsolete,MIN_PEER_PROTO_VERSION]

/-- The first version message. -/
theorem processVersion_start (hc : n.Clearnet) (hv : n.nVersion = 0)
    (hf : n.fSuccessfullyConnected = false) (hk : n.fVerack = false)
    (hs : n.nSendStreamType &&& SER_NETWORK ≠ 0) (hr : n.nRecvStreamType &&& SER_NETWORK ≠ 0)
    (m : VersionMessage) (nHeight : Nat) :
    Phase (msgs ++ [.version m nHeight]) (n.processVersion m nHeight) := by
  unfold processVersion
  rw [if_neg (by simp [hv])]
  by_cases hobs : isObsolete m.nVersion nHeight = true
  · cases he : m.ending with
    | header fServices =>
      by_cases h₀ : m.nVersion = 0
      · exact .start h₀ hf hk hs hr
      · exact .stuck (.inl h₀) hf
    | addrMe | rest | done =>
      simp only [hobs,if_true]
      exact .stuck (.inr rfl) hf
  · have h₀ : m.nVersion ≠ 0 := by
      intro h₀
      rw [h₀,isObsolete_zero] at hobs
      exact hobs rfl
    have hswitch := switchToFull_cases
      { n with nVersion := m.nVersion, nServices := m.nServices } m.nRemaining
    have hann : Announced (msgs ++ [.version m nHeight]) m.nVersion m.nServices :=
      ⟨m,nHeight,by simp,rfl,rfl⟩
    cases he : m.ending with
    | header fServices => exact .stuck (.inl h₀) hf
    | addrMe | rest =>
      simp only [hobs,Bool.false_eq_true,if_false]
      rcases hswitch with hsw | hsw <;> rw [hsw] <;> exact .stuck (.inl h₀) hf
    | done =>
      simp only [hobs,Bool.false_eq_true,if_false]
      rcases hswitch with hsw | hsw
      · rw [hsw]
        exact phase_done hc hann h₀ hk hs hr
      · rw [hsw]
        have hnet : SER_NETWORK &&& SER_NETWORK ≠ 0 := by decide
        exact phase_done (n := setStreamType
          { n with nVersion := m.nVersion, nServices := m.nServices } SER_NETWORK)
          hc hann h₀ hk hnet hnet

theorem processVerack_phase (hc : n.Clearnet) (hv : n.nVersion ≠ 0) (h : Phase msgs n) :
    Phase msgs n.processVerack := by
  unfold processVerack
  rw [if_neg hv]
  simp only
  split
  · rename_i hold
    cases h with
    | start h₀ => exact absurd h₀ hv
    | stuck hor hf => exact .stuck (.inl hv) hf
    | full _ h9 =>
      simp only [isOldClearnet,Bool.and_eq_true,decide_eq_true_eq] at hold
      omega
    | old t u ha h₀ h9 h6 ht hu hs hr =>
      refine .old t u ha h₀ h9 h6 ht hu hs ?_
      simp only [setRecvStreamType,if_true,hr]
      split
      · exact mask_mask u _
      · rfl
    | liar h6 => exact .liar h6
  · rename_i hold
    cases h with
    | start h₀ => exact absurd h₀ hv
    | stuck hor hf => exact .stuck (.inl hv) hf
    | full ha h9 hs hr => exact .full ha h9 hs hr
    | old t u ha h₀ h9 h6 =>
      simp [isOldClearnet,h9,h6,hc.1] at hold
    | liar h6 => exact .liar h6

theorem processMessage_phase (hc : n.Clearnet) (h : Phase msgs n) (msg : PeerMessage) :
    Phase (msgs ++ [msg]) (n.processMessage msg) := by
  unfold processMessage
  by_cases hd : n.fDisconnect = true
  · rw [if_pos hd]
    exact h.append msg
  · rw [if_neg hd]
    cases msg with
    | version m nHeight =>
      by_cases hv : n.nVersion = 0
      · cases h with
        | start _ hf hk hs hr => exact processVersion_start hc hv hf hk hs hr m nHeight
        | stuck hor => exact absurd hor (by simp [hv,hd])
        | full _ h9 => omega
        | old t u _ h₀ => exact absurd hv h₀
        | liar h6 => omega
      · simp only [processVersion,ne_eq,hv,not_false_eq_true,if_true]
        exact h.append _
    | verack =>
      by_cases hv : n.nVersion = 0
      · simp only [processVerack,hv,if_true]
        exact h.append _
      · exact processVerack_phase hc hv (h.append _)

theorem adjustSend_clearnet (h : n.Clearnet) : n.adjustSend.Clearnet := by
  unfold adjustSend
  split
  · split
    · exact h
    · exact h
  · exact h

theorem adjustBoth_clearnet (h : n.Clearnet) : n.adjustBoth.Clearnet := by
  by_cases h9 : n.nVersion < 70009
  · rw [adjustBoth_old h9]
    exact h
  · rw [adjustBoth_full (by omega) h.2]
    exact h

theorem switchToFull_clearnet (h : n.Clearnet) (nRemaining : Nat) :
    (n.switchToFull nRemaining).Clearnet := by
  rcases n.switchToFull_cases nRemaining with hsw | hsw
  · rw [hsw]
    exact h
  · rw [hsw]
    exact h

theorem processVersion_clearnet (h : n.Clearnet) (m : VersionMessage) (nHeight : Nat) :
    (n.processVersion m nHeight).Clearnet := by
  have hsw : (switchToFull { n with nVersion := m.nVersion, nServices := m.nServices }
    m.nRemaining).Clearnet := switchToFull_clearnet (n := { n with
      nVersion := m.nVersion, nServices := m.nServices }) h m.nRemaining
  unfold processVersion
  by_cases hv : n.nVersion ≠ 0
  · rw [if_pos hv]
    exact h
  · rw [if_neg hv]
    by_cases hobs : isObsolete m.nVersion nHeight = true
    · cases m.ending with
      | header fServices => exact h
      | addrMe | rest | done =>
        simp only [hobs,if_true]
        exact h
    · cases m.ending with
      | header fServices => exact h
      | addrMe | rest =>
        simp only [hobs,Bool.false_eq_true,if_false]
        exact hsw
      | done =>
        simp only [hobs,Bool.false_eq_true,if_false]
        exact adjustBoth_clearnet (adjustSend_clearnet hsw)

theorem processVerack_clearnet (h : n.Clearnet) : n.processVerack.Clearnet := by
  unfold processVerack
  by_cases hv : n.nVersion = 0
  · rw [if_pos hv]
    exact h
  · rw [if_neg hv]
    simp only
    split
    · exact h
    · exact h

theorem processMessage_clearnet (h : n.Clearnet) (msg : PeerMessage) :
    (n.processMessage msg).Clearnet := by
  unfold processMessage
  by_cases hd : n.fDisconnect = true
  · rw [if_pos hd]
    exact h
  · rw [if_neg hd]
    cases msg with
    | version m nHeight => exact processVersion_clearnet h m nHeight
    | verack => exact processVerack_clearnet h

theorem processMessages_phase (hc : n.Clearnet) {past : List PeerMessage} (h : Phase past n)
    (msgs : List PeerMessage) : Phase (past ++ msgs) (n.processMessages msgs) := by
  induction msgs generalizing n past with
  | nil => simpa [processMessages] using h
  | cons msg rest ih =>
    have hnext := ih (processMessage_clearnet hc msg) (processMessage_phase hc h msg)
    rw [List.append_assoc,List.singleton_append] at hnext
    exact hnext

/-- The stream types of a clearnet peer end up as they should exactly for protocols
below 70009 that offer the I2P service. -/
theorem negotiated_iff (nStreamType : Uint32) (htype : nStreamType &&& SER_NETWORK ≠ 0)
    (msgs : List PeerMessage)
    (hdone : ((new nStreamType false false).processMessages msgs).handshakeComplete = true)
    (h6 : ((new nStreamType false false).processMessages msgs).nVersion ≠ 70006) :
    ∃ m nHeight, .version m nHeight ∈ msgs ∧
      ((new nStreamType false false).processMessages msgs).nVersion = m.nVersion ∧
      ((new nStreamType false false).processMessages msgs).nServices = m.nServices ∧
      (((new nStreamType false false).processMessages msgs).Negotiated ↔
        m.nVersion < 70009 ∧ m.nServices &&& NODE_I2P ≠ 0) := by
  have hstart : Phase [] (new nStreamType false false) := .start rfl rfl rfl htype htype
  have hphase := processMessages_phase (n := new nStreamType false false) ⟨rfl,rfl⟩ hstart msgs
  rw [List.nil_append] at hphase
  obtain ⟨hsucc,hverack⟩ := Bool.and_eq_true_iff.mp hdone
  generalize (new nStreamType false false).processMessages msgs = n at hphase hsucc hverack h6 ⊢
  cases hphase with
  | start _ hf =>
    rw [hsucc] at hf
    contradiction
  | stuck _ hf =>
    rw [hsucc] at hf
    contradiction
  | full ha h9 hs hr =>
    obtain ⟨m,nHeight,hm,hv,hserv⟩ := ha
    refine ⟨m,nHeight,hm,hv.symm,hserv.symm,?_⟩
    constructor
    · intro hneg
      have hsend := hneg.send
      rw [hs] at hsend
      exact absurd BitVec.zero_and hsend
    · rintro ⟨hlt,-⟩
      omega
  | old t u ha h₀ h9 _ ht hu hs hr =>
    obtain ⟨m,nHeight,hm,hv,hserv⟩ := ha
    refine ⟨m,nHeight,hm,hv.symm,hserv.symm,?_⟩
    rw [hverack,if_pos rfl] at hr
    rw [hv,hserv]
    by_cases hi2p : n.nServices &&& NODE_I2P = 0
    · constructor
      · intro hneg
        have hsend := hneg.send
        rw [hs,mask_notOffered hi2p] at hsend
        exact absurd rfl hsend
      · rintro ⟨-,hoff⟩
        exact absurd hi2p hoff
    · obtain ⟨hs₁,hs₂⟩ := mask_offered hi2p ht
      obtain ⟨hr₁,hr₂⟩ := mask_offered hi2p hu
      rw [← hs] at hs₁ hs₂
      rw [← hr] at hr₁ hr₂
      have hno : ∀ x : Uint32, x = 0 → (x ≠ 0 ↔ n.nServices &&& NODE_I2P = 0) :=
        fun x hx => ⟨fun hne => absurd hx hne,fun he => absurd he hi2p⟩
      exact ⟨fun _ => ⟨h9,hi2p⟩,fun _ => ⟨hs₁,hr₁,hno _ hs₂,hno _ hr₂⟩⟩
  | liar hv => exact absurd hv h6

/-- The type that a clearnet connection starts with. -/
def clearnetType : Uint32 := SER_NETWORK ||| SER_IPADDRONLY

/-- Protocol 70008 with the I2P service. -/
def offering : List PeerMessage := [.version ⟨70008,129,86,.done⟩ 0,.verack]

theorem negotiated_offering :
    ((new clearnetType false false).processMessages offering).Negotiated := by
  obtain ⟨m,nHeight,hm,-,-,hiff⟩ := negotiated_iff clearnetType (by decide) offering (by decide)
    (by decide)
  simp only [offering,List.mem_cons,PeerMessage.version.injEq,reduceCtorEq,List.not_mem_nil,
    or_false] at hm
  rw [hiff,hm.1]
  decide

/-- Protocol 70012 without the I2P service: neither stream is a network stream any more,
and both take full destinations. -/
theorem stream_types_zero :
    let n := (new clearnetType false false).processMessages [.version ⟨70012,1,86,.done⟩ 0,.verack]
    n.handshakeComplete = true ∧ n.nServices &&& NODE_I2P = 0 ∧
      n.nSendStreamType &&& SER_NETWORK = 0 ∧ n.nSendStreamType &&& SER_IPADDRONLY = 0 ∧
      n.nRecvStreamType &&& SER_NETWORK = 0 ∧ n.nRecvStreamType &&& SER_IPADDRONLY = 0 := by
  decide

end PeerNode

end Anoncoin
