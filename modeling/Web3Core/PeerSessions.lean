/-
The sessions of a host.  `Session::drop` ends a session, whose object is there
until the handlers of its reads and writes have run and nobody else points to
it.  The host has weak pointers to its sessions; it starts a session unless it
is connected to the same node already or has no slot for it.
-/
import Mathlib.Data.List.AList
import Web3Core.HostRun
import Web3Core.Session

namespace Web3Core

/-- The value of the enumerator. -/
def DisconnectReason.code : DisconnectReason → UInt32
  | disconnectRequested => 0
  | tcpError => 1
  | badProtocol => 2
  | uselessPeer => 3
  | tooManyPeers => 4
  | duplicatePeer => 5
  | incompatibleProtocol => 6
  | nullIdentity => 7
  | clientQuit => 8
  | unexpectedIdentity => 9
  | localIdentity => 10
  | pingTimeout => 11
  | userReason => 0x10
  | noDisconnect => 0xffff

/-- The read that is under way. -/
inductive ReadPhase where
  | header
  | frame
deriving DecidableEq

/-- A session, as far as its life goes.  The handlers of the read and of the
write under way point to it, and so do `held` others; it is gone when nobody
does.  Its peer is known by its place among the peers that were made. -/
structure PeerSession where
  id : NodeID
  peer : Nat
  isOpen : Bool := true
  dropped : Bool := false
  reading : Option ReadPhase := none
  writeQueue : Nat := 0
  writing : Bool := false
  held : Nat := 0
  gone : Bool := false
deriving DecidableEq

/-- What `checkRead` finds wrong with a read. -/
inductive ReadFailure where
  | failed
  | abrupt
  | wrongLength
deriving DecidableEq

/-- What a capability does with a session. -/
inductive SessionCall where
  | send
  | disconnect (reason : DisconnectReason)
  | addRating (rating : Int32)
deriving DecidableEq

/-- A packet: one that asks for a disconnect, with or without a number as its
reason; a ping; one that nothing is done for; or one that is interpreted by a
capability, which may throw. -/
inductive SessionPacket where
  | requested (isInt : Bool)
  | ping
  | ignored
  | interpreted (calls : List SessionCall) (threw : Bool)
deriving DecidableEq

/-- What the handler of the read of a header comes to. -/
inductive HeaderRead where
  | failure (f : ReadFailure)
  | refused
  | threw
  | accepted
deriving DecidableEq

/-- What the handler of the read of a frame comes to. -/
inductive FrameRead where
  | failure (f : ReadFailure)
  | refused
  | threw
  | notPacket
  | packet (p : SessionPacket)
deriving DecidableEq

namespace PeerSession

/-- `send` of a message; the one that is alone in the queue is written. -/
def send (s : PeerSession) : PeerSession :=
  if !s.isOpen then s
  else if s.writeQueue = 0 then { s with writeQueue := 1, writing := true }
  else { s with writeQueue := s.writeQueue + 1 }

/-- `drop`.  In a debug build the log asks the socket for its remote endpoint
before it is closed, which throws if that is not `known` any more; the exception
is caught and the socket left open. -/
def drop (known : Bool) (reason : DisconnectReason) (r : PeerSession × Peer) :
    PeerSession × Peer :=
  if r.1.dropped then r
  else
    ({ r.1 with isOpen := r.1.isOpen && !known, dropped := true },
      { r.2 with
        lastDisconnect := reason.code
        rating := if reason = .badProtocol then r.2.rating / 2 else r.2.rating
        score := if reason = .badProtocol then r.2.score / 2 else r.2.score })

/-- `disconnect`: the other side is told first. -/
def disconnect (known : Bool) (reason : DisconnectReason)
    (r : PeerSession × Peer) : PeerSession × Peer :=
  drop known reason (if r.1.isOpen then r.1.send else r.1, r.2)

/-- `doRead`. -/
def doRead (s : PeerSession) : PeerSession :=
  if s.dropped then s else { s with reading := some .header }

def start (s : PeerSession) : PeerSession := s.send.doRead

/-- `addRating`. -/
def addRating (rating : Int32) (r : PeerSession × Peer) : PeerSession × Peer :=
  (r.1, { r.2 with
    rating := r.2.rating + rating
    score := r.2.score + rating
    failedAttempts := if rating ≥ 0 then 0 else r.2.failedAttempts })

def call (known : Bool) (r : PeerSession × Peer) :
    SessionCall → PeerSession × Peer
  | .send => (r.1.send, r.2)
  | .disconnect reason => disconnect known reason r
  | .addRating rating => addRating rating r

/-- `checkRead`, where it fails. -/
def checkRead (known : Bool) (r : PeerSession × Peer) :
    ReadFailure → PeerSession × Peer
  | .failed => drop known .tcpError r
  | .abrupt => drop known .tcpError r
  | .wrongLength => disconnect known .userReason r

/-- `readPacket`: an exception is caught and the session disconnected. -/
def readPacket (known : Bool) (r : PeerSession × Peer) :
    SessionPacket → PeerSession × Peer
  | .requested isInt =>
      drop known (if isInt then .disconnectRequested else .badProtocol) r
  | .ping => (r.1.send, r.2)
  | .ignored => r
  | .interpreted calls threw =>
      let r := calls.foldl (call known) r
      if threw then disconnect known .badProtocol r else r

/-- The handler of the read of a header. -/
def onHeader (known : Bool) (o : HeaderRead) (r : PeerSession × Peer) :
    PeerSession × Peer :=
  let r := ({ r.1 with reading := none }, r.2)
  match o with
  | .failure f => checkRead known r f
  | .refused => drop known .badProtocol r
  | .threw => r
  | .accepted => ({ r.1 with reading := some .frame }, r.2)

/-- The handler of the read of a frame. -/
def onFrame (known : Bool) (o : FrameRead) (r : PeerSession × Peer) :
    PeerSession × Peer :=
  let r := ({ r.1 with reading := none }, r.2)
  match o with
  | .failure f => checkRead known r f
  | .refused => drop known .badProtocol r
  | .threw => r
  | .notPacket => disconnect known .badProtocol r
  | .packet p =>
      let r := readPacket known r p
      (r.1.doRead, r.2)

/-- The handler of a write. It goes on to write if there are more messages,
whether or not the session has been dropped. -/
def onWritten (known ok : Bool) (r : PeerSession × Peer) : PeerSession × Peer :=
  let r := ({ r.1 with writing := false }, r.2)
  if !ok then drop known .tcpError r
  else
    let left := r.1.writeQueue - 1
    ({ r.1 with writeQueue := left, writing := decide (left ≠ 0) }, r.2)

/-- Whether anybody points to the session. -/
def isHeld (s : PeerSession) : Bool :=
  s.reading.isSome || s.writing || decide (s.held ≠ 0)

/-- Whoever was at work on the session lets go of it; the destructor closes the
socket. -/
def release (r : PeerSession × Peer) : PeerSession × Peer :=
  if r.1.gone || r.1.isHeld then r
  else
    ({ r.1 with isOpen := false, gone := true },
      { r.2 with lastConnected := r.2.lastAttempted - seconds 1 })

end PeerSession

/-- The sessions and the peers that were made, `m_peers` and `m_sessions`, the
peers with a connection pending, and the settings of the slots. -/
structure SessionHost where
  sessions : List PeerSession := []
  objects : List Peer := []
  peers : AList (fun _ : NodeID => Nat) := ∅
  registered : AList (fun _ : NodeID => Nat) := ∅
  pendingPeerConns : Finset Nat := ∅
  idealPeerCount : UInt32 := 11
  stretchPeers : UInt32 := 7
  lastPing : TimePoint := -2 ^ 63

/-- What happens to a host that has the network.  Of the start of a session it
tells what the handshake and the node table know of the node.  That the idle
timer of a handshake had expired when its last read completed, so that `cancel`
closes the socket of the session, is not among the events. -/
inductive SessionEvent where
  | start (id : NodeID) (now : SystemTime) (protocolVersion : UInt32)
      (address : Address) (node : Option Node) (known : Bool)
  | header (i : Nat) (known : Bool) (o : HeaderRead)
  | frame (i : Nat) (known : Bool) (o : FrameRead)
  | written (i : Nat) (known ok : Bool)
  | call (i : Nat) (known : Bool) (c : SessionCall)
  | lock (i : Nat)
  | unlock (i : Nat)
  | keepAlive (steady : TimePoint)
  | connecting (peer : Nat) (now : SystemTime)
  | connected (peer : Nat) (now : SystemTime) (ok : Bool)
  | addPeer (p : Peer)
  | updatePeer (id : NodeID) (endpoint : NodeIPEndpoint) (required : Bool)
  | erasePeer (id : NodeID)
  | setIdealPeerCount (n : UInt32)
  | setPeerStretch (n : UInt32)

/-- Whether the number of slots is set. -/
def SessionEvent.setsSlots : SessionEvent → Bool
  | .setIdealPeerCount _ => true
  | .setPeerStretch _ => true
  | _ => false

/-- Whether a socket that is closed is asked for its endpoint without an
exception. -/
def SessionEvent.known : SessionEvent → Bool
  | .start _ _ _ _ _ known => known
  | .header _ known _ => known
  | .frame _ known _ => known
  | .written _ known _ => known
  | .call _ known _ => known
  | _ => true

def SessionEvent.starts : SessionEvent → Bool
  | .start _ _ _ _ _ _ => true
  | _ => false

/-- The place of the session that a handler or a caller has. -/
def SessionEvent.session : SessionEvent → Option Nat
  | .header i _ _ => some i
  | .frame i _ _ => some i
  | .written i _ _ => some i
  | .call i _ _ => some i
  | .lock i => some i
  | .unlock i => some i
  | _ => none

namespace SessionHost

/-- Whether the session at a place is there. -/
def isAlive (h : SessionHost) (i : Nat) : Bool :=
  h.sessions[i]?.any fun s => !s.gone

/-- Whether the session at a place is there and connected. -/
def isOpen (h : SessionHost) (i : Nat) : Bool :=
  h.sessions[i]?.any fun s => !s.gone && s.isOpen

def havePeerSession (h : SessionHost) (id : NodeID) : Bool :=
  (h.registered.lookup id).any h.isAlive

/-- Whether the host is connected to a node. -/
def isConnected (h : SessionHost) (id : NodeID) : Bool :=
  (h.registered.lookup id).any h.isOpen

def peerCount (h : SessionHost) : UInt32 :=
  .ofNat (h.registered.entries.countP fun e => h.isOpen e.2)

/-- `peerSlots` of what comes in. -/
def peerSlots (h : SessionHost) : UInt32 := h.idealPeerCount * h.stretchPeers

def peerSlotsAvailable (h : SessionHost) : Bool :=
  decide (h.peerCount.toNat + h.pendingPeerConns.card < h.peerSlots.toNat)

/-- Whether the acceptor closes a connection at once, as there are too many. -/
def refusesConnection (h : SessionHost) : Bool :=
  decide (h.peerCount > h.peerSlots)

/-- A handler or a caller is done with a session, and lets go of it. -/
def update (h : SessionHost) (i : Nat)
    (f : PeerSession × Peer → PeerSession × Peer) : SessionHost :=
  match h.sessions[i]? with
  | none => h
  | some s =>
      match h.objects[s.peer]? with
      | none => h
      | some p =>
          let r := PeerSession.release (f (s, p))
          { h with sessions := h.sessions.set i r.1
                   objects := h.objects.set s.peer r.2 }

/-- The same, where something holds of the session. -/
def handle (h : SessionHost) (i : Nat) (q : PeerSession → Bool)
    (f : PeerSession × Peer → PeerSession × Peer) : SessionHost :=
  if h.sessions[i]?.any q then h.update i f else h

/-- `m_peers[_id] = p`, for a new peer. -/
def addPeer (h : SessionHost) (id : NodeID) (p : Peer) : SessionHost :=
  { h with objects := h.objects ++ [p]
           peers := h.peers.insert id h.objects.length }

/-- The peer of a node, which is made if there is none. -/
def peerOf (h : SessionHost) (id : NodeID) (node : Option Node) :
    SessionHost × Nat :=
  match h.peers.lookup id with
  | some k => (h, k)
  | none =>
      let n := (node.filter fun n => !n.id.data.all (· == 0)).getD
        ⟨id, {}, .optional⟩
      (h.addPeer id { n with }, h.objects.length)

/-- The session that was made is let go of. -/
def create (h : SessionHost) (k : Nat) (r : PeerSession × Peer) : SessionHost :=
  let r := PeerSession.release r
  { h with sessions := h.sessions ++ [r.1], objects := h.objects.set k r.2 }

/-- The session that was made is the one that the host has for a node. -/
def register (h : SessionHost) (id : NodeID) (k : Nat)
    (r : PeerSession × Peer) : SessionHost :=
  { h.create k r with registered := h.registered.insert id h.sessions.length }

/-- `startPeerSession`. -/
def startPeerSession (h : SessionHost) (id : NodeID) (now : SystemTime)
    (protocolVersion : UInt32) (address : Address) (node : Option Node)
    (known : Bool) : SessionHost :=
  let (h, k) := h.peerOf id node
  match h.objects[k]? with
  | none => h
  | some p =>
      let p := { p with
        lastConnected := if p.isOffline then now else p.lastConnected
        endpoint := { p.endpoint with address }
        -- the constructor of the session
        lastDisconnect := DisconnectReason.noDisconnect.code }
      let s : PeerSession := { id, peer := k }
      if protocolVersion < 3 then
        h.create k (PeerSession.disconnect known .incompatibleProtocol (s, p))
      else if h.isConnected id then
        h.create k (PeerSession.disconnect known .duplicatePeer (s, p))
      else if !h.peerSlotsAvailable then
        h.create k (PeerSession.disconnect known .tooManyPeers (s, p))
      else h.register id k (s.start, p)

/-- A session that is there is pinged, and one that is not is forgotten. -/
def pingOrForget (h : SessionHost) (e : Sigma fun _ : NodeID => Nat) :
    SessionHost :=
  if h.isAlive e.2 then h.update e.2 fun r => (r.1.send, r.2)
  else { h with registered := h.registered.erase e.1 }

/-- `keepAlivePeers`. -/
def keepAlivePeers (h : SessionHost) (steady : TimePoint) : SessionHost :=
  if steady - c_keepAliveInterval < h.lastPing then h
  else
    { h.registered.entries.foldl pingOrForget h with lastPing := steady }

/-- `connect`, where nothing speaks against it but a connection pending to the
same peer. -/
def connect (h : SessionHost) (k : Nat) (now : SystemTime) : SessionHost :=
  if k ∈ h.pendingPeerConns then h
  else { h with
    pendingPeerConns := insert k h.pendingPeerConns
    objects := h.objects.modify k fun p => { p with lastAttempted := now } }

/-- The handler of `async_connect`. -/
def connected (h : SessionHost) (k : Nat) (now : SystemTime) (ok : Bool) :
    SessionHost :=
  if k ∈ h.pendingPeerConns then { h with
    pendingPeerConns := h.pendingPeerConns.erase k
    objects := h.objects.modify k fun p => { p with
      lastAttempted := now
      failedAttempts := p.failedAttempts + 1
      lastDisconnect :=
        if ok then p.lastDisconnect else DisconnectReason.tcpError.code } }
  else h

/-- The peer of a node is known to be elsewhere, or is required. -/
def updatePeer (h : SessionHost) (id : NodeID) (endpoint : NodeIPEndpoint)
    (required : Bool) : SessionHost :=
  match h.peers.lookup id with
  | none => h
  | some k => { h with objects := h.objects.modify k fun p => { p with
      endpoint
      peerType := if required then .required else p.peerType } }

/-- The node of a peer that is not required was dropped from the table. -/
def erasePeer (h : SessionHost) (id : NodeID) : SessionHost :=
  if ((h.peers.lookup id).bind (h.objects[·]?)).any (·.peerType = .optional) then
    { h with peers := h.peers.erase id }
  else h

/-- One step.  A handler that is not due does not run. -/
def step (h : SessionHost) : SessionEvent → SessionHost
  | .start id now protocolVersion address node known =>
      h.startPeerSession id now protocolVersion address node known
  | .header i known o =>
      h.handle i (·.reading = some .header) (PeerSession.onHeader known o)
  | .frame i known o =>
      h.handle i (·.reading = some .frame) (PeerSession.onFrame known o)
  | .written i known ok =>
      h.handle i (·.writing) (PeerSession.onWritten known ok)
  | .call i known c => h.handle i (!·.gone) (PeerSession.call known · c)
  | .lock i =>
      h.handle i (!·.gone) fun r => ({ r.1 with held := r.1.held + 1 }, r.2)
  | .unlock i =>
      h.handle i (·.held ≠ 0) fun r => ({ r.1 with held := r.1.held - 1 }, r.2)
  | .keepAlive steady => h.keepAlivePeers steady
  | .connecting k now => h.connect k now
  | .connected k now ok => h.connected k now ok
  | .addPeer p => h.addPeer p.id p
  | .updatePeer id endpoint required => h.updatePeer id endpoint required
  | .erasePeer id => h.erasePeer id
  | .setIdealPeerCount n => { h with idealPeerCount := n }
  | .setPeerStretch n => { h with stretchPeers := n }

/-- A host that has no sessions yet. -/
def started (idealPeerCount stretchPeers : UInt32) : SessionHost :=
  { idealPeerCount, stretchPeers }

def run (h : SessionHost) (events : List SessionEvent) : SessionHost :=
  events.foldl step h

/-- A session that is connected is disconnected and counted. -/
def disconnectOne (known : NodeID → Bool) (r : SessionHost × Nat)
    (e : Sigma fun _ : NodeID => Nat) : SessionHost × Nat :=
  if r.1.isOpen e.2 then
    (r.1.update e.2 (PeerSession.disconnect (known e.1) .clientQuit), r.2 + 1)
  else r

/-- A pass of `doneWorking` over the sessions, and how many were connected. -/
def disconnectPass (known : NodeID → Bool) (h : SessionHost) :
    SessionHost × Nat :=
  h.registered.entries.foldl (disconnectOne known) (h, 0)

/-- The passes of `doneWorking`.  After one that found a session connected the
network is polled, so that disconnect packets are sent; there is no result if
there are more passes than `polls`. -/
def disconnectPeers (known : NodeID → Bool) (h : SessionHost) :
    List (List SessionEvent) → Option SessionHost
  | [] =>
      let r := h.disconnectPass known
      if r.2 = 0 then some { r.1 with registered := ∅ } else none
  | poll :: polls =>
      let r := h.disconnectPass known
      if r.2 = 0 then some { r.1 with registered := ∅ }
      else disconnectPeers known (r.1.run poll) polls

/-- The sessions as `Host::run` sees them. -/
def view (h : SessionHost) : List (NodeID × Option Bool) :=
  h.registered.entries.map fun e =>
    (e.1, if h.isAlive e.2 then some (h.isOpen e.2) else none)

end SessionHost

end Web3Core
