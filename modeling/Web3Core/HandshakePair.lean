/-
The two handshakes of one connection.  Each side runs an `RLPXHandshake`; what
one writes comes in at the other.  Operations complete in any order, and either
side may fail, time out or lose its connection at any time.
-/
import Web3Core.Conversation
import Web3Core.Hello
import Web3Core.RLPXConnection
import Web3Core.RLPXHandshake

namespace Web3Core

/-- A call of `startPeerSession`: the public key of the other side, the buffer
of the Hello frame, and the coder. -/
structure StartedSession where
  remote : H512
  frame : Bytes
  coder : RLPXFrameCoder

/-- What `startPeerSession` reads of the frame. -/
def StartedSession.peerInfo (x : StartedSession) : Except Exception PeerInfo := do
  let r ← RLP.ofRef ((BytesConstRef.ofBytes x.frame).croppedFrom 1)
    .throwIfTooSmall
  PeerInfo.ofRLP r

/-- The connection of two sessions: frames are written and read with the coders
that the handshakes have handed over. -/
def StartedSession.connection (originator recipient : StartedSession) :
    Connection
  | .initiator => { coder := originator.coder }
  | .recipient => { coder := recipient.coder }

/-- A side: its handshake, whether `startPeerSession` is going to throw, and the
calls of it. -/
structure HandshakeSide where
  handshake : RLPXHandshake
  throws : Bool := false
  started : List StartedSession := []

/-- What may go wrong on a side: the pending operation fails, the timer expires
or the owner cancels, or the host refuses the session. -/
inductive HandshakeFault where
  | io
  | cancel
  | throw
deriving DecidableEq

namespace HandshakeSide

variable (crypto : HandshakeCrypto) (host : HandshakeHost)

/-- What the pending operation writes. -/
def output (h : RLPXHandshake) : Bytes :=
  match h.pending with
  | some .writeAuth => h.authCipher
  | some .writeAck => h.ackCipher
  | some .writeHello => h.handshakeOutBuffer
  | _ => []

/-- What `startPeerSession` is called with when the frame `b` was read. -/
def passed (h : RLPXHandshake) (b : Bytes) : Option StartedSession := do
  let coder ← h.io
  let r ← (coder.authAndDecryptFrame crypto.toCrypto b).toOption
  some ⟨h.remote, r.2.1, r.2.2⟩

/-- The pending operation completes with the bytes `b`. -/
def react (x : HandshakeSide) (b : Bytes) :
    Except Exception (HandshakeSide × Bytes) := do
  let h ← x.handshake.step crypto host (.complete (some b) x.throws)
  let calls := if x.handshake.sessions < h.sessions then
    (passed crypto x.handshake b).toList else []
  .ok ({ x with handshake := h, started := x.started ++ calls }, output h)

def talker : Talker HandshakeSide Byte Exception where
  wants x := x.handshake.pending.map SocketOperation.size
  react := react crypto host

def disturb (f : HandshakeFault) (x : HandshakeSide) : HandshakeSide :=
  match f with
  | .io =>
      { x with handshake := ((x.handshake.step crypto host
          (.complete none false)).toOption).getD x.handshake }
  | .cancel => { x with handshake := { x.handshake with cancel := true } }
  | .throw => { x with throws := true }

end HandshakeSide

/-- Two hosts that meet, `true` being the one that connects to the other.  They
know their own keys, and the first one the public key of the second; encryption,
signatures and the agreement on a secret work for these keys. -/
structure Meeting (crypto : HandshakeCrypto) where
  host : Bool → HandshakeHost
  hello : Bool → Hello
  ecdhe : Bool → ECDHE
  nonce : Bool → H256
  unknown : H512
  packet : ∀ s, (hello s).packet = .ok (host s).helloPacket
  fits : ∀ s, (hello s).Fits
  fresh : ∀ s, (ecdhe s).remoteEphemeral.isSet = false
  length_sealed : ∀ s m, m ≠ [] →
    (crypto.encryptECIES (host s).pub m).length = m.length + 113
  unsealed : ∀ s m, m ≠ [] → crypto.decryptECIES (host s).sec
    (crypto.encryptECIES (host s).pub m) = some m
  length_sign : ∀ hash, (crypto.sign (ecdhe true).sec hash).length = 65
  recovered : ∀ hash, crypto.recover (crypto.sign (ecdhe true).sec hash) hash =
    (ecdhe true).pub
  agree : crypto.agree (host true).sec (host false).pub =
    crypto.agree (host false).sec (host true).pub
  agreeEphemeral : crypto.agree (ecdhe true).sec (ecdhe false).pub =
    crypto.agree (ecdhe false).sec (ecdhe true).pub

namespace Meeting

variable {crypto : HandshakeCrypto} (m : Meeting crypto)

/-- The handshake of a side as it is constructed. -/
def constructed (s : Bool) : RLPXHandshake where
  originated := s
  remote := if s then (m.host false).pub else m.unknown
  ecdhe := m.ecdhe s
  nonce := m.nonce s

/-- Both sides have been started. -/
def start (s : Bool) : Except Exception HandshakeSide := do
  let h ← (m.constructed s).transition crypto (m.host s) false
  .ok { handshake := h }

/-- The two sides once they are started: what each of them writes first is on
its way. -/
def begun : Except Exception (Conversation HandshakeSide Byte) := do
  let originator ← m.start true
  let recipient ← m.start false
  .ok fun s => if s then
      { state := originator, incoming := HandshakeSide.output recipient.handshake }
    else { state := recipient, incoming := HandshakeSide.output originator.handshake }

/-- A run of the two sides. -/
def run (events : List (TalkEvent HandshakeFault)) :
    Except Exception (Conversation HandshakeSide Byte) := do
  let c ← m.begun
  c.run (fun s => HandshakeSide.talker crypto (m.host s))
    (fun f x => HandshakeSide.disturb crypto (m.host x.handshake.originated) f x)
    events

end Meeting

end Web3Core
