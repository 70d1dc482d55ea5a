/-
`RLPXHandshake.h` and `RLPXHandshake.cpp`: the handshake that sets up a
connection.  Each call of `transition` starts one operation on the socket; the
handler of its completion is one step.  What the handlers check, and with which
result, is recorded.
-/
import Web3Core.RLPXFrames

namespace Web3Core

/-- What the handshake takes from the crypto library besides: encryption to a
public key, decryption with a secret key, signatures, and the public key that a
signature was made with. -/
structure HandshakeCrypto extends Crypto where
  encryptECIES : H512 → Bytes → Bytes
  decryptECIES : H256 → Bytes → Option Bytes
  sign : H256 → H256 → Bytes
  recover : Bytes → H256 → H512

/-- What the handshake takes from the host: its key pair and the Hello packet
with its data. -/
structure HandshakeHost where
  sec : H256
  pub : H512
  helloPacket : Bytes

/-- Sequential states of handshake. -/
inductive HandshakeState where
  | error
  | new
  | ackAuth
  | writeHello
  | readHello
  | startSession
deriving DecidableEq

/-- The operation on the socket that has not completed. -/
inductive SocketOperation where
  | writeAuth
  | readAuth
  | writeAck
  | readAck
  | writeHello
  | readHeader
  | readFrame (size : Nat)
deriving DecidableEq

/-- What may fail on the way. -/
inductive HandshakeCheck where
  | io
  | decryptAuth
  | ephemeralHash
  | decryptAck
  | headerMAC
  | frameSize
  | frameMAC
  | packetType
  | packetRLP
deriving DecidableEq

/-- `RLPXHandshake`.  The checks that were made, the calls of `error` and those
of `startPeerSession` are recorded. -/
structure RLPXHandshake where
  originated : Bool
  nextState : HandshakeState := .new
  cancel : Bool := false
  remote : H512
  ecdhe : ECDHE
  nonce : H256
  authCipher : Bytes := []
  ackCipher : Bytes := []
  handshakeOutBuffer : Bytes := []
  remoteEphemeral : H512 := RLP.alignRight 64 []
  remoteNonce : H256 := RLP.alignRight 32 []
  io : Option RLPXFrameCoder := none
  pending : Option SocketOperation := none
  checks : List (HandshakeCheck × Bool) := []
  errors : Nat := 0
  sessions : Nat := 0

/-- What happens to a handshake: the pending operation completes, with an error
or with the bytes that were read; or the timer runs out or the owner cancels.
Starting the session may end with an exception. -/
inductive HandshakeEvent where
  | complete (result : Option Bytes) (throws : Bool)
  | cancel
deriving DecidableEq

/-- The `N` bytes from an offset on. -/
def hashAt (N offset : Nat) (b : Bytes) : FixedHash N :=
  RLP.alignRight N ((b.drop offset).take N)

/-- `operator^` on hashes. -/
def FixedHash.xor {N : Nat} (a b : FixedHash N) : FixedHash N :=
  RLP.alignRight N (xorBytes a.data b.data)

namespace SocketOperation

/-- The number of bytes that a read asks for. -/
def size : SocketOperation → Nat
  | .readAuth => 307
  | .readAck => 210
  | .readHeader => 32
  | .readFrame size => size
  | _ => 0

end SocketOperation

namespace RLPXHandshake

variable (crypto : HandshakeCrypto) (host : HandshakeHost)

/-- Record a check. -/
def note (h : RLPXHandshake) (check : HandshakeCheck) (passed : Bool) :
    RLPXHandshake :=
  { h with checks := h.checks ++ [(check, passed)] }

/-- Closes connection and ends transitions. -/
def error (h : RLPXHandshake) : RLPXHandshake :=
  { h with io := none, errors := h.errors + 1 }

def writeAuth (h : RLPXHandshake) : RLPXHandshake :=
  let staticShared := crypto.agree host.sec h.remote
  let auth :=
    crypto.sign h.ecdhe.sec (staticShared.xor h.nonce) ++
      (crypto.sha3 h.ecdhe.pub.data).data ++ host.pub.data ++ h.nonce.data ++ [0]
  { h with authCipher := crypto.encryptECIES h.remote auth,
           pending := some .writeAuth }

def writeAck (h : RLPXHandshake) : RLPXHandshake :=
  let ack := h.ecdhe.pub.data ++ h.nonce.data ++ [0]
  { h with ackCipher := crypto.encryptECIES h.remote ack,
           pending := some .writeAck }

/-- Send the Hello packet as the first frame. -/
def writeHello (h : RLPXHandshake) : Except Exception RLPXHandshake := do
  let coder ← RLPXFrameCoder.setup crypto.toCrypto h.originated
    h.remoteEphemeral h.remoteNonce h.ecdhe h.nonce h.ackCipher h.authCipher
  let frame ← coder.writeSingleFramePacket crypto.toCrypto host.helloPacket
  .ok { h with io := some frame.2, handshakeOutBuffer := frame.1,
               pending := some .writeHello }

/-- Performs transition for `nextState`. -/
def transition (h : RLPXHandshake) (failed : Bool) :
    Except Exception RLPXHandshake :=
  if failed ∨ h.nextState = .error ∨ h.cancel then .ok h.error
  else
    match h.nextState with
    | .new =>
        let h := { h with nextState := .ackAuth }
        .ok (if h.originated then h.writeAuth crypto host
          else { h with pending := some .readAuth })
    | .ackAuth =>
        let h := { h with nextState := .writeHello }
        .ok (if h.originated then { h with pending := some .readAck }
          else h.writeAck crypto)
    | .writeHello => { h with nextState := .readHello }.writeHello crypto host
    | .readHello =>
        .ok { h with nextState := .startSession, pending := some .readHeader }
    | _ => .ok h

/-- A check that fails: the next state is `error`, and the transition is
taken. -/
def fail (h : RLPXHandshake) (check : HandshakeCheck) :
    Except Exception RLPXHandshake :=
  let h := h.note check false
  { h with nextState := .error }.transition crypto host false

/-- The ephemeral public key that an auth message was signed with. -/
def recoverEphemeral (auth : Bytes) : H512 :=
  let sharedSecret := crypto.agree host.sec (hashAt 64 (65 + 32) auth)
  crypto.recover (auth.take 65)
    (sharedSecret.xor (hashAt 32 (65 + 32 + 64) auth))

/-- Whether an auth message carries the hash of that key. -/
def hashMatches (auth : Bytes) : Bool :=
  crypto.sha3 (recoverEphemeral crypto host auth).data = hashAt 32 65 auth

/-- The handler of `readAuth`.  With a hash mismatch it goes on, too. -/
def onReadAuth (h : RLPXHandshake) (authCipher : Bytes) :
    Except Exception RLPXHandshake :=
  let h := { h with authCipher }
  match crypto.decryptECIES host.sec authCipher with
  | none => h.fail crypto host .decryptAuth
  | some auth =>
      if auth.length < 65 + 32 + 64 + 32 then .error .outOfRange
      else
        let h := h.note .decryptAuth true
        let h := { h with
          remote := hashAt 64 (65 + 32) auth,
          remoteNonce := hashAt 32 (65 + 32 + 64) auth,
          remoteEphemeral := recoverEphemeral crypto host auth }
        (h.note .ephemeralHash (hashMatches crypto host auth)).transition
          crypto host false

/-- The handler of `readAck`. -/
def onReadAck (h : RLPXHandshake) (ackCipher : Bytes) :
    Except Exception RLPXHandshake :=
  let h := { h with ackCipher }
  match crypto.decryptECIES host.sec ackCipher with
  | none => h.fail crypto host .decryptAck
  | some ack =>
      if ack.length < 64 + 32 then .error .outOfRange
      else
        let h := h.note .decryptAck true
        { h with remoteEphemeral := hashAt 64 0 ack,
                 remoteNonce := hashAt 32 64 ack }.transition crypto host false

/-- The length in the first three bytes of a header. -/
def frameSize (header : Bytes) : Nat :=
  (header.getD 2 0).toNat ||| ((header.getD 1 0).toNat <<< 8) |||
    ((header.getD 0 0).toNat <<< 16)

/-- The handler of the read of the header. -/
def onReadHeader (h : RLPXHandshake) (b : Bytes) :
    Except Exception RLPXHandshake :=
  match h.io with
  | none => .error .outOfRange
  | some coder => do
      let r ← coder.authAndDecryptHeader crypto.toCrypto b
      let h := { h with io := some r.2.2 }
      if !r.1 then h.fail crypto host .headerMAC
      else
        let h := h.note .headerMAC true
        let size := frameSize r.2.1
        if size > 1024 then h.fail crypto host .frameSize
        else
          let h := h.note .frameSize true
          let padding := RLPXFrameCoder.paddingOf size
          .ok { h with pending := some (.readFrame (size + padding + 16)) }

/-- The handler of the read of the frame. -/
def onReadFrame (h : RLPXHandshake) (b : Bytes) (throws : Bool) :
    Except Exception RLPXHandshake :=
  match h.io with
  | none => .error .outOfRange
  | some coder => do
      let r ← coder.authAndDecryptFrame crypto.toCrypto b
      let h := { h with io := some r.2.2 }
      if !r.1 then h.fail crypto host .frameMAC
      else
        let h := h.note .frameMAC true
        let first := r.2.1.headD 0
        let packetType := if first = 0x80 then 0 else first
        if packetType ≠ 0 then h.fail crypto host .packetType
        else
          let h := h.note .packetType true
          match RLP.ofRef ((BytesConstRef.ofBytes r.2.1).croppedFrom 1)
              .throwIfTooSmall with
          | .error _ => h.fail crypto host .packetRLP
          | .ok _ =>
              let h := h.note .packetRLP true
              let h := { h with io := none, sessions := h.sessions + 1 }
              let thrown := { h with nextState := .error }
              if throws then thrown.transition crypto host false else .ok h

/-- The handler of an operation that has completed. -/
def handle (h : RLPXHandshake) (op : SocketOperation) (result : Option Bytes)
    (throws : Bool) : Except Exception RLPXHandshake :=
  match result with
  | none => (h.note .io false).transition crypto host true
  | some b =>
      let h := h.note .io true
      match op with
      | .writeAuth => h.transition crypto host false
      | .readAuth => h.onReadAuth crypto host b
      | .writeAck => h.transition crypto host false
      | .readAck => h.onReadAck crypto host b
      | .writeHello => h.transition crypto host false
      | .readHeader => h.onReadHeader crypto host b
      | .readFrame _ => h.onReadFrame crypto host b throws

/-- One step.  A read gives as many bytes as it asked for; a step that does not
take place changes nothing. -/
def step (h : RLPXHandshake) :
    HandshakeEvent → Except Exception RLPXHandshake
  | .cancel => .ok { h with cancel := true }
  | .complete result throws =>
      match h.pending with
      | none => .ok h
      | some op =>
          if result.all fun b => b.length = op.size then
            { h with pending := none }.handle crypto host op result throws
          else .ok h

/-- `start`, and what happens after it. -/
def run (h : RLPXHandshake) (events : List HandshakeEvent) :
    Except Exception RLPXHandshake := do
  let h ← h.transition crypto host false
  events.foldlM (step crypto host) h

end RLPXHandshake

end Web3Core
