/-
The datagrams of node discovery: `RLPXDatagramFace` of `UDP.h` and `UDP.cpp`,
the packets of `NodeTable.h` and `NodeTable.cpp`, and the checks that begin
`NodeTable::onReceived`.
-/
import Web3Core.NodeEndpoint
import Web3Core.RLPXConnection

namespace Web3Core

open RLP (access)

def c_protocolVersion : Nat := 4

/-- What the datagrams take from the cryptography. -/
structure DatagramCrypto where
  sha3 : Bytes → H256
  sign : H256 → H256 → FixedHash 65
  recover : FixedHash 65 → H256 → H512
  toPublic : H256 → H512

/-- Ping packet: Sent to check if node is alive. -/
structure PingNode where
  version : UInt32 := 0
  source : NodeIPEndpoint := {}
  destination : NodeIPEndpoint := {}
  ts : UInt32 := 0
deriving DecidableEq

/-- Pong packet: Sent in response to ping. -/
structure Pong where
  destination : NodeIPEndpoint := {}
  echo : H256 := RLP.alignRight 32 []
  ts : UInt32 := 0
deriving DecidableEq

/-- FindNode Packet: Request k-nodes, closest to the target. -/
structure FindNode where
  target : H512 := RLP.alignRight 64 []
  ts : UInt32 := 0
deriving DecidableEq

structure Neighbour where
  endpoint : NodeIPEndpoint
  node : H512
deriving DecidableEq

/-- Node Packet: One or more node packets are sent in response to FindNode. -/
structure Neighbours where
  neighbours : List Neighbour := []
  ts : UInt32
deriving DecidableEq

namespace PingNode

def streamRLP (p : PingNode) (s : RLPStream) : Except Exception RLPStream := do
  let s ← s.appendList 4
  let s ← s.appendInt c_protocolVersion
  let s ← p.source.streamRLP s .streamList
  let s ← p.destination.streamRLP s .streamList
  s.appendInt p.ts.toNat

/-- Whether the packet is of this version. -/
def isCurrent : StateT RLP (Except Exception) Bool := do
  let r ← get
  let count ← r.itemCountStrict
  if count = 4 then
    let first ← access 0
    let int ← first.isInt
    if int then
      let first ← access 0
      let version ← first.toInt 4 .strict
      pure (decide (version = c_protocolVersion))
    else pure false
  else pure false

/-- The fields of a packet of this version; of another only the version. -/
def interpretFields (p : PingNode) : StateT RLP (Except Exception) PingNode := do
  let current ← isCurrent
  if current then
    let second ← access 1
    let source ← NodeIPEndpoint.ofRLP second
    let third ← access 2
    let destination ← NodeIPEndpoint.ofRLP third
    let fourth ← access 3
    let ts ← fourth.toInt 4 .strict
    pure { version := UInt32.ofNat c_protocolVersion, source, destination,
           ts := UInt32.ofNat ts }
  else
    let first ← access 0
    let version ← first.toInt 4 .strict
    pure { p with version := UInt32.ofNat version }

def interpretRLP (p : PingNode) (b : BytesConstRef) :
    Except Exception PingNode := do
  let r ← RLP.ofRef b .veryStrict
  p.interpretFields.run' r

def fromBytesConstRef (b : BytesConstRef) : PingNode :=
  match interpretRLP {} b with
  | .ok p => p
  | .error _ => {}

end PingNode

namespace Pong

def streamRLP (p : Pong) (s : RLPStream) : Except Exception RLPStream := do
  let s ← s.appendList 3
  let s ← p.destination.streamRLP s .streamList
  let s ← s.appendHash p.echo
  s.appendInt p.ts.toNat

def interpretFields : StateT RLP (Except Exception) Pong := do
  let first ← access 0
  let destination ← NodeIPEndpoint.ofRLP first
  let second ← access 1
  let echo ← second.toHash 32 .strict
  let third ← access 2
  let ts ← third.toInt 4 .strict
  pure { destination, echo, ts := UInt32.ofNat ts }

def interpretRLP (b : BytesConstRef) : Except Exception Pong := do
  let r ← RLP.ofRef b .veryStrict
  interpretFields.run' r

def fromBytesConstRef (b : BytesConstRef) : Pong :=
  match interpretRLP b with
  | .ok p => p
  | .error _ => {}

end Pong

namespace FindNode

def streamRLP (p : FindNode) (s : RLPStream) : Except Exception RLPStream := do
  let s ← s.appendList 2
  let s ← s.appendHash p.target
  s.appendInt p.ts.toNat

def interpretFields : StateT RLP (Except Exception) FindNode := do
  let first ← access 0
  let target ← first.toHash 64 .strict
  let second ← access 1
  let ts ← second.toInt 4 .strict
  pure { target, ts := UInt32.ofNat ts }

def interpretRLP (b : BytesConstRef) : Except Exception FindNode := do
  let r ← RLP.ofRef b .veryStrict
  interpretFields.run' r

def fromBytesConstRef (b : BytesConstRef) : FindNode :=
  match interpretRLP b with
  | .ok p => p
  | .error _ => {}

end FindNode

namespace Neighbour

def streamRLP (n : Neighbour) (s : RLPStream) : Except Exception RLPStream := do
  let s ← s.appendList 4
  let s ← n.endpoint.streamRLP s .streamInline
  s.appendHash n.node

def interpretFields : StateT RLP (Except Exception) Neighbour := do
  let endpoint ← NodeIPEndpoint.interpretRLP
  let fourth ← access 3
  let b ← fourth.toBytes
  pure ⟨endpoint, .ofBytes 64 b⟩

def ofRLP (r : RLP) : Except Exception Neighbour := interpretFields.run' r

end Neighbour

namespace Neighbours

def streamRLP (p : Neighbours) (s : RLPStream) : Except Exception RLPStream := do
  let s ← s.appendList 2
  let s ← s.appendList p.neighbours.length
  let s ← p.neighbours.foldlM (fun s n => n.streamRLP s) s
  s.appendInt p.ts.toNat

/-- The items are turned into neighbours one after the other. -/
def interpretFields : StateT RLP (Except Exception) Neighbours := do
  let first ← access 0
  let items ← first.toList
  let neighbours ←
    (items.mapM Neighbour.ofRLP : Except Exception (List Neighbour))
  let second ← access 1
  let ts ← second.toInt 4 .strict
  pure { neighbours, ts := UInt32.ofNat ts }

def interpretRLP (b : BytesConstRef) : Except Exception Neighbours := do
  let r ← RLP.ofRef b .veryStrict
  interpretFields.run' r

/-- A packet that cannot be read is empty and of the time `now`. -/
def fromBytesConstRef (now : UInt32) (b : BytesConstRef) : Neighbours :=
  match interpretRLP b with
  | .ok p => p
  | .error _ => { ts := now }

end Neighbours

/-- A packet of any type. -/
inductive DatagramPacket where
  | pingNode (p : PingNode)
  | pong (p : Pong)
  | findNode (p : FindNode)
  | neighbours (p : Neighbours)
deriving DecidableEq

namespace DatagramPacket

def packetType : DatagramPacket → UInt8
  | pingNode _ => 1
  | pong _ => 2
  | findNode _ => 3
  | neighbours _ => 4

def streamRLP : DatagramPacket → RLPStream → Except Exception RLPStream
  | pingNode p => p.streamRLP
  | pong p => p.streamRLP
  | findNode p => p.streamRLP
  | neighbours p => p.streamRLP

variable (crypto : DatagramCrypto)

/-- `sign`: the hash that was signed, and the datagram, over the bytes that it
had before. -/
def sign (p : DatagramPacket) (k : H256) (data : Bytes) :
    Except Exception (H256 × Bytes) := do
  let rlpxstream ← RLPStream.appendRaw {} [p.packetType] 1
  let rlpxstream ← p.streamRLP rlpxstream
  let rlpx ← rlpxstream.out
  let sighash := crypto.sha3 rlpx
  let sig := crypto.sign k sighash
  let data := resize data (32 + 65 + rlpx.length)
  let data := copyTo sig.data data 32 65
  let data := copyTo rlpx data (32 + 65) rlpx.length
  let signedRLPx := data.drop 32
  .ok (sighash, copyTo (crypto.sha3 signedRLPx).data data 0 32)

/-- The checks of `onReceived`: who has signed the datagram, the type of the
packet and its payload. -/
def checkDatagram (packet : BytesConstRef) :
    Option (H512 × UInt8 × BytesConstRef) :=
  if packet.count < 32 + 65 + 1 + 3 then none
  else
    let hashedBytes := packet.cropped 32 (packet.count - 32)
    let hashSigned := crypto.sha3 hashedBytes.toBytes
    if (packet.cropped 0 32).toBytes ≠ hashSigned.data then none
    else
      let signedBytes := hashedBytes.cropped 65 (hashedBytes.count - 65)
      let sigBytes := packet.cropped 32 65
      let nodeid := crypto.recover (RLP.alignRight 65 sigBytes.toBytes)
        (crypto.sha3 signedBytes.toBytes)
      if nodeid.data.all (· == 0) then none
      else
        match signedBytes.get 0 with
        | .ok packetType =>
            some (nodeid, packetType, packet.croppedFrom (32 + 65 + 1))
        | .error _ => none

end DatagramPacket

end Web3Core
