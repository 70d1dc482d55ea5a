/-
`RLPXPacket.h`: a packet is a type and data, each one RLP item.
-/
import Web3Core.RLPInt
import Web3Core.RLPCanonical

namespace Web3Core

/-- The item a byte string begins with; nothing if there is none. -/
def nextRLP (b : Bytes) : Bytes :=
  match (do
    let r ← RLP.ofRef (.ofBytes b) { allowNonCanon := true }
    r.actualSize) with
  | .ok size => b.take (min size b.length)
  | .error _ => []

structure RLPXPacket where
  cap : UInt8
  type : Bytes
  data : Bytes
deriving DecidableEq

namespace RLPXPacket

/-- Construct a packet from the streams of its type and its data. -/
def ofStreams (capId : UInt8) (type data : RLPStream) :
    Except Exception RLPXPacket := do
  let t ← type.out
  let d ← data.out
  .ok ⟨capId, t, d⟩

/-- Construct a packet from a single byte string. -/
def ofBytes (capId : UInt8) (b : Bytes) : RLPXPacket :=
  let type := nextRLP b
  if b.length > type.length then ⟨capId, type, b.drop type.length⟩
  else ⟨capId, type, []⟩

/-- The size as the two items tell it, or zero if one does not. -/
def size (p : RLPXPacket) : Nat :=
  match (do
    let type ← RLP.ofBytes p.type
    let n ← type.actualSize
    let data ← RLP.ofRef (.ofBytes p.data) .laissezFaire
    let m ← data.actualSize
    .ok (n + m)) with
  | .ok n => n
  | .error _ => 0

/-- A byte string is of the size it tells. -/
def isWhole (b : Bytes) : Bool :=
  match (do
    let r ← RLP.ofBytes b
    r.actualSize) with
  | .ok size => size = b.length
  | .error _ => false

def isValid (p : RLPXPacket) : Bool :=
  !(p.type.isEmpty && p.data.isEmpty) && isWhole p.type && isWhole p.data

/-- Append to the data, and tell whether the packet is valid then. -/
def append (p : RLPXPacket) (b : Bytes) : Bool × RLPXPacket :=
  let p' := { p with data := p.data ++ b }
  (p'.isValid, p')

end RLPXPacket

end Web3Core
