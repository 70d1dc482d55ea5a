/-
`RLPXFrameReader.h` and `RLPXFrameReader.cpp`: frames are taken apart into
packets, and packets that were split over frames are put together again.
-/
import Web3Core.RLPXFrameWriter
import Web3Core.OrderedMap

namespace Web3Core

/-- The reader of a protocol, with the packets of which a part was received and
the number of bytes that each lacks, under the numbers of their frames. -/
structure RLPXFrameReader where
  protocolType : UInt16
  incomplete : OrderedMap Nat (RLPXPacket × UInt32) := {}

namespace RLPXFrameReader

/-- `m_incomplete.insert`; an entry that is there stays. -/
def insertIncomplete (r : RLPXFrameReader) (sequenceId : Nat) (p : RLPXPacket)
    (remaining : UInt32) : RLPXFrameReader :=
  if (r.incomplete.lookup sequenceId).isSome then r
  else { r with incomplete := r.incomplete.insert sequenceId (p, remaining) }

/-- Go on with an incomplete packet.  The number of bytes it lacks is looked at
once more after its entry was erased; it is taken to be what it was. -/
def continuePacket (r : RLPXFrameReader) (info : RLPXFrameInfo) (buffer : Bytes)
    (p : RLPXPacket) (remaining : UInt32) :
    Except Exception (List RLPXPacket) × RLPXFrameReader :=
  let remaining := remaining - UInt32.ofNat buffer.length
  let appended := p.append buffer
  if remaining = 0 then
    (if appended.1 then .ok [appended.2] else .error .rlpxInvalidPacket,
      { r with incomplete := r.incomplete.erase info.sequenceId })
  else
    (.ok [], { r with incomplete :=
      r.incomplete.insert info.sequenceId (appended.2, remaining) })

/-- The loop that takes packets from the buffer.  Every round takes a type. -/
def packets (info : RLPXFrameInfo) : Nat → Bytes → List RLPXPacket →
    RLPXFrameReader → Except Exception (List RLPXPacket) × RLPXFrameReader
  | 0, _, _, r => (.error .outOfFuel, r)
  | fuel + 1, buffer, ret, r =>
      if buffer.isEmpty then (.ok ret, r)
      else
        let type := nextRLP buffer
        if type.isEmpty then (.ok ret, r)
        else
          let buffer := buffer.drop type.length
          -- A packet with a sequence takes all of the buffer.
          let packet := if info.multiFrame then buffer else nextRLP buffer
          let buffer := buffer.drop packet.length
          let p := RLPXPacket.ofBytes r.protocolType.toUInt8 type
          let p := if packet.isEmpty then p else (p.append packet).2
          let remaining := UInt32.ofNat
            (subSize (subSize info.totalLength type.length) packet.length)
          if p.isValid then packets info fuel buffer (ret ++ [p]) r
          else if info.multiFrame && remaining != 0 then
            packets info fuel buffer ret
              (r.insertIncomplete info.sequenceId p remaining)
          else (.error .rlpxInvalidPacket, r)

/-- What `demux` does with a frame whose tag is right. -/
def accept (r : RLPXFrameReader) (info : RLPXFrameInfo) (frame : Bytes) :
    Except Exception (List RLPXPacket) × RLPXFrameReader :=
  if frame.isEmpty then (.ok [], r)
  else if info.multiFrame && info.totalLength != 0 &&
      decide (frame.length > info.totalLength) then (.ok [], r)
  else
    let buffer := ((BytesConstRef.ofBytes frame).cropped 0
      (subSize frame.length (16 + info.padding))).toBytes
    let begun :=
      if info.multiFrame then r.incomplete.lookup info.sequenceId else none
    match begun with
    | none => packets info (buffer.length + 1) buffer [] r
    | some (p, remaining) =>
        if info.totalLength = 0 ∧ 0 < buffer.length ∧
            buffer.length ≤ remaining.toNat then
          r.continuePacket info buffer p remaining
        else
          packets info (buffer.length + 1) buffer []
            { r with incomplete := r.incomplete.erase info.sequenceId }

variable (crypto : Crypto)

/-- `demux`.  What the reader and the coder are left as is told for a frame
that is refused, too. -/
def demux (r : RLPXFrameReader) (c : RLPXFrameCoder) (info : RLPXFrameInfo)
    (frame : Bytes) :
    Except Exception (List RLPXPacket) × RLPXFrameReader × RLPXFrameCoder :=
  match c.authAndDecryptFrame crypto frame with
  | .error e => (.error e, r, c)
  | .ok (false, _, c) => (.error .rlpxFrameDecryptFailed, r, c)
  | .ok (true, frame, c) =>
      let accepted := r.accept info frame
      (accepted.1, accepted.2, c)

/-- What is at the other end of a connection: the header of a frame is
decrypted and read, and the frame given to `demux` with it. -/
def receive (r : RLPXFrameReader) (c : RLPXFrameCoder) (b : Bytes) :
    Except Exception (List RLPXPacket × RLPXFrameReader × RLPXFrameCoder) := do
  let header ← c.authAndDecryptHeader crypto (b.take 32)
  if !header.1 then .error .rlpxFrameDecryptFailed
  else
    let info ← RLPXFrameInfo.ofHeader header.2.1
    let result := r.demux crypto header.2.2 info (b.drop 32)
    let packets ← result.1
    .ok (packets, result.2)

/-- The packets of the frames that arrive one after the other. -/
def receiveAll : List Bytes → RLPXFrameReader → RLPXFrameCoder →
    Except Exception (List RLPXPacket × RLPXFrameReader × RLPXFrameCoder)
  | [], r, c => .ok ([], r, c)
  | b :: bs, r, c => do
      let head ← r.receive crypto c b
      let rest ← receiveAll bs head.2.1 head.2.2
      .ok (head.1 ++ rest.1, rest.2)

end RLPXFrameReader

end Web3Core
