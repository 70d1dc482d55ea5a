/-
`RLPXFrameWriter.h` and `RLPXFrameWriter.cpp`: packets wait in two queues, and
`mux` makes frames of them that fit into a given number of bytes.  Small
packets share a frame, large ones are split over frames that carry the same
number.  Sizes are of 64 bits and wrap around; the asserts are compiled out.
-/
import Web3Core.RLPXFrames
import Web3Core.RLPXPacket

namespace Web3Core

/-- The difference of two sizes. -/
def subSize (a b : Nat) : Nat := (a + 2 ^ 64 - b % 2 ^ 64) % 2 ^ 64

/-- A queue and how far its front was written.  The pointer `writing` is null
or points to the front. -/
structure WriterState where
  q : List RLPXPacket := []
  writing : Bool := false
  remaining : Nat := 0
  multiFrame : Bool := false
  sequence : UInt16 := 0xffff
deriving DecidableEq

/-- The writer of a protocol; the first queue has high priority. -/
structure RLPXFrameWriter where
  protocolType : UInt16
  high : WriterState := {}
  low : WriterState := {}
  sequenceId : UInt16 := 0
deriving DecidableEq

namespace WriterState

/-- The local variables of the loop that fills a frame, with the queue it
takes from and the sequence counter of the writer. -/
structure Filling where
  qs : WriterState
  sequenceId : UInt16
  frameAllot : Nat
  payload : Bytes := []
  offset : Nat := 0
  ret : Nat := 0
deriving DecidableEq

namespace Filling

/-- The first part of a round: take up the packet at the front unless one is
being written.  `none` stands for a `break`. -/
def startPacket (f : Filling) : Filling × Bool :=
  if f.qs.writing then (f, true)
  else
    match f.qs.q with
    | [] => (f, false)
    | p :: _ =>
        let multiFrame := decide (p.size > f.frameAllot)
        if p.type.length > f.frameAllot || (multiFrame && !f.payload.isEmpty)
        then
          ({ f with qs := { f.qs with writing := false, remaining := 0,
                                      multiFrame := false } }, false)
        else
          let sequenceId :=
            if multiFrame then f.sequenceId + 1 else f.sequenceId
          let sequence := if multiFrame then sequenceId else f.qs.sequence
          ({ f with
              qs := { f.qs with writing := true, remaining := p.data.length,
                                multiFrame, sequence },
              sequenceId,
              frameAllot := subSize f.frameAllot p.type.length,
              payload := f.payload ++ p.type }, true)

/-- The second part: as much of the packet as fits. -/
def writePortion (f : Filling) (p : RLPXPacket) (rest : List RLPXPacket) :
    Filling :=
  let f :=
    if f.frameAllot ≠ 0 ∧ f.qs.remaining ≠ 0 then
      let offset := subSize p.data.length f.qs.remaining
      let length := min f.qs.remaining f.frameAllot
      let portion := (p.data.drop offset).take length
      { f with qs := { f.qs with remaining := f.qs.remaining - length },
               frameAllot := subSize f.frameAllot portion.length,
               payload := f.payload ++ portion, offset }
    else f
  if f.qs.remaining = 0 then
    { f with qs := { f.qs with writing := false, q := rest },
             ret := f.ret + 1 }
  else f

/-- The loop.  Every round but the last takes a packet off the queue. -/
def fill : Nat → Filling → Except Exception Filling
  | 0, _ => .error .outOfFuel
  | fuel + 1, f =>
      if f.frameAllot < 16 then .ok f
      else
        let started := f.startPacket
        if !started.2 then .ok started.1
        else
          match started.1.qs.q with
          | [] => .error .outOfRange
          | p :: rest =>
              let f' := started.1.writePortion p rest
              if f'.qs.multiFrame then .ok f' else fill fuel f'

end Filling

end WriterState

namespace RLPXFrameWriter

/-- `enque` of a packet; one that is not valid is dropped. -/
def enquePacket (w : RLPXFrameWriter) (p : RLPXPacket) (priority : Bool) :
    RLPXFrameWriter :=
  if !p.isValid then w
  else if priority then { w with high := { w.high with q := w.high.q ++ [p] } }
  else { w with low := { w.low with q := w.low.q ++ [p] } }

def enque (w : RLPXFrameWriter) (packetType : UInt8) (payload : RLPStream)
    (priority : Bool) : Except Exception RLPXFrameWriter := do
  let type ← RLPStream.appendInt {} packetType.toNat
  let p ← RLPXPacket.ofStreams w.protocolType.toUInt8 type payload
  .ok (w.enquePacket p priority)

/-- The number of queued packets. -/
def size (w : RLPXFrameWriter) : Nat := w.high.q.length + w.low.q.length

/-- Which queue goes first: in the first round that of high priority, in
later ones that of low priority. -/
def takesHigh (w : RLPXFrameWriter) (swapQueues : Bool) : Bool :=
  if !w.high.q.isEmpty && !swapQueues then true else w.low.q.isEmpty

/-- The bytes for payload in the next frame.  With both queues pending, the
first frame gets half of what there is. -/
def frameAllot (w : RLPXFrameWriter) (frameLen : Nat) (swapQueues : Bool) :
    Nat :=
  let half := !swapQueues && !w.high.q.isEmpty && !w.low.q.isEmpty &&
    decide (subSize (frameLen / 2) 64 > 0)
  subSize (if half then frameLen / 2 else frameLen) 48

/-- What is given to the coder for what a frame was filled with. -/
def frameOf (w : RLPXFrameWriter) (f : WriterState.Filling) : RLPXFrame :=
  if f.qs.multiFrame then
    if f.offset = 0 then
      .first w.protocolType f.qs.sequence
        (UInt32.ofNat ((f.qs.q.head?.map RLPXPacket.size).getD 0)) f.payload
    else .next w.protocolType f.qs.sequence f.payload
  else .single w.protocolType f.payload

/-- Fill the next frame: the loop's variables and the writer after it, the flag
of a packet that is done taken back. -/
def nextFrame (w : RLPXFrameWriter) (frameLen : Nat) (swapQueues : Bool) :
    Except Exception (WriterState.Filling × RLPXFrameWriter) := do
  let high := w.takesHigh swapQueues
  let qs := if high then w.high else w.low
  let f ← WriterState.Filling.fill (qs.q.length + 1)
    { qs, sequenceId := w.sequenceId,
      frameAllot := w.frameAllot frameLen swapQueues }
  let qs' :=
    if !f.payload.isEmpty && f.qs.remaining = 0 && f.qs.multiFrame then
      { f.qs with multiFrame := false }
    else f.qs
  let w' := { w with sequenceId := f.sequenceId }
  .ok (f, if high then { w' with high := qs' } else { w' with low := qs' })

/-- What a frame is made from: the writer before it, whether it is not the
first one of the call, and the bytes for its payload. -/
structure RoundStart where
  writer : RLPXFrameWriter
  swapQueues : Bool
  frameAllot : Nat
deriving DecidableEq

/-- What a call of `mux` leaves: the writer, the coder, the number of packets
that were framed, and the frames as they were given to the coder and as they
came from it.  What each was made from is recorded. -/
structure Muxed where
  writer : RLPXFrameWriter
  coder : RLPXFrameCoder
  ret : Nat := 0
  frames : List RLPXFrame := []
  toWrite : List Bytes := []
  rounds : List RoundStart := []

variable (crypto : Crypto)

/-- The loop of `mux`. -/
def muxLoop : Nat → Nat → Bool → Muxed → Except Exception Muxed
  | 0, _, _, _ => .error .outOfFuel
  | fuel + 1, frameLen, swapQueues, m =>
      if frameLen < 64 then .ok m
      else if m.writer.high.q.isEmpty && m.writer.low.q.isEmpty then .ok m
      else do
        let next ← m.writer.nextFrame frameLen swapQueues
        let m' := { m with writer := next.2, ret := m.ret + next.1.ret }
        if !next.1.payload.isEmpty then
          let frame := m.writer.frameOf next.1
          let written ← frame.write crypto m.coder
          muxLoop fuel (subSize frameLen written.1.length) true
            { m' with coder := written.2, frames := m.frames ++ [frame],
                      toWrite := m.toWrite ++ [written.1],
                      rounds := m.rounds ++ [⟨m.writer, swapQueues,
                        m.writer.frameAllot frameLen swapQueues⟩] }
        else if swapQueues then .ok m'
        else muxLoop fuel frameLen true m'

/-- `mux`.  A round but the first writes a frame or is the last one, and a
frame takes a packet off its queue or fills its part of the size. -/
def mux (w : RLPXFrameWriter) (coder : RLPXFrameCoder) (size : Nat) :
    Except Exception Muxed :=
  if size < 64 then .ok { writer := w, coder }
  else
    muxLoop crypto (w.size + size + 2) (size / 16 * 16) false
      { writer := w, coder }

end RLPXFrameWriter

end Web3Core
