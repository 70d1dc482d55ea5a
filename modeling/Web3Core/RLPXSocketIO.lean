/-
`RLPXSocketIO.h` and `RLPXSocketIO.cpp`: the packets of several protocols are
framed and written to one socket.  Each call of `send` and each handler is one
step.
-/
import Web3Core.RLPXRounds

namespace Web3Core

/-- `RLPXSocketIO`.  `writes` lists the writes that have not completed, with
what they were given, and `waits` counts the timers whose handler has not run.
What `mux` put into `toSend`, and what was handed to the socket, is recorded. -/
structure RLPXSocketIO where
  flowControl : Bool
  coder : RLPXFrameCoder
  toSend : List Bytes := []
  writers : List RLPXFrameWriter
  queued : UInt32 := 0
  egressCapacity : UInt32
  writes : List (List Bytes × Nat) := []
  waits : Nat := 0
  produced : List Bytes := []
  handed : List Bytes := []

/-- What happens to the connection.  A write completes with an error or with a
number of bytes; a timer runs out or is cancelled. -/
inductive SocketEvent where
  | send (isOpen : Bool) (protocolType type : UInt32) (payload : RLPStream)
  | written (index : Nat) (result : Option Nat)
  | retry (cancelled : Bool)

namespace RLPXSocketIO

/-- Header, a block, and the tag of the frame. -/
def MinFrameSize : Nat := 16 * 3

def MaxPacketSize : Nat := 2 ^ 24

/-- The constructor. -/
def start (protCount : UInt32) (coder : RLPXFrameCoder) (flowControl : Bool)
    (initialCapacity : Nat) : RLPXSocketIO where
  flowControl
  coder
  writers := (List.range protCount.toNat).map fun i =>
    { protocolType := UInt16.ofNat i }
  egressCapacity := UInt32.ofNat
    (if flowControl then initialCapacity else MaxPacketSize * protCount.toNat)

variable (crypto : Crypto)

/-- `mux` for one writer after the other. -/
def muxAll (size : Nat) : List RLPXFrameWriter → RLPXFrameCoder →
    Except Exception (List RLPXFrameWriter × RLPXFrameCoder × Nat × List Bytes)
  | [], c => .ok ([], c, 0, [])
  | w :: ws, c => do
      let m ← w.mux crypto c size
      let rest ← muxAll size ws m.coder
      .ok (m.writer :: rest.1, rest.2.1, m.ret + rest.2.2.1,
        m.toWrite ++ rest.2.2.2)

/-- The number of writers with something queued. -/
def active (s : RLPXSocketIO) : Nat :=
  s.writers.countP fun w => decide (w.size ≠ 0)

/-- The share of the capacity of a protocol that has something to send. -/
def protFrameSize (s : RLPXSocketIO) : Nat :=
  min s.egressCapacity.toNat MaxPacketSize / s.active

def deferWrite (s : RLPXSocketIO) : RLPXSocketIO :=
  { s with waits := s.waits + 1 }

/-- `write`: `async_write` of what is in `toSend`. -/
def write (s : RLPXSocketIO) (dequed : Nat) : RLPXSocketIO :=
  { s with writes := s.writes ++ [(s.toSend, dequed)],
           handed := s.handed ++ s.toSend }

/-- `mux` for every writer, if the share has room for a frame. -/
def muxWriters (s : RLPXSocketIO) :
    Except Exception (List RLPXFrameWriter × RLPXFrameCoder × Nat × List Bytes) :=
  if s.protFrameSize ≥ MinFrameSize then
    muxAll crypto s.protFrameSize s.writers s.coder
  else .ok (s.writers, s.coder, 0, [])

/-- `doWrite`.  The buffer is cleared first; it then holds the new frames. -/
def doWrite (s : RLPXSocketIO) : Except Exception RLPXSocketIO :=
  if s.active = 0 then .error .divisionByZero
  else do
    let muxed ← s.muxWriters crypto
    let s := { s with writers := muxed.1, coder := muxed.2.1,
                      toSend := muxed.2.2.2,
                      produced := s.produced ++ muxed.2.2.2 }
    if muxed.2.2.1 ≠ 0 then .ok (s.write muxed.2.2.1) else .ok s.deferWrite

/-- `send`, up to the call of `doWrite`, and whether there is one. -/
def send (s : RLPXSocketIO) (isOpen : Bool) (protocolType type : UInt32)
    (payload : RLPStream) : Except Exception ( RLPXSocketIO × Bool) :=
  if !isOpen then .ok (s, false)
  else
    match s.writers[protocolType.toNat]? with
    | none => .error .outOfRange
    | some w => do
        let w ← w.enque type.toUInt8 payload false
        let queued := s.queued + 1
        .ok ({ s with writers := s.writers.set protocolType.toNat w, queued },
          queued = 1)

/-- The handler of a write, up to the call of `doWrite`. -/
def written (s : RLPXSocketIO) (index : Nat) (result : Option Nat) :
    RLPXSocketIO × Bool :=
  match s.writes[index]? with
  | none => (s, false)
  | some w =>
      let s := { s with writes := s.writes.eraseIdx index }
      match result with
      | none => (s, false)
      | some size =>
          let egressCapacity :=
            if s.flowControl then s.egressCapacity - UInt32.ofNat size
            else s.egressCapacity
          let queued := s.queued - UInt32.ofNat w.2
          ({ s with egressCapacity, queued }, queued > 0)

/-- The handler of a timer, up to the call of `doWrite`. -/
def retry (s : RLPXSocketIO) (cancelled : Bool) : RLPXSocketIO × Bool :=
  if s.waits = 0 then (s, false)
  else ({ s with waits := s.waits - 1 }, !cancelled)

/-- A step up to the call of `doWrite`, and whether there is one.  An exception
of `send` goes to the caller and leaves everything as it was. -/
def handle (s : RLPXSocketIO) : SocketEvent → RLPXSocketIO × Bool
  | .send isOpen protocolType type payload =>
      match s.send isOpen protocolType type payload with
      | .ok r => r
      | .error _ => (s, false)
  | .written index result => s.written index result
  | .retry cancelled => s.retry cancelled

def step (s : RLPXSocketIO) (event : SocketEvent) :
    Except Exception RLPXSocketIO :=
  let r := s.handle event
  if r.2 then r.1.doWrite crypto else .ok r.1

def run (s : RLPXSocketIO) (events : List SocketEvent) :
    Except Exception RLPXSocketIO :=
  events.foldlM (step crypto) s

end RLPXSocketIO

end Web3Core
