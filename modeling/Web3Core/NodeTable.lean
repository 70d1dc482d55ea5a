/-
`NodeTable` of `NodeTable.h` and `NodeTable.cpp`: the nodes that are known, the
buckets of those that answer, and the handlers of datagrams and timers.  An
operation that would index the buckets out of range has no result.
-/
import Mathlib.Data.List.Destutter
import Mathlib.Logic.Function.Basic
import Web3Core.Datagram

namespace Web3Core

abbrev NodeID := H512

inductive PeerType where
  | optional
  | required
deriving DecidableEq

structure Node where
  id : NodeID
  endpoint : NodeIPEndpoint
  peerType : PeerType := .optional
deriving DecidableEq

/-- A reading of the steady clock, in nanoseconds. -/
abbrev TimePoint := Int

def milliseconds (n : Int) : Int := n * 1000000

/-- What the clocks show while an event is handled. -/
structure Moment where
  now : TimePoint
  secondsSinceEpoch : UInt32
deriving DecidableEq

def Moment.futureFromEpoch (m : Moment) (seconds : UInt32) : UInt32 :=
  m.secondsSinceEpoch + seconds

/-- `bi::udp::endpoint`. -/
structure UDPEndpoint where
  address : Address
  port : UInt16
deriving DecidableEq

def NodeIPEndpoint.udp (e : NodeIPEndpoint) : UDPEndpoint :=
  ⟨e.address, e.udpPort⟩

/-- A node whose ports are both that of an endpoint. -/
def UDPEndpoint.both (e : UDPEndpoint) : NodeIPEndpoint :=
  ⟨e.address, e.port, e.port⟩

/-- What is signed and sent: a packet, or the pong of version 3. -/
inductive OutgoingPacket where
  | packet (p : DatagramPacket)
  | compatPong (echo : H256) (ts : UInt32)
deriving DecidableEq

structure UDPDatagram where
  locus : UDPEndpoint
  content : OutgoingPacket
deriving DecidableEq

/-- Entry in Node Table. -/
structure NodeEntry extends Node where
  /-- Node's distance (xor of the own id as integer). -/
  distance : Nat
  /-- Node will be ignored until Pong is received. -/
  pending : Bool := true
deriving DecidableEq

/-- The endpoint that a node is active from. -/
def NodeEntry.setEndpoint (e : NodeEntry) (endpoint : UDPEndpoint) : NodeEntry :=
  { e with endpoint := { e.endpoint with
      address := endpoint.address, udpPort := endpoint.port } }

/-- A pointer to an entry: its place among all that were made. -/
abbrev NodePtr := Nat

inductive NodeTableEventType where
  | nodeEntryAdded
  | nodeEntryDropped
deriving DecidableEq

structure NodeTableEventHandler where
  nodes : List NodeID := []
  events : NodeID → Option NodeTableEventType := fun _ => none

namespace NodeTableEventHandler

def appendEvent (h : NodeTableEventHandler) (n : NodeID)
    (e : NodeTableEventType) : NodeTableEventHandler :=
  ⟨h.nodes ++ [n], Function.update h.events n (some e)⟩

/-- The calls of `processEvent`, and the handler after them. -/
def processEvents (h : NodeTableEventHandler) :
    List (NodeID × NodeTableEventType) × NodeTableEventHandler :=
  if h.nodes = [] then ([], h)
  else
    ((h.nodes.destutter (· ≠ ·)).map
      fun n => (n, (h.events n).getD .nodeEntryAdded), {})

end NodeTableEventHandler

/-- First node may be evicted and replaced with second node. -/
structure EvictionTimeout where
  leastSeen : NodeID
  time : TimePoint
  new : NodeID
deriving DecidableEq

/-- What a timer of the table does when it expires. -/
inductive NodeTableTask where
  | doCheckEvictions
  | doDiscovery
  | doDiscover (target : NodeID) (round : Nat) (tried : List NodePtr)
deriving DecidableEq

structure NodeTableTimer where
  due : TimePoint
  task : NodeTableTask
deriving DecidableEq

inductive NodeRelation where
  | unknown
  | known
deriving DecidableEq

def s_bits : Nat := 256

def s_bins : Nat := 255

def s_maxSteps : Nat := 8

def s_bucketSize : Nat := 16

def s_alpha : Nat := 3

def c_evictionCheckInterval : Int := milliseconds 75

def c_reqTimeout : Int := milliseconds 300

def c_bucketRefresh : Int := milliseconds 7200

def maxDatagramSize : Nat := 1280

/-- The cryptography, and whether local addresses are allowed. -/
structure NodeContext where
  crypto : DatagramCrypto
  allowLocal : Bool

structure NodeTable where
  node : Node
  /-- All entries that were made. -/
  entries : List NodeEntry := []
  nodes : NodeID → Option NodePtr := fun _ => none
  state : Fin s_bins → List NodePtr := fun _ => []
  evictions : List EvictionTimeout := []
  pubkDiscoverPings : Address → Option TimePoint := fun _ => none
  findNodeTimeout : List (NodeID × TimePoint) := []
  handler : Option NodeTableEventHandler := none
  isOpen : Bool
  timers : List NodeTableTimer := []
  /-- All datagrams that were sent. -/
  sent : List UDPDatagram := []

namespace NodeTable

/-- Returns distance based on xor metric of two node ids. -/
def distance (sha3 : Bytes → H256) (a b : NodeID) : Nat :=
  (fromBigEndian (sha3 a.data).data ^^^ fromBigEndian (sha3 b.data).data).log2

/-- `weak_ptr::lock`: the entry is in `m_nodes` or held by a discovery. -/
def isAlive (t : NodeTable) (p : NodePtr) : Bool :=
  t.entries[p]?.any (fun e => t.nodes e.id == some p) ||
    t.timers.any fun timer =>
      match timer.task with
      | .doDiscover _ _ tried => tried.contains p
      | _ => false

def send (t : NodeTable) (d : UDPDatagram) : NodeTable :=
  if t.isOpen then { t with sent := t.sent ++ [d] } else t

def appendEvent (t : NodeTable) (n : NodeID) (e : NodeTableEventType) :
    NodeTable :=
  { t with handler := t.handler.map (·.appendEvent n e) }

/-- A new entry, which `m_nodes` then points to. -/
def insertEntry (t : NodeTable) (e : NodeEntry) : NodeTable :=
  { t with entries := t.entries ++ [e]
           nodes := Function.update t.nodes e.id (some t.entries.length) }

def modifyEntry (t : NodeTable) (p : NodePtr) (f : NodeEntry → NodeEntry) :
    NodeTable :=
  { t with entries := t.entries.modify p f }

/-- `m_state[_i]`. -/
def bucket (t : NodeTable) (i : Nat) : Option (List NodePtr) :=
  if h : i < s_bins then some (t.state ⟨i, h⟩) else none

/-- The index of the bucket of an entry; `unsigned` wraps below zero. -/
def bucketUnsafe (e : NodeEntry) : Option (Fin s_bins) :=
  let i := (e.distance + (2 ^ 32 - 1)) % 2 ^ 32
  if h : i < s_bins then some ⟨i, h⟩ else none

def setBucket (t : NodeTable) (i : Fin s_bins) (b : List NodePtr) : NodeTable :=
  { t with state := Function.update t.state i b }

/-- The buckets in the order in which `nearestNodeEntries` visits them: from
`head` up and from `tail` down while that is not zero, or only up, or only
down.  The counter that should end the loops is never advanced. -/
def visitOrder (head tail : Nat) : List Nat :=
  if head > 1 ∧ tail ≠ s_bins - 1 then
    (List.range (s_bins - head)).flatMap fun k =>
      (head + k) :: if tail - k = 0 then [] else [tail - k]
  else if head < 2 then (List.range (s_bins - head)).map (head + ·)
  else (List.range tail).map (tail - ·)

variable (ctx : NodeContext) (m : Moment)

def newEntry (t : NodeTable) (node : Node) (pending : Bool) : NodeEntry where
  id := node.id
  endpoint := node.endpoint
  distance := distance ctx.crypto.sha3 t.node.id node.id
  pending := pending

def schedule (t : NodeTable) (duration : Int) (task : NodeTableTask) :
    NodeTable :=
  { t with timers := t.timers ++ [⟨m.now + duration, task⟩] }

def ping (t : NodeTable) (dest : NodeIPEndpoint) : NodeTable :=
  t.send ⟨dest.udp, .packet (.pingNode {
    source := t.node.endpoint, destination := dest,
    ts := m.futureFromEpoch 60 })⟩

/-- Returns nodes from node table which are closest to target. -/
def nearestNodeEntries (t : NodeTable) (target : NodeID) :
    Option (List NodePtr) := do
  let head := distance ctx.crypto.sha3 t.node.id target
  let tail := if head = 0 then s_bins - 1 else (head - 1) % s_bins
  let visited ← (visitOrder head tail).mapM t.bucket
  let alive := visited.flatten.filter t.isAlive
  let found := (List.range s_bits).flatMap fun d => alive.filter fun p =>
    t.entries[p]?.any fun e => distance ctx.crypto.sha3 target e.id == d
  some ((found.filter fun p => t.entries[p]?.any fun e =>
    e.endpoint.isSet && e.endpoint.isAllowed ctx.allowLocal).take s_bucketSize)

/-- Asynchronously drops the least seen node if it doesn't reply and adds the
new node, otherwise the new node is thrown away. -/
def evict (t : NodeTable) (leastSeen new : NodeEntry) : NodeTable :=
  if t.isOpen then
    let timeout : EvictionTimeout := ⟨leastSeen.id, m.now, new.id⟩
    let t := { t with evictions := t.evictions ++ [timeout] }
    let t := if t.evictions.length = 1 then
      t.schedule m c_evictionCheckInterval .doCheckEvictions else t
    t.ping m leastSeen.endpoint
  else t

/-- The part of `noteActiveNode` that is done with the bucket of a node: once
the node is met, it and all after it are removed. -/
def noteInBucket (t : NodeTable) (p : NodePtr) (e : NodeEntry)
    (i : Fin s_bins) : NodeTable :=
  let removed := p ∈ t.state i
  let nodes := (t.state i).takeWhile (· ≠ p)
  let append := fun b =>
    let t := t.setBucket i (b ++ [p])
    if removed then t else t.appendEvent e.id .nodeEntryAdded
  if nodes.length < s_bucketSize then append nodes
  else
    match nodes with
    | [] => append []
    | front :: rest =>
        if t.isAlive front then
          match t.entries[front]? with
          | some contested => (t.setBucket i nodes).evict m contested e
          | none => append rest
        else append rest

/-- Called whenever activity is received from a node in order to maintain node
table. -/
def noteActiveNode (t : NodeTable) (pubk : NodeID) (endpoint : UDPEndpoint) :
    Option NodeTable :=
  if pubk = t.node.id ∨ ¬ endpoint.both.isAllowed ctx.allowLocal then some t
  else
    match t.nodes pubk with
    | none => some t
    | some p =>
        match t.entries[p]? with
        | none => some t
        | some e =>
            if e.pending then some t
            else
              let t := t.modifyEntry p (·.setEndpoint endpoint)
              (bucketUnsafe e).map fun i => t.noteInBucket m p e i

/-- Used to drop node when timeout occurs or when evict() result is to keep
previous node. -/
def dropNode (t : NodeTable) (p : NodePtr) : Option NodeTable :=
  match t.entries[p]? with
  | none => some t
  | some e =>
      (bucketUnsafe e).map fun i =>
        (t.setBucket i ((t.state i).filter (· ≠ p))).appendEvent e.id
          .nodeEntryDropped

/-- Add node. Node will be pinged if node has never been seen or NodeID is
empty. -/
def addNode (t : NodeTable) (node : Node) (relation : NodeRelation) :
    Option NodeTable :=
  match relation with
  | .known =>
      (t.insertEntry (t.newEntry ctx node false)).noteActiveNode ctx m node.id
        node.endpoint.udp
  | .unknown =>
      if !node.endpoint.isSet then some t
      else if node.id.data.all (· == 0) then
        some ({ t with
          pubkDiscoverPings := Function.update t.pubkDiscoverPings
            node.endpoint.address (some m.now) }.ping m node.endpoint)
      else if (t.nodes node.id).isSome then some t
      else
        some ((t.insertEntry (t.newEntry ctx node true)).ping m node.endpoint)

/-- Update our endpoint address and UDP port. -/
def updateEndpoint (t : NodeTable) (packet : Pong) : NodeTable :=
  let own := t.node.endpoint
  let address :=
    if (!own.isSet || !own.isAllowed ctx.allowLocal) &&
        packet.destination.address.isPublicAddress then
      packet.destination.address
    else own.address
  { t with node := { t.node with endpoint := { own with
      address := address, udpPort := packet.destination.udpPort } } }

def clearPending (t : NodeTable) (p : NodePtr) : NodeTable :=
  t.modifyEntry p fun e => { e with pending := false }

/-- A pong is received; the flag tells if its sender is noted as active. -/
def onPong (t : NodeTable) (nodeid : NodeID) (sender : UDPEndpoint)
    (packet : Pong) : Option (NodeTable × Bool) :=
  let evicting := fun e : EvictionTimeout =>
    e.leastSeen == nodeid && decide (e.time > m.now)
  match t.evictions.find? evicting with
  | some e => do
      let t := { t with evictions := t.evictions.eraseP evicting }
      let t ← (match t.nodes e.new with
        | some p => t.dropNode p
        | none => some t : Option NodeTable)
      let t := match t.nodes e.leastSeen with
        | some p => t.clearPending p
        | none => t
      some (t.updateEndpoint ctx packet, true)
  | none =>
      match t.nodes nodeid with
      | some p => some ((t.clearPending p).updateEndpoint ctx packet, true)
      | none =>
          if (t.pubkDiscoverPings sender.address).isNone then some (t, false)
          else do
            let t := { t with
              pubkDiscoverPings := Function.update t.pubkDiscoverPings
                sender.address none }
            let t ← (if (t.nodes nodeid).isSome then some t
              else t.addNode ctx m ⟨nodeid, sender.both, .optional⟩ .unknown
                : Option NodeTable)
            some (t.updateEndpoint ctx packet, true)

/-- Whether neighbours of a node are awaited. -/
def expectsNeighbours (t : NodeTable) (nodeid : NodeID) : Bool :=
  t.findNodeTimeout.any fun timeout =>
    timeout.1 == nodeid && decide (m.now - timeout.2 < c_reqTimeout)

/-- The requests to a node that have timed out are removed. -/
def pruneFindNode (t : NodeTable) (nodeid : NodeID) : NodeTable :=
  { t with findNodeTimeout := t.findNodeTimeout.filter fun timeout =>
      !(timeout.1 == nodeid) || decide (m.now - timeout.2 < c_reqTimeout) }

def onNeighbours (t : NodeTable) (nodeid : NodeID) (payload : BytesConstRef) :
    Option (NodeTable × Bool) := do
  let pruned := t.pruneFindNode m nodeid
  if t.expectsNeighbours m nodeid then
    let packet := Neighbours.fromBytesConstRef m.secondsSinceEpoch payload
    let t ← packet.neighbours.foldlM
      (fun (t : NodeTable) n => t.addNode ctx m ⟨n.node, n.endpoint, .optional⟩ .unknown)
      pruned
    some (t, true)
  else some (pruned, true)

/-- How many neighbours there are in a packet. -/
def nlimit : Nat := (maxDatagramSize - 109) / 90

/-- The neighbours from an offset on, as the packets that they are sent in. -/
def neighboursFrom (nearest : List Neighbour) (offset : Nat) :
    List (List Neighbour) :=
  if offset < nearest.length then
    (nearest.drop offset).take nlimit ::
      neighboursFrom nearest (offset + nlimit)
  else []
termination_by nearest.length - offset
decreasing_by
  unfold nlimit maxDatagramSize
  omega

def onFindNode (t : NodeTable) (sender : UDPEndpoint) (packet : FindNode) :
    Option (NodeTable × Bool) :=
  if m.secondsSinceEpoch > packet.ts then some (t, false)
  else do
    let nearest ← t.nearestNodeEntries ctx packet.target
    let neighbours := nearest.filterMap fun p =>
      t.entries[p]?.map fun e => ⟨e.endpoint, e.id⟩
    let t := (neighboursFrom neighbours 0).foldl (fun (t : NodeTable) ns =>
      t.send ⟨sender, .packet (.neighbours ⟨ns, m.futureFromEpoch 60⟩)⟩) t
    some (t, true)

def onPing (t : NodeTable) (nodeid : NodeID) (sender : UDPEndpoint)
    (payload : BytesConstRef) : Option (NodeTable × Bool) :=
  let packet := PingNode.fromBytesConstRef payload
  let echo := ctx.crypto.sha3 payload.toBytes
  if packet.version.toNat < c_protocolVersion ∧ packet.version ≠ 3 then
    some (t, false)
  else
    let t := if packet.version.toNat < c_protocolVersion then
      t.send ⟨packet.source.udp, .compatPong echo (m.futureFromEpoch 60)⟩ else t
    if m.secondsSinceEpoch > packet.ts then some (t, false)
    else do
      let source := { packet.source with
        address := sender.address, udpPort := sender.port }
      let t ← t.addNode ctx m ⟨nodeid, source, .optional⟩ .unknown
      let t := t.send ⟨source.udp, .packet
        (.pong ⟨source, echo, m.futureFromEpoch 60⟩)⟩
      some (t, true)

/-- What is done with a packet of a type. -/
def onPacket (t : NodeTable) (nodeid : NodeID) (packetType : UInt8)
    (sender : UDPEndpoint) (payload : BytesConstRef) :
    Option (NodeTable × Bool) :=
  if packetType = 2 then
    t.onPong ctx m nodeid sender (Pong.fromBytesConstRef payload)
  else if packetType = 4 then t.onNeighbours ctx m nodeid payload
  else if packetType = 3 then
    t.onFindNode ctx m sender (FindNode.fromBytesConstRef payload)
  else if packetType = 1 then t.onPing ctx m nodeid sender payload
  else some (t, false)

/-- Called by the socket when packet is received. -/
def onReceived (t : NodeTable) (sender : UDPEndpoint) (packet : BytesConstRef) :
    Option NodeTable :=
  match DatagramPacket.checkDatagram ctx.crypto packet with
  | none => some t
  | some (nodeid, packetType, payload) =>
      match RLP.ofRef payload .veryStrict with
      | .error _ => some t
      | .ok _ => do
          let (t, noted) ← t.onPacket ctx m nodeid packetType sender payload
          if noted then t.noteActiveNode ctx m nodeid sender else some t

/-- A node is asked for the neighbours of a target. -/
def sendFindNode (target : NodeID) (t : NodeTable) (p : NodePtr) : NodeTable :=
  match t.entries[p]? with
  | none => t
  | some e =>
      { t with findNodeTimeout := t.findNodeTimeout ++ [(e.id, m.now)] }.send
        ⟨e.endpoint.udp, .packet (.findNode ⟨target, m.futureFromEpoch 60⟩)⟩

def doDiscover (t : NodeTable) (target : NodeID) (round : Nat)
    (tried : List NodePtr) : Option NodeTable :=
  if !t.isOpen then some t
  else if round = s_maxSteps then
    some (t.schedule m c_bucketRefresh .doDiscovery)
  else do
    let nearest ← t.nearestNodeEntries ctx target
    let fresh := (nearest.filter (· ∉ tried)).take s_alpha
    let t := fresh.foldl (sendFindNode m target) t
    if fresh = [] then some (t.schedule m c_bucketRefresh .doDiscovery)
    else some (t.schedule m (2 * c_reqTimeout)
      (.doDiscover target (round + 1) (tried ++ fresh)))

def checkEvictions (t : NodeTable) : Option NodeTable := do
  let drop := (t.evictions.filter fun e =>
    decide (m.now - e.time > c_reqTimeout)).filterMap fun e => t.nodes e.new
  let evictionsRemain := decide (t.evictions.length - drop.length > 0)
  let t ← (drop.destutter (· ≠ ·)).foldlM dropNode t
  some (if evictionsRemain then
    t.schedule m c_evictionCheckInterval .doCheckEvictions else t)

/-- A timer expires; a new discovery is of the node that was drawn. -/
def perform (t : NodeTable) (task : NodeTableTask) (randNodeId : NodeID) :
    Option NodeTable :=
  match task with
  | .doCheckEvictions => t.checkEvictions m
  | .doDiscovery => t.doDiscover ctx m randNodeId 0 []
  | .doDiscover target round tried => t.doDiscover ctx m target round tried

end NodeTable

/-- What happens to a table. -/
inductive NodeTableEvent where
  | addNode (node : Node) (relation : NodeRelation)
  | received (sender : UDPEndpoint) (packet : Bytes)
  | expired (timer : Nat) (randNodeId : NodeID)
  | cancelled (timer : Nat)
  | disconnected
  | processEvents

namespace NodeTable

/-- A table as the constructor leaves it, its socket open or not. -/
def create (node : Node) (isOpen : Bool) (handler : Option NodeTableEventHandler)
    (m : Moment) : NodeTable :=
  { node, isOpen, handler,
    timers := if isOpen then [⟨m.now + c_bucketRefresh, .doDiscovery⟩] else [] }

/-- One event.  Nothing is received by a socket that is closed, and a timer
that is not there or not due does not expire. -/
def step (ctx : NodeContext) (t : NodeTable) (event : Moment × NodeTableEvent) :
    Option NodeTable :=
  match event with
  | (m, .addNode node relation) => t.addNode ctx m node relation
  | (m, .received sender packet) =>
      if t.isOpen then t.onReceived ctx m sender (.ofBytes packet) else some t
  | (m, .expired i randNodeId) =>
      match t.timers[i]? with
      | none => some t
      | some timer =>
          if m.now < timer.due then some t
          else (t.perform ctx m timer.task randNodeId).map fun t =>
            { t with timers := t.timers.eraseIdx i }
  | (_, .cancelled i) => some { t with timers := t.timers.eraseIdx i }
  | (_, .disconnected) => some { t with isOpen := false }
  | (_, .processEvents) =>
      some { t with handler := t.handler.map (·.processEvents.2) }

def run (ctx : NodeContext) (t : NodeTable)
    (events : List (Moment × NodeTableEvent)) : Option NodeTable :=
  events.foldlM (step ctx) t

end NodeTable

end Web3Core
