/-
`Peer` of `Peer.h`, and what `Host` of `Host.h` and `Host.cpp` keeps of the
network: the peers, how they are saved and restored, and how one is required.
What the node table is told to add is listed; the table is modelled elsewhere.
-/
import Web3Core.CryptoPP
import Web3Core.NodeTable

namespace Web3Core

open RLP (access)

/-- A reading of the system clock, in nanoseconds after the epoch. -/
abbrev SystemTime := Int

def seconds (n : Int) : Int := n * 1000000000

/-- `duration_cast` to seconds, and its `count`. -/
def SystemTime.toSeconds (t : SystemTime) : Int := t.tdiv (seconds 1)

def Address.isV4 : Address → Bool
  | .v4 _ => true
  | .v6 _ => false

/-- The last reason for a disconnect is a number, as one that is read may be
none of the enumerators. -/
structure Peer extends Node where
  isOffline : Bool := true
  score : Int32 := 0
  rating : Int32 := 0
  lastConnected : SystemTime := 0
  lastAttempted : SystemTime := 0
  failedAttempts : UInt32 := 0
  lastDisconnect : UInt32 := 0xffff
deriving DecidableEq

/-- `operator<`, by which peers are sorted. -/
def Peer.lt (p q : Peer) : Bool :=
  if p.isOffline ≠ q.isOffline then p.isOffline
  else if p.isOffline then
    if p.lastAttempted = q.lastAttempted then
      decide (p.failedAttempts < q.failedAttempts)
    else decide (p.lastAttempted < q.lastAttempted)
  else if p.score = q.score then
    if p.rating = q.rating then
      if p.failedAttempts = q.failedAttempts then
        decide (p.id.data < q.id.data)
      else decide (p.failedAttempts < q.failedAttempts)
    else decide (p.rating < q.rating)
  else decide (p.score < q.score)

/-- `m_peers`: the peers in some order, one for an id. -/
structure PeerMap where
  peers : List Peer
  nodup : (peers.map (·.id)).Nodup

namespace PeerMap

def empty : PeerMap := ⟨[], List.nodup_nil⟩

def find (ps : PeerMap) (id : NodeID) : Option Peer :=
  ps.peers.find? (·.id == id)

/-- `m_peers[p->id] = p`. -/
def insert (ps : PeerMap) (p : Peer) : PeerMap where
  peers := p :: ps.peers.filter (·.id ≠ p.id)
  nodup := by
    rw [List.map_cons, List.nodup_cons]
    constructor
    · intro hmem
      obtain ⟨q, hq, hid⟩ := List.mem_map.1 hmem
      simp [hid] at hq
    · exact ps.nodup.sublist (List.filter_sublist.map _)

theorem find_insert (ps : PeerMap) (p : Peer) (id : NodeID) :
    (ps.insert p).find id = if p.id = id then some p else ps.find id := by
  rw [find, insert]
  dsimp only
  rw [List.find?_cons]
  by_cases hid : p.id = id
  · rw [if_pos hid, beq_iff_eq.2 hid]
  · rw [if_neg hid, beq_eq_false_iff_ne.2 hid]
    dsimp only
    rw [find, List.find?_filter]
    congr 1
    funext q
    by_cases hq : q.id = id
    · rw [hq]
      simp [Ne.symm hid]
    · simp [hq]

end PeerMap

variable {toPublic : H256 → H512}

structure Host (toPublic : H256 → H512) where
  /-- `m_alias`. -/
  keyAlias : KeyPair toPublic
  peers : PeerMap := .empty
  nodeTable : Option NodeTable := none
  /-- What the node table was told to add. -/
  added : List (Node × NodeRelation) := []
  /-- The nodes that a timer is to require. -/
  timers : List NodeID := []
  isStarted : Bool := false
  run : Bool := false
  dropPeers : Bool := false

/-- Returns snapshot of table. -/
def NodeTable.snapshot (t : NodeTable) : List NodeEntry :=
  (List.finRange s_bins).flatMap fun i => (t.state i).filterMap fun p =>
    if t.isAlive p then t.entries[p]? else none

namespace Host

/-- Whether a peer is saved: only those which have connected within 2 days,
with properly-advertised port and public IP address. -/
def isSaved (allowLocal : Bool) (h : Host toPublic) (now : SystemTime)
    (p : Peer) : Bool :=
  p.endpoint.address.isV4 &&
    decide (now - p.lastConnected < seconds (3600 * 48)) &&
    p.endpoint.isSet && decide (p.id ≠ h.keyAlias.pub) &&
    (decide (p.peerType = .required) || p.endpoint.isAllowed allowLocal)

/-- A peer is saved as eleven items.  The times and the signed numbers are
streamed as `unsigned`. -/
def streamPeer (s : RLPStream) (p : Peer) : Except Exception RLPStream := do
  let s ← s.appendList 11
  let s ← p.endpoint.streamRLP s .streamInline
  let s ← s.appendHash p.id
  let s ← s.appendInt (if p.peerType = .required then 1 else 0)
  let s ← s.appendInt (toUnsigned p.lastConnected.toSeconds)
  let s ← s.appendInt (toUnsigned p.lastAttempted.toSeconds)
  let s ← s.appendInt p.failedAttempts.toNat
  let s ← s.appendInt p.lastDisconnect.toNat
  let s ← s.appendInt p.score.toUInt32.toNat
  s.appendInt p.rating.toUInt32.toNat

/-- An entry of the node table is saved as four items. -/
def streamEntry (s : RLPStream) (e : NodeEntry) : Except Exception RLPStream := do
  let s ← s.appendList 4
  let s ← e.endpoint.streamRLP s .streamInline
  s.appendHash e.id

/-- The peers that are saved, in their order. -/
def savedPeers (allowLocal : Bool) (h : Host toPublic) (now : SystemTime) :
    List Peer :=
  (h.peers.peers.mergeSort fun p q => !q.lt p).filter (h.isSaved allowLocal now)

/-- The entries that are saved.  Nodes are compared as the truth values that
they are converted to, so those without an id come first. -/
def savedEntries (h : Host toPublic) : List NodeEntry :=
  match h.nodeTable with
  | none => []
  | some t =>
      t.snapshot.mergeSort fun e f =>
        !(f.id.data.all (· == 0) && !e.id.data.all (· == 0))

def saveNetwork (allowLocal : Bool) (h : Host toPublic) (now : SystemTime) :
    Except Exception Bytes := do
  let peers := h.savedPeers allowLocal now
  let entries := h.savedEntries
  let network ← peers.foldlM streamPeer {}
  let network ← entries.foldlM streamEntry network
  let count := peers.length + entries.length
  let ret ← RLPStream.ofList 3
  let ret ← ret.appendInt c_protocolVersion
  let ret ← ret.append h.keyAlias.secret.data
  let ret ← ret.appendList count
  if count ≠ 0 then do
    let b ← network.out
    let ret ← ret.appendRaw b count
    ret.out
  else ret.out

def addNode (h : Host toPublic) (n : Node) (relation : NodeRelation) :
    Host toPublic :=
  { h with added := h.added ++ [(n, relation)] }

/-- A node is to be connected always. -/
def requirePeer (h : Host toPublic) (id : NodeID) (endpoint : NodeIPEndpoint) :
    Host toPublic :=
  if !h.run then h
  else if !id.data.all (· == 0) then
    let p := match h.peers.find id with
      | some p => { p with endpoint, peerType := .required }
      | none => { id, endpoint, peerType := .required }
    let h := { h with peers := h.peers.insert p }
    if h.nodeTable.isSome then h.addNode p.toNode .known else h
  else if h.nodeTable.isSome then
    let h := h.addNode ⟨id, endpoint, .required⟩ .unknown
    { h with timers := h.timers ++ [id] }
  else h

/-- The rest of a saved peer, from the item that tells if it is required. -/
def restorePeer (allowLocal : Bool) (h : Host toPublic) (n : Node) (k : Nat) :
    StateT RLP (Except Exception) (Host toPublic) := do
  let item ← access k
  let required ← item.toInt 1 .strict
  let n := { n with peerType := if required ≠ 0 then .required else .optional }
  if !n.endpoint.isAllowed allowLocal ∧ n.peerType = .optional then pure h
  else
    let item ← access (k + 1)
    let lastConnected ← item.toInt 4 .strict
    let item ← access (k + 2)
    let lastAttempted ← item.toInt 4 .strict
    let item ← access (k + 3)
    let failedAttempts ← item.toInt 4 .strict
    let item ← access (k + 4)
    let lastDisconnect ← item.toInt 4 .strict
    let item ← access (k + 5)
    let score ← item.toInt 4 .strict
    let item ← access (k + 6)
    let rating ← item.toInt 4 .strict
    let p : Peer := { n with
      lastConnected := seconds lastConnected
      lastAttempted := seconds lastAttempted
      failedAttempts := UInt32.ofNat failedAttempts
      lastDisconnect := UInt32.ofNat lastDisconnect
      score := (UInt32.ofNat score).toInt32
      rating := (UInt32.ofNat rating).toInt32 }
    let h := { h with peers := h.peers.insert p }
    pure (if p.peerType = .required then h.requirePeer p.id n.endpoint
      else h.addNode p.toNode .known)

/-- Whether the first item is an address of the fourth version, as four bytes
or as a list of four. -/
def hasAddress : StateT RLP (Except Exception) Bool := do
  let first ← access 0
  let count ← first.itemCount
  if count ≠ 4 then
    let first ← access 0
    let size ← first.size
    pure (decide (size = 4))
  else pure true

/-- `toArray` of four bytes. -/
def readBytes : StateT RLP (Except Exception) Bytes := do
  let r ← get
  let count ← r.itemCountStrict
  if count ≠ 4 then throw .badCast
  else
    (List.range 4).mapM fun j => do
      let item ← access j
      let b ← item.toInt 1 .strict
      pure (UInt8.ofNat b)

/-- An item of a saved network: a peer or an entry of the node table, as they
are saved now or in the layout before. -/
def restoreItem (allowLocal : Bool) (h : Host toPublic) :
    StateT RLP (Except Exception) (Host toPublic) := do
  let address ← hasAddress
  if !address then pure h
  else
    let i ← get
    let count ← i.itemCount
    if count = 4 ∨ count = 11 then
      let item ← access 3
      let id ← item.toHash 64 .strict
      let endpoint ← NodeIPEndpoint.interpretRLP
      let n : Node := { id, endpoint }
      if count = 4 ∧ endpoint.isAllowed allowLocal then pure (h.addNode n .unknown)
      else if count = 11 then h.restorePeer allowLocal n 4
      else pure h
    else if count = 3 ∨ count = 10 then
      let item ← access 2
      let id ← item.toHash 64 .strict
      let item ← access 0
      let address ← (readBytes.run' item : Except Exception Bytes)
      let item ← access 1
      let port ← item.toInt 2 .strict
      let port := UInt16.ofNat port
      let endpoint : NodeIPEndpoint := ⟨.v4 (RLP.alignRight 4 address), port, port⟩
      let n : Node := { id, endpoint }
      if count = 3 ∧ endpoint.isAllowed allowLocal then pure (h.addNode n .unknown)
      else if count = 10 then h.restorePeer allowLocal n 3
      else pure h
    else pure h

/-- The items of a network whose version can be read. -/
def restoreItems (allowLocal : Bool) (h : Host toPublic) :
    StateT RLP (Except Exception) (Host toPublic) := do
  let first ← access 0
  let fileVersion ← first.toInt 4 .strict
  let r ← get
  let count ← r.itemCount
  let first ← access 0
  let int ← first.isInt
  if count > 0 ∧ int ∧ fileVersion ≥ c_protocolVersion - 1 then
    let third ← access 2
    let items ← third.toList
    (items.foldlM (fun h i => (restoreItem allowLocal h).run' i) h
      : Except Exception (Host toPublic))
  else pure h

def restoreNetwork (allowLocal : Bool) (h : Host toPublic) (b : BytesConstRef) :
    Except Exception (Host toPublic) :=
  if b.count = 0 then .ok h
  else if !h.isStarted then .error .networkStartRequired
  else if h.dropPeers then .ok h
  else do
    let r ← RLP.ofRef b .veryStrict
    (h.restoreItems allowLocal).run' r

/-- Whether a network has a key that can be read. -/
def hasAlias : StateT RLP (Except Exception) Bool := do
  let r ← get
  let count ← r.itemCount
  if count = 3 then
    let first ← access 0
    let int ← first.isInt
    if int then
      let first ← access 0
      let version ← first.toInt 4 .strict
      pure (decide (version ≥ 3))
    else pure false
  else pure false

/-- The key pair of a saved network, or else one that was created. -/
def networkAlias (created : KeyPair toPublic) (b : BytesConstRef) :
    Except Exception (KeyPair toPublic) := do
  let r ← RLP.ofRef b .veryStrict
  StateT.run' (do
    let saved ← hasAlias
    if saved then
      let second ← access 1
      let secret ← second.toBytes
      pure (.ofSecret (.ofBytes 32 secret))
    else pure created) r

end Host

end Web3Core
