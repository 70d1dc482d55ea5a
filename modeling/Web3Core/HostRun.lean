/-
`Host::run` of `Host.cpp`: what the host does when its timer expires.  It
handles the events of the node table, forgets the sessions that are gone, and
calls `connect` for the peers that are due: for those that are required, and
for as many others as there are slots open.
-/
import Mathlib.Data.Finset.Card
import Web3Core.Host
import Web3Core.Runs

namespace Web3Core

variable {toPublic : H256 → H512}

namespace Peer

/-- The number of seconds to wait until attempting connection, based on
attempted connection history. -/
def fallbackSeconds (p : Peer) : UInt32 :=
  if p.peerType = .required then 5
  else if p.lastDisconnect = 2 then 30 * (p.failedAttempts + 1)
  else if p.lastDisconnect = 3 ∨ p.lastDisconnect = 4 then
    25 * (p.failedAttempts + 1)
  else if p.lastDisconnect = 8 then 15 * (p.failedAttempts + 1)
  else if p.failedAttempts < 5 then
    if p.failedAttempts ≠ 0 then p.failedAttempts * 5 else 5
  else if p.failedAttempts < 15 then 25 + (p.failedAttempts - 5) * 10
  else 25 + 100 + (p.failedAttempts - 15) * 20

/-- Whether a connection should be attempted to this peer. -/
def shouldReconnect (now : SystemTime) (p : Peer) : Bool :=
  !p.id.data.all (· == 0) && p.endpoint.isSet &&
    decide (now > p.lastAttempted + seconds p.fallbackSeconds.toNat)

end Peer

namespace PeerMap

/-- The peer with an id is changed in its place. -/
def modify (ps : PeerMap) (id : NodeID) (f : Peer → Peer)
    (hf : ∀ p, (f p).id = p.id) : PeerMap where
  peers := ps.peers.map fun p => if p.id = id then f p else p
  nodup := by
    have hids : (ps.peers.map fun p => if p.id = id then f p else p).map
        (fun p => p.id) = ps.peers.map fun p => p.id := by
      rw [List.map_map]
      refine List.map_congr_left fun p _ => ?_
      by_cases h : p.id = id
      · rw [Function.comp_apply, if_pos h, hf]
      · rw [Function.comp_apply, if_neg h]
    rw [hids]
    exact ps.nodup

/-- `m_peers.erase(_n)`. -/
def erase (ps : PeerMap) (id : NodeID) : PeerMap where
  peers := ps.peers.filter (·.id ≠ id)
  nodup := ps.nodup.sublist (List.filter_sublist.map _)

theorem find_modify (ps : PeerMap) (id x : NodeID) (f : Peer → Peer)
    (hf : ∀ p, (f p).id = p.id) :
    (ps.modify id f hf).find x =
      (ps.find x).map fun p => if p.id = id then f p else p := by
  rw [find, modify]
  dsimp only
  rw [List.find?_map, find]
  congr 2
  funext p
  rw [Function.comp_apply]
  split
  · rw [hf]
  · rfl

theorem find_erase (ps : PeerMap) (id x : NodeID) :
    (ps.erase id).find x = if x = id then none else ps.find x := by
  rw [find, erase]
  dsimp only
  rw [List.find?_filter]
  split
  · next hx =>
      rw [List.find?_eq_none]
      intro p _
      simp [hx]
  · next hx =>
      rw [find]
      congr 1
      funext p
      by_cases hp : p.id = x
      · simp [hp, hx]
      · simp [hp]

end PeerMap

namespace NodeTable

/-- `haveNode`. -/
def haveNode (t : NodeTable) (id : NodeID) : Bool := (t.nodes id).isSome

/-- `node`: the node with an id, or none for the unspecified node. -/
def nodeOf (t : NodeTable) (id : NodeID) : Option Node :=
  (t.nodes id).bind fun p => t.entries[p]?.map fun e =>
    ⟨id, e.endpoint, e.peerType⟩

end NodeTable

/-- What the host keeps besides its peers.  A session that is gone is `none`;
one that is there is connected or not.  A connection that is pending is known
by the address of its peer. -/
structure RunningHost (toPublic : H256 → H512) extends Host toPublic where
  requiredPeers : Finset NodeID := ∅
  sessions : List (NodeID × Option Bool) := []
  pendingPeerConns : Finset Nat := ∅
  idealPeerCount : UInt32 := 11
  /-- `m_netPrefs.pin`. -/
  pin : Bool := false
  lastPing : TimePoint := -2 ^ 63

/-- When a tick is, by both clocks, and where the peers are in memory. -/
structure Tick where
  now : SystemTime
  steady : TimePoint
  address : NodeID → Nat

/-- A tick: the host after it, and of its last loop the slots that were open
before it and the peers that `connect` was called for. -/
structure TickResult (toPublic : H256 → H512) where
  host : RunningHost toPublic
  openSlots : Int := 0
  optional : List Peer := []

/-- Interval at which `run` will call `keepAlivePeers` to ping peers. -/
def c_keepAliveInterval : Int := seconds 30

namespace RunningHost

def havePeerSession (h : RunningHost toPublic) (id : NodeID) : Bool :=
  h.sessions.any fun s => s.1 == id && s.2.isSome

/-- The number of peers connected. -/
def peerCount (h : RunningHost toPublic) : UInt32 :=
  .ofNat (h.sessions.countP fun s => s.2 == some true)

/-- Whether pending and connected peer count is less than the ideal one. -/
def peerSlotsAvailable (h : RunningHost toPublic) : Bool :=
  decide (h.peerCount.toNat + h.pendingPeerConns.card < h.idealPeerCount.toNat)

variable (t : Tick)

/-- `connect`, as far as it is done at once. -/
def connect (h : RunningHost toPublic) (p : Peer) : RunningHost toPublic :=
  if !h.run then h
  else if h.havePeerSession p.id then h
  else if h.nodeTable.any (fun table => !table.haveNode p.id) &&
      decide (p.peerType = .optional) then h
  else if t.address p.id ∈ h.pendingPeerConns then h
  else { h with
    pendingPeerConns := insert (t.address p.id) h.pendingPeerConns
    peers := h.peers.modify p.id (fun p => { p with lastAttempted := t.now })
      fun _ => rfl }

/-- A peer for a node of the table, or its endpoint where there is one. -/
def addPeerOf (h : RunningHost toPublic) (id : NodeID) (n : Node) :
    RunningHost toPublic :=
  match h.peers.find id with
  | some _ => { h with
      peers := h.peers.modify id (fun p => { p with endpoint := n.endpoint })
        fun _ => rfl }
  | none => { h with peers := h.peers.insert { n with } }

/-- The node table has a node, or has dropped it. -/
def onNodeTableEvent (h : RunningHost toPublic)
    (event : NodeID × NodeTableEventType) : RunningHost toPublic :=
  match event with
  | (id, .nodeEntryAdded) =>
      match h.nodeTable.bind (·.nodeOf id) with
      | none => h
      | some n =>
          if n.id.data.all (· == 0) then h
          else
            let h := h.addPeerOf id n
            if h.peerSlotsAvailable then
              (h.peers.find id).elim h (h.connect t)
            else h
  | (id, .nodeEntryDropped) =>
      match h.peers.find id with
      | some p =>
          if p.peerType = .optional then { h with peers := h.peers.erase id }
          else h
      | none => h

/-- `m_nodeTable->processEvents()`. -/
def processEvents (h : RunningHost toPublic) : RunningHost toPublic :=
  match h.nodeTable with
  | none => h
  | some table =>
      match table.handler with
      | none => h
      | some handler =>
          let h := { h with nodeTable := some { table with
            handler := some handler.processEvents.2 } }
          handler.processEvents.1.foldl (onNodeTableEvent t) h

/-- Sessions that are gone are forgotten when the others are pinged. -/
def keepAlivePeers (h : RunningHost toPublic) : RunningHost toPublic :=
  if t.steady - c_keepAliveInterval < h.lastPing then h
  else { h with
    sessions := h.sessions.filter (·.2.isSome)
    lastPing := t.steady }

/-- Whether a peer is to be connected: it has no session, enough time has gone
by, and it is required where only required peers are connected. -/
def isDue (h : RunningHost toPublic) (p : Peer) : Bool :=
  !h.havePeerSession p.id && p.shouldReconnect t.now &&
    (!h.pin || decide (p.peerType = .required))

/-- The peers to connect. -/
def toConnect (h : RunningHost toPublic) : List Peer :=
  h.peers.peers.filter (h.isDue t)

/-- How many of the required peers have a session. -/
def requiredConnected (h : RunningHost toPublic) : UInt32 :=
  .ofNat (h.peers.peers.countP fun p =>
    h.havePeerSession p.id && decide (p.peerType = .required))

/-- The first loop: the required peers that `connect` is called for, and the
counter after it. -/
def requiredLoop (ideal : UInt32) : List Peer → UInt32 → List Peer × UInt32
  | [], reqConn => ([], reqConn)
  | p :: ps, reqConn =>
      if p.peerType = .required then
        let rest := requiredLoop ideal ps (reqConn + 1)
        if reqConn < ideal then (p :: rest.1, rest.2) else rest
      else requiredLoop ideal ps reqConn

/-- The second loop: the other peers that `connect` is called for.  A slot is
taken from the count even where there was none. -/
def optionalLoop : List Peer → Int → List Peer
  | [], _ => []
  | p :: ps, openSlots =>
      if p.peerType = .optional then
        if openSlots ≠ 0 then p :: optionalLoop ps (openSlots - 1)
        else optionalLoop ps (openSlots - 1)
      else optionalLoop ps openSlots

/-- What is open besides the peers that are connected or about to be. -/
def openSlots (h : RunningHost toPublic) (reqConn : UInt32) : Int :=
  toInt (h.idealPeerCount.toNat - h.peerCount.toNat -
    (UInt32.ofNat h.pendingPeerConns.card).toNat + reqConn.toNat)

/-- The host once the events and the sessions are seen to. -/
def attended (h : RunningHost toPublic) : RunningHost toPublic :=
  (h.processEvents t).keepAlivePeers t

/-- The host and the counter after the first loop. -/
def connectRequired (h : RunningHost toPublic) :
    RunningHost toPublic × UInt32 :=
  let loop := requiredLoop h.idealPeerCount (h.toConnect t) h.requiredConnected
  (loop.1.foldl (connect t) h, loop.2)

/-- `run`: the tick of the timer. -/
def tick (h : RunningHost toPublic) : TickResult toPublic :=
  if !h.run then { host := { h with nodeTable := none } }
  else
    let h := h.attended t
    let toConnect := h.toConnect t
    let (h, reqConn) := h.connectRequired t
    if h.pin then { host := h }
    else
      let openSlots := h.openSlots reqConn
      let optional :=
        if openSlots > 0 then optionalLoop toConnect openSlots else []
      { host := optional.foldl (connect t) h, openSlots, optional }

variable {t : Tick} {ps : List Peer} {k : Int}

theorem optionalLoop_sublist (ps : List Peer) (k : Int) :
    (optionalLoop ps k).Sublist ps := by
  induction ps generalizing k with
  | nil => exact List.Sublist.refl _
  | cons p ps ih =>
      rw [optionalLoop]
      split
      · split
        · exact (ih (k - 1)).cons_cons p
        · exact (ih (k - 1)).cons p
      · exact (ih k).cons p

/-- How many of some peers are not required. -/
def optionalCount (ps : List Peer) : Nat :=
  ps.countP fun p => decide (p.peerType = .optional)

/-- Below zero the count is never again what stops the loop, so from zero on
one peer is left out, and no more than one. -/
theorem length_optionalLoop (ps : List Peer) (k : Int) :
    ((optionalLoop ps k).length : Int) =
      if k < 0 ∨ optionalCount ps ≤ k then (optionalCount ps : Int)
      else optionalCount ps - 1 := by
  induction ps generalizing k with
  | nil =>
      have hk : k < 0 ∨ (0 : Int) ≤ k := lt_or_ge k 0
      simp [optionalLoop, optionalCount, hk]
  | cons p ps ih =>
      rw [optionalLoop]
      by_cases hp : p.peerType = .optional
      · have hcount : optionalCount (p :: ps) = optionalCount ps + 1 :=
          List.countP_cons_of_pos (by simpa using hp)
        rw [if_pos hp, hcount]
        by_cases hk : k = 0
        · rw [if_neg (not_not.mpr hk), ih, if_pos (by omega), if_neg (by omega)]
          omega
        · rw [if_pos hk, List.length_cons, Nat.cast_succ, ih]
          split <;> split <;> omega
      · have hcount : optionalCount (p :: ps) = optionalCount ps :=
          List.countP_cons_of_neg (by simpa using hp)
        rw [if_neg hp, ih, hcount]

end RunningHost

namespace TickResult

/-- The last loop of a tick calls `connect` for no more peers than there are
slots open. -/
def WithinSlots (r : TickResult toPublic) : Prop :=
  ((r.optional.map (·.id)).toFinset.card : Int) ≤ max 0 r.openSlots

instance (r : TickResult toPublic) : Decidable r.WithinSlots :=
  inferInstanceAs (Decidable (_ ≤ _))

end TickResult

namespace RunningHost

variable {t : Tick} {h : RunningHost toPublic}

/-- The slots that the last loop of a tick has. -/
def slots (t : Tick) (h : RunningHost toPublic) : Int :=
  let after := (h.attended t).connectRequired t
  after.1.openSlots after.2

/-- The peers that are due in a tick and are not required. -/
def optionalDue (t : Tick) (h : RunningHost toPublic) : Nat :=
  optionalCount ((h.attended t).toConnect t)

theorem connect_pin (p : Peer) : (h.connect t p).pin = h.pin := by
  unfold connect
  split_ifs <;> rfl

theorem foldl_connect_pin (ps : List Peer) (h : RunningHost toPublic) :
    (ps.foldl (connect t) h).pin = h.pin :=
  foldl_invariant (P := fun g : RunningHost toPublic => g.pin = h.pin)
    (fun _ p hpin => (connect_pin p).trans hpin) ps h rfl

theorem addPeerOf_pin (id : NodeID) (n : Node) :
    (h.addPeerOf id n).pin = h.pin := by
  unfold addPeerOf
  split <;> rfl

theorem onNodeTableEvent_pin (event : NodeID × NodeTableEventType) :
    (h.onNodeTableEvent t event).pin = h.pin := by
  unfold onNodeTableEvent
  split
  · next id =>
    split
    · rfl
    · dsimp only
      split_ifs
      · rfl
      · cases PeerMap.find _ _ with
        | none => exact addPeerOf_pin id _
        | some p => exact (connect_pin p).trans (addPeerOf_pin id _)
      · exact addPeerOf_pin id _
  · split
    · split_ifs <;> rfl
    · rfl

theorem processEvents_pin : (h.processEvents t).pin = h.pin := by
  unfold processEvents
  split
  · rfl
  · split
    · rfl
    · exact foldl_invariant (P := fun g : RunningHost toPublic => g.pin = h.pin)
        (fun _ e hpin => (onNodeTableEvent_pin e).trans hpin) _ _ rfl

/-- What a tick goes by is not changed by what it does. -/
theorem attended_pin : (h.attended t).pin = h.pin := by
  rw [attended, keepAlivePeers]
  split_ifs <;> exact processEvents_pin

theorem connectRequired_pin : (h.connectRequired t).1.pin = h.pin :=
  foldl_connect_pin _ h

/-- The peers that are due are different ones, and so are any of them. -/
theorem nodup_of_sublist_toConnect {ps : List Peer}
    (hps : ps.Sublist (h.toConnect t)) : (ps.map (·.id)).Nodup :=
  h.peers.nodup.sublist ((hps.trans List.filter_sublist).map _)

/-- The last loop of a tick. -/
theorem tick_optional (hrun : h.run) (hpin : h.pin = false) :
    (h.tick t).openSlots = h.slots t ∧
      (h.tick t).optional =
        if h.slots t > 0 then
          optionalLoop ((h.attended t).toConnect t) (h.slots t)
        else [] := by
  have hafter : ((h.attended t).connectRequired t).1.pin = false := by
    rw [connectRequired_pin, attended_pin, hpin]
  simp [tick, hrun, hafter, slots]

/-- A host that is stopped, or connects to required peers only, has no last
loop. -/
theorem tick_optional_of_not (hon : ¬ (h.run ∧ h.pin = false)) :
    (h.tick t).optional = [] := by
  by_cases hrun : h.run
  · have hafter : ((h.attended t).connectRequired t).1.pin = true := by
      rw [connectRequired_pin, attended_pin]
      simpa [hrun] using hon
    simp [tick, hrun, hafter]
  · simp [tick, hrun]

/-- One tick keeps to the slots that it counts exactly if none are open or the
peers that are due and not required are at the most one more than the slots:
where the count reaches zero one peer is passed over, and the peers after it
are connected again. -/
theorem tick_withinSlots_iff (t : Tick) (h : RunningHost toPublic) :
    (h.tick t).WithinSlots ↔
      (h.run → h.pin = false → 0 < h.slots t →
        (h.optionalDue t : Int) ≤ h.slots t + 1) := by
  by_cases hon : h.run ∧ h.pin = false
  · obtain ⟨hslots, hoptional⟩ := tick_optional (t := t) hon.1 hon.2
    rw [TickResult.WithinSlots, hoptional, hslots]
    by_cases hopen : h.slots t > 0
    · have hsub := optionalLoop_sublist ((h.attended t).toConnect t) (h.slots t)
      rw [if_pos hopen, List.toFinset_card_of_nodup (nodup_of_sublist_toConnect hsub),
        List.length_map, length_optionalLoop, optionalDue]
      constructor
      · intro hle _ _ _
        split at hle <;> omega
      · intro hall
        have hdue := hall hon.1 hon.2 hopen
        split <;> omega
    · rw [if_neg hopen]
      exact iff_of_true (le_max_left _ _) fun _ _ h' => absurd h' hopen
  · rw [TickResult.WithinSlots, tick_optional_of_not hon]
    exact iff_of_true (le_max_left _ _) fun hrun hpin =>
      absurd ⟨hrun, hpin⟩ hon

/-- Three nodes of the table are due, the host is to have one peer and has
none: two are connected. -/
theorem not_withinSlots_crowded :
    ¬ ∀ (t : Tick) (h : RunningHost fun k => RLP.alignRight 64 k.data),
      (h.tick t).WithinSlots := by
  intro hall
  let id : Nat → NodeID := fun i => RLP.alignRight 64 [UInt8.ofNat i]
  let endpoint : NodeIPEndpoint :=
    ⟨.v4 (RLP.alignRight 4 [8, 8, 8, 8]), 30303, 30303⟩
  let table : NodeTable := {
    node := ⟨id 9, endpoint, .optional⟩
    entries := [1, 2, 3].map fun i => { id := id i, endpoint, distance := i }
    nodes := fun n => [id 1, id 2, id 3].findIdx? (· == n)
    handler := some {}
    isOpen := true }
  let h : RunningHost fun k => RLP.alignRight 64 k.data := {
    keyAlias := .ofSecret (RLP.alignRight 32 [9])
    peers := ⟨[{ id := id 1, endpoint }, { id := id 2, endpoint },
      { id := id 3, endpoint }], by decide⟩
    nodeTable := some table
    isStarted := true
    run := true
    idealPeerCount := 1 }
  let t : Tick := ⟨seconds 1000, 0, fun n => fromBigEndian n.data⟩
  have hcalls : (h.tick t).optional.map (·.id) = [id 1, id 3] ∧
      (h.tick t).openSlots = 1 := by decide +kernel
  have hwithin := hall t h
  rw [TickResult.WithinSlots, hcalls.1, hcalls.2] at hwithin
  exact absurd hwithin (by decide +kernel)

end RunningHost

end Web3Core
