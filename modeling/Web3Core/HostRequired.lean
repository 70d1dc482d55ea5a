/-
The peers that are required.  A host keeps their ids in `m_requiredPeers`, and
of each peer whether it is a required one.  The operations that require a peer
write only the second, and `relinquishPeer` only the first; so the two agree as
long as no peer was ever required, and no longer.
-/
import Web3Core.DatagramRoundTrip
import Web3Core.HostRestore
import Web3Core.HostRun
import Web3Core.NodeTableChanges
import Web3Core.Runs

namespace Web3Core

variable {toPublic : H256 → H512}

/-- What happens to a host.  A peer may be `met` when it opens a session, and
`noted` is what sessions and connections write down of a peer, which is neither
its id nor its type. -/
inductive HostEvent where
  | addPeer (id : NodeID) (endpoint : NodeIPEndpoint) (type : PeerType)
  | requirePeer (id : NodeID) (endpoint : NodeIPEndpoint)
  | relinquishPeer (id : NodeID)
  | restoreNetwork (b : Bytes)
  | tick (t : Tick)
  | expired (timer : Nat)
  | table (event : NodeTableEvent)
  | met (id : NodeID)
  | noted (id : NodeID) (f : Peer → Peer)
      (hf : ∀ p, (f p).id = p.id ∧ (f p).peerType = p.peerType)
  | connections (sessions : List (NodeID × Option Bool)) (pending : Finset Nat)

namespace PeerMap

/-- What type the entry of an id is of. -/
def typeOf (ps : PeerMap) (id : NodeID) : Option PeerType :=
  (ps.find id).map (·.peerType)

theorem typeOf_insert (ps : PeerMap) (p : Peer) (id : NodeID) :
    (ps.insert p).typeOf id =
      if p.id = id then some p.peerType else ps.typeOf id := by
  rw [typeOf, find_insert]
  split <;> rfl

theorem typeOf_modify (ps : PeerMap) (id x : NodeID) {f : Peer → Peer}
    (hf : ∀ p, (f p).id = p.id) (htype : ∀ p, (f p).peerType = p.peerType) :
    (ps.modify id f hf).typeOf x = ps.typeOf x := by
  rw [typeOf, find_modify, Option.map_map, typeOf]
  congr 1
  funext p
  rw [Function.comp_apply]
  split
  · exact htype p
  · rfl

theorem typeOf_erase (ps : PeerMap) (id x : NodeID) :
    (ps.erase id).typeOf x = if x = id then none else ps.typeOf x := by
  rw [typeOf, find_erase]
  split <;> rfl

theorem id_of_find {ps : PeerMap} {id : NodeID} {p : Peer}
    (hfind : ps.find id = some p) : p.id = id := by
  simpa using List.find?_some hfind

theorem typeOf_of_mem {ps : PeerMap} {p : Peer} (hp : p ∈ ps.peers) :
    ps.typeOf p.id = some p.peerType := by
  cases hfind : ps.find p.id with
  | none =>
      rw [find, List.find?_eq_none] at hfind
      exact absurd (hfind p hp) (by simp)
  | some q =>
      have hq : q ∈ ps.peers := List.mem_of_find?_eq_some hfind
      rw [typeOf, hfind,
        List.inj_on_of_nodup_map ps.nodup hq hp (id_of_find hfind)]
      rfl

end PeerMap

namespace NodeTable

/-- No entry of a table is that of a required peer. -/
def Plain (t : NodeTable) : Prop :=
  ∀ (p : NodePtr) (e : NodeEntry), t.entries[p]? = some e →
    e.peerType = .optional

variable {ctx : NodeContext} {m : Moment} {event : NodeTableEvent}
  {start t t' : NodeTable}

theorem Plain.insertEntry (h : Plain t) {node : Node} {pending : Bool} :
    Plain (t.insertEntry (t.newEntry ctx node pending)) := by
  intro p e he
  rcases getElem?_insertEntry he with rfl | he
  · rfl
  · exact h p e he

theorem Plain.modifyEntry (h : Plain t) {p : NodePtr}
    {f : NodeEntry → NodeEntry} (hf : ∀ e, (f e).peerType = e.peerType) :
    Plain (t.modifyEntry p f) := by
  intro q e he
  rw [getElem?_modifyEntry] at he
  split at he
  · obtain ⟨e', he', rfl⟩ := Option.map_eq_some_iff.mp he
    rw [hf]
    exact h q e' he'
  · exact h q e he

theorem Plain.aside (h : Plain t) (haside : Aside t t') : Plain t' := by
  rw [Plain, haside.entries]
  exact h

theorem Change.plain (hchange : Change ctx start m event t t') (h : Plain t) :
    Plain t' := by
  cases hchange with
  | aside haside => exact h.aside haside
  | added node hnone => exact h.insertEntry.aside (aside_ping _ _)
  | known node => exact h.insertEntry
  | answered => exact h.modifyEntry fun _ => rfl
  | moved => exact h.modifyEntry fun _ => rfl
  | noted => exact h
  | removed => exact h
  | evicting => exact h
  | erased => exact h
  | asked target hopen hstart he =>
      rw [sendFindNode_eq he]
      refine Plain.aside ?_ (aside_send _ _)
      exact h

theorem step_plain (hconsistent : Consistent t) (h : Plain t)
    (hstep : step ctx t (m, event) = some t') : Consistent t' ∧ Plain t' := by
  have hchanges := changes_step hconsistent hstep
  refine ⟨hchanges.consistent hconsistent, ?_⟩
  clear hstep
  induction hchanges with
  | refl => exact h
  | tail _ hchange ih => exact hchange.plain ih

theorem nodeOf_plain (h : Plain t) {id : NodeID} {n : Node}
    (hnode : t.nodeOf id = some n) : n.peerType = .optional := by
  obtain ⟨p, -, hp⟩ := Option.bind_eq_some_iff.mp hnode
  obtain ⟨e, he, rfl⟩ := Option.map_eq_some_iff.mp hp
  exact h p e he

end NodeTable

namespace RunningHost

/-- Network is started and interactive. -/
def haveNetwork (h : RunningHost toPublic) : Bool :=
  h.run && h.nodeTable.isSome

/-- `addPeer`; an optional one is a node for the table, if there is one. -/
def addPeer (h : RunningHost toPublic) (id : NodeID)
    (endpoint : NodeIPEndpoint) (type : PeerType) : RunningHost toPublic :=
  match type with
  | .optional =>
      if h.haveNetwork then
        { h with toHost := h.toHost.addNode ⟨id, endpoint, .optional⟩ .unknown }
      else h
  | .required => { h with toHost := h.toHost.requirePeer id endpoint }

/-- Note peer as no longer being required. -/
def relinquishPeer (h : RunningHost toPublic) (id : NodeID) :
    RunningHost toPublic :=
  { h with requiredPeers := h.requiredPeers.erase id }

/-- The node that a timer was set for, when it expires. -/
def nodeOfTimer (h : RunningHost toPublic) (timer : Nat) : Option Node :=
  (h.timers[timer]?).bind fun id =>
    (h.nodeTable.bind (·.nodeOf id)).filter fun n => !n.id.data.all (· == 0)

/-- A timer of `requirePeer` expires. -/
def expire (h : RunningHost toPublic) (timer : Nat) : RunningHost toPublic :=
  let h' := { h with timers := h.timers.eraseIdx timer }
  match h.nodeOfTimer timer with
  | some n => { h' with toHost := h'.toHost.requirePeer n.id n.endpoint }
  | none => h'

/-- What `startPeerSession` makes of a peer that is not known. -/
def meet (h : RunningHost toPublic) (id : NodeID) : RunningHost toPublic :=
  match h.peers.find id with
  | some _ => h
  | none =>
      match h.nodeTable.bind (·.nodeOf id) with
      | some n =>
          if n.id.data.all (· == 0) then
            { h with peers := h.peers.insert { id, endpoint := {} } }
          else { h with peers := h.peers.insert { n with } }
      | none => { h with peers := h.peers.insert { id, endpoint := {} } }

/-- The node table adds what it was told to. -/
def deliver (ctx : NodeContext) (m : Moment) (h : RunningHost toPublic) :
    Option (RunningHost toPublic) :=
  match h.nodeTable with
  | none => some { h with added := [] }
  | some table =>
      (h.added.foldlM (fun table a => NodeTable.step ctx table
        (m, .addNode a.1 a.2)) table).map fun table =>
          { h with nodeTable := some table, added := [] }

/-- One event.  A network that cannot be read ends the run. -/
def step (ctx : NodeContext) (h : RunningHost toPublic)
    (event : Moment × HostEvent) : Option (RunningHost toPublic) :=
  match event with
  | (m, .addPeer id endpoint type) => (h.addPeer id endpoint type).deliver ctx m
  | (m, .requirePeer id endpoint) =>
      { h with toHost := h.toHost.requirePeer id endpoint }.deliver ctx m
  | (_, .relinquishPeer id) => some (h.relinquishPeer id)
  | (m, .restoreNetwork b) =>
      match h.toHost.restoreNetwork ctx.allowLocal (.ofBytes b) with
      | .error _ => none
      | .ok host => { h with toHost := host }.deliver ctx m
  | (_, .tick t) => some (h.tick t).host
  | (m, .expired timer) => (h.expire timer).deliver ctx m
  | (m, .table event) =>
      match h.nodeTable with
      | none => some h
      | some table => (NodeTable.step ctx table (m, event)).map fun table =>
          { h with nodeTable := some table }
  | (_, .met id) => some (h.meet id)
  | (_, .noted id f hf) =>
      some { h with peers := h.peers.modify id f fun p => (hf p).1 }
  | (_, .connections sessions pending) =>
      some { h with sessions, pendingPeerConns := pending }

/-- A host that has just been started, with nothing restored. -/
def started (keyAlias : KeyPair toPublic) (table : NodeTable)
    (idealPeerCount : UInt32) (pin dropPeers : Bool) : RunningHost toPublic where
  keyAlias := keyAlias
  nodeTable := some table
  isStarted := true
  run := true
  dropPeers := dropPeers
  idealPeerCount := idealPeerCount
  pin := pin

/-- The ids that are kept as required are those of the peers that are. -/
def Bookkept (h : RunningHost toPublic) : Prop :=
  ∀ id, id ∈ h.requiredPeers ↔ h.peers.typeOf id = some .required

/-- Nothing treats a peer as required: a tick neither connects it as such nor
counts it among those that are connected, and it is not saved as such. -/
structure Unrequired (h : RunningHost toPublic) (id : NodeID) : Prop where
  connect : ∀ t, ∀ p ∈ (requiredLoop (h.attended t).idealPeerCount
    ((h.attended t).toConnect t) (h.attended t).requiredConnected).1, p.id ≠ id
  count : ∀ t, ∀ p ∈ (h.attended t).peers.peers,
    (h.attended t).havePeerSession p.id = true → p.peerType = .required → p.id ≠ id
  saved : ∀ allowLocal now, ∀ p ∈ h.savedPeers allowLocal now,
    p.peerType = .required → p.id ≠ id

end RunningHost

namespace SavedItem

/-- The last peer with an id, as the items are kept one after the other. -/
def lastOf (saved : List SavedItem) (id : NodeID) : Option Peer :=
  saved.foldl (fun last item =>
    match item with
    | .peer p => if p.id = id then some p else last
    | _ => last) none

end SavedItem

namespace RunningHost

/-- An event makes a peer a required one. -/
def Requires (ctx : NodeContext) (h : RunningHost toPublic) : HostEvent → Prop
  | .addPeer id _ type =>
      h.run = true ∧ type = .required ∧ id.data.all (· == 0) = false
  | .requirePeer id _ => h.run = true ∧ id.data.all (· == 0) = false
  | .restoreNetwork b =>
      b ≠ [] ∧ h.isStarted = true ∧ h.dropPeers = false ∧
        ∃ saved, SavedItem.ofNetwork ctx.allowLocal (.ofBytes b) = .ok saved ∧
          ∃ id p, SavedItem.lastOf saved id = some p ∧ p.peerType = .required
  | .expired timer => h.run = true ∧ (h.nodeOfTimer timer).isSome = true
  | _ => False

/-- Nothing is kept as required, nothing is required, and the node table has
no entry that would be. -/
structure NoneRequired (h : RunningHost toPublic) : Prop where
  requiredPeers : h.requiredPeers = ∅
  typeOf : ∀ id, h.peers.typeOf id ≠ some .required
  table : ∀ t ∈ h.nodeTable, t.Consistent ∧ t.Plain

variable {h h' : RunningHost toPublic} {t : Tick}

/-- Where no more peers are required than before, none are. -/
theorem NoneRequired.mono (hnone : h.NoneRequired)
    (hids : h'.requiredPeers = h.requiredPeers)
    (htypes : ∀ id, h'.peers.typeOf id = some .required →
      h.peers.typeOf id = some .required)
    (htable : h'.nodeTable = h.nodeTable) : h'.NoneRequired where
  requiredPeers := hids.trans hnone.requiredPeers
  typeOf id htype := hnone.typeOf id (htypes id htype)
  table := by
    rw [htable]
    exact hnone.table

theorem NoneRequired.connect (hnone : h.NoneRequired) (p : Peer) :
    (h.connect t p).NoneRequired := by
  unfold RunningHost.connect
  split_ifs
  · exact hnone
  · exact hnone
  · exact hnone
  · exact hnone
  · refine hnone.mono rfl (fun id htype => ?_) rfl
    dsimp only at htype
    rwa [PeerMap.typeOf_modify _ _ _ _ (by exact fun _ => rfl)] at htype

theorem NoneRequired.foldl_connect (ps : List Peer) (hnone : h.NoneRequired) :
    (ps.foldl (RunningHost.connect t) h).NoneRequired :=
  foldl_invariant (fun _ p hnone => hnone.connect p) ps h hnone

theorem NoneRequired.insert (hnone : h.NoneRequired) {p : Peer}
    (hp : p.peerType = .optional) :
    { h with peers := h.peers.insert p }.NoneRequired := by
  refine hnone.mono rfl (fun id htype => ?_) rfl
  dsimp only at htype
  rw [PeerMap.typeOf_insert, hp] at htype
  split at htype
  · cases htype
  · exact htype

theorem NoneRequired.nodeOf (hnone : h.NoneRequired) {id : NodeID} {n : Node}
    (hnode : h.nodeTable.bind (·.nodeOf id) = some n) :
    n.peerType = .optional := by
  obtain ⟨table, htable, hn⟩ := Option.bind_eq_some_iff.mp hnode
  exact NodeTable.nodeOf_plain (hnone.table table htable).2 hn

theorem NoneRequired.addPeerOf (hnone : h.NoneRequired) (id : NodeID) {n : Node}
    (hn : n.peerType = .optional) : (h.addPeerOf id n).NoneRequired := by
  unfold RunningHost.addPeerOf
  split
  · refine hnone.mono rfl (fun x htype => ?_) rfl
    dsimp only at htype
    rwa [PeerMap.typeOf_modify _ _ _ _ (by exact fun _ => rfl)] at htype
  · exact hnone.insert hn

theorem NoneRequired.onNodeTableEvent (hnone : h.NoneRequired)
    (event : NodeID × NodeTableEventType) :
    (h.onNodeTableEvent t event).NoneRequired := by
  unfold RunningHost.onNodeTableEvent
  split
  · next id =>
      split
      · exact hnone
      · next n hnode =>
          have hadded := hnone.addPeerOf id (hnone.nodeOf hnode)
          dsimp only
          split_ifs
          · exact hnone
          · cases PeerMap.find _ _ with
            | none => exact hadded
            | some p => exact hadded.connect p
          · exact hadded
  · split
    · split
      · refine hnone.mono rfl (fun x htype => ?_) rfl
        dsimp only at htype
        rw [PeerMap.typeOf_erase] at htype
        split at htype
        · cases htype
        · exact htype
      · exact hnone
    · exact hnone

theorem NoneRequired.processEvents (hnone : h.NoneRequired) :
    (h.processEvents t).NoneRequired := by
  unfold RunningHost.processEvents
  split
  · exact hnone
  · next table htable =>
      split
      · exact hnone
      · next handler _ =>
          refine foldl_invariant (fun _ e hnone => hnone.onNodeTableEvent e) _ _
            ⟨hnone.requiredPeers, hnone.typeOf, ?_⟩
          rintro _ ⟨⟩
          exact hnone.table table htable

theorem NoneRequired.attended (hnone : h.NoneRequired) (t : Tick) :
    (h.attended t).NoneRequired := by
  rw [RunningHost.attended, RunningHost.keepAlivePeers]
  split_ifs
  · exact hnone.processEvents
  · exact hnone.processEvents.mono rfl (fun _ htype => htype) rfl

theorem NoneRequired.tick (hnone : h.NoneRequired) (t : Tick) :
    (h.tick t).host.NoneRequired := by
  unfold RunningHost.tick
  split_ifs
  · exact ⟨hnone.requiredPeers, hnone.typeOf, fun t' ht' => by cases ht'⟩
  · have hafter : ((h.attended t).connectRequired t).1.NoneRequired :=
      (hnone.attended t).foldl_connect _
    dsimp only
    split_ifs
    · exact hafter
    · exact hafter.foldl_connect _
    · exact hafter.foldl_connect _

/-- With no peer required, both records are empty. -/
theorem NoneRequired.bookkept (hnone : h.NoneRequired) : h.Bookkept := by
  intro id
  rw [hnone.requiredPeers]
  exact iff_of_false (Finset.notMem_empty id) (hnone.typeOf id)

theorem not_mem_of_typeOf {id : NodeID} (htype : h.peers.typeOf id ≠ some .required)
    {p : Peer} (hp : p ∈ h.peers.peers) (hrequired : p.peerType = .required) :
    p.id ≠ id := by
  rintro rfl
  rw [PeerMap.typeOf_of_mem hp, hrequired] at htype
  exact htype rfl

theorem requiredLoop_subset {ideal n : UInt32} {ps : List Peer} {p : Peer}
    (hp : p ∈ (requiredLoop ideal ps n).1) :
    p ∈ ps ∧ p.peerType = .required := by
  induction ps generalizing n with
  | nil => cases hp
  | cons q ps ih =>
      rw [requiredLoop] at hp
      split at hp
      · next hq =>
          dsimp only at hp
          split at hp
          · rcases List.mem_cons.mp hp with rfl | hp
            · exact ⟨List.mem_cons_self, hq⟩
            · exact (ih hp).imp_left (List.mem_cons_of_mem q)
          · exact (ih hp).imp_left (List.mem_cons_of_mem q)
      · exact (ih hp).imp_left (List.mem_cons_of_mem q)

/-- With no peer required, none is treated as one. -/
theorem NoneRequired.unrequired (hnone : h.NoneRequired) (id : NodeID) :
    h.Unrequired id where
  connect t p hp := by
    obtain ⟨hdue, hrequired⟩ := requiredLoop_subset hp
    exact not_mem_of_typeOf ((hnone.attended t).typeOf id)
      (List.mem_of_mem_filter hdue) hrequired
  count t p hp _ hrequired :=
    not_mem_of_typeOf ((hnone.attended t).typeOf id) hp hrequired
  saved allowLocal now p hp hrequired := by
    refine not_mem_of_typeOf (hnone.typeOf id) ?_ hrequired
    exact (List.mergeSort_perm _ _).subset (List.mem_of_mem_filter hp)

theorem NoneRequired.deliver {ctx : NodeContext} {m : Moment}
    (hnone : h.NoneRequired) (hdeliver : h.deliver ctx m = some h') :
    h'.NoneRequired := by
  rw [RunningHost.deliver] at hdeliver
  split at hdeliver
  · next htable =>
      cases hdeliver
      exact hnone.mono rfl (fun _ htype => htype) rfl
  · next table htable =>
      obtain ⟨table', hfold, rfl⟩ := Option.map_eq_some_iff.mp hdeliver
      refine ⟨hnone.requiredPeers, hnone.typeOf, ?_⟩
      rintro _ ⟨⟩
      exact @foldlM_history _ _ _ table
        (fun _ table => table.Consistent ∧ table.Plain) (hnone.table table htable)
        (fun _ _ _ _ _ hplain hadd =>
          NodeTable.step_plain hplain.1 hplain.2 hadd) h.added table' hfold

/-- What is delivered changes nothing about the peers. -/
theorem deliver_peers {ctx : NodeContext} {m : Moment}
    (hdeliver : h.deliver ctx m = some h') :
    h'.peers = h.peers ∧ h'.requiredPeers = h.requiredPeers := by
  rw [deliver] at hdeliver
  split at hdeliver
  · cases hdeliver
    exact ⟨rfl, rfl⟩
  · obtain ⟨_, -, rfl⟩ := Option.map_eq_some_iff.mp hdeliver
    exact ⟨rfl, rfl⟩

end RunningHost

namespace Host

variable (h : Host toPublic)

theorem requirePeer_nodeTable (id : NodeID) (endpoint : NodeIPEndpoint) :
    (h.requirePeer id endpoint).nodeTable = h.nodeTable := by
  unfold requirePeer
  dsimp only
  split_ifs <;> rfl

/-- To require a peer is to make its entry, if it has an id. -/
theorem typeOf_requirePeer (id : NodeID) (endpoint : NodeIPEndpoint)
    (x : NodeID) :
    (h.requirePeer id endpoint).peers.typeOf x =
      if h.run = true ∧ id.data.all (· == 0) = false ∧ id = x then
        some .required
      else h.peers.typeOf x := by
  by_cases hmade : h.run = true ∧ id.data.all (· == 0) = false
  · obtain ⟨p, hp, htype, hpeers⟩ : ∃ p : Peer, p.id = id ∧
        p.peerType = .required ∧
        (h.requirePeer id endpoint).peers = h.peers.insert p := by
      rw [requirePeer, if_neg (by simp [hmade.1]), if_pos (by simp [hmade.2])]
      dsimp only
      cases hfind : h.peers.find id with
      | none =>
          refine ⟨{ id, endpoint, peerType := .required }, rfl, rfl, ?_⟩
          split <;> rfl
      | some p =>
          have hp := PeerMap.id_of_find hfind
          refine ⟨{ p with endpoint, peerType := .required }, hp, rfl, ?_⟩
          split <;> rfl
    rw [hpeers, PeerMap.typeOf_insert, hp, htype]
    simp [hmade.1, hmade.2]
  · have hpeers : (h.requirePeer id endpoint).peers = h.peers := by
      rw [requirePeer]
      split
      · rfl
      · next hrun =>
          rw [if_neg fun hid => hmade ⟨by simpa using hrun, by simpa using hid⟩]
          split <;> rfl
    rw [hpeers, if_neg fun hall => hmade ⟨hall.1, hall.2.1⟩]

theorem keep_nodeTable (item : SavedItem) :
    (h.keep item).nodeTable = h.nodeTable := by
  cases item with
  | skipped => rfl
  | entry n => rfl
  | peer p =>
      rw [keep]
      split
      · exact requirePeer_nodeTable _ _ _
      · rfl

/-- A peer that is kept has the type it was saved with. -/
theorem typeOf_keep_peer (p : Peer) (x : NodeID) :
    (h.keep (.peer p)).peers.typeOf x =
      if p.id = x then some p.peerType else h.peers.typeOf x := by
  rw [keep]
  split
  · next hp =>
      rw [typeOf_requirePeer, PeerMap.typeOf_insert, hp]
      split
      · next hall => rw [if_pos hall.2.2]
      · rfl
  · rw [addNode]
    exact PeerMap.typeOf_insert _ _ _

theorem foldl_keep_nodeTable (saved : List SavedItem) :
    (saved.foldl keep h).nodeTable = h.nodeTable := by
  induction saved generalizing h with
  | nil => rfl
  | cons item saved ih => rw [List.foldl_cons, ih, keep_nodeTable]

/-- Of the peers with an id the last that is kept is the one that counts. -/
theorem typeOf_foldl_keep (saved : List SavedItem) (x : NodeID) :
    (saved.foldl keep h).peers.typeOf x =
      ((SavedItem.lastOf saved x).map (·.peerType)).or (h.peers.typeOf x) := by
  induction saved using List.reverseRecOn with
  | nil => rfl
  | append_singleton saved item ih =>
      rw [List.foldl_append, List.foldl_cons, List.foldl_nil,
        SavedItem.lastOf, List.foldl_append, List.foldl_cons, List.foldl_nil]
      cases item with
      | skipped => exact ih
      | entry n => exact ih
      | peer p =>
          rw [typeOf_keep_peer]
          dsimp only
          split
          · rfl
          · exact ih

/-- A network that is restored is either not looked at, or read and kept. -/
theorem restoreNetwork_cases {allowLocal : Bool} {b : Bytes}
    {host : Host toPublic}
    (hrestore : h.restoreNetwork allowLocal (.ofBytes b) = .ok host) :
    (b = [] ∨ h.dropPeers = true) ∧ host = h ∨
      b ≠ [] ∧ h.isStarted = true ∧ h.dropPeers = false ∧
        ∃ saved, SavedItem.ofNetwork allowLocal (.ofBytes b) = .ok saved ∧
          host = saved.foldl keep h := by
  by_cases hb : b = []
  · subst hb
    cases hrestore
    exact .inl ⟨.inl rfl, rfl⟩
  · have hcount : (BytesConstRef.ofBytes b).count ≠ 0 :=
      fun hzero => hb (List.length_eq_zero_iff.mp hzero)
    cases hdrop : h.dropPeers with
    | true =>
        rw [restoreNetwork, if_neg hcount, hdrop, if_pos rfl] at hrestore
        split at hrestore
        · cases hrestore
        · cases hrestore
          exact .inl ⟨.inr rfl, rfl⟩
    | false =>
        cases hstarted : h.isStarted with
        | false =>
            rw [restoreNetwork, if_neg hcount, if_pos (by simp [hstarted])]
              at hrestore
            cases hrestore
        | true =>
            rw [restoreNetwork_eq_keep hcount hstarted hdrop] at hrestore
            refine .inr ⟨hb, rfl, rfl, ?_⟩
            cases hread : SavedItem.ofNetwork allowLocal (.ofBytes b) with
            | error e =>
                rw [hread] at hrestore
                cases hrestore
            | ok saved =>
                rw [hread] at hrestore
                cases hrestore
                exact ⟨saved, rfl, rfl⟩

end Host

namespace RunningHost

variable {ctx : NodeContext} {m : Moment} {event : HostEvent}
  {h h' : RunningHost toPublic}

/-- What a host requires that required none, when it requires a peer. -/
theorem NoneRequired.requirePeer (hnone : h.NoneRequired) {id : NodeID}
    {endpoint : NodeIPEndpoint}
    (hnot : ¬ (h.run = true ∧ id.data.all (· == 0) = false)) :
    { h with toHost := h.toHost.requirePeer id endpoint }.NoneRequired := by
  refine hnone.mono rfl (fun x htype => ?_) (Host.requirePeer_nodeTable _ _ _)
  dsimp only at htype
  rwa [Host.typeOf_requirePeer, if_neg fun hall => hnot ⟨hall.1, hall.2.1⟩]
    at htype

theorem NoneRequired.meet (hnone : h.NoneRequired) (id : NodeID) :
    (h.meet id).NoneRequired := by
  unfold RunningHost.meet
  split
  · exact hnone
  · split
    · next n hnode =>
        split
        · exact hnone.insert rfl
        · exact hnone.insert (hnone.nodeOf hnode)
    · exact hnone.insert rfl

theorem NoneRequired.expire (hnone : h.NoneRequired) {timer : Nat}
    (hnot : ¬ (h.run = true ∧ (h.nodeOfTimer timer).isSome = true)) :
    (h.expire timer).NoneRequired := by
  have herased : { h with timers := h.timers.eraseIdx timer }.NoneRequired :=
    hnone.mono rfl (fun _ htype => htype) rfl
  rw [RunningHost.expire]
  split
  · next n hnode =>
      exact herased.requirePeer fun hall => hnot ⟨hall.1, by rw [hnode]; rfl⟩
  · exact herased

/-- An event that requires no peer leaves none required. -/
theorem NoneRequired.step (hnone : h.NoneRequired)
    (hgood : ¬ h.Requires ctx event) (hstep : h.step ctx (m, event) = some h') :
    h'.NoneRequired := by
  cases event with
  | addPeer id endpoint type =>
      refine NoneRequired.deliver ?_ hstep
      cases type with
      | optional =>
          rw [RunningHost.addPeer]
          split
          · exact hnone.mono rfl (fun _ htype => htype) rfl
          · exact hnone
      | required =>
          exact hnone.requirePeer fun hall => hgood ⟨hall.1, rfl, hall.2⟩
  | requirePeer id endpoint => exact (hnone.requirePeer hgood).deliver hstep
  | relinquishPeer id =>
      cases hstep
      refine ⟨?_, hnone.typeOf, hnone.table⟩
      rw [relinquishPeer, hnone.requiredPeers]
      rfl
  | restoreNetwork b =>
      rw [RunningHost.step] at hstep
      split at hstep
      · cases hstep
      · next host hrestore =>
          refine NoneRequired.deliver ?_ hstep
          rcases Host.restoreNetwork_cases _ hrestore with
            ⟨-, rfl⟩ | ⟨hb, hstarted, hdrop, saved, hread, rfl⟩
          · exact hnone
          · refine hnone.mono rfl (fun x htype => ?_) (Host.foldl_keep_nodeTable _ _)
            dsimp only at htype
            rw [Host.typeOf_foldl_keep] at htype
            rcases Option.or_eq_some_iff.mp htype with hlast | ⟨-, htype⟩
            · obtain ⟨p, hp, hrequired⟩ := Option.map_eq_some_iff.mp hlast
              exact absurd ⟨hb, hstarted, hdrop, saved, hread, x, p, hp, hrequired⟩
                hgood
            · exact htype
  | tick t =>
      cases hstep
      exact hnone.tick t
  | expired timer => exact (hnone.expire hgood).deliver hstep
  | table event =>
      rw [RunningHost.step] at hstep
      split at hstep
      · cases hstep
        exact hnone
      · next table htable =>
          obtain ⟨table', htable', rfl⟩ := Option.map_eq_some_iff.mp hstep
          refine ⟨hnone.requiredPeers, hnone.typeOf, ?_⟩
          rintro _ ⟨⟩
          obtain ⟨hconsistent, hplain⟩ := hnone.table table htable
          exact NodeTable.step_plain hconsistent hplain htable'
  | met id =>
      cases hstep
      exact hnone.meet id
  | noted id f hf =>
      cases hstep
      refine hnone.mono rfl (fun x htype => ?_) rfl
      dsimp only at htype
      rwa [PeerMap.typeOf_modify _ _ _ _ fun p => (hf p).2] at htype
  | connections sessions pending =>
      cases hstep
      exact hnone.mono rfl (fun _ htype => htype) rfl

/-- What is required is not kept as required. -/
theorem not_bookkept_deliver (hids : h.requiredPeers = ∅)
    (htype : ∃ id, h.peers.typeOf id = some .required)
    (hdeliver : h.deliver ctx m = some h') : ¬ h'.Bookkept := by
  intro hkept
  obtain ⟨id, htype⟩ := htype
  obtain ⟨hpeers, hids'⟩ := deliver_peers hdeliver
  rw [← hpeers] at htype
  have hmem : id ∈ h'.requiredPeers := (hkept id).mpr htype
  rw [hids', hids] at hmem
  exact Finset.notMem_empty id hmem

/-- An event that requires a peer is the end of the agreement. -/
theorem NoneRequired.not_bookkept_step (hnone : h.NoneRequired)
    (hrequires : h.Requires ctx event)
    (hstep : h.step ctx (m, event) = some h') : ¬ h'.Bookkept := by
  have hmade : ∀ {g : RunningHost toPublic} {id : NodeID}
      {endpoint : NodeIPEndpoint}, g.run = true →
      id.data.all (· == 0) = false →
      (g.toHost.requirePeer id endpoint).peers.typeOf id = some .required := by
    intro g id endpoint hrun hid
    rw [Host.typeOf_requirePeer, if_pos ⟨hrun, hid, rfl⟩]
  cases event with
  | addPeer id endpoint type =>
      obtain ⟨hrun, rfl, hid⟩ := hrequires
      refine not_bookkept_deliver ?_ ⟨id, ?_⟩ hstep
      · exact hnone.requiredPeers
      · exact hmade hrun hid
  | requirePeer id endpoint =>
      refine not_bookkept_deliver ?_ ⟨id, ?_⟩ hstep
      · exact hnone.requiredPeers
      · exact hmade hrequires.1 hrequires.2
  | restoreNetwork b =>
      obtain ⟨hb, hstarted, hdrop, saved, hread, id, p, hp, hrequired⟩ := hrequires
      rw [RunningHost.step] at hstep
      split at hstep
      · cases hstep
      · next host hrestore =>
          refine not_bookkept_deliver ?_ ⟨id, ?_⟩ hstep
          · exact hnone.requiredPeers
          · dsimp only
            rcases Host.restoreNetwork_cases _ hrestore with
              ⟨hnil | hdrop', -⟩ | ⟨-, -, -, saved', hread', rfl⟩
            · exact absurd hnil hb
            · rw [hdrop] at hdrop'
              cases hdrop'
            · rw [hread] at hread'
              cases hread'
              rw [Host.typeOf_foldl_keep, hp, Option.map_some, hrequired]
              rfl
  | expired timer =>
      obtain ⟨hrun, hnode⟩ := hrequires
      obtain ⟨n, hn⟩ := Option.isSome_iff_exists.mp hnode
      have hid : n.id.data.all (· == 0) = false := by
        obtain ⟨_, -, hfilter⟩ := Option.bind_eq_some_iff.mp hn
        simpa using (Option.filter_eq_some_iff.mp hfilter).2
      refine not_bookkept_deliver ?_ ⟨n.id, ?_⟩ hstep
      · rw [RunningHost.expire, hn]
        exact hnone.requiredPeers
      · rw [RunningHost.expire, hn]
        exact hmade hrun hid
  | relinquishPeer id => exact absurd hrequires not_false
  | tick t => exact absurd hrequires not_false
  | table event => exact absurd hrequires not_false
  | met id => exact absurd hrequires not_false
  | noted id f hf => exact absurd hrequires not_false
  | connections sessions pending => exact absurd hrequires not_false

theorem started_noneRequired (keyAlias : KeyPair toPublic) (node : Node)
    (isOpen : Bool) (m : Moment) (idealPeerCount : UInt32) (pin dropPeers : Bool) :
    (started keyAlias (NodeTable.create node isOpen (some {}) m) idealPeerCount
      pin dropPeers).NoneRequired where
  requiredPeers := rfl
  typeOf id := by
    rw [started]
    exact fun h => by cases h
  table := by
    rintro _ ⟨⟩
    constructor
    · intro x p hp
      cases hp
    · intro p e he
      cases he

/-- After a run, what is kept as required is what is required; and a peer that
was relinquished, with nothing but ticks since, is not treated as one. -/
def BookkeptAfter (before : List (Moment × HostEvent))
    (h : RunningHost toPublic) : Prop :=
  h.Bookkept ∧ ∀ first m id rest,
    before = first ++ (m, .relinquishPeer id) :: rest →
    (∀ e ∈ rest, ∃ t, e.2 = .tick t) → h.Unrequired id

/-- The two records of the required peers agree along a run of a host, in every
state that is reached, exactly if no event of the run requires a peer: the ids
of required peers are taken out of `m_requiredPeers`, but never put in. -/
theorem bookkeptAfter_iff (ctx : NodeContext) (keyAlias : KeyPair toPublic)
    (node : Node) (isOpen : Bool) (m : Moment) (idealPeerCount : UInt32)
    (pin dropPeers : Bool) (events : List (Moment × HostEvent)) :
    let start := started keyAlias (NodeTable.create node isOpen (some {}) m)
      idealPeerCount pin dropPeers
    (∀ before h, before <+: events → before.foldlM (step ctx) start = some h →
        h.BookkeptAfter before) ↔
      ∀ before e h h', before ++ [e] <+: events →
        before.foldlM (step ctx) start = some h → h.step ctx e = some h' →
        ¬ h.Requires ctx e.2 := by
  intro start
  have hstart : start.NoneRequired := started_noneRequired _ _ _ _ _ _ _
  refine foldlM_reached_iff hstart ?_ ?_ ?_ events
  · intro before h hnone
    exact ⟨hnone.bookkept, fun _ _ id _ _ _ => hnone.unrequired id⟩
  · intro h e h' hnone hgood hstep
    exact hnone.step hgood hstep
  · intro before h e h' hnone hbad hstep hafter
    exact hnone.not_bookkept_step (not_not.mp hbad) hstep hafter.1

/-- A peer is required, refuses a connection and is relinquished.  A tick still
connects it as a required one. -/
theorem not_bookkept_relinquished :
    ¬ ∀ events : List (Moment × HostEvent),
      let ctx : NodeContext := ⟨DatagramPacket.plainDatagrams, false⟩
      let start : RunningHost fun k => RLP.alignRight 64 k.data :=
        started (.ofSecret (RLP.alignRight 32 [9]))
          (NodeTable.create ⟨RLP.alignRight 64 [9], {}, .optional⟩ true (some {})
            ⟨0, 0⟩) 11 false false
      ∀ before h, before <+: events → before.foldlM (step ctx) start = some h →
        h.BookkeptAfter before := by
  intro hall
  let id : NodeID := RLP.alignRight 64 (1 :: List.replicate 40 0)
  let endpoint : NodeIPEndpoint :=
    ⟨.v4 (RLP.alignRight 4 [8, 8, 8, 8]), 30303, 30303⟩
  let t : SystemTime → Tick := fun now => ⟨now, 0, fun _ => 0⟩
  let before : List (Moment × HostEvent) :=
    [(⟨0, 0⟩, .requirePeer id endpoint), (⟨0, 0⟩, .tick (t (seconds 1000))),
      (⟨0, 0⟩, .connections [] ∅)]
  let events := before ++ [(⟨0, 0⟩, .relinquishPeer id)]
  let ctx : NodeContext := ⟨DatagramPacket.plainDatagrams, false⟩
  let start : RunningHost fun k => RLP.alignRight 64 k.data :=
    started (.ofSecret (RLP.alignRight 32 [9]))
      (NodeTable.create ⟨RLP.alignRight 64 [9], {}, .optional⟩ true (some {})
        ⟨0, 0⟩) 11 false false
  have hcalls : (events.foldlM (step ctx) start).map (fun h =>
      let h := h.attended (t (seconds 2000))
      (requiredLoop h.idealPeerCount (h.toConnect (t (seconds 2000)))
        h.requiredConnected).1.map (·.id)) = some [id] := by decide +kernel
  obtain ⟨h, hrun, hids⟩ := Option.map_eq_some_iff.mp hcalls
  have hunrequired := (hall events events h List.prefix_rfl hrun).2 before _ id []
    rfl (fun e he => by cases he)
  obtain ⟨p, hp, hid⟩ := List.mem_map.mp (hids ▸ List.mem_singleton_self id)
  exact hunrequired.connect (t (seconds 2000)) p hp hid

end RunningHost

end Web3Core
