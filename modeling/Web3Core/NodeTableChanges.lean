/-
What a step can do to a node table: every operation of `NodeTable.cpp` is a
chain of small changes, each with the conditions under which the code makes it.
The invariants of the table are proved for these changes only.
-/
import Mathlib.Data.List.TakeWhile
import Mathlib.Logic.Relation
import Web3Core.NodeTable

namespace Web3Core

namespace NodeTable

/-- A packet passes the checks, as one of a type that a node has signed. -/
def Signed (ctx : NodeContext) (packet : Bytes) (x : NodeID) (type : UInt8) :
    Prop :=
  ∃ payload, DatagramPacket.checkDatagram ctx.crypto (.ofBytes packet) =
    some (x, type, payload)

/-- What is known of the nodes and of the buckets stays, and so do the requests
for neighbours; nothing is taken back that was sent. -/
structure Aside (t t' : NodeTable) : Prop where
  id : t'.node.id = t.node.id
  entries : t'.entries = t.entries
  nodes : t'.nodes = t.nodes
  state : t'.state = t.state
  evictions : t'.evictions = t.evictions
  findNodeTimeout : t'.findNodeTimeout.Sublist t.findNodeTimeout
  isOpen : t'.isOpen = true → t.isOpen = true
  sent : t.sent <+: t'.sent

/-- One of the changes that are made when an event is handled in a table. -/
inductive Change (ctx : NodeContext) (start : NodeTable) (m : Moment) :
    NodeTableEvent → NodeTable → NodeTable → Prop
  | aside {event} {t t' : NodeTable} (h : Aside t t') :
      Change ctx start m event t t'
  /-- A node that was not known is added, and pinged. -/
  | added {event} {t : NodeTable} (node : Node) (hnone : t.nodes node.id = none) :
      Change ctx start m event t
        ((t.insertEntry (t.newEntry ctx node true)).ping m node.endpoint)
  /-- A node is added as a known one. -/
  | known {t : NodeTable} (node : Node) :
      Change ctx start m (.addNode node .known) t
        (t.insertEntry (t.newEntry ctx node false))
  /-- A node that had an entry has sent a pong. -/
  | answered {t : NodeTable} {sender packet x p}
      (hopen : start.isOpen = true) (hsigned : Signed ctx packet x 2)
      (hstart : start.nodes x = some p) (hnode : t.nodes x = some p) :
      Change ctx start m (.received sender packet) t (t.clearPending p)
  /-- The endpoint of a node that has answered is renewed. -/
  | moved {event} {t : NodeTable} {p e} (endpoint : UDPEndpoint)
      (he : t.entries[p]? = some e) (hpending : e.pending = false) :
      Change ctx start m event t (t.modifyEntry p (·.setEndpoint endpoint))
  /-- A node that has answered is the last one of its bucket. -/
  | noted {event} {t : NodeTable} {p e i b} (he : t.entries[p]? = some e)
      (hpending : e.pending = false) (hother : e.id ≠ t.node.id)
      (hi : bucketUnsafe e = some i) (hb : b.Sublist (t.state i)) (hp : p ∉ b)
      (hroom : b.length < max s_bucketSize (t.state i).length) :
      Change ctx start m event t (t.setBucket i (b ++ [p]))
  /-- Nodes are removed from a bucket. -/
  | removed {event} {t : NodeTable} {i b} (hb : b.Sublist (t.state i)) :
      Change ctx start m event t (t.setBucket i b)
  /-- A node is to make room for another, which has answered. -/
  | evicting {event} {t : NodeTable} {p : NodePtr} {e i} (leastSeen : NodeID)
      (he : t.entries[p]? = some e) (hother : e.id ≠ t.node.id)
      (hi : bucketUnsafe e = some i) :
      Change ctx start m event t
        { t with evictions := t.evictions ++ [⟨leastSeen, m.now, e.id⟩] }
  /-- A record from a later moment is taken out. -/
  | erased {event} {t : NodeTable} {f : EvictionTimeout → Bool}
      (hf : ∀ e, f e = true → m.now < e.time) :
      Change ctx start m event t { t with evictions := t.evictions.eraseP f }
  /-- A node is asked for the neighbours of a target. -/
  | asked {i r} {t : NodeTable} {p e} (target : NodeID)
      (hopen : t.isOpen = true) (hstart : start.entries[p]? = some e)
      (he : t.entries[p]? = some e) :
      Change ctx start m (.expired i r) t (sendFindNode m target t p)

variable {ctx : NodeContext} {m : Moment} {event : NodeTableEvent}
  {start t t' : NodeTable}

/-- The changes that are made when an event is handled. -/
abbrev Changes (ctx : NodeContext) (start : NodeTable) (m : Moment)
    (event : NodeTableEvent) : NodeTable → NodeTable → Prop :=
  Relation.ReflTransGen (Change ctx start m event)

theorem Aside.changes (h : Aside t t') : Changes ctx start m event t t' :=
  .single (.aside h)

theorem aside_refl (t : NodeTable) : Aside t t where
  id := rfl
  entries := rfl
  nodes := rfl
  state := rfl
  evictions := rfl
  findNodeTimeout := List.Sublist.refl _
  isOpen := id
  sent := List.prefix_refl _

theorem aside_send (t : NodeTable) (d : UDPDatagram) : Aside t (t.send d) := by
  rw [send]
  split
  · exact { aside_refl t with sent := List.prefix_append _ _ }
  · exact aside_refl t

theorem aside_ping (t : NodeTable) (dest : NodeIPEndpoint) :
    Aside t (t.ping m dest) := aside_send t _

theorem aside_schedule (t : NodeTable) (duration : Int) (task : NodeTableTask) :
    Aside t (t.schedule m duration task) := { aside_refl t with }

theorem aside_appendEvent (t : NodeTable) (n : NodeID) (e : NodeTableEventType) :
    Aside t (t.appendEvent n e) := { aside_refl t with }

theorem aside_updateEndpoint (t : NodeTable) (packet : Pong) :
    Aside t (t.updateEndpoint ctx packet) := { aside_refl t with }

theorem aside_pruneFindNode (t : NodeTable) (nodeid : NodeID) :
    Aside t (t.pruneFindNode m nodeid) :=
  { aside_refl t with findNodeTimeout := List.filter_sublist }

/-- The least seen node of a bucket is to be evicted. -/
theorem changes_evict {e f g : NodeEntry} {p : NodePtr} {i : Fin s_bins}
    (hg : t.entries[p]? = some g) (hother : g.id ≠ t.node.id)
    (hi : bucketUnsafe g = some i) (hid : f.id = g.id) :
    Changes ctx start m event t (t.evict m e f) := by
  rw [evict, hid]
  split
  · refine .head (.evicting e.id hg hother hi) ?_
    dsimp only
    split
    · exact (aside_schedule _ _ _).changes.trans (aside_ping _ _).changes
    · exact (aside_ping _ _).changes
  · exact .refl

theorem not_mem_takeWhile_ne (p : NodePtr) (b : List NodePtr) :
    p ∉ b.takeWhile (· ≠ p) := by
  intro hp
  have htake := List.mem_takeWhile_imp hp
  simp at htake

/-- A node that has answered is noted in its bucket. -/
theorem changes_noteInBucket {p : NodePtr} {e f : NodeEntry} {i : Fin s_bins}
    (he : t.entries[p]? = some e) (hpending : e.pending = false)
    (hother : e.id ≠ t.node.id) (hi : bucketUnsafe e = some i)
    (hid : f.id = e.id) :
    Changes ctx start m event t (t.noteInBucket m p f i) := by
  have hprefix : (t.state i).takeWhile (· ≠ p) <+: t.state i :=
    List.takeWhile_prefix _
  have hnot := not_mem_takeWhile_ne p (t.state i)
  have happend : ∀ b : List NodePtr, b.Sublist ((t.state i).takeWhile (· ≠ p)) →
      b.length < max s_bucketSize (t.state i).length →
      Changes ctx start m event t
        (if p ∈ t.state i then t.setBucket i (b ++ [p])
          else (t.setBucket i (b ++ [p])).appendEvent f.id .nodeEntryAdded) := by
    intro b hb hroom
    have hnoted : Change ctx start m event t (t.setBucket i (b ++ [p])) :=
      .noted he hpending hother hi (hb.trans hprefix.sublist)
        (fun hp => hnot (hb.subset hp)) hroom
    split
    · exact .single hnoted
    · exact .head hnoted (aside_appendEvent _ _ _).changes
  rw [noteInBucket]
  dsimp only
  split
  · next hroom => exact happend _ (List.Sublist.refl _) (lt_max_of_lt_left hroom)
  · split
    · exact happend _ (List.nil_sublist _)
        (lt_max_of_lt_left (by decide : 0 < s_bucketSize))
    · next front rest hnodes =>
        have hlength := hprefix.length_le
        rw [hnodes] at hlength
        have hrest := happend rest (by rw [hnodes]; exact List.sublist_cons_self _ _)
          (lt_max_of_lt_right (by simpa using hlength))
        split
        · split
          · exact .head (.removed hprefix.sublist)
              (changes_evict he hother hi hid)
          · exact hrest
        · exact hrest

/-- What `m_nodes` points to is an entry of the node. -/
def Consistent (t : NodeTable) : Prop :=
  ∀ x p, t.nodes x = some p → ∃ e, t.entries[p]? = some e ∧ e.id = x

/-- An entry of a table to which one was added is the new one or an old one. -/
theorem getElem?_insertEntry {e f : NodeEntry} {p : NodePtr}
    (h : (t.insertEntry e).entries[p]? = some f) :
    f = e ∨ t.entries[p]? = some f := by
  rw [insertEntry] at h
  dsimp only at h
  rcases lt_or_ge p t.entries.length with hlt | hge
  · rw [List.getElem?_append_left hlt] at h
    exact .inr h
  · rw [List.getElem?_append_right hge, List.getElem?_singleton] at h
    split at h
    · cases h
      exact .inl rfl
    · cases h

theorem getElem?_modifyEntry (t : NodeTable) (p q : NodePtr)
    (f : NodeEntry → NodeEntry) :
    (t.modifyEntry p f).entries[q]? =
      if p = q then t.entries[q]?.map f else t.entries[q]? := by
  rw [modifyEntry, List.getElem?_modify]
  split
  · rfl
  · simp

theorem Consistent.modifyEntry (h : Consistent t) (p : NodePtr)
    {f : NodeEntry → NodeEntry} (hf : ∀ e, (f e).id = e.id) :
    Consistent (t.modifyEntry p f) := by
  intro x q hnode
  obtain ⟨e, he, hid⟩ := h x q hnode
  rw [getElem?_modifyEntry, he]
  split
  · exact ⟨f e, rfl, by rw [hf, hid]⟩
  · exact ⟨e, rfl, hid⟩

theorem Consistent.insertEntry (h : Consistent t) (e : NodeEntry) :
    Consistent (t.insertEntry e) := by
  intro x q hnode
  rw [NodeTable.insertEntry] at hnode ⊢
  dsimp only at hnode ⊢
  rw [Function.update_apply] at hnode
  split at hnode
  · next hx =>
      cases hnode
      exact ⟨e, by simp, hx.symm⟩
  · obtain ⟨f, hf, hid⟩ := h x q hnode
    exact ⟨f, by rw [List.getElem?_append_left (List.getElem?_eq_some_iff.1 hf).1, hf], hid⟩

theorem Consistent.aside (h : Consistent t) (haside : Aside t t') :
    Consistent t' := by
  rw [Consistent, haside.nodes, haside.entries]
  exact h

theorem sendFindNode_eq {p : NodePtr} {e : NodeEntry} {target : NodeID}
    (he : t.entries[p]? = some e) :
    sendFindNode m target t p =
      { t with findNodeTimeout := t.findNodeTimeout ++ [(e.id, m.now)] }.send
        ⟨e.endpoint.udp,
          .packet (.findNode ⟨target, m.futureFromEpoch 60⟩)⟩ := by
  simp only [sendFindNode, he]

theorem Change.consistent (hchange : Change ctx start m event t t')
    (h : Consistent t) : Consistent t' := by
  cases hchange with
  | aside haside => exact h.aside haside
  | added node hnone => exact (h.insertEntry _).aside (aside_ping _ _)
  | known node => exact h.insertEntry _
  | answered => exact h.modifyEntry _ fun e => rfl
  | moved => exact h.modifyEntry _ fun e => rfl
  | noted => exact h
  | removed => exact h
  | evicting => exact h
  | erased => exact h
  | asked target hopen hstart he =>
      rw [sendFindNode_eq he]
      refine Consistent.aside ?_ (aside_send _ _)
      exact h

theorem Changes.consistent (hchanges : Changes ctx start m event t t')
    (h : Consistent t) : Consistent t' := by
  induction hchanges with
  | refl => exact h
  | tail _ hchange ih => exact hchange.consistent ih

theorem changes_noteActiveNode (hconsistent : Consistent t) {pubk : NodeID}
    {endpoint : UDPEndpoint}
    (h : t.noteActiveNode ctx m pubk endpoint = some t') :
    Changes ctx start m event t t' := by
  rw [noteActiveNode] at h
  split at h
  · cases h
    exact .refl
  · next hallowed =>
      split at h
      · cases h
        exact .refl
      · next p hnode =>
          obtain ⟨e, he, hid⟩ := hconsistent pubk p hnode
          rw [he] at h
          dsimp only at h
          split at h
          · cases h
            exact .refl
          · next hpending =>
              obtain ⟨i, hi, rfl⟩ := Option.map_eq_some_iff.1 h
              rw [Bool.not_eq_true] at hpending
              have hother : e.id ≠ t.node.id := by
                rw [hid]
                exact fun heq => hallowed (.inl heq)
              refine .head (.moved endpoint he hpending)
                (changes_noteInBucket (e := e.setEndpoint endpoint) ?_ hpending
                  hother hi rfl)
              rw [getElem?_modifyEntry, if_pos rfl, he]
              rfl

theorem changes_dropNode {p : NodePtr} (h : t.dropNode p = some t') :
    Changes ctx start m event t t' := by
  rw [dropNode] at h
  split at h
  · cases h
    exact .refl
  · obtain ⟨i, -, rfl⟩ := Option.map_eq_some_iff.1 h
    exact .head (.removed List.filter_sublist) (aside_appendEvent _ _ _).changes

/-- A node that is not known to be one is added. -/
theorem changes_addNode_unknown {node : Node}
    (h : t.addNode ctx m node .unknown = some t') :
    Changes ctx start m event t t' := by
  rw [addNode] at h
  split at h
  · cases h
    exact .refl
  · split at h
    · cases h
      exact Aside.changes { aside_ping (m := m) { t with
        pubkDiscoverPings := _ } node.endpoint with }
    · split at h
      · cases h
        exact .refl
      · next hnone =>
          cases h
          exact .single (.added node (Option.not_isSome_iff_eq_none.1 hnone))

theorem changes_addNode_known (hconsistent : Consistent t) {node : Node}
    (h : t.addNode ctx m node .known = some t') :
    Changes ctx start m (.addNode node .known) t t' :=
  .head (.known node) (changes_noteActiveNode (hconsistent.insertEntry _) h)

theorem nodes_dropNode {p : NodePtr} (h : t.dropNode p = some t') :
    t'.nodes = t.nodes := by
  rw [dropNode] at h
  split at h
  · cases h
    rfl
  · obtain ⟨i, -, rfl⟩ := Option.map_eq_some_iff.1 h
    rfl

theorem changes_onPong {nodeid : NodeID}
    {sender : UDPEndpoint} {bytes : Bytes} {packet : Pong} {noted : Bool}
    (hopen : t.isOpen = true) (hsigned : Signed ctx bytes nodeid 2)
    (h : t.onPong ctx m nodeid sender packet = some (t', noted)) :
    Changes ctx t m (.received sender bytes) t t' := by
  rw [onPong] at h
  dsimp only at h
  split at h
  · next e he =>
      have hid : e.leastSeen = nodeid := by
        have hmatch := List.find?_some he
        simp only [Bool.and_eq_true, beq_iff_eq] at hmatch
        exact hmatch.1
      obtain ⟨t₁, hdrop, h⟩ := Option.bind_eq_some_iff.1 h
      cases h
      have herase := @Change.erased ctx t m (.received sender bytes) t
        (fun e => e.leastSeen == nodeid && decide (e.time > m.now))
        fun e he => of_decide_eq_true ((Bool.and_eq_true_iff.1 he).2)
      have hdropped : Changes ctx t m (.received sender bytes) t t₁ ∧
          t₁.nodes = t.nodes := by
        split at hdrop
        · exact ⟨.head herase (changes_dropNode hdrop),
            by rw [nodes_dropNode hdrop]⟩
        · cases hdrop
          exact ⟨.single herase, rfl⟩
      refine hdropped.1.trans ?_
      rw [hid, hdropped.2]
      split
      · next p hp =>
          exact .head (.answered hopen hsigned hp (by rw [hdropped.2, hp]))
            (aside_updateEndpoint _ _).changes
      · exact (aside_updateEndpoint _ _).changes
  · split at h
    · next p hp =>
        cases h
        exact .head (.answered hopen hsigned hp hp)
          (aside_updateEndpoint _ _).changes
    · next hnone =>
        split at h
        · cases h
          exact .refl
        · obtain ⟨t₁, hadd, h⟩ := Option.bind_eq_some_iff.1 h
          cases h
          refine Relation.ReflTransGen.trans ?_ (aside_updateEndpoint _ _).changes
          have hping : ∀ f, Aside t { t with pubkDiscoverPings := f } :=
            fun f => { aside_refl t with }
          split at hadd
          · cases hadd
            exact (hping _).changes
          · exact .head (.aside (hping _)) (changes_addNode_unknown hadd)

/-- Nodes that are not known to be any are added one after the other. -/
theorem changes_foldlM_addNode (nodes : List Neighbour)
    (h : nodes.foldlM (fun (t : NodeTable) n =>
      t.addNode ctx m ⟨n.node, n.endpoint, .optional⟩ .unknown) t = some t') :
    Changes ctx start m event t t' := by
  induction nodes generalizing t with
  | nil =>
      cases h
      exact .refl
  | cons n nodes ih =>
      obtain ⟨t₁, hadd, hrest⟩ := Option.bind_eq_some_iff.1 h
      exact (changes_addNode_unknown hadd).trans (ih hrest)

theorem changes_onNeighbours {nodeid : NodeID} {payload : BytesConstRef}
    {noted : Bool} (h : t.onNeighbours ctx m nodeid payload = some (t', noted)) :
    Changes ctx start m event t t' := by
  have hprune : Aside t (t.pruneFindNode m nodeid) := aside_pruneFindNode t nodeid
  rw [onNeighbours] at h
  split at h
  · obtain ⟨t₁, hadd, h⟩ := Option.bind_eq_some_iff.1 h
    cases h
    exact .head (.aside hprune) (changes_foldlM_addNode _ hadd)
  · cases h
    exact hprune.changes

theorem changes_onFindNode {sender : UDPEndpoint} {packet : FindNode}
    {noted : Bool} (h : t.onFindNode ctx m sender packet = some (t', noted)) :
    Changes ctx start m event t t' := by
  have hsend : ∀ (packets : List (List Neighbour)) (t : NodeTable),
      Changes ctx start m event t (packets.foldl (fun (t : NodeTable) ns =>
        t.send ⟨sender, .packet (.neighbours ⟨ns, m.futureFromEpoch 60⟩)⟩) t) := by
    intro packets
    induction packets with
    | nil => exact fun t => .refl
    | cons ns packets ih =>
        exact fun t => .head (.aside (aside_send t _)) (ih _)
  rw [onFindNode] at h
  split at h
  · cases h
    exact .refl
  · obtain ⟨nearest, -, h⟩ := Option.bind_eq_some_iff.1 h
    cases h
    exact hsend _ _

theorem changes_onPing {nodeid : NodeID} {sender : UDPEndpoint}
    {payload : BytesConstRef} {noted : Bool}
    (h : t.onPing ctx m nodeid sender payload = some (t', noted)) :
    Changes ctx start m event t t' := by
  rw [onPing] at h
  dsimp only at h
  split at h
  · cases h
    exact .refl
  · obtain ⟨t₁, h₁, ht₁⟩ : ∃ t₁, Changes ctx start m event t t₁ ∧ t₁ =
        if (PingNode.fromBytesConstRef payload).version.toNat <
            c_protocolVersion then
          t.send ⟨(PingNode.fromBytesConstRef payload).source.udp, .compatPong
            (ctx.crypto.sha3 payload.toBytes) (m.futureFromEpoch 60)⟩
        else t := by
      refine ⟨_, ?_, rfl⟩
      split
      · exact (aside_send _ _).changes
      · exact .refl
    rw [← ht₁] at h
    split at h
    · cases h
      exact h₁
    · obtain ⟨t₂, hadd, h⟩ := Option.bind_eq_some_iff.1 h
      cases h
      exact (h₁.trans (changes_addNode_unknown hadd)).trans (aside_send _ _).changes

theorem changes_onPacket {nodeid : NodeID} {packetType : UInt8}
    {sender : UDPEndpoint} {bytes : Bytes} {payload : BytesConstRef}
    {noted : Bool} (hopen : t.isOpen = true)
    (hcheck : DatagramPacket.checkDatagram ctx.crypto (.ofBytes bytes) =
      some (nodeid, packetType, payload))
    (h : t.onPacket ctx m nodeid packetType sender payload =
      some (t', noted)) :
    Changes ctx t m (.received sender bytes) t t' := by
  rw [onPacket] at h
  split at h
  · next htype =>
      exact changes_onPong hopen ⟨payload, by rw [hcheck, htype]⟩ h
  · split at h
    · exact changes_onNeighbours h
    · split at h
      · exact changes_onFindNode h
      · split at h
        · exact changes_onPing h
        · cases h
          exact .refl

theorem changes_onReceived (hconsistent : Consistent t) {sender : UDPEndpoint}
    {bytes : Bytes} (hopen : t.isOpen = true)
    (h : t.onReceived ctx m sender (.ofBytes bytes) = some t') :
    Changes ctx t m (.received sender bytes) t t' := by
  rw [onReceived] at h
  split at h
  · cases h
    exact .refl
  · next nodeid packetType payload hcheck =>
      split at h
      · cases h
        exact .refl
      · obtain ⟨⟨t₁, noted⟩, hpacket, h⟩ := Option.bind_eq_some_iff.1 h
        have h₁ : Changes ctx t m (.received sender bytes) t t₁ :=
          changes_onPacket hopen hcheck hpacket
        refine h₁.trans ?_
        dsimp only at h
        split at h
        · exact changes_noteActiveNode (h₁.consistent hconsistent) h
        · cases h
          exact .refl

/-- Nodes are asked for the neighbours of a target. -/
theorem changes_foldl_sendFindNode {i : Nat} {r target : NodeID}
    (ps : List NodePtr) (hopen : t.isOpen = true)
    (hentries : t.entries = start.entries) :
    Changes ctx start m (.expired i r) t
      (ps.foldl (sendFindNode m target) t) := by
  induction ps generalizing t with
  | nil => exact .refl
  | cons p ps ih =>
      cases he : t.entries[p]? with
      | none =>
          have hnone : sendFindNode m target t p = t := by
            simp only [sendFindNode, he]
          rw [List.foldl_cons, hnone]
          exact ih hopen hentries
      | some e =>
          refine .head (.asked target hopen (by rw [← hentries, he]) he) (ih ?_ ?_)
          · rw [sendFindNode_eq he, send]
            split
            · exact hopen
            · exact hopen
          · rw [sendFindNode_eq he, send]
            split
            · exact hentries
            · exact hentries

theorem changes_doDiscover {i : Nat} {r target : NodeID} {round : Nat}
    {tried : List NodePtr}
    (h : t.doDiscover ctx m target round tried = some t') :
    Changes ctx t m (.expired i r) t t' := by
  rw [doDiscover] at h
  split at h
  · cases h
    exact .refl
  · next hopen =>
      split at h
      · cases h
        exact (aside_schedule _ _ _).changes
      · obtain ⟨nearest, -, h⟩ := Option.bind_eq_some_iff.1 h
        have hasked := @changes_foldl_sendFindNode ctx m t t i r target
          ((nearest.filter (· ∉ tried)).take s_alpha) (by simpa using hopen) rfl
        dsimp only at h
        split at h
        · cases h
          exact hasked.trans (aside_schedule _ _ _).changes
        · cases h
          exact hasked.trans (aside_schedule _ _ _).changes

theorem changes_checkEvictions (h : t.checkEvictions m = some t') :
    Changes ctx start m event t t' := by
  have hdrop : ∀ (ps : List NodePtr) (t t' : NodeTable),
      ps.foldlM dropNode t = some t' → Changes ctx start m event t t' := by
    intro ps
    induction ps with
    | nil =>
        intro t t' h
        cases h
        exact .refl
    | cons p ps ih =>
        intro t t' h
        obtain ⟨t₁, hfirst, hrest⟩ := Option.bind_eq_some_iff.1 h
        exact (changes_dropNode hfirst).trans (ih t₁ t' hrest)
  obtain ⟨t₁, hfold, h⟩ := Option.bind_eq_some_iff.1 h
  cases h
  refine (hdrop _ _ _ hfold).trans ?_
  split
  · exact (aside_schedule _ _ _).changes
  · exact .refl

/-- A step is a chain of changes. -/
theorem changes_step (hconsistent : Consistent t)
    (h : step ctx t (m, event) = some t') : Changes ctx t m event t t' := by
  cases event with
  | addNode node relation =>
      cases relation with
      | unknown => exact changes_addNode_unknown h
      | known => exact changes_addNode_known hconsistent h
  | received sender packet =>
      rw [step] at h
      split at h
      · next hopen => exact changes_onReceived hconsistent hopen h
      · cases h
        exact .refl
  | expired i randNodeId =>
      rw [step] at h
      split at h
      · cases h
        exact .refl
      · next timer _ =>
          split at h
          · cases h
            exact .refl
          · obtain ⟨t₁, hperform, rfl⟩ := Option.map_eq_some_iff.1 h
            have h₁ : Changes ctx t m (.expired i randNodeId) t t₁ := by
              unfold perform at hperform
              split at hperform
              · exact changes_checkEvictions hperform
              · exact changes_doDiscover hperform
              · exact changes_doDiscover hperform
            exact h₁.trans (Aside.changes { aside_refl t₁ with })
  | cancelled i =>
      cases h
      exact Aside.changes { aside_refl t with }
  | disconnected =>
      cases h
      exact Aside.changes { aside_refl t with isOpen := fun h => by cases h }
  | processEvents =>
      cases h
      exact Aside.changes { aside_refl t with }

end NodeTable

end Web3Core
