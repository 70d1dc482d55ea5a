/-
The buckets: none holds more than `s_bucketSize` entries, an entry is there
once and in the bucket of its distance, and no operation indexes the buckets out
of range.  This rests on the hashes of the nodes that are added or heard of.
-/
import Web3Core.DatagramRoundTrip
import Web3Core.NodeTableChanges

namespace Web3Core

namespace NodeTable

/-- The hashes of two nodes differ in some bit other than the last. -/
def Apart (sha3 : Bytes → H256) (a b : NodeID) : Prop :=
  ∃ i, 0 < i ∧ (fromBigEndian (sha3 a.data).data).testBit i ≠
    (fromBigEndian (sha3 b.data).data).testBit i

/-- An event is about a node: the node is added, or has signed a packet. -/
def Names (ctx : NodeContext) : NodeTableEvent → NodeID → Prop
  | .addNode node _, x => node.id = x
  | .received _ packet, x => ∃ type payload,
      DatagramPacket.checkDatagram ctx.crypto (.ofBytes packet) =
        some (x, type, payload)
  | _, _ => False

/-- The entries of a node's table are in the buckets that they belong to. -/
structure Filed (ctx : NodeContext) (own : NodeID) (t : NodeTable) : Prop where
  id : t.node.id = own
  consistent : Consistent t
  distance : ∀ (p : NodePtr) e, t.entries[p]? = some e →
    e.distance = distance ctx.crypto.sha3 own e.id
  length : ∀ i, (t.state i).length ≤ s_bucketSize
  nodup : ∀ i, (t.state i).Nodup
  buckets : ∀ i, ∀ p ∈ t.state i, ∃ e, t.entries[p]? = some e ∧
    e.pending = false ∧ e.id ≠ own ∧ bucketUnsafe e = some i
  evictions : ∀ r ∈ t.evictions, 0 < NodeTable.distance ctx.crypto.sha3 own r.new

section Distance

variable {sha3 : Bytes → H256} {a b : NodeID} {e : NodeEntry} {i : Fin s_bins}

theorem distance_lt (sha3 : Bytes → H256) (a b : NodeID) :
    distance sha3 a b < s_bits := by
  have hlt : ∀ x : H256, fromBigEndian x.data < 2 ^ s_bits := by
    intro x
    have h := fromBigEndian_lt x.data
    rw [x.size_data] at h
    exact h
  rw [distance]
  rcases Nat.eq_zero_or_pos (fromBigEndian (sha3 a.data).data ^^^
    fromBigEndian (sha3 b.data).data) with hzero | hpos
  · rw [hzero]
    decide
  · exact (Nat.log2_lt hpos.ne').2 (Nat.xor_lt_two_pow (hlt _) (hlt _))

theorem Apart.distance_pos (h : Apart sha3 a b) : 0 < distance sha3 a b := by
  obtain ⟨i, hi, hbit⟩ := h
  have hxor : (fromBigEndian (sha3 a.data).data ^^^
      fromBigEndian (sha3 b.data).data).testBit i = true := by
    rw [Nat.testBit_xor, bne_iff_ne]
    exact hbit
  have hle := Nat.ge_two_pow_of_testBit hxor
  have hpos := Nat.two_pow_pos i
  rw [distance]
  exact lt_of_lt_of_le hi ((Nat.le_log2 (by omega)).2 hle)

/-- The bucket of an entry is the one before its distance. -/
theorem bucketUnsafe_eq_some_iff (h : e.distance < s_bits) :
    bucketUnsafe e = some i ↔ i.val + 1 = e.distance := by
  rw [bucketUnsafe]
  unfold s_bits s_bins at *
  split
  · rw [Option.some_inj, Fin.ext_iff]
    dsimp only
    omega
  · constructor
    · intro hnone
      cases hnone
    · omega

theorem exists_bucketUnsafe (hpos : 0 < e.distance) (h : e.distance < s_bits) :
    ∃ i, bucketUnsafe e = some i := by
  have hlt : e.distance - 1 < s_bins := by
    unfold s_bits at h
    unfold s_bins
    omega
  exact ⟨⟨e.distance - 1, hlt⟩,
    (bucketUnsafe_eq_some_iff h).2 (Nat.sub_add_cancel hpos)⟩

end Distance

variable {ctx : NodeContext} {m : Moment} {event : NodeTableEvent}
  {own x : NodeID} {start t t' : NodeTable}
  {events : List (Moment × NodeTableEvent)}

namespace Filed

theorem distance_lt (h : Filed ctx own t) {p : NodePtr} {e : NodeEntry}
    (he : t.entries[p]? = some e) : e.distance < s_bits := by
  rw [h.distance p e he]
  exact NodeTable.distance_lt _ _ _

theorem create (node : Node) (isOpen : Bool)
    (handler : Option NodeTableEventHandler) :
    Filed ctx node.id (create node isOpen handler m) where
  id := rfl
  consistent := by
    intro x p h
    cases h
  distance := by
    intro p e h
    cases h
  length := fun i => Nat.zero_le _
  nodup := fun i => List.nodup_nil
  buckets := by
    intro i p hp
    cases hp
  evictions := by
    intro r hr
    cases hr

theorem aside (h : Filed ctx own t) (haside : Aside t t') :
    Filed ctx own t' where
  id := haside.id.trans h.id
  consistent := h.consistent.aside haside
  distance := by
    rw [haside.entries]
    exact h.distance
  length := by
    rw [haside.state]
    exact h.length
  nodup := by
    rw [haside.state]
    exact h.nodup
  buckets := by
    rw [haside.state, haside.entries]
    exact h.buckets
  evictions := by
    rw [haside.evictions]
    exact h.evictions

/-- A new entry leaves the old ones where they are. -/
theorem insertEntry (h : Filed ctx own t) (node : Node) (pending : Bool) :
    Filed ctx own (t.insertEntry (t.newEntry ctx node pending)) where
  id := h.id
  consistent := h.consistent.insertEntry _
  distance := by
    intro p e he
    rcases getElem?_insertEntry he with rfl | hold
    · rw [← h.id]
      rfl
    · exact h.distance p e hold
  length := h.length
  nodup := h.nodup
  buckets := by
    intro i p hp
    obtain ⟨e, he, hrest⟩ := h.buckets i p hp
    refine ⟨e, ?_, hrest⟩
    have hlt := (List.getElem?_eq_some_iff.1 he).1
    rw [NodeTable.insertEntry]
    dsimp only
    rw [List.getElem?_append_left hlt, he]
  evictions := h.evictions

/-- An entry is changed that stays the same node's, and answered if it was. -/
theorem modifyEntry (h : Filed ctx own t) (p : NodePtr)
    {f : NodeEntry → NodeEntry} (hid : ∀ e, (f e).id = e.id)
    (hdistance : ∀ e, (f e).distance = e.distance)
    (hpending : ∀ e, e.pending = false → (f e).pending = false) :
    Filed ctx own (t.modifyEntry p f) where
  id := h.id
  consistent := h.consistent.modifyEntry p hid
  distance := by
    intro q e he
    rw [getElem?_modifyEntry] at he
    split at he
    · obtain ⟨e', he', rfl⟩ := Option.map_eq_some_iff.1 he
      rw [hdistance, hid, h.distance q e' he']
    · exact h.distance q e he
  length := h.length
  nodup := h.nodup
  buckets := by
    intro i q hq
    obtain ⟨e, he, hanswered, hother, hi⟩ := h.buckets i q hq
    rw [getElem?_modifyEntry, he]
    split
    · refine ⟨f e, rfl, hpending e hanswered, by rw [hid]; exact hother, ?_⟩
      rw [bucketUnsafe, hdistance]
      exact hi
    · exact ⟨e, rfl, hanswered, hother, hi⟩
  evictions := h.evictions

theorem setBucket (h : Filed ctx own t) {i : Fin s_bins} {b : List NodePtr}
    (hlength : b.length ≤ s_bucketSize) (hnodup : b.Nodup)
    (hb : ∀ p ∈ b, ∃ e, t.entries[p]? = some e ∧ e.pending = false ∧
      e.id ≠ own ∧ bucketUnsafe e = some i) :
    Filed ctx own (t.setBucket i b) := by
  have hstate : ∀ j, (t.setBucket i b).state j = if j = i then b else t.state j :=
    fun j => Function.update_apply t.state i b j
  refine ⟨h.id, h.consistent, h.distance, ?_, ?_, ?_, h.evictions⟩
  · intro j
    rw [hstate]
    split
    · exact hlength
    · exact h.length j
  · intro j
    rw [hstate]
    split
    · exact hnodup
    · exact h.nodup j
  · intro j p hp
    rw [hstate] at hp
    split at hp
    · next hj =>
        rw [hj]
        exact hb p hp
    · exact h.buckets j p hp

/-- A change leaves the entries in the buckets that they belong to. -/
theorem change (h : Filed ctx own t) (hchange : Change ctx start m event t t') :
    Filed ctx own t' := by
  cases hchange with
  | aside haside => exact h.aside haside
  | added node hnone => exact (h.insertEntry node true).aside (aside_ping _ _)
  | known node => exact h.insertEntry node false
  | answered =>
      exact h.modifyEntry _ (fun e => rfl) (fun e => rfl) fun e _ => rfl
  | moved =>
      exact h.modifyEntry _ (fun e => rfl) (fun e => rfl) fun e hpending =>
        hpending
  | @noted _ _ p e i b he hpending hother hi hb hp hroom =>
      have hlength : (b ++ [p]).length ≤ s_bucketSize := by
        rw [max_eq_left (h.length i)] at hroom
        rw [List.length_append]
        exact hroom
      have hnodup : (b ++ [p]).Nodup :=
        ((h.nodup i).sublist hb).append (List.nodup_singleton p)
          (List.disjoint_singleton.2 hp)
      refine h.setBucket hlength hnodup fun q hq => ?_
      rcases List.mem_append.1 hq with hold | hnew
      · exact h.buckets i q (hb.subset hold)
      · rw [List.mem_singleton.1 hnew]
        exact ⟨e, he, hpending, h.id ▸ hother, hi⟩
  | @removed _ _ i b hb =>
      exact h.setBucket (hb.length_le.trans (h.length i))
        ((h.nodup i).sublist hb) fun q hq => h.buckets i q (hb.subset hq)
  | @evicting _ _ p e i leastSeen he hother hi =>
      refine ⟨h.id, h.consistent, h.distance, h.length, h.nodup, h.buckets, ?_⟩
      intro r hr
      rcases List.mem_append.1 hr with hold | hnew
      · exact h.evictions r hold
      · rw [List.mem_singleton.1 hnew, ← h.distance p e he,
          ← (bucketUnsafe_eq_some_iff (h.distance_lt he)).1 hi]
        exact Nat.succ_pos _
  | erased hf =>
      exact ⟨h.id, h.consistent, h.distance, h.length, h.nodup, h.buckets,
        fun r hr => h.evictions r (List.mem_of_mem_eraseP hr)⟩
  | asked target hopen hstart he =>
      rw [sendFindNode_eq he]
      refine Filed.aside ?_ (aside_send _ _)
      exact ⟨h.id, h.consistent, h.distance, h.length, h.nodup, h.buckets,
        h.evictions⟩

theorem changes (h : Filed ctx own t)
    (hchanges : Changes ctx start m event t t') : Filed ctx own t' := by
  induction hchanges with
  | refl => exact h
  | tail _ hchange ih => exact ih.change hchange

end Filed

theorem exists_bind {α β : Type} {x : Option α} {f : α → Option β}
    (hx : ∃ a, x = some a) (hf : ∀ a, x = some a → ∃ b, f a = some b) :
    ∃ b, (x >>= f) = some b := by
  obtain ⟨a, ha⟩ := hx
  obtain ⟨b, hb⟩ := hf a ha
  exact ⟨b, by rw [ha]; exact hb⟩

/-- The buckets that are visited are there. -/
theorem lt_of_mem_visitOrder {head tail i : Nat} (htail : tail < s_bins)
    (hi : i ∈ visitOrder head tail) : i < s_bins := by
  rw [visitOrder] at hi
  split at hi
  · obtain ⟨k, hk, hmem⟩ := List.mem_flatMap.1 hi
    rw [List.mem_range] at hk
    rcases List.mem_cons.1 hmem with rfl | hdown
    · omega
    · split at hdown
      · cases hdown
      · rw [List.mem_singleton.1 hdown]
        omega
  · split at hi
    · obtain ⟨k, hk, rfl⟩ := List.mem_map.1 hi
      rw [List.mem_range] at hk
      omega
    · obtain ⟨k, -, rfl⟩ := List.mem_map.1 hi
      omega

theorem mapM_bucket (t : NodeTable) {is : List Nat} (h : ∀ i ∈ is, i < s_bins) :
    is.mapM t.bucket = some (is.map fun i => (t.bucket i).getD []) := by
  induction is with
  | nil => rfl
  | cons i is ih =>
      have hi : i < s_bins := h i List.mem_cons_self
      rw [List.mapM_cons, ih fun j hj => h j (List.mem_cons_of_mem _ hj),
        List.map_cons, bucket, dif_pos hi]
      rfl

theorem tail_lt (head : Nat) :
    (if head = 0 then s_bins - 1 else (head - 1) % s_bins) < s_bins := by
  split
  · decide
  · exact Nat.mod_lt _ (by decide)

theorem exists_nearestNodeEntries (t : NodeTable) (target : NodeID) :
    ∃ ps, t.nearestNodeEntries ctx target = some ps := by
  rw [nearestNodeEntries]
  dsimp only
  rw [mapM_bucket t fun i hi => lt_of_mem_visitOrder (tail_lt _) hi]
  exact ⟨_, rfl⟩

theorem exists_addNode_unknown (t : NodeTable) (node : Node) :
    ∃ t', t.addNode ctx m node .unknown = some t' := by
  rw [addNode]
  split
  · exact ⟨_, rfl⟩
  · split
    · exact ⟨_, rfl⟩
    · split
      · exact ⟨_, rfl⟩
      · exact ⟨_, rfl⟩

theorem exists_foldlM_addNode (nodes : List Neighbour) :
    ∀ t : NodeTable, ∃ t', nodes.foldlM (fun (t : NodeTable) n =>
      t.addNode ctx m ⟨n.node, n.endpoint, .optional⟩ .unknown) t = some t' := by
  induction nodes with
  | nil => exact fun t => ⟨t, rfl⟩
  | cons n nodes ih =>
      intro t
      obtain ⟨t₁, hadd⟩ := @exists_addNode_unknown ctx m t
        ⟨n.node, n.endpoint, .optional⟩
      rw [List.foldlM_cons, hadd]
      exact ih t₁

namespace Filed

theorem exists_bucketUnsafe (h : Filed ctx own t) {p : NodePtr} {e : NodeEntry}
    (he : t.entries[p]? = some e)
    (hpos : 0 < NodeTable.distance ctx.crypto.sha3 own e.id) :
    ∃ i, bucketUnsafe e = some i := by
  rw [← h.distance p e he] at hpos
  exact NodeTable.exists_bucketUnsafe hpos (h.distance_lt he)

theorem exists_noteActiveNode (h : Filed ctx own t)
    (hx : x ≠ own → Apart ctx.crypto.sha3 own x) (endpoint : UDPEndpoint) :
    ∃ t', t.noteActiveNode ctx m x endpoint = some t' := by
  rw [noteActiveNode]
  split
  · exact ⟨_, rfl⟩
  · next hallowed =>
      split
      · exact ⟨_, rfl⟩
      · next p hnode =>
          obtain ⟨e, he, hid⟩ := h.consistent x p hnode
          rw [he]
          dsimp only
          split
          · exact ⟨_, rfl⟩
          · have hother : x ≠ own := fun heq => hallowed (.inl (heq.trans h.id.symm))
            obtain ⟨i, hi⟩ := h.exists_bucketUnsafe he
              (hid ▸ (hx hother).distance_pos)
            rw [hi]
            exact ⟨_, rfl⟩

/-- A node is dropped that is at some distance. -/
theorem exists_dropNode (h : Filed ctx own t)
    (hx : 0 < NodeTable.distance ctx.crypto.sha3 own x) {p : NodePtr}
    (hnode : t.nodes x = some p) : ∃ t', t.dropNode p = some t' := by
  obtain ⟨e, he, hid⟩ := h.consistent x p hnode
  obtain ⟨i, hi⟩ := h.exists_bucketUnsafe he (hid ▸ hx)
  rw [dropNode, he]
  dsimp only
  rw [hi]
  exact ⟨_, rfl⟩

theorem exists_onPong (h : Filed ctx own t) (nodeid : NodeID)
    (sender : UDPEndpoint) (packet : Pong) :
    ∃ r, t.onPong ctx m nodeid sender packet = some r := by
  rw [onPong]
  dsimp only
  split
  · next e he =>
      have hmem := List.mem_of_find?_eq_some he
      refine exists_bind ?_ fun t₁ _ => ⟨_, rfl⟩
      split
      · next p hp =>
          have herased := h.change (@Change.erased ctx t m (.cancelled 0) t
            (fun e => e.leastSeen == nodeid && decide (e.time > m.now))
            fun e he => of_decide_eq_true (Bool.and_eq_true_iff.1 he).2)
          exact herased.exists_dropNode (h.evictions e hmem) hp
      · exact ⟨_, rfl⟩
  · split
    · exact ⟨_, rfl⟩
    · split
      · exact ⟨_, rfl⟩
      · refine exists_bind ?_ fun t₁ _ => ⟨_, rfl⟩
        split
        · exact ⟨_, rfl⟩
        · exact exists_addNode_unknown _ _

theorem exists_onPacket (h : Filed ctx own t) (nodeid : NodeID)
    (packetType : UInt8) (sender : UDPEndpoint) (payload : BytesConstRef) :
    ∃ r, t.onPacket ctx m nodeid packetType sender payload = some r := by
  rw [onPacket]
  split
  · exact h.exists_onPong nodeid sender _
  · split
    · rw [onNeighbours]
      dsimp only
      split
      · exact exists_bind (exists_foldlM_addNode _ _) fun t₁ _ => ⟨_, rfl⟩
      · exact ⟨_, rfl⟩
    · split
      · rw [onFindNode]
        split
        · exact ⟨_, rfl⟩
        · exact exists_bind (exists_nearestNodeEntries t _) fun ps _ => ⟨_, rfl⟩
      · split
        · rw [onPing]
          dsimp only
          split
          · exact ⟨_, rfl⟩
          · split
            · exact ⟨_, rfl⟩
            · exact exists_bind (exists_addNode_unknown _ _) fun t₁ _ =>
                ⟨_, rfl⟩
        · exact ⟨_, rfl⟩

theorem exists_onReceived (h : Filed ctx own t) (hopen : t.isOpen = true)
    {sender : UDPEndpoint} {packet : Bytes}
    (hnames : ∀ x, Names ctx (.received sender packet) x → x ≠ own →
      Apart ctx.crypto.sha3 own x) :
    ∃ t', t.onReceived ctx m sender (.ofBytes packet) = some t' := by
  rw [onReceived]
  split
  · exact ⟨_, rfl⟩
  · next nodeid packetType payload hcheck =>
      split
      · exact ⟨_, rfl⟩
      · refine exists_bind (h.exists_onPacket _ _ _ _) fun r hr => ?_
        have hfiled := h.changes (changes_onPacket hopen hcheck hr)
        dsimp only
        split
        · exact hfiled.exists_noteActiveNode
            (hnames nodeid ⟨packetType, payload, hcheck⟩) sender
        · exact ⟨_, rfl⟩

/-- Nodes are dropped one after the other. -/
theorem exists_foldlM_dropNode {ps : List NodePtr} (h : Filed ctx own t)
    (hps : ∀ p ∈ ps, ∃ x, t.nodes x = some p ∧
      0 < NodeTable.distance ctx.crypto.sha3 own x) :
    ∃ t', ps.foldlM dropNode t = some t' := by
  induction ps generalizing t with
  | nil => exact ⟨t, rfl⟩
  | cons p ps ih =>
      obtain ⟨x, hnode, hx⟩ := hps p List.mem_cons_self
      rw [List.foldlM_cons]
      refine exists_bind (h.exists_dropNode hx hnode) fun t₁ hdrop => ?_
      have hfiled := h.changes
        (@changes_dropNode ctx ⟨0, 0⟩ (.cancelled 0) t t t₁ p hdrop)
      refine ih hfiled fun q hq => ?_
      rw [nodes_dropNode hdrop]
      exact hps q (List.mem_cons_of_mem p hq)

theorem exists_checkEvictions (h : Filed ctx own t) :
    ∃ t', t.checkEvictions m = some t' := by
  rw [checkEvictions]
  refine exists_bind (h.exists_foldlM_dropNode fun p hp => ?_) fun t₁ _ =>
    ⟨_, rfl⟩
  have hmem := (List.destutter_sublist _ _).subset hp
  obtain ⟨r, hr, hnode⟩ := List.mem_filterMap.1 hmem
  exact ⟨r.new, hnode, h.evictions r (List.mem_of_mem_filter hr)⟩

theorem exists_doDiscover (t : NodeTable) (target : NodeID) (round : Nat)
    (tried : List NodePtr) :
    ∃ t', t.doDiscover ctx m target round tried = some t' := by
  rw [doDiscover]
  split
  · exact ⟨_, rfl⟩
  · split
    · exact ⟨_, rfl⟩
    · refine exists_bind (exists_nearestNodeEntries t target) fun ps _ => ?_
      dsimp only
      split
      · exact ⟨_, rfl⟩
      · exact ⟨_, rfl⟩

/-- No operation indexes the buckets out of range. -/
theorem exists_step (h : Filed ctx own t)
    (hnames : ∀ x, Names ctx event x → x ≠ own → Apart ctx.crypto.sha3 own x) :
    ∃ t', step ctx t (m, event) = some t' := by
  cases event with
  | addNode node relation =>
      cases relation with
      | unknown => exact exists_addNode_unknown t node
      | known =>
          exact (h.insertEntry node false).exists_noteActiveNode
            (hnames node.id rfl) node.endpoint.udp
  | received sender packet =>
      rw [step]
      split
      · next hopen => exact h.exists_onReceived hopen hnames
      · exact ⟨_, rfl⟩
  | expired i randNodeId =>
      rw [step]
      split
      · exact ⟨_, rfl⟩
      · next timer _ =>
          split
          · exact ⟨_, rfl⟩
          · obtain ⟨t₁, h₁⟩ : ∃ t₁,
                t.perform ctx m timer.task randNodeId = some t₁ := by
              unfold perform
              split
              · exact h.exists_checkEvictions
              · exact exists_doDiscover _ _ _ _
              · exact exists_doDiscover _ _ _ _
            exact ⟨_, by rw [h₁]; rfl⟩
  | cancelled i => exact ⟨_, rfl⟩
  | disconnected => exact ⟨_, rfl⟩
  | processEvents => exact ⟨_, rfl⟩

/-- A run goes on to its end and leaves the entries in the buckets that they
belong to. -/
theorem exists_run (h : Filed ctx own t)
    (hnames : ∀ m event x, (m, event) ∈ events → Names ctx event x → x ≠ own →
      Apart ctx.crypto.sha3 own x) :
    ∃ t', run ctx t events = some t' ∧ Filed ctx own t' := by
  induction events generalizing t with
  | nil => exact ⟨t, rfl, h⟩
  | cons first events ih =>
      obtain ⟨m, event⟩ := first
      obtain ⟨t₁, hstep⟩ := @exists_step ctx m event own t h fun x =>
        hnames m event x List.mem_cons_self
      obtain ⟨t', hrun, hfiled⟩ := ih (h.changes (changes_step h.consistent hstep))
        fun m event x hmem => hnames m event x (List.mem_cons_of_mem _ hmem)
      refine ⟨t', ?_, hfiled⟩
      rw [run, List.foldlM_cons, hstep]
      exact hrun

end Filed

/-- Every run goes on to its end, and in the table that it leaves each bucket
holds at most `s_bucketSize` entries, each of them once; all are of other nodes
that have answered, and that are at the distance of the bucket. -/
theorem buckets_filed (ctx : NodeContext) (node : Node) (isOpen : Bool)
    (handler : Option NodeTableEventHandler) (m₀ : Moment)
    (events : List (Moment × NodeTableEvent))
    (hnames : ∀ m event x, (m, event) ∈ events → Names ctx event x →
      x ≠ node.id → Apart ctx.crypto.sha3 node.id x) :
    ∃ t, run ctx (create node isOpen handler m₀) events = some t ∧ ∀ i,
      (t.state i).length ≤ s_bucketSize ∧ (t.state i).Nodup ∧
      ∀ p ∈ t.state i, ∃ e, t.entries[p]? = some e ∧ e.pending = false ∧
        e.id ≠ node.id ∧
        i.val + 1 = distance ctx.crypto.sha3 node.id e.id := by
  obtain ⟨t, hrun, h⟩ := (Filed.create node isOpen handler).exists_run hnames
  refine ⟨t, hrun, fun i => ⟨h.length i, h.nodup i, fun p hp => ?_⟩⟩
  obtain ⟨e, he, hpending, hother, hi⟩ := h.buckets i p hp
  refine ⟨e, he, hpending, hother, ?_⟩
  rw [← h.distance p e he]
  exact (bucketUnsafe_eq_some_iff (h.distance_lt he)).1 hi

/-- Node ids are hashed to their last bytes. -/
def lastBytes : NodeContext where
  crypto := { DatagramPacket.plainDatagrams with
    sha3 := fun b => RLP.alignRight 32 (b.drop (b.length - 32)) }
  allowLocal := false

/-- A table that nothing has happened to. -/
def contestedStart : NodeTable :=
  create ⟨RLP.alignRight 64 [1], {}, .optional⟩ true none ⟨0, 0⟩

def contestedEndpoint : NodeIPEndpoint :=
  ⟨.v4 (RLP.alignRight 4 [8, 8, 8, 8]), 30303, 30303⟩

/-- The identity of the node `i` of a bucket. -/
def contestedID (i : Nat) : NodeID := RLP.alignRight 64 [UInt8.ofNat (32 + i)]

/-- Sixteen nodes fill a bucket and a seventeenth contests it. -/
def contestedRun : List (Moment × NodeTableEvent) :=
  (List.range 17).map fun i => (⟨1, 0⟩,
    .addNode ⟨contestedID i, contestedEndpoint, .optional⟩ .known)

/-- A pong that the node 12 signs. -/
def contestedPong : Bytes :=
  match (DatagramPacket.pong {}).sign lastBytes.crypto
      (RLP.alignRight 32 [44]) [] with
  | .ok signed => signed.2
  | .error _ => []

def contestedAnswer : Moment × NodeTableEvent :=
  (⟨2, 0⟩, .received contestedEndpoint.udp contestedPong)

theorem checkDatagram_contestedPong :
    (DatagramPacket.checkDatagram lastBytes.crypto (.ofBytes contestedPong)).map
      (·.1) = some (contestedID 12) := by
  decide +kernel

/-- The nodes that a contested bucket is about are hashed apart from the own
one. -/
theorem apart_contestedRun : ∀ m event x,
    (m, event) ∈ contestedRun ++ [contestedAnswer] → Names lastBytes event x →
      Apart lastBytes.crypto.sha3 (RLP.alignRight 64 [1]) x := by
  have hapart : ∀ i < 17, Apart lastBytes.crypto.sha3 (RLP.alignRight 64 [1])
      (contestedID i) := by
    intro i hi
    refine ⟨5, by decide, ?_⟩
    interval_cases i <;> decide +kernel
  intro m event x hmem hx
  rcases List.mem_append.1 hmem with hadded | hreceived
  · obtain ⟨i, hi, heq⟩ := List.mem_map.1 hadded
    cases heq
    rw [← show contestedID i = x from hx]
    exact hapart i (List.mem_range.1 hi)
  · cases List.mem_singleton.1 hreceived
    obtain ⟨type, payload, hcheck⟩ := hx
    have hid := checkDatagram_contestedPong
    rw [hcheck] at hid
    obtain rfl := Option.some.inj hid
    exact hapart 12 (by decide)

/-- The first node is asked whether it is there, the seventeenth is left out, and
with the pong those go that came after the node that has sent it. -/
theorem buckets_filed_contested :
    ∃ t, run lastBytes contestedStart (contestedRun ++ [contestedAnswer]) =
        some t ∧
      t.evictions = [⟨contestedID 0, 1, contestedID 16⟩] ∧
      t.state ⟨4, by decide⟩ = [0, 1, 2, 3, 4, 5, 6, 7, 8, 9, 10, 11, 12] ∧
      (t.state ⟨4, by decide⟩).Nodup ∧
      ∃ e, t.entries[12]? = some e ∧ e.pending = false ∧
        distance lastBytes.crypto.sha3 (RLP.alignRight 64 [1]) e.id = 5 := by
  obtain ⟨t, hrun, hfiled⟩ := buckets_filed lastBytes
    ⟨RLP.alignRight 64 [1], {}, .optional⟩ true none ⟨0, 0⟩
    (contestedRun ++ [contestedAnswer])
    fun m event x hmem hx _ => apart_contestedRun m event x hmem hx
  have hlast : (run lastBytes contestedStart
      (contestedRun ++ [contestedAnswer])).map
        (fun t => (t.evictions, t.state ⟨4, by decide⟩)) =
      some ([⟨contestedID 0, 1, contestedID 16⟩],
        [0, 1, 2, 3, 4, 5, 6, 7, 8, 9, 10, 11, 12]) := by
    decide +kernel
  have hrun : run lastBytes contestedStart (contestedRun ++ [contestedAnswer]) =
      some t := hrun
  rw [hrun] at hlast
  obtain ⟨hevictions, hstate⟩ := Prod.mk.inj (Option.some.inj hlast)
  obtain ⟨-, hnodup, hbucket⟩ := hfiled ⟨4, by decide⟩
  obtain ⟨e, he, hpending, -, hdistance⟩ := hbucket 12 (by rw [hstate]; decide)
  exact ⟨t, hrun, hevictions, hstate, hnodup, e, he, hpending, hdistance.symm⟩

end NodeTable

end Web3Core
