/-
Who gets into a bucket: a node that was not added as a known one has answered
to a ping before.  Neighbours are taken from nodes that were asked, and a pong
that nobody waits for changes nothing.
-/
import Web3Core.DatagramRoundTrip
import Web3Core.NodeTableChanges
import Web3Core.Runs

namespace Web3Core

namespace NodeTable

/-- A ping was sent to an endpoint. -/
def Pinged (t : NodeTable) (dest : NodeIPEndpoint) : Prop :=
  ∃ source ts, UDPDatagram.mk dest.udp
    (.packet (.pingNode { source, destination := dest, ts })) ∈ t.sent

/-- A node is added as a known one by one of the events. -/
def KnownIn (events : List (Moment × NodeTableEvent)) (x : NodeID) : Prop :=
  ∃ m node, (m, .addNode node .known) ∈ events ∧ node.id = x

/-- By one of the events a pong is received that a node has signed, while the
node has an entry and after its endpoint was pinged. -/
def Answered (ctx : NodeContext) (start : NodeTable)
    (events : List (Moment × NodeTableEvent)) (x : NodeID) : Prop :=
  ∃ before m sender packet after t, ∃ (p : NodePtr) (e : NodeEntry),
    events = before ++ (m, .received sender packet) :: after ∧
      run ctx start before = some t ∧ Signed ctx packet x 2 ∧
      t.nodes x = some p ∧ t.entries[p]? = some e ∧ e.id = x ∧
      Pinged t e.endpoint

/-- A node has been sent a request for neighbours while an event was handled. -/
def AskedBy (t t' : NodeTable) (x : NodeID) : Prop :=
  ∃ e ∈ t.entries, e.id = x ∧ ∃ target ts, UDPDatagram.mk e.endpoint.udp
    (.packet (.findNode ⟨target, ts⟩)) ∈ t'.sent.drop t.sent.length

/-- One of the events is a timer at a time, and with it a node is asked for
neighbours. -/
def Asked (ctx : NodeContext) (start : NodeTable)
    (events : List (Moment × NodeTableEvent)) (x : NodeID) (time : TimePoint) :
    Prop :=
  ∃ before m i randNodeId after t t',
    events = before ++ (m, .expired i randNodeId) :: after ∧
      run ctx start before = some t ∧
      step ctx t (m, .expired i randNodeId) = some t' ∧ m.now = time ∧
      AskedBy t t' x

/-- What holds of a table after a run. -/
structure Admission (ctx : NodeContext) (start : NodeTable)
    (events : List (Moment × NodeTableEvent)) (t : NodeTable) : Prop where
  consistent : Consistent t
  answered : ∀ (p : NodePtr) e, t.entries[p]? = some e → e.pending = false →
    KnownIn events e.id ∨ Answered ctx start events e.id
  pinged : t.isOpen = true → ∀ (p : NodePtr) e, t.entries[p]? = some e →
    e.pending = true → Pinged t e.endpoint
  buckets : ∀ i, ∀ p ∈ t.state i, ∃ e, t.entries[p]? = some e ∧
    e.pending = false

variable {ctx : NodeContext} {m : Moment} {event : NodeTableEvent}
  {start t t' : NodeTable} {events : List (Moment × NodeTableEvent)}
  {x : NodeID}

theorem KnownIn.append (h : KnownIn events x)
    (later : List (Moment × NodeTableEvent)) : KnownIn (events ++ later) x := by
  obtain ⟨m, node, hmem, hid⟩ := h
  exact ⟨m, node, List.mem_append_left _ hmem, hid⟩

theorem Answered.append (h : Answered ctx start events x)
    (later : List (Moment × NodeTableEvent)) :
    Answered ctx start (events ++ later) x := by
  obtain ⟨before, m, sender, packet, after, t, p, e, rfl, h⟩ := h
  refine ⟨before, m, sender, packet, after ++ later, t, p, e, ?_, h⟩
  rw [List.append_assoc, List.cons_append]

theorem Asked.append {time : TimePoint} (h : Asked ctx start events x time)
    (later : List (Moment × NodeTableEvent)) :
    Asked ctx start (events ++ later) x time := by
  obtain ⟨before, m, i, r, after, t, t', rfl, h⟩ := h
  refine ⟨before, m, i, r, after ++ later, t, t', ?_, h⟩
  rw [List.append_assoc, List.cons_append]

theorem Pinged.mono {dest : NodeIPEndpoint} (h : Pinged t dest)
    (hsent : t.sent <+: t'.sent) : Pinged t' dest := by
  obtain ⟨source, ts, hmem⟩ := h
  exact ⟨source, ts, hsent.subset hmem⟩

theorem pinged_ping {dest : NodeIPEndpoint} (hopen : t.isOpen = true) :
    Pinged (t.ping m dest) dest := by
  refine ⟨t.node.endpoint, m.futureFromEpoch 60, ?_⟩
  rw [ping, send, if_pos hopen]
  exact List.mem_append_right _ (List.mem_singleton_self _)

namespace Admission

/-- Nothing that is left aside matters for the admission. -/
theorem aside (h : Admission ctx start events t) (haside : Aside t t') :
    Admission ctx start events t' where
  consistent := h.consistent.aside haside
  answered := by
    rw [haside.entries]
    exact h.answered
  pinged := by
    intro hopen p e he hpending
    rw [haside.entries] at he
    exact (h.pinged (haside.isOpen hopen) p e he hpending).mono haside.sent
  buckets := by
    rw [haside.state, haside.entries]
    exact h.buckets

theorem append (h : Admission ctx start events t)
    (later : List (Moment × NodeTableEvent)) :
    Admission ctx start (events ++ later) t where
  consistent := h.consistent
  answered := by
    intro p e he hpending
    rcases h.answered p e he hpending with hknown | hanswered
    · exact .inl (hknown.append later)
    · exact .inr (hanswered.append later)
  pinged := h.pinged
  buckets := h.buckets

/-- The buckets hold old entries after a new one is made. -/
theorem buckets_insertEntry (h : Admission ctx start events t) (f : NodeEntry) :
    ∀ i, ∀ p ∈ (t.insertEntry f).state i, ∃ e,
      (t.insertEntry f).entries[p]? = some e ∧ e.pending = false := by
  intro i p hp
  obtain ⟨e, he, hpending⟩ := h.buckets i p hp
  refine ⟨e, ?_, hpending⟩
  have hlt := (List.getElem?_eq_some_iff.1 he).1
  rw [insertEntry]
  dsimp only
  rw [List.getElem?_append_left hlt, he]

/-- A new entry of a node that may be in a bucket is that of a known one. -/
theorem insertEntry (h : Admission ctx start events t) {f : NodeEntry}
    (hpending : f.pending = false) (hknown : KnownIn events f.id) :
    Admission ctx start events (t.insertEntry f) where
  consistent := h.consistent.insertEntry f
  answered := by
    intro p e he hp
    rcases getElem?_insertEntry he with rfl | hold
    · exact .inl hknown
    · exact h.answered p e hold hp
  pinged := by
    intro hopen p e he hp
    rcases getElem?_insertEntry he with rfl | hold
    · rw [hpending] at hp
      cases hp
    · exact h.pinged hopen p e hold hp
  buckets := h.buckets_insertEntry f

/-- A new entry of a node that has still to answer is pinged. -/
theorem insertEntry_ping (h : Admission ctx start events t) {f : NodeEntry}
    (hpending : f.pending = true) :
    Admission ctx start events ((t.insertEntry f).ping m f.endpoint) := by
  have haside := aside_ping (m := m) (t.insertEntry f) f.endpoint
  have hconsistent := (h.consistent.insertEntry f).aside haside
  refine ⟨hconsistent, ?_, ?_, ?_⟩
  · intro p e he hp
    rw [haside.entries] at he
    rcases getElem?_insertEntry he with rfl | hold
    · rw [hpending] at hp
      cases hp
    · exact h.answered p e hold hp
  · intro hopen p e he hp
    rw [haside.entries] at he
    have hopen' : (t.insertEntry f).isOpen = true := haside.isOpen hopen
    rcases getElem?_insertEntry he with rfl | hold
    · exact pinged_ping hopen'
    · exact (h.pinged hopen' p e hold hp).mono haside.sent
  · rw [haside.state, haside.entries]
    exact h.buckets_insertEntry f

/-- An entry is changed that does not become pending, nor may be in a bucket
unless its node has answered. -/
theorem modifyEntry (h : Admission ctx start events t) {p : NodePtr}
    {f : NodeEntry → NodeEntry} (hid : ∀ e, (f e).id = e.id)
    (hf : ∀ e, t.entries[p]? = some e → (f e).pending = false)
    (hanswered : ∀ e, t.entries[p]? = some e →
      KnownIn events e.id ∨ Answered ctx start events e.id) :
    Admission ctx start events (t.modifyEntry p f) where
  consistent := h.consistent.modifyEntry p hid
  answered := by
    intro q e he hpending
    rw [getElem?_modifyEntry] at he
    split at he
    · next hq =>
        obtain ⟨e', he', rfl⟩ := Option.map_eq_some_iff.1 he
        rw [hid]
        exact hanswered e' (hq ▸ he')
    · exact h.answered q e he hpending
  pinged := by
    intro hopen q e he hpending
    rw [getElem?_modifyEntry] at he
    split at he
    · next hq =>
        obtain ⟨e', he', rfl⟩ := Option.map_eq_some_iff.1 he
        rw [hf e' (hq ▸ he')] at hpending
        cases hpending
    · exact h.pinged hopen q e he hpending
  buckets := by
    intro i q hq
    obtain ⟨e, he, hpending⟩ := h.buckets i q hq
    rw [getElem?_modifyEntry]
    split
    · next hp =>
        rw [he]
        exact ⟨f e, rfl, hf e (hp ▸ he)⟩
    · exact ⟨e, he, hpending⟩

theorem setBucket (h : Admission ctx start events t) {i : Fin s_bins}
    {b : List NodePtr} (hb : ∀ p ∈ b, p ∈ t.state i ∨
      ∃ e, t.entries[p]? = some e ∧ e.pending = false) :
    Admission ctx start events (t.setBucket i b) where
  consistent := h.consistent
  answered := h.answered
  pinged := h.pinged
  buckets := by
    intro j p hp
    rw [NodeTable.setBucket] at hp ⊢
    dsimp only at hp ⊢
    rw [Function.update_apply] at hp
    split at hp
    · rcases hb p hp with hold | hnew
      · exact h.buckets i p hold
      · exact hnew
    · exact h.buckets j p hp

/-- A change keeps the admission, if it held when the event came. -/
theorem change {first : NodeTable} (hrun : run ctx first events = some start)
    (hstart : Admission ctx first events start)
    (hchange : Change ctx start m event t t')
    (h : Admission ctx first (events ++ [(m, event)]) t) :
    Admission ctx first (events ++ [(m, event)]) t' := by
  cases hchange with
  | aside haside => exact h.aside haside
  | added node hnone => exact h.insertEntry_ping rfl
  | known node =>
      exact h.insertEntry rfl ⟨m, node, by simp, rfl⟩
  | @answered _ sender packet x p hopen hsigned hnodeStart hnode =>
      refine h.modifyEntry (fun e => rfl) (fun e he => rfl) fun e he => ?_
      obtain ⟨e₀, he₀, hid₀⟩ := hstart.consistent x p hnodeStart
      obtain ⟨e₁, he₁, hid₁⟩ := h.consistent x p hnode
      obtain rfl : e₁ = e := by simpa [he₁] using he
      rw [hid₁]
      cases hpending : e₀.pending with
      | true =>
          exact .inr ⟨events, m, sender, packet, [], start, p, e₀, rfl, hrun,
            hsigned, hnodeStart, he₀, hid₀,
            hstart.pinged hopen p e₀ he₀ hpending⟩
      | false =>
          have hbefore := hstart.append [(m, .received sender packet)]
          rw [← hid₀]
          exact hbefore.answered p e₀ he₀ hpending
  | @moved _ _ p e endpoint he hpending =>
      refine h.modifyEntry (fun e => rfl) (fun e' he' => ?_) fun e' he' => ?_
      · obtain rfl : e = e' := by simpa [he] using he'
        exact hpending
      · obtain rfl : e = e' := by simpa [he] using he'
        exact h.answered p e he hpending
  | @noted _ _ p e i b he hpending hother hi hb hp hroom =>
      refine h.setBucket fun q hq => ?_
      rcases List.mem_append.1 hq with hold | hnew
      · exact .inl (hb.subset hold)
      · rw [List.mem_singleton.1 hnew]
        exact .inr ⟨e, he, hpending⟩
  | removed hb => exact h.setBucket fun q hq => .inl (hb.subset hq)
  | evicting => exact ⟨h.consistent, h.answered, h.pinged, h.buckets⟩
  | erased => exact ⟨h.consistent, h.answered, h.pinged, h.buckets⟩
  | asked target hopen hstart he =>
      rw [sendFindNode_eq he]
      refine Admission.aside ?_ (aside_send _ _)
      exact ⟨h.consistent, h.answered, h.pinged, h.buckets⟩

/-- A run keeps the admission. -/
theorem of_run {first : NodeTable} (hfirst : Admission ctx first [] first)
    (hrun : run ctx first events = some t) : Admission ctx first events t := by
  refine foldlM_history (P := Admission ctx first) hfirst ?_ events t hrun
  rintro events start ⟨m, event⟩ t hrun hstart hstep
  have hchanges := changes_step hstart.consistent hstep
  clear hstep
  induction hchanges with
  | refl => exact hstart.append _
  | tail _ hchange ih => exact change hrun hstart hchange ih

theorem create (node : Node) (isOpen : Bool)
    (handler : Option NodeTableEventHandler) :
    Admission ctx (create node isOpen handler m) []
      (create node isOpen handler m) where
  consistent := by
    intro x p h
    cases h
  answered := by
    intro p e h
    cases h
  pinged := by
    intro hopen p e h
    cases h
  buckets := by
    intro i p hp
    cases hp

end Admission

/-- Nothing is taken back that was sent. -/
theorem Change.sent (h : Change ctx start m event t t') : t.sent <+: t'.sent := by
  cases h with
  | aside haside => exact haside.sent
  | added node hnone => exact (aside_ping (t.insertEntry _) _).sent
  | known node => exact List.prefix_refl _
  | answered => exact List.prefix_refl _
  | moved => exact List.prefix_refl _
  | noted => exact List.prefix_refl _
  | removed => exact List.prefix_refl _
  | evicting => exact List.prefix_refl _
  | erased => exact List.prefix_refl _
  | asked target hopen hstart he =>
      rw [sendFindNode_eq he]
      refine List.IsPrefix.trans ?_ (aside_send _ _).sent
      exact List.prefix_refl _

theorem Changes.sent (h : Changes ctx start m event t t') :
    t.sent <+: t'.sent := by
  induction h with
  | refl => exact List.prefix_refl _
  | tail _ hchange ih => exact ih.trans hchange.sent

theorem AskedBy.mono (h : AskedBy start t x) (hsent : t.sent <+: t'.sent) :
    AskedBy start t' x := by
  obtain ⟨e, he, hid, target, ts, hmem⟩ := h
  exact ⟨e, he, hid, target, ts, (hsent.drop _).subset hmem⟩

/-- A request that is remembered was sent by a timer, now or before. -/
theorem asked_of_changes (h : Changes ctx start m event start t)
    {time : TimePoint} (hmem : (x, time) ∈ t.findNodeTimeout) :
    (x, time) ∈ start.findNodeTimeout ∨
      (m.now = time ∧ (∃ i r, event = .expired i r) ∧ AskedBy start t x) := by
  induction h with
  | refl => exact .inl hmem
  | @tail t t' hchanges hchange ih =>
      have hkeep : (x, time) ∈ t.findNodeTimeout →
          (x, time) ∈ start.findNodeTimeout ∨
            (m.now = time ∧ (∃ i r, event = .expired i r) ∧
              AskedBy start t' x) := by
        intro hold
        rcases ih hold with hbefore | ⟨htime, hevent, hasked⟩
        · exact .inl hbefore
        · exact .inr ⟨htime, hevent, hasked.mono hchange.sent⟩
      cases hchange with
      | aside haside => exact hkeep (haside.findNodeTimeout.subset hmem)
      | added node hnone =>
          exact hkeep ((aside_ping (t.insertEntry _) _).findNodeTimeout.subset
            hmem)
      | known => exact hkeep hmem
      | answered => exact hkeep hmem
      | moved => exact hkeep hmem
      | noted => exact hkeep hmem
      | removed => exact hkeep hmem
      | evicting => exact hkeep hmem
      | erased => exact hkeep hmem
      | @asked i r _ p e target hopen hstart he =>
          rw [sendFindNode_eq he, send] at hmem
          rw [if_pos hopen] at hmem
          rcases List.mem_append.1 hmem with hold | hnew
          · exact hkeep hold
          · cases List.mem_singleton.1 hnew
            refine .inr ⟨rfl, ⟨i, r, rfl⟩, e, List.mem_of_getElem? hstart, rfl,
              target, m.futureFromEpoch 60, ?_⟩
            rw [sendFindNode_eq he, send, if_pos hopen]
            dsimp only
            rw [List.drop_append_of_le_length (Changes.sent hchanges).length_le]
            exact List.mem_append_right _ (List.mem_singleton_self _)

/-- Every request that is remembered was sent by a timer. -/
theorem asked_of_run {first : NodeTable} (hfirst : Admission ctx first [] first)
    (hnone : first.findNodeTimeout = [])
    (hrun : run ctx first events = some t) {time : TimePoint}
    (hmem : (x, time) ∈ t.findNodeTimeout) : Asked ctx first events x time := by
  refine foldlM_history (P := fun events t => (x, time) ∈ t.findNodeTimeout →
    Asked ctx first events x time) ?_ ?_ events t hrun hmem
  · intro hmem
    rw [hnone] at hmem
    cases hmem
  · rintro events start ⟨m, event⟩ t hrun hstart hstep hmem
    have hadmission := Admission.of_run hfirst hrun
    have hchanges := changes_step hadmission.consistent hstep
    rcases asked_of_changes hchanges hmem with hold | ⟨htime, hevent, hasked⟩
    · exact (hstart hold).append _
    · obtain ⟨i, r, rfl⟩ := hevent
      exact ⟨events, m, i, r, [], start, t, rfl, hrun, hstep, htime, hasked⟩

/-- What a packet holds that is not expected is not looked at. -/
theorem step_neighbours {sender : UDPEndpoint} {packet : Bytes}
    {payload : BytesConstRef}
    (hcheck : DatagramPacket.checkDatagram ctx.crypto (.ofBytes packet) =
      some (x, 4, payload)) (hexpects : t.expectsNeighbours m x = false) :
    step ctx t (m, .received sender packet) = some t ∨
      step ctx t (m, .received sender packet) =
        (t.pruneFindNode m x).noteActiveNode ctx m x sender := by
  rw [step]
  split
  · rw [onReceived, hcheck]
    dsimp only
    cases RLP.ofRef payload .veryStrict with
    | error e => exact .inl rfl
    | ok r =>
        refine .inr ?_
        dsimp only
        rw [onPacket, if_neg (by decide), if_pos rfl, onNeighbours]
        dsimp only
        rw [hexpects]
        rfl
  · exact .inl rfl

/-- A pong that nobody waits for changes nothing. -/
theorem step_pong {sender : UDPEndpoint} {packet : Bytes}
    {payload : BytesConstRef}
    (hcheck : DatagramPacket.checkDatagram ctx.crypto (.ofBytes packet) =
      some (x, 2, payload)) (hnode : t.nodes x = none)
    (hevictions : ∀ e ∈ t.evictions, e.leastSeen ≠ x)
    (hpings : t.pubkDiscoverPings sender.address = none) :
    step ctx t (m, .received sender packet) = some t := by
  have hfind : t.evictions.find? (fun e : EvictionTimeout =>
      e.leastSeen == x && decide (e.time > m.now)) = none := by
    rw [List.find?_eq_none]
    intro e he
    simp [hevictions e he]
  rw [step]
  split
  · rw [onReceived, hcheck]
    dsimp only
    cases RLP.ofRef payload .veryStrict with
    | error e => rfl
    | ok r =>
        dsimp only
        rw [onPacket, if_pos rfl, onPong]
        dsimp only
        rw [hfind, hnode]
        dsimp only
        rw [hpings]
        rfl
  · rfl

/-- A bucket holds only nodes that have answered or were added as known ones;
neighbours are taken only from a node that was asked for them in time; a pong
that nobody waits for changes nothing. -/
theorem bucket_answered (ctx : NodeContext) (node : Node) (isOpen : Bool)
    (handler : Option NodeTableEventHandler) (m₀ : Moment)
    (events : List (Moment × NodeTableEvent)) (t : NodeTable)
    (hrun : run ctx (create node isOpen handler m₀) events = some t) :
    (∀ i, ∀ p ∈ t.state i, ∃ e, t.entries[p]? = some e ∧
      (KnownIn events e.id ∨
        Answered ctx (create node isOpen handler m₀) events e.id)) ∧
    (∀ m sender packet x payload,
      DatagramPacket.checkDatagram ctx.crypto (.ofBytes packet) =
        some (x, 4, payload) →
      (∃ time, Asked ctx (create node isOpen handler m₀) events x time ∧
        m.now - time < c_reqTimeout) ∨
      step ctx t (m, .received sender packet) = some t ∨
      step ctx t (m, .received sender packet) =
        (t.pruneFindNode m x).noteActiveNode ctx m x sender) ∧
    ∀ m sender packet x payload,
      DatagramPacket.checkDatagram ctx.crypto (.ofBytes packet) =
        some (x, 2, payload) →
      t.nodes x = none → (∀ e ∈ t.evictions, e.leastSeen ≠ x) →
      t.pubkDiscoverPings sender.address = none →
      step ctx t (m, .received sender packet) = some t := by
  have hfirst : Admission ctx (create node isOpen handler m₀) []
      (create node isOpen handler m₀) := Admission.create node isOpen handler
  have hadmission := Admission.of_run hfirst hrun
  refine ⟨?_, ?_, ?_⟩
  · intro i p hp
    obtain ⟨e, he, hpending⟩ := hadmission.buckets i p hp
    exact ⟨e, he, hadmission.answered p e he hpending⟩
  · intro m sender packet x payload hcheck
    cases hexpects : t.expectsNeighbours m x with
    | false => exact .inr (step_neighbours hcheck hexpects)
    | true =>
        rw [expectsNeighbours, List.any_eq_true] at hexpects
        obtain ⟨⟨y, time⟩, hmem, htime⟩ := hexpects
        simp only [Bool.and_eq_true, beq_iff_eq, decide_eq_true_eq] at htime
        obtain ⟨rfl, hlate⟩ := htime
        exact .inl ⟨time, asked_of_run hfirst rfl hrun hmem, hlate⟩
  · intro m sender packet x payload hcheck hnode hevictions hpings
    exact step_pong hcheck hnode hevictions hpings

/-- A node that is added, and whose pong is then received. -/
theorem bucket_answered_pong :
    let crypto : DatagramCrypto := { DatagramPacket.plainDatagrams with
      sha3 := fun b => RLP.alignRight 32 (b.drop (b.length - 32)) }
    let ctx : NodeContext := ⟨crypto, false⟩
    let endpoint : NodeIPEndpoint :=
      ⟨.v4 (RLP.alignRight 4 [8, 8, 8, 8]), 30303, 30303⟩
    let start := create ⟨RLP.alignRight 64 [1], {}, .optional⟩ true none ⟨0, 0⟩
    let x : NodeID := RLP.alignRight 64 (RLP.alignRight 32 [2] : H256).data
    let packet := DatagramPacket.datagram crypto
      (.pong ⟨endpoint, RLP.alignRight 32 [], 0⟩) (RLP.alignRight 32 [2])
    let events : List (Moment × NodeTableEvent) :=
      [(⟨1, 0⟩, .addNode ⟨x, endpoint, .optional⟩ .unknown),
        (⟨2, 0⟩, .received endpoint.udp packet)]
    (∃ t, run ctx start events = some t ∧ t.state ⟨0, by decide⟩ = [0]) ∧
      Answered ctx start events x := by
  intro crypto ctx endpoint start x packet events
  have hstate : (run ctx start events).map
      (fun t => (t.state ⟨0, by decide⟩, t.entries.map (·.id))) =
        some ([0], [x]) := by
    decide +kernel
  obtain ⟨t, hrun, ht⟩ := Option.map_eq_some_iff.1 hstate
  obtain ⟨hbucket, hids⟩ := Prod.mk.inj ht
  refine ⟨⟨t, hrun, hbucket⟩, ?_⟩
  obtain ⟨hall, -, -⟩ := bucket_answered ctx ⟨RLP.alignRight 64 [1], {}, .optional⟩
    true none ⟨0, 0⟩ events t hrun
  obtain ⟨e, he, hanswered⟩ := hall ⟨0, by decide⟩ 0 (by rw [hbucket]; simp)
  have hid : e.id = x := by
    have hmap := congrArg (·[0]?) hids
    simpa [List.getElem?_map, he] using hmap
  rw [hid] at hanswered
  rcases hanswered with ⟨m, node, hmem, -⟩ | hanswered
  · simp [events] at hmem
  · exact hanswered

end NodeTable

end Web3Core
