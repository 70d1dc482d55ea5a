/-
The discovery of `NodeTable`: one task is always pending, which either begins a
search or goes on with one; nothing else asks nodes for neighbours.  What the
other operations do to the table does not matter for it.
-/
import Web3Core.NodeTableNearest

namespace Web3Core

/-- A task of the discovery. -/
def NodeTableTask.isDiscovery : NodeTableTask → Bool
  | .doCheckEvictions => false
  | .doDiscovery => true
  | .doDiscover _ _ _ => true

/-- A request for neighbours. -/
def UDPDatagram.isFindNode (d : UDPDatagram) : Bool :=
  match d.content with
  | .packet (.findNode _) => true
  | _ => false

namespace NodeTable

/-- The tasks of the discovery that are pending. -/
def discoveries (t : NodeTable) : List NodeTableTimer :=
  t.timers.filter fun timer => timer.task.isDiscovery

/-- The requests for neighbours that were sent. -/
def findNodes (t : NodeTable) : List UDPDatagram :=
  t.sent.filter UDPDatagram.isFindNode

/-- What the discovery depends on. -/
def search (t : NodeTable) : Bool × List NodeTableTimer × List UDPDatagram :=
  (t.isOpen, t.discoveries, t.findNodes)

variable {ctx : NodeContext} {m : Moment} {t t' : NodeTable}

section Frame

theorem search_send (t : NodeTable) {d : UDPDatagram} (h : d.isFindNode = false) :
    (t.send d).search = t.search := by
  rw [send]
  split
  · simp [search, discoveries, findNodes, h]
  · rfl

theorem search_ping (t : NodeTable) (dest : NodeIPEndpoint) :
    (t.ping m dest).search = t.search := search_send t rfl

theorem search_schedule (t : NodeTable) (duration : Int) :
    (t.schedule m duration .doCheckEvictions).search = t.search := by
  simp [search, discoveries, findNodes, schedule, NodeTableTask.isDiscovery]

theorem search_evict (t : NodeTable) (leastSeen new : NodeEntry) :
    (t.evict m leastSeen new).search = t.search := by
  rw [evict]
  split
  · dsimp only
    split
    · rw [search_ping, search_schedule]
      rfl
    · rw [search_ping]
      rfl
  · rfl

theorem search_noteInBucket (t : NodeTable) (p : NodePtr) (e : NodeEntry)
    (i : Fin s_bins) : (t.noteInBucket m p e i).search = t.search := by
  have happend : ∀ b : List NodePtr, (if p ∈ t.state i then t.setBucket i b
      else (t.setBucket i b).appendEvent e.id .nodeEntryAdded).search =
        t.search := by
    intro b
    split <;> rfl
  rw [noteInBucket]
  dsimp only
  split
  · exact happend _
  · split
    · exact happend _
    · split
      · split
        · rw [search_evict]
          rfl
        · exact happend _
      · exact happend _

theorem search_noteActiveNode {pubk : NodeID} {endpoint : UDPEndpoint}
    (h : t.noteActiveNode ctx m pubk endpoint = some t') :
    t'.search = t.search := by
  rw [noteActiveNode] at h
  split at h
  · cases h
    rfl
  · split at h
    · cases h
      rfl
    · split at h
      · cases h
        rfl
      · split at h
        · cases h
          rfl
        · obtain ⟨i, -, rfl⟩ := Option.map_eq_some_iff.1 h
          rw [search_noteInBucket]
          rfl

theorem search_dropNode {p : NodePtr} (h : t.dropNode p = some t') :
    t'.search = t.search := by
  rw [dropNode] at h
  split at h
  · cases h
    rfl
  · obtain ⟨i, -, rfl⟩ := Option.map_eq_some_iff.1 h
    rfl

theorem search_addNode {node : Node} {relation : NodeRelation}
    (h : t.addNode ctx m node relation = some t') : t'.search = t.search := by
  cases relation with
  | known =>
      rw [search_noteActiveNode h]
      rfl
  | unknown =>
      rw [addNode] at h
      split at h
      · cases h
        rfl
      · split at h
        · cases h
          rw [search_ping]
          rfl
        · split at h
          · cases h
            rfl
          · cases h
            rw [search_ping]
            rfl

theorem search_onPong {nodeid : NodeID} {sender : UDPEndpoint} {packet : Pong}
    {noted : Bool} (h : t.onPong ctx m nodeid sender packet = some (t', noted)) :
    t'.search = t.search := by
  rw [onPong] at h
  dsimp only at h
  split at h
  · obtain ⟨t₁, hdrop, h⟩ := Option.bind_eq_some_iff.1 h
    cases h
    have hdropped : t₁.search = t.search := by
      split at hdrop
      · exact (search_dropNode hdrop).trans rfl
      · cases hdrop
        rfl
    rw [← hdropped]
    split <;> rfl
  · split at h
    · cases h
      rfl
    · split at h
      · cases h
        rfl
      · obtain ⟨t₁, hadd, h⟩ := Option.bind_eq_some_iff.1 h
        cases h
        show t₁.search = t.search
        split at hadd
        · cases hadd
          rfl
        · exact (search_addNode hadd).trans rfl

theorem search_foldlM_addNode (nodes : List Neighbour)
    (h : nodes.foldlM (fun (t : NodeTable) n =>
      t.addNode ctx m ⟨n.node, n.endpoint, .optional⟩ .unknown) t = some t') :
    t'.search = t.search := by
  induction nodes generalizing t with
  | nil =>
      cases h
      rfl
  | cons n nodes ih =>
      obtain ⟨t₁, hadd, hrest⟩ := Option.bind_eq_some_iff.1 h
      exact (ih hrest).trans (search_addNode hadd)

theorem search_foldl_send (packets : List (List Neighbour)) (sender : UDPEndpoint)
    (ts : UInt32) (t : NodeTable) :
    (packets.foldl (fun (t : NodeTable) ns =>
      t.send ⟨sender, .packet (.neighbours ⟨ns, ts⟩)⟩) t).search = t.search := by
  induction packets generalizing t with
  | nil => rfl
  | cons ns packets ih => exact (ih _).trans (search_send t rfl)

theorem search_onPing {nodeid : NodeID} {sender : UDPEndpoint}
    {payload : BytesConstRef} {noted : Bool}
    (h : t.onPing ctx m nodeid sender payload = some (t', noted)) :
    t'.search = t.search := by
  rw [onPing] at h
  dsimp only at h
  split at h
  · cases h
    rfl
  · obtain ⟨t₁, h₁, ht₁⟩ : ∃ t₁ : NodeTable, t₁.search = t.search ∧ t₁ =
        if (PingNode.fromBytesConstRef payload).version.toNat <
            c_protocolVersion then
          t.send ⟨(PingNode.fromBytesConstRef payload).source.udp, .compatPong
            (ctx.crypto.sha3 payload.toBytes) (m.futureFromEpoch 60)⟩
        else t := by
      refine ⟨_, ?_, rfl⟩
      split
      · exact search_send t rfl
      · rfl
    rw [← ht₁] at h
    split at h
    · cases h
      exact h₁
    · obtain ⟨t₂, hadd, h⟩ := Option.bind_eq_some_iff.1 h
      cases h
      rw [search_send _ rfl, search_addNode hadd, h₁]

theorem search_onPacket {nodeid : NodeID} {packetType : UInt8}
    {sender : UDPEndpoint} {payload : BytesConstRef} {noted : Bool}
    (h : t.onPacket ctx m nodeid packetType sender payload =
      some (t', noted)) : t'.search = t.search := by
  rw [onPacket] at h
  split at h
  · exact search_onPong h
  · split at h
    · rw [onNeighbours] at h
      split at h
      · obtain ⟨t₁, hadd, h⟩ := Option.bind_eq_some_iff.1 h
        cases h
        exact (search_foldlM_addNode _ hadd).trans rfl
      · cases h
        rfl
    · split at h
      · rw [onFindNode] at h
        split at h
        · cases h
          rfl
        · obtain ⟨nearest, -, h⟩ := Option.bind_eq_some_iff.1 h
          cases h
          exact search_foldl_send _ _ _ _
      · split at h
        · exact search_onPing h
        · cases h
          rfl

theorem search_onReceived {sender : UDPEndpoint} {packet : BytesConstRef}
    (h : t.onReceived ctx m sender packet = some t') : t'.search = t.search := by
  rw [onReceived] at h
  split at h
  · cases h
    rfl
  · split at h
    · cases h
      rfl
    · obtain ⟨⟨t₁, noted⟩, hpacket, h⟩ := Option.bind_eq_some_iff.1 h
      rw [← search_onPacket hpacket]
      dsimp only at h
      split at h
      · exact search_noteActiveNode h
      · cases h
        rfl

theorem search_checkEvictions (h : t.checkEvictions m = some t') :
    t'.search = t.search := by
  have hdrop : ∀ (ps : List NodePtr) (t t' : NodeTable),
      ps.foldlM dropNode t = some t' → t'.search = t.search := by
    intro ps
    induction ps with
    | nil =>
        intro t t' h
        cases h
        rfl
    | cons p ps ih =>
        intro t t' h
        obtain ⟨t₁, hfirst, hrest⟩ := Option.bind_eq_some_iff.1 h
        exact (ih t₁ t' hrest).trans (search_dropNode hfirst)
  obtain ⟨t₁, hfold, h⟩ := Option.bind_eq_some_iff.1 h
  cases h
  rw [← hdrop _ _ _ hfold]
  split
  · exact search_schedule _ _
  · rfl

end Frame

section Discover

variable {own target : NodeID} {round : Nat} {tried : List NodePtr}

/-- The entries that are found are valid, and no two of them are the same. -/
theorem nodup_nearestNodeEntries (h : Filed ctx own t) {nearest : List NodePtr}
    (hnearest : t.nearestNodeEntries ctx target = some nearest) :
    nearest.Nodup ∧ ∀ p ∈ nearest, ∃ e, t.entries[p]? = some e := by
  have hdistance : ∀ p, t.distanceTo ctx target p < s_bits := by
    intro p
    rw [distanceTo]
    split
    · decide
    · exact distance_lt _ _ _
  rw [h.nearestNodeEntries_eq, Option.some.injEq] at hnearest
  subst hnearest
  have hperm := perm_byNumber ((h.nodup_visited target).filter t.isAlive)
    fun p _ => hdistance p
  have hnodup := hperm.nodup_iff.2 ((h.nodup_visited target).filter t.isAlive)
  refine ⟨(hnodup.filter _).sublist (List.take_sublist _ _), fun p hp => ?_⟩
  have hany := (List.mem_filter.1 (List.mem_of_mem_take hp)).2
  cases he : t.entries[p]? with
  | none => simp [he] at hany
  | some e => exact ⟨e, rfl⟩

theorem search_sendFindNode {p : NodePtr} {e : NodeEntry}
    (hopen : t.isOpen = true) (he : t.entries[p]? = some e) :
    (sendFindNode m target t p).search = (true, t.discoveries, t.findNodes ++
        [⟨e.endpoint.udp,
          .packet (.findNode ⟨target, m.futureFromEpoch 60⟩)⟩]) ∧
      (sendFindNode m target t p).entries = t.entries := by
  have hsend : sendFindNode m target t p = { t with
      findNodeTimeout := t.findNodeTimeout ++ [(e.id, m.now)]
      sent := t.sent ++ [⟨e.endpoint.udp,
        .packet (.findNode ⟨target, m.futureFromEpoch 60⟩)⟩] } := by
    rw [sendFindNode_eq he, send, if_pos hopen]
  rw [hsend]
  refine ⟨?_, rfl⟩
  simp [search, discoveries, findNodes, hopen, UDPDatagram.isFindNode]

/-- Nodes are asked: a request is sent to each of them. -/
theorem search_foldl_sendFindNode (ps : List NodePtr) (hopen : t.isOpen = true)
    (hps : ∀ p ∈ ps, ∃ e, t.entries[p]? = some e) :
    ∃ asked, (ps.foldl (sendFindNode m target) t).search =
        (true, t.discoveries, t.findNodes ++ asked) ∧
      asked.length = ps.length ∧ ∀ d ∈ asked, ∃ ts,
        d.content = .packet (.findNode ⟨target, ts⟩) := by
  induction ps generalizing t with
  | nil =>
      refine ⟨[], ?_, rfl, fun d hd => by cases hd⟩
      simp [search, hopen]
  | cons p ps ih =>
      obtain ⟨e, he⟩ := hps p List.mem_cons_self
      obtain ⟨hsearch, hentries⟩ := @search_sendFindNode m t target p e hopen he
      simp only [search, Prod.mk.injEq] at hsearch
      obtain ⟨hopen', hdiscoveries, hfindNodes⟩ := hsearch
      obtain ⟨asked, hrest, hlength, hasked⟩ := ih hopen' fun q hq => by
        rw [hentries]
        exact hps q (List.mem_cons_of_mem p hq)
      rw [hdiscoveries, hfindNodes, List.append_assoc] at hrest
      refine ⟨_, hrest, ?_, fun d hd => ?_⟩
      · rw [List.length_append, hlength, List.length_cons, Nat.add_comm]
        rfl
      · rcases List.mem_append.1 hd with hfirst | hmore
        · rw [List.mem_singleton.1 hfirst]
          exact ⟨_, rfl⟩
        · exact hasked d hmore

theorem search_schedule_discovery (t : NodeTable) (duration : Int)
    {task : NodeTableTask} (h : task.isDiscovery = true) :
    (t.schedule m duration task).search =
      (t.isOpen, t.discoveries ++ [⟨m.now + duration, task⟩], t.findNodes) := by
  simp [search, discoveries, findNodes, schedule, h]

/-- A pending task is one round of a search at most: it has asked so many
different nodes, with the last requests that were sent. -/
def SearchOk (requests : List UDPDatagram) : NodeTableTask → Prop
  | .doDiscover target round tried =>
      round ≤ s_maxSteps ∧ tried.Nodup ∧ tried.length ≤ s_alpha * round ∧
        ∃ earlier asked, requests = earlier ++ asked ∧
          asked.length = tried.length ∧ ∀ d ∈ asked, ∃ ts,
            d.content = .packet (.findNode ⟨target, ts⟩)
  | _ => True

/-- What a task of the discovery does while the socket is open: it asks up to
three nodes, and one task is pending again. -/
theorem exists_search_doDiscover (h : Filed ctx own t) (hopen : t.isOpen = true)
    (hok : SearchOk t.findNodes (.doDiscover target round tried))
    (hperform : t.doDiscover ctx m target round tried = some t') :
    ∃ timer asked, t'.search =
        (true, t.discoveries ++ [timer], t.findNodes ++ asked) ∧
      asked.length ≤ s_alpha ∧ m.now + 2 * c_reqTimeout ≤ timer.due ∧
      timer.due ≤ m.now + c_bucketRefresh ∧ timer.task.isDiscovery = true ∧
      SearchOk (t.findNodes ++ asked) timer.task := by
  obtain ⟨hround, hnodup, hlength, earlier, before, hbefore, hcount', hall'⟩ := hok
  have hrefresh : 2 * c_reqTimeout ≤ c_bucketRefresh := by decide
  rw [doDiscover, if_neg (by simp [hopen])] at hperform
  by_cases hlast : round = s_maxSteps
  · rw [if_pos hlast] at hperform
    cases hperform
    have hsearch := @search_schedule_discovery m t c_bucketRefresh .doDiscovery rfl
    rw [hopen] at hsearch
    exact ⟨⟨_, .doDiscovery⟩, [], by rw [hsearch, List.append_nil], Nat.zero_le _,
      Int.add_le_add_left hrefresh _, le_rfl, rfl, trivial⟩
  · rw [if_neg hlast] at hperform
    obtain ⟨nearest, hnearest, hperform⟩ := Option.bind_eq_some_iff.1 hperform
    obtain ⟨hdistinct, hvalid⟩ := nodup_nearestNodeEntries h hnearest
    generalize hfresh : (nearest.filter (· ∉ tried)).take s_alpha = fresh at hperform
    have hfew : fresh.length ≤ s_alpha := by
      rw [← hfresh]
      exact List.length_take_le _ _
    have hmem : ∀ p ∈ fresh, p ∈ nearest ∧ p ∉ tried := by
      intro p hp
      rw [← hfresh] at hp
      simpa using List.mem_filter.1 (List.mem_of_mem_take hp)
    have hnew : fresh.Nodup := by
      rw [← hfresh]
      exact (hdistinct.filter _).sublist (List.take_sublist _ _)
    obtain ⟨asked, hsearch, hcount, hall⟩ := @search_foldl_sendFindNode m t
      target fresh hopen fun p hp => hvalid p (hmem p hp).1
    dsimp only at hperform
    generalize fresh.foldl (sendFindNode m target) t = t₁ at hsearch hperform
    simp only [search, Prod.mk.injEq] at hsearch
    obtain ⟨hopen₁, hdiscoveries, hfindNodes⟩ := hsearch
    by_cases hnone : fresh = []
    · rw [if_pos hnone] at hperform
      cases hperform
      have hschedule := @search_schedule_discovery m t₁ c_bucketRefresh
        .doDiscovery rfl
      rw [hopen₁, hdiscoveries, hfindNodes] at hschedule
      exact ⟨⟨_, .doDiscovery⟩, asked, hschedule, by omega,
        Int.add_le_add_left hrefresh _, le_rfl, rfl, trivial⟩
    · rw [if_neg hnone] at hperform
      cases hperform
      have hschedule := @search_schedule_discovery m t₁ (2 * c_reqTimeout)
        (.doDiscover target (round + 1) (tried ++ fresh)) rfl
      rw [hopen₁, hdiscoveries, hfindNodes] at hschedule
      refine ⟨_, asked, hschedule, by omega, le_rfl,
        Int.add_le_add_left hrefresh _, rfl, ?_, ?_, ?_, ?_⟩
      · omega
      · refine hnodup.append hnew fun p hp hp' => (hmem p hp').2 hp
      · rw [List.length_append, Nat.mul_succ]
        omega
      · refine ⟨earlier, before ++ asked, ?_, ?_, fun d hd => ?_⟩
        · rw [hbefore, List.append_assoc]
        · rw [List.length_append, List.length_append, hcount, hcount']
        · rcases List.mem_append.1 hd with hold | hnew
          · exact hall' d hold
          · exact hall d hnew

end Discover

section Timers

variable {i : Nat} {timer : NodeTableTimer}

theorem filter_eraseIdx {α : Type} {p : α → Bool} {l : List α} {x : α}
    (h : l[i]? = some x) : if p x then
      ((l.eraseIdx i).filter p).length + 1 = (l.filter p).length
    else (l.eraseIdx i).filter p = l.filter p := by
  obtain ⟨hlt, rfl⟩ := List.getElem?_eq_some_iff.1 h
  have hsplit : l = l.take i ++ l[i] :: l.drop (i + 1) := by
    rw [List.getElem_cons_drop, List.take_append_drop]
  have hfilter := congrArg (List.filter p) hsplit
  rw [List.filter_append, List.filter_cons] at hfilter
  rw [List.eraseIdx_eq_take_drop_succ, List.filter_append, hfilter]
  split
  · simp [Nat.add_assoc]
  · rfl

/-- The timer that has expired is taken out. -/
theorem discoveries_eraseIdx {rest : List NodeTableTimer}
    (hi : t.timers[i]? = some timer) (htimers : t'.timers = t.timers ++ rest)
    (hmost : t.discoveries.length ≤ 1) :
    ({ t' with timers := t'.timers.eraseIdx i } : NodeTable).discoveries =
      (if timer.task.isDiscovery then [] else t.discoveries) ++
        rest.filter fun timer => timer.task.isDiscovery := by
  have herase := @filter_eraseIdx i _ (fun timer => timer.task.isDiscovery) _ _ hi
  have hlt := (List.getElem?_eq_some_iff.1 hi).1
  simp only [discoveries] at hmost ⊢
  rw [htimers, List.eraseIdx_append_of_lt_length hlt, List.filter_append]
  split
  · rename_i htask
    rw [if_pos htask] at herase
    have hnil : ((t.timers.eraseIdx i).filter fun timer =>
        timer.task.isDiscovery).length = 0 := by omega
    rw [List.length_eq_zero_iff.1 hnil]
  · rename_i htask
    rw [if_neg htask] at herase
    rw [herase]

theorem timers_send (t : NodeTable) (d : UDPDatagram) :
    (t.send d).timers = t.timers := by
  rw [send]
  split <;> rfl

theorem timers_foldl_sendFindNode {target : NodeID} (ps : List NodePtr)
    (t : NodeTable) :
    (ps.foldl (sendFindNode m target) t).timers = t.timers := by
  induction ps generalizing t with
  | nil => rfl
  | cons p ps ih =>
      rw [List.foldl_cons, ih, sendFindNode]
      split
      · rfl
      · exact timers_send _ _

theorem timers_foldlM_dropNode {ps : List NodePtr}
    (h : ps.foldlM dropNode t = some t') : t'.timers = t.timers := by
  induction ps generalizing t with
  | nil =>
      cases h
      rfl
  | cons p ps ih =>
      obtain ⟨t₁, hdrop, hrest⟩ := Option.bind_eq_some_iff.1 h
      rw [ih hrest]
      rw [dropNode] at hdrop
      split at hdrop
      · cases hdrop
        rfl
      · obtain ⟨i, -, rfl⟩ := Option.map_eq_some_iff.1 hdrop
        rfl

/-- A task that is performed leaves the timers alone, but may set another. -/
theorem exists_timers_perform {task : NodeTableTask} {r : NodeID}
    (h : t.perform ctx m task r = some t') :
    ∃ rest, t'.timers = t.timers ++ rest := by
  have hdiscover : ∀ {target round tried},
      t.doDiscover ctx m target round tried = some t' →
        ∃ rest, t'.timers = t.timers ++ rest := by
    intro target round tried h
    rw [doDiscover] at h
    split at h
    · cases h
      exact ⟨[], (List.append_nil _).symm⟩
    · split at h
      · cases h
        exact ⟨_, rfl⟩
      · obtain ⟨nearest, -, h⟩ := Option.bind_eq_some_iff.1 h
        dsimp only at h
        split at h <;> cases h <;>
          exact ⟨_, congrArg (· ++ _) (timers_foldl_sendFindNode _ _)⟩
  cases task with
  | doCheckEvictions =>
      obtain ⟨t₁, hfold, h⟩ := Option.bind_eq_some_iff.1 h
      cases h
      rw [← timers_foldlM_dropNode hfold]
      split
      · exact ⟨_, rfl⟩
      · exact ⟨[], (List.append_nil _).symm⟩
  | doDiscovery => exact hdiscover h
  | doDiscover target round tried => exact hdiscover h

end Timers

/-- The state of the discovery at a moment, for a table that was made at
`start`. -/
structure Searching (start now : TimePoint) (t : NodeTable) : Prop where
  most : t.discoveries.length ≤ 1
  pending : t.isOpen = true → t.discoveries.length = 1
  rate : t.findNodes.length * milliseconds 200 ≤ now - start
  due : ∀ timer ∈ t.discoveries, timer.due ≤ now + c_bucketRefresh ∧
    t.findNodes.length * milliseconds 200 ≤ timer.due - start - c_bucketRefresh ∧
    SearchOk t.findNodes timer.task

namespace Searching

variable {start now : TimePoint} {own : NodeID} {event : NodeTableEvent}

theorem of_search (h : Searching start now t) (hsearch : t'.search = t.search)
    (hnow : now ≤ m.now) : Searching start m.now t' := by
  simp only [search, Prod.mk.injEq] at hsearch
  obtain ⟨hopen, hdiscoveries, hfindNodes⟩ := hsearch
  refine ⟨?_, ?_, ?_, fun timer htimer => ?_⟩
  · rw [hdiscoveries]
    exact h.most
  · rw [hopen, hdiscoveries]
    exact h.pending
  · rw [hfindNodes]
    exact h.rate.trans (Int.sub_le_sub_right hnow start)
  · rw [hdiscoveries] at htimer
    obtain ⟨hdue, hrate, hok⟩ := h.due timer htimer
    rw [hfindNodes]
    exact ⟨hdue.trans (Int.add_le_add_right hnow _), hrate, hok⟩

theorem create (node : Node) (handler : Option NodeTableEventHandler) (m : Moment) :
    Searching m.now m.now (create node true handler m) := by
  refine ⟨le_rfl, fun _ => rfl, ?_, fun timer htimer => ?_⟩
  · show ((0 : Nat) : Int) * milliseconds 200 ≤ _
    omega
  · obtain rfl := List.mem_singleton.1 htimer
    refine ⟨le_rfl, ?_, trivial⟩
    show ((0 : Nat) : Int) * milliseconds 200 ≤
      m.now + c_bucketRefresh - m.now - c_bucketRefresh
    omega

/-- Three more requests take what one round does. -/
theorem rate_round {n k first due now : Int}
    (hrate : n * milliseconds 200 ≤ due - first - c_bucketRefresh)
    (hdue : due ≤ now) (hk : k ≤ n + 3) :
    k * milliseconds 200 ≤ now + 2 * c_reqTimeout - first - c_bucketRefresh := by
  simp only [c_reqTimeout, c_bucketRefresh, milliseconds] at hrate ⊢
  omega

theorem rate_now {k first now : Int}
    (h : k * milliseconds 200 ≤ now + 2 * c_reqTimeout - first - c_bucketRefresh) :
    k * milliseconds 200 ≤ now - first := by
  simp only [c_reqTimeout, c_bucketRefresh, milliseconds] at h ⊢
  omega

theorem rate_due {k first now due : Int}
    (h : k * milliseconds 200 ≤ now + 2 * c_reqTimeout - first - c_bucketRefresh)
    (hdue : now + 2 * c_reqTimeout ≤ due) :
    k * milliseconds 200 ≤ due - first - c_bucketRefresh := by
  omega

/-- A task of the discovery is done. -/
theorem discovered (h : Searching start now t) (hfiled : Filed ctx own t)
    (hnow : now ≤ m.now) {timer : NodeTableTimer} (hdue : timer.due ≤ m.now)
    (hmem : timer ∈ t.discoveries) {target : NodeID} {round : Nat}
    {tried : List NodePtr}
    (hok : SearchOk t.findNodes (.doDiscover target round tried))
    (hperform : t.doDiscover ctx m target round tried = some t')
    {timers : List NodeTableTimer} {rest : List NodeTableTimer}
    (htimers : t'.timers = t.timers ++ rest)
    (hpending : ({ t' with timers } : NodeTable).discoveries =
      rest.filter fun timer => timer.task.isDiscovery) :
    Searching start m.now { t' with timers } := by
  obtain ⟨-, hrate, -⟩ := h.due timer hmem
  by_cases hopen : t.isOpen = true
  · obtain ⟨next, asked, hsearch, hfew, hlate, hsoon, -, hnext⟩ :=
      exists_search_doDiscover hfiled hopen hok hperform
    simp only [search, Prod.mk.injEq] at hsearch
    obtain ⟨hopen', hdiscoveries, hfindNodes⟩ := hsearch
    have hone : (rest.filter fun timer => timer.task.isDiscovery) = [next] := by
      rw [discoveries, htimers, List.filter_append] at hdiscoveries
      exact List.append_cancel_left hdiscoveries
    have hcount : (({ t' with timers } : NodeTable).findNodes.length : Int) ≤
        t.findNodes.length + 3 := by
      show (t'.findNodes.length : Int) ≤ _
      rw [hfindNodes, List.length_append]
      have hthree : asked.length ≤ 3 := hfew
      omega
    have hround := rate_round hrate hdue hcount
    rw [hone] at hpending
    refine ⟨by rw [hpending]; exact le_rfl, fun _ => by rw [hpending]; rfl,
      rate_now hround, fun timer' htimer => ?_⟩
    rw [hpending] at htimer
    obtain rfl := List.mem_singleton.1 htimer
    refine ⟨hsoon, rate_due hround hlate, ?_⟩
    show SearchOk t'.findNodes _
    rw [hfindNodes]
    exact hnext
  · rw [doDiscover, if_pos (by simp [hopen])] at hperform
    cases hperform
    have hnone : rest = [] := List.append_cancel_left
      (htimers.symm.trans (List.append_nil t.timers).symm)
    rw [hnone, List.filter_nil] at hpending
    refine ⟨by rw [hpending]; exact Nat.zero_le 1, fun hcon => absurd hcon hopen,
      h.rate.trans (Int.sub_le_sub_right hnow start), fun timer' htimer => ?_⟩
    rw [hpending] at htimer
    cases htimer

/-- A timer expires. -/
theorem expired (h : Searching start now t) (hfiled : Filed ctx own t)
    (hnow : now ≤ m.now) {i : Nat} {r : NodeID}
    (hstep : step ctx t (m, .expired i r) = some t') : Searching start m.now t' := by
  rw [step] at hstep
  cases hi : t.timers[i]? with
  | none =>
      rw [hi] at hstep
      cases hstep
      exact h.of_search rfl hnow
  | some timer =>
      rw [hi] at hstep
      dsimp only at hstep
      split at hstep
      · cases hstep
        exact h.of_search rfl hnow
      · rename_i hdue
        obtain ⟨t₁, hperform, rfl⟩ := Option.map_eq_some_iff.1 hstep
        obtain ⟨rest, htimers⟩ := exists_timers_perform hperform
        have hpending := discoveries_eraseIdx hi htimers h.most
        have hmem : timer.task.isDiscovery = true → timer ∈ t.discoveries :=
          fun htask => List.mem_filter.2 ⟨List.mem_of_getElem? hi, htask⟩
        cases htask : timer.task with
        | doCheckEvictions =>
            rw [htask] at hperform hpending
            have hsearch := search_checkEvictions hperform
            have hnone : (rest.filter fun timer => timer.task.isDiscovery) = [] := by
              have hdiscoveries : t₁.discoveries = t.discoveries :=
                congrArg (fun s => s.2.1) hsearch
              rw [discoveries, htimers, List.filter_append] at hdiscoveries
              exact List.append_cancel_left
                (hdiscoveries.trans (List.append_nil _).symm)
            rw [hnone, List.append_nil] at hpending
            refine h.of_search ?_ hnow
            simp only [search, Prod.mk.injEq] at hsearch ⊢
            exact ⟨hsearch.1, hpending, hsearch.2.2⟩
        | doDiscovery =>
            rw [htask] at hperform hpending
            refine h.discovered hfiled hnow (not_lt.1 hdue) (hmem (by rw [htask]; rfl))
              ⟨Nat.zero_le _, List.nodup_nil, Nat.zero_le _, t.findNodes, [],
                (List.append_nil _).symm, rfl, fun d hd => by cases hd⟩ hperform
              htimers hpending
        | doDiscover target round tried =>
            rw [htask] at hperform hpending
            have hmem' := hmem (by rw [htask]; rfl)
            have hok := (h.due timer hmem').2.2
            rw [htask] at hok
            exact h.discovered hfiled hnow (not_lt.1 hdue) hmem' hok hperform
              htimers hpending

theorem step (h : Searching start now t) (hfiled : Filed ctx own t)
    (hnow : now ≤ m.now) (hkept : ∀ i, event ≠ .cancelled i)
    (hstep : NodeTable.step ctx t (m, event) = some t') :
    Searching start m.now t' := by
  cases event with
  | addNode node relation => exact h.of_search (search_addNode hstep) hnow
  | received sender packet =>
      rw [NodeTable.step] at hstep
      split at hstep
      · exact h.of_search (search_onReceived hstep) hnow
      · cases hstep
        exact h.of_search rfl hnow
  | expired i r => exact h.expired hfiled hnow hstep
  | cancelled i => exact absurd rfl (hkept i)
  | disconnected =>
      cases hstep
      exact ⟨h.most, fun hopen => absurd hopen Bool.false_ne_true,
        h.rate.trans (Int.sub_le_sub_right hnow start), fun timer htimer =>
          ⟨(h.due timer htimer).1.trans (Int.add_le_add_right hnow _),
            (h.due timer htimer).2⟩⟩
  | processEvents =>
      cases hstep
      exact h.of_search rfl hnow

/-- A run in which the clock does not go back. -/
theorem exists_run (h : Searching start now t) (hfiled : Filed ctx own t)
    {events : List (Moment × NodeTableEvent)}
    (hnames : ∀ m event x, (m, event) ∈ events → Names ctx event x → x ≠ own →
      Apart ctx.crypto.sha3 own x)
    (hclock : (now :: events.map fun e => e.1.now).IsChain (· ≤ ·))
    (hkept : ∀ e ∈ events, ∀ i, e.2 ≠ .cancelled i) :
    ∃ t', run ctx t events = some t' ∧
      Searching start ((events.map fun e => e.1.now).getLastD now) t' := by
  induction events generalizing t now with
  | nil => exact ⟨t, rfl, h⟩
  | cons first events ih =>
      obtain ⟨m, event⟩ := first
      rw [List.map_cons, List.isChain_cons_cons] at hclock
      obtain ⟨t₁, hstep⟩ := @Filed.exists_step ctx m event own t hfiled fun x =>
        hnames m event x List.mem_cons_self
      have hnext := h.step hfiled hclock.1 (hkept _ List.mem_cons_self) hstep
      obtain ⟨t', hrun, hlast⟩ := ih hnext
        (hfiled.changes (changes_step hfiled.consistent hstep))
        (fun m event x hmem => hnames m event x (List.mem_cons_of_mem _ hmem))
        hclock.2 fun e he => hkept e (List.mem_cons_of_mem _ he)
      refine ⟨t', ?_, ?_⟩
      · rw [run, List.foldlM_cons, hstep]
        exact hrun
      · rw [List.map_cons, List.getLastD_cons]
        exact hlast

end Searching

/-- As long as the socket is open, exactly one task of the discovery is pending,
due in 7.2 seconds at most; if it goes on with a search, then this has had at
most eight rounds, in each of which it asked at most three nodes, none of them
twice, and the last requests that were sent are its own; and however long the
table exists, no more than one request in 200 milliseconds was sent on the
average. -/
theorem discovery_steady {ctx : NodeContext} {node : Node}
    {handler : Option NodeTableEventHandler} {m₀ : Moment}
    {events : List (Moment × NodeTableEvent)}
    (hnames : ∀ m event x, (m, event) ∈ events → Names ctx event x →
      x ≠ node.id → Apart ctx.crypto.sha3 node.id x)
    (hclock : (m₀.now :: events.map fun e => e.1.now).IsChain (· ≤ ·))
    (hkept : ∀ e ∈ events, ∀ i, e.2 ≠ .cancelled i) :
    ∃ t now, run ctx (create node true handler m₀) events = some t ∧
      now = (events.map fun e => e.1.now).getLastD m₀.now ∧
      t.discoveries.length ≤ 1 ∧
      (t.isOpen = true → t.discoveries.length = 1) ∧
      t.findNodes.length * milliseconds 200 ≤ now - m₀.now ∧
      ∀ timer ∈ t.discoveries, timer.due ≤ now + c_bucketRefresh ∧
        SearchOk t.findNodes timer.task := by
  obtain ⟨t, hrun, h⟩ := (Searching.create node handler m₀).exists_run
    (Filed.create node true handler) hnames hclock hkept
  exact ⟨t, _, hrun, rfl, h.most, h.pending, h.rate, fun timer htimer =>
    ⟨(h.due timer htimer).1, (h.due timer htimer).2.2⟩⟩

/-- A search asks the one node there is, and ends with its second round. -/
theorem discovery_steady_search :
    ∃ t, ∃ now : TimePoint, run lastBytes
        (create ⟨RLP.alignRight 64 [1], {}, .optional⟩ true none ⟨0, 0⟩)
        (firstBucket ++
          [(⟨7200000000, 7⟩, .expired 0 (RLP.alignRight 64 [1])),
            (⟨7800000000, 7⟩, .expired 0 (RLP.alignRight 64 [1]))]) = some t ∧
      now = 7800000000 ∧ t.discoveries.length ≤ 1 ∧ t.findNodes.length = 1 := by
  have hnames : ∀ m event x, (m, event) ∈ firstBucket ++
      [(⟨7200000000, 7⟩, .expired 0 (RLP.alignRight 64 [1])),
        (⟨7800000000, 7⟩, .expired 0 (RLP.alignRight 64 [1]))] →
      Names lastBytes event x → x ≠ RLP.alignRight 64 [1] →
        Apart lastBytes.crypto.sha3 (RLP.alignRight 64 [1]) x := by
    intro m event x hmem hx _
    simp only [firstBucket, List.cons_append, List.nil_append, List.mem_cons,
      Prod.mk.injEq, List.not_mem_nil, or_false] at hmem
    obtain ⟨-, rfl⟩ | ⟨-, rfl⟩ | ⟨-, rfl⟩ := hmem
    · have hx' : RLP.alignRight 64 [2] = x := hx
      rw [← hx']
      exact ⟨1, by decide, by decide +kernel⟩
    · exact hx.elim
    · exact hx.elim
  have hkept : ∀ e ∈ firstBucket ++
      [(⟨7200000000, 7⟩, .expired 0 (RLP.alignRight 64 [1])),
        (⟨7800000000, 7⟩, .expired 0 (RLP.alignRight 64 [1]))],
      ∀ i, e.2 ≠ .cancelled i := by
    intro e he i
    simp only [firstBucket, List.cons_append, List.nil_append, List.mem_cons,
      List.not_mem_nil, or_false] at he
    obtain rfl | rfl | rfl := he <;> simp
  obtain ⟨t, now, hrun, hnow, hmost, -⟩ := @discovery_steady lastBytes
    ⟨RLP.alignRight 64 [1], {}, .optional⟩ none ⟨0, 0⟩ _ hnames (by decide) hkept
  have hcount : (run lastBytes (create ⟨RLP.alignRight 64 [1], {}, .optional⟩ true
      none ⟨0, 0⟩) (firstBucket ++
        [(⟨7200000000, 7⟩, .expired 0 (RLP.alignRight 64 [1])),
          (⟨7800000000, 7⟩, .expired 0 (RLP.alignRight 64 [1]))])).map
      (fun t => t.findNodes.length) = some 1 := by decide +kernel
  rw [hrun] at hcount
  exact ⟨t, now, hrun, hnow, hmost, Option.some.inj hcount⟩

end NodeTable

end Web3Core
