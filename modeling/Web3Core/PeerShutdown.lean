/-
How a host disconnects its sessions when it stops.  One pass is enough if the
sockets can be closed; a session that was dropped without being closed, and to
which somebody points, keeps the host from stopping.
-/
import Web3Core.PeerSessionRuns

namespace Web3Core

namespace PeerSession

variable {known : Bool} {P : PeerSession → Prop} {r : PeerSession × Peer}
  {s : PeerSession}

/-- What is kept by everything that handlers and callers are made of. -/
structure Kept (known : Bool) (P : PeerSession → Prop) : Prop where
  send : ∀ s, P s → P s.send
  drop : ∀ reason r, P r.1 → P (drop known reason r).1
  reading : ∀ s phase, P s → P { s with reading := phase }
  written : ∀ s n b, P s → P { s with writeQueue := n, writing := b }

theorem Kept.disconnect (hP : Kept known P) (h : P r.1)
    (reason : DisconnectReason) : P (disconnect known reason r).1 := by
  unfold PeerSession.disconnect
  apply hP.drop
  dsimp only
  split
  · exact hP.send _ h
  · exact h

theorem Kept.call (hP : Kept known P) (h : P r.1) (c : SessionCall) :
    P (call known r c).1 := by
  cases c with
  | send => exact hP.send _ h
  | disconnect reason => exact hP.disconnect h reason
  | addRating rating => exact h

theorem Kept.calls (hP : Kept known P) (h : P r.1) (calls : List SessionCall) :
    P (calls.foldl (PeerSession.call known) r).1 := by
  induction calls generalizing r with
  | nil => exact h
  | cons c calls ih => exact ih (hP.call h c)

theorem Kept.checkRead (hP : Kept known P) (h : P r.1) (f : ReadFailure) :
    P (checkRead known r f).1 := by
  cases f with
  | failed => exact hP.drop _ _ h
  | abrupt => exact hP.drop _ _ h
  | wrongLength => exact hP.disconnect h _

theorem Kept.readPacket (hP : Kept known P) (h : P r.1)
    (packet : SessionPacket) : P (readPacket known r packet).1 := by
  cases packet with
  | requested isInt => exact hP.drop _ _ h
  | ping => exact hP.send _ h
  | ignored => exact h
  | interpreted calls threw =>
      have hcalls := hP.calls h calls
      unfold PeerSession.readPacket
      dsimp only
      split
      · exact hP.disconnect hcalls _
      · exact hcalls

theorem Kept.doRead (hP : Kept known P) (h : P s) : P s.doRead := by
  unfold PeerSession.doRead
  split
  · exact h
  · exact hP.reading s _ h

theorem Kept.onHeader (hP : Kept known P) (h : P r.1) (o : HeaderRead) :
    P (onHeader known o r).1 := by
  have hread := hP.reading _ none h
  cases o with
  | failure f => exact hP.checkRead (r := (_, r.2)) hread f
  | refused => exact hP.drop _ (_, r.2) hread
  | threw => exact hread
  | accepted => exact hP.reading _ _ hread

theorem Kept.onFrame (hP : Kept known P) (h : P r.1) (o : FrameRead) :
    P (onFrame known o r).1 := by
  have hread := hP.reading _ none h
  cases o with
  | failure f => exact hP.checkRead (r := (_, r.2)) hread f
  | refused => exact hP.drop _ (_, r.2) hread
  | threw => exact hread
  | notPacket => exact hP.disconnect (r := (_, r.2)) hread _
  | packet p => exact hP.doRead (hP.readPacket (r := (_, r.2)) hread p)

theorem Kept.onWritten (hP : Kept known P) (h : P r.1) (ok : Bool) :
    P (onWritten known ok r).1 := by
  unfold PeerSession.onWritten
  dsimp only
  split
  · exact hP.drop _ (_, r.2) (hP.written _ r.1.writeQueue false h)
  · exact hP.written { r.1 with writing := false } _ _
      (hP.written _ r.1.writeQueue false h)

theorem Kept.start (hP : Kept known P) (h : P s) : P s.start :=
  hP.doRead (hP.send s h)

/-- The socket of a session that was dropped is closed. -/
def Shut (s : PeerSession) : Prop := s.dropped = true → s.isOpen = false

/-- A session that was dropped with its socket left open, and to which somebody
points besides handlers. -/
def Stuck (s : PeerSession) : Prop :=
  s.dropped = true ∧ s.isOpen = true ∧ s.held ≠ 0

theorem kept_shut : Kept true Shut where
  send s h := by
    unfold Shut
    rw [isOpen_send, dropped_send]
    exact h
  drop reason r h := by
    unfold PeerSession.drop
    split
    · exact h
    · exact fun _ => Bool.and_false _
  reading _ _ h := h
  written _ _ _ h := h

theorem kept_stuck (known : Bool) : Kept known Stuck where
  send s h := by
    unfold Stuck
    rw [isOpen_send, dropped_send, held_send]
    exact h
  drop reason r h := by
    unfold PeerSession.drop
    rw [if_pos h.1]
    exact h
  reading _ _ h := h
  written _ _ _ h := h

/-- A session that is connected is not, once it was disconnected. -/
theorem shut_disconnect (h : r.1.Shut) (reason : DisconnectReason) :
    (disconnect true reason r).1.isOpen = false :=
  kept_shut.disconnect h reason (dropped_disconnect true reason)

theorem release_of_stuck (h : r.1.Stuck) : release r = r := by
  unfold PeerSession.release
  rw [if_pos]
  simp [isHeld, h.2.2]

theorem shut_release (h : r.1.Shut) : (release r).1.Shut := by
  unfold PeerSession.release
  split
  · exact h
  · exact fun _ => rfl

/-- What is kept while a session is pointed to, whoever lets go of it. -/
structure KeptHeld (known : Bool) (P : PeerSession → Prop) : Prop
    extends Kept known P where
  lock : ∀ s, P s → P { s with held := s.held + 1 }
  release : ∀ r, P r.1 → P (release r).1

theorem keptHeld_shut : KeptHeld true Shut where
  toKept := kept_shut
  lock _ h := h
  release _ h := shut_release h

theorem keptHeld_stuck (known : Bool) : KeptHeld known Stuck where
  toKept := kept_stuck known
  lock s h := ⟨h.1, h.2.1, Nat.succ_ne_zero _⟩
  release r h := by
    rw [release_of_stuck h]
    exact h

end PeerSession

namespace SessionHost

open PeerSession (Becomes Running Sound Kept KeptHeld Shut Stuck)

variable {h h' : SessionHost} {i j k : Nat} {s t : PeerSession} {p : Peer}
  {known : NodeID → Bool} {e : SessionEvent} {P : PeerSession → Prop}
  {f : PeerSession × Peer → PeerSession × Peer}

section Keep

theorem update_kept (hs : h.sessions[i]? = some s) (hP : P s)
    (hrelease : ∀ r, P r.1 → P (PeerSession.release r).1)
    (hf : j = i → ∀ p, P (f (s, p)).1) :
    ∃ t, (h.update j f).sessions[i]? = some t ∧ P t := by
  rcases update_at hs j f with ht | ⟨hji, p, ht⟩
  · exact ⟨s, ht, hP⟩
  · exact ⟨_, ht, hrelease _ (hf hji p)⟩

theorem handle_kept (hs : h.sessions[i]? = some s) (hP : P s)
    (q : PeerSession → Bool) (hrelease : ∀ r, P r.1 → P (PeerSession.release r).1)
    (hf : j = i → ∀ p, P (f (s, p)).1) :
    ∃ t, (h.handle j q f).sessions[i]? = some t ∧ P t := by
  unfold handle
  split
  · exact update_kept hs hP hrelease hf
  · exact ⟨s, hs, hP⟩

theorem keepAlive_kept (hs : h.sessions[i]? = some s) (hP : P s)
    (hrelease : ∀ r, P r.1 → P (PeerSession.release r).1)
    (hsend : ∀ s, P s → P s.send) (steady : TimePoint) :
    ∃ t, (h.keepAlivePeers steady).sessions[i]? = some t ∧ P t := by
  apply keepAlive_induction (P := fun h => ∃ t, h.sessions[i]? = some t ∧ P t)
  case hping =>
    rintro h' j ⟨t, ht, hPt⟩ -
    exact update_kept ht hPt hrelease fun _ _ => hsend t hPt
  case hforget => exact fun _ _ hkept _ _ => hkept
  case htime => exact fun _ _ hkept => hkept
  case hP => exact ⟨s, hs, hP⟩

/-- What everything keeps that handlers and callers are made of, one step keeps
for a session that is there. -/
theorem step_kept (hs : h.sessions[i]? = some s) (hP : P s)
    (hkept : KeptHeld e.known P)
    (hunlock : e = .unlock i → P { s with held := s.held - 1 }) :
    ∃ t, (h.step e).sessions[i]? = some t ∧ P t := by
  have hrelease := hkept.release
  cases e with
  | start id now protocolVersion address node known =>
      exact ⟨s, sessions_start hs id now protocolVersion address node known, hP⟩
  | header j known o =>
      exact handle_kept hs hP _ hrelease fun _ p => hkept.onHeader (r := (s, p)) hP o
  | frame j known o =>
      exact handle_kept hs hP _ hrelease fun _ p => hkept.onFrame (r := (s, p)) hP o
  | written j known ok =>
      exact handle_kept hs hP _ hrelease fun _ p =>
        hkept.onWritten (r := (s, p)) hP ok
  | call j known c =>
      exact handle_kept hs hP _ hrelease fun _ p => hkept.call (r := (s, p)) hP c
  | lock j => exact handle_kept hs hP _ hrelease fun _ _ => hkept.lock s hP
  | unlock j =>
      exact handle_kept hs hP _ hrelease fun hji _ => hunlock (hji ▸ rfl)
  | keepAlive steady => exact keepAlive_kept hs hP hrelease hkept.send steady
  | connecting k now =>
      refine ⟨s, ?_, hP⟩
      show (h.connect k now).sessions[i]? = some s
      rw [sessions_connect]
      exact hs
  | connected k now ok =>
      refine ⟨s, ?_, hP⟩
      show (h.connected k now ok).sessions[i]? = some s
      rw [sessions_connected]
      exact hs
  | addPeer p => exact ⟨s, hs, hP⟩
  | updatePeer id endpoint required =>
      refine ⟨s, ?_, hP⟩
      show (h.updatePeer id endpoint required).sessions[i]? = some s
      rw [sessions_updatePeer]
      exact hs
  | erasePeer id =>
      refine ⟨s, ?_, hP⟩
      show (h.erasePeer id).sessions[i]? = some s
      rw [sessions_erasePeer]
      exact hs
  | setIdealPeerCount n => exact ⟨s, hs, hP⟩
  | setPeerStretch n => exact ⟨s, hs, hP⟩

theorem length_update (h : SessionHost) (i : Nat)
    (f : PeerSession × Peer → PeerSession × Peer) :
    (h.update i f).sessions.length = h.sessions.length := by
  rcases update_cases h i f with heq | ⟨s, p, -, -, heq⟩
  · rw [heq]
  · rw [heq, List.length_set]

theorem length_handle (h : SessionHost) (i : Nat) (q : PeerSession → Bool)
    (f : PeerSession × Peer → PeerSession × Peer) :
    (h.handle i q f).sessions.length = h.sessions.length := by
  unfold handle
  split
  · exact length_update h i f
  · rfl

theorem length_keepAlive (h : SessionHost) (steady : TimePoint) :
    (h.keepAlivePeers steady).sessions.length = h.sessions.length := by
  apply keepAlive_induction
    (P := fun h' => h'.sessions.length = h.sessions.length)
  case hping => exact fun h' j hlength _ => (length_update h' j _).trans hlength
  case hforget => exact fun _ _ hlength _ _ => hlength
  case htime => exact fun _ _ hlength => hlength
  case hP => rfl

theorem length_step (h : SessionHost) (he : e.starts = false) :
    (h.step e).sessions.length = h.sessions.length := by
  cases e with
  | start id now protocolVersion address node known => cases he
  | header j known o => exact length_handle h _ _ _
  | frame j known o => exact length_handle h _ _ _
  | written j known ok => exact length_handle h _ _ _
  | call j known c => exact length_handle h _ _ _
  | lock j => exact length_handle h _ _ _
  | unlock j => exact length_handle h _ _ _
  | keepAlive steady => exact length_keepAlive h steady
  | connecting k now =>
      exact congrArg List.length (sessions_connect h k now)
  | connected k now ok =>
      exact congrArg List.length (sessions_connected h k now ok)
  | addPeer p => rfl
  | updatePeer id endpoint required =>
      exact congrArg List.length (sessions_updatePeer h id endpoint required)
  | erasePeer id =>
      exact congrArg List.length (sessions_erasePeer h id)
  | setIdealPeerCount n => rfl
  | setPeerStretch n => rfl

/-- A session that is started has what is kept from the beginning. -/
theorem start_kept {known : Bool} (hkept : KeptHeld known P)
    (hfresh : ∀ id k, P { id, peer := k }) (id : NodeID) (now : SystemTime)
    (protocolVersion : UInt32) (address : Address) (node : Option Node)
    (ht : (h.startPeerSession id now protocolVersion address node known).sessions[i]? =
      some t) : h.sessions[i]? = some t ∨ P t := by
  have hcreate : ∀ (k : Nat) (r : PeerSession × Peer), P r.1 →
      ((h.peerOf id node).1.create k r).sessions[i]? = some t →
        h.sessions[i]? = some t ∨ P t := by
    intro k r hr ht
    rcases create_cases ht with ht | ⟨-, rfl⟩
    · rw [sessions_peerOf] at ht
      exact .inl ht
    · exact .inr (hkept.release r hr)
  unfold startPeerSession at ht
  dsimp only at ht
  split at ht
  · rw [sessions_peerOf] at ht
    exact .inl ht
  · split at ht
    · exact hcreate _ _ (hkept.disconnect (r := (_, _)) (hfresh id _) _) ht
    · split at ht
      · exact hcreate _ _ (hkept.disconnect (r := (_, _)) (hfresh id _) _) ht
      · split at ht
        · exact hcreate _ _ (hkept.disconnect (r := (_, _)) (hfresh id _) _) ht
        · exact hcreate (h.peerOf id node).2 (_, _) (hkept.start (hfresh id _)) ht

/-- Every session that was dropped is closed. -/
def AllShut (h : SessionHost) : Prop :=
  ∀ (i : Nat) (s : PeerSession), h.sessions[i]? = some s → s.Shut

theorem AllShut.step (hh : h.AllShut) (he : e.known = true) : (h.step e).AllShut := by
  intro i t ht
  have hkept : KeptHeld e.known Shut := he ▸ PeerSession.keptHeld_shut
  have hold : ∀ s, h.sessions[i]? = some s → t.Shut := by
    intro s hs
    obtain ⟨u, hu, hshut⟩ := step_kept hs (hh i s hs) hkept fun _ => hh i s hs
    obtain rfl := Option.some.inj (hu.symm.trans ht)
    exact hshut
  by_cases hstarts : e.starts = true
  · cases e with
    | start id now protocolVersion address node known =>
        rcases start_kept hkept (fun _ _ hdropped => by cases hdropped) id now
          protocolVersion address node ht with hs | hshut
        · exact hold t hs
        · exact hshut
    | _ => cases hstarts
  · have hlt := (List.getElem?_eq_some_iff.1 ht).1
    rw [length_step h (by simpa using hstarts)] at hlt
    exact hold _ (List.getElem?_eq_getElem hlt)

theorem AllShut.run (hh : h.AllShut) (events : List SessionEvent)
    (hknown : ∀ e ∈ events, e.known = true) : (h.run events).AllShut := by
  induction events generalizing h with
  | nil => exact hh
  | cons e events ih =>
      exact ih (hh.step (hknown e List.mem_cons_self)) fun e' he' =>
        hknown e' (List.mem_cons_of_mem e he')

end Keep

section Pass

theorem isOpen_eq_false (hs : h.sessions[i]? = some s) (hclosed : s.isOpen = false) :
    h.isOpen i = false := by
  rw [isOpen, hs, Option.any_some, hclosed, Bool.and_false]

/-- Disconnecting a session keeps what holds of all of them. -/
theorem Consistent.disconnect (hh : h.Consistent) (hopen : h.isOpen i = true)
    (known : Bool) :
    Calm h (h.update i (PeerSession.disconnect known .clientQuit)) := by
  refine hh.update fun s p hs => ?_
  have hgone : s.gone = false := by
    rw [isOpen, hs, Option.any_some, Bool.and_eq_true, Bool.not_eq_true'] at hopen
    exact hopen.1
  have := PeerSession.serves_disconnect known (r := (s, p))
    ((hh.sound i s hs).running hgone) .clientQuit
  exact ⟨this.running, this.becomes⟩

theorem AllShut.disconnect (hh : h.AllShut) (i : Nat) :
    (h.update i (PeerSession.disconnect true .clientQuit)).AllShut := by
  intro j t ht
  have hlt := (List.getElem?_eq_some_iff.1 ht).1
  rw [length_update] at hlt
  have hs := List.getElem?_eq_getElem hlt
  obtain ⟨u, hu, hshut⟩ := update_kept (P := Shut) (j := i)
    (f := PeerSession.disconnect true .clientQuit) hs (hh j _ hs)
    PeerSession.keptHeld_shut.release fun _ p =>
      PeerSession.kept_shut.disconnect (r := (_, p)) (hh j _ hs) _
  obtain rfl := Option.some.inj (hu.symm.trans ht)
  exact hshut

/-- A session whose socket can be closed is not connected after it has been
disconnected. -/
theorem AllShut.closed (hh : h.AllShut) (hc : h.Consistent)
    (hi : i < h.sessions.length) :
    (h.update i (PeerSession.disconnect true .clientQuit)).isOpen i = false := by
  obtain ⟨s, hs⟩ : ∃ s, h.sessions[i]? = some s := ⟨_, List.getElem?_eq_getElem hi⟩
  obtain ⟨p, hp⟩ : ∃ p, h.objects[s.peer]? = some p :=
    ⟨_, List.getElem?_eq_getElem (hc.made i s hs)⟩
  have hset : (h.update i (PeerSession.disconnect true .clientQuit)).sessions[i]? =
      some (PeerSession.release
        (PeerSession.disconnect true .clientQuit (s, p))).1 := by
    unfold update
    rw [hs]
    simp only [hp]
    exact List.getElem?_set_self hi
  refine isOpen_eq_false hset ?_
  have hclosed := PeerSession.shut_disconnect (r := (s, p)) (hh i s hs) .clientQuit
  unfold PeerSession.release
  split
  · exact hclosed
  · rfl

/-- What a pass over some of the sessions has done. -/
structure Passed (h : SessionHost)
    (entries : List (Sigma fun _ : NodeID => Nat)) (r : SessionHost × Nat) :
    Prop where
  calm : Calm h r.1
  shut : r.1.AllShut
  closed : ∀ e ∈ entries, r.1.isOpen e.2 = false

theorem passed (hh : h.Consistent) (hshut : h.AllShut) (n : Nat)
    (entries : List (Sigma fun _ : NodeID => Nat))
    (hlt : ∀ e ∈ entries, e.2 < h.sessions.length) :
    Passed h entries (entries.foldl (disconnectOne fun _ => true) (h, n)) := by
  induction entries generalizing h n with
  | nil => exact ⟨Calm.refl hh, hshut, fun e he => by cases he⟩
  | cons e entries ih =>
      rw [List.foldl_cons]
      have he := hlt e List.mem_cons_self
      have hrest := fun e' he' => hlt e' (List.mem_cons_of_mem e he')
      rw [disconnectOne]
      dsimp only
      split
      · next hopen =>
        have hcalm := hh.disconnect hopen true
        obtain ⟨hcalm', hshut', hclosed⟩ := ih hcalm.consistent (hshut.disconnect e.2)
          (n + 1) fun e' he' => (hrest e' he').trans_eq (length_update h _ _).symm
        refine ⟨hcalm.trans hcalm', hshut', fun e' he' => ?_⟩
        rcases List.mem_cons.1 he' with rfl | he'
        · by_contra hstill
          have := isOpen_of_continues hcalm'.continues
            (he.trans_eq (length_update h _ _).symm) (by simpa using hstill)
          rw [hshut.closed hh he] at this
          cases this
        · exact hclosed e' he'
      · next hclosed' =>
        obtain ⟨hcalm, hshut', hclosed⟩ := ih hh hshut n hrest
        refine ⟨hcalm, hshut', fun e' he' => ?_⟩
        rcases List.mem_cons.1 he' with rfl | he'
        · by_contra hstill
          exact hclosed' (isOpen_of_continues hcalm.continues he (by simpa using hstill))
        · exact hclosed e' he'

theorem registered_pass (known : NodeID → Bool) (h : SessionHost) (n : Nat)
    (entries : List (Sigma fun _ : NodeID => Nat)) :
    (entries.foldl (disconnectOne known) (h, n)).1.registered = h.registered := by
  induction entries generalizing h n with
  | nil => rfl
  | cons e entries ih =>
      rw [List.foldl_cons]
      rw [disconnectOne]
      dsimp only
      split
      · rw [ih, registered_update]
      · exact ih h n

theorem registered_disconnectPass (known : NodeID → Bool) (h : SessionHost) :
    (h.disconnectPass known).1.registered = h.registered := by
  unfold disconnectPass
  exact registered_pass known h 0 _

theorem passed_disconnectPass (hh : h.Consistent) (hshut : h.AllShut) :
    Passed h h.registered.entries (h.disconnectPass fun _ => true) := by
  unfold disconnectPass
  exact passed hh hshut 0 _ fun e he => hh.lt_of_mem he

/-- After a pass the host is connected to nobody. -/
theorem openCount_pass (hh : h.Consistent) (hshut : h.AllShut) :
    (h.disconnectPass fun _ => true).1.openCount = 0 := by
  have hclosed := (passed_disconnectPass hh hshut).closed
  unfold openCount
  rw [List.countP_eq_zero, registered_disconnectPass]
  intro e he
  rw [hclosed e he]
  decide

/-- A pass that finds nobody connected does nothing. -/
theorem pass_of_openCount (hcount : h.openCount = 0) :
    h.disconnectPass known = (h, 0) := by
  have hclosed : ∀ e ∈ h.registered.entries, ¬h.isOpen e.2 = true :=
    List.countP_eq_zero.1 hcount
  unfold disconnectPass
  generalize h.registered.entries = entries at hclosed ⊢
  induction entries with
  | nil => rfl
  | cons e entries ih =>
      have hkeep : disconnectOne known (h, 0) e = (h, 0) :=
        if_neg (hclosed e List.mem_cons_self)
      rw [List.foldl_cons, hkeep]
      exact ih fun e' he' => hclosed e' (List.mem_cons_of_mem e he')

theorem disconnectPeers_of_openCount (hcount : h.openCount = 0)
    (polls : List (List SessionEvent)) :
    h.disconnectPeers known polls = some { h with registered := ∅ } := by
  cases polls <;> rw [disconnectPeers, pass_of_openCount hcount] <;> rfl

/-- A host that is connected to nobody has no session that is open. -/
theorem closed_of_openCount (hh : h.Consistent) (hshut : h.AllShut)
    (hcount : h.openCount = 0) (hs : h.sessions[i]? = some s) :
    s.isOpen = false := by
  by_contra hopen
  rw [Bool.not_eq_false] at hopen
  have hgone : s.gone = false := by
    by_contra hgone
    rw [(hh.sound i s hs).closed (by simpa using hgone)] at hopen
    cases hopen
  have hdropped : s.dropped = false := by
    by_contra hdropped
    rw [hshut i s hs (by simpa using hdropped)] at hopen
    cases hopen
  have hmem := AList.mem_lookup_iff.1 (hh.live i s hs hdropped hgone)
  refine List.countP_eq_zero.1 hcount _ hmem ?_
  dsimp only
  rw [isOpen, hs, Option.any_some, hgone, hopen]
  rfl

theorem Calm.run (hh : h.Consistent) (events : List SessionEvent)
    (hstarts : ∀ e ∈ events, e.starts = false) :
    (h.run events).openCount ≤ h.openCount := by
  induction events generalizing h with
  | nil => exact le_rfl
  | cons e events ih =>
      have hstep := hh.step e
      exact (ih hstep.consistent fun e' he' => hstarts e' (List.mem_cons_of_mem e he')).trans
        (hstep.calm (hstarts e List.mem_cons_self))

end Pass

theorem allShut_started (idealPeerCount stretchPeers : UInt32) :
    (started idealPeerCount stretchPeers).AllShut := by
  intro i s hs
  simp [started] at hs

/-- Where the sockets can be closed, a host is done with its sessions after two
passes at most, whatever happens in between but for the start of a session, and
then all of them are closed and none is registered. -/
theorem sessions_quit (idealPeerCount stretchPeers : UInt32)
    (before poll : List SessionEvent) (polls : List (List SessionEvent))
    (hbefore : ∀ e ∈ before, e.known = true)
    (hpoll : ∀ e ∈ poll, e.known = true ∧ e.starts = false) :
    ∃ h, ((started idealPeerCount stretchPeers).run before).disconnectPeers
        (fun _ => true) (poll :: polls) = some h ∧
      h.registered = ∅ ∧
      ∀ (i : Nat) (s : PeerSession), h.sessions[i]? = some s → s.isOpen = false := by
  have hh := ((consistent_started idealPeerCount stretchPeers).run before).1
  have hshut := (allShut_started idealPeerCount stretchPeers).run before hbefore
  generalize (started idealPeerCount stretchPeers).run before = h at hh hshut ⊢
  have hcount := openCount_pass hh hshut
  obtain ⟨hcalm, hshut', -⟩ := passed_disconnectPass hh hshut
  rw [disconnectPeers]
  dsimp only
  split
  · exact ⟨_, rfl, rfl, fun i s hs =>
      closed_of_openCount (s := s) hcalm.consistent hshut' hcount hs⟩
  · have hrun := (hcalm.consistent.run poll).1
    have hcount' : ((h.disconnectPass fun _ => true).1.run poll).openCount = 0 :=
      Nat.le_zero.1 ((Calm.run hcalm.consistent poll fun e he => (hpoll e he).2).trans
        hcount.le)
    have hshut'' := hshut'.run poll fun e he => (hpoll e he).1
    exact ⟨_, disconnectPeers_of_openCount hcount' polls, rfl,
      fun i s hs => closed_of_openCount (s := s) hrun hshut'' hcount' hs⟩

theorem sessions_quit_one : ∃ h,
    ((started 11 7).run [testStart]).disconnectPeers (fun _ => true)
      [[.written 0 true true]] = some h ∧ h.registered = ∅ := by
  obtain ⟨h, hh, hregistered, -⟩ := sessions_quit 11 7 [testStart]
    [.written 0 true true] [] (by decide) (by decide)
  exact ⟨h, hh, hregistered⟩

section Stay

/-- The host has a session that was dropped with its socket left open, and to
which somebody points. -/
structure Stays (i : Nat) (h : SessionHost) : Prop where
  consistent : h.Consistent
  there : ∃ s, h.sessions[i]? = some s ∧ s.Stuck ∧ h.registered.lookup s.id = some i

theorem Stays.isOpen (hh : Stays i h) : h.isOpen i = true := by
  obtain ⟨s, hs, hstuck, -⟩ := hh.there
  have hgone : s.gone = false := by
    by_contra hgone
    have := (hh.consistent.sound i s hs).closed (by simpa using hgone)
    rw [hstuck.2.1] at this
    cases this
  rw [SessionHost.isOpen, hs, Option.any_some, hgone, hstuck.2.1]
  rfl

/-- What keeps the session and where the host has it. -/
theorem Stays.of_kept (hh : Stays i h) (hconsistent : h'.Consistent)
    (hcontinues : Continues h h')
    (hstuck : ∀ s, h.sessions[i]? = some s → s.Stuck →
      ∃ t, h'.sessions[i]? = some t ∧ t.Stuck)
    (hregistered : ∀ id, h.registered.lookup id = some i →
      h'.registered.lookup id = some i) : Stays i h' := by
  obtain ⟨s, hs, hs', hlookup⟩ := hh.there
  obtain ⟨t, ht, ht'⟩ := hstuck s hs hs'
  obtain ⟨u, hu, hsu⟩ := hcontinues i s hs
  obtain rfl := Option.some.inj (hu.symm.trans ht)
  exact ⟨hconsistent, u, ht, ht', hregistered u.id (hsu.id ▸ hlookup)⟩

theorem Stays.update (hh : Stays i h) (hcalm : Calm h (h.update j f))
    (hf : ∀ s p, s.Stuck → (f (s, p)).1.Stuck) : Stays i (h.update j f) := by
  refine hh.of_kept hcalm.consistent hcalm.continues (fun s hs hstuck => ?_)
    fun id hid => ?_
  · exact update_kept hs hstuck (PeerSession.keptHeld_stuck true).release
      fun _ p => hf s p hstuck
  · rw [registered_update]
    exact hid

/-- The session is pinged and not forgotten. -/
theorem Stays.keepAlivePeers (hh : Stays i h) (steady : TimePoint) :
    Stays i (h.keepAlivePeers steady) := by
  apply keepAlive_induction (P := Stays i)
  case hping =>
    intro h' j hstays halive
    exact hstays.update (hstays.consistent.ping halive) fun s _ =>
      (PeerSession.kept_stuck true).send s
  case hforget =>
    intro h' e hstays hlookup hgone
    have hcalm := hstays.consistent.forget hlookup hgone
    have hne : ∀ id, h'.registered.lookup id = some i → id ≠ e.1 := by
      rintro id hid rfl
      obtain rfl := Option.some.inj (hid.symm.trans hlookup)
      rw [isAlive_of_isOpen hstays.isOpen] at hgone
      cases hgone
    refine hstays.of_kept hcalm.consistent hcalm.continues
      (fun s hs hstuck => ⟨s, hs, hstuck⟩) fun id hid => ?_
    rw [AList.lookup_erase_ne (hne id hid)]
    exact hid
  case htime =>
    intro h' steady hstays
    have hcalm : Calm h' { h' with lastPing := steady } :=
      hstays.consistent.edit rfl rfl rfl rfl rfl
    exact hstays.of_kept hcalm.consistent (fun j s hs => ⟨s, hs, Becomes.refl s⟩)
      (fun s hs hstuck => ⟨s, hs, hstuck⟩) fun _ hid => hid
  case hP => exact hh

/-- The node of the session is refused another one. -/
theorem Stays.start (hh : Stays i h) (id : NodeID) (now : SystemTime)
    (protocolVersion : UInt32) (address : Address) (node : Option Node)
    (known : Bool) (id' : NodeID) (hid : h.registered.lookup id' = some i) :
    (h.startPeerSession id now protocolVersion address node known).registered.lookup
      id' = some i := by
  have hmade : (h.peerOf id node).1.registered = h.registered := by
    unfold peerOf
    split <;> rfl
  have hconnected : id' = id → (h.peerOf id node).1.isConnected id = true := by
    rintro rfl
    have hopen := hh.isOpen
    unfold SessionHost.isOpen at hopen
    unfold isConnected SessionHost.isOpen
    rw [hmade, hid, Option.any_some, sessions_peerOf]
    exact hopen
  have hcreate : ∀ (k : Nat) (r : PeerSession × Peer),
      ((h.peerOf id node).1.create k r).registered.lookup id' = some i := by
    intro k r
    show (h.peerOf id node).1.registered.lookup id' = some i
    rw [hmade, hid]
  unfold startPeerSession
  dsimp only
  split
  · rw [hmade, hid]
  · split
    · exact hcreate _ _
    · split
      · exact hcreate _ _
      · next hnot =>
        split
        · exact hcreate _ _
        · have hne : id' ≠ id := fun heq => hnot (hconnected heq)
          unfold register
          rw [AList.lookup_insert_ne hne, hmade, hid]

theorem registered_handle (h : SessionHost) (i : Nat) (q : PeerSession → Bool)
    (f : PeerSession × Peer → PeerSession × Peer) :
    (h.handle i q f).registered = h.registered := by
  unfold handle
  split
  · exact registered_update h i f
  · rfl

theorem Stays.step (hh : Stays i h) (he : e ≠ .unlock i) : Stays i (h.step e) := by
  have hstep := hh.consistent.step e
  by_cases hkeep : ∃ steady, e = .keepAlive steady
  · obtain ⟨steady, rfl⟩ := hkeep
    exact hh.keepAlivePeers steady
  · refine hh.of_kept hstep.consistent hstep.continues (fun s hs hstuck => ?_)
      fun id' hid => ?_
    · exact step_kept hs hstuck (PeerSession.keptHeld_stuck e.known)
        fun hunlock => absurd hunlock he
    · cases e with
      | start id now protocolVersion address node known =>
          exact hh.start id now protocolVersion address node known id' hid
      | header j known o => exact (congrArg _ (registered_handle h _ _ _)).trans hid
      | frame j known o => exact (congrArg _ (registered_handle h _ _ _)).trans hid
      | written j known ok => exact (congrArg _ (registered_handle h _ _ _)).trans hid
      | call j known c => exact (congrArg _ (registered_handle h _ _ _)).trans hid
      | lock j => exact (congrArg _ (registered_handle h _ _ _)).trans hid
      | unlock j => exact (congrArg _ (registered_handle h _ _ _)).trans hid
      | keepAlive steady => exact absurd ⟨steady, rfl⟩ hkeep
      | connecting k now =>
          show (h.connect k now).registered.lookup id' = some i
          unfold connect
          split <;> exact hid
      | connected k now ok =>
          show (h.connected k now ok).registered.lookup id' = some i
          unfold connected
          split <;> exact hid
      | addPeer p => exact hid
      | updatePeer id endpoint required =>
          show (h.updatePeer id endpoint required).registered.lookup id' = some i
          unfold updatePeer
          split <;> exact hid
      | erasePeer id =>
          show (h.erasePeer id).registered.lookup id' = some i
          unfold SessionHost.erasePeer
          split <;> exact hid
      | setIdealPeerCount n => exact hid
      | setPeerStretch n => exact hid

theorem Stays.run (hh : Stays i h) (events : List SessionEvent)
    (hunlock : ∀ e ∈ events, e ≠ .unlock i) : Stays i (h.run events) := by
  induction events generalizing h with
  | nil => exact hh
  | cons e events ih =>
      exact ih (hh.step (hunlock e List.mem_cons_self)) fun e' he' =>
        hunlock e' (List.mem_cons_of_mem e he')

/-- A pass counts the session every time. -/
theorem Stays.pass (hh : Stays i h) (known : NodeID → Bool) :
    Stays i (h.disconnectPass known).1 ∧ (h.disconnectPass known).2 ≠ 0 := by
  have hmem : ∃ id, (⟨id, i⟩ : Sigma fun _ : NodeID => Nat) ∈ h.registered.entries := by
    obtain ⟨s, -, -, hlookup⟩ := hh.there
    exact ⟨s.id, AList.mem_lookup_iff.1 hlookup⟩
  obtain ⟨id, hmem⟩ := hmem
  have hloop : ∀ (entries : List (Sigma fun _ : NodeID => Nat)) (g : SessionHost)
      (n : Nat), Stays i g →
      Stays i (entries.foldl (disconnectOne known) (g, n)).1 ∧
      (n ≠ 0 ∨ (⟨id, i⟩ : Sigma fun _ : NodeID => Nat) ∈ entries →
        (entries.foldl (disconnectOne known) (g, n)).2 ≠ 0) := by
    intro entries
    induction entries with
    | nil =>
        intro g n hg
        refine ⟨hg, fun h => ?_⟩
        rcases h with h | h
        · exact h
        · cases h
    | cons e entries ih =>
        intro g n hg
        rw [List.foldl_cons]
        rw [disconnectOne]
        dsimp only
        split
        · next hopen =>
          have hstays := hg.update (hg.consistent.disconnect hopen (known e.1))
            fun s p hs => (PeerSession.kept_stuck (known e.1)).disconnect (r := (s, p)) hs _
          obtain ⟨hrest, hcount⟩ := ih _ (n + 1) hstays
          exact ⟨hrest, fun _ => hcount (.inl (Nat.succ_ne_zero n))⟩
        · next hclosed =>
          obtain ⟨hrest, hcount⟩ := ih g n hg
          refine ⟨hrest, fun h => hcount ?_⟩
          rcases h with h | h
          · exact .inl h
          · rcases List.mem_cons.1 h with rfl | h
            · exact absurd hg.isOpen hclosed
            · exact .inr h
  obtain ⟨hstays, hcount⟩ := hloop h.registered.entries h 0 hh
  exact ⟨hstays, hcount (.inr hmem)⟩

end Stay

/-- A session that was dropped with its socket left open keeps a host from
stopping as long as somebody points to it: there is always another pass. -/
theorem never_quits (idealPeerCount stretchPeers : UInt32)
    (before : List SessionEvent) (i : Nat) (s : PeerSession)
    (hs : ((started idealPeerCount stretchPeers).run before).sessions[i]? = some s)
    (hstuck : s.Stuck)
    (hregistered : ((started idealPeerCount stretchPeers).run before).registered.lookup
      s.id = some i)
    (known : NodeID → Bool) (polls : List (List SessionEvent))
    (hpolls : ∀ poll ∈ polls, ∀ e ∈ poll, e ≠ .unlock i) :
    ((started idealPeerCount stretchPeers).run before).disconnectPeers known polls =
      none := by
  have hstays : Stays i ((started idealPeerCount stretchPeers).run before) :=
    ⟨((consistent_started idealPeerCount stretchPeers).run before).1, s, hs, hstuck,
      hregistered⟩
  generalize (started idealPeerCount stretchPeers).run before = h at hstays
  clear hs hregistered
  induction polls generalizing h with
  | nil =>
      obtain ⟨-, hcount⟩ := hstays.pass known
      exact if_neg hcount
  | cons poll polls ih =>
      obtain ⟨hpass, hcount⟩ := hstays.pass known
      rw [disconnectPeers]
      dsimp only
      rw [if_neg hcount]
      exact ih (fun poll' hpoll' => hpolls poll' (List.mem_cons_of_mem poll hpoll')) _
        (hpass.run poll (hpolls poll List.mem_cons_self))

theorem never_quits_locked :
    ((started 11 7).run
      [testStart, .lock 0, .call 0 false (.disconnect .clientQuit)]).disconnectPeers
      (fun _ => true) [[.written 0 true true], []] = none := by
  have hs : ((started 11 7).run
      [testStart, .lock 0, .call 0 false (.disconnect .clientQuit)]).sessions[0]? =
      some { id := testNode, peer := 0, dropped := true, reading := some .header,
             writeQueue := 2, writing := true, held := 1 } := by decide +kernel
  exact never_quits 11 7 _ 0 _ hs ⟨rfl, rfl, by decide⟩ (by decide +kernel)
    (fun _ => true) _ (by simp)

end SessionHost

end Web3Core
