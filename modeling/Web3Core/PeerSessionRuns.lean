/-
What holds of the sessions of a host in every run.  The handlers and callers of
a session keep a few facts about it, from which it follows that a host is never
in two sessions with one node, nor in more than it has slots for.
-/
import Web3Core.PeerSessions

namespace Web3Core

namespace PeerSession

variable {s t u : PeerSession} {p : Peer} (known : Bool)

/-- A session that somebody is at work on. -/
structure Running (s : PeerSession) : Prop where
  there : s.gone = false
  isOpen : s.dropped = false → s.isOpen = true
  waiting : s.writing = true → 0 < s.writeQueue
  served : s.dropped = false → 0 < s.writeQueue → s.writing = true

/-- A session between two steps. -/
structure Sound (s : PeerSession) : Prop where
  held : s.gone = false → s.isHeld = true
  isOpen : s.gone = false → s.dropped = false → s.isOpen = true
  waiting : s.writing = true → 0 < s.writeQueue
  served : s.gone = false → s.dropped = false → 0 < s.writeQueue →
    s.writing = true
  closed : s.gone = true → s.isOpen = false
  unheld : s.gone = true → s.isHeld = false

/-- What becomes of a session in a step. -/
structure Becomes (s t : PeerSession) : Prop where
  id : t.id = s.id
  peer : t.peer = s.peer
  isOpen : t.isOpen = true → s.isOpen = true
  dropped : s.dropped = true → t.dropped = true
  gone : s.gone = true → t.gone = true

theorem Becomes.refl (s : PeerSession) : Becomes s s :=
  ⟨rfl, rfl, fun h => h, fun h => h, fun h => h⟩

theorem Becomes.trans (h : Becomes s t) (h' : Becomes t u) : Becomes s u where
  id := h'.id.trans h.id
  peer := h'.peer.trans h.peer
  isOpen hu := h.isOpen (h'.isOpen hu)
  dropped hs := h'.dropped (h.dropped hs)
  gone hs := h'.gone (h.gone hs)

/-- A session that was dropped is left alone by what does not run as a handler,
and its peer keeps the reason. -/
structure Serves (r r' : PeerSession × Peer) : Prop where
  running : r'.1.Running
  becomes : Becomes r.1 r'.1
  kept : r.1.dropped = true → r.1.isOpen = false → r'.1 = r.1
  reason : r.1.dropped = true → r'.2.lastDisconnect = r.2.lastDisconnect

variable {r r' r'' : PeerSession × Peer}

theorem Serves.refl (h : r.1.Running) : Serves r r :=
  ⟨h, Becomes.refl _, fun _ _ => rfl, fun _ => rfl⟩

theorem Serves.trans (h : Serves r r') (h' : Serves r' r'') : Serves r r'' where
  running := h'.running
  becomes := h.becomes.trans h'.becomes
  kept hdropped hclosed := by
    have hr := h.kept hdropped hclosed
    exact (h'.kept (hr ▸ hdropped) (hr ▸ hclosed)).trans hr
  reason hdropped :=
    (h'.reason (h.becomes.dropped hdropped)).trans (h.reason hdropped)

theorem Running.send (h : s.Running) : s.send.Running := by
  unfold PeerSession.send
  split
  · exact h
  · split
    · exact ⟨h.there, h.isOpen, fun _ => Nat.one_pos, fun _ _ => rfl⟩
    · next hqueue =>
      exact ⟨h.there, h.isOpen, fun _ => Nat.succ_pos _,
        fun hdropped _ => h.served hdropped (Nat.pos_of_ne_zero hqueue)⟩

/-- Only the queue changes, and whether it is being written. -/
theorem send_eq (s : PeerSession) : s.send =
    { s with writeQueue := s.send.writeQueue, writing := s.send.writing } := by
  unfold send
  split
  · rfl
  · split <;> rfl

theorem isOpen_send (s : PeerSession) : s.send.isOpen = s.isOpen := by
  rw [send_eq]

theorem dropped_send (s : PeerSession) : s.send.dropped = s.dropped := by
  rw [send_eq]

theorem held_send (s : PeerSession) : s.send.held = s.held := by
  rw [send_eq]

theorem gone_send (s : PeerSession) : s.send.gone = s.gone := by
  rw [send_eq]

theorem becomes_send (s : PeerSession) : Becomes s s.send := by
  rw [send_eq]
  exact ⟨rfl, rfl, fun h => h, fun h => h, fun h => h⟩

theorem send_of_closed (h : s.isOpen = false) : s.send = s := by
  unfold send
  rw [h]
  rfl

theorem isHeld_send (h : s.isHeld = true) : s.send.isHeld = true := by
  unfold send
  split
  · exact h
  · split
    · exact Bool.or_eq_true_iff.2 (.inl (Bool.or_true _))
    · exact h

theorem serves_send (h : s.Running) : Serves (s, p) (s.send, p) :=
  ⟨h.send, becomes_send s, fun _ hclosed => send_of_closed hclosed, fun _ => rfl⟩

theorem serves_drop (h : r.1.Running) (reason : DisconnectReason) :
    Serves r (drop known reason r) := by
  unfold drop
  split
  · exact Serves.refl h
  · next hdropped =>
    exact {
      running := ⟨h.there, fun h => by simp at h, h.waiting, fun h => by simp at h⟩
      becomes := ⟨rfl, rfl, fun h => (Bool.and_eq_true_iff.1 h).1, fun _ => rfl,
        fun h => h⟩
      kept := fun h => absurd h hdropped
      reason := fun h => absurd h hdropped }

theorem dropped_drop (reason : DisconnectReason) :
    (drop known reason r).1.dropped = true := by
  unfold drop
  split
  · assumption
  · rfl

theorem dropped_disconnect (reason : DisconnectReason) :
    (disconnect known reason r).1.dropped = true :=
  dropped_drop _ reason

theorem serves_disconnect (h : r.1.Running) (reason : DisconnectReason) :
    Serves r (disconnect known reason r) := by
  unfold disconnect
  split
  · have hsend := serves_send (p := r.2) h
    exact hsend.trans (serves_drop _ hsend.running reason)
  · exact serves_drop _ h reason

theorem serves_call (h : r.1.Running) (c : SessionCall) :
    Serves r (call known r c) := by
  cases c with
  | send => exact serves_send h
  | disconnect reason => exact serves_disconnect _ h reason
  | addRating rating => exact ⟨h, Becomes.refl _, fun _ _ => rfl, fun _ => rfl⟩

theorem serves_calls (h : r.1.Running) (calls : List SessionCall) :
    Serves r (calls.foldl (call known) r) := by
  induction calls generalizing r with
  | nil => exact Serves.refl h
  | cons c calls ih =>
      have hcall := serves_call known h c
      exact hcall.trans (ih hcall.running)

theorem serves_checkRead (h : r.1.Running) (f : ReadFailure) :
    Serves r (checkRead known r f) := by
  cases f with
  | failed => exact serves_drop _ h _
  | abrupt => exact serves_drop _ h _
  | wrongLength => exact serves_disconnect _ h _

theorem serves_readPacket (h : r.1.Running) (packet : SessionPacket) :
    Serves r (readPacket known r packet) := by
  cases packet with
  | requested isInt => exact serves_drop _ h _
  | ping => exact serves_send h
  | ignored => exact Serves.refl h
  | interpreted calls threw =>
      have hcalls := serves_calls known h calls
      unfold readPacket
      dsimp only
      split
      · exact hcalls.trans (serves_disconnect _ hcalls.running _)
      · exact hcalls

/-- How many handlers are still to run, at most. -/
def handlersLeft (s : PeerSession) : Nat :=
  (match s.reading with
    | none => 0
    | some .header => 2
    | some .frame => 1) + if s.writing then s.writeQueue else 0

/-- What the handler of a read or write makes of a session. -/
structure Handles (r r' : PeerSession × Peer) : Prop where
  running : r'.1.Running
  becomes : Becomes r.1 r'.1
  fewer : r.1.dropped = true → r.1.isOpen = false →
    r'.1.writeQueue ≤ r.1.writeQueue ∧ r'.1.handlersLeft < r.1.handlersLeft
  reason : r.1.dropped = true → r'.2.lastDisconnect = r.2.lastDisconnect

/-- What was begun by forgetting the read is done with `Serves`. -/
theorem Serves.handles (hreading : r.1.reading.isSome = true)
    (h : Serves ({ r.1 with reading := none }, r.2) r') : Handles r r' where
  running := h.running
  becomes := ⟨h.becomes.id, h.becomes.peer, h.becomes.isOpen, h.becomes.dropped,
    h.becomes.gone⟩
  fewer hdropped hclosed := by
    rw [h.kept hdropped hclosed]
    refine ⟨le_rfl, ?_⟩
    unfold handlersLeft
    rcases hphase : r.1.reading with _ | phase
    · rw [hphase] at hreading
      cases hreading
    · cases phase <;> simp
  reason := h.reason

theorem Running.read (h : s.Running) (phase : Option ReadPhase) :
    ({ s with reading := phase } : PeerSession).Running :=
  ⟨h.there, h.isOpen, h.waiting, h.served⟩

theorem handles_onHeader (h : r.1.Running) (hphase : r.1.reading = some .header)
    (o : HeaderRead) : Handles r (onHeader known o r) := by
  have hrunning := h.read none
  have hreading : r.1.reading.isSome = true := by rw [hphase]; rfl
  cases o with
  | failure f => exact (serves_checkRead _ hrunning f).handles hreading
  | refused => exact (serves_drop _ hrunning _).handles hreading
  | threw => exact (Serves.refl hrunning).handles hreading
  | accepted =>
      exact {
        running := h.read _
        becomes := ⟨rfl, rfl, fun h => h, fun h => h, fun h => h⟩
        fewer := fun _ _ => ⟨le_rfl, by
          unfold handlersLeft
          rw [hphase]
          exact Nat.add_lt_add_right Nat.one_lt_two _⟩
        reason := fun _ => rfl }

theorem Handles.doRead (h : Handles r r') :
    Handles r (r'.1.doRead, r'.2) := by
  unfold PeerSession.doRead
  split
  · exact h
  · next hdropped =>
    exact {
      running := h.running.read _
      becomes := ⟨h.becomes.id, h.becomes.peer, h.becomes.isOpen,
        h.becomes.dropped, h.becomes.gone⟩
      fewer := fun hs => absurd (h.becomes.dropped hs) hdropped
      reason := h.reason }

theorem handles_onFrame (h : r.1.Running) (hphase : r.1.reading = some .frame)
    (o : FrameRead) : Handles r (onFrame known o r) := by
  have hrunning := h.read none
  have hreading : r.1.reading.isSome = true := by rw [hphase]; rfl
  cases o with
  | failure f => exact (serves_checkRead _ hrunning f).handles hreading
  | refused => exact (serves_drop _ hrunning _).handles hreading
  | threw => exact (Serves.refl hrunning).handles hreading
  | notPacket => exact (serves_disconnect _ hrunning _).handles hreading
  | packet p => exact ((serves_readPacket _ hrunning p).handles hreading).doRead

theorem handles_onWritten (h : r.1.Running) (hwriting : r.1.writing = true)
    (ok : Bool) : Handles r (onWritten known ok r) := by
  have hpos := h.waiting hwriting
  unfold onWritten
  dsimp only
  split
  · unfold drop
    dsimp only
    split
    · next hdropped =>
      exact {
        running := ⟨h.there, h.isOpen, fun h => by simp at h,
          fun h => by simp [hdropped] at h⟩
        becomes := ⟨rfl, rfl, fun h => h, fun h => h, fun h => h⟩
        fewer := fun _ _ => ⟨le_rfl, by simp [handlersLeft, hwriting, hpos]⟩
        reason := fun _ => rfl }
    · next hdropped =>
      exact {
        running := ⟨h.there, fun h => by simp at h, fun h => by simp at h,
          fun h => by simp at h⟩
        becomes := ⟨rfl, rfl, fun h => (Bool.and_eq_true_iff.1 h).1, fun _ => rfl,
          fun h => h⟩
        fewer := fun h => absurd h hdropped
        reason := fun h => absurd h hdropped }
  · exact {
      running := ⟨h.there, h.isOpen,
        fun h => Nat.pos_of_ne_zero (of_decide_eq_true h),
        fun _ h => decide_eq_true h.ne'⟩
      becomes := ⟨rfl, rfl, fun h => h, fun h => h, fun h => h⟩
      fewer := fun _ _ => ⟨Nat.sub_le _ _, by
        have hleft : (if decide (r.1.writeQueue - 1 ≠ 0) = true
            then r.1.writeQueue - 1 else 0) < r.1.writeQueue := by
          split
          · exact Nat.sub_lt hpos Nat.one_pos
          · exact hpos
        unfold handlersLeft
        rw [if_pos hwriting]
        exact Nat.add_lt_add_left hleft _⟩
      reason := fun _ => rfl }

theorem Running.sound (h : s.Running) (hheld : s.isHeld = true) : s.Sound :=
  ⟨fun _ => hheld, fun _ => h.isOpen, h.waiting, fun _ => h.served,
    fun hgone => absurd hgone (by simp [h.there]),
    fun hgone => absurd hgone (by simp [h.there])⟩

theorem Sound.running (h : s.Sound) (hgone : s.gone = false) : s.Running :=
  ⟨hgone, h.isOpen hgone, h.waiting, h.served hgone⟩

theorem Sound.there (h : s.Sound) (hheld : s.isHeld = true) : s.gone = false := by
  by_contra hgone
  rw [Bool.not_eq_false] at hgone
  rw [h.unheld hgone] at hheld
  cases hheld

/-- Whoever is at work on a session leaves it as it is to be between steps. -/
theorem Running.release (h : r.1.Running) :
    (release r).1.Sound ∧ Becomes r.1 (release r).1 ∧
      (release r).1.handlersLeft = r.1.handlersLeft ∧
      (release r).1.writeQueue = r.1.writeQueue ∧
      (release r).2.lastDisconnect = r.2.lastDisconnect := by
  unfold PeerSession.release
  split
  · next hheld =>
    rw [h.there, Bool.false_or] at hheld
    exact ⟨h.sound hheld, Becomes.refl _, rfl, rfl, rfl⟩
  · next hheld =>
    rw [h.there, Bool.false_or, Bool.not_eq_true] at hheld
    have hwriting : r.1.writing = false := by
      simp only [isHeld, Bool.or_eq_false_iff] at hheld
      exact hheld.1.2
    refine ⟨⟨?_, ?_, h.waiting, ?_, fun _ => rfl, fun _ => hheld⟩,
      ⟨rfl, rfl, ?_, fun h => h, fun _ => rfl⟩, rfl, rfl, rfl⟩
    · intro h
      cases h
    · intro h
      cases h
    · intro h
      cases h
    · intro h
      cases h

end PeerSession

namespace SessionHost

open PeerSession (Becomes Running Sound)

variable {h h' : SessionHost} {i j k : Nat} {s t : PeerSession}
  {f : PeerSession × Peer → PeerSession × Peer}

/-- What holds between the steps of a host.  A session that was not dropped is
the one that the host has for its node. -/
structure Consistent (h : SessionHost) : Prop where
  sound : ∀ (i : Nat) (s : PeerSession), h.sessions[i]? = some s → s.Sound
  made : ∀ (i : Nat) (s : PeerSession), h.sessions[i]? = some s →
    s.peer < h.objects.length
  found : ∀ (id : NodeID) (k : Nat), h.peers.lookup id = some k →
    k < h.objects.length
  registered : ∀ (id : NodeID) (i : Nat), h.registered.lookup id = some i →
    ∃ s, h.sessions[i]? = some s ∧ s.id = id
  live : ∀ (i : Nat) (s : PeerSession), h.sessions[i]? = some s →
    s.dropped = false → s.gone = false → h.registered.lookup s.id = some i

theorem consistent_started (idealPeerCount stretchPeers : UInt32) :
    (started idealPeerCount stretchPeers).Consistent where
  sound i s hs := by simp [started] at hs
  made i s hs := by simp [started] at hs
  found id k hk := by simp [started] at hk
  registered id i hi := by simp [started] at hi
  live i s hs := by simp [started] at hs

/-- Every session goes on as itself. -/
def Continues (h h' : SessionHost) : Prop :=
  ∀ (i : Nat) (s : PeerSession), h.sessions[i]? = some s →
    ∃ t, h'.sessions[i]? = some t ∧ Becomes s t

theorem Continues.refl (h : SessionHost) : Continues h h :=
  fun _ s hs => ⟨s, hs, Becomes.refl s⟩

theorem Continues.trans {h'' : SessionHost} (hh : Continues h h')
    (hh' : Continues h' h'') : Continues h h'' := by
  intro i s hs
  obtain ⟨t, ht, hst⟩ := hh i s hs
  obtain ⟨u, hu, htu⟩ := hh' i t ht
  exact ⟨u, hu, hst.trans htu⟩

/-- How many sessions the host is connected with. -/
def openCount (h : SessionHost) : Nat :=
  h.registered.entries.countP fun e => h.isOpen e.2

/-- A step that starts no session and leaves the slots as they are. -/
structure Calm (h h' : SessionHost) : Prop where
  consistent : h'.Consistent
  continues : Continues h h'
  openCount : h'.openCount ≤ h.openCount
  peerSlots : h'.peerSlots = h.peerSlots

theorem Calm.refl (hh : h.Consistent) : Calm h h :=
  ⟨hh, Continues.refl h, le_rfl, rfl⟩

theorem Calm.trans {h'' : SessionHost} (hh : Calm h h') (hh' : Calm h' h'') :
    Calm h h'' :=
  ⟨hh'.consistent, hh.continues.trans hh'.continues,
    hh'.openCount.trans hh.openCount, hh'.peerSlots.trans hh.peerSlots⟩

section Update

/-- Somebody is at work on the session at a place, and leaves a session. -/
def Works (h : SessionHost) (i : Nat)
    (f : PeerSession × Peer → PeerSession × Peer) : Prop :=
  ∀ (s : PeerSession) (p : Peer), h.sessions[i]? = some s →
    (f (s, p)).1.Running ∧ Becomes s (f (s, p)).1

theorem update_cases (h : SessionHost) (i : Nat)
    (f : PeerSession × Peer → PeerSession × Peer) :
    h.update i f = h ∨ ∃ s p, h.sessions[i]? = some s ∧
      h.objects[s.peer]? = some p ∧
      h.update i f = { h with
        sessions := h.sessions.set i (PeerSession.release (f (s, p))).1
        objects := h.objects.set s.peer (PeerSession.release (f (s, p))).2 } := by
  unfold update
  rcases hs : h.sessions[i]? with _ | s
  · exact .inl rfl
  · rcases hp : h.objects[s.peer]? with _ | p
    · exact .inl (by simp only [hp])
    · exact .inr ⟨s, p, rfl, hp, by simp only [hp]⟩

theorem registered_update (h : SessionHost) (i : Nat)
    (f : PeerSession × Peer → PeerSession × Peer) :
    (h.update i f).registered = h.registered := by
  rcases update_cases h i f with heq | ⟨_, _, _, _, heq⟩
  · rw [heq]
  · rw [heq]

/-- Changing the session at a place into one that it may become. -/
theorem continues_set {sessions : List PeerSession} (hs : sessions[i]? = some s)
    (hst : Becomes s t) {h h' : SessionHost} (hh : h.sessions = sessions)
    (hh' : h'.sessions = sessions.set i t) : Continues h h' := by
  intro j u hu
  rw [hh] at hu
  rw [hh']
  by_cases hij : i = j
  · subst hij
    obtain rfl := Option.some.inj (hs.symm.trans hu)
    exact ⟨t, by rw [List.getElem?_set_self (List.getElem?_eq_some_iff.1 hs).1], hst⟩
  · exact ⟨u, by rw [List.getElem?_set_ne hij, hu], Becomes.refl u⟩

/-- A session that is open after a step was so before it. -/
theorem isOpen_of_continues (hh : Continues h h') (hi : i < h.sessions.length)
    (hopen : h'.isOpen i = true) : h.isOpen i = true := by
  have hs := List.getElem?_eq_getElem hi
  obtain ⟨t, ht, hst⟩ := hh i _ hs
  unfold isOpen at hopen ⊢
  rw [ht, Option.any_some, Bool.and_eq_true, Bool.not_eq_true'] at hopen
  rw [hs, Option.any_some, Bool.and_eq_true, Bool.not_eq_true']
  refine ⟨?_, hst.isOpen hopen.2⟩
  by_contra hgone
  rw [Bool.not_eq_false] at hgone
  rw [hst.gone hgone] at hopen
  exact absurd hopen.1 (by decide)

theorem Consistent.lt_of_mem (hh : h.Consistent)
    {e : Sigma fun _ : NodeID => Nat} (he : e ∈ h.registered.entries) :
    e.2 < h.sessions.length := by
  obtain ⟨s, hs, -⟩ := hh.registered e.1 e.2 (AList.mem_lookup_iff.2 he)
  exact (List.getElem?_eq_some_iff.1 hs).1

theorem openCount_le (hh : h.Consistent) (hcontinues : Continues h h')
    (hregistered : h'.registered.entries.Sublist h.registered.entries) :
    h'.openCount ≤ h.openCount := by
  have hsub : h'.openCount ≤ h.registered.entries.countP fun e => h'.isOpen e.2 :=
    hregistered.countP_le
  refine hsub.trans (List.countP_mono_left fun e he hopen => ?_)
  exact isOpen_of_continues hcontinues (hh.lt_of_mem he) hopen

theorem Consistent.update (hh : h.Consistent) (hf : Works h i f) :
    Calm h (h.update i f) := by
  rcases update_cases h i f with heq | ⟨s, p, hs, hp, heq⟩
  · rw [heq]
    exact Calm.refl hh
  · rw [heq]
    obtain ⟨hrunning, hbecomes⟩ := hf s p hs
    obtain ⟨hsound, hrelease, -⟩ := hrunning.release
    have hst := hbecomes.trans hrelease
    have hcontinues : Continues h { h with
        sessions := h.sessions.set i (PeerSession.release (f (s, p))).1
        objects := h.objects.set s.peer (PeerSession.release (f (s, p))).2 } :=
      continues_set hs hst rfl rfl
    refine ⟨?_, hcontinues, openCount_le hh hcontinues (List.Sublist.refl _), rfl⟩
    have hcases : ∀ (j : Nat) (u : PeerSession),
        (h.sessions.set i (PeerSession.release (f (s, p))).1)[j]? = some u →
          (j = i ∧ u = (PeerSession.release (f (s, p))).1) ∨
            h.sessions[j]? = some u := by
      intro j u hu
      by_cases hij : i = j
      · subst hij
        rw [List.getElem?_set_self (List.getElem?_eq_some_iff.1 hs).1] at hu
        exact .inl ⟨rfl, (Option.some.inj hu).symm⟩
      · rw [List.getElem?_set_ne hij] at hu
        exact .inr hu
    constructor
    · intro j u hu
      rcases hcases j u hu with ⟨-, rfl⟩ | hu
      · exact hsound
      · exact hh.sound j u hu
    · intro j u hu
      rw [List.length_set]
      rcases hcases j u hu with ⟨-, rfl⟩ | hu
      · rw [hst.peer]
        exact hh.made i s hs
      · exact hh.made j u hu
    · intro id k hk
      rw [List.length_set]
      exact hh.found id k hk
    · intro id j hj
      obtain ⟨u, hu, hid⟩ := hh.registered id j hj
      obtain ⟨v, hv, huv⟩ := hcontinues j u hu
      exact ⟨v, hv, huv.id.trans hid⟩
    · intro j u hu hdropped hgone
      rcases hcases j u hu with ⟨rfl, rfl⟩ | hu
      · rw [hst.id]
        refine hh.live j s hs ?_ ?_
        · by_contra hne
          rw [hst.dropped (by simpa using hne)] at hdropped
          cases hdropped
        · by_contra hne
          rw [hst.gone (by simpa using hne)] at hgone
          cases hgone
      · exact hh.live j u hu hdropped hgone

end Update

section Peers

/-- What changes neither the sessions nor which of them are registered. -/
theorem Consistent.same (hh : h.Consistent)
    (hsessions : h'.sessions = h.sessions)
    (hregistered : h'.registered = h.registered)
    (hlength : h.objects.length ≤ h'.objects.length)
    (hfound : ∀ (id : NodeID) (k : Nat), h'.peers.lookup id = some k →
      k < h'.objects.length) :
    h'.Consistent ∧ Continues h h' ∧ h'.openCount ≤ h.openCount := by
  have hcontinues : Continues h h' := by
    intro i s hs
    exact ⟨s, by rw [hsessions, hs], Becomes.refl s⟩
  refine ⟨⟨?_, ?_, hfound, ?_, ?_⟩, hcontinues,
    openCount_le hh hcontinues (by rw [hregistered])⟩
  · intro i s hs
    rw [hsessions] at hs
    exact hh.sound i s hs
  · intro i s hs
    rw [hsessions] at hs
    exact (hh.made i s hs).trans_le hlength
  · intro id i hi
    rw [hregistered] at hi
    rw [hsessions]
    exact hh.registered id i hi
  · intro i s hs
    rw [hsessions] at hs
    rw [hregistered]
    exact hh.live i s hs

/-- What is done to peers leaves the sessions alone. -/
theorem Consistent.peers (hh : h.Consistent)
    (hsessions : h'.sessions = h.sessions)
    (hregistered : h'.registered = h.registered)
    (hslots : h'.peerSlots = h.peerSlots)
    (hlength : h.objects.length ≤ h'.objects.length)
    (hfound : ∀ (id : NodeID) (k : Nat), h'.peers.lookup id = some k →
      k < h'.objects.length) : Calm h h' := by
  obtain ⟨hconsistent, hcontinues, hcount⟩ :=
    hh.same hsessions hregistered hlength hfound
  exact ⟨hconsistent, hcontinues, hcount, hslots⟩

theorem Consistent.edit (hh : h.Consistent)
    (hsessions : h'.sessions = h.sessions)
    (hregistered : h'.registered = h.registered)
    (hslots : h'.peerSlots = h.peerSlots)
    (hlength : h'.objects.length = h.objects.length)
    (hpeers : h'.peers = h.peers) : Calm h h' := by
  refine hh.peers hsessions hregistered hslots hlength.ge fun id j hj => ?_
  rw [hpeers] at hj
  rw [hlength]
  exact hh.found id j hj

theorem Consistent.addPeer (hh : h.Consistent) (id : NodeID) (p : Peer) :
    Calm h (h.addPeer id p) := by
  have hlength : (h.objects ++ [p]).length = h.objects.length + 1 := by simp
  refine hh.peers rfl rfl rfl (hlength ▸ Nat.le_succ _) fun id' k hk => ?_
  unfold SessionHost.addPeer at hk ⊢
  rw [hlength]
  by_cases hid : id' = id
  · subst hid
    rw [AList.lookup_insert] at hk
    obtain rfl := Option.some.inj hk
    exact Nat.lt_succ_self _
  · rw [AList.lookup_insert_ne hid] at hk
    exact (hh.found id' k hk).trans (Nat.lt_succ_self _)

theorem Consistent.erasePeer (hh : h.Consistent) (id : NodeID) :
    Calm h (h.erasePeer id) := by
  unfold SessionHost.erasePeer
  split
  · refine hh.peers rfl rfl rfl le_rfl fun id' k hk => ?_
    by_cases hid : id' = id
    · subst hid
      rw [AList.lookup_erase] at hk
      cases hk
    · rw [AList.lookup_erase_ne hid] at hk
      exact hh.found id' k hk
  · exact Calm.refl hh

theorem Consistent.peerOf (hh : h.Consistent) (id : NodeID) (node : Option Node) :
    Calm h (h.peerOf id node).1 ∧
      (h.peerOf id node).2 < (h.peerOf id node).1.objects.length := by
  unfold SessionHost.peerOf
  split
  · next k hk => exact ⟨Calm.refl hh, hh.found id k hk⟩
  · exact ⟨hh.addPeer id _, by simp [SessionHost.addPeer]⟩

end Peers

section Forget

/-- A session that is not there is forgotten. -/
theorem Consistent.forget (hh : h.Consistent)
    {e : Sigma fun _ : NodeID => Nat}
    (he : h.registered.lookup e.1 = some e.2) (hgone : h.isAlive e.2 = false) :
    Calm h { h with registered := h.registered.erase e.1 } := by
  have hcontinues : Continues h { h with registered := h.registered.erase e.1 } :=
    fun i s hs => ⟨s, hs, Becomes.refl s⟩
  refine ⟨⟨hh.sound, hh.made, hh.found, ?_, ?_⟩, hcontinues,
    openCount_le hh hcontinues (List.kerase_sublist _ _), rfl⟩
  · intro id i hi
    by_cases hid : id = e.1
    · subst hid
      rw [AList.lookup_erase] at hi
      cases hi
    · rw [AList.lookup_erase_ne hid] at hi
      exact hh.registered id i hi
  · intro i s hs hdropped hs'
    have hlookup := hh.live i s hs hdropped hs'
    have hid : s.id ≠ e.1 := by
      intro hid
      rw [hid, he] at hlookup
      obtain rfl := Option.some.inj hlookup
      simp [isAlive, hs, hs'] at hgone
    rw [AList.lookup_erase_ne hid]
    exact hlookup

/-- A session that is there is pinged. -/
theorem Consistent.ping (hh : h.Consistent) (halive : h.isAlive i = true) :
    Calm h (h.update i fun r => (r.1.send, r.2)) := by
  apply hh.update
  intro s p hs
  have hgone : s.gone = false := by simpa [isAlive, hs] using halive
  have := PeerSession.serves_send (p := p) ((hh.sound i s hs).running hgone)
  exact ⟨this.running, this.becomes⟩

/-- An induction over the loop of `keepAlivePeers`, of which the entries to come
are still there. -/
theorem keepAliveLoop_induction {P : SessionHost → Prop}
    (hping : ∀ h i, P h → h.isAlive i = true →
      P (h.update i fun r => (r.1.send, r.2)))
    (hforget : ∀ h (e : Sigma fun _ : NodeID => Nat), P h →
      h.registered.lookup e.1 = some e.2 → h.isAlive e.2 = false →
        P { h with registered := h.registered.erase e.1 })
    (entries : List (Sigma fun _ : NodeID => Nat)) (hP : P h)
    (hkeys : (entries.map (·.1)).Nodup)
    (hmem : ∀ e ∈ entries, h.registered.lookup e.1 = some e.2) :
    P (entries.foldl pingOrForget h) := by
  induction entries generalizing h with
  | nil => exact hP
  | cons e entries ih =>
      rw [List.map_cons, List.nodup_cons] at hkeys
      rw [List.foldl_cons]
      unfold pingOrForget
      split
      · next halive =>
        refine ih (hping h e.2 hP halive) hkeys.2 fun e' he' => ?_
        rw [registered_update]
        exact hmem e' (List.mem_cons_of_mem e he')
      · next halive =>
        have hforgotten := hforget h e hP (hmem e List.mem_cons_self)
          (by simpa using halive)
        refine ih hforgotten hkeys.2 fun e' he' => ?_
        have hne : e'.1 ≠ e.1 := by
          intro heq
          exact hkeys.1 (heq ▸ List.mem_map_of_mem he')
        rw [AList.lookup_erase_ne hne]
        exact hmem e' (List.mem_cons_of_mem e he')

/-- An induction over `keepAlivePeers`: a session that is there is pinged, one
that is not is forgotten, and the time is noted. -/
theorem keepAlive_induction {P : SessionHost → Prop}
    (hping : ∀ h i, P h → h.isAlive i = true →
      P (h.update i fun r => (r.1.send, r.2)))
    (hforget : ∀ h (e : Sigma fun _ : NodeID => Nat), P h →
      h.registered.lookup e.1 = some e.2 → h.isAlive e.2 = false →
        P { h with registered := h.registered.erase e.1 })
    (htime : ∀ h steady, P h → P { h with lastPing := steady })
    (hP : P h) (steady : TimePoint) : P (h.keepAlivePeers steady) := by
  unfold SessionHost.keepAlivePeers
  split
  · exact hP
  · apply htime
    exact keepAliveLoop_induction hping hforget h.registered.entries hP
      h.registered.nodupKeys fun e he => AList.mem_lookup_iff.2 he

theorem Consistent.keepAlivePeers (hh : h.Consistent) (steady : TimePoint) :
    Calm h (h.keepAlivePeers steady) := by
  apply keepAlive_induction (P := Calm h)
  case hping =>
    intro h' i hcalm halive
    exact hcalm.trans (hcalm.consistent.ping halive)
  case hforget =>
    intro h' e hcalm he hgone
    exact hcalm.trans (hcalm.consistent.forget he hgone)
  case htime =>
    intro h' steady hcalm
    exact hcalm.trans (hcalm.consistent.edit rfl rfl rfl rfl rfl)
  case hP => exact Calm.refl hh

end Forget

section Views

variable {toPublic : H256 → H512} {r : RunningHost toPublic}

/-- What `Host::run` and the loops over the peers see of the sessions. -/
structure Shows (r : RunningHost toPublic) (h : SessionHost) : Prop where
  sessions : r.sessions = h.view
  lastPing : r.lastPing = h.lastPing

theorem isAlive_of_isOpen (hopen : h.isOpen i = true) : h.isAlive i = true := by
  unfold isOpen at hopen
  unfold isAlive
  rcases hs : h.sessions[i]? with _ | s
  · rw [hs] at hopen
    cases hopen
  · rw [hs] at hopen
    exact (Bool.and_eq_true_iff.1 hopen).1

theorem Shows.peerCount (hr : Shows r h) : r.peerCount = h.peerCount := by
  rw [RunningHost.peerCount, SessionHost.peerCount, hr.sessions, view, List.countP_map]
  refine congrArg _ (List.countP_congr fun e _ => ?_)
  rw [Function.comp_apply, beq_iff_eq]
  by_cases halive : h.isAlive e.2 = true
  · rw [if_pos halive, Option.some.injEq]
  · rw [if_neg halive]
    exact ⟨fun hnone => (by cases hnone), fun hopen =>
      absurd (isAlive_of_isOpen hopen) halive⟩

theorem Shows.havePeerSession (hr : Shows r h) (id : NodeID) :
    r.havePeerSession id = h.havePeerSession id := by
  rw [RunningHost.havePeerSession, SessionHost.havePeerSession, hr.sessions, view,
    List.any_map, Bool.eq_iff_iff, List.any_eq_true]
  constructor
  · rintro ⟨e, he, hsome⟩
    rw [Function.comp_apply, Bool.and_eq_true_iff, beq_iff_eq] at hsome
    obtain ⟨rfl, hsome⟩ := hsome
    rw [AList.mem_lookup_iff.2 he, Option.any_some]
    by_contra hgone
    rw [if_neg hgone] at hsome
    cases hsome
  · intro hany
    rcases hlookup : h.registered.lookup id with _ | i
    · rw [hlookup] at hany
      cases hany
    · rw [hlookup, Option.any_some] at hany
      refine ⟨⟨id, i⟩, AList.mem_lookup_iff.1 hlookup, ?_⟩
      rw [Function.comp_apply, if_pos hany, beq_self_eq_true]
      rfl

/-- A ping does not end a session. -/
theorem Consistent.same_ping (hh : h.Consistent) (halive : h.isAlive i = true) :
    ∀ j, (h.update i fun r => (r.1.send, r.2)).isAlive j = h.isAlive j ∧
      (h.update i fun r => (r.1.send, r.2)).isOpen j = h.isOpen j := by
  intro j
  rcases update_cases h i fun r => (r.1.send, r.2) with heq | ⟨s, p, hs, hp, heq⟩
  · rw [heq]
    exact ⟨rfl, rfl⟩
  · have hgone : s.gone = false := by simpa [isAlive, hs] using halive
    have hheld := PeerSession.isHeld_send ((hh.sound i s hs).held hgone)
    rw [heq, PeerSession.release, if_pos (Bool.or_eq_true_iff.2 (.inr hheld)), isAlive,
      isOpen, isAlive, isOpen]
    by_cases hij : i = j
    · subst hij
      rw [List.getElem?_set_self (List.getElem?_eq_some_iff.1 hs).1, hs,
        Option.any_some, Option.any_some, Option.any_some, Option.any_some,
        PeerSession.gone_send, PeerSession.isOpen_send]
      exact ⟨rfl, rfl⟩
    · rw [List.getElem?_set_ne hij]
      exact ⟨rfl, rfl⟩

/-- The loop of `keepAlivePeers` keeps the entries of the sessions that are
there, of those to come after the ones it has `seen`. -/
theorem Consistent.entries_keepAliveLoop
    (seen entries : List (Sigma fun _ : NodeID => Nat)) (hh : h.Consistent)
    (hentries : h.registered.entries = seen ++ entries) :
    (entries.foldl pingOrForget h).registered.entries =
        seen ++ entries.filter (fun e => h.isAlive e.2) ∧
      ∀ j, (entries.foldl pingOrForget h).isAlive j = h.isAlive j ∧
        (entries.foldl pingOrForget h).isOpen j = h.isOpen j := by
  induction entries generalizing h seen with
  | nil => exact ⟨hentries, fun _ => ⟨rfl, rfl⟩⟩
  | cons e entries ih =>
      rw [List.foldl_cons]
      by_cases halive : h.isAlive e.2 = true
      · have hping := hh.same_ping halive
        obtain ⟨hloop, hsame⟩ := ih (seen ++ [e]) (hh.ping halive).consistent (by
          rw [registered_update, hentries, List.append_assoc, List.singleton_append])
        rw [pingOrForget, if_pos halive]
        refine ⟨?_, fun j => ⟨(hsame j).1.trans (hping j).1,
          (hsame j).2.trans (hping j).2⟩⟩
        have hfilter : (e :: entries).filter (fun e => h.isAlive e.2) =
            e :: entries.filter (fun e => h.isAlive e.2) :=
          List.filter_cons_of_pos halive
        rw [hloop, hfilter, List.append_assoc, List.singleton_append,
          List.filter_congr fun e' _ => (hping e'.2).1]
      · have hlookup : h.registered.lookup e.1 = some e.2 := by
          apply AList.mem_lookup_iff.2
          rw [hentries]
          exact List.mem_append_right _ List.mem_cons_self
        have hkey : e.1 ∉ List.keys seen := by
          have hkeys := h.registered.nodupKeys
          rw [hentries, List.nodupKeys_middle, List.nodupKeys_cons] at hkeys
          intro hseen
          apply hkeys.1
          rw [List.keys_append]
          exact List.mem_append_left _ hseen
        have herase : (h.registered.erase e.1).entries = seen ++ entries := by
          show List.kerase e.1 h.registered.entries = _
          rw [hentries, List.kerase_append_right hkey, List.kerase_cons_eq rfl]
        obtain ⟨hloop, hsame⟩ := ih seen
          (hh.forget hlookup (by simpa using halive)).consistent herase
        have hfilter : (e :: entries).filter (fun e => h.isAlive e.2) =
            entries.filter (fun e => h.isAlive e.2) :=
          List.filter_cons_of_neg halive
        rw [pingOrForget, if_neg halive, hfilter]
        exact ⟨hloop, hsame⟩

/-- Both models of the host forget the same sessions when the others are
pinged. -/
theorem Shows.keepAlivePeers (hr : Shows r h) (hh : h.Consistent) (t : Tick) :
    Shows (r.keepAlivePeers t) (h.keepAlivePeers t.steady) := by
  rw [RunningHost.keepAlivePeers, SessionHost.keepAlivePeers, hr.lastPing]
  split
  · exact hr
  · obtain ⟨hloop, hsame⟩ := hh.entries_keepAliveLoop [] h.registered.entries rfl
    refine ⟨?_, rfl⟩
    have hview : ({ h.registered.entries.foldl pingOrForget h with
        lastPing := t.steady } : SessionHost).view =
        (h.registered.entries.filter fun e => h.isAlive e.2).map fun e =>
          (e.1, if h.isAlive e.2 then some (h.isOpen e.2) else none) := by
      show List.map _ (h.registered.entries.foldl pingOrForget h).registered.entries = _
      rw [hloop, List.nil_append]
      refine List.map_congr_left fun e _ => ?_
      have hsame' := hsame e.2
      unfold isAlive isOpen at hsame' ⊢
      rw [hsame'.1, hsame'.2]
    have hsome : ∀ e : Sigma fun _ : NodeID => Nat,
        ((if h.isAlive e.2 then some (h.isOpen e.2) else none).isSome) =
          h.isAlive e.2 := by
      intro e
      split
      · next halive => exact halive.symm
      · next halive => simpa using halive
    rw [hview]
    show r.sessions.filter (·.2.isSome) = _
    rw [hr.sessions, view, List.filter_map]
    exact congrArg _ (List.filter_congr fun e _ => hsome e)

end Views

section Start

variable {r : PeerSession × Peer}

theorem sessions_create (h : SessionHost) (k : Nat) (r : PeerSession × Peer) :
    (h.create k r).sessions = h.sessions ++ [(PeerSession.release r).1] := rfl

theorem continues_create (h : SessionHost) (k : Nat) (r : PeerSession × Peer) :
    Continues h (h.create k r) := by
  intro i s hs
  refine ⟨s, ?_, Becomes.refl s⟩
  rw [sessions_create, List.getElem?_append_left (List.getElem?_eq_some_iff.1 hs).1,
    hs]

/-- A session is one of those before or the new one. -/
theorem create_cases (hu : (h.create k r).sessions[i]? = some s) :
    h.sessions[i]? = some s ∨
      (i = h.sessions.length ∧ s = (PeerSession.release r).1) := by
  rw [sessions_create] at hu
  rcases lt_trichotomy i h.sessions.length with hi | rfl | hi
  · rw [List.getElem?_append_left hi] at hu
    exact .inl hu
  · rw [List.getElem?_concat_length] at hu
    exact .inr ⟨rfl, (Option.some.inj hu).symm⟩
  · rw [List.getElem?_eq_none (by simp; omega)] at hu
    cases hu

/-- What holds after a session was made, but for where the host has it. -/
structure Made (h h' : SessionHost) : Prop where
  sound : ∀ (i : Nat) (s : PeerSession), h'.sessions[i]? = some s → s.Sound
  made : ∀ (i : Nat) (s : PeerSession), h'.sessions[i]? = some s →
    s.peer < h'.objects.length
  found : ∀ (id : NodeID) (k : Nat), h'.peers.lookup id = some k →
    k < h'.objects.length
  registered : ∀ (id : NodeID) (i : Nat), h.registered.lookup id = some i →
    ∃ s, h'.sessions[i]? = some s ∧ s.id = id

theorem Consistent.create (hh : h.Consistent) (hk : k < h.objects.length)
    (hr : r.1.Running) (hpeer : r.1.peer = k) : Made h (h.create k r) := by
  obtain ⟨hsound, hrelease, -⟩ := hr.release
  have hlength : (h.create k r).objects.length = h.objects.length :=
    List.length_set
  constructor
  · intro i s hs
    rcases create_cases hs with hs | ⟨-, rfl⟩
    · exact hh.sound i s hs
    · exact hsound
  · intro i s hs
    rw [hlength]
    rcases create_cases hs with hs | ⟨-, rfl⟩
    · exact hh.made i s hs
    · rw [hrelease.peer, hpeer]
      exact hk
  · intro id k hk
    rw [hlength]
    exact hh.found id k hk
  · intro id i hi
    obtain ⟨s, hs, hid⟩ := hh.registered id i hi
    obtain ⟨t, ht, hst⟩ := continues_create h k r i s hs
    exact ⟨t, ht, hst.id.trans hid⟩

/-- A session that is refused was dropped, and is not registered. -/
theorem Consistent.refuse (hh : h.Consistent) (hk : k < h.objects.length)
    (hr : r.1.Running) (hpeer : r.1.peer = k) (hdropped : r.1.dropped = true) :
    Calm h (h.create k r) := by
  have hmade := hh.create hk hr hpeer
  have hcontinues := continues_create h k r
  refine ⟨⟨hmade.sound, hmade.made, hmade.found, hmade.registered, ?_⟩, hcontinues,
    openCount_le hh hcontinues (List.Sublist.refl _), rfl⟩
  intro i s hs hs' hgone
  rcases create_cases hs with hs | ⟨-, rfl⟩
  · exact hh.live i s hs hs' hgone
  · rw [hr.release.2.1.dropped hdropped] at hs'
    cases hs'

/-- No session with the node goes on when one is registered. -/
theorem Consistent.register (hh : h.Consistent) (hk : k < h.objects.length)
    (hr : r.1.Running) (hpeer : r.1.peer = k) (id : NodeID) (hid : r.1.id = id)
    (hconnected : h.isConnected id = false) :
    (h.register id k r).Consistent ∧ Continues h (h.register id k r) ∧
      (h.register id k r).openCount ≤ h.openCount + 1 := by
  have hmade := hh.create hk hr hpeer
  have hcontinues : Continues h (h.register id k r) := continues_create h k r
  have hrelease := hr.release.2.1
  refine ⟨⟨hmade.sound, hmade.made, hmade.found, ?_, ?_⟩, hcontinues, ?_⟩
  · intro id' i hi
    unfold SessionHost.register at hi
    by_cases heq : id' = id
    · subst heq
      rw [AList.lookup_insert] at hi
      obtain rfl := Option.some.inj hi
      exact ⟨_, List.getElem?_concat_length, hrelease.id.trans hid⟩
    · rw [AList.lookup_insert_ne heq] at hi
      exact hmade.registered id' i hi
  · intro i s hs hdropped hgone
    rcases create_cases (k := k) hs with hs | ⟨rfl, rfl⟩
    · have hlookup := hh.live i s hs hdropped hgone
      have hne : s.id ≠ id := by
        intro heq
        have hopen := (hh.sound i s hs).isOpen hgone hdropped
        rw [heq] at hlookup
        simp [isConnected, hlookup, isOpen, hs, hgone, hopen] at hconnected
      unfold SessionHost.register
      rw [AList.lookup_insert_ne hne]
      exact hlookup
    · rw [hrelease.id, hid]
      exact AList.lookup_insert _
  · have hentries : ∀ e ∈ List.kerase id h.registered.entries,
        (h.register id k r).isOpen e.2 = true → h.isOpen e.2 = true := by
      intro e he hopen
      have hmem := (List.kerase_sublist id h.registered.entries).subset he
      exact isOpen_of_continues hcontinues (hh.lt_of_mem hmem) hopen
    have hle := (List.countP_mono_left hentries).trans
      (List.kerase_sublist id h.registered.entries).countP_le
    have hinsert : (h.register id k r).registered.entries =
        ⟨id, h.sessions.length⟩ :: List.kerase id h.registered.entries :=
      AList.entries_insert
    unfold SessionHost.openCount
    rw [hinsert, List.countP_cons]
    refine Nat.add_le_add hle ?_
    split <;> decide

theorem fresh_running (id : NodeID) (k : Nat) :
    PeerSession.Running { id, peer := k } :=
  ⟨rfl, fun _ => rfl, (by cases ·), fun _ h => absurd h (lt_irrefl 0)⟩

/-- What one step does.  The count of the peers is right as long as it has not
wrapped. -/
structure Steps (h : SessionHost) (e : SessionEvent) (h' : SessionHost) : Prop where
  consistent : h'.Consistent
  continues : Continues h h'
  openCount : h.openCount < 2 ^ 32 →
    h'.openCount ≤ h.openCount ∨ h'.openCount ≤ h.peerSlots.toNat
  peerSlots : e.setsSlots = false → h'.peerSlots = h.peerSlots
  calm : e.starts = false → h'.openCount ≤ h.openCount

variable {e : SessionEvent}

theorem Calm.steps (hh : Calm h h') : Steps h e h' :=
  ⟨hh.consistent, hh.continues, fun _ => .inl hh.openCount, fun _ => hh.peerSlots,
    fun _ => hh.openCount⟩

theorem Calm.trans_steps {h'' : SessionHost} (hh : Calm h h')
    (hh' : Steps h' e h'') : Steps h e h'' := by
  refine ⟨hh'.consistent, hh.continues.trans hh'.continues, fun hlt => ?_,
    fun he => (hh'.peerSlots he).trans hh.peerSlots,
    fun he => (hh'.calm he).trans hh.openCount⟩
  rcases hh'.openCount (hh.openCount.trans_lt hlt) with hle | hle
  · exact .inl (hle.trans hh.openCount)
  · exact .inr (hh.peerSlots ▸ hle)

theorem openCount_lt (hlt : h.openCount < 2 ^ 32)
    (havailable : h.peerSlotsAvailable = true) :
    h.openCount < h.peerSlots.toNat := by
  have hcount : h.peerCount.toNat = h.openCount := by
    show (UInt32.ofNat h.openCount).toNat = h.openCount
    rw [UInt32.toNat_ofNat', Nat.mod_eq_of_lt hlt]
  have := of_decide_eq_true havailable
  omega

theorem running_start (id : NodeID) (k : Nat) :
    (PeerSession.start { id, peer := k }).Running := by
  have hsend := (fresh_running id k).send
  unfold PeerSession.start PeerSession.doRead
  split
  · exact hsend
  · exact hsend.read _

theorem Consistent.startPeerSession (hh : h.Consistent) (id : NodeID)
    (now : SystemTime) (protocolVersion : UInt32) (address : Address)
    (node : Option Node) (known : Bool) :
    Steps h (.start id now protocolVersion address node known)
      (h.startPeerSession id now protocolVersion address node known) := by
  obtain ⟨hcalm, hk⟩ := hh.peerOf id node
  refine hcalm.trans_steps ?_
  unfold SessionHost.startPeerSession
  generalize h.peerOf id node = made at hcalm hk ⊢
  obtain ⟨g, k⟩ := made
  have hg := hcalm.consistent
  dsimp only at hk ⊢
  split
  · exact (Calm.refl hg).steps
  · next p hp =>
    have hrefuse : ∀ (reason : DisconnectReason) (p : Peer),
        Steps g (.start id now protocolVersion address node known) (g.create k
          (PeerSession.disconnect known reason ({ id, peer := k }, p))) := by
      intro reason p
      have hserves := PeerSession.serves_disconnect known
        (r := ({ id, peer := k }, p)) (fresh_running id k) reason
      exact (hg.refuse hk hserves.running hserves.becomes.peer
        (PeerSession.dropped_disconnect _ _)).steps
    split
    · exact hrefuse _ _
    · split
      · exact hrefuse _ _
      · next hconnected =>
        split
        · exact hrefuse _ _
        · next havailable =>
          have hregister : ∀ q : Peer, Steps g
              (.start id now protocolVersion address node known)
              (g.register id k (PeerSession.start { id, peer := k }, q)) := by
            intro q
            obtain ⟨hconsistent, hcontinues, hcount⟩ := hg.register
              (r := (PeerSession.start { id, peer := k }, q)) hk
              (running_start id k) rfl id rfl (by simpa using hconnected)
            refine ⟨hconsistent, hcontinues, fun hlt => .inr ?_, fun _ => rfl,
              fun he => by cases he⟩
            exact hcount.trans (openCount_lt hlt (by simpa using havailable))
          exact hregister _

end Start

section Steps

/-- Whoever has the session at a place may work on it. -/
theorem Consistent.handle (hh : h.Consistent) {q : PeerSession → Bool}
    (hthere : ∀ s : PeerSession, s.Sound → q s = true → s.gone = false)
    (hf : ∀ (s : PeerSession) (p : Peer), s.Running → q s = true →
      (f (s, p)).1.Running ∧ Becomes s (f (s, p)).1) :
    Calm h (h.handle i q f) := by
  unfold SessionHost.handle
  split
  · next hq =>
    refine hh.update fun s p hs => ?_
    rw [hs, Option.any_some] at hq
    have hsound := hh.sound i s hs
    exact hf s p (hsound.running (hthere s hsound hq)) hq
  · exact Calm.refl hh

theorem there_of_reading {phase : ReadPhase} (hs : s.Sound)
    (hphase : decide (s.reading = some phase) = true) : s.gone = false :=
  hs.there (by simp [PeerSession.isHeld, of_decide_eq_true hphase])

theorem Consistent.set (hh : h.Consistent) (hsessions : h'.sessions = h.sessions)
    (hregistered : h'.registered = h.registered) (hobjects : h'.objects = h.objects)
    (hpeers : h'.peers = h.peers) (he : e.setsSlots = true) : Steps h e h' := by
  obtain ⟨hconsistent, hcontinues, hcount⟩ := hh.same hsessions hregistered
    (hobjects ▸ le_rfl) (hobjects ▸ hpeers ▸ hh.found)
  refine ⟨hconsistent, hcontinues, fun _ => .inl hcount, fun hne => ?_,
    fun _ => hcount⟩
  rw [he] at hne
  cases hne

theorem Consistent.step (hh : h.Consistent) (e : SessionEvent) :
    Steps h e (h.step e) := by
  cases e with
  | start id now protocolVersion address node known =>
      exact hh.startPeerSession id now protocolVersion address node known
  | header i known o =>
      refine (hh.handle (fun s => there_of_reading) fun s p hs hq => ?_).steps
      have := PeerSession.handles_onHeader known (r := (s, p)) hs
        (of_decide_eq_true hq) o
      exact ⟨this.running, this.becomes⟩
  | frame i known o =>
      refine (hh.handle (fun s => there_of_reading) fun s p hs hq => ?_).steps
      have := PeerSession.handles_onFrame known (r := (s, p)) hs
        (of_decide_eq_true hq) o
      exact ⟨this.running, this.becomes⟩
  | written i known ok =>
      refine (hh.handle (fun s hs hq => ?_) fun s p hs hq => ?_).steps
      · exact hs.there (by simp [PeerSession.isHeld, hq])
      · have := PeerSession.handles_onWritten known (r := (s, p)) hs hq ok
        exact ⟨this.running, this.becomes⟩
  | call i known c =>
      refine (hh.handle (fun s _ hq => by simpa using hq) fun s p hs _ => ?_).steps
      have := PeerSession.serves_call known (r := (s, p)) hs c
      exact ⟨this.running, this.becomes⟩
  | lock i =>
      refine (hh.handle (fun s _ hq => by simpa using hq) fun s p hs _ => ?_).steps
      exact ⟨⟨hs.there, hs.isOpen, hs.waiting, hs.served⟩,
        ⟨rfl, rfl, fun h => h, fun h => h, fun h => h⟩⟩
  | unlock i =>
      refine (hh.handle (fun s hs hq => ?_) fun s p hs _ => ?_).steps
      · exact hs.there (by simp [PeerSession.isHeld, of_decide_eq_true hq])
      · exact ⟨⟨hs.there, hs.isOpen, hs.waiting, hs.served⟩,
          ⟨rfl, rfl, fun h => h, fun h => h, fun h => h⟩⟩
  | keepAlive steady => exact (hh.keepAlivePeers steady).steps
  | connecting k now =>
      show Steps h _ (h.connect k now)
      unfold connect
      split
      · exact (Calm.refl hh).steps
      · exact Calm.steps (hh.edit rfl rfl rfl (List.length_modify ..) rfl)
  | connected k now ok =>
      show Steps h _ (h.connected k now ok)
      unfold connected
      split
      · exact Calm.steps (hh.edit rfl rfl rfl (List.length_modify ..) rfl)
      · exact (Calm.refl hh).steps
  | addPeer p => exact (hh.addPeer p.id p).steps
  | updatePeer id endpoint required =>
      show Steps h _ (h.updatePeer id endpoint required)
      unfold updatePeer
      split
      · exact (Calm.refl hh).steps
      · exact Calm.steps (hh.edit rfl rfl rfl (List.length_modify ..) rfl)
  | erasePeer id => exact (hh.erasePeer id).steps
  | setIdealPeerCount n => exact hh.set rfl rfl rfl rfl rfl
  | setPeerStretch n => exact hh.set rfl rfl rfl rfl rfl

theorem Consistent.run (hh : h.Consistent) (events : List SessionEvent) :
    (h.run events).Consistent ∧ Continues h (h.run events) := by
  induction events generalizing h with
  | nil => exact ⟨hh, Continues.refl h⟩
  | cons e events ih =>
      have hstep := hh.step e
      obtain ⟨hconsistent, hcontinues⟩ := ih hstep.consistent
      exact ⟨hconsistent, hstep.continues.trans hcontinues⟩

end Steps

/-- The node of the tests. -/
def testNode : NodeID := FixedHash.ofArith 64 1

/-- A session with the node is started. -/
def testStart : SessionEvent := .start testNode 0 4 .unspecified none true

def otherNode : NodeID := FixedHash.ofArith 64 2

def testOther : SessionEvent := .start otherNode 0 4 .unspecified none true

/-- In every run a host is in one session at most with each node: a session
that was neither dropped nor has ended is connected, it is the one the host has
for its node, and no other one with the same node is like it. -/
theorem one_session (idealPeerCount stretchPeers : UInt32)
    (events : List SessionEvent) :
    ∀ (i : Nat) (s : PeerSession),
      ((started idealPeerCount stretchPeers).run events).sessions[i]? = some s →
      s.dropped = false → s.gone = false →
        s.isOpen = true ∧
        ((started idealPeerCount stretchPeers).run events).registered.lookup s.id =
          some i ∧
        ((started idealPeerCount stretchPeers).run events).isConnected s.id = true ∧
        ∀ (j : Nat) (t : PeerSession),
          ((started idealPeerCount stretchPeers).run events).sessions[j]? = some t →
          t.dropped = false → t.gone = false → t.id = s.id → j = i := by
  have hh := ((consistent_started idealPeerCount stretchPeers).run events).1
  generalize (started idealPeerCount stretchPeers).run events = h at hh ⊢
  intro i s hs hdropped hgone
  have hlookup := hh.live i s hs hdropped hgone
  have hopen := (hh.sound i s hs).isOpen hgone hdropped
  refine ⟨hopen, hlookup, ?_, fun j t ht htdropped htgone hid => ?_⟩
  · rw [isConnected, hlookup, Option.any_some, isOpen, hs, Option.any_some, hgone, hopen]
    rfl
  · have hlookup' := hh.live j t ht htdropped htgone
    rw [hid, hlookup] at hlookup'
    exact (Option.some.inj hlookup').symm

/-- A second session with the node is refused. -/
theorem one_session_refused :
    ∃ s t, ((started 11 7).run [testStart, testStart]).sessions[0]? = some s ∧
      ((started 11 7).run [testStart, testStart]).sessions[1]? = some t ∧
      t.id = s.id ∧ t.dropped = true ∧
      ((started 11 7).run [testStart, testStart]).registered.lookup testNode =
        some 0 ∧
      ((started 11 7).run [testStart, testStart]).isConnected testNode = true := by
  have hs : ((started 11 7).run [testStart, testStart]).sessions[0]? =
      some { id := testNode, peer := 0, reading := some .header, writeQueue := 1,
             writing := true } := by decide +kernel
  have ht : ((started 11 7).run [testStart, testStart]).sessions[1]?.map
      (fun t => (t.id, t.dropped)) = some (testNode, true) := by decide +kernel
  obtain ⟨t, ht, heq⟩ := Option.map_eq_some_iff.1 ht
  obtain ⟨hid, hdropped⟩ := Prod.mk.inj heq
  obtain ⟨-, hlookup, hconnected, -⟩ :=
    one_session 11 7 [testStart, testStart] 0 _ hs rfl rfl
  exact ⟨_, t, hs, ht, hid, hdropped, hlookup, hconnected⟩

theorem run_append (h : SessionHost) (events : List SessionEvent)
    (e : SessionEvent) : h.run (events ++ [e]) = (h.run events).step e := by
  rw [run, List.foldl_append]
  rfl

/-- There were slots once for as many peers as there are. -/
theorem exists_openCount_le (idealPeerCount stretchPeers : UInt32)
    (events : List SessionEvent) :
    ∃ before, before <+: events ∧
      ((started idealPeerCount stretchPeers).run events).openCount ≤
        ((started idealPeerCount stretchPeers).run before).peerSlots.toNat := by
  induction events using List.reverseRecOn with
  | nil => exact ⟨[], List.prefix_rfl, Nat.zero_le _⟩
  | append_singleton events e ih =>
      obtain ⟨before, hbefore, hle⟩ := ih
      have hh := ((consistent_started idealPeerCount stretchPeers).run events).1
      have hlt := hle.trans_lt (UInt32.toNat_lt _)
      rw [run_append]
      rcases (hh.step e).openCount hlt with hcount | hcount
      · exact ⟨before, hbefore.trans (List.prefix_append _ _), hcount.trans hle⟩
      · exact ⟨events, List.prefix_append _ _, hcount⟩

theorem peerSlots_run (hh : h.Consistent) (events : List SessionEvent)
    (hset : ∀ e ∈ events, e.setsSlots = false) :
    (h.run events).peerSlots = h.peerSlots := by
  induction events generalizing h with
  | nil => rfl
  | cons e events ih =>
      have hstep := hh.step e
      have hrest := ih hstep.consistent fun e' he' => hset e' (List.mem_cons_of_mem e he')
      exact hrest.trans (hstep.peerSlots (hset e List.mem_cons_self))

/-- A host is never connected to more peers than it had slots for at some time
of the run.  Unless the number of slots is changed, its acceptor never has too
many to take one more. -/
theorem slots_kept (idealPeerCount stretchPeers : UInt32)
    (events : List SessionEvent) :
    (∃ before, before <+: events ∧
      ((started idealPeerCount stretchPeers).run events).peerCount ≤
        ((started idealPeerCount stretchPeers).run before).peerSlots) ∧
    ((∀ e ∈ events, e.setsSlots = false) →
      ((started idealPeerCount stretchPeers).run events).refusesConnection =
        false) := by
  have hh := consistent_started idealPeerCount stretchPeers
  obtain ⟨before, hbefore, hle⟩ :=
    exists_openCount_le idealPeerCount stretchPeers events
  have hcount : ((started idealPeerCount stretchPeers).run events).peerCount ≤
      ((started idealPeerCount stretchPeers).run before).peerSlots := by
    rw [UInt32.le_iff_toNat_le]
    exact (UInt32.toNat_ofNat_of_lt' (hle.trans_lt (UInt32.toNat_lt _))).trans_le hle
  refine ⟨⟨before, hbefore, hcount⟩, fun hset => ?_⟩
  rw [peerSlots_run hh before fun e he => hset e (hbefore.subset he),
    ← peerSlots_run hh events hset] at hcount
  exact decide_eq_false (UInt32.not_lt.2 hcount)

/-- There is a slot for one peer, and the second one is refused. -/
theorem slots_kept_refused :
    ((started 1 1).run [testStart, testOther]).isConnected testNode = true ∧
    ((started 1 1).run [testStart, testOther]).isConnected otherNode = false ∧
    ((started 1 1).run [testStart, testOther]).refusesConnection = false :=
  ⟨by decide +kernel, by decide +kernel,
    (slots_kept 1 1 [testStart, testOther]).2 (by decide)⟩

section Ends

variable {p : Peer}

/-- Whether an event runs the handler of a read or write of a session. -/
def runsHandler (h : SessionHost) (i : Nat) : SessionEvent → Bool
  | .header j _ _ => j == i && h.sessions[i]?.any (·.reading = some .header)
  | .frame j _ _ => j == i && h.sessions[i]?.any (·.reading = some .frame)
  | .written j _ _ => j == i && h.sessions[i]?.any (·.writing)
  | _ => false

/-- How many handlers of a session run. -/
def handlersRun (i : Nat) : SessionHost → List SessionEvent → Nat
  | _, [] => 0
  | h, e :: events =>
      (if h.runsHandler i e then 1 else 0) + handlersRun i (h.step e) events

/-- What becomes of a session that was dropped and closed, if `n` of its
handlers run. -/
structure Fades (n : Nat) (s t : PeerSession) : Prop where
  dropped : t.dropped = true
  closed : t.isOpen = false
  writeQueue : t.writeQueue ≤ s.writeQueue
  handlers : n + t.handlersLeft ≤ s.handlersLeft

theorem update_at (hs : h.sessions[i]? = some s) (j : Nat)
    (f : PeerSession × Peer → PeerSession × Peer) :
    (h.update j f).sessions[i]? = some s ∨
      (j = i ∧ ∃ p, (h.update j f).sessions[i]? =
        some (PeerSession.release (f (s, p))).1) := by
  rcases update_cases h j f with heq | ⟨u, p, hu, -, heq⟩
  · rw [heq]
    exact .inl hs
  · rw [heq]
    by_cases hij : j = i
    · subst hij
      obtain rfl := Option.some.inj (hu.symm.trans hs)
      refine .inr ⟨rfl, p, ?_⟩
      exact List.getElem?_set_self (List.getElem?_eq_some_iff.1 hs).1
    · exact .inl ((List.getElem?_set_ne hij).trans hs)

/-- A session is worked on where something holds of it, and else left alone. -/
theorem Consistent.handle_at (hh : h.Consistent) (hs : h.sessions[i]? = some s)
    (j : Nat) (q : PeerSession → Bool)
    (f : PeerSession × Peer → PeerSession × Peer) :
    ((h.handle j q f).sessions[i]? = some s ∧ ¬(j = i ∧ q s = true) ∧
        (j = i → (h.handle j q f).objects = h.objects)) ∨
      j = i ∧ q s = true ∧ ∃ p, h.objects[s.peer]? = some p ∧
        (h.handle j q f).sessions[i]? = some (PeerSession.release (f (s, p))).1 ∧
        (h.handle j q f).objects =
          h.objects.set s.peer (PeerSession.release (f (s, p))).2 := by
  unfold SessionHost.handle
  by_cases hij : j = i
  · subst hij
    rw [hs, Option.any_some]
    split
    · next hq =>
      have hp := List.getElem?_eq_getElem (hh.made j s hs)
      refine .inr ⟨rfl, hq, _, hp, ?_⟩
      unfold SessionHost.update
      rw [hs]
      simp only [hp]
      exact ⟨List.getElem?_set_self (List.getElem?_eq_some_iff.1 hs).1, trivial⟩
    · next hq => exact .inl ⟨hs, fun h => hq h.2, fun _ => rfl⟩
  · refine .inl ⟨?_, fun h => hij h.1, fun h => absurd h hij⟩
    split
    · rcases update_at hs j f with h | ⟨h, -⟩
      · exact h
      · exact absurd h hij
    · exact hs

/-- Nobody but a handler changes a session that was dropped and closed, but for
how often it is pointed to. -/
theorem Fades.refl (hdropped : s.dropped = true) (hclosed : s.isOpen = false) :
    Fades 0 s s :=
  ⟨hdropped, hclosed, le_rfl, (Nat.zero_add _).le⟩

theorem Fades.release {r : PeerSession × Peer} {n : Nat} (hr : r.1.Running)
    (hs : Fades n s r.1) : Fades n s (PeerSession.release r).1 := by
  obtain ⟨-, hbecomes, hleft, hqueue, -⟩ := hr.release
  refine ⟨hbecomes.dropped hs.dropped, ?_, hqueue.trans_le hs.writeQueue,
    (congrArg _ hleft).trans_le hs.handlers⟩
  by_contra hopen
  have := hbecomes.isOpen (by simpa using hopen)
  rw [hs.closed] at this
  cases this

/-- The reasons for the last disconnects stay the same. -/
def KeepsReasons (h h' : SessionHost) : Prop :=
  ∀ k : Nat, h'.objects[k]?.map (·.lastDisconnect) =
    h.objects[k]?.map (·.lastDisconnect)

theorem keepsReasons_set {p' : Peer} (hp : h.objects[k]? = some p)
    (hreason : p'.lastDisconnect = p.lastDisconnect)
    (hobjects : h'.objects = h.objects.set k p') : KeepsReasons h h' := by
  intro j
  rw [hobjects]
  by_cases hjk : k = j
  · subst hjk
    rw [List.getElem?_set_self (List.getElem?_eq_some_iff.1 hp).1, hp, Option.map_some,
      hreason]
    rfl
  · rw [List.getElem?_set_ne hjk]

/-- What is done with a session that was dropped and closed. -/
structure Leaves (n : Nat) (r r' : PeerSession × Peer) : Prop where
  running : r'.1.Running
  fades : Fades n r.1 r'.1
  reason : r'.2.lastDisconnect = r.2.lastDisconnect

theorem Consistent.fades_handle (hh : h.Consistent) (hs : h.sessions[i]? = some s)
    (hdropped : s.dropped = true) (hclosed : s.isOpen = false) (j n : Nat)
    {q : PeerSession → Bool}
    (hthere : ∀ s : PeerSession, s.Sound → q s = true → s.gone = false)
    (hf : ∀ p : Peer, s.Running → q s = true → Leaves n (s, p) (f (s, p))) :
    ∃ t, (h.handle j q f).sessions[i]? = some t ∧
      Fades (if (j == i && q s) = true then n else 0) s t ∧
      (j = i → KeepsReasons h (h.handle j q f)) := by
  rcases hh.handle_at hs j q f with ⟨ht, hnot, hobjects⟩ | ⟨hji, hq, p, hp, ht, hobjects⟩
  · refine ⟨s, ht, ?_, fun hji k => by rw [hobjects hji]⟩
    rw [if_neg (by simpa using hnot)]
    exact Fades.refl hdropped hclosed
  · have hleaves := hf p ((hh.sound i s hs).running (hthere s (hh.sound i s hs) hq)) hq
    refine ⟨_, ht, ?_, fun _ => ?_⟩
    · rw [if_pos (by simp [hji, hq])]
      exact hleaves.fades.release hleaves.running
    · exact keepsReasons_set hp
        (hleaves.running.release.2.2.2.2.trans hleaves.reason) hobjects

theorem Handles.leaves {r r' : PeerSession × Peer} (hr : PeerSession.Handles r r')
    (hdropped : r.1.dropped = true) (hclosed : r.1.isOpen = false) :
    Leaves 1 r r' := by
  obtain ⟨hqueue, hleft⟩ := hr.fewer hdropped hclosed
  refine ⟨hr.running, ⟨hr.becomes.dropped hdropped, ?_, hqueue, ?_⟩,
    hr.reason hdropped⟩
  · by_contra hopen
    rw [hr.becomes.isOpen (by simpa using hopen)] at hclosed
    cases hclosed
  · rw [Nat.add_comm]
    exact hleft

theorem Serves.leaves {r r' : PeerSession × Peer} (hr : PeerSession.Serves r r')
    (hdropped : r.1.dropped = true) (hclosed : r.1.isOpen = false) :
    Leaves 0 r r' := by
  refine ⟨hr.running, ?_, hr.reason hdropped⟩
  rw [hr.kept hdropped hclosed]
  exact Fades.refl hdropped hclosed

/-- A session that is let go of between two steps is as it was. -/
theorem release_of_sound (hs : s.Sound) : PeerSession.release (s, p) = (s, p) := by
  unfold PeerSession.release
  split
  · rfl
  · next hheld =>
    rw [Bool.or_eq_true, not_or, Bool.not_eq_true] at hheld
    exact absurd (hs.held hheld.1) hheld.2

theorem gone_of_handlersLeft (hs : s.Sound) (hleft : s.handlersLeft = 0)
    (hheld : s.held = 0) : s.gone = true := by
  by_contra hgone
  have hpointed := hs.held (by simpa using hgone)
  have hwriting : s.writing = false := by
    by_contra hwriting
    rw [Bool.not_eq_false] at hwriting
    have hpos := hs.waiting hwriting
    unfold PeerSession.handlersLeft at hleft
    rw [if_pos hwriting] at hleft
    omega
  have hreading : s.reading = none := by
    rcases hphase : s.reading with _ | phase
    · rfl
    · cases phase <;> simp [PeerSession.handlersLeft, hphase] at hleft
  rw [PeerSession.isHeld, hreading, hwriting, hheld] at hpointed
  cases hpointed

theorem sessions_keepAlive (hs : h.sessions[i]? = some s) (hsound : s.Sound)
    (hclosed : s.isOpen = false) (steady : TimePoint) :
    (h.keepAlivePeers steady).sessions[i]? = some s := by
  apply keepAlive_induction (P := fun h => h.sessions[i]? = some s)
  case hping =>
    intro h' j hs' halive
    rcases update_at hs' j fun r => (r.1.send, r.2) with ht | ⟨-, p, ht⟩
    · exact ht
    · rw [PeerSession.send_of_closed hclosed, release_of_sound hsound] at ht
      exact ht
  case hforget => exact fun _ _ hs' _ _ => hs'
  case htime => exact fun _ _ hs' => hs'
  case hP => exact hs

theorem sessions_connect (h : SessionHost) (k : Nat) (now : SystemTime) :
    (h.connect k now).sessions = h.sessions := by
  unfold connect
  split <;> rfl

theorem sessions_connected (h : SessionHost) (k : Nat) (now : SystemTime)
    (ok : Bool) : (h.connected k now ok).sessions = h.sessions := by
  unfold connected
  split <;> rfl

theorem sessions_updatePeer (h : SessionHost) (id : NodeID)
    (endpoint : NodeIPEndpoint) (required : Bool) :
    (h.updatePeer id endpoint required).sessions = h.sessions := by
  unfold updatePeer
  split <;> rfl

theorem sessions_erasePeer (h : SessionHost) (id : NodeID) :
    (h.erasePeer id).sessions = h.sessions := by
  unfold SessionHost.erasePeer
  split <;> rfl

theorem sessions_peerOf (h : SessionHost) (id : NodeID) (node : Option Node) :
    (h.peerOf id node).1.sessions = h.sessions := by
  unfold peerOf
  split <;> rfl

theorem sessions_start (hs : h.sessions[i]? = some s) (id : NodeID)
    (now : SystemTime) (protocolVersion : UInt32) (address : Address)
    (node : Option Node) (known : Bool) :
    (h.startPeerSession id now protocolVersion address node known).sessions[i]? =
      some s := by
  have hmade : (h.peerOf id node).1.sessions[i]? = some s := by
    rw [sessions_peerOf, hs]
  have hcreate : ∀ (k : Nat) (r : PeerSession × Peer),
      ((h.peerOf id node).1.create k r).sessions[i]? = some s := by
    intro k r
    rw [sessions_create, List.getElem?_append_left
      (List.getElem?_eq_some_iff.1 hmade).1, hmade]
  unfold SessionHost.startPeerSession
  dsimp only
  split
  · exact hmade
  · split
    · exact hcreate _ _
    · split
      · exact hcreate _ _
      · split
        · exact hcreate _ _
        · exact hcreate (h.peerOf id node).2 _

/-- One step leaves a session that was dropped and closed as it is, but for the
handler that runs. -/
theorem Consistent.fades (hh : h.Consistent) (hs : h.sessions[i]? = some s)
    (hdropped : s.dropped = true) (hclosed : s.isOpen = false) (e : SessionEvent) :
    ∃ t, (h.step e).sessions[i]? = some t ∧
      Fades (if h.runsHandler i e = true then 1 else 0) s t ∧
      (e.session = some i → KeepsReasons h (h.step e)) := by
  have hsame : ∀ g : SessionHost, g.sessions[i]? = some s →
      ∃ t, g.sessions[i]? = some t ∧ Fades 0 s t ∧
        ((none : Option Nat) = some i → KeepsReasons h g) :=
    fun g hg => ⟨s, hg, Fades.refl hdropped hclosed, fun h => by cases h⟩
  have hsession : ∀ {j : Nat} {g : SessionHost},
      (j = i → KeepsReasons h g) → some j = some i → KeepsReasons h g :=
    fun hj hji => hj (Option.some.inj hji)
  cases e with
  | start id now protocolVersion address node known =>
      exact hsame _ (sessions_start hs id now protocolVersion address node known)
  | header j known o =>
      obtain ⟨t, ht, hfades, hreasons⟩ := hh.fades_handle hs hdropped hclosed j 1
        (q := (·.reading = some .header)) (fun s => there_of_reading)
        fun p hrunning hq => Handles.leaves (PeerSession.handles_onHeader known
          (r := (s, p)) hrunning (of_decide_eq_true hq) o) hdropped hclosed
      refine ⟨t, ht, ?_, hsession hreasons⟩
      unfold runsHandler
      rw [hs, Option.any_some]
      exact hfades
  | frame j known o =>
      obtain ⟨t, ht, hfades, hreasons⟩ := hh.fades_handle hs hdropped hclosed j 1
        (q := (·.reading = some .frame)) (fun s => there_of_reading)
        fun p hrunning hq => Handles.leaves (PeerSession.handles_onFrame known
          (r := (s, p)) hrunning (of_decide_eq_true hq) o) hdropped hclosed
      refine ⟨t, ht, ?_, hsession hreasons⟩
      unfold runsHandler
      rw [hs, Option.any_some]
      exact hfades
  | written j known ok =>
      obtain ⟨t, ht, hfades, hreasons⟩ := hh.fades_handle hs hdropped hclosed j 1
        (q := (·.writing)) (fun s hs hq => hs.there (by simp [PeerSession.isHeld, hq]))
        fun p hrunning hq => Handles.leaves (PeerSession.handles_onWritten known
          (r := (s, p)) hrunning hq ok) hdropped hclosed
      refine ⟨t, ht, ?_, hsession hreasons⟩
      unfold runsHandler
      rw [hs, Option.any_some]
      exact hfades
  | call j known c =>
      obtain ⟨t, ht, hfades, hreasons⟩ := hh.fades_handle hs hdropped hclosed j 0
        (q := (!·.gone)) (f := (PeerSession.call known · c))
        (fun s _ hq => by simpa using hq)
        fun p hrunning _ => Serves.leaves (PeerSession.serves_call known
          (r := (s, p)) hrunning c) hdropped hclosed
      rw [ite_self] at hfades
      exact ⟨t, ht, hfades, hsession hreasons⟩
  | lock j =>
      obtain ⟨t, ht, hfades, hreasons⟩ := hh.fades_handle hs hdropped hclosed j 0
        (q := (!·.gone)) (f := fun r => ({ r.1 with held := r.1.held + 1 }, r.2))
        (fun s _ hq => by simpa using hq)
        fun p hrunning _ => ⟨⟨hrunning.there, hrunning.isOpen, hrunning.waiting,
          hrunning.served⟩, ⟨hdropped, hclosed, le_rfl, (Nat.zero_add _).le⟩, rfl⟩
      rw [ite_self] at hfades
      exact ⟨t, ht, hfades, hsession hreasons⟩
  | unlock j =>
      obtain ⟨t, ht, hfades, hreasons⟩ := hh.fades_handle hs hdropped hclosed j 0
        (q := (·.held ≠ 0)) (f := fun r => ({ r.1 with held := r.1.held - 1 }, r.2))
        (fun s hs hq => hs.there (by simp [PeerSession.isHeld, of_decide_eq_true hq]))
        fun p hrunning _ => ⟨⟨hrunning.there, hrunning.isOpen, hrunning.waiting,
          hrunning.served⟩, ⟨hdropped, hclosed, le_rfl, (Nat.zero_add _).le⟩, rfl⟩
      rw [ite_self] at hfades
      exact ⟨t, ht, hfades, hsession hreasons⟩
  | keepAlive steady =>
      exact hsame _ (sessions_keepAlive hs (hh.sound i s hs) hclosed steady)
  | connecting k now =>
      refine hsame (h.connect k now) ?_
      rw [sessions_connect]
      exact hs
  | connected k now ok =>
      refine hsame (h.connected k now ok) ?_
      rw [sessions_connected]
      exact hs
  | addPeer p => exact hsame _ hs
  | updatePeer id endpoint required =>
      refine hsame (h.updatePeer id endpoint required) ?_
      rw [sessions_updatePeer]
      exact hs
  | erasePeer id =>
      refine hsame (h.erasePeer id) ?_
      rw [sessions_erasePeer]
      exact hs
  | setIdealPeerCount n => exact hsame _ hs
  | setPeerStretch n => exact hsame _ hs

/-- A session that was dropped with its socket closed stays so.  No more of its
handlers run than were due when it was, none of them gives its peer another
reason for the disconnect, and once they have run and nobody else points to it
the session is gone. -/
theorem dropped_ends (idealPeerCount stretchPeers : UInt32)
    (before events : List SessionEvent) (i : Nat) (s : PeerSession)
    (hs : ((started idealPeerCount stretchPeers).run before).sessions[i]? = some s)
    (hdropped : s.dropped = true) (hclosed : s.isOpen = false) :
    ∃ t, (((started idealPeerCount stretchPeers).run before).run events).sessions[i]? =
        some t ∧
      t.dropped = true ∧ t.isOpen = false ∧ t.writeQueue ≤ s.writeQueue ∧
      handlersRun i ((started idealPeerCount stretchPeers).run before) events +
        t.handlersLeft ≤ s.handlersLeft ∧
      (t.handlersLeft = 0 → t.held = 0 → t.gone = true) ∧
      ((∀ e ∈ events, e.session = some i) →
        KeepsReasons ((started idealPeerCount stretchPeers).run before)
          (((started idealPeerCount stretchPeers).run before).run events)) := by
  have hh := ((consistent_started idealPeerCount stretchPeers).run before).1
  generalize (started idealPeerCount stretchPeers).run before = h at hh hs ⊢
  induction events generalizing h s with
  | nil =>
      refine ⟨s, hs, hdropped, hclosed, le_rfl, (Nat.zero_add _).le, ?_,
        fun _ _ => rfl⟩
      exact gone_of_handlersLeft (hh.sound i s hs)
  | cons e events ih =>
      obtain ⟨t, ht, hfades, hreasons⟩ := hh.fades hs hdropped hclosed e
      obtain ⟨u, hu, hudropped, huclosed, hqueue, hleft, hgone, hkept⟩ :=
        ih t hfades.dropped hfades.closed (h.step e) (hh.step e).consistent ht
      refine ⟨u, hu, hudropped, huclosed, hqueue.trans hfades.writeQueue, ?_, hgone,
        fun hsession k => ?_⟩
      · have := hfades.handlers
        rw [handlersRun]
        omega
      · rw [← hreasons (hsession e List.mem_cons_self) k]
        exact hkept (fun e' he' => hsession e' (List.mem_cons_of_mem e he')) k

theorem dropped_ends_quit : ∃ t,
    (((started 11 7).run [testStart, .call 0 true (.disconnect .clientQuit)]).run
      [.header 0 true (.failure .failed), .written 0 true false]).sessions[0]? =
        some t ∧ t.gone = true := by
  have hs : ((started 11 7).run
      [testStart, .call 0 true (.disconnect .clientQuit)]).sessions[0]? =
      some { id := testNode, peer := 0, isOpen := false, dropped := true,
             reading := some .header, writeQueue := 2, writing := true } := by
    decide +kernel
  obtain ⟨t, ht, -, -, -, -, hgone, -⟩ := dropped_ends 11 7
    [testStart, .call 0 true (.disconnect .clientQuit)]
    [.header 0 true (.failure .failed), .written 0 true false] 0 _ hs rfl rfl
  have hend : (((started 11 7).run
      [testStart, .call 0 true (.disconnect .clientQuit)]).run
      [.header 0 true (.failure .failed), .written 0 true false]).sessions[0]? =
      some { id := testNode, peer := 0, isOpen := false, dropped := true,
             writeQueue := 2, gone := true } := by decide +kernel
  obtain rfl := Option.some.inj (ht.symm.trans hend)
  exact ⟨_, ht, hgone rfl rfl⟩

end Ends

end SessionHost

end Web3Core
