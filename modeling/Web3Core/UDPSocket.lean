/-
`UDPSocket` of `UDP.h`: datagrams are queued and written one after the other.
Handlers of operations run when the operation completes, which after a close may
be late.  A call of `send` looks whether the socket is open before it gets the
lock of the queue, so that between the two anything may happen.
-/
import Mathlib.Data.List.Infix

namespace Web3Core

variable {δ : Type}

/-- `UDPSocket`.  The operations that have not completed are `writes`, each with
its datagram, and so many `reads`; `sending` are the calls of `send` on their way
to the lock.  The datagrams that were queued since the socket was opened, those
of them that were given to the network, what was received and the calls of
`onDisconnected` are recorded. -/
structure UDPSocket (δ : Type) where
  started : Bool := false
  closed : Bool := true
  isOpen : Bool := false
  socketError : Bool := false
  sendQ : List δ := []
  writes : List δ := []
  reads : Nat := 0
  sending : List δ := []
  queued : List δ := []
  written : List δ := []
  received : List δ := []
  disconnections : Nat := 0

/-- What happens to the socket.  A call of `connect` may find that the socket can
be opened, and that its endpoint or else any address with its port can be bound;
an operation completes with an error or without; a read that completes may have
got a datagram. -/
inductive UDPEvent (δ : Type) where
  | connect (opens binds bindsAny : Bool)
  | send (datagram : δ)
  | lock (n : Nat)
  | writeDone (n : Nat) (error : Bool)
  | readDone (datagram : Option δ) (error : Bool)
  | disconnect

namespace UDPSocket

variable (s : UDPSocket δ)

def doRead : UDPSocket δ :=
  if s.closed then s else { s with reads := s.reads + 1 }

def doWrite : UDPSocket δ :=
  if s.closed then s
  else
    match s.sendQ with
    | [] => s
    | datagram :: _ =>
        { s with writes := s.writes ++ [datagram],
                 written := s.written ++ [datagram] }

/-- `connect`, which throws where nothing can be opened or bound; the socket is
left as it is then. -/
def connect (opens binds bindsAny : Bool) : UDPSocket δ :=
  if s.started then s
  else
    let s := { s with started := true }
    if !opens then s
    else
      let s := { s with isOpen := true }
      if !binds && !bindsAny then s
      else
        -- clear write queue so reconnect doesn't send stale messages
        let s := { s with sendQ := [], queued := [], written := [] }
        { s with closed := false }.doRead

def disconnectWithError (error : Bool) : UDPSocket δ :=
  if !s.started && s.closed && !s.isOpen then s
  -- disconnect-operation following prior non-zero errors are ignored
  else if s.socketError then s
  else
    let s := { s with socketError := error }
    if !s.started then s
    else
      let wasClosed := s.closed
      let s := { s with started := false, closed := true, isOpen := false }
      if wasClosed then s
      else { s with disconnections := s.disconnections + 1 }

/-- `send` up to the lock. -/
def send (datagram : δ) : UDPSocket δ :=
  if s.closed then s else { s with sending := s.sending ++ [datagram] }

/-- A call of `send` gets the lock. -/
def push (datagram : δ) : UDPSocket δ :=
  let s := { s with sendQ := s.sendQ ++ [datagram],
                    queued := s.queued ++ [datagram] }
  if s.sendQ.length = 1 then s.doWrite else s

/-- The handler of a write.  Of an empty queue there is no front to pop. -/
def onWritten (error : Bool) : Option (UDPSocket δ) :=
  if s.closed then some (s.disconnectWithError error)
  else
    match s.sendQ with
    | [] => none
    | _ :: rest =>
        let s := { s with sendQ := rest }
        some (if s.sendQ.isEmpty then s else s.doWrite)

/-- The handler of a read. -/
def onRead (datagram : Option δ) (error : Bool) : UDPSocket δ :=
  if s.closed then s.disconnectWithError error
  else { s with received := s.received ++ datagram.toList }.doRead

def step : UDPEvent δ → Option (UDPSocket δ)
  | .connect opens binds bindsAny => some (s.connect opens binds bindsAny)
  | .send datagram => some (s.send datagram)
  | .lock n =>
      match s.sending[n]? with
      | none => some s
      | some datagram =>
          some ({ s with sending := s.sending.eraseIdx n }.push datagram)
  | .writeDone n error =>
      match s.writes[n]? with
      | none => some s
      | some _ => { s with writes := s.writes.eraseIdx n }.onWritten error
  | .readDone datagram error =>
      match s.reads with
      | 0 => some s
      | reads + 1 => some ({ s with reads }.onRead datagram error)
  | .disconnect => some (s.disconnectWithError true)

def run (events : List (UDPEvent δ)) : Option (UDPSocket δ) :=
  events.foldlM step {}

/-- Every operation has completed. -/
def Quiet : Prop := s.writes = [] ∧ s.reads = 0

instance : Decidable s.Quiet := inferInstanceAs (Decidable (_ ∧ _))

/-- A closed socket is connected only once every operation of the connection
before has completed. -/
def Allows : UDPEvent δ → Prop
  | .connect _ _ _ => s.started = true ∨ s.Quiet
  | _ => True

def Orderly : UDPSocket δ → List (UDPEvent δ) → Prop
  | _, [] => True
  | s, event :: events =>
      s.Allows event ∧ ∀ t ∈ s.step event, Orderly t events

instance : DecidablePred s.Allows
  | .connect _ _ _ => inferInstanceAs (Decidable (_ ∨ _))
  | .send _ | .lock _ | .writeDone _ _ | .readDone _ _ | .disconnect =>
      inferInstanceAs (Decidable True)

instance decidableOrderly : (s : UDPSocket δ) → (events : List (UDPEvent δ)) →
    Decidable (s.Orderly events)
  | _, [] => inferInstanceAs (Decidable True)
  | _, _ :: events =>
      have := fun t : UDPSocket δ => decidableOrderly t events
      inferInstanceAs (Decidable (_ ∧ _))

end UDPSocket

namespace UDPSocket

variable {s t : UDPSocket δ}

/-- What opening and closing keeps of the flags.  A socket that is started may be
closed: its `connect` has thrown.  Only after a disconnection operations of a
closed socket are under way. -/
structure Flags (s : UDPSocket δ) : Prop where
  up : s.closed = false → s.started = true ∧ s.isOpen = true
  down : s.started = false → s.isOpen = false
  quiet : s.closed = true → s.socketError = false → s.Quiet

/-- While the socket is open, the datagram at the front is being written, and
those that have left the queue were written before it; at no time is more than
one operation of a kind under way. -/
structure Inv (s : UDPSocket δ) : Prop extends Flags s where
  front : s.closed = false → s.writes = s.sendQ.take 1 ∧ s.reads = 1 ∧
    ∃ done, s.queued = done ++ s.sendQ ∧ s.written = done ++ s.sendQ.take 1
  single : s.writes.length ≤ 1 ∧ s.reads ≤ 1
  order : s.written <+: s.queued

theorem Flags.closed (h : Flags s) (hstarted : s.started = false) :
    s.closed = true := by
  by_contra hopen
  have := (h.up (by simpa using hopen)).1
  rw [hstarted] at this
  cases this

/-- A socket keeps the first error, and with it all later ones are ignored. -/
theorem disconnectWithError_of_error (herror : s.socketError = true)
    (error : Bool) : s.disconnectWithError error = s := by
  simp [disconnectWithError, herror]

theorem onWritten_of_error (hclosed : s.closed = true)
    (herror : s.socketError = true) (error : Bool) :
    s.onWritten error = some s := by
  rw [onWritten, if_pos hclosed, disconnectWithError_of_error herror]

theorem onRead_of_error (hclosed : s.closed = true)
    (herror : s.socketError = true) (datagram : Option δ) (error : Bool) :
    s.onRead datagram error = s := by
  rw [onRead, if_pos hclosed, disconnectWithError_of_error herror]

theorem disconnectWithError_true (h : Flags s) :
    s.disconnectWithError true =
      if s.started = true ∧ s.socketError = false then
        { s with socketError := true, started := false, closed := true,
                 isOpen := false,
                 disconnections := if s.closed then s.disconnections
                   else s.disconnections + 1 }
      else s := by
  cases hstarted : s.started with
  | false =>
      simp [disconnectWithError, hstarted, h.closed hstarted, h.down hstarted]
  | true =>
      cases herror : s.socketError with
      | true => simp [disconnectWithError, herror]
      | false =>
          cases hclosed : s.closed <;>
            simp [disconnectWithError, hstarted, herror, hclosed]

/-- A socket that is not started is started, and opened unless `connect`
throws. -/
theorem connect_cases (s : UDPSocket δ) (opens binds bindsAny : Bool) :
    s.started = true ∧ s.connect opens binds bindsAny = s ∨
    s.started = false ∧ (∃ isOpen, s.connect opens binds bindsAny =
      { s with started := true, isOpen }) ∨
    s.started = false ∧ s.connect opens binds bindsAny = { s with
      started := true, isOpen := true, sendQ := [], queued := [],
      written := [], closed := false, reads := s.reads + 1 } := by
  rw [connect]
  cases hstarted : s.started with
  | true => exact .inl ⟨rfl, rfl⟩
  | false =>
      cases opens with
      | false => exact .inr (.inl ⟨rfl, _, rfl⟩)
      | true =>
          cases hbound : !binds && !bindsAny with
          | true => exact .inr (.inl ⟨rfl, true, by simp⟩)
          | false => exact .inr (.inr ⟨rfl, by simp [doRead]⟩)

/-- The life of a socket: what opening and closing it changes. -/
def life (s : UDPSocket δ) : Bool × Bool × Bool × Bool × Nat :=
  (s.started, s.closed, s.isOpen, s.socketError, s.disconnections)

theorem life_doWrite (s : UDPSocket δ) : s.doWrite.life = s.life := by
  rw [doWrite]
  split
  · rfl
  · split <;> rfl

theorem life_push (s : UDPSocket δ) (datagram : δ) :
    (s.push datagram).life = s.life := by
  simp only [push]
  split
  · exact life_doWrite _
  · rfl

/-- The handler of a write of an open socket leaves it open. -/
theorem life_onWritten (hopen : s.closed = false) {error : Bool}
    (hdone : s.onWritten error = some t) : t.life = s.life := by
  rw [onWritten, if_neg (by simp [hopen])] at hdone
  cases hq : s.sendQ with
  | nil => simp [hq] at hdone
  | cons first rest =>
      simp only [hq, Option.some.injEq] at hdone
      rw [← hdone]
      split
      · rfl
      · exact life_doWrite _

theorem life_onRead (hopen : s.closed = false) (datagram : Option δ)
    (error : Bool) : (s.onRead datagram error).life = s.life := by
  simp [onRead, doRead, hopen, life]

/-- What an event can do to the life of a socket. -/
inductive Lives (s t : UDPSocket δ) : Prop where
  | same (hlife : t.life = s.life)
  | connects (hstarted : s.started = false)
      (herror : t.socketError = s.socketError)
      (hcount : t.disconnections = s.disconnections)
  | disconnects (herror : s.socketError = false) (herror' : t.socketError = true)
      (hcount : t.disconnections = if s.closed then s.disconnections
        else s.disconnections + 1)

theorem Flags.of_life (h : Flags s) (hlife : t.life = s.life)
    (hquiet : s.closed = true → s.Quiet → t.Quiet) : Flags t ∧ Lives s t := by
  refine ⟨?_, .same hlife⟩
  simp only [life, Prod.mk.injEq] at hlife
  obtain ⟨hstarted, hclosed, hopen, herror, -⟩ := hlife
  refine ⟨fun hup => ?_, fun hdown => ?_, fun hshut hnone => ?_⟩
  · rw [hstarted, hopen]
    exact h.up (hclosed ▸ hup)
  · rw [hopen]
    exact h.down (hstarted ▸ hdown)
  · rw [hclosed] at hshut
    exact hquiet hshut (h.quiet hshut (herror ▸ hnone))

/-- The handler of an operation that completes behind a disconnection. -/
theorem Flags.error_of_closed (h : Flags s) (hclosed : s.closed = true)
    (hbusy : ¬ s.Quiet) : s.socketError = true := by
  by_contra herror
  exact hbusy (h.quiet hclosed (by simpa using herror))

theorem Flags.connect (h : Flags s) (opens binds bindsAny : Bool) :
    Flags (s.connect opens binds bindsAny) ∧
      Lives s (s.connect opens binds bindsAny) := by
  rcases connect_cases s opens binds bindsAny with
    ⟨-, heq⟩ | ⟨hstarted, isOpen, heq⟩ | ⟨hstarted, heq⟩
  · rw [heq]
    exact ⟨h, .same rfl⟩
  · rw [heq]
    have hclosed := h.closed hstarted
    refine ⟨⟨fun hup => ?_, fun hdown => ?_, h.quiet⟩,
      .connects hstarted rfl rfl⟩
    · simp [hclosed] at hup
    · simp at hdown
  · rw [heq]
    refine ⟨⟨fun _ => ⟨rfl, rfl⟩, fun hdown => ?_, fun hshut => ?_⟩,
      .connects hstarted rfl rfl⟩
    · simp at hdown
    · simp at hshut

theorem Flags.push (h : Flags s) (datagram : δ) :
    Flags (s.push datagram) ∧ Lives s (s.push datagram) := by
  refine h.of_life (life_push s datagram) fun hclosed hquiet => ?_
  have hpush : s.push datagram = { s with
      sendQ := s.sendQ ++ [datagram], queued := s.queued ++ [datagram] } := by
    simp [UDPSocket.push, doWrite, hclosed]
  rw [hpush]
  exact hquiet

theorem Flags.writeDone (h : Flags s) {n : Nat} {error : Bool}
    (hstep : s.step (.writeDone n error) = some t) : Flags t ∧ Lives s t := by
  cases hn : s.writes[n]? with
  | none =>
      simp only [UDPSocket.step, hn, Option.some.injEq] at hstep
      exact hstep ▸ ⟨h, .same rfl⟩
  | some datagram =>
      have hbusy : ¬ s.Quiet := by
        rintro ⟨hwrites, -⟩
        simp [hwrites] at hn
      simp only [UDPSocket.step, hn] at hstep
      cases hclosed : s.closed with
      | true =>
          have herror := h.error_of_closed hclosed hbusy
          rw [onWritten_of_error (s := { s with
            writes := s.writes.eraseIdx n }) hclosed herror,
            Option.some.injEq] at hstep
          rw [← hstep]
          exact h.of_life rfl fun _ hquiet => absurd hquiet hbusy
      | false =>
          exact h.of_life (life_onWritten (s := { s with
            writes := s.writes.eraseIdx n }) hclosed hstep)
              fun hshut => by simp [hclosed] at hshut

theorem Flags.readDone (h : Flags s) {datagram : Option δ} {error : Bool}
    (hstep : s.step (.readDone datagram error) = some t) :
    Flags t ∧ Lives s t := by
  cases hn : s.reads with
  | zero =>
      simp only [UDPSocket.step, hn, Option.some.injEq] at hstep
      exact hstep ▸ ⟨h, .same rfl⟩
  | succ reads =>
      have hbusy : ¬ s.Quiet := by
        rintro ⟨-, hreads⟩
        rw [hn] at hreads
        cases hreads
      simp only [UDPSocket.step, hn, Option.some.injEq] at hstep
      cases hclosed : s.closed with
      | true =>
          have herror := h.error_of_closed hclosed hbusy
          rw [onRead_of_error (s := { s with reads }) hclosed herror] at hstep
          rw [← hstep]
          exact h.of_life rfl fun _ hquiet => absurd hquiet hbusy
      | false =>
          rw [← hstep]
          exact h.of_life (life_onRead (s := { s with reads }) hclosed _ _)
            fun hshut => by simp [hclosed] at hshut

theorem Flags.disconnect (h : Flags s) :
    Flags (s.disconnectWithError true) ∧
      Lives s (s.disconnectWithError true) := by
  rw [disconnectWithError_true h]
  split
  · rename_i hcond
    refine ⟨⟨fun hup => ?_, fun _ => rfl, fun _ hnone => ?_⟩,
      .disconnects hcond.2 rfl rfl⟩
    · simp at hup
    · simp at hnone
  · exact ⟨h, .same rfl⟩

/-- What an event does to the flags. -/
theorem Flags.step (h : Flags s) {event : UDPEvent δ}
    (hstep : s.step event = some t) : Flags t ∧ Lives s t := by
  cases event with
  | connect opens binds bindsAny =>
      cases hstep
      exact h.connect opens binds bindsAny
  | send datagram =>
      cases hstep
      rw [send]
      split
      · exact ⟨h, .same rfl⟩
      · exact h.of_life rfl fun _ hquiet => hquiet
  | lock n =>
      simp only [UDPSocket.step] at hstep
      cases hn : s.sending[n]? with
      | none =>
          simp only [hn, Option.some.injEq] at hstep
          exact hstep ▸ ⟨h, .same rfl⟩
      | some datagram =>
          simp only [hn, Option.some.injEq] at hstep
          rw [← hstep]
          have hless : Flags { s with sending := s.sending.eraseIdx n } :=
            ⟨h.up, h.down, h.quiet⟩
          obtain ⟨hflags, -⟩ := hless.push datagram
          exact ⟨hflags, .same (life_push _ _)⟩
  | writeDone n error => exact h.writeDone hstep
  | readDone datagram error => exact h.readDone hstep
  | disconnect =>
      cases hstep
      exact h.disconnect

theorem Inv.connect (h : Inv s) {opens binds bindsAny : Bool}
    (hallows : s.Allows (.connect opens binds bindsAny)) :
    Inv (s.connect opens binds bindsAny) := by
  obtain ⟨hflags, -⟩ := h.toFlags.connect opens binds bindsAny
  rcases connect_cases s opens binds bindsAny with
    ⟨-, heq⟩ | ⟨hstarted, isOpen, heq⟩ | ⟨hstarted, heq⟩
  · rw [heq]
    exact h
  · rw [heq] at hflags ⊢
    exact ⟨hflags, h.front, h.single, h.order⟩
  · obtain ⟨hwrites, hreads⟩ := hallows.resolve_left (by simp [hstarted])
    rw [heq] at hflags ⊢
    refine ⟨hflags, fun _ => ⟨hwrites, ?_, [], rfl, rfl⟩, ?_, List.prefix_rfl⟩
    · rw [hreads]
    · simp [hreads, hwrites]

theorem Inv.push (h : Inv s) (datagram : δ) : Inv (s.push datagram) := by
  have hprefix : s.written <+: s.queued ++ [datagram] :=
    h.order.trans (List.prefix_append _ _)
  obtain ⟨hflags, -⟩ := h.toFlags.push datagram
  cases hclosed : s.closed with
  | true =>
      have hpush : s.push datagram = { s with
          sendQ := s.sendQ ++ [datagram], queued := s.queued ++ [datagram] } := by
        simp [UDPSocket.push, doWrite, hclosed]
      rw [hpush] at hflags ⊢
      exact ⟨hflags, fun hopen => by simp [hclosed] at hopen, h.single, hprefix⟩
  | false =>
      obtain ⟨hwrites, hreads, done, hqueued, hwritten⟩ := h.front hclosed
      cases hq : s.sendQ with
      | nil =>
          rw [hq, List.append_nil] at hqueued
          rw [hq, List.take_nil, List.append_nil] at hwritten
          rw [hq, List.take_nil] at hwrites
          have hpush : s.push datagram = { s with
              sendQ := [datagram], queued := s.queued ++ [datagram],
              writes := [datagram], written := s.written ++ [datagram] } := by
            simp [UDPSocket.push, doWrite, hclosed, hq, hwrites]
          rw [hpush] at hflags ⊢
          refine ⟨hflags, fun _ => ⟨rfl, hreads, done, ?_, ?_⟩,
            ⟨le_rfl, h.single.2⟩, ?_⟩
          · rw [hqueued]
          · rw [hwritten]
            rfl
          · rw [hqueued, hwritten]
      | cons first rest =>
          have hpush : s.push datagram = { s with
              sendQ := s.sendQ ++ [datagram],
              queued := s.queued ++ [datagram] } := by
            simp [UDPSocket.push, hq]
          rw [hpush] at hflags ⊢
          refine ⟨hflags, fun _ => ⟨?_, hreads, done, ?_, ?_⟩, h.single, hprefix⟩
          · rw [hwrites, hq]
            rfl
          · rw [hqueued, List.append_assoc]
          · rw [hwritten, hq]
            rfl

/-- A write completes. -/
theorem Inv.writeDone (h : Inv s) (n : Nat) (error : Bool) :
    ∃ t, s.step (.writeDone n error) = some t ∧ Inv t := by
  cases hn : s.writes[n]? with
  | none => exact ⟨s, by simp only [UDPSocket.step, hn], h⟩
  | some datagram =>
      obtain ⟨hlt, -⟩ := List.getElem?_eq_some_iff.1 hn
      have hsingle := h.single.1
      obtain rfl : n = 0 := by omega
      obtain ⟨d, hwrites⟩ := List.length_eq_one_iff.1
        (show s.writes.length = 1 by omega)
      have hstep : s.step (.writeDone 0 error) =
          { s with writes := [] }.onWritten error := by
        simp [UDPSocket.step, hwrites]
      cases hclosed : s.closed with
      | true =>
          have herror := h.error_of_closed hclosed fun hquiet => by
            simp [Quiet, hwrites] at hquiet
          rw [onWritten_of_error (s := { s with writes := [] }) hclosed
            herror] at hstep
          exact ⟨_, hstep, (h.toFlags.step hstep).1,
            fun hopen => by simp [hclosed] at hopen,
            ⟨Nat.zero_le 1, h.single.2⟩, h.order⟩
      | false =>
          obtain ⟨hfront, hreads, done, hqueued, hwritten⟩ := h.front hclosed
          cases hq : s.sendQ with
          | nil =>
              rw [hq, hwrites] at hfront
              cases hfront
          | cons first rest =>
              rw [hq] at hqueued
              have hstart : s.written = done ++ [first] := by
                rw [hwritten, hq]
                rfl
              cases rest with
              | nil =>
                  have hnext : s.step (.writeDone 0 error) =
                      some { s with writes := [], sendQ := [] } := by
                    simp [hstep, onWritten, hclosed, hq]
                  refine ⟨_, hnext, (h.toFlags.step hnext).1,
                    fun _ => ⟨rfl, hreads, done ++ [first], ?_, ?_⟩,
                    ⟨Nat.zero_le 1, h.single.2⟩, h.order⟩
                  · rw [hqueued, List.append_nil]
                  · rw [hstart, List.take_nil, List.append_nil]
              | cons next rest =>
                  have hnext : s.step (.writeDone 0 error) =
                      some { s with writes := [next], sendQ := next :: rest,
                                    written := s.written ++ [next] } := by
                    simp [hstep, onWritten, doWrite, hclosed, hq]
                  refine ⟨_, hnext, (h.toFlags.step hnext).1,
                    fun _ => ⟨rfl, hreads, done ++ [first], ?_, ?_⟩,
                    ⟨le_rfl, h.single.2⟩, rest, ?_⟩
                  · rw [hqueued]
                    simp
                  · rw [hstart]
                    rfl
                  · rw [hstart, hqueued]
                    simp

/-- A read completes. -/
theorem Inv.readDone (h : Inv s) (datagram : Option δ) (error : Bool) :
    ∃ t, s.step (.readDone datagram error) = some t ∧ Inv t := by
  cases hreads : s.reads with
  | zero => exact ⟨s, by simp only [UDPSocket.step, hreads], h⟩
  | succ reads =>
      have hsingle := h.single
      rw [hreads] at hsingle
      have hstep : s.step (.readDone datagram error) =
          some ({ s with reads }.onRead datagram error) := by
        simp only [UDPSocket.step, hreads]
      cases hclosed : s.closed with
      | true =>
          have herror := h.error_of_closed hclosed fun hquiet => by
            simp [Quiet, hreads] at hquiet
          rw [onRead_of_error (s := { s with reads }) hclosed herror] at hstep
          exact ⟨_, hstep, (h.toFlags.step hstep).1,
            fun hopen => by simp [hclosed] at hopen,
            ⟨h.single.1, Nat.le_of_succ_le hsingle.2⟩, h.order⟩
      | false =>
          have hzero : reads = 0 := by omega
          obtain ⟨hfront, -, hqueue⟩ := h.front hclosed
          have hnext : s.step (.readDone datagram error) = some { s with
              received := s.received ++ datagram.toList, reads := 1 } := by
            simp [hstep, onRead, doRead, hclosed, hzero]
          exact ⟨_, hnext, (h.toFlags.step hnext).1,
            fun _ => ⟨hfront, rfl, hqueue⟩, ⟨h.single.1, le_rfl⟩, h.order⟩

theorem Inv.disconnect (h : Inv s) : Inv (s.disconnectWithError true) := by
  obtain ⟨hflags, -⟩ := h.toFlags.disconnect
  rw [disconnectWithError_true h.toFlags] at hflags ⊢
  split at hflags
  · rename_i hcond
    rw [if_pos hcond]
    exact ⟨hflags, fun hopen => by simp at hopen, h.single, h.order⟩
  · rename_i hcond
    rw [if_neg hcond]
    exact h

/-- Every event that is allowed keeps the invariant. -/
theorem Inv.exists_step (h : Inv s) {event : UDPEvent δ}
    (hallows : s.Allows event) : ∃ t, s.step event = some t ∧ Inv t := by
  cases event with
  | connect opens binds bindsAny => exact ⟨_, rfl, h.connect hallows⟩
  | send datagram =>
      refine ⟨_, rfl, ?_⟩
      rw [send]
      split
      · exact h
      · exact ⟨⟨h.up, h.down, h.quiet⟩, h.front, h.single, h.order⟩
  | lock n =>
      simp only [UDPSocket.step]
      cases s.sending[n]? with
      | none => exact ⟨s, rfl, h⟩
      | some datagram =>
          have hnext : Inv { s with sending := s.sending.eraseIdx n } :=
            ⟨⟨h.up, h.down, h.quiet⟩, h.front, h.single, h.order⟩
          exact ⟨_, rfl, hnext.push datagram⟩
  | writeDone n error => exact h.writeDone n error
  | readDone datagram error => exact h.readDone datagram error
  | disconnect => exact ⟨_, rfl, h.disconnect⟩

theorem flags_start : Flags ({} : UDPSocket δ) :=
  ⟨fun h => Bool.noConfusion h, fun _ => rfl, fun _ _ => ⟨rfl, rfl⟩⟩

theorem inv_start : Inv ({} : UDPSocket δ) :=
  ⟨flags_start, fun h => Bool.noConfusion h, ⟨Nat.zero_le 1, Nat.zero_le 1⟩,
    List.prefix_rfl⟩

theorem Inv.exists_foldlM (h : Inv s) {events : List (UDPEvent δ)}
    (horderly : s.Orderly events) :
    ∃ t, events.foldlM step s = some t ∧ Inv t := by
  induction events generalizing s with
  | nil => exact ⟨s, rfl, h⟩
  | cons event events ih =>
      obtain ⟨t, hstep, ht⟩ := h.exists_step horderly.1
      obtain ⟨last, hrun, hlast⟩ := ih ht (horderly.2 t hstep)
      exact ⟨last, by rw [List.foldlM_cons, hstep]; exact hrun, hlast⟩

/-- A socket that is connected again only after the operations of the connection
before have completed never pops an empty queue; it has at most one write and
one read under way; and the datagrams that are given to the network are those
that were queued, in this order and each of them once: while it is open and
nothing is being written, all of them. -/
theorem writes_in_order {events : List (UDPEvent δ)}
    (horderly : Orderly {} events) :
    ∃ s, run events = some s ∧ s.writes.length ≤ 1 ∧ s.reads ≤ 1 ∧
      s.written <+: s.queued ∧
      (s.closed = false → s.writes = [] → s.written = s.queued) := by
  obtain ⟨s, hrun, hs⟩ := inv_start.exists_foldlM horderly
  refine ⟨s, hrun, hs.single.1, hs.single.2, hs.order, fun hclosed hwrites => ?_⟩
  obtain ⟨hfront, -, done, hqueued, hwritten⟩ := hs.front hclosed
  have hempty : s.sendQ = [] := by
    rw [hwrites] at hfront
    cases hq : s.sendQ with
    | nil => rfl
    | cons first rest =>
        rw [hq] at hfront
        cases hfront
  rw [hqueued, hwritten, hempty, List.take_nil]

/-- Three calls of `send` are on their way to the lock, one of which gets it
after the socket was closed and connected again, where its own endpoint could not
be bound. -/
theorem writes_in_order_reconnected :
    ∃ s, run [.connect true true true, .send 1, .send 2, .send 3, .lock 1,
        .lock 0, .writeDone 0 false, .disconnect, .writeDone 0 true,
        .readDone none true, .connect true false true, .lock 0, .send 4, .lock 0,
        .writeDone 0 false] = some s ∧
      s.written <+: s.queued ∧ s.queued = [3, 4] := by
  obtain ⟨s, hrun, -, -, hprefix, -⟩ := @writes_in_order Nat
    [.connect true true true, .send 1, .send 2, .send 3, .lock 1, .lock 0,
      .writeDone 0 false, .disconnect, .writeDone 0 true, .readDone none true,
      .connect true false true, .lock 0, .send 4, .lock 0, .writeDone 0 false]
    (by decide)
  refine ⟨s, hrun, hprefix, ?_⟩
  cases hrun
  decide

/-- It has to be so: the handler of a write of the connection before pops the
new queue, which is empty. -/
theorem step_connect_of_write (hstarted : s.started = false) {n : Nat}
    (hn : n < s.writes.length) (bindsAny error : Bool) :
    (s.connect true true bindsAny).step (.writeDone n error) = none := by
  have hconnect : s.connect true true bindsAny = { s with
      started := true, isOpen := true, sendQ := [], queued := [], written := [],
      closed := false, reads := s.reads + 1 } := by
    simp [connect, doRead, hstarted]
  rw [hconnect]
  simp [step, onWritten, List.getElem?_eq_getElem hn]

/-- The socket keeps the error that it was closed with. -/
structure Disconnected (s : UDPSocket δ) : Prop extends Flags s where
  error : s.disconnections ≠ 0 → s.socketError = true
  once : s.disconnections ≤ 1

/-- What a socket that has an error keeps: the error, the number of
disconnections and, if it is open, that it is open. -/
def Keeps (s t : UDPSocket δ) : Prop :=
  s.socketError = true → t.socketError = true ∧
    t.disconnections = s.disconnections ∧ (s.closed = false → t.closed = false)

/-- What an event does to the life of the socket. -/
theorem Disconnected.step (h : Disconnected s) {event : UDPEvent δ}
    (hstep : s.step event = some t) : Disconnected t ∧ Keeps s t := by
  obtain ⟨hflags, hlives⟩ := h.toFlags.step hstep
  cases hlives with
  | same hlife =>
      simp only [life, Prod.mk.injEq] at hlife
      obtain ⟨-, hclosed, -, herror, hcount⟩ := hlife
      refine ⟨⟨hflags, ?_, ?_⟩, ?_⟩
      · rw [herror, hcount]
        exact h.error
      · rw [hcount]
        exact h.once
      · rw [Keeps, herror, hcount, hclosed]
        exact fun hkept => ⟨hkept, rfl, id⟩
  | connects hstarted herror hcount =>
      refine ⟨⟨hflags, ?_, ?_⟩, ?_⟩
      · rw [herror, hcount]
        exact h.error
      · rw [hcount]
        exact h.once
      · rw [Keeps, herror, hcount, h.closed hstarted]
        exact fun hkept => ⟨hkept, rfl, fun hopen => by simp at hopen⟩
  | disconnects herror herror' hcount =>
      have hzero : s.disconnections = 0 := by
        by_contra hne
        have := h.error hne
        rw [herror] at this
        cases this
      refine ⟨⟨hflags, fun _ => herror', ?_⟩, fun hkept => ?_⟩
      · rw [hcount, hzero]
        split <;> omega
      · rw [herror] at hkept
        cases hkept

/-- What a run does to it. -/
theorem Disconnected.foldlM (h : Disconnected s) {events : List (UDPEvent δ)}
    (hrun : events.foldlM UDPSocket.step s = some t) :
    Disconnected t ∧ Keeps s t := by
  induction events generalizing s with
  | nil =>
      cases hrun
      exact ⟨h, fun hkept => ⟨hkept, rfl, id⟩⟩
  | cons event events ih =>
      rw [List.foldlM_cons] at hrun
      cases hstep : s.step event with
      | none => simp [hstep] at hrun
      | some next =>
          obtain ⟨hnext, hkeeps⟩ := h.step hstep
          obtain ⟨hlast, hrest⟩ := ih hnext (by simpa [hstep] using hrun)
          refine ⟨hlast, fun hkept => ?_⟩
          obtain ⟨herror, hcount, hopen⟩ := hkeeps hkept
          obtain ⟨herror', hcount', hopen'⟩ := hrest herror
          exact ⟨herror', hcount'.trans hcount, fun h => hopen' (hopen h)⟩

/-- Whatever happens to a socket, `onDisconnected` is called once at most, and
then the socket has an error.  For the error of the first disconnection is kept,
be it of a socket that was open or of one whose `connect` has thrown: a socket
with an error that is open can never be closed any more. -/
theorem disconnected_once {events later : List (UDPEvent δ)}
    (hs : run events = some s) (ht : run (events ++ later) = some t) :
    s.disconnections ≤ 1 ∧ (s.disconnections = 1 → s.socketError = true) ∧
      (s.socketError = true → s.closed = false →
        t.disconnections = s.disconnections ∧ t.closed = false) := by
  have hstart : Disconnected ({} : UDPSocket δ) :=
    ⟨flags_start, fun hne => absurd rfl hne, Nat.zero_le 1⟩
  obtain ⟨hlast, -⟩ := hstart.foldlM hs
  rw [run, List.foldlM_append, show events.foldlM step {} = some s from hs] at ht
  refine ⟨hlast.once, fun hone => hlast.error (by omega), fun herror hopen => ?_⟩
  obtain ⟨-, hcount, hkept⟩ := (hlast.foldlM ht).2 herror
  exact ⟨hcount, hkept hopen⟩

/-- The first connection is given up since nothing could be bound; the second
one can never be closed, and `onDisconnected` is never called. -/
theorem disconnected_once_again :
    ∃ t : UDPSocket Nat, run ([.connect true false false, .disconnect,
        .connect true true true] ++ [.send 1, .lock 0, .disconnect,
          .readDone none true, .disconnect]) = some t ∧
      t.disconnections = 0 ∧ t.closed = false := by
  obtain ⟨t, ht⟩ : ∃ t : UDPSocket Nat, run ([.connect true false false,
      .disconnect, .connect true true true] ++ [.send 1, .lock 0, .disconnect,
        .readDone none true, .disconnect]) = some t := ⟨_, rfl⟩
  obtain ⟨-, -, hkept⟩ := disconnected_once rfl ht
  exact ⟨t, ht, hkept rfl rfl⟩

end UDPSocket

end Web3Core
