/-
What `mux` makes of the packets that are enqueued, over any calls with any
sizes: the frames of one queue carry its packets, each byte once and in order.
Several packets share a frame without a number, or a packet is spread over
frames of one number.
-/
import Web3Core.MuxCalls
import Web3Core.RLPXDelivery

namespace Web3Core

open RLPXPacket (wires)

namespace WriterState

/-- The packet that was begun, how many bytes of it were written, and its
number. -/
def begun (qs : WriterState) : Option (RLPXPacket × Nat × UInt16) :=
  if qs.writing then
    qs.q.head?.map fun p => (p, p.wire.length - qs.remaining, qs.sequence)
  else none

/-- The bytes that were not written, as `writing` and `remaining` tell. -/
def unsent (qs : WriterState) : Bytes :=
  if qs.writing then
    match qs.q with
    | [] => []
    | p :: rest => p.data.drop (p.data.length - qs.remaining) ++ wires rest
  else wires qs.q

end WriterState

open RLPXFrameWriter WriterState

/-- How frames carry packets, up to those that were carried whole and one that
was begun. -/
inductive Framing (protocolType : UInt16) :
    List RLPXFrame → List RLPXPacket → Option (RLPXPacket × Nat × UInt16) →
      Prop where
  | nil : Framing protocolType [] [] none
  | whole {fs : List RLPXFrame} {done ps : List RLPXPacket}
      (h : Framing protocolType fs done none) (hne : ps ≠ []) :
      Framing protocolType (fs ++ [.single protocolType (wires ps)])
        (done ++ ps) none
  | first {fs : List RLPXFrame} {done : List RLPXPacket} {p : RLPXPacket}
      {n : Nat} {sequence : UInt16} {total : UInt32}
      (h : Framing protocolType fs done none) (hpos : 0 < n)
      (hlt : n < p.wire.length) (htotal : total.toNat = p.wire.length) :
      Framing protocolType
        (fs ++ [.first protocolType sequence total (p.wire.take n)]) done
        (some (p, n, sequence))
  | middle {fs : List RLPXFrame} {done : List RLPXPacket} {p : RLPXPacket}
      {n k : Nat} {sequence : UInt16}
      (h : Framing protocolType fs done (some (p, n, sequence))) (hpos : 0 < k)
      (hlt : n + k < p.wire.length) :
      Framing protocolType
        (fs ++ [.next protocolType sequence ((p.wire.drop n).take k)]) done
        (some (p, n + k, sequence))
  | last {fs : List RLPXFrame} {done : List RLPXPacket} {p : RLPXPacket}
      {n : Nat} {sequence : UInt16}
      (h : Framing protocolType fs done (some (p, n, sequence)))
      (hlt : n < p.wire.length) :
      Framing protocolType
        (fs ++ [.next protocolType sequence (p.wire.drop n)]) (done ++ [p]) none

namespace Framing

variable {protocolType : UInt16} {fs : List RLPXFrame} {done : List RLPXPacket}

def payloads (fs : List RLPXFrame) : Bytes := fs.flatMap RLPXFrame.payload

/-- The bytes of a packet that was begun. -/
def part : Option (RLPXPacket × Nat × UInt16) → Bytes
  | none => []
  | some (p, n, _) => p.wire.take n

theorem wires_append (ps qs : List RLPXPacket) :
    wires (ps ++ qs) = wires ps ++ wires qs := List.flatMap_append

theorem payloads_append (fs gs : List RLPXFrame) :
    payloads (fs ++ gs) = payloads fs ++ payloads gs := List.flatMap_append

/-- The payloads are the packets, one after the other. -/
theorem payloads_eq {begun : Option (RLPXPacket × Nat × UInt16)}
    (h : Framing protocolType fs done begun) :
    payloads fs = wires done ++ part begun := by
  induction h with
  | nil => rfl
  | whole h hne ih =>
      rw [payloads_append, ih, wires_append]
      simp [payloads, part, RLPXFrame.payload]
  | first h hpos hlt htotal ih =>
      rw [payloads_append, ih]
      simp [payloads, part, RLPXFrame.payload]
  | @middle fs done p n k sequence h hpos hlt ih =>
      rw [payloads_append, ih]
      simp [payloads, part, RLPXFrame.payload, List.take_add]
  | @last fs done p n sequence h hlt ih =>
      rw [payloads_append, ih, wires_append]
      simp [payloads, part, RLPXFrame.payload, wires]

/-- What was written of the packets and what was not is all of them. -/
theorem payloads_unsent {qs : WriterState} (hok : qs.Ok)
    (h : Framing protocolType fs done qs.begun) :
    payloads fs ++ qs.unsent = wires (done ++ qs.q) := by
  rw [h.payloads_eq, wires_append, List.append_assoc]
  refine congrArg (wires done ++ ·) ?_
  cases hok with
  | idle sequence hq => rfl
  | @busy p rest r sequence hq hpos hlt =>
      have hoffset : p.wire.length - r = p.type.length + (p.data.length - r) := by
        rw [RLPXPacket.wire, List.length_append]
        omega
      have hcons : wires (p :: rest) = p.type ++ p.data ++ wires rest := rfl
      show p.wire.take (p.wire.length - r) ++
        (p.data.drop (p.data.length - r) ++ wires rest) = wires (p :: rest)
      rw [hoffset, RLPXPacket.wire, List.take_length_add_append, hcons,
        ← List.append_assoc, List.append_assoc p.type, List.take_append_drop]

/-- The next frame of a queue carries on with its packets. -/
theorem next {allot ret : Nat} {sid sid' : UInt16} {qs qs' : WriterState}
    {frame : RLPXFrame} (h : Framing protocolType fs done qs.begun)
    (hok : qs.Ok) (hmin : 16 ≤ allot)
    (hshort : ∀ p ∈ qs.q, p.size < 2 ^ 32)
    (hnext : NextFrame protocolType allot qs sid frame ret qs' sid') :
    Framing protocolType (fs ++ [frame]) (done ++ qs.q.take ret) qs'.begun ∧
      qs.q = qs.q.take ret ++ qs'.q := by
  cases hnext with
  | @whole q sequence sid k hpos hle hfit =>
      refine ⟨.whole h ?_, (List.take_append_drop _ _).symm⟩
      rw [← List.length_pos_iff, List.length_take]
      exact Nat.lt_min.2 ⟨hpos, hpos.trans_le hle⟩
  | @first p rest sequence sid hfit =>
      have hlength := (hok.packets p List.mem_cons_self).length_wire
      have hsize : p.size < 2 ^ 32 := hshort p List.mem_cons_self
      have htotal : (UInt32.ofNat p.size).toNat = p.wire.length := by
        rw [UInt32.toNat_ofNat_of_lt' hsize, hlength]
      have hn : p.wire.length - (p.size - allot) = allot := by omega
      refine ⟨?_, rfl⟩
      show Framing protocolType _ _
        (some (p, p.wire.length - (p.size - allot), sid + 1))
      rw [hn, List.take_zero, List.append_nil]
      exact .first h (by omega) (by omega) htotal
  | @middle p rest r sequence sid hr =>
      cases hok with
      | busy _ hq hpos hlt =>
          have hlength : p.wire.length = p.type.length + p.data.length :=
            List.length_append
          have hdrop := p.drop_wire hlt.le
          have hn : p.wire.length - (r - allot) =
              p.wire.length - r + allot := by omega
          refine ⟨?_, rfl⟩
          show Framing protocolType _ _
            (some (p, p.wire.length - (r - allot), sequence))
          rw [hn, ← hdrop, List.take_zero, List.append_nil]
          exact .middle h (by omega) (by omega)
  | @last p rest r sequence sid hr =>
      cases hok with
      | busy _ hq hpos hlt =>
          have hlength : p.wire.length = p.type.length + p.data.length :=
            List.length_append
          have hdrop := p.drop_wire hlt.le
          refine ⟨?_, rfl⟩
          rw [← hdrop]
          exact .last h (by omega)

end Framing

/-- The number of packets whose last byte is among the first `n`. -/
def completed : List RLPXPacket → Nat → Nat
  | [], _ => 0
  | p :: ps, n =>
      if p.wire.length ≤ n then 1 + completed ps (n - p.wire.length) else 0

theorem completed_eq {done q : List RLPXPacket} {n : Nat}
    (hnext : ∀ p ∈ q.head?, n < p.wire.length) :
    completed (done ++ q) ((wires done).length + n) = done.length := by
  induction done with
  | nil =>
      cases q with
      | nil => rfl
      | cons p rest =>
          have hlt := hnext p rfl
          simp [completed, wires, hlt]
  | cons p done ih =>
      have hlength : (wires (p :: done)).length =
          p.wire.length + (wires done).length := List.length_append
      rw [List.cons_append, completed, hlength, if_pos (by omega),
        Nat.add_assoc, Nat.add_sub_cancel_left, ih, List.length_cons,
        Nat.add_comm]

namespace Framing

variable {protocolType : UInt16} {fs : List RLPXFrame} {done : List RLPXPacket}

/-- The packets that were carried whole are those whose last byte was
written. -/
theorem completed_payloads {qs : WriterState} (hok : qs.Ok)
    (h : Framing protocolType fs done qs.begun) :
    completed (done ++ qs.q) (payloads fs).length = done.length := by
  rw [h.payloads_eq, List.length_append]
  refine completed_eq fun p hp => ?_
  cases hok with
  | idle sequence hq =>
      have hmem := List.mem_of_mem_head? hp
      have htype := (hq p hmem).type_pos
      show 0 < p.wire.length
      rw [RLPXPacket.wire, List.length_append]
      omega
  | @busy p' rest r sequence hq hpos hlt =>
      cases hp
      show (p.wire.take (p.wire.length - r)).length < p.wire.length
      rw [List.length_take, RLPXPacket.wire, List.length_append]
      omega

end Framing

/-- The numbers of the packets that were begun. -/
def numbers (fs : List RLPXFrame) : List UInt16 :=
  fs.filterMap fun
    | .first _ number _ _ => some number
    | _ => none

/-- The numbers from one on, modulo 2^16. -/
def numbersTo (n : Nat) : List UInt16 :=
  (List.range n).map fun i => UInt16.ofNat (i + 1)

theorem numbers_append (fs gs : List RLPXFrame) :
    numbers (fs ++ gs) = numbers fs ++ numbers gs := List.filterMap_append

/-- A frame has the next number, or none. -/
theorem WriterState.NextFrame.number {protocolType : UInt16} {allot ret n : Nat}
    {sid sid' : UInt16} {qs qs' : WriterState} {frame : RLPXFrame}
    (h : NextFrame protocolType allot qs sid frame ret qs' sid')
    (hsid : sid = UInt16.ofNat n) :
    ∃ k, numbersTo (n + k) = numbersTo n ++ numbers [frame] ∧
      sid' = UInt16.ofNat (n + k) := by
  have hnone : ∀ frame : RLPXFrame, numbers [frame] = [] →
      sid' = sid → ∃ k, numbersTo (n + k) = numbersTo n ++ numbers [frame] ∧
        sid' = UInt16.ofNat (n + k) := by
    intro frame hframe heq
    exact ⟨0, by rw [hframe, List.append_nil, Nat.add_zero], heq.trans hsid⟩
  cases h with
  | whole hpos hle hfit => exact hnone _ rfl rfl
  | first hfit =>
      have hnext : sid + 1 = UInt16.ofNat (n + 1) := by
        rw [hsid, UInt16.ofNat_add]
        rfl
      refine ⟨1, ?_, hnext⟩
      rw [hnext, numbersTo, List.range_succ, List.map_append]
      rfl
  | middle hr => exact hnone _ rfl rfl
  | last hr => exact hnone _ rfl rfl

namespace RLPXFrameWriter

/-- The frames that were served from a queue. -/
def Muxed.served (m : Muxed) (high : Bool) : List RLPXFrame :=
  ((m.rounds.zip m.frames).filter fun r =>
    r.1.writer.takesHigh r.1.swapQueues = high).map Prod.snd

/-- A call; one of `enque` with a stream that throws changes nothing. -/
def Muxed.call (crypto : Crypto) (m : Muxed) :
    WriterEvent → Except Exception Muxed
  | .enque type payload priority =>
      match m.writer.enque type payload priority with
      | .ok writer => .ok { m with writer }
      | .error _ => .ok m
  | .mux size => m.step crypto (.mux size)

def Muxed.calls (crypto : Crypto) (m : Muxed) (events : List WriterEvent) :
    Except Exception Muxed :=
  events.foldlM (Muxed.call crypto) m

end RLPXFrameWriter

namespace WriterEvent

/-- The payload of a packet is shorter than 2^24 bytes. -/
def Short : WriterEvent → Prop
  | .enque _ payload _ => ∀ data, payload.out = .ok data → data.length < 2 ^ 24
  | .mux _ => True

/-- The valid packets that are enqueued with a priority. -/
def queued (capId : UInt8) (priority : Bool) (events : List WriterEvent) :
    List RLPXPacket :=
  (enqueued capId priority events).filter RLPXPacket.isValid

end WriterEvent

/-- Nothing is lost, duplicated or reordered. -/
structure Faithful (protocolType : UInt16) (events : List WriterEvent)
    (m : Muxed) : Prop where
  payloads : ∀ high,
    Framing.payloads (m.served high) ++ (m.writer.queue high).unsent =
      wires (WriterEvent.queued protocolType.toUInt8 high events)
  framing : ∀ high, ∃ done,
    Framing protocolType (m.served high) done (m.writer.queue high).begun ∧
      WriterEvent.queued protocolType.toUInt8 high events =
        done ++ (m.writer.queue high).q
  numbered : ∃ n, numbers m.frames = numbersTo n
  counted :
    m.ret = completed (WriterEvent.queued protocolType.toUInt8 true events)
        (Framing.payloads (m.served true)).length +
      completed (WriterEvent.queued protocolType.toUInt8 false events)
        (Framing.payloads (m.served false)).length

/-- What holds after every round and every call. -/
structure Kept (protocolType : UInt16) (events : List WriterEvent)
    (m : Muxed) : Prop where
  protocol : m.writer.protocolType = protocolType
  ok : m.writer.Ok
  short : ∀ high, ∀ p ∈ (m.writer.queue high).q, p.size < 2 ^ 32
  length : m.rounds.length = m.frames.length
  framing : ∀ high, ∃ done,
    Framing protocolType (m.served high) done (m.writer.queue high).begun ∧
      WriterEvent.queued protocolType.toUInt8 high events =
        done ++ (m.writer.queue high).q
  numbered : ∃ n, numbers m.frames = numbersTo n ∧
    m.writer.sequenceId = UInt16.ofNat n
  counted : m.ret + m.writer.size =
    (WriterEvent.queued protocolType.toUInt8 true events).length +
      (WriterEvent.queued protocolType.toUInt8 false events).length

namespace Kept

variable {crypto : Crypto} {protocolType : UInt16} {events : List WriterEvent}
  {m m' : Muxed} {swapQueues : Bool} {allot : Nat} {frame : RLPXFrame}

theorem queue_leave (w : RLPXFrameWriter) (swapQueues high : Bool)
    (qs : WriterState) (sid : UInt16) :
    (w.leave swapQueues qs sid).queue high =
      if w.takesHigh swapQueues = high then qs else w.queue high := by
  rw [RLPXFrameWriter.leave]
  cases w.takesHigh swapQueues with
  | true => cases high <;> rfl
  | false => cases high <;> rfl

theorem sequenceId_leave (w : RLPXFrameWriter) (swapQueues : Bool)
    (qs : WriterState) (sid : UInt16) :
    (w.leave swapQueues qs sid).sequenceId = sid := by
  rw [RLPXFrameWriter.leave]
  split <;> rfl

/-- The writer is as good as before the first frame. -/
theorem faithful (h : Kept protocolType events m) :
    Faithful protocolType events m := by
  have hok : ∀ high, (m.writer.queue high).Ok := by
    intro high
    cases high with
    | true => exact h.ok.high
    | false => exact h.ok.low
  refine ⟨fun high => ?_, h.framing, ?_, ?_⟩
  · obtain ⟨done, hframing, hqueued⟩ := h.framing high
    rw [hqueued]
    exact hframing.payloads_unsent (hok high)
  · obtain ⟨n, hn, -⟩ := h.numbered
    exact ⟨n, hn⟩
  · obtain ⟨high, hhigh, hqueuedHigh⟩ := h.framing true
    obtain ⟨low, hlow, hqueuedLow⟩ := h.framing false
    have hcounted := h.counted
    rw [hqueuedHigh, hqueuedLow] at hcounted ⊢
    rw [hhigh.completed_payloads (hok true), hlow.completed_payloads (hok false)]
    have hsize : m.writer.size = (m.writer.queue true).q.length +
        (m.writer.queue false).q.length := rfl
    simp only [List.length_append] at hcounted
    omega

theorem served_round (hlength : m.rounds.length = m.frames.length)
    (hround : Round crypto swapQueues allot m frame m') (high : Bool) :
    m'.served high = m.served high ++
      if m.writer.takesHigh swapQueues = high then [frame] else [] := by
  cases hround with
  | intro hnext =>
      rw [Muxed.served, Muxed.served, List.zip_append hlength,
        List.filter_append, List.map_append]
      by_cases htakes : m.writer.takesHigh swapQueues = high
      · simp [htakes]
      · simp [htakes]

/-- One round. -/
theorem round (h : Kept protocolType events m) (hmin : 16 ≤ allot)
    (hround : Round crypto swapQueues allot m frame m') :
    Kept protocolType events m' := by
  have hserved := served_round h.length hround
  have hok := hround.ok hmin h.ok
  have hcounted := hround.size_add_ret
  cases hround with
  | @intro ret frame qs sid hnext =>
      rw [h.protocol] at hnext
      have hqueue := queue_leave m.writer swapQueues
      have htaken : m.writer.taken swapQueues =
          m.writer.queue (m.writer.takesHigh swapQueues) := rfl
      have hkept := fun fs done hframing => @Framing.next protocolType fs done
        allot ret m.writer.sequenceId sid _ qs frame hframing (h.ok.taken _)
        hmin (h.short _) hnext
      refine ⟨?_, hok, fun high p hp => ?_, ?_, fun high => ?_, ?_, ?_⟩
      · exact (protocolType_leave _ _ _ _).trans h.protocol
      · rw [hqueue] at hp
        split at hp
        · obtain ⟨done, hframing, -⟩ := h.framing (m.writer.takesHigh swapQueues)
          have hsplit := (hkept _ _ hframing).2
          refine h.short (m.writer.takesHigh swapQueues) p ?_
          rw [← htaken, hsplit]
          exact List.mem_append_right _ hp
        · exact h.short high p hp
      · simp only [List.length_append, h.length, List.length_singleton]
      · obtain ⟨done, hframing, hqueued⟩ := h.framing high
        rw [hserved, hqueue]
        by_cases htakes : m.writer.takesHigh swapQueues = high
        · subst htakes
          obtain ⟨hframing', hsplit⟩ := hkept _ _ hframing
          rw [if_pos rfl, if_pos rfl]
          refine ⟨_, hframing', ?_⟩
          rw [hqueued, List.append_assoc, ← hsplit, htaken]
        · rw [if_neg htakes, if_neg htakes, List.append_nil]
          exact ⟨done, hframing, hqueued⟩
      · obtain ⟨n, hn, hsid⟩ := h.numbered
        obtain ⟨k, hk, hsid'⟩ := hnext.number hsid
        refine ⟨n + k, ?_, (sequenceId_leave _ _ _ _).trans hsid'⟩
        rw [numbers_append, hn, hk]
      · rw [← h.counted]
        dsimp only at hcounted ⊢
        omega

theorem served (h : Kept protocolType events m) (hserved : Served crypto m m') :
    Kept protocolType events m' := by
  induction hserved with
  | refl => exact h
  | tail _ hmin hround ih => exact ih.round hmin hround

/-- What a packet that is queued does to a queue. -/
theorem queue_enquePacket {w : RLPXFrameWriter} {p : RLPXPacket}
    (hvalid : p.isValid = true) (priority high : Bool) :
    (w.enquePacket p priority).queue high =
      if priority = high then
        { w.queue high with q := (w.queue high).q ++ [p] }
      else w.queue high := by
  rw [RLPXFrameWriter.enquePacket, hvalid]
  cases priority with
  | true => cases high <;> rfl
  | false => cases high <;> rfl

theorem begun_push {qs : WriterState} (hok : qs.Ok) (p : RLPXPacket) :
    { qs with q := qs.q ++ [p] : WriterState }.begun = qs.begun := by
  cases hok with
  | idle sequence hq => rfl
  | busy sequence hq hpos hlt => rfl

/-- A packet that is valid is queued behind those of its priority. -/
theorem push (h : Kept protocolType events m) {type : UInt8}
    {payload : RLPStream} {priority : Bool} {p : RLPXPacket}
    (hp : p.Sendable) (hsize : p.size < 2 ^ 32)
    (hqueued : ∀ high, WriterEvent.queued protocolType.toUInt8 high
      (events ++ [.enque type payload priority]) =
        WriterEvent.queued protocolType.toUInt8 high events ++
          if priority = high then [p] else []) :
    Kept protocolType (events ++ [.enque type payload priority])
      { m with writer := m.writer.enquePacket p priority } := by
  have hqueue := @queue_enquePacket m.writer p hp.valid priority
  have hok : ∀ high, (m.writer.queue high).Ok := by
    intro high
    cases high with
    | true => exact h.ok.high
    | false => exact h.ok.low
  have hprotocol : (m.writer.enquePacket p priority).protocolType =
      m.writer.protocolType := by
    rw [RLPXFrameWriter.enquePacket, hp.valid]
    cases priority <;> rfl
  have hsid : (m.writer.enquePacket p priority).sequenceId =
      m.writer.sequenceId := by
    rw [RLPXFrameWriter.enquePacket, hp.valid]
    cases priority <;> rfl
  refine ⟨hprotocol.trans h.protocol,
    h.ok.enquePacket ⟨hp.type_pos, hp.type_le⟩ priority, fun high p' hp' => ?_,
    h.length, fun high => ?_, ?_, ?_⟩
  · rw [hqueue] at hp'
    split at hp'
    · rcases List.mem_append.1 hp' with hold | hnew
      · exact h.short high p' hold
      · exact List.mem_singleton.1 hnew ▸ hsize
    · exact h.short high p' hp'
  · obtain ⟨done, hframing, hold⟩ := h.framing high
    refine ⟨done, ?_, ?_⟩
    · rw [hqueue]
      split
      · rw [begun_push (hok high)]
        exact hframing
      · exact hframing
    · rw [hqueued, hold, hqueue]
      split
      · exact List.append_assoc _ _ _
      · exact List.append_nil _
  · rw [hsid]
    exact h.numbered
  · have hcounted := h.counted
    rw [hqueued, hqueued]
    rw [RLPXFrameWriter.size] at hcounted ⊢
    cases priority with
    | true =>
        simp only [RLPXFrameWriter.enquePacket, hp.valid, Bool.not_true,
          Bool.false_eq_true, ↓reduceIte, List.length_append,
          List.length_singleton, List.append_nil, Bool.true_eq_false]
        omega
    | false =>
        simp only [RLPXFrameWriter.enquePacket, hp.valid, Bool.not_true,
          Bool.false_eq_true, ↓reduceIte, List.length_append,
          List.length_singleton, List.append_nil]
        omega

/-- A call that queues nothing. -/
theorem ignore (h : Kept protocolType events m) {event : WriterEvent}
    (hqueued : ∀ high, WriterEvent.queued protocolType.toUInt8 high
      (events ++ [event]) =
        WriterEvent.queued protocolType.toUInt8 high events) :
    Kept protocolType (events ++ [event]) m := by
  refine ⟨h.protocol, h.ok, h.short, h.length, fun high => ?_, h.numbered, ?_⟩
  · rw [hqueued]
    exact h.framing high
  · rw [hqueued, hqueued]
    exact h.counted

end Kept

namespace RLPXFrameWriter

/-- What was made before a call, and what the call makes. -/
def Muxed.after (m m' : Muxed) : Muxed :=
  { m' with ret := m.ret + m'.ret, frames := m.frames ++ m'.frames,
            toWrite := m.toWrite ++ m'.toWrite, rounds := m.rounds ++ m'.rounds }

theorem Served.after {crypto : Crypto} {m m' : Muxed}
    (h : Served crypto { writer := m.writer, coder := m.coder } m') :
    Served crypto m (m.after m') := by
  induction h with
  | refl =>
      have hsame : m.after { writer := m.writer, coder := m.coder } = m := by
        simp only [Muxed.after, List.append_nil, Nat.add_zero]
      rw [hsame]
      exact .refl
  | @tail m' m'' swapQueues allot frame _ hmin hround ih =>
      refine ih.tail hmin (?_ : Round crypto swapQueues allot (m.after m') frame
        (m.after m''))
      cases hround with
      | intro hnext =>
          have hafter := @Round.intro crypto swapQueues allot (m.after m') _ _ _
            _ hnext
          simpa only [Muxed.after, List.append_assoc, Nat.add_assoc] using hafter

end RLPXFrameWriter

namespace Kept

variable {crypto : Crypto} {protocolType : UInt16} {events : List WriterEvent}
  {m : Muxed}

theorem queued_append (capId : UInt8) (priority : Bool) (event : WriterEvent) :
    WriterEvent.queued capId priority (events ++ [event]) =
      WriterEvent.queued capId priority events ++
        (event.packet? capId priority).toList.filter RLPXPacket.isValid := by
  rw [WriterEvent.queued, WriterEvent.enqueued_append, List.filter_append]
  rfl

/-- Every call returns and keeps all. -/
theorem exists_call (h : Kept protocolType events m) {event : WriterEvent}
    (hshort : event.Short) :
    ∃ m', m.call crypto event = .ok m' ∧
      Kept protocolType (events ++ [event]) m' := by
  cases event with
  | mux size =>
      have hlt := size.toNat_lt
      obtain ⟨m', hmux, hserved⟩ := @exists_served crypto m.writer m.coder
        size.toNat h.ok (by omega)
      refine ⟨m.after m', ?_, ?_⟩
      · rw [Muxed.call, Muxed.step, hmux]
        rfl
      · exact (h.served hserved.after).ignore fun high => by
          rw [queued_append]
          exact List.append_nil _
  | enque type payload priority =>
      have henque := m.writer.enque_eq type payload priority
      cases hout : payload.out with
      | error e =>
          rw [hout] at henque
          refine ⟨m, by rw [Muxed.call, henque]; rfl, h.ignore fun high => ?_⟩
          rw [queued_append, WriterEvent.packet?, hout]
          split <;> exact List.append_nil _
      | ok data =>
          rw [hout] at henque
          obtain ⟨p, hp⟩ : ∃ p : RLPXPacket, p = ⟨protocolType.toUInt8,
              RLPTree.encode (.int type.toNat), data⟩ := ⟨_, rfl⟩
          have hpacket : ∀ high, WriterEvent.packet? protocolType.toUInt8 high
              (.enque type payload priority) =
                if priority = high then some p else none := by
            intro high
            rw [WriterEvent.packet?, hout, hp]
            rfl
          refine ⟨{ m with writer := m.writer.enquePacket p priority }, ?_, ?_⟩
          · rw [Muxed.call, henque, hp, ← h.protocol]
            rfl
          · have htype := length_encode_byte type
            by_cases hvalid : p.isValid = true
            · have hsend : p.Sendable := by
                rw [hp] at hvalid ⊢
                exact ⟨hvalid, htype.1, htype.2⟩
              refine h.push hsend ?_ fun high => ?_
              · have hdata := hshort data hout
                rw [hsend.size_eq, hp]
                dsimp only
                omega
              · rw [queued_append, hpacket]
                split
                · simp [hvalid]
                · rfl
            · have hdrop : m.writer.enquePacket p priority = m.writer := by
                rw [RLPXFrameWriter.enquePacket, if_pos (by simpa using hvalid)]
              rw [hdrop]
              refine h.ignore fun high => ?_
              rw [queued_append, hpacket]
              split
              · simp [hvalid]
              · exact List.append_nil _

theorem start (protocolType : UInt16) (coder : RLPXFrameCoder) :
    Kept protocolType [] { writer := { protocolType }, coder } := by
  have hidle : ∀ high, ({ protocolType : RLPXFrameWriter }).queue high =
      idle [] 0xffff := by
    intro high
    cases high <;> rfl
  have hok : (idle [] 0xffff).Ok := .idle _ fun p hp => absurd hp List.not_mem_nil
  refine ⟨rfl, ⟨hok, hok⟩, fun high p hp => ?_, rfl, fun high => ?_,
    ⟨0, rfl, rfl⟩, rfl⟩
  · rw [hidle] at hp
    exact absurd hp List.not_mem_nil
  · rw [hidle]
    exact ⟨[], .nil, rfl⟩

/-- Every run of calls returns and keeps all. -/
theorem exists_calls (hshort : ∀ e ∈ events, e.Short) (coder : RLPXFrameCoder) :
    ∃ m, Muxed.calls crypto { writer := { protocolType }, coder } events =
        .ok m ∧ Kept protocolType events m := by
  induction events using List.reverseRecOn with
  | nil => exact ⟨_, rfl, start protocolType coder⟩
  | append_singleton events event ih =>
      obtain ⟨m, hcalls, hkept⟩ :=
        ih fun e he => hshort e (List.mem_append_left _ he)
      obtain ⟨m', hcall, hkept'⟩ := @exists_call crypto protocolType events m
        hkept event (hshort event (List.mem_append_right _ List.mem_cons_self))
      refine ⟨m', ?_, hkept'⟩
      rw [Muxed.calls, List.foldlM_append, ← Muxed.calls, hcalls]
      simp only [ok_bind, List.foldlM_cons, List.foldlM_nil, hcall]
      rfl

end Kept

/-- Every run of calls with any sizes returns, and loses, duplicates and
reorders nothing. -/
theorem calls_faithful (crypto : Crypto) (protocolType : UInt16)
    (coder : RLPXFrameCoder) (events : List WriterEvent)
    (hshort : ∀ e ∈ events, e.Short) :
    ∃ m, Muxed.calls crypto { writer := { protocolType }, coder } events =
        .ok m ∧ Faithful protocolType events m := by
  obtain ⟨m, hcalls, hkept⟩ := @Kept.exists_calls crypto protocolType events
    hshort coder
  exact ⟨m, hcalls, hkept.faithful⟩

/-- A large packet and a small one, and calls with little room and with much;
a call in between has no room at all. -/
def crossedCalls : List WriterEvent :=
  [.enque 1 ⟨0xa7 :: List.replicate 39 7, []⟩ true, .mux 64,
    .enque 2 ⟨[5], []⟩ false, .mux 63, .mux 96, .mux 256]

theorem calls_faithful_crossed :
    (∀ e ∈ crossedCalls, e.Short) ∧
      ∃ m, Muxed.calls plainCrypto
          { writer := { protocolType := 0 }, coder := plainCoder } crossedCalls =
        .ok m ∧ Faithful 0 crossedCalls m := by
  have hshort : ∀ e ∈ crossedCalls, e.Short := by
    intro e he
    simp only [crossedCalls, List.mem_cons, List.not_mem_nil, or_false] at he
    rcases he with rfl | rfl | rfl | rfl | rfl | rfl
    · intro data hout
      cases hout
      decide
    · trivial
    · intro data hout
      cases hout
      decide
    · trivial
    · trivial
    · trivial
  exact ⟨hshort, calls_faithful plainCrypto 0 plainCoder crossedCalls hshort⟩

end Web3Core
