/-
Which frames of a socket are lost.  A frame that `mux` made is handed to the
socket in the same call of `doWrite`, or never: the next call begins with an
empty buffer.  All frames of a call are handed if one of them completes a
packet, and none otherwise.
-/
import Web3Core.RLPXSocketIO

namespace Web3Core

namespace RLPXFrameWriter

open WriterState

variable {crypto : Crypto} {w : RLPXFrameWriter} {c : RLPXFrameCoder}
  {size : Nat}

/-- A writer of which only the queue of low priority is used. -/
structure LowOnly (w : RLPXFrameWriter) : Prop where
  ok : w.Ok
  high : w.high.q = []

theorem LowOnly.enque (h : w.LowOnly) {type : UInt8} {payload : RLPStream}
    {w' : RLPXFrameWriter} (heq : w.enque type payload false = .ok w') :
    w'.LowOnly := by
  rw [enque_eq] at heq
  cases hout : payload.out with
  | error e => simp [hout, Except.map] at heq
  | ok data =>
      simp only [hout, Except.map, Except.ok.injEq] at heq
      subst heq
      refine ⟨h.ok.enquePacket (length_encode_byte type) false, ?_⟩
      rw [enquePacket]
      split
      · exact h.high
      · exact h.high

theorem LowOnly.round {swapQueues : Bool} {allot : Nat} {m m' : Muxed}
    {frame : RLPXFrame} (h : m.writer.LowOnly) (hmin : 16 ≤ allot)
    (hround : Round crypto swapQueues allot m frame m') : m'.writer.LowOnly := by
  refine ⟨hround.ok hmin h.ok, ?_⟩
  cases hround with
  | intro hnext =>
      have hne := hnext.ne_nil
      rw [taken] at hne
      cases htakes : m.writer.takesHigh swapQueues with
      | true =>
          rw [htakes, if_pos rfl] at hne
          exact absurd h.high hne
      | false =>
          simp only [leave, htakes, Bool.false_eq_true, ↓reduceIte]
          exact h.high

theorem LowOnly.rounds {m m' : Muxed} (h : m.writer.LowOnly)
    (hrounds : Rounds crypto m m') : m'.writer.LowOnly := by
  induction hrounds with
  | refl => exact h
  | tail _ hmin _ hround ih => exact ih.round hmin hround

/-- With nothing of high priority a round takes from the other queue. -/
theorem LowOnly.taken_eq (h : w.LowOnly) (hne : w.low.q ≠ []) (swapQueues : Bool) :
    w.taken swapQueues = w.low := by
  have htakes : w.takesHigh swapQueues = false := by
    simp [takesHigh, h.high, hne]
  rw [taken, htakes, if_neg Bool.false_ne_true]

/-- What is left of the front packet fits into one frame. -/
def frontFits (w : RLPXFrameWriter) (size : Nat) : Bool :=
  !w.low.q.isEmpty && decide (64 ≤ size) &&
    decide (w.low.left ≤ size / 16 * 16 - 48)

/-- With nothing of high priority, `mux` makes frames whenever there is
something to send and room for a block, and completes a packet if and only if
what is left of the front packet fits into one frame. -/
theorem LowOnly.exists_mux (h : w.LowOnly) (hmax : size < 2 ^ 63) :
    ∃ m, w.mux crypto c size = .ok m ∧ m.writer.LowOnly ∧
      (m.toWrite ≠ [] ↔ w.low.q ≠ [] ∧ 64 ≤ size) ∧
      (m.ret ≠ 0 ↔ w.frontFits size = true) := by
  by_cases hmin : 64 ≤ size
  · by_cases hne : w.low.q = []
    · have hempty : (w.high.q.isEmpty && w.low.q.isEmpty) = true := by
        rw [h.high, hne]
        rfl
      refine ⟨{ writer := w, coder := c }, ?_, h, ?_, ?_⟩
      · rw [mux, if_neg (Nat.not_lt.2 hmin), muxLoop, if_neg (by omega),
          if_pos hempty]
      · simp [hne]
      · simp [frontFits, hne]
    · have hhalf : w.halves (size / 16 * 16) false = false := by
        simp [halves, h.high]
      have hpending : w.size ≠ 0 := by
        rw [RLPXFrameWriter.size, h.high]
        simpa using hne
      obtain ⟨frame, m₁, hround, heq⟩ := @exists_round crypto (size / 16 * 16)
        false { writer := w, coder := c } h.ok hpending (by omega) (by omega)
        (by rw [hhalf]; exact fun h => absurd h Bool.false_ne_true)
      rw [frameAllot_eq_sub (by omega) (by omega) hhalf] at hround
      have hlength : 64 ≤ (frame.sealed crypto c).1.length ∧
          (frame.sealed crypto c).1.length ≤ size / 16 * 16 ∧
          (frame.sealed crypto c).1.length % 16 = 0 ∧
          (m₁.ret = 0 → size / 16 * 16 - 48 = size / 16 * 16 - 48 →
            (frame.sealed crypto c).1.length = size / 16 * 16) :=
        hround.length_sealed (by omega) h.ok (by omega) le_rfl
      obtain ⟨hpos, hle, hmod, hfull⟩ := hlength
      obtain ⟨m, hloop, hrounds⟩ := @exists_muxLoop crypto (w.size + size + 1)
        (size / 16 * 16 - (frame.sealed crypto c).1.length) true m₁ (by omega)
        (by omega) (by omega) (hround.ok (by omega) h.ok)
        (fun h => by simp [halves] at h)
      have hlow : m₁.writer.LowOnly := LowOnly.round h (by omega) hround
      have hone : m₁.toWrite ≠ [] ∧
          (m₁.ret ≠ 0 ↔ w.low.left ≤ size / 16 * 16 - 48) := by
        cases hround with
        | intro hnext =>
            rw [h.taken_eq hne] at hnext
            have hret := hnext.ret_pos_iff h.ok.low
            refine ⟨by simp, ?_⟩
            rw [← hret, Nat.zero_add]
            exact Nat.pos_iff_ne_zero.symm
      refine ⟨m, ?_, hlow.rounds hrounds, ?_, ?_⟩
      · rw [mux, if_neg (Nat.not_lt.2 hmin), heq, subSize_of_le hle (by omega)]
        exact hloop
      · refine iff_of_true (fun hnil => ?_) ⟨hne, hmin⟩
        exact hone.1 (List.prefix_nil.1 (hnil ▸ hrounds.isPrefix_toWrite))
      · have hfits : w.frontFits size = true ↔
            w.low.left ≤ size / 16 * 16 - 48 := by
          simp [frontFits, hne, hmin]
        rw [hfits, ← hone.2]
        refine ⟨fun hret hzero => ?_, fun hret => ?_⟩
        · -- The frame takes up all of the size, and the loop ends.
          rw [hfull hzero rfl, Nat.sub_self, muxLoop, if_pos (by omega),
            Except.ok.injEq] at hloop
          exact hret (hloop ▸ hzero)
        · have := hrounds.ret_le
          omega
  · refine ⟨{ writer := w, coder := c }, ?_, h, ?_, ?_⟩
    · rw [mux, if_pos (Nat.not_le.1 hmin)]
    · simp [hmin]
    · simp [frontFits, hmin]

end RLPXFrameWriter

namespace RLPXSocketIO

open RLPXFrameWriter (LowOnly)

variable {crypto : Crypto} {s t : RLPXSocketIO} {event : SocketEvent}

/-- The calls of `mux` make frames if there is something to send and room for a
block, and complete a packet if and only if one of the fronts fits. -/
theorem exists_muxAll {size : Nat} (hmax : size < 2 ^ 63) :
    ∀ (ws : List RLPXFrameWriter) (c : RLPXFrameCoder),
      (∀ w ∈ ws, w.LowOnly) →
      ∃ r, muxAll crypto size ws c = .ok r ∧ (∀ w ∈ r.1, w.LowOnly) ∧
        (r.2.2.2 ≠ [] ↔ ∃ w ∈ ws, w.low.q ≠ [] ∧ 64 ≤ size) ∧
        (r.2.2.1 ≠ 0 ↔ ∃ w ∈ ws, w.frontFits size = true) := by
  intro ws
  induction ws with
  | nil =>
      intro c _
      exact ⟨_, rfl, fun w hw => by simp at hw, by simp, by simp⟩
  | cons w ws ih =>
      intro c hlow
      obtain ⟨m, hmux, hm, hframes, hret⟩ :=
        @LowOnly.exists_mux crypto w c size (hlow w List.mem_cons_self) hmax
      obtain ⟨r, hall, hr, hframes', hret'⟩ :=
        ih m.coder fun w' hw' => hlow w' (List.mem_cons_of_mem w hw')
      refine ⟨(m.writer :: r.1, r.2.1, m.ret + r.2.2.1,
        m.toWrite ++ r.2.2.2), ?_, ?_, ?_, ?_⟩
      · rw [muxAll, hmux, ok_bind, hall, ok_bind]
      · intro w' hw'
        rcases List.mem_cons.1 hw' with rfl | hw'
        · exact hm
        · exact hr w' hw'
      · rw [List.exists_mem_cons_iff, ← hframes, ← hframes', ne_eq,
          List.append_eq_nil_iff, not_and_or]
      · rw [List.exists_mem_cons_iff, ← hret, ← hret', ne_eq,
          Nat.add_eq_zero_iff, not_and_or]

/-- Whether a call of `doWrite` hands over the frames it makes: there is no
room for a frame, or what is left of the front packet of one of the protocols
fits into one frame. -/
def ready (s : RLPXSocketIO) : Bool :=
  decide (s.protFrameSize < 64) ||
    s.writers.any fun w => w.frontFits s.protFrameSize

/-- The writers make frames if there is something to send and room for a block,
and complete a packet if and only if one of the fronts fits. -/
theorem exists_muxWriters (hlow : ∀ w ∈ s.writers, w.LowOnly) :
    ∃ r, s.muxWriters crypto = .ok r ∧ (∀ w ∈ r.1, w.LowOnly) ∧
      (r.2.2.2 ≠ [] ↔
        ∃ w ∈ s.writers, w.low.q ≠ [] ∧ 64 ≤ s.protFrameSize) ∧
      (r.2.2.1 ≠ 0 ↔
        ∃ w ∈ s.writers, w.frontFits s.protFrameSize = true) := by
  rw [muxWriters]
  by_cases hsize : s.protFrameSize ≥ MinFrameSize
  · have hmax : s.protFrameSize ≤ 2 ^ 24 :=
      (Nat.div_le_self _ _).trans (min_le_right _ _)
    rw [if_pos hsize]
    exact exists_muxAll (by omega) s.writers s.coder hlow
  · have hsmall : ¬ 64 ≤ s.protFrameSize := by
      rw [MinFrameSize] at hsize
      omega
    refine ⟨_, if_neg hsize, hlow, by simp [hsmall], ?_⟩
    simp [RLPXFrameWriter.frontFits, hsmall]

/-- Outside `doWrite` no frame is made and none is handed over. -/
theorem handle_cases (hlow : ∀ w ∈ s.writers, w.LowOnly) :
    (∀ w ∈ (s.handle event).1.writers, w.LowOnly) ∧
      (s.handle event).1.produced = s.produced ∧
      (s.handle event).1.handed = s.handed := by
  cases event with
  | send isOpen protocolType type payload =>
      cases hsend : s.send isOpen protocolType type payload with
      | error e =>
          have hhandle : s.handle (.send isOpen protocolType type payload) =
              (s, false) := by rw [handle, hsend]
          rw [hhandle]
          exact ⟨hlow, rfl, rfl⟩
      | ok r =>
          simp only [handle, hsend]
          rw [send] at hsend
          split at hsend
          · simp only [Except.ok.injEq] at hsend
            subst hsend
            exact ⟨hlow, rfl, rfl⟩
          · split at hsend
            · cases hsend
            · next w hw =>
                cases hw' : w.enque type.toUInt8 payload false with
                | error e => simp [hw'] at hsend
                | ok w' =>
                    simp only [hw', ok_bind, Except.ok.injEq] at hsend
                    subst hsend
                    refine ⟨fun w'' hw'' => ?_, rfl, rfl⟩
                    rcases List.mem_or_eq_of_mem_set hw'' with hold | rfl
                    · exact hlow w'' hold
                    · exact (hlow w (List.mem_of_getElem? hw)).enque hw'
  | written index result =>
      simp only [handle, written]
      split
      · exact ⟨hlow, rfl, rfl⟩
      · cases result with
        | none => exact ⟨hlow, rfl, rfl⟩
        | some size => exact ⟨hlow, rfl, rfl⟩
  | retry cancelled =>
      simp only [handle, retry]
      split
      · exact ⟨hlow, rfl, rfl⟩
      · exact ⟨hlow, rfl, rfl⟩

theorem run_append (events : List SocketEvent) :
    s.run crypto (events ++ [event]) =
      s.run crypto events >>= fun t => t.step crypto event := by
  simp only [run, List.foldlM_append, List.foldlM_cons, List.foldlM_nil,
    bind_pure]

theorem lowOnly_start (protCount : UInt32) (coder : RLPXFrameCoder)
    (flowControl : Bool) (initialCapacity : Nat) :
    ∀ w ∈ (start protCount coder flowControl initialCapacity).writers,
      w.LowOnly := by
  intro w hw
  obtain ⟨i, -, rfl⟩ := List.mem_map.1 hw
  exact ⟨⟨.idle _ fun p hp => absurd hp List.not_mem_nil,
    .idle _ fun p hp => absurd hp List.not_mem_nil⟩, rfl⟩

end RLPXSocketIO

section Run

open RLPXSocketIO

end Run

end Web3Core
