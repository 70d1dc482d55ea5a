/-
`Session::send` and `Session::write`: the queue of messages to be written.  A
message is encrypted in place at the head of the queue; the right to do so goes
from the caller that found the queue empty to the handler of the completed
write and on.  Each critical section is one step, and so are the start of a
write and its completion.
-/
import Web3Core.RLPXConnection

namespace Web3Core

/-- The write queue of a session.  A buffer is kept with the number of its
message, which stands for its place in memory.  `starting` counts the calls of
`write` that have not entered the critical section, `handing` lists the buffers
of those that have left it and not yet called `async_write`, `inFlight` those
of the writes that have not completed.  What was given to the coder and what
was handed to the socket is recorded. -/
structure WriteQueue where
  coder : RLPXFrameCoder
  queue : List (Bytes × Nat) := []
  pushed : Nat := 0
  starting : Nat := 0
  handing : List Nat := []
  inFlight : List Nat := []
  encoded : List (Bytes × Nat) := []
  handed : List (Bytes × Nat) := []
  completed : Nat := 0

/-- The steps of the callers of `send` and of the handlers: a message is
pushed; a call of `write` encrypts the head of the queue; it hands the buffer
to the socket; a write completes. -/
inductive QueueEvent where
  | send (msg : Bytes)
  | encrypt
  | hand (number : Nat)
  | complete (number : Nat)
deriving DecidableEq

namespace WriteQueue

variable (crypto : Crypto)

/-- The critical section of `send`.  The caller goes on to `write` if the
message is the only one. -/
def send (s : WriteQueue) (msg : Bytes) : WriteQueue :=
  let queue := s.queue ++ [(msg, s.pushed)]
  { s with queue, pushed := s.pushed + 1,
           starting := if queue.length = 1 then s.starting + 1 else s.starting }

/-- The critical section of `write`. -/
def encrypt (s : WriteQueue) : Except Exception WriteQueue :=
  match s.queue with
  | [] => .error .outOfRange
  | head :: rest => do
      let r ← s.coder.writeSingleFramePacket crypto head.1
      .ok { s with coder := r.2, queue := (r.1, head.2) :: rest,
                   starting := s.starting - 1,
                   handing := s.handing ++ [head.2],
                   encoded := s.encoded ++ [head] }

/-- `async_write` of what the buffer holds now, if it is still there. -/
def hand (s : WriteQueue) (number : Nat) : Except Exception WriteQueue :=
  match s.queue.find? fun e => e.2 = number with
  | none => .error .outOfRange
  | some e =>
      .ok { s with handing := s.handing.erase number,
                   inFlight := s.inFlight ++ [number],
                   handed := s.handed ++ [e] }

/-- The handler of a completed write.  It goes on to `write` if there are more
messages. -/
def complete (s : WriteQueue) (number : Nat) : Except Exception WriteQueue :=
  match s.queue with
  | [] => .error .outOfRange
  | _ :: rest =>
      .ok { s with queue := rest, inFlight := s.inFlight.erase number,
                   completed := s.completed + 1,
                   starting := if rest = [] then s.starting
                     else s.starting + 1 }

/-- One step.  A step that nobody is about to take changes nothing. -/
def step (s : WriteQueue) : QueueEvent → Except Exception WriteQueue
  | .send msg => .ok (s.send msg)
  | .encrypt => if s.starting = 0 then .ok s else s.encrypt crypto
  | .hand number => if number ∈ s.handing then s.hand number else .ok s
  | .complete number =>
      if number ∈ s.inFlight then s.complete number else .ok s

def run (s : WriteQueue) (events : List QueueEvent) :
    Except Exception WriteQueue :=
  events.foldlM (step crypto) s

end WriteQueue

namespace QueueEvent

def sent? : QueueEvent → Option Bytes
  | .send msg => some msg
  | .encrypt => none
  | .hand _ => none
  | .complete _ => none

/-- The messages in the order in which they were pushed. -/
def sent (events : List QueueEvent) : List Bytes := events.filterMap sent?

variable {events : List QueueEvent} {event : QueueEvent}

theorem sent_append :
    sent (events ++ [event]) = sent events ++ event.sent?.toList := by
  rw [sent, List.filterMap_append]
  cases event <;> rfl

end QueueEvent

section Frames

variable (crypto : Crypto)

/-- The frames of messages that are written one after the other. -/
def packetFrames (c : RLPXFrameCoder) : List Bytes → List Bytes
  | [] => []
  | msg :: msgs =>
      match c.writeSingleFramePacket crypto msg with
      | .error _ => []
      | .ok r => r.1 :: packetFrames r.2 msgs

/-- The coder after messages that are written one after the other. -/
def afterPackets (c : RLPXFrameCoder) : List Bytes → RLPXFrameCoder
  | [] => c
  | msg :: msgs =>
      match c.writeSingleFramePacket crypto msg with
      | .error _ => c
      | .ok r => afterPackets r.2 msgs

end Frames

variable {crypto : Crypto} {c : RLPXFrameCoder} {msgs : List Bytes}

/-- Writing a packet never fails. -/
theorem exists_writeSingleFramePacket (c : RLPXFrameCoder) (msg : Bytes) :
    ∃ r, c.writeSingleFramePacket crypto msg = .ok r :=
  ⟨_, (RLPXFrame.legacy msg).write_eq_seal c⟩

theorem packetFrames_append (msg : Bytes) {r : Bytes × RLPXFrameCoder}
    (hr : (afterPackets crypto c msgs).writeSingleFramePacket crypto msg =
      .ok r) :
    packetFrames crypto c (msgs ++ [msg]) =
        packetFrames crypto c msgs ++ [r.1] ∧
      afterPackets crypto c (msgs ++ [msg]) = r.2 := by
  induction msgs generalizing c with
  | nil =>
      rw [afterPackets] at hr
      simp only [List.nil_append, packetFrames, afterPackets, hr, and_self]
  | cons m msgs ih =>
      obtain ⟨q, hq⟩ := @exists_writeSingleFramePacket crypto c m
      simp only [afterPackets, hq] at hr
      obtain ⟨hframes, hafter⟩ := ih hr
      simp only [List.cons_append, packetFrames, afterPackets, hq, hframes,
        hafter, and_self]

@[simp] theorem length_packetFrames :
    (packetFrames crypto c msgs).length = msgs.length := by
  induction msgs generalizing c with
  | nil => rfl
  | cons m msgs ih =>
      obtain ⟨q, hq⟩ := @exists_writeSingleFramePacket crypto c m
      simp only [packetFrames, hq, List.length_cons, ih]

/-- The frame of a message depends on those before it. -/
theorem packetFrames_getElem? {k : Nat} {msg : Bytes}
    (hmsg : msgs[k]? = some msg) :
    ∃ r, (afterPackets crypto c (msgs.take k)).writeSingleFramePacket crypto
        msg = .ok r ∧
      (packetFrames crypto c msgs)[k]? = some r.1 ∧
      afterPackets crypto c (msgs.take (k + 1)) = r.2 := by
  induction msgs generalizing c k with
  | nil => simp at hmsg
  | cons m msgs ih =>
      obtain ⟨q, hq⟩ := @exists_writeSingleFramePacket crypto c m
      cases k with
      | zero =>
          obtain rfl : m = msg := by simpa using hmsg
          refine ⟨q, hq, ?_, ?_⟩
          · simp only [packetFrames, hq, List.getElem?_cons_zero]
          · simp only [Nat.zero_add, List.take_succ_cons, List.take_zero,
              afterPackets, hq]
      | succ k =>
          rw [List.getElem?_cons_succ] at hmsg
          obtain ⟨r, hr, hframe, hafter⟩ := ih (c := q.2) hmsg
          refine ⟨r, ?_, ?_, ?_⟩
          · simpa only [List.take_succ_cons, afterPackets, hq] using hr
          · simpa only [packetFrames, hq, List.getElem?_cons_succ] using hframe
          · simpa only [List.take_succ_cons, afterPackets, hq] using hafter

namespace WriteQueue

/-- What the buffers of all messages hold after `k` of them were encrypted. -/
def buffers (crypto : Crypto) (c : RLPXFrameCoder) (msgs : List Bytes)
    (k : Nat) : List Bytes :=
  (packetFrames crypto c msgs).take k ++ msgs.drop k

/-- Whose turn it is: nobody's, with nothing in the queue, or for the message
`completed` at the head, that of a party about to encrypt it, of one about to
hand it to the socket, or of the write under way. -/
inductive Turn (s : WriteQueue) (total : Nat) : Prop
  | idle (htotal : s.completed = total) (hencoded : s.encoded.length = s.completed)
      (hhanded : s.handed.length = s.completed) (hstarting : s.starting = 0)
      (hhanding : s.handing = []) (hflight : s.inFlight = [])
  | starting (htotal : s.completed < total)
      (hencoded : s.encoded.length = s.completed)
      (hhanded : s.handed.length = s.completed) (hstarting : s.starting = 1)
      (hhanding : s.handing = []) (hflight : s.inFlight = [])
  | handing (htotal : s.completed < total)
      (hencoded : s.encoded.length = s.completed + 1)
      (hhanded : s.handed.length = s.completed) (hstarting : s.starting = 0)
      (hhanding : s.handing = [s.completed]) (hflight : s.inFlight = [])
  | writing (htotal : s.completed < total)
      (hencoded : s.encoded.length = s.completed + 1)
      (hhanded : s.handed.length = s.completed + 1) (hstarting : s.starting = 0)
      (hhanding : s.handing = []) (hflight : s.inFlight = [s.completed])

/-- The queue after the messages `msgs` were pushed. -/
structure Invariant (crypto : Crypto) (c : RLPXFrameCoder) (msgs : List Bytes)
    (s : WriteQueue) : Prop where
  pushed : s.pushed = msgs.length
  queue : s.queue =
    (buffers crypto c msgs s.encoded.length).zipIdx.drop s.completed
  encoded : s.encoded = msgs.zipIdx.take s.encoded.length
  handed : s.handed = (packetFrames crypto c msgs).zipIdx.take s.handed.length
  coder : s.coder = afterPackets crypto c (msgs.take s.encoded.length)
  turn : Turn s msgs.length

variable {s : WriteQueue}

theorem length_buffers {k : Nat} (hk : k ≤ msgs.length) :
    (buffers crypto c msgs k).length = msgs.length := by
  rw [buffers, List.length_append, List.length_take, List.length_drop,
    length_packetFrames]
  omega

theorem Turn.encoded_le {total : Nat} (h : Turn s total) :
    s.encoded.length ≤ total ∧ s.completed ≤ s.encoded.length ∧
      s.handed.length ≤ total ∧ s.completed ≤ total := by
  cases h <;> omega

theorem buffers_append {k : Nat} (hk : k ≤ msgs.length) (msg : Bytes) :
    buffers crypto c (msgs ++ [msg]) k = buffers crypto c msgs k ++ [msg] := by
  obtain ⟨r, hr⟩ := @exists_writeSingleFramePacket crypto
    (afterPackets crypto c msgs) msg
  rw [buffers, buffers, (packetFrames_append msg hr).1,
    List.take_append_of_le_length (by rwa [length_packetFrames]),
    List.drop_append_of_le_length hk, List.append_assoc]

theorem Invariant.send (h : Invariant crypto c msgs s) (msg : Bytes) :
    Invariant crypto c (msgs ++ [msg]) (s.send msg) := by
  obtain ⟨hencoded, hle, hhanded, hcompleted⟩ := h.turn.encoded_le
  obtain ⟨r, hr⟩ := @exists_writeSingleFramePacket crypto
    (afterPackets crypto c msgs) msg
  have hbuffers := @length_buffers crypto c msgs s.encoded.length hencoded
  have hqueue : s.queue.length = msgs.length - s.completed := by
    rw [h.queue, List.length_drop, List.length_zipIdx, hbuffers]
  refine ⟨?_, ?_, ?_, ?_, ?_, ?_⟩
  · rw [List.length_append, ← h.pushed]
    rfl
  · show s.queue ++ [(msg, s.pushed)] =
      (buffers crypto c (msgs ++ [msg]) s.encoded.length).zipIdx.drop s.completed
    rw [buffers_append hencoded, List.zipIdx_append,
      List.drop_append_of_le_length
        (by rw [List.length_zipIdx, hbuffers]; exact hcompleted),
      ← h.queue, hbuffers, h.pushed]
    simp
  · show s.encoded = (msgs ++ [msg]).zipIdx.take s.encoded.length
    rw [List.zipIdx_append, List.take_append_of_le_length
      (by rwa [List.length_zipIdx]), ← h.encoded]
  · show s.handed =
      (packetFrames crypto c (msgs ++ [msg])).zipIdx.take s.handed.length
    rw [(packetFrames_append msg hr).1, List.zipIdx_append,
      List.take_append_of_le_length
        (by rwa [List.length_zipIdx, length_packetFrames]), ← h.handed]
  · show s.coder = afterPackets crypto c ((msgs ++ [msg]).take s.encoded.length)
    rw [List.take_append_of_le_length hencoded, h.coder]
  · rw [List.length_append, List.length_singleton]
    have hone : (s.queue ++ [(msg, s.pushed)]).length = 1 ↔
        s.completed = msgs.length := by
      rw [List.length_append, List.length_singleton, hqueue]
      omega
    cases h.turn with
    | idle htotal hk hj hstarting hhanding hflight =>
        refine .starting (by show s.completed < _; omega) hk hj ?_ hhanding
          hflight
        show (if _ then _ else _) = 1
        rw [if_pos (hone.2 htotal), hstarting]
    | starting htotal hk hj hstarting hhanding hflight =>
        refine .starting (by show s.completed < _; omega) hk hj ?_ hhanding
          hflight
        show (if _ then _ else _) = 1
        rw [if_neg (by rw [hone]; omega), hstarting]
    | handing htotal hk hj hstarting hhanding hflight =>
        refine .handing (by show s.completed < _; omega) hk hj ?_ hhanding
          hflight
        show (if _ then _ else _) = 0
        rw [if_neg (by rw [hone]; omega), hstarting]
    | writing htotal hk hj hstarting hhanding hflight =>
        refine .writing (by show s.completed < _; omega) hk hj ?_ hhanding
          hflight
        show (if _ then _ else _) = 0
        rw [if_neg (by rw [hone]; omega), hstarting]

/-- The buffers before and after the message `k` is encrypted. -/
theorem exists_buffers {k : Nat} (hk : k < msgs.length) :
    ∃ msg r rest, msgs[k]? = some msg ∧
      (afterPackets crypto c (msgs.take k)).writeSingleFramePacket crypto
        msg = .ok r ∧
      (packetFrames crypto c msgs)[k]? = some r.1 ∧
      afterPackets crypto c (msgs.take (k + 1)) = r.2 ∧
      (buffers crypto c msgs k).zipIdx.drop k = (msg, k) :: rest ∧
      (buffers crypto c msgs (k + 1)).zipIdx.drop k = (r.1, k) :: rest ∧
      (buffers crypto c msgs (k + 1)).zipIdx.drop (k + 1) = rest := by
  have hmsg : msgs[k]? = some msgs[k] := List.getElem?_eq_getElem hk
  obtain ⟨r, hr, hframe, hafter⟩ :=
    @packetFrames_getElem? crypto c _ _ _ hmsg
  have hlen : ((packetFrames crypto c msgs).take k).length = k := by
    rw [List.length_take, length_packetFrames]
    omega
  have hbefore : buffers crypto c msgs k = (packetFrames crypto c msgs).take k ++
      (msgs[k] :: msgs.drop (k + 1)) := by
    rw [buffers, List.drop_eq_getElem_cons hk]
  have hbehind : buffers crypto c msgs (k + 1) =
      (packetFrames crypto c msgs).take k ++ (r.1 :: msgs.drop (k + 1)) := by
    rw [buffers, List.take_add_one, hframe, Option.toList_some, List.append_assoc]
    rfl
  have hdrop : ∀ (a : Bytes) (b : List Bytes),
      ((packetFrames crypto c msgs).take k ++ (a :: b)).zipIdx.drop k =
        (a, k) :: b.zipIdx (k + 1) := by
    intro a b
    rw [List.zipIdx_append, List.drop_append_of_le_length (by simp [hlen]),
      List.drop_eq_nil_of_le (by simp [hlen]), List.nil_append, hlen,
      List.zipIdx_cons, Nat.zero_add]
  refine ⟨msgs[k], r, (msgs.drop (k + 1)).zipIdx (k + 1), hmsg, hr, hframe,
    hafter, ?_, ?_, ?_⟩
  · rw [hbefore, hdrop]
  · rw [hbehind, hdrop]
  · rw [← List.drop_drop, hbehind, hdrop, List.drop_one, List.tail_cons]

theorem Invariant.encrypt (h : Invariant crypto c msgs s)
    (hstart : s.starting ≠ 0) :
    ∃ s', s.encrypt crypto = .ok s' ∧ Invariant crypto c msgs s' := by
  cases h.turn with
  | idle htotal hk hj hstarting hhanding hflight => exact absurd hstarting hstart
  | handing htotal hk hj hstarting hhanding hflight =>
      exact absurd hstarting hstart
  | writing htotal hk hj hstarting hhanding hflight =>
      exact absurd hstarting hstart
  | starting htotal hk hj hstarting hhanding hflight =>
      obtain ⟨msg, r, rest, hmsg, hr, hframe, hafter, hbefore, hbehind, -⟩ :=
        @exists_buffers crypto c _ _ htotal
      have hqueue := h.queue
      have hcoder := h.coder
      rw [hk] at hcoder
      rw [hk, hbefore] at hqueue
      rw [← hcoder] at hr
      have hlen : (s.encoded ++ [(msg, s.completed)]).length =
          s.completed + 1 := by
        rw [List.length_append, List.length_singleton, hk]
      have hstep : s.encrypt crypto =
          .ok { s with
            coder := r.2, queue := (r.1, s.completed) :: rest,
            starting := s.starting - 1, handing := s.handing ++ [s.completed],
            encoded := s.encoded ++ [(msg, s.completed)] } := by
        rw [WriteQueue.encrypt, hqueue]
        simp only [hr, ok_bind]
      refine ⟨_, hstep, h.pushed, ?_, ?_, h.handed, ?_, ?_⟩
      · rw [hlen]
        exact hbehind.symm
      · rw [hlen, List.take_add_one, ← hk, ← h.encoded, hk,
          List.getElem?_zipIdx, hmsg, Nat.zero_add]
        rfl
      · rw [hlen, hafter]
      · refine .handing htotal hlen hj ?_ ?_ hflight
        · show s.starting - 1 = 0
          omega
        · show s.handing ++ [s.completed] = [s.completed]
          rw [hhanding, List.nil_append]

theorem Invariant.hand (h : Invariant crypto c msgs s) {number : Nat}
    (hmem : number ∈ s.handing) :
    ∃ s', s.hand number = .ok s' ∧ Invariant crypto c msgs s' := by
  cases h.turn with
  | idle htotal hk hj hstarting hhanding hflight => simp [hhanding] at hmem
  | starting htotal hk hj hstarting hhanding hflight => simp [hhanding] at hmem
  | writing htotal hk hj hstarting hhanding hflight => simp [hhanding] at hmem
  | handing htotal hk hj hstarting hhanding hflight =>
      rw [hhanding, List.mem_singleton] at hmem
      subst hmem
      obtain ⟨msg, r, rest, hmsg, hr, hframe, hafter, hbefore, hbehind, -⟩ :=
        @exists_buffers crypto c _ _ htotal
      have hqueue := h.queue
      rw [hk, hbehind] at hqueue
      have hfind : (s.queue.find? fun e => e.2 = s.completed) =
          some (r.1, s.completed) := by
        rw [hqueue, List.find?_cons_of_pos (by simp)]
      have hlen : (s.handed ++ [(r.1, s.completed)]).length =
          s.completed + 1 := by
        rw [List.length_append, List.length_singleton, hj]
      have hstep : s.hand s.completed =
          .ok { s with
            handing := s.handing.erase s.completed,
            inFlight := s.inFlight ++ [s.completed],
            handed := s.handed ++ [(r.1, s.completed)] } := by
        rw [WriteQueue.hand, hfind]
      refine ⟨_, hstep, h.pushed, h.queue, h.encoded, ?_, h.coder, ?_⟩
      · rw [hlen, List.take_add_one, ← hj, ← h.handed, hj,
          List.getElem?_zipIdx, hframe, Nat.zero_add]
        rfl
      · refine .writing htotal hk hlen hstarting ?_ ?_
        · show s.handing.erase s.completed = []
          rw [hhanding, List.erase_cons_head]
        · show s.inFlight ++ [s.completed] = [s.completed]
          rw [hflight, List.nil_append]

theorem Invariant.complete (h : Invariant crypto c msgs s) {number : Nat}
    (hmem : number ∈ s.inFlight) :
    ∃ s', s.complete number = .ok s' ∧ Invariant crypto c msgs s' := by
  cases h.turn with
  | idle htotal hk hj hstarting hhanding hflight => simp [hflight] at hmem
  | starting htotal hk hj hstarting hhanding hflight => simp [hflight] at hmem
  | handing htotal hk hj hstarting hhanding hflight => simp [hflight] at hmem
  | writing htotal hk hj hstarting hhanding hflight =>
      rw [hflight, List.mem_singleton] at hmem
      subst hmem
      obtain ⟨msg, r, rest, hmsg, hr, hframe, hafter, hbefore, hbehind, hrest⟩ :=
        @exists_buffers crypto c _ _ htotal
      have hqueue := h.queue
      rw [hk, hbehind] at hqueue
      have hlength : rest.length = msgs.length - (s.completed + 1) := by
        rw [← hrest, List.length_drop, List.length_zipIdx,
          length_buffers htotal]
      have hstep : s.complete s.completed =
          .ok { s with
            queue := rest, inFlight := s.inFlight.erase s.completed,
            completed := s.completed + 1,
            starting := if rest = [] then s.starting else s.starting + 1 } := by
        rw [WriteQueue.complete, hqueue]
      refine ⟨_, hstep, h.pushed, ?_, h.encoded, h.handed, h.coder, ?_⟩
      · rw [hk]
        exact hrest.symm
      · have herase : s.inFlight.erase s.completed = [] := by
          rw [hflight, List.erase_cons_head]
        by_cases hnil : rest = []
        · rw [hnil, List.length_nil] at hlength
          refine .idle ?_ hk hj ?_ hhanding herase
          · show s.completed + 1 = msgs.length
            omega
          · show (if _ then _ else _) = 0
            rw [if_pos hnil, hstarting]
        · have hpos := List.length_pos_iff.2 hnil
          refine .starting ?_ hk hj ?_ hhanding herase
          · show s.completed + 1 < msgs.length
            omega
          · show (if _ then _ else _) = 1
            rw [if_neg hnil, hstarting]

/-- The queue of a new session. -/
def start (c : RLPXFrameCoder) : WriteQueue := { coder := c }

theorem invariant_start : Invariant crypto c [] (start c) :=
  ⟨rfl, rfl, rfl, rfl, rfl, .idle rfl rfl rfl rfl rfl rfl⟩

open QueueEvent in
/-- Every step keeps the invariant. -/
theorem Invariant.step {events : List QueueEvent}
    (h : Invariant crypto c (sent events) s) (event : QueueEvent) :
    ∃ s', s.step crypto event = .ok s' ∧
      Invariant crypto c (sent (events ++ [event])) s' := by
  rw [sent_append]
  cases event with
  | send msg => exact ⟨_, rfl, h.send msg⟩
  | encrypt =>
      rw [show (QueueEvent.encrypt.sent?).toList = [] from rfl, List.append_nil]
      by_cases hstart : s.starting = 0
      · exact ⟨s, by rw [WriteQueue.step, if_pos hstart], h⟩
      · obtain ⟨s', hs', h'⟩ := h.encrypt hstart
        exact ⟨s', by rw [WriteQueue.step, if_neg hstart, hs'], h'⟩
  | hand number =>
      rw [show ((QueueEvent.hand number).sent?).toList = [] from rfl,
        List.append_nil]
      by_cases hmem : number ∈ s.handing
      · obtain ⟨s', hs', h'⟩ := h.hand hmem
        exact ⟨s', by rw [WriteQueue.step, if_pos hmem, hs'], h'⟩
      · exact ⟨s, by rw [WriteQueue.step, if_neg hmem], h⟩
  | complete number =>
      rw [show ((QueueEvent.complete number).sent?).toList = [] from rfl,
        List.append_nil]
      by_cases hmem : number ∈ s.inFlight
      · obtain ⟨s', hs', h'⟩ := h.complete hmem
        exact ⟨s', by rw [WriteQueue.step, if_pos hmem, hs'], h'⟩
      · exact ⟨s, by rw [WriteQueue.step, if_neg hmem], h⟩

open QueueEvent in
theorem exists_run (crypto : Crypto) (c : RLPXFrameCoder)
    (events : List QueueEvent) :
    ∃ s, run crypto (start c) events = .ok s ∧
      Invariant crypto c (sent events) s := by
  induction events using List.reverseRecOn with
  | nil => exact ⟨_, rfl, invariant_start⟩
  | append_singleton events event ih =>
      obtain ⟨s, hrun, h⟩ := ih
      obtain ⟨s', hs', h'⟩ := h.step event
      refine ⟨s', ?_, h'⟩
      rw [run, List.foldlM_append, ← run, hrun, ok_bind, List.foldlM_cons, hs']
      rfl

open QueueEvent in
/-- The write queue neither loses, duplicates nor reorders messages, whatever
the order of the steps: each message is encrypted once, in the order of
pushing, before it leaves the queue and while no write is under way; the frames
of the messages are handed to the socket in that order; and as long as the
queue is not empty, there is exactly one party about to encrypt the head, about
to hand it to the socket, or waiting for its write to complete. -/
theorem messages_written_in_order (crypto : Crypto) (c : RLPXFrameCoder)
    (events : List QueueEvent) :
    ∃ s, run crypto (start c) events = .ok s ∧
      s.inFlight.length ≤ 1 ∧
      s.starting + s.handing.length + s.inFlight.length =
        (if s.queue = [] then 0 else 1) ∧
      (s.starting ≠ 0 → s.handing = [] ∧ s.inFlight = []) ∧
      s.queue.map Prod.snd =
        List.range' s.completed ((sent events).length - s.completed) ∧
      s.encoded <+: (sent events).zipIdx ∧
      s.completed ≤ s.encoded.length ∧
      s.handed <+: (packetFrames crypto c (sent events)).zipIdx ∧
      s.completed ≤ s.handed.length := by
  obtain ⟨s, hrun, h⟩ := exists_run crypto c events
  obtain ⟨hencoded, hle, -, hcompleted⟩ := h.turn.encoded_le
  have hbuffers := @length_buffers crypto c _ s.encoded.length hencoded
  have hlen : s.queue.length = (sent events).length - s.completed := by
    rw [h.queue, List.length_drop, List.length_zipIdx, hbuffers]
  have hnil : s.queue = [] ↔ s.completed = (sent events).length := by
    rw [← List.length_eq_zero_iff, hlen]
    omega
  have hnumbers : s.queue.map Prod.snd =
      List.range' s.completed ((sent events).length - s.completed) := by
    rw [h.queue, List.map_drop, List.zipIdx_map_snd, hbuffers,
      List.drop_range', Nat.zero_add, Nat.mul_one]
  have hencoded' : s.encoded <+: (sent events).zipIdx :=
    h.encoded ▸ List.take_prefix _ _
  have hhanded : s.handed <+: (packetFrames crypto c (sent events)).zipIdx :=
    h.handed ▸ List.take_prefix _ _
  refine ⟨s, hrun, ?_, ?_, ?_, hnumbers, hencoded', hle, hhanded, ?_⟩
  · cases h.turn <;> simp_all
  · cases h.turn with
    | idle htotal hk hj hstarting hhanding hflight =>
        rw [if_pos (hnil.2 htotal), hstarting, hhanding, hflight]
        rfl
    | starting htotal hk hj hstarting hhanding hflight =>
        rw [if_neg (by rw [hnil]; omega), hstarting, hhanding, hflight]
        rfl
    | handing htotal hk hj hstarting hhanding hflight =>
        rw [if_neg (by rw [hnil]; omega), hstarting, hhanding, hflight]
        rfl
    | writing htotal hk hj hstarting hhanding hflight =>
        rw [if_neg (by rw [hnil]; omega), hstarting, hhanding, hflight]
        rfl
  · intro hstart
    cases h.turn with
    | idle htotal hk hj hstarting hhanding hflight =>
        exact absurd hstarting hstart
    | starting htotal hk hj hstarting hhanding hflight =>
        exact ⟨hhanding, hflight⟩
    | handing htotal hk hj hstarting hhanding hflight =>
        exact absurd hstarting hstart
    | writing htotal hk hj hstarting hhanding hflight =>
        exact absurd hstarting hstart
  · cases h.turn <;> omega

/-- A message is sent while another one is under way. -/
example :
    (run plainCrypto (start ⟨⟨[1], 0⟩, ⟨[1], 0⟩, [2], [3], [3]⟩)
        [.send [1, 0xc0], .encrypt, .hand 0, .send [2, 0xc0], .complete 0,
          .encrypt, .hand 1]).toOption.map (fun s =>
      (s.encoded, s.handed.length, s.inFlight)) =
      some ([([1, 0xc0], 0), ([2, 0xc0], 1)], 2, [1]) := by
  decide

end WriteQueue

end Web3Core
