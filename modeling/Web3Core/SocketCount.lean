/-
How a socket counts its packets.  `mux` tells how many packets it took off the
queues of a writer; so the counter is right as long as every packet that is
sent is queued and every packet that was taken is reported by a completion.
-/
import Web3Core.RLPXSocketFrames
import Web3Core.Runs

namespace Web3Core

namespace RLPXFrameWriter

open WriterState

/-- A loop takes as many packets off the queue as it counts. -/
theorem fill_count (fuel : Nat) : ∀ {f f' : Filling}, f.fill fuel = .ok f' →
    f'.ret + f'.qs.q.length = f.ret + f.qs.q.length := by
  induction fuel with
  | zero =>
      intro f f' h
      cases h
  | succ fuel ih =>
      intro f f' h
      have hstart : f.startPacket.1.ret = f.ret ∧
          f.startPacket.1.qs.q = f.qs.q := by
        rw [Filling.startPacket]
        split
        · exact ⟨rfl, rfl⟩
        · split
          · exact ⟨rfl, rfl⟩
          · dsimp only
            split
            · exact ⟨rfl, rfl⟩
            · exact ⟨rfl, rfl⟩
      have hportion : ∀ (g : Filling) (p : RLPXPacket) (rest : List RLPXPacket),
          g.qs.q = p :: rest →
          (g.writePortion p rest).ret + (g.writePortion p rest).qs.q.length =
            g.ret + g.qs.q.length := by
        intro g p rest hq
        rw [Filling.writePortion]
        split
        · split
          · simp only [hq, List.length_cons]
            omega
          · rfl
        · split
          · simp only [hq, List.length_cons]
            omega
          · rfl
      rw [Filling.fill] at h
      split at h
      · rw [Except.ok.injEq] at h
        rw [h]
      · dsimp only at h
        split at h
        · rw [Except.ok.injEq] at h
          rw [← h, hstart.1, hstart.2]
        · split at h
          · cases h
          · next p rest hq =>
              have hwritten := hportion _ p rest hq
              rw [hstart.1, hstart.2] at hwritten
              split at h
              · rw [Except.ok.injEq] at h
                rw [← h, hwritten]
              · rw [ih h, hwritten]

variable {w w' : RLPXFrameWriter} {crypto : Crypto}

theorem nextFrame_count {frameLen : Nat} {swapQueues : Bool} {f : Filling}
    (h : w.nextFrame frameLen swapQueues = .ok (f, w')) :
    f.ret + w'.size = w.size := by
  rw [nextFrame] at h
  dsimp only at h
  generalize hqs : (if w.takesHigh swapQueues = true then w.high
    else w.low) = qs at h
  generalize hfill : Filling.fill (qs.q.length + 1) _ = r at h
  cases r with
  | error e => cases h
  | ok g =>
      have hcount := fill_count _ hfill
      rw [ok_bind, Except.ok.injEq, Prod.mk.injEq] at h
      obtain ⟨rfl, rfl⟩ := h
      have hkept : (if (!g.payload.isEmpty && decide (g.qs.remaining = 0) &&
          g.qs.multiFrame) = true then { g.qs with multiFrame := false }
          else g.qs).q = g.qs.q := by
        split
        · rfl
        · rfl
      cases htakes : w.takesHigh swapQueues with
      | true =>
          simp only [htakes, ↓reduceIte] at hqs
          simp only [↓reduceIte, size, hkept, hqs]
          dsimp only at hcount
          omega
      | false =>
          simp only [htakes, Bool.false_eq_true, ↓reduceIte] at hqs
          simp only [Bool.false_eq_true, ↓reduceIte, size, hkept, hqs]
          dsimp only at hcount
          omega

theorem muxLoop_count (fuel : Nat) : ∀ {frameLen : Nat} {swapQueues : Bool}
    {m m' : Muxed}, muxLoop crypto fuel frameLen swapQueues m = .ok m' →
    m'.ret + m'.writer.size = m.ret + m.writer.size := by
  induction fuel with
  | zero =>
      intro frameLen swapQueues m m' h
      cases h
  | succ fuel ih =>
      intro frameLen swapQueues m m' h
      rw [muxLoop] at h
      split at h
      · cases h
        rfl
      · split at h
        · cases h
          rfl
        · cases hnext : m.writer.nextFrame frameLen swapQueues with
          | error e => simp [hnext] at h
          | ok next =>
              have hcount := nextFrame_count hnext
              rw [hnext, ok_bind] at h
              dsimp only at h
              split at h
              · rw [RLPXFrame.write_eq_sealed, ok_bind] at h
                have hrest := ih h
                dsimp only at hrest
                omega
              · split at h
                · cases h
                  dsimp only
                  omega
                · have hrest := ih h
                  dsimp only at hrest
                  omega

/-- The packets that `mux` counts are those it took. -/
theorem mux_count {c : RLPXFrameCoder} {size : Nat} {m : Muxed}
    (h : w.mux crypto c size = .ok m) : m.ret + m.writer.size = w.size := by
  rw [mux] at h
  split at h
  · cases h
    exact Nat.zero_add _
  · exact (muxLoop_count _ h).trans (Nat.zero_add _)

end RLPXFrameWriter

namespace RLPXSocketIO

open RLPXFrameWriter (LowOnly)

variable {crypto : Crypto} {s t : RLPXSocketIO} {event : SocketEvent}

/-- The packets in the queues of the writers. -/
def waiting (s : RLPXSocketIO) : Nat :=
  (s.writers.map RLPXFrameWriter.size).sum

/-- The packets of the writes that have not completed. -/
def inFlight (s : RLPXSocketIO) : Nat := (s.writes.map fun w => w.2).sum

/-- The counter is right. -/
def Counted (s : RLPXSocketIO) : Prop :=
  s.queued.toNat = s.waiting + s.inFlight

/-- What holds between the steps: the counter is right; a write is in flight or
a retry is pending, not both, and a retry is for packets that wait. -/
structure Regular (s : RLPXSocketIO) : Prop where
  lowOnly : ∀ w ∈ s.writers, w.LowOnly
  counted : s.Counted
  single : s.writes.length + s.waits ≤ 1
  dequed : ∀ w ∈ s.writes, 0 < w.2
  retried : 0 < s.waits → 0 < s.waiting

/-- Whether the counter stays right in a step: what is sent is valid and not
too much for a counter of 32 bits, and a write does not fail. -/
def KeepsCount (s : RLPXSocketIO) : SocketEvent → Prop
  | .send isOpen protocolType type payload =>
      isOpen = true → ∀ w data,
        s.writers[protocolType.toNat]? = some w → payload.out = .ok data →
          RLPXPacket.isValid ⟨w.protocolType.toUInt8,
            RLPTree.encode (.int type.toUInt8.toNat), data⟩ = true ∧
          s.waiting + s.inFlight + 1 < 2 ^ 32
  | .written index result => index < s.writes.length → result ≠ none
  | .retry _ => True

theorem muxAll_count {size : Nat} : ∀ {ws : List RLPXFrameWriter}
    {c : RLPXFrameCoder}
    {r : List RLPXFrameWriter × RLPXFrameCoder × Nat × List Bytes},
    muxAll crypto size ws c = .ok r →
    r.2.2.1 + (r.1.map RLPXFrameWriter.size).sum =
      (ws.map RLPXFrameWriter.size).sum := by
  intro ws
  induction ws with
  | nil =>
      intro c r h
      cases h
      rfl
  | cons w ws ih =>
      intro c r h
      rw [muxAll] at h
      cases hmux : w.mux crypto c size with
      | error e => simp [hmux] at h
      | ok m =>
          cases hrest : muxAll crypto size ws m.coder with
          | error e => simp [hmux, hrest] at h
          | ok rest =>
              rw [hmux, ok_bind, hrest, ok_bind, Except.ok.injEq] at h
              have hhead := RLPXFrameWriter.mux_count hmux
              have htail := ih hrest
              subst h
              simp only [List.map_cons, List.sum_cons]
              omega

theorem muxWriters_count
    {r : List RLPXFrameWriter × RLPXFrameCoder × Nat × List Bytes}
    (h : s.muxWriters crypto = .ok r) :
    r.2.2.1 + (r.1.map RLPXFrameWriter.size).sum = s.waiting := by
  rw [muxWriters] at h
  split at h
  · exact muxAll_count h
  · cases h
    exact Nat.zero_add _

/-- Some writer has something queued exactly if packets wait. -/
theorem active_pos_iff : 0 < s.active ↔ 0 < s.waiting := by
  rw [active, List.countP_pos_iff, waiting, List.sum_pos_iff_exists_pos_nat]
  simp [Nat.pos_iff_ne_zero]

/-- With packets that wait and nothing under way, `doWrite` succeeds. -/
theorem exists_doWrite (hlow : ∀ w ∈ s.writers, w.LowOnly)
    (hcounted : s.Counted) (hwrites : s.writes = []) (hwaits : s.waits = 0)
    (hpending : 0 < s.waiting) :
    ∃ t, s.doWrite crypto = .ok t ∧ t.Regular := by
  obtain ⟨r, hmuxed, hr, -⟩ := @exists_muxWriters crypto s hlow
  have hcount := muxWriters_count hmuxed
  have hqueued : s.queued.toNat = s.waiting := by
    rw [hcounted, inFlight, hwrites]
    rfl
  rw [doWrite, if_neg (active_pos_iff.mpr hpending).ne', hmuxed, ok_bind]
  dsimp only
  by_cases hdequed : r.2.2.1 ≠ 0
  · rw [if_pos hdequed]
    refine ⟨_, rfl, hr, ?_, ?_, ?_, ?_⟩
    · simp only [Counted, write, waiting, inFlight, hwrites, List.nil_append,
        List.map_cons, List.map_nil, List.sum_singleton]
      omega
    · simp [write, hwrites, hwaits]
    · simpa [write, hwrites] using Nat.pos_of_ne_zero hdequed
    · intro hretry
      simp [write, hwaits] at hretry
  · rw [if_neg hdequed]
    refine ⟨_, rfl, hr, ?_, ?_, ?_, ?_⟩
    · simp only [Counted, deferWrite, waiting, inFlight, hwrites, List.map_nil,
        List.sum_nil]
      omega
    · simp [deferWrite, hwrites, hwaits]
    · simp [deferWrite, hwrites]
    · intro _
      simp only [deferWrite, waiting]
      omega

/-- A valid packet is queued, any other is not. -/
theorem size_enquePacket (w : RLPXFrameWriter) (p : RLPXPacket) :
    (w.enquePacket p false).size = w.size + (if p.isValid then 1 else 0) := by
  rw [RLPXFrameWriter.enquePacket]
  cases p.isValid with
  | true =>
      simp only [RLPXFrameWriter.size, Bool.not_true, Bool.false_eq_true,
        ↓reduceIte, List.length_append, List.length_singleton]
      omega
  | false => rfl

theorem waiting_set {i : Nat} {w w' : RLPXFrameWriter} {n : Nat}
    (hw : s.writers[i]? = some w) (hsize : w'.size = w.size + n) :
    ((s.writers.set i w').map RLPXFrameWriter.size).sum = s.waiting + n := by
  rw [waiting]
  generalize s.writers = ws at hw
  induction ws generalizing i with
  | nil => simp at hw
  | cons v ws ih =>
      cases i with
      | zero =>
          rw [List.getElem?_cons_zero, Option.some.injEq] at hw
          subst hw
          simp only [List.set_cons_zero, List.map_cons, List.sum_cons, hsize]
          omega
      | succ i =>
          rw [List.getElem?_cons_succ] at hw
          have hrest := ih hw
          simp only [List.set_cons_succ, List.map_cons, List.sum_cons, hrest]
          omega

/-- With a right counter of zero nothing is under way. -/
theorem Regular.idle (h : s.Regular) (hzero : s.queued = 0) :
    s.writes = [] ∧ s.waits = 0 ∧ s.waiting = 0 := by
  have hcounted := h.counted
  rw [Counted, hzero, UInt32.toNat_zero] at hcounted
  have hwaiting : s.waiting = 0 := by omega
  refine ⟨?_, ?_, hwaiting⟩
  · rw [List.eq_nil_iff_forall_not_mem]
    intro w hw
    have hpos := h.dequed w hw
    have hsum : 0 < s.inFlight := by
      rw [inFlight, List.sum_pos_iff_exists_pos_nat]
      exact ⟨w.2, List.mem_map.mpr ⟨w, hw, rfl⟩, hpos⟩
    omega
  · by_contra hretry
    have hpos := h.retried (Nat.pos_of_ne_zero hretry)
    omega

/-- What `send` does with a packet that the stream gives. -/
theorem send_eq {protocolType type : UInt32} {payload : RLPStream}
    {w : RLPXFrameWriter} {data : Bytes}
    (hw : s.writers[protocolType.toNat]? = some w)
    (hdata : payload.out = .ok data) :
    s.send true protocolType type payload =
      .ok ({ s with
        writers := s.writers.set protocolType.toNat (w.enquePacket
          ⟨w.protocolType.toUInt8, RLPTree.encode (.int type.toUInt8.toNat),
            data⟩ false),
        queued := s.queued + 1 }, s.queued + 1 = 1) := by
  rw [send]
  simp only [Bool.not_true, Bool.false_eq_true, ↓reduceIte, hw,
    RLPXFrameWriter.enque_eq, hdata, Except.map, ok_bind]

/-- `send` fails or is ignored. -/
theorem handle_send_ignored {isOpen : Bool} {protocolType type : UInt32}
    {payload : RLPStream}
    (h : isOpen = false ∨ s.writers[protocolType.toNat]? = none ∨
      ∃ e, payload.out = .error e) :
    s.handle (.send isOpen protocolType type payload) = (s, false) := by
  rw [handle, send]
  cases isOpen with
  | false => rfl
  | true =>
      cases hw : s.writers[protocolType.toNat]? with
      | none => rfl
      | some w =>
          rcases h with hclosed | hnone | ⟨e, he⟩
          · cases hclosed
          · rw [hw] at hnone
            cases hnone
          · simp only [Bool.not_true, Bool.false_eq_true, ↓reduceIte,
              RLPXFrameWriter.enque_eq, he, Except.map]
            rfl

theorem step_of_handle {u : RLPXSocketIO} (h : s.handle event = (u, false)) :
    s.step crypto event = .ok u := by
  simp only [step, h, Bool.false_eq_true, ↓reduceIte]

theorem step_of_handle_write {u : RLPXSocketIO}
    (h : s.handle event = (u, true)) :
    s.step crypto event = u.doWrite crypto := by
  simp only [step, h, ↓reduceIte]

theorem toNat_succ {n : UInt32} (h : n.toNat + 1 < 2 ^ 32) :
    (n + 1).toNat = n.toNat + 1 := by
  rw [UInt32.toNat_add]
  exact Nat.mod_eq_of_lt h

/-- What a packet that is sent changes. -/
theorem exists_handle_send {protocolType type : UInt32} {payload : RLPStream}
    {w : RLPXFrameWriter} {data : Bytes}
    (hw : s.writers[protocolType.toNat]? = some w)
    (hdata : payload.out = .ok data) :
    ∃ u, s.handle (.send true protocolType type payload) =
        (u, decide (s.queued + 1 = 1)) ∧ u.queued = s.queued + 1 ∧
      u.writes = s.writes ∧ u.waits = s.waits ∧
      u.waiting = s.waiting + (if RLPXPacket.isValid ⟨w.protocolType.toUInt8,
        RLPTree.encode (.int type.toUInt8.toNat), data⟩ then 1 else 0) := by
  refine ⟨{ s with
    writers := s.writers.set protocolType.toNat (w.enquePacket
      ⟨w.protocolType.toUInt8, RLPTree.encode (.int type.toUInt8.toNat),
        data⟩ false),
    queued := s.queued + 1 }, ?_, rfl, rfl, rfl,
    waiting_set hw (size_enquePacket w _)⟩
  rw [handle, send_eq hw hdata]

/-- A valid packet is sent. -/
theorem Regular.exists_step_send (h : s.Regular) {protocolType type : UInt32}
    {payload : RLPStream} {w : RLPXFrameWriter} {data : Bytes}
    (hw : s.writers[protocolType.toNat]? = some w)
    (hdata : payload.out = .ok data)
    (hvalid : RLPXPacket.isValid ⟨w.protocolType.toUInt8,
      RLPTree.encode (.int type.toUInt8.toNat), data⟩ = true)
    (hroom : s.waiting + s.inFlight + 1 < 2 ^ 32) :
    ∃ t, s.step crypto (.send true protocolType type payload) = .ok t ∧
      t.Regular := by
  have hcounted : s.queued.toNat = s.waiting + s.inFlight := h.counted
  obtain ⟨u, hhandle, hqueued, hwrites, hwaits, hwaiting⟩ :=
    @exists_handle_send s protocolType type payload w data hw hdata
  have hlow := (@handle_cases s (.send true protocolType type payload)
    h.lowOnly).1
  rw [hhandle] at hlow
  rw [if_pos hvalid] at hwaiting
  have hflight : u.inFlight = s.inFlight := by rw [inFlight, hwrites, inFlight]
  have hcounted' : u.Counted := by
    rw [Counted, hqueued, toNat_succ (by omega)]
    omega
  by_cases hone : s.queued + 1 = 1
  · have hzero : s.queued = 0 := by
      have hnat := congrArg UInt32.toNat hone
      rw [toNat_succ (by omega)] at hnat
      exact UInt32.toNat_inj.mp (Nat.succ.inj hnat)
    obtain ⟨hnothing, hnone, -⟩ := h.idle hzero
    rw [step_of_handle_write (by rw [hhandle, decide_eq_true hone])]
    exact exists_doWrite hlow hcounted' (hwrites.trans hnothing)
      (hwaits.trans hnone) (by omega)
  · rw [step_of_handle (by rw [hhandle, decide_eq_false hone])]
    refine ⟨u, rfl, hlow, hcounted', ?_, ?_, fun _ => by omega⟩
    · rw [hwrites, hwaits]
      exact h.single
    · rw [hwrites]
      exact h.dequed

/-- The only write that is in flight completes. -/
theorem Regular.exists_step_written (h : s.Regular) {index size : Nat}
    (hindex : index < s.writes.length) :
    ∃ t, s.step crypto (.written index (some size)) = .ok t ∧ t.Regular := by
  have hcounted : s.queued.toNat = s.waiting + s.inFlight := h.counted
  have hsingle := h.single
  obtain ⟨w, hwrites⟩ : ∃ w, s.writes = [w] :=
    List.length_eq_one_iff.mp (by omega)
  have hwaits : s.waits = 0 := by
    rw [hwrites, List.length_singleton] at hsingle
    omega
  obtain rfl : index = 0 := by
    rw [hwrites, List.length_singleton] at hindex
    omega
  have hflight : s.inFlight = w.2 := by simp [inFlight, hwrites]
  have hqueued := @toNat_sub_ofNat s.queued w.2 (by omega)
  obtain ⟨u, hhandle, hu, hnothing, hnone, hwriters⟩ : ∃ u,
      s.handle (.written 0 (some size)) =
        (u, decide (s.queued - UInt32.ofNat w.2 > 0)) ∧
      u.queued = s.queued - UInt32.ofNat w.2 ∧ u.writes = [] ∧ u.waits = 0 ∧
      u.writers = s.writers := by
    refine ⟨(s.written 0 (some size)).1, ?_, ?_, ?_, ?_, ?_⟩
    · simp [handle, written, hwrites]
    · simp [written, hwrites]
    · simp [written, hwrites]
    · simp [written, hwrites, hwaits]
    · simp [written, hwrites]
  have hwaiting : u.waiting = s.waiting := by rw [waiting, hwriters, waiting]
  have hcounted' : u.Counted := by
    rw [Counted, hu, hqueued, hwaiting, inFlight, hnothing]
    simp only [List.map_nil, List.sum_nil]
    omega
  have hlow : ∀ w ∈ u.writers, w.LowOnly := by
    rw [hwriters]
    exact h.lowOnly
  by_cases hmore : s.queued - UInt32.ofNat w.2 > 0
  · have hpos := UInt32.lt_iff_toNat_lt.mp hmore
    rw [hqueued, UInt32.toNat_zero] at hpos
    rw [step_of_handle_write (by rw [hhandle, decide_eq_true hmore])]
    exact exists_doWrite hlow hcounted' hnothing hnone (by omega)
  · rw [step_of_handle (by rw [hhandle, decide_eq_false hmore])]
    refine ⟨u, rfl, hlow, hcounted', ?_, ?_, ?_⟩
    · simp [hnothing, hnone]
    · simp [hnothing]
    · simp [hnone]

/-- A retry. -/
theorem Regular.exists_step_retry (h : s.Regular) (cancelled : Bool) :
    ∃ t, s.step crypto (.retry cancelled) = .ok t ∧ t.Regular := by
  have hsingle := h.single
  by_cases hnone : s.waits = 0
  · have hhandle : s.handle (.retry cancelled) = (s, false) := by
      rw [handle, retry, if_pos hnone]
    rw [step_of_handle hhandle]
    exact ⟨s, rfl, h⟩
  · have hpos := h.retried (Nat.pos_of_ne_zero hnone)
    have hwrites : s.writes = [] := List.length_eq_zero_iff.mp (by omega)
    have hlast : s.waits - 1 = 0 := by omega
    have hhandle : s.handle (.retry cancelled) =
        ({ s with waits := s.waits - 1 }, !cancelled) := by
      rw [handle, retry, if_neg hnone]
    cases cancelled with
    | false =>
        rw [step_of_handle_write hhandle]
        exact exists_doWrite h.lowOnly h.counted hwrites hlast hpos
    | true =>
        rw [step_of_handle hhandle]
        refine ⟨_, rfl, h.lowOnly, h.counted, ?_, h.dequed, fun hretry => ?_⟩
        · simp [hwrites, hlast]
        · simp [hlast] at hretry

/-- A step that keeps the count succeeds, and leaves everything regular. -/
theorem Regular.exists_step (h : s.Regular) (hkeeps : s.KeepsCount event) :
    ∃ t, s.step crypto event = .ok t ∧ t.Regular := by
  cases event with
  | send isOpen protocolType type payload =>
      have hignored : (isOpen = false ∨
          s.writers[protocolType.toNat]? = none ∨
          ∃ e, payload.out = .error e) →
          ∃ t, s.step crypto (.send isOpen protocolType type payload) = .ok t ∧
            t.Regular := fun hcase =>
        ⟨s, step_of_handle (handle_send_ignored hcase), h⟩
      cases isOpen with
      | false => exact hignored (.inl rfl)
      | true =>
          cases hw : s.writers[protocolType.toNat]? with
          | none => exact hignored (.inr (.inl hw))
          | some w =>
              cases hdata : payload.out with
              | error e => exact hignored (.inr (.inr ⟨e, hdata⟩))
              | ok data =>
                  obtain ⟨hvalid, hroom⟩ := hkeeps rfl w data hw hdata
                  exact h.exists_step_send hw hdata hvalid hroom
  | written index result =>
      by_cases hindex : index < s.writes.length
      · cases result with
        | none => exact absurd rfl (hkeeps hindex)
        | some size => exact h.exists_step_written hindex
      · have hnone : s.writes[index]? = none :=
          List.getElem?_eq_none (Nat.not_lt.mp hindex)
        have hhandle : s.handle (.written index result) = (s, false) := by
          rw [handle, written, hnone]
        exact ⟨s, step_of_handle hhandle, h⟩
  | retry cancelled => exact h.exists_step_retry cancelled

/-- Any other step leaves the counter wrong, unless it fails. -/
theorem Regular.not_counted (h : s.Regular) (hbad : ¬ s.KeepsCount event)
    (hstep : s.step crypto event = .ok t) : ¬ t.Counted := by
  have hcounted : s.queued.toNat = s.waiting + s.inFlight := h.counted
  cases event with
  | send isOpen protocolType type payload =>
      simp only [KeepsCount, not_forall] at hbad
      obtain ⟨rfl, w, data, hw, hdata, hbad⟩ := hbad
      obtain ⟨u, hhandle, hqueued, hwrites, hwaits, hwaiting⟩ :=
        @exists_handle_send s protocolType type payload w data hw hdata
      have hflight : u.inFlight = s.inFlight := by
        rw [inFlight, hwrites, inFlight]
      have hsum : (s.queued + 1).toNat = (s.queued.toNat + 1) % 2 ^ 32 :=
        UInt32.toNat_add _ _
      have hlt := s.queued.toNat_lt
      by_cases hone : s.queued + 1 = 1
      · -- Nothing was queued, so there is no writer to divide by.
        have hnat := congrArg UInt32.toNat hone
        rw [hsum, UInt32.toNat_one] at hnat
        have hinvalid : u.waiting = 0 := by
          rw [hwaiting]
          split
          · next hvalid => exact absurd ⟨hvalid, by omega⟩ hbad
          · omega
        have hidle : u.active = 0 := by
          have hiff := @active_pos_iff u
          omega
        rw [step_of_handle_write (by rw [hhandle, decide_eq_true hone]),
          doWrite, if_pos hidle] at hstep
        cases hstep
      · rw [step_of_handle (by rw [hhandle, decide_eq_false hone]),
          Except.ok.injEq] at hstep
        subst hstep
        rw [Counted, hqueued, hsum, hflight, hwaiting]
        split
        · next hvalid =>
            have hfull : ¬ s.waiting + s.inFlight + 1 < 2 ^ 32 :=
              fun hroom => hbad ⟨hvalid, hroom⟩
            omega
        · omega
  | written index result =>
      simp only [KeepsCount, not_forall, not_not] at hbad
      obtain ⟨hindex, rfl⟩ := hbad
      have hsingle := h.single
      obtain ⟨w, hwrites⟩ : ∃ w, s.writes = [w] :=
        List.length_eq_one_iff.mp (by omega)
      obtain rfl : index = 0 := by
        rw [hwrites, List.length_singleton] at hindex
        omega
      have hpos := h.dequed w (by simp [hwrites])
      have hhandle : s.handle (.written 0 none) =
          ({ s with writes := [] }, false) := by
        rw [handle, written, hwrites]
        rfl
      rw [step_of_handle hhandle, Except.ok.injEq] at hstep
      subst hstep
      have hflight : s.inFlight = w.2 := by simp [inFlight, hwrites]
      simp only [Counted, waiting, inFlight, List.map_nil, List.sum_nil]
      rw [waiting] at hcounted
      omega
  | retry cancelled => exact absurd trivial hbad

theorem Regular.start (protCount : UInt32) (coder : RLPXFrameCoder)
    (flowControl : Bool) (initialCapacity : Nat) :
    (start protCount coder flowControl initialCapacity).Regular := by
  refine ⟨lowOnly_start protCount coder flowControl initialCapacity, ?_,
    Nat.zero_le _, ?_, ?_⟩
  · simp [Counted, waiting, inFlight, RLPXSocketIO.start,
      RLPXFrameWriter.size, Function.comp_def]
  · intro w hw
    cases hw
  · intro hretry
    cases hretry

/-- No step of a run fails, and the counter is right in every state that is
reached, if and only if every step keeps the count. -/
theorem counted_iff (crypto : Crypto) (protCount : UInt32)
    (coder : RLPXFrameCoder) (flowControl : Bool) (initialCapacity : Nat)
    (events : List SocketEvent) :
    (∀ before, before <+: events → ∃ t,
        (start protCount coder flowControl initialCapacity).run crypto before =
          .ok t ∧ t.Counted) ↔
      ∀ before event t, before ++ [event] <+: events →
        (start protCount coder flowControl initialCapacity).run crypto before =
          .ok t → t.KeepsCount event :=
  @foldlM_along_iff _ _ _ (step crypto) Regular Counted KeepsCount
    (fun _ h => h.counted) (fun _ _ h => h.exists_step)
    (fun _ _ _ h => h.not_counted) events _
    (Regular.start protCount coder flowControl initialCapacity)

/-- A payload that is no item is not queued, but it is counted. -/
theorem division_by_zero :
    (start 1 plainCoder true 1024).run plainCrypto
      [.send true 0 1 ⟨[0x82], []⟩] = .error .divisionByZero := by
  have herror : (match (start 1 plainCoder true 1024).run plainCrypto
      [.send true 0 1 ⟨[0x82], []⟩] with
    | .error e => decide (e = .divisionByZero)
    | .ok _ => false) = true := by decide +kernel
  cases hrun : (start 1 plainCoder true 1024).run plainCrypto
      [.send true 0 1 ⟨[0x82], []⟩] with
  | error e =>
      rw [hrun] at herror
      exact congrArg _ (of_decide_eq_true herror)
  | ok t =>
      rw [hrun] at herror
      cases herror

end RLPXSocketIO

end Web3Core
