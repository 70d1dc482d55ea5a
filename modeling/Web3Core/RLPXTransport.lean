/-
Packets over frames.  While the frames of a writer are read in order, the reader
holds just what was sent of the packets the writer has begun, so it gives every
packet when its last byte arrives.  This needs that each first frame of a packet
is accepted: it must not be larger than the packet, and its number must not be
that of the packet the other queue has begun.
-/
import Web3Core.RLPXDemux

namespace Web3Core

/-- What the header of a frame tells. -/
def RLPXFrame.told (f : RLPXFrame) : RLPXFrameInfo :=
  { f.info with length := f.payload.length % 2 ^ 24 }

namespace WriterState

/-- What a reader holds of the packet that a queue has begun, under the number
of its frames. -/
def sent (qs : WriterState) : Option (Nat × (RLPXPacket × UInt32)) :=
  match qs.writing, qs.q with
  | true, p :: _ =>
      some (qs.sequence.toNat,
        ⟨p.cap, p.type, p.data.take (p.data.length - qs.remaining)⟩,
        UInt32.ofNat qs.remaining)
  | _, _ => none

@[simp] theorem sent_idle (q : List RLPXPacket) (sequence : UInt16) :
    (idle q sequence).sent = none := rfl

@[simp] theorem sent_busy (p : RLPXPacket) (rest : List RLPXPacket) (r : Nat)
    (sequence : UInt16) :
    (busy p rest r sequence).sent = some (sequence.toNat,
      ⟨p.cap, p.type, p.data.take (p.data.length - r)⟩, UInt32.ofNat r) := rfl

theorem of_sent {qs : WriterState} {v : Nat × (RLPXPacket × UInt32)}
    (h : qs.sent = some v) : qs.writing = true ∧ v.1 = qs.sequence.toNat := by
  obtain ⟨q, writing, remaining, multiFrame, sequence⟩ := qs
  cases writing with
  | false => cases h
  | true =>
      cases q with
      | nil => cases h
      | cons p rest =>
          cases h
          exact ⟨rfl, rfl⟩

end WriterState

/-- What a packet lacks after its first part, computed from its size as far as
that is told. -/
theorem ofNat_lacking {size type n : Nat} (htype : type ≤ n) (hn : n < size) :
    UInt32.ofNat (subSize (subSize (UInt32.ofNat size).toNat type) (n - type)) =
      UInt32.ofNat (size - n) := by
  refine UInt32.toNat.inj ?_
  simp only [UInt32.toNat_ofNat', subSize]
  omega

namespace RLPXFrameWriter

open WriterState

def queue (w : RLPXFrameWriter) (high : Bool) : WriterState :=
  if high then w.high else w.low

/-- The queue that a round does not take from. -/
def other (w : RLPXFrameWriter) (swapQueues : Bool) : WriterState :=
  w.queue !w.takesHigh swapQueues

theorem exists_queue_iff (w : RLPXFrameWriter) (swapQueues : Bool)
    (P : WriterState → Prop) :
    (∃ high, P (w.queue high)) ↔
      P (w.taken swapQueues) ∨ P (w.other swapQueues) := by
  have htaken : w.taken swapQueues = w.queue (w.takesHigh swapQueues) := rfl
  rw [htaken, other]
  cases w.takesHigh swapQueues with
  | true => simp [Bool.exists_bool, or_comm]
  | false => simp [Bool.exists_bool]

theorem forall_queue_iff (w : RLPXFrameWriter) (swapQueues : Bool)
    (P : WriterState → Prop) :
    (∀ high, P (w.queue high)) ↔
      P (w.taken swapQueues) ∧ P (w.other swapQueues) := by
  have htaken : w.taken swapQueues = w.queue (w.takesHigh swapQueues) := rfl
  rw [htaken, other]
  cases w.takesHigh swapQueues with
  | true => simp [Bool.forall_bool, and_comm]
  | false => simp [Bool.forall_bool]

theorem exists_queue_leave_iff (w : RLPXFrameWriter) (swapQueues : Bool)
    (qs : WriterState) (sid : UInt16) (P : WriterState → Prop) :
    (∃ high, P ((w.leave swapQueues qs sid).queue high)) ↔
      P qs ∨ P (w.other swapQueues) := by
  rw [other, leave]
  cases w.takesHigh swapQueues with
  | true => simp [Bool.exists_bool, queue, or_comm]
  | false => simp [Bool.exists_bool, queue]

theorem forall_queue_leave_iff (w : RLPXFrameWriter) (swapQueues : Bool)
    (qs : WriterState) (sid : UInt16) (P : WriterState → Prop) :
    (∀ high, P ((w.leave swapQueues qs sid).queue high)) ↔
      P qs ∧ P (w.other swapQueues) := by
  rw [other, leave]
  cases w.takesHigh swapQueues with
  | true => simp [Bool.forall_bool, queue, and_comm]
  | false => simp [Bool.forall_bool, queue]

theorem protocolType_leave (w : RLPXFrameWriter) (swapQueues : Bool)
    (qs : WriterState) (sid : UInt16) :
    (w.leave swapQueues qs sid).protocolType = w.protocolType := by
  rw [leave]
  split <;> rfl

/-- A frame is read as it was meant, unless it is the first one of a packet.
Then the packet is of at most 2^32 bytes and not smaller than the frame, as far
as its size is told, and the packet that the other queue has begun has another
number. -/
def RoundStart.readable (s : RoundStart) : Bool :=
  match (s.writer.taken s.swapQueues).writing,
      (s.writer.taken s.swapQueues).q with
  | false, p :: _ =>
      decide (p.size ≤ s.frameAllot) ||
        (decide (p.size = 2 ^ 32 ∨ (p.size < 2 ^ 32 ∧
            s.frameAllot + RLPXFrameCoder.paddingOf s.frameAllot + 16 ≤
              p.size)) &&
          !((s.writer.other s.swapQueues).writing &&
            (s.writer.other s.swapQueues).sequence = s.writer.sequenceId + 1))
  | _, _ => true

end RLPXFrameWriter

open RLPXFrameWriter WriterState

/-- The reader holds what was sent of the packets that the writer has begun, and
nothing else. -/
structure Follows (w : RLPXFrameWriter) (r : RLPXFrameReader) : Prop where
  protocolType : r.protocolType = w.protocolType
  ok : ∀ high, (w.queue high).Ok
  carried : ∀ high, ∀ p ∈ (w.queue high).q,
    p.Carried w.protocolType.toUInt8
  bounded : ∀ high, (w.queue high).remaining < 2 ^ 32
  distinct : ∀ v v', w.high.sent = some v → w.low.sent = some v' → v.1 ≠ v'.1
  incomplete : ∀ k v, r.incomplete.lookup k = some v ↔
    ∃ high, (w.queue high).sent = some (k, v)

namespace Follows

variable {w : RLPXFrameWriter} {r r' : RLPXFrameReader} {swapQueues : Bool}
  {allot : Nat} {qs : WriterState} {sid : UInt16}

theorem lookup_iff (h : Follows w r) (swapQueues : Bool) (k : Nat)
    (v : RLPXPacket × UInt32) :
    r.incomplete.lookup k = some v ↔
      (w.taken swapQueues).sent = some (k, v) ∨
        (w.other swapQueues).sent = some (k, v) := by
  rw [h.incomplete]
  exact exists_queue_iff w swapQueues fun qs => qs.sent = some (k, v)

/-- The two packets that were begun have different numbers. -/
theorem distinct' (h : Follows w r) {v v' : Nat × (RLPXPacket × UInt32)}
    (hv : (w.taken swapQueues).sent = some v)
    (hv' : (w.other swapQueues).sent = some v') : v.1 ≠ v'.1 := by
  have htaken : w.taken swapQueues = w.queue (w.takesHigh swapQueues) := rfl
  rw [htaken] at hv
  rw [other] at hv'
  cases hhigh : w.takesHigh swapQueues with
  | true =>
      rw [hhigh] at hv hv'
      exact h.distinct v v' hv hv'
  | false =>
      rw [hhigh] at hv hv'
      exact (h.distinct v' v hv' hv).symm

/-- A round that changes the queue it takes from and what is held of it. -/
theorem leave (h : Follows w r) (hprotocol : r'.protocolType = r.protocolType)
    (hok : qs.Ok) (hq : ∀ p ∈ qs.q, p ∈ (w.taken swapQueues).q)
    (hbounded : qs.remaining < 2 ^ 32)
    (hdistinct : ∀ v v', qs.sent = some v →
      (w.other swapQueues).sent = some v' → v.1 ≠ v'.1)
    (hincomplete : ∀ k v, r'.incomplete.lookup k = some v ↔
      qs.sent = some (k, v) ∨ (w.other swapQueues).sent = some (k, v)) :
    Follows (w.leave swapQueues qs sid) r' := by
  have hok' := (forall_queue_iff w swapQueues WriterState.Ok).1 h.ok
  have hcarried := (forall_queue_iff w swapQueues fun qs =>
    ∀ p ∈ qs.q, p.Carried w.protocolType.toUInt8).1 h.carried
  have hbounded' := (forall_queue_iff w swapQueues fun qs =>
    qs.remaining < 2 ^ 32).1 h.bounded
  refine ⟨?_, ?_, ?_, ?_, ?_, ?_⟩
  · rw [hprotocol, h.protocolType, protocolType_leave]
  · exact (forall_queue_leave_iff w swapQueues qs sid WriterState.Ok).2
      ⟨hok, hok'.2⟩
  · rw [protocolType_leave]
    exact (forall_queue_leave_iff w swapQueues qs sid fun qs =>
      ∀ p ∈ qs.q, p.Carried w.protocolType.toUInt8).2
      ⟨fun p hp => hcarried.1 p (hq p hp), hcarried.2⟩
  · exact (forall_queue_leave_iff w swapQueues qs sid fun qs =>
      qs.remaining < 2 ^ 32).2 ⟨hbounded, hbounded'.2⟩
  · intro v v' hv hv'
    rw [RLPXFrameWriter.leave] at hv hv'
    rw [other] at hdistinct
    cases hhigh : w.takesHigh swapQueues with
    | true =>
        rw [hhigh] at hv hv' hdistinct
        exact hdistinct v v' hv hv'
    | false =>
        rw [hhigh] at hv hv' hdistinct
        exact (hdistinct v' v hv' hv).symm
  · intro k v
    rw [hincomplete]
    exact (exists_queue_leave_iff w swapQueues qs sid fun qs =>
      qs.sent = some (k, v)).symm

section Rounds

variable {p : RLPXPacket} {q rest : List RLPXPacket} {n : Nat}
  {sequence : UInt16} {tag : Bytes}

theorem carried_taken (h : Follows w r) (swapQueues : Bool) :
    ∀ p ∈ (w.taken swapQueues).q, p.Carried r.protocolType.toUInt8 := by
  rw [h.protocolType]
  exact ((forall_queue_iff w swapQueues fun qs =>
    ∀ p ∈ qs.q, p.Carried w.protocolType.toUInt8).1 h.carried).1

/-- The number of a first frame is not in use. -/
theorem lookup_none (h : Follows w r) {k : Nat}
    (htaken : (w.taken swapQueues).sent = none)
    (hother : ∀ v, (w.other swapQueues).sent = some v → v.1 ≠ k) :
    r.incomplete.lookup k = none := by
  rw [Option.eq_none_iff_forall_ne_some]
  intro v hv
  rcases (h.lookup_iff swapQueues k v).1 hv with hv | hv
  · rw [htaken] at hv
    cases hv
  · exact hother _ hv rfl

/-- An entry is put under the number of the queue that a round takes from. -/
theorem lookup_insert_iff (h : Follows w r) {key : Nat}
    {value : RLPXPacket × UInt32}
    (htaken : ∀ v, (w.taken swapQueues).sent = some v → v.1 = key)
    (hother : ∀ v, (w.other swapQueues).sent = some v → v.1 ≠ key)
    (k : Nat) (v : RLPXPacket × UInt32) :
    (r.incomplete.insert key value).lookup k = some v ↔
      some (key, value) = some (k, v) ∨
        (w.other swapQueues).sent = some (k, v) := by
  rw [OrderedMap.lookup_insert, Option.some.injEq, Prod.mk.injEq]
  by_cases hk : k = key
  · have hno : (w.other swapQueues).sent ≠ some (k, v) :=
      fun hv => hother _ hv hk
    simp [hk.symm, hno]
  · have hno : (w.taken swapQueues).sent ≠ some (k, v) :=
      fun hv => hk (htaken _ hv)
    rw [if_neg hk, h.lookup_iff swapQueues, or_iff_right hno,
      or_iff_right fun h => hk h.1.symm]

/-- A round leaves a packet half sent, and the reader holds what was sent of
it. -/
theorem leave_busy (h : Follows w r)
    (hq : ∀ p' ∈ p :: rest, p' ∈ (w.taken swapQueues).q) (hpos : 0 < n)
    (hlt : n < p.data.length) (hmax : n < 2 ^ 32)
    (htaken : ∀ v, (w.taken swapQueues).sent = some v → v.1 = sequence.toNat)
    (hother : ∀ v, (w.other swapQueues).sent = some v →
      v.1 ≠ sequence.toNat) :
    Follows (w.leave swapQueues (busy p rest n sequence) sid)
      { r with
        incomplete := r.incomplete.insert sequence.toNat
          (⟨p.cap, p.type, p.data.take (p.data.length - n)⟩,
            UInt32.ofNat n) } := by
  have hcarried := h.carried_taken swapQueues
  refine h.leave rfl
    (.busy _ (fun p' hp' => (hcarried p' (hq p' hp')).sendable) hpos hlt)
    hq (show n < 2 ^ 32 from hmax) (fun v v' hv hv' => ?_) fun k v => ?_
  · rw [sent_busy, Option.some.injEq] at hv
    rw [← hv]
    exact (hother v' hv').symm
  · rw [sent_busy]
    exact h.lookup_insert_iff htaken hother k v

/-- The entry of the queue that a round takes from is erased. -/
theorem lookup_erase_iff (h : Follows w r) {key : Nat}
    (htaken : ∀ v, (w.taken swapQueues).sent = some v → v.1 = key)
    (hother : ∀ v, (w.other swapQueues).sent = some v → v.1 ≠ key)
    (k : Nat) (v : RLPXPacket × UInt32) :
    (r.incomplete.erase key).lookup k = some v ↔
      (w.other swapQueues).sent = some (k, v) := by
  rw [OrderedMap.lookup_erase]
  by_cases hk : k = key
  · have hno : (w.other swapQueues).sent ≠ some (k, v) :=
      fun hv => hother _ hv hk
    simp [hk, hk ▸ hno]
  · have hno : (w.taken swapQueues).sent ≠ some (k, v) :=
      fun hv => hk (htaken _ hv)
    rw [if_neg hk, h.lookup_iff swapQueues, or_iff_right hno]

theorem accept_whole (h : Follows w r)
    (htaken : w.taken swapQueues = idle q sequence)
    (hfit : (RLPXPacket.wires (q.take n)).length < 2 ^ 63)
    (htag : tag.length = 16) :
    ∃ r', r.accept
        (RLPXFrame.single w.protocolType (RLPXPacket.wires (q.take n))).told
        ((RLPXFrame.single w.protocolType
          (RLPXPacket.wires (q.take n))).padded ++ tag) =
          (.ok (q.take n), r') ∧
      Follows (w.leave swapQueues (idle (q.drop n) sequence) sid) r' := by
  have hcarried := h.carried_taken swapQueues
  rw [htaken] at hcarried
  obtain ⟨f, hf⟩ : ∃ f, f = RLPXFrame.single w.protocolType
    (RLPXPacket.wires (q.take n)) := ⟨_, rfl⟩
  have haccept : r.accept f.told (f.padded ++ tag) =
      RLPXFrameReader.packets f.told (f.payload.length + 1) f.payload [] r := by
    subst hf
    exact RLPXFrameReader.accept_new rfl htag hfit (fun h => absurd rfl h)
      (fun h => by cases h)
  have hpackets : RLPXFrameReader.packets f.told (f.payload.length + 1)
      f.payload [] r = (.ok (q.take n), r) := by
    subst hf
    exact RLPXFrameReader.packets_wires rfl (Nat.lt_succ_self _)
      fun p hp => hcarried p (List.mem_of_mem_take hp)
  rw [← hf]
  refine ⟨r, haccept.trans hpackets, ?_⟩
  refine h.leave rfl (.idle sequence fun p hp =>
    (hcarried p (List.mem_of_mem_drop hp)).sendable)
    (fun p hp => ?_) (Nat.two_pow_pos 32) (fun v v' hv => by cases hv)
    fun k v => ?_
  · rw [htaken]
    exact List.mem_of_mem_drop hp
  · rw [h.lookup_iff swapQueues, htaken, sent_idle, sent_idle]

/-- What the condition says of a round that begins a packet. -/
theorem of_readable_first (htaken : w.taken swapQueues = idle (p :: rest) sequence)
    (hfit : allot < p.size)
    (hreadable : RoundStart.readable ⟨w, swapQueues, allot⟩ = true) :
    (p.size = 2 ^ 32 ∨ (p.size < 2 ^ 32 ∧
      allot + RLPXFrameCoder.paddingOf allot + 16 ≤ p.size)) ∧
      ∀ v, (w.other swapQueues).sent = some v →
        v.1 ≠ (w.sequenceId + 1).toNat := by
  simp only [RoundStart.readable, htaken, idle, Bool.or_eq_true,
    Bool.and_eq_true, decide_eq_true_eq, Bool.not_eq_true',
    Bool.and_eq_false_iff, decide_eq_false_iff_not] at hreadable
  rcases hreadable with hle | ⟨hlarge, hnew⟩
  · omega
  · refine ⟨hlarge, fun v hv heq => ?_⟩
    obtain ⟨hwriting, hnumber⟩ := of_sent hv
    exact hnew.resolve_left (by simp [hwriting])
      (UInt16.toNat.inj (hnumber.symm.trans heq))

/-- A first frame that is accepted. -/
theorem accept_first (h : Follows w r)
    (htaken : w.taken swapQueues = idle (p :: rest) sequence)
    (hmin : 16 ≤ allot) (hfit : allot < p.size)
    (hreadable : RoundStart.readable ⟨w, swapQueues, allot⟩ = true)
    (htag : tag.length = 16) {f : RLPXFrame}
    (hf : f = .first w.protocolType (w.sequenceId + 1) (UInt32.ofNat p.size)
      (p.wire.take allot)) :
    ∃ r', r.accept f.told (f.padded ++ tag) = (.ok [], r') ∧
      Follows (w.leave swapQueues
        (busy p rest (p.size - allot) (w.sequenceId + 1)) sid) r' := by
  have hcarried := h.carried_taken swapQueues
  rw [htaken] at hcarried
  have hp := hcarried p List.mem_cons_self
  have hsize := hp.sendable.size_eq
  have htype := hp.sendable.type_le
  have hlength : (p.wire.take allot).length = allot := by
    rw [List.length_take, hp.sendable.length_wire]
    omega
  obtain ⟨hlarge, hother⟩ := of_readable_first htaken hfit hreadable
  have hnone : r.incomplete.lookup (w.sequenceId + 1).toNat = none :=
    h.lookup_none (by rw [htaken, sent_idle]) hother
  have hne : UInt32.ofNat (p.size - allot) ≠ 0 := by
    intro hzero
    have hnat := congrArg UInt32.toNat hzero
    rw [UInt32.toNat_ofNat', UInt32.toNat_zero] at hnat
    omega
  have hpart : p.data.length - (p.size - allot) = allot - p.type.length := by
    omega
  have haccept : r.accept f.told (f.padded ++ tag) =
      RLPXFrameReader.packets f.told (f.payload.length + 1) f.payload [] r := by
    subst hf
    refine RLPXFrameReader.accept_new rfl htag ?_ (fun htotal => ?_)
      (fun _ => hnone)
    · show (p.wire.take allot).length < 2 ^ 63
      omega
    · have htold : (UInt32.ofNat p.size).toNat ≠ 0 := htotal
      show (p.wire.take allot).length +
        RLPXFrameCoder.paddingOf (p.wire.take allot).length + 16 ≤
          (UInt32.ofNat p.size).toNat
      rw [UInt32.toNat_ofNat'] at htold ⊢
      rw [hlength]
      omega
  have hpackets : RLPXFrameReader.packets f.told (f.payload.length + 1)
      f.payload [] r = (.ok [], r.insertIncomplete (w.sequenceId + 1).toNat
        ⟨p.cap, p.type, p.data.take (allot - p.type.length)⟩
        (UInt32.ofNat (p.size - allot))) := by
    have hfuel : f.payload.length + 1 = allot - 1 + 2 := by
      subst hf
      show (p.wire.take allot).length + 1 = _
      omega
    rw [hfuel]
    subst hf
    exact RLPXFrameReader.packets_first rfl hp (by omega) hfit
      (ofNat_lacking (by omega) hfit) hne
  refine ⟨_, haccept.trans hpackets, ?_⟩
  rw [RLPXFrameReader.insertIncomplete, hnone, Option.isSome_none,
    if_neg Bool.false_ne_true, ← hpart]
  exact h.leave_busy (fun p' hp' => by rw [htaken]; exact hp') (by omega)
    (by omega) (by omega) (fun v hv => by rw [htaken] at hv; cases hv) hother

/-- What the reader holds of the packet that is being sent. -/
theorem of_busy (h : Follows w r)
    (htaken : w.taken swapQueues = busy p rest n sequence) :
    (∀ p' ∈ p :: rest, p'.Carried r.protocolType.toUInt8) ∧
      (0 < n ∧ n < p.data.length ∧ n < 2 ^ 32) ∧
      r.incomplete.lookup sequence.toNat = some
        (⟨p.cap, p.type, p.data.take (p.data.length - n)⟩, UInt32.ofNat n) ∧
      ∀ v, (w.other swapQueues).sent = some v → v.1 ≠ sequence.toNat := by
  have hcarried := h.carried_taken swapQueues
  have hok := ((forall_queue_iff w swapQueues WriterState.Ok).1 h.ok).1
  have hbounded := ((forall_queue_iff w swapQueues fun qs =>
    qs.remaining < 2 ^ 32).1 h.bounded).1
  have hsent : (w.taken swapQueues).sent = some (sequence.toNat,
      ⟨p.cap, p.type, p.data.take (p.data.length - n)⟩, UInt32.ofNat n) := by
    rw [htaken, sent_busy]
  rw [htaken] at hcarried hok hbounded
  have hn : 0 < n ∧ n < p.data.length := by
    cases hok with
    | busy _ _ hpos hlt => exact ⟨hpos, hlt⟩
  exact ⟨hcarried, ⟨hn.1, hn.2, hbounded⟩,
    (h.lookup_iff swapQueues _ _).2 (.inl hsent),
    fun v hv => (h.distinct' hsent hv).symm⟩

/-- With a further frame the reader goes on with the packet that it holds. -/
theorem accept_next (h : Follows w r)
    (htaken : w.taken swapQueues = busy p rest n sequence)
    (htag : tag.length = 16) {part : Bytes} (hpos : 0 < part.length)
    (hle : part.length ≤ n) {f : RLPXFrame}
    (hf : f = .next w.protocolType sequence part) :
    r.accept f.told (f.padded ++ tag) =
      r.continuePacket f.told f.payload
        ⟨p.cap, p.type, p.data.take (p.data.length - n)⟩ (UInt32.ofNat n) := by
  obtain ⟨-, ⟨-, -, hmax⟩, hbegun, -⟩ := h.of_busy htaken
  have hn : (UInt32.ofNat n).toNat = n := UInt32.toNat_ofNat_of_lt' hmax
  subst hf
  refine RLPXFrameReader.accept_begun rfl htag ?_ rfl rfl hpos ?_ hbegun
  · show part.length < 2 ^ 63
    omega
  · show part.length ≤ _
    omega

/-- A part of a packet is added to what the reader holds of it. -/
theorem accept_middle (h : Follows w r)
    (htaken : w.taken swapQueues = busy p rest n sequence)
    (hmin : 16 ≤ allot) (hr : allot < n) (htag : tag.length = 16)
    {f : RLPXFrame} (hf : f = .next w.protocolType sequence
      ((p.data.drop (p.data.length - n)).take allot)) :
    ∃ r', r.accept f.told (f.padded ++ tag) = (.ok [], r') ∧
      Follows (w.leave swapQueues (busy p rest (n - allot) sequence) sid) r' := by
  obtain ⟨-, ⟨hpos, hlt, hmax⟩, hbegun, hother⟩ := h.of_busy htaken
  have hlength : ((p.data.drop (p.data.length - n)).take allot).length =
      allot := by
    rw [List.length_take, List.length_drop]
    omega
  have hn : (UInt32.ofNat n).toNat = n := UInt32.toNat_ofNat_of_lt' hmax
  have hcontinue := h.accept_next htaken htag (by omega) (by omega) hf
  have hpart : r.continuePacket f.told f.payload
      ⟨p.cap, p.type, p.data.take (p.data.length - n)⟩ (UInt32.ofNat n) =
        (.ok [], { r with
          incomplete := r.incomplete.insert sequence.toNat
            (⟨p.cap, p.type, p.data.take (p.data.length - (n - allot))⟩,
              UInt32.ofNat (n - allot)) }) := by
    have hdata : p.data.take (p.data.length - n) ++
        (p.data.drop (p.data.length - n)).take allot =
          p.data.take (p.data.length - (n - allot)) := by
      rw [← List.take_add]
      congr 1
      omega
    have hremaining : UInt32.ofNat n - UInt32.ofNat
        ((p.data.drop (p.data.length - n)).take allot).length =
          UInt32.ofNat (n - allot) := by
      refine UInt32.toNat.inj ?_
      rw [hlength, toNat_sub_ofNat (by omega), hn,
        UInt32.toNat_ofNat_of_lt' (show n - allot < 2 ^ 32 by omega)]
    rw [← hdata, ← hremaining]
    subst hf
    refine RLPXFrameReader.continuePacket_part ?_
    show ((p.data.drop (p.data.length - n)).take allot).length < _
    omega
  refine ⟨_, hcontinue.trans hpart, ?_⟩
  refine h.leave_busy (fun p' hp' => by rw [htaken]; exact hp') (by omega)
    (by omega) (by omega) (fun v hv => ?_) hother
  rw [htaken, sent_busy, Option.some.injEq] at hv
  rw [← hv]

/-- The last part of a packet completes it. -/
theorem accept_last (h : Follows w r)
    (htaken : w.taken swapQueues = busy p rest n sequence)
    (htag : tag.length = 16) {f : RLPXFrame}
    (hf : f = .next w.protocolType sequence
      (p.data.drop (p.data.length - n))) :
    ∃ r', r.accept f.told (f.padded ++ tag) = (.ok [p], r') ∧
      Follows (w.leave swapQueues (idle rest sequence) sid) r' := by
  obtain ⟨hcarried, ⟨hpos, hlt, hmax⟩, hbegun, hother⟩ := h.of_busy htaken
  have hlength : (p.data.drop (p.data.length - n)).length = n := by
    rw [List.length_drop]
    omega
  have hn : (UInt32.ofNat n).toNat = n := UInt32.toNat_ofNat_of_lt' hmax
  have hcontinue := h.accept_next htaken htag (by omega) hlength.le hf
  have hlast : r.continuePacket f.told f.payload
      ⟨p.cap, p.type, p.data.take (p.data.length - n)⟩ (UInt32.ofNat n) =
        (.ok [p], { r with incomplete := r.incomplete.erase sequence.toNat }) := by
    have hwhole : (⟨p.cap, p.type, p.data.take (p.data.length - n) ++
        p.data.drop (p.data.length - n)⟩ : RLPXPacket) = p := by
      rw [List.take_append_drop]
    have hvalid := (hcarried p List.mem_cons_self).sendable.valid
    subst hf
    have heq := @RLPXFrameReader.continuePacket_last r
      (RLPXFrame.next w.protocolType sequence
        (p.data.drop (p.data.length - n))).told
      ⟨p.cap, p.type, p.data.take (p.data.length - n)⟩
      (p.data.drop (p.data.length - n)) (UInt32.ofNat n) (by omega)
      (by rw [hwhole]; exact hvalid)
    rw [hwhole] at heq
    exact heq
  refine ⟨_, hcontinue.trans hlast, ?_⟩
  refine h.leave rfl (.idle _ fun p' hp' =>
    (hcarried p' (List.mem_cons_of_mem p hp')).sendable)
    (fun p' hp' => by rw [htaken]; exact List.mem_cons_of_mem p hp')
    (Nat.two_pow_pos 32) (fun v v' hv => by cases hv) fun k v => ?_
  rw [sent_idle]
  refine (h.lookup_erase_iff (fun v hv => ?_) hother k v).trans (by simp)
  rw [htaken, sent_busy, Option.some.injEq] at hv
  rw [← hv]

end Rounds

end Follows

end Web3Core
