/-
The bytes that a call of `mux` adds.  Frames fit into the size, except for the
first one of a call with a size of less than 96 and both queues pending: there
the difference wraps around, and the frame takes all that the queue of high
priority has for it.
-/
import Web3Core.MuxCalls

namespace Web3Core

namespace WriterState

/-- The bytes that a queue has for one frame: what is left of a packet that was
begun, or else all its packets. -/
def pending (qs : WriterState) : Nat :=
  if qs.writing then qs.remaining else (RLPXPacket.wires qs.q).length

/-- A frame with all the room is larger than `room` exactly if more is
pending.  A packet is in memory, so the frame has room for any one packet. -/
theorem lt_length_whole {p : RLPXPacket} {rest : List RLPXPacket}
    {sequence sid : UInt16} {allot room : Nat}
    (hq : ∀ p' ∈ p :: rest, p'.Sendable)
    (hmemory : ∀ p' ∈ p :: rest, p'.data.length < 2 ^ 63)
    (hallot : 2 ^ 64 - 16 ≤ allot) (hmax : allot < 2 ^ 64)
    (hroom : room < 2 ^ 62) :
    ∃ f, Filling.fill ((p :: rest).length + 1)
        ⟨idle (p :: rest) sequence, sid, allot, [], 0, 0⟩ = .ok f ∧
      (room < f.payload.length ↔
        room < (RLPXPacket.wires (p :: rest)).length) := by
  have hsize : ∀ p' ∈ p :: rest, p'.size ≤ 2 ^ 63 + 1 := by
    intro p' hp'
    have htype := (hq p' hp').type_le
    have hdata := hmemory p' hp'
    rw [(hq p' hp').size_eq]
    omega
  have hfit := hsize p List.mem_cons_self
  obtain ⟨k, -, -, -, hdeferred, left, heq⟩ := @Filling.fill_whole sid sequence
    allot p rest hq hmax (by omega) (by omega)
  refine ⟨_, heq, ?_⟩
  have hsplit : (RLPXPacket.wires (p :: rest)).length =
      (RLPXPacket.wires ((p :: rest).take k)).length +
        (RLPXPacket.wires ((p :: rest).drop k)).length := by
    rw [← List.length_append, RLPXPacket.wires, RLPXPacket.wires,
      RLPXPacket.wires, ← List.flatMap_append, List.take_append_drop]
  dsimp only
  cases hdrop : (p :: rest).drop k with
  | nil =>
      rw [hsplit, hdrop]
      exact Iff.rfl
  | cons p' rest' =>
      have hmem : p' ∈ p :: rest :=
        List.mem_of_mem_drop (hdrop ▸ List.mem_cons_self)
      have hnext := hsize p' hmem
      have hstop := hdeferred p' (by rw [hdrop]; rfl)
      omega

end WriterState

namespace RLPXFrameWriter

open WriterState

variable {crypto : Crypto} {w : RLPXFrameWriter} {c : RLPXFrameCoder}

/-- What the first frame takes from the queue of high priority, if the half of
the size wraps around. -/
theorem lt_length_payload {frameLen room : Nat} {w' : RLPXFrameWriter}
    {f : Filling} (hok : w.Ok)
    (hmemory : ∀ p ∈ w.high.q, p.data.length < 2 ^ 63)
    (hhalf : w.halves frameLen false = true) (hmin : 64 ≤ frameLen)
    (hmax : frameLen < 96) (hroom : room < 2 ^ 62)
    (hnext : w.nextFrame frameLen false = .ok (f, w')) :
    room < f.payload.length ↔ room < w.high.pending := by
  have hhigh : w.high.q ≠ [] := by
    intro hnil
    simp [halves, hnil] at hhalf
  have htakes : w.takesHigh false = true := by simp [takesHigh, hhigh]
  have hallot := frameAllot_wraps hhalf hmin hmax
  have hlt : w.frameAllot frameLen false < 2 ^ 64 := Nat.mod_lt _ (by omega)
  obtain ⟨qs, hqs⟩ : ∃ qs, qs = w.high := ⟨_, rfl⟩
  have hqsOk : qs.Ok := hqs ▸ hok.high
  have hfill : ∀ g, Filling.fill (qs.q.length + 1)
      ⟨qs, w.sequenceId, w.frameAllot frameLen false, [], 0, 0⟩ = .ok g →
      f.payload = g.payload := by
    intro g hg
    rw [hqs] at hg
    simp only [nextFrame, htakes, ↓reduceIte, hg, ok_bind, Except.ok.injEq,
      Prod.mk.injEq] at hnext
    rw [hnext.1]
  rw [← hqs] at hmemory hhigh ⊢
  cases hqsOk with
  | @idle q sequence hq =>
      cases q with
      | nil => exact absurd rfl hhigh
      | cons p rest =>
          obtain ⟨g, hg, hiff⟩ := @lt_length_whole p rest sequence w.sequenceId
            _ room hq hmemory hallot hlt hroom
          rw [hfill g hg]
          exact hiff
  | @busy p rest r sequence hq hpos hrlt =>
      have hdata := (hq p List.mem_cons_self).data_lt
      show room < f.payload.length ↔ room < r
      by_cases hr : r ≤ w.frameAllot frameLen false
      · rw [hfill _ (Filling.fill_last hdata hlt (by omega) hpos hr hrlt.le),
          List.length_drop]
        omega
      · have hr := Nat.not_le.1 hr
        rw [hfill _ (Filling.fill_middle hdata hlt (by omega) hr hrlt.le),
          List.length_take, List.length_drop]
        omega

/-- Whether the first frame of a call is too large. -/
def Overflows (w : RLPXFrameWriter) (size : Nat) : Prop :=
  64 ≤ size ∧ size < 96 ∧ w.high.q ≠ [] ∧ w.low.q ≠ [] ∧
    size / 16 * 16 - 48 < w.high.pending

/-- Half of the size wraps around exactly if it is less than 64. -/
theorem halves_small_iff {frameLen : Nat} (hmin : 64 ≤ frameLen)
    (hmax : frameLen < 128) :
    w.halves frameLen false = true ↔ w.high.q ≠ [] ∧ w.low.q ≠ [] := by
  have hwraps : 0 < subSize (frameLen / 2) 64 := by
    rw [subSize]
    omega
  simp [halves, hwraps]

/-- A call keeps to its size, if the first frame does. -/
theorem exists_mux_within {size : Nat} (hok : w.Ok) (hmin : 64 ≤ size)
    (hmax : size < 2 ^ 64)
    (hbound : w.frameAllot (size / 16 * 16) false ≤ size / 16 * 16 - 48) :
    ∃ m, w.mux crypto c size = .ok m ∧ m.written ≤ size := by
  obtain ⟨m, hm⟩ : ∃ m : Muxed, m = { writer := w, coder := c } := ⟨_, rfl⟩
  have hw : m.writer = w := by rw [hm]
  have hnone : m.written = 0 := by rw [hm]; rfl
  obtain ⟨frameLen, hlen⟩ : ∃ n, n = size / 16 * 16 := ⟨_, rfl⟩
  rw [mux, if_neg (Nat.not_lt.2 hmin), ← hm, ← hlen]
  rw [← hlen, ← hw] at hbound
  rw [← hw] at hok ⊢
  by_cases hempty : m.writer.size = 0
  · exact ⟨m, muxLoop_done (.inr hempty), by omega⟩
  · by_cases hroom : 16 ≤ m.writer.frameAllot frameLen false
    · obtain ⟨f, -, m₁, -, hround, heq⟩ := @exists_round_of_room crypto
        frameLen false m hok hempty (by omega) hroom
      obtain ⟨-, hle, hmod, -⟩ :=
        hround.length_sealed hroom hok (by omega) hbound
      have hcount := hround.size_add_ret
      have hgrows := hround.ret_le
      have hwritten := hround.written_eq
      obtain ⟨m', hloop, -, hwithin⟩ := @exists_muxLoop_later crypto
        (m.writer.size + size + 1) (frameLen -
          ((m.writer.frameOf f).sealed crypto m.coder).1.length) m₁
        (by omega) (by omega) (by omega) (hround.ok hroom hok)
      rw [subSize_of_le hle (by omega)] at heq
      exact ⟨m', (heq _).trans hloop, by omega⟩
    · obtain ⟨m', hloop, -, hwithin⟩ := @exists_muxLoop_later crypto
        (m.writer.size + size + 1) frameLen m (by omega) (by omega) (by omega)
        hok
      exact ⟨m', (muxLoop_no_room hempty (by omega)
        (Nat.not_le.1 hroom)).trans hloop, by omega⟩

/-- With the half of the size wrapped around, a call keeps to its size exactly
if all that is pending fits. -/
theorem exists_mux_wraps {size : Nat} (hok : w.Ok)
    (hmemory : ∀ p ∈ w.high.q, p.data.length < 2 ^ 63) (hmin : 64 ≤ size)
    (hmax : size < 96) (hhigh : w.high.q ≠ []) (hlow : w.low.q ≠ []) :
    ∃ m, w.mux crypto c size = .ok m ∧
      (m.written ≤ size ↔ w.high.pending ≤ size / 16 * 16 - 48) := by
  obtain ⟨m, hm⟩ : ∃ m : Muxed, m = { writer := w, coder := c } := ⟨_, rfl⟩
  have hw : m.writer = w := by rw [hm]
  have hnone : m.written = 0 := by rw [hm]; rfl
  obtain ⟨frameLen, hlen⟩ : ∃ n, n = size / 16 * 16 := ⟨_, rfl⟩
  rw [mux, if_neg (Nat.not_lt.2 hmin), ← hm, ← hlen]
  rw [← hw] at hok hmemory hhigh hlow ⊢
  have hempty : m.writer.size ≠ 0 := by
    have hpos := List.length_pos_iff.2 hhigh
    rw [RLPXFrameWriter.size]
    omega
  have hhalf : m.writer.halves frameLen false = true :=
    (halves_small_iff (by omega) (by omega)).2 ⟨hhigh, hlow⟩
  have hallot := frameAllot_wraps hhalf (by omega) (by omega)
  obtain ⟨f, w', m₁, hnext, hround, heq⟩ := @exists_round_of_room crypto
    frameLen false m hok hempty (by omega) (by omega)
  have hiff := @lt_length_payload m.writer frameLen (frameLen - 48) w' f hok
    hmemory hhalf (by omega) (by omega) (by omega) hnext
  have hlength := @RLPXFrame.length_sealed crypto m.coder (m.writer.frameOf f)
  rw [payload_frameOf, RLPXFrameCoder.paddingOf] at hlength
  have hcount := hround.size_add_ret
  have hgrows := hround.ret_le
  have hwritten := hround.written_eq
  obtain ⟨m', hloop, hserved, hwithin⟩ := @exists_muxLoop_later crypto
    (m.writer.size + size + 1) (subSize frameLen
      ((m.writer.frameOf f).sealed crypto m.coder).1.length) m₁
    (by omega) (Nat.mod_lt _ (by omega)) (by rw [subSize]; omega)
    (hround.ok (by omega) hok)
  refine ⟨m', (heq _).trans hloop, ?_⟩
  by_cases hfits : m.writer.high.pending ≤ frameLen - 48
  · have hpayload := Nat.not_lt.1 fun h => Nat.not_lt.2 hfits (hiff.1 h)
    rw [subSize_of_le (by omega) (by omega)] at hwithin
    exact iff_of_true (by omega) hfits
  · have hpayload := hiff.2 (Nat.not_le.1 hfits)
    have hall := hserved.written_le
    exact iff_of_false (by omega) hfits

/-- The first frame fits, unless the half of the size wraps around. -/
theorem frameAllot_le {frameLen : Nat} (hmin : 64 ≤ frameLen)
    (hmax : frameLen < 2 ^ 64)
    (hhalf : w.halves frameLen false = true → 96 ≤ frameLen) :
    w.frameAllot frameLen false ≤ frameLen - 48 := by
  by_cases hroom : w.halves frameLen false = true → 128 ≤ frameLen
  · exact (frameAllot_bounds hmin hmax hroom).2
  · rw [Classical.not_imp, Nat.not_le] at hroom
    have hsmall := frameAllot_small hroom.1 (hhalf hroom.1) hroom.2
    omega

/-- A call of `mux` returns, and adds at most as many bytes as it may, unless
the first frame is too large. -/
theorem written_le_iff (crypto : Crypto) (c : RLPXFrameCoder)
    (w : RLPXFrameWriter) (size : UInt32) (hok : w.Ok)
    (hmemory : ∀ p ∈ w.high.q, p.data.length < 2 ^ 63) :
    ∃ m, w.mux crypto c size.toNat = .ok m ∧
      (m.written ≤ size.toNat ↔ ¬ w.Overflows size.toNat) := by
  have hlt := size.toNat_lt
  generalize size.toNat = size at hlt
  by_cases hwraps : 64 ≤ size ∧ size < 96 ∧ w.high.q ≠ [] ∧ w.low.q ≠ []
  · obtain ⟨hmin, hmax, hhigh, hlow⟩ := hwraps
    obtain ⟨m, hmux, hiff⟩ := @exists_mux_wraps crypto w c size hok hmemory
      hmin hmax hhigh hlow
    refine ⟨m, hmux, hiff.trans ?_⟩
    rw [Overflows, ← Nat.not_lt]
    exact not_congr ⟨fun h => ⟨hmin, hmax, hhigh, hlow, h⟩,
      fun h => h.2.2.2.2⟩
  · have hnot : ¬ w.Overflows size := fun h =>
      hwraps ⟨h.1, h.2.1, h.2.2.1, h.2.2.2.1⟩
    by_cases hmin : 64 ≤ size
    · have hbound := @frameAllot_le w (size / 16 * 16) (by omega) (by omega)
        fun hhalf => by
          by_contra hsmall
          have hboth := (halves_small_iff (by omega) (by omega)).1 hhalf
          exact hwraps ⟨hmin, by omega, hboth⟩
      obtain ⟨m, hmux, hwithin⟩ := @exists_mux_within crypto w c size hok hmin
        (by omega) hbound
      exact ⟨m, hmux, iff_of_true hwithin hnot⟩
    · refine ⟨{ writer := w, coder := c }, ?_, iff_of_true (Nat.zero_le _) hnot⟩
      rw [mux, if_pos (Nat.not_le.1 hmin)]

/-- Each queue has a packet; that of high priority is of 20 bytes. -/
def crowded : RLPXFrameWriter :=
  { protocolType := 0
    high := idle [⟨0, [1], 0x92 :: List.replicate 18 7⟩] 0xffff
    low := idle [⟨0, [2], [5]⟩] 0xffff }

/-- A call with 80 bytes for it. -/
theorem written_le_iff_crowded :
    crowded.Ok ∧ (∀ p ∈ crowded.high.q, p.data.length < 2 ^ 63) ∧
      ∃ m, crowded.mux plainCrypto plainCoder (80 : UInt32).toNat = .ok m ∧
        (m.written ≤ (80 : UInt32).toNat ↔
          ¬ crowded.Overflows (80 : UInt32).toNat) := by
  have hok : crowded.Ok := by
    refine ⟨.idle _ fun p hp => ?_, .idle _ fun p hp => ?_⟩
    · cases List.mem_singleton.1 hp
      exact ⟨by decide +kernel, by decide, by decide⟩
    · cases List.mem_singleton.1 hp
      exact ⟨by decide +kernel, by decide, by decide⟩
  have hmemory : ∀ p ∈ crowded.high.q, p.data.length < 2 ^ 63 := by
    intro p hp
    cases List.mem_singleton.1 hp
    decide
  exact ⟨hok, hmemory, written_le_iff plainCrypto plainCoder crowded 80 hok
    hmemory⟩

/-- A call with 64 bytes adds 144: a frame of 80, and one for the other queue
since what is left wraps around too. -/
theorem written_too_much :
    ∃ m, crowded.mux plainCrypto plainCoder 64 = .ok m ∧ m.written = 144 := by
  have hwritten : (match crowded.mux plainCrypto plainCoder 64 with
    | .ok m => decide (m.written = 144)
    | .error _ => false) = true := by decide +kernel
  cases hmux : crowded.mux plainCrypto plainCoder 64 with
  | ok m =>
      rw [hmux] at hwritten
      exact ⟨m, rfl, of_decide_eq_true hwritten⟩
  | error e =>
      rw [hmux] at hwritten
      cases hwritten

end RLPXFrameWriter

end Web3Core
