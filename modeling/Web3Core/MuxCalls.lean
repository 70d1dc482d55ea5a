/-
Calls of `mux` with any size.  With both queues pending and a size of less than
128 the half that the first frame gets is too small: either nothing fits, or
the difference wraps around and everything does.  A call returns all the same,
since a later frame takes a packet off its queue or uses the size up.
-/
import Web3Core.RLPXRounds

namespace Web3Core

namespace RLPXFrameWriter

open WriterState

variable {crypto : Crypto} {w : RLPXFrameWriter} {frameLen allot : Nat}
  {swapQueues : Bool} {m m' m'' : Muxed} {frame : RLPXFrame}

/-- The bytes of the frames that were appended. -/
def Muxed.written (m : Muxed) : Nat := (m.toWrite.map List.length).sum

/-- Rounds one after the other, each with room for a block. -/
inductive Served (crypto : Crypto) (m : Muxed) : Muxed → Prop where
  | refl : Served crypto m m
  | tail {m' m'' : Muxed} {swapQueues : Bool} {allot : Nat} {frame : RLPXFrame}
      (h : Served crypto m m') (hmin : 16 ≤ allot)
      (hround : Round crypto swapQueues allot m' frame m'') :
      Served crypto m m''

theorem Served.head (hround : Round crypto swapQueues allot m frame m')
    (hmin : 16 ≤ allot) (h : Served crypto m' m'') : Served crypto m m'' := by
  induction h with
  | refl => exact .tail .refl hmin hround
  | tail _ hmin' hround' ih => exact .tail ih hmin' hround'

theorem Served.ok (h : Served crypto m m') (hok : m.writer.Ok) :
    m'.writer.Ok := by
  induction h with
  | refl => exact hok
  | tail _ hmin hround ih => exact hround.ok hmin ih

/-- No frame is taken back. -/
theorem Served.isPrefix_toWrite (h : Served crypto m m') :
    m.toWrite <+: m'.toWrite := by
  induction h with
  | refl => exact List.prefix_rfl
  | tail _ _ hround ih =>
      cases hround with
      | intro _ => exact ih.trans (List.prefix_append _ _)

theorem Served.written_le (h : Served crypto m m') :
    m.written ≤ m'.written := by
  obtain ⟨bs, hbs⟩ := h.isPrefix_toWrite
  rw [Muxed.written, Muxed.written, ← hbs, List.map_append, List.sum_append]
  exact Nat.le_add_right _ _

theorem Round.written_eq (h : Round crypto swapQueues allot m frame m') :
    m'.written = m.written + (frame.sealed crypto m.coder).1.length := by
  cases h with
  | intro _ =>
      rw [Muxed.written, Muxed.written, List.map_append, List.sum_append,
        List.map_singleton, List.sum_singleton]

theorem size_leave (w : RLPXFrameWriter) (swapQueues : Bool) (qs : WriterState)
    (sid : UInt16) :
    (w.leave swapQueues qs sid).size + (w.taken swapQueues).q.length =
      w.size + qs.q.length := by
  rw [leave, taken]
  split
  · simp only [size]
    omega
  · simp only [size]
    omega

/-- The packets that a frame completes leave the queues. -/
theorem Round.size_add_ret (h : Round crypto swapQueues allot m frame m') :
    m'.writer.size + m'.ret = m.writer.size + m.ret := by
  cases h with
  | intro h =>
      have hlength := h.length_eq
      have hleave := size_leave m.writer swapQueues
      dsimp only
      rw [← Nat.add_right_cancel_iff, Nat.add_right_comm, hleave]
      omega

theorem Round.ret_le (h : Round crypto swapQueues allot m frame m') :
    m.ret ≤ m'.ret := by
  cases h with
  | intro _ => exact Nat.le_add_right _ _

/-- A later frame may fill all of the size. -/
theorem frameAllot_later (hmin : 64 ≤ frameLen) (hmax : frameLen < 2 ^ 64) :
    w.frameAllot frameLen true = frameLen - 48 :=
  frameAllot_eq_sub hmin hmax rfl

/-- The first frame has no room if the half of the size is 48 or 56. -/
theorem frameAllot_small (hhalf : w.halves frameLen swapQueues = true)
    (hmin : 96 ≤ frameLen) (hmax : frameLen < 128) :
    w.frameAllot frameLen swapQueues < 16 := by
  simp only [frameAllot, ← halves.eq_1, hhalf, ↓reduceIte]
  rw [subSize_of_le (by omega) (by omega)]
  omega

/-- The first frame has all the room if the half of the size is less. -/
theorem frameAllot_wraps (hhalf : w.halves frameLen swapQueues = true)
    (hmin : 64 ≤ frameLen) (hmax : frameLen < 96) :
    2 ^ 64 - 16 ≤ w.frameAllot frameLen swapQueues := by
  simp only [frameAllot, ← halves.eq_1, hhalf, ↓reduceIte]
  rw [subSize]
  omega

/-- With no room for a block, a round does nothing. -/
theorem muxLoop_no_room {fuel : Nat} (hpending : m.writer.size ≠ 0)
    (hmin : 64 ≤ frameLen)
    (hallot : m.writer.frameAllot frameLen false < 16) :
    muxLoop crypto (fuel + 1) frameLen false m =
      muxLoop crypto fuel frameLen true m := by
  have hnext : ∃ f, m.writer.nextFrame frameLen false = .ok (f, m.writer) ∧
      f.payload = [] ∧ f.ret = 0 := by
    rw [nextFrame]
    simp only [Filling.fill, if_pos hallot, ok_bind, List.isEmpty_nil,
      Bool.not_true, Bool.false_and, Bool.false_eq_true, ↓reduceIte]
    refine ⟨⟨m.writer.taken false, m.writer.sequenceId,
      m.writer.frameAllot frameLen false, [], 0, 0⟩, ?_, rfl, rfl⟩
    rw [taken]
    split <;> rfl
  obtain ⟨f, heq, hpayload, hret⟩ := hnext
  rw [muxLoop, if_neg (Nat.not_lt.2 hmin), pending_of_size hpending, heq]
  simp only [ok_bind, hpayload, hret, List.isEmpty_nil, Bool.not_true,
    Bool.false_eq_true, ↓reduceIte, Nat.add_zero]

theorem muxLoop_done {fuel : Nat}
    (h : frameLen < 64 ∨ m.writer.size = 0) :
    muxLoop crypto (fuel + 1) frameLen swapQueues m = .ok m := by
  rw [muxLoop]
  split
  · rfl
  · next hmin =>
      have hempty : m.writer.high.q.isEmpty && m.writer.low.q.isEmpty := by
        have hsize := h.resolve_left hmin
        rw [size] at hsize
        simp only [Bool.and_eq_true, List.isEmpty_iff,
          ← List.length_eq_zero_iff]
        omega
      rw [if_pos hempty]

/-- The bytes of a frame are whole blocks. -/
theorem length_sealed_mod (c : RLPXFrameCoder) (f : RLPXFrame) :
    (f.sealed crypto c).1.length % 16 = 0 := by
  rw [RLPXFrame.length_sealed, RLPXFrameCoder.paddingOf]
  omega

/-- The loop after the first round.  Every frame fits into the size, and takes
a packet off its queue or is the last one. -/
theorem exists_muxLoop_later : ∀ {fuel frameLen : Nat} {m : Muxed},
    m.writer.size + 1 < fuel → frameLen < 2 ^ 64 → frameLen % 16 = 0 →
    m.writer.Ok →
    ∃ m', muxLoop crypto fuel frameLen true m = .ok m' ∧
      Served crypto m m' ∧ m'.written ≤ m.written + frameLen := by
  intro fuel
  induction fuel with
  | zero => exact fun h => absurd h (Nat.not_lt_zero _)
  | succ fuel ih =>
      intro frameLen m hfuel hmax hmod hok
      by_cases hdone : frameLen < 64 ∨ m.writer.size = 0
      · exact ⟨m, muxLoop_done hdone, .refl, Nat.le_add_right _ _⟩
      · rw [not_or, Nat.not_lt] at hdone
        have hallot := @frameAllot_later m.writer frameLen hdone.1 hmax
        obtain ⟨f, -, m₁, -, hround, heq⟩ := @exists_round_of_room crypto
          frameLen true m hok hdone.2 hdone.1 (by omega)
        rw [hallot] at hround
        obtain ⟨frame, hframe⟩ : ∃ frame, frame = m.writer.frameOf f := ⟨_, rfl⟩
        rw [← hframe] at hround heq
        have hok' := hround.ok (by omega) hok
        obtain ⟨-, hle, hmod', hfull⟩ :=
          hround.length_sealed (by omega) hok hmod le_rfl
        have hsize := hround.size_add_ret
        have hwritten := hround.written_eq
        rw [heq, subSize_of_le hle hmax]
        by_cases hret : m₁.ret = m.ret
        · have hall := hfull hret rfl
          obtain ⟨fuel, rfl⟩ : ∃ n, fuel = n + 1 := ⟨fuel - 1, by omega⟩
          exact ⟨m₁, muxLoop_done (.inl (by omega)),
            .tail .refl (by omega) hround, by omega⟩
        · have hgrows := hround.ret_le
          obtain ⟨m', hloop, hserved, hle'⟩ := @ih
            (frameLen - (frame.sealed crypto m.coder).1.length) m₁ (by omega)
            (by omega) (by omega) hok'
          exact ⟨m', hloop, .head hround (by omega) hserved, by omega⟩

/-- Every call of `mux` returns, whatever the size. -/
theorem exists_served {c : RLPXFrameCoder} {size : Nat} (hok : w.Ok)
    (hmax : size < 2 ^ 64) :
    ∃ m, w.mux crypto c size = .ok m ∧
      Served crypto { writer := w, coder := c } m := by
  rw [mux]
  split
  · exact ⟨_, rfl, .refl⟩
  · next hsize =>
      obtain ⟨m, hm⟩ : ∃ m : Muxed, m = { writer := w, coder := c } := ⟨_, rfl⟩
      have hokm : m.writer.Ok := hm ▸ hok
      have hw : m.writer.size = w.size := by rw [hm]
      rw [← hm]
      obtain ⟨frameLen, hlen⟩ : ∃ n, n = size / 16 * 16 := ⟨_, rfl⟩
      rw [← hlen]
      by_cases hempty : m.writer.size = 0
      · exact ⟨m, muxLoop_done (.inr hempty), .refl⟩
      · by_cases hroom : 16 ≤ m.writer.frameAllot frameLen false
        · obtain ⟨f, -, m₁, -, hround, heq⟩ := @exists_round_of_room crypto
            frameLen false m hokm hempty (by omega) hroom
          have hmod := @length_sealed_mod crypto m.coder (m.writer.frameOf f)
          have hcount := hround.size_add_ret
          have hgrows := hround.ret_le
          obtain ⟨m', hloop, hserved, -⟩ := @exists_muxLoop_later crypto
            (w.size + size + 1) (subSize frameLen
              ((m.writer.frameOf f).sealed crypto m.coder).1.length) m₁
            (by omega) (Nat.mod_lt _ (by omega)) (by rw [subSize]; omega)
            (hround.ok hroom hokm)
          exact ⟨m', (heq _).trans hloop, .head hround hroom hserved⟩
        · obtain ⟨m', hloop, hserved, -⟩ := @exists_muxLoop_later crypto
            (w.size + size + 1) frameLen m (by omega) (by omega) (by omega) hokm
          exact ⟨m', (muxLoop_no_room hempty (by omega)
            (Nat.not_le.1 hroom)).trans hloop, hserved⟩

end RLPXFrameWriter

end Web3Core
