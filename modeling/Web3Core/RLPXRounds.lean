/-
A call of `mux` is a sequence of rounds.  Each takes the next frame of one of
the two queues and seals it, until the size is used up or nothing is queued.
-/
import Web3Core.RLPXMux
import Web3Core.RLPXConnection

namespace Web3Core

namespace RLPXFrame

/-- The bytes of a frame, and the coder after them. -/
def sealed (crypto : Crypto) (c : RLPXFrameCoder) (f : RLPXFrame) :
    Bytes × RLPXFrameCoder :=
  (c.egress.sealHeader crypto c.macEncKey f.block ++
      (c.egress.afterHeader crypto c.macEncKey f.block).sealFrame crypto
        c.macEncKey f.padded,
    c.setEgress (f.after crypto c.macEncKey c.egress))

variable {crypto : Crypto} {c : RLPXFrameCoder} {f : RLPXFrame}

theorem write_eq_sealed : f.write crypto c = .ok (f.sealed crypto c) :=
  f.write_eq_seal c

/-- A frame takes its payload up to a multiple of 16, and 48 bytes. -/
theorem length_sealed :
    (f.sealed crypto c).1.length =
      f.payload.length + RLPXFrameCoder.paddingOf f.payload.length + 48 := by
  rw [sealed, List.length_append,
    FrameStream.length_sealHeader f.length_block,
    FrameStream.length_sealFrame, f.length_padded]
  show 32 + (f.payload.length + RLPXFrameCoder.paddingOf f.payload.length + 16) = _
  omega

end RLPXFrame

namespace RLPXFrameWriter

open WriterState

variable {crypto : Crypto} {w : RLPXFrameWriter} {frameLen : Nat}
  {swapQueues : Bool}

/-- Whether half of the size is left to the other queue.  From a size of less
than 128 the half is too small. -/
def halves (w : RLPXFrameWriter) (frameLen : Nat) (swapQueues : Bool) : Bool :=
  !swapQueues && !w.high.q.isEmpty && !w.low.q.isEmpty &&
    decide (subSize (frameLen / 2) 64 > 0)

theorem frameAllot_eq_sub (hmin : 64 ≤ frameLen) (hmax : frameLen < 2 ^ 64)
    (hhalf : w.halves frameLen swapQueues = false) :
    w.frameAllot frameLen swapQueues = frameLen - 48 := by
  simp only [frameAllot, ← halves.eq_1, hhalf, Bool.false_eq_true, ↓reduceIte]
  exact subSize_of_le (by omega) hmax

/-- A round has room for a block, and its frame fits into the size. -/
theorem frameAllot_bounds (hmin : 64 ≤ frameLen) (hmax : frameLen < 2 ^ 64)
    (hroom : w.halves frameLen swapQueues = true → 128 ≤ frameLen) :
    16 ≤ w.frameAllot frameLen swapQueues ∧
      w.frameAllot frameLen swapQueues ≤ frameLen - 48 := by
  cases hhalf : w.halves frameLen swapQueues with
  | false =>
      rw [frameAllot_eq_sub hmin hmax hhalf]
      omega
  | true =>
      have hlarge := hroom hhalf
      have hpos : 0 < subSize (frameLen / 2) 64 := by
        simp only [halves, Bool.and_eq_true, decide_eq_true_eq] at hhalf
        exact hhalf.2
      rw [subSize_of_le (by omega) (by omega)] at hpos
      simp only [frameAllot, ← halves.eq_1, hhalf, ↓reduceIte]
      rw [subSize_of_le (by omega) (by omega)]
      omega

/-- What a round does, with `allot` bytes for the payload of its frame. -/
inductive Round (crypto : Crypto) (swapQueues : Bool) (allot : Nat)
    (m : Muxed) : RLPXFrame → Muxed → Prop where
  | intro {ret : Nat} {frame : RLPXFrame} {qs : WriterState} {sid : UInt16}
      (h : NextFrame m.writer.protocolType allot (m.writer.taken swapQueues)
        m.writer.sequenceId frame ret qs sid) :
      Round crypto swapQueues allot m frame
        ⟨m.writer.leave swapQueues qs sid, (frame.sealed crypto m.coder).2,
          m.ret + ret, m.frames ++ [frame],
          m.toWrite ++ [(frame.sealed crypto m.coder).1],
          m.rounds ++ [⟨m.writer, swapQueues, allot⟩]⟩

/-- Rounds one after the other. -/
inductive Rounds (crypto : Crypto) (m : Muxed) : Muxed → Prop where
  | refl : Rounds crypto m m
  | tail {m' m'' : Muxed} {swapQueues : Bool} {allot : Nat} {frame : RLPXFrame}
      (h : Rounds crypto m m') (hmin : 16 ≤ allot) (hmax : allot < 2 ^ 63)
      (hround : Round crypto swapQueues allot m' frame m'') :
      Rounds crypto m m''

variable {m m' m'' : Muxed} {allot : Nat} {frame : RLPXFrame}

theorem Round.ok (h : Round crypto swapQueues allot m frame m')
    (hmin : 16 ≤ allot) (hok : m.writer.Ok) : m'.writer.Ok := by
  cases h with
  | intro h => exact hok.leave _ (h.ok hmin (hok.taken _)) _

theorem Rounds.head (hround : Round crypto swapQueues allot m frame m')
    (hmin : 16 ≤ allot) (hmax : allot < 2 ^ 63) (h : Rounds crypto m' m'') :
    Rounds crypto m m'' := by
  induction h with
  | refl => exact .tail .refl hmin hmax hround
  | tail _ hmin' hmax' hround' ih => exact .tail ih hmin' hmax' hround'

theorem Rounds.ok (h : Rounds crypto m m') (hok : m.writer.Ok) :
    m'.writer.Ok := by
  induction h with
  | refl => exact hok
  | tail _ hmin _ hround ih => exact hround.ok hmin ih

/-- No frame is taken back. -/
theorem Rounds.isPrefix_toWrite (h : Rounds crypto m m') :
    m.toWrite <+: m'.toWrite := by
  induction h with
  | refl => exact List.prefix_rfl
  | tail _ _ _ hround ih =>
      cases hround with
      | intro h => exact ih.trans (List.prefix_append _ _)

theorem Rounds.ret_le (h : Rounds crypto m m') : m.ret ≤ m'.ret := by
  induction h with
  | refl => exact le_rfl
  | tail _ _ _ hround ih =>
      cases hround with
      | intro h => exact ih.trans (Nat.le_add_right _ _)

/-- If packets are queued, not both queues are empty. -/
theorem pending_of_size (hpending : w.size ≠ 0) :
    (w.high.q.isEmpty && w.low.q.isEmpty) = false := by
  by_contra hall
  rw [Bool.not_eq_false, Bool.and_eq_true, List.isEmpty_iff,
    List.isEmpty_iff] at hall
  exact hpending (by rw [size, hall.1, hall.2]; rfl)

/-- With room for a block, the loop goes through a round and on with what is
left of the size. -/
theorem exists_round_of_room (hok : m.writer.Ok) (hpending : m.writer.size ≠ 0)
    (hmin : 64 ≤ frameLen)
    (hroom : 16 ≤ m.writer.frameAllot frameLen swapQueues) :
    ∃ f w' m', m.writer.nextFrame frameLen swapQueues = .ok (f, w') ∧
      Round crypto swapQueues (m.writer.frameAllot frameLen swapQueues) m
        (m.writer.frameOf f) m' ∧
      ∀ fuel, muxLoop crypto (fuel + 1) frameLen swapQueues m =
        muxLoop crypto fuel (subSize frameLen
          ((m.writer.frameOf f).sealed crypto m.coder).1.length) true m' := by
  obtain ⟨f, qs', heq, hframe⟩ := nextFrame_eq hok hpending hroom
  have hpayload := (hframe.length_payload hroom (hok.taken _)).1
  rw [payload_frameOf] at hpayload
  have hne : f.payload.isEmpty = false := by
    rw [List.isEmpty_eq_false_iff]
    exact List.length_pos_iff.1 hpayload
  refine ⟨f, _, _, heq, .intro hframe, fun fuel => ?_⟩
  rw [muxLoop, if_neg (Nat.not_lt.2 hmin), pending_of_size hpending, heq]
  simp only [ok_bind, hne, Bool.not_false, Bool.false_eq_true, ↓reduceIte,
    RLPXFrame.write_eq_sealed]

theorem exists_round (hok : m.writer.Ok) (hpending : m.writer.size ≠ 0)
    (hmin : 64 ≤ frameLen) (hmax : frameLen < 2 ^ 64)
    (hroom : m.writer.halves frameLen swapQueues = true → 128 ≤ frameLen) :
    ∃ frame m', Round crypto swapQueues
        (m.writer.frameAllot frameLen swapQueues) m frame m' ∧
      ∀ fuel, muxLoop crypto (fuel + 1) frameLen swapQueues m =
        muxLoop crypto fuel
          (subSize frameLen (frame.sealed crypto m.coder).1.length) true m' := by
  obtain ⟨f, -, m', -, hround, heq⟩ := @exists_round_of_room crypto frameLen
    swapQueues m hok hpending hmin (frameAllot_bounds hmin hmax hroom).1
  exact ⟨_, m', hround, heq⟩

/-- The frame of a round is of whole blocks; it fits into the size if its
payload does, and is all of it if the payload is full. -/
theorem Round.length_sealed (h : Round crypto swapQueues allot m frame m')
    (hmin : 16 ≤ allot) (hok : m.writer.Ok) (hmod : frameLen % 16 = 0)
    (hallot : allot ≤ frameLen - 48) :
    64 ≤ (frame.sealed crypto m.coder).1.length ∧
      (frame.sealed crypto m.coder).1.length ≤ frameLen ∧
      (frame.sealed crypto m.coder).1.length % 16 = 0 ∧
      (m'.ret = m.ret → allot = frameLen - 48 →
        (frame.sealed crypto m.coder).1.length = frameLen) := by
  cases h with
  | @intro ret frame qs sid h =>
      obtain ⟨hpos, hle, hfull⟩ := h.length_payload hmin (hok.taken _)
      rw [RLPXFrame.length_sealed, RLPXFrameCoder.paddingOf]
      refine ⟨by omega, by omega, by omega, fun hret heq => ?_⟩
      have hzero : m.ret + ret = m.ret := hret
      omega

/-- The loop ends, and is a sequence of rounds. -/
theorem exists_muxLoop : ∀ {fuel frameLen : Nat} {swapQueues : Bool}
    {m : Muxed}, frameLen < fuel → frameLen < 2 ^ 63 → frameLen % 16 = 0 →
    m.writer.Ok →
    (m.writer.halves frameLen swapQueues = true → 64 ≤ frameLen →
      128 ≤ frameLen) →
    ∃ m', muxLoop crypto fuel frameLen swapQueues m = .ok m' ∧
      Rounds crypto m m' := by
  intro fuel
  induction fuel with
  | zero => exact fun h => absurd h (Nat.not_lt_zero _)
  | succ fuel ih =>
      intro frameLen swapQueues m hfuel hmax hmod hok hroom
      by_cases hmin : frameLen < 64
      · exact ⟨m, by rw [muxLoop, if_pos hmin], .refl⟩
      · have hmin := Nat.not_lt.1 hmin
        by_cases hpending : m.writer.size = 0
        · have hempty : m.writer.high.q.isEmpty && m.writer.low.q.isEmpty := by
            rw [size] at hpending
            simp only [Bool.and_eq_true, List.isEmpty_iff,
              ← List.length_eq_zero_iff]
            omega
          exact ⟨m, by rw [muxLoop, if_neg (Nat.not_lt.2 hmin), if_pos hempty],
            .refl⟩
        · have hroom := fun h => hroom h hmin
          obtain ⟨frame, m₁, hround, heq⟩ :=
            @exists_round crypto _ _ m hok hpending hmin (by omega) hroom
          have hbounds := frameAllot_bounds hmin (by omega) hroom
          obtain ⟨hpos, hle, hmod', -⟩ :=
            hround.length_sealed hbounds.1 hok hmod hbounds.2
          rw [heq, subSize_of_le hle (by omega)]
          obtain ⟨m', hloop, hrounds⟩ := @ih
            (frameLen - (frame.sealed crypto m.coder).1.length) true m₁
            (by omega) (by omega) (by omega) (hround.ok hbounds.1 hok)
            (fun h => by simp [halves] at h)
          exact ⟨m', hloop, .head hround hbounds.1 (by omega) hrounds⟩

/-- A call of `mux` with a size of at least 128, or with only one queue that
holds something, is a sequence of rounds. -/
theorem exists_mux {c : RLPXFrameCoder} {size : Nat} (hok : w.Ok)
    (hmax : size < 2 ^ 63)
    (hroom : w.high.q = [] ∨ w.low.q = [] ∨ 128 ≤ size) :
    ∃ m, w.mux crypto c size = .ok m ∧
      Rounds crypto { writer := w, coder := c } m := by
  rw [mux]
  split
  · exact ⟨_, rfl, .refl⟩
  · refine exists_muxLoop (by omega) (by omega) (by omega) hok ?_
    intro hhalf _
    rcases hroom with hhigh | hlow | hlarge
    · simp [halves, hhigh] at hhalf
    · simp [halves, hlow] at hhalf
    · omega

end RLPXFrameWriter

end Web3Core
