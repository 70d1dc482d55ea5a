/-
Hashes that take a message block by block.  A state takes one block of `n` after
the other, and what is left, shorter than a block, waits for more of the
message.  A message that comes in pieces is taken as one that comes at once, and
one that is closed by a mark and a field ends in one last block or in two.
-/
import Mathlib.Data.List.Basic
import Mathlib.Data.List.TakeDrop

namespace Web3Core

section Blocks

variable {σ α : Type} (f : σ → List α → σ) (n : Nat)

/-- The first `k` blocks of a message are taken. -/
def takeBlocks : Nat → σ → List α → σ × List α
  | 0, s, m => (s, m)
  | k + 1, s, m => takeBlocks k (f s (m.take n)) (m.drop n)

/-- All whole blocks of a message are taken. -/
def takeWhole (s : σ) (m : List α) : σ × List α :=
  takeBlocks f n (m.length / n) s m

variable {f n} {s : σ} {b m : List α}

theorem takeWhole_of_lt (h : m.length < n) : takeWhole f n s m = (s, m) := by
  rw [takeWhole, Nat.div_eq_of_lt h, takeBlocks]

theorem takeWhole_of_le (hn : 0 < n) (h : n ≤ m.length) :
    takeWhole f n s m = takeWhole f n (f s (m.take n)) (m.drop n) := by
  rw [takeWhole, Nat.div_eq_sub_div hn h, takeBlocks, takeWhole,
    List.length_drop]

/-- A message that begins with a block. -/
theorem takeWhole_block (hn : 0 < n) (hb : b.length = n) (m : List α) :
    takeWhole f n s (b ++ m) = takeWhole f n (f s b) m := by
  rw [takeWhole_of_le hn (by rw [List.length_append]; omega),
    List.take_left' hb, List.drop_left' hb]

/-- A message that is a block. -/
theorem takeWhole_eq (hn : 0 < n) (hb : b.length = n) :
    takeWhole f n s b = (f s b, []) := by
  rw [← List.append_nil b, takeWhole_block hn hb, List.append_nil,
    takeWhole_of_lt (by simpa using hn)]

/-- An induction over the blocks of a message. -/
@[elab_as_elim]
theorem blocks_induction (f : σ → List α → σ) (hn : 0 < n)
    {P : σ → List α → Prop}
    (hshort : ∀ s m, m.length < n → P s m)
    (hblock : ∀ s b m, b.length = n → P (f s b) m → P s (b ++ m)) (s : σ)
    (m : List α) : P s m := by
  induction hlength : m.length using Nat.strongRecOn generalizing s m with
  | ind length ih =>
      rcases Nat.lt_or_ge m.length n with hlt | hle
      · exact hshort s m hlt
      · rw [← List.take_append_drop n m]
        refine hblock s _ _ (List.length_take_of_le hle) ?_
        exact ih (m.drop n).length (by rw [List.length_drop]; omega) _ _ rfl

theorem length_takeWhole_lt (hn : 0 < n) (s : σ) (m : List α) :
    (takeWhole f n s m).2.length < n := by
  refine blocks_induction f hn ?_ ?_ s m
  · intro s m hlt
    rwa [takeWhole_of_lt hlt]
  · intro s b m hb ih
    rwa [takeWhole_block hn hb]

/-- A message that comes in two pieces. -/
theorem takeWhole_append (hn : 0 < n) (s : σ) (m m' : List α) :
    takeWhole f n s (m ++ m') =
      takeWhole f n (takeWhole f n s m).1 ((takeWhole f n s m).2 ++ m') := by
  refine blocks_induction f hn ?_ ?_ s m
  · intro s m hlt
    rw [takeWhole_of_lt hlt]
  · intro s b m hb ih
    rw [List.append_assoc, takeWhole_block hn hb, takeWhole_block hn hb, ih]

/-- The blocks are taken alike where one state stands for another. -/
theorem takeWhole_map {τ : Type} {f' : τ → List α → τ} (g : σ → τ) (hn : 0 < n)
    (hg : ∀ s b, b.length = n → g (f s b) = f' (g s) b) (s : σ) (m : List α) :
    takeWhole f' n (g s) m =
      (g (takeWhole f n s m).1, (takeWhole f n s m).2) := by
  refine blocks_induction f hn ?_ ?_ s m
  · intro s m hlt
    rw [takeWhole_of_lt hlt, takeWhole_of_lt hlt]
  · intro s b m hb ih
    rw [takeWhole_block hn hb, takeWhole_block hn hb, ← hg s b hb, ih]

end Blocks

section Closing

variable {σ α : Type} {f : σ → List α → σ} {n : Nat}

/-- A message closed by a mark, as few zeros as fill a block, and a field. -/
def closed (n : Nat) (mark zero : α) (field m : List α) : List α :=
  m ++ mark :: (List.replicate ((n - (m.length + 1 + field.length) % n) % n) zero ++
    field)

variable {mark zero : α} {field m : List α} {s : σ}

/-- A block in front of a message stays in front of it. -/
theorem closed_block {b : List α} (hb : b.length = n) (m : List α) :
    closed n mark zero field (b ++ m) = b ++ closed n mark zero field m := by
  have hlength : (b ++ m).length + 1 + field.length =
      n + (m.length + 1 + field.length) := by
    rw [List.length_append, hb]
    omega
  rw [closed, closed, hlength, Nat.add_mod_left, List.append_assoc]

/-- The whole blocks of a closed message are those of the message and the ones
that close what is left of it. -/
theorem takeWhole_closed (hn : 0 < n) (s : σ) (m : List α) :
    takeWhole f n s (closed n mark zero field m) =
      takeWhole f n (takeWhole f n s m).1
        (closed n mark zero field (takeWhole f n s m).2) := by
  refine blocks_induction f hn ?_ ?_ s m
  · intro s m hlt
    rw [takeWhole_of_lt hlt]
  · intro s b m hb ih
    rw [closed_block hb, takeWhole_block hn hb, takeWhole_block hn hb, ih]

/-- Where the field fits behind the mark there is one last block. -/
theorem takeWhole_closed_of_le (h : m.length + 1 + field.length ≤ n) :
    takeWhole f n s (closed n mark zero field m) =
      (f s (m ++ mark ::
        (List.replicate (n - (m.length + 1 + field.length)) zero ++ field)),
        []) := by
  have hzeros : (n - (m.length + 1 + field.length) % n) % n =
      n - (m.length + 1 + field.length) := by
    rcases Nat.lt_or_eq_of_le h with hlt | heq
    · rw [Nat.mod_eq_of_lt hlt, Nat.mod_eq_of_lt (by omega)]
    · rw [heq, Nat.mod_self, Nat.sub_zero, Nat.mod_self, Nat.sub_self]
  rw [closed, hzeros, takeWhole_eq (by omega)]
  simp only [List.length_append, List.length_cons, List.length_replicate]
  omega

/-- Where it does not fit, the mark is in the block before the last one. -/
theorem takeWhole_closed_of_gt (hm : m.length < n) (hfield : field.length ≤ n)
    (h : n < m.length + 1 + field.length) :
    takeWhole f n s (closed n mark zero field m) =
      (f (f s (m ++ mark :: List.replicate (n - (m.length + 1)) zero))
        (List.replicate (n - field.length) zero ++ field), []) := by
  have hzeros : (n - (m.length + 1 + field.length) % n) % n =
      n - (m.length + 1) + (n - field.length) := by
    rw [Nat.mod_eq_sub_mod (Nat.le_of_lt h)]
    rcases Nat.lt_or_ge (m.length + 1 + field.length - n) n with hlt | hge
    · rw [Nat.mod_eq_of_lt hlt, Nat.mod_eq_of_lt (by omega)]
      omega
    · have heq : m.length + 1 + field.length - n = n := by omega
      rw [heq, Nat.mod_self, Nat.sub_zero, Nat.mod_self]
      omega
  have hsplit : closed n mark zero field m =
      (m ++ mark :: List.replicate (n - (m.length + 1)) zero) ++
        (List.replicate (n - field.length) zero ++ field) := by
    rw [closed, hzeros, List.replicate_add]
    simp only [List.append_assoc, List.cons_append]
  rw [hsplit, takeWhole_block (by omega), takeWhole_eq (by omega)]
  · simp only [List.length_append, List.length_replicate]
    omega
  · simp only [List.length_append, List.length_cons, List.length_replicate]
    omega

end Closing

end Web3Core
