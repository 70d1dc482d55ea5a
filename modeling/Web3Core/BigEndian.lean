/-
Byte strings as integers, most significant byte first.  Cutting and padding a
byte string divides and multiplies its integer, and the operations that go byte
by byte are those on the integers.
-/
import Mathlib.Data.Nat.Size
import Mathlib.Data.List.GetD
import Web3Core.Bytes

namespace Web3Core

section Value

variable {a b : Bytes}

theorem fromBigEndian_append (a b : Bytes) :
    fromBigEndian (a ++ b) =
      fromBigEndian a * 256 ^ b.length + fromBigEndian b := by
  induction b using List.reverseRecOn with
  | nil => simp [fromBigEndian]
  | append_singleton b x ih =>
      rw [← List.append_assoc, fromBigEndian_append_singleton, ih,
        fromBigEndian_append_singleton, List.length_append,
        List.length_singleton, pow_succ, Nat.add_mul, Nat.mul_assoc,
        Nat.add_assoc]

theorem fromBigEndian_cons (x : Byte) (b : Bytes) :
    fromBigEndian (x :: b) = x.toNat * 256 ^ b.length + fromBigEndian b := by
  have hsingle : fromBigEndian [x] = x.toNat := by simp [fromBigEndian]
  rw [← List.singleton_append, fromBigEndian_append, hsingle]

theorem fromBigEndian_replicate_zero (n : Nat) :
    fromBigEndian (List.replicate n 0) = 0 := by
  induction n with
  | zero => rfl
  | succ n ih => rw [List.replicate_succ, fromBigEndian_cons, ih]; simp

/-- Only zeros read as zero. -/
theorem fromBigEndian_eq_zero_iff : fromBigEndian b = 0 ↔ ∀ x ∈ b, x = 0 := by
  induction b with
  | nil => simp [fromBigEndian]
  | cons x b ih =>
      rw [fromBigEndian_cons, Nat.add_eq_zero_iff, Nat.mul_eq_zero, ih,
        List.forall_mem_cons]
      simp [← UInt8.toNat_inj]

/-- The last bytes are what is left of the integer by division. -/
theorem fromBigEndian_drop (b : Bytes) {n : Nat} (hn : n ≤ b.length) :
    fromBigEndian (b.drop (b.length - n)) = fromBigEndian b % 256 ^ n := by
  have hlength : (b.drop (b.length - n)).length = n := by
    rw [List.length_drop]
    omega
  have hsplit := fromBigEndian_append (b.take (b.length - n))
    (b.drop (b.length - n))
  rw [List.take_append_drop, hlength] at hsplit
  have hlt := fromBigEndian_lt (b.drop (b.length - n))
  rw [hlength] at hlt
  rw [hsplit, Nat.mul_add_mod_self_right, Nat.mod_eq_of_lt hlt]

/-- The first bytes are the quotient. -/
theorem fromBigEndian_take (b : Bytes) (n : Nat) :
    fromBigEndian (b.take n) = fromBigEndian b / 256 ^ (b.length - n) := by
  have hlength : (b.drop n).length = b.length - n := List.length_drop
  have hsplit := fromBigEndian_append (b.take n) (b.drop n)
  rw [List.take_append_drop, hlength] at hsplit
  have hlt := fromBigEndian_lt (b.drop n)
  rw [hlength] at hlt
  rw [hsplit, Nat.mul_comm, Nat.mul_add_div (Nat.pow_pos (by omega)),
    Nat.div_eq_of_lt hlt, Nat.add_zero]

/-- Byte strings of one length are compared at the first byte they differ
in. -/
theorem fromBigEndian_cons_lt_iff {x y : Byte} (h : a.length = b.length) :
    fromBigEndian (x :: a) < fromBigEndian (y :: b) ↔
      x < y ∨ x = y ∧ fromBigEndian a < fromBigEndian b := by
  have ha := fromBigEndian_lt a
  have hb := fromBigEndian_lt b
  rw [fromBigEndian_cons, fromBigEndian_cons, h, UInt8.lt_iff_toNat_lt,
    ← UInt8.toNat_inj]
  rw [h] at ha
  rcases Nat.lt_trichotomy x.toNat y.toNat with hlt | heq | hgt
  · have : (x.toNat + 1) * 256 ^ b.length ≤ y.toNat * 256 ^ b.length :=
      Nat.mul_le_mul_right _ hlt
    rw [Nat.add_mul, Nat.one_mul] at this
    exact iff_of_true (by omega) (Or.inl hlt)
  · rw [heq]
    simp
  · have : (y.toNat + 1) * 256 ^ b.length ≤ x.toNat * 256 ^ b.length :=
      Nat.mul_le_mul_right _ hgt
    rw [Nat.add_mul, Nat.one_mul] at this
    exact iff_of_false (by omega) (by omega)

theorem fromBigEndian_inj (h : a.length = b.length)
    (hvalue : fromBigEndian a = fromBigEndian b) : a = b := by
  induction a generalizing b with
  | nil => exact (List.eq_nil_of_length_eq_zero h.symm).symm
  | cons x a ih =>
      cases b with
      | nil => cases h
      | cons y b =>
          have hlength : a.length = b.length := by simpa using h
          have hless := @fromBigEndian_cons_lt_iff a b x y hlength
          have hmore := @fromBigEndian_cons_lt_iff b a y x hlength.symm
          rw [hvalue] at hless hmore
          have hxy : x = y := by
            rcases lt_trichotomy x y with hlt | heq | hgt
            · exact absurd (hless.2 (Or.inl hlt)) (lt_irrefl _)
            · exact heq
            · exact absurd (hmore.2 (Or.inl hgt)) (lt_irrefl _)
          subst hxy
          rw [fromBigEndian_cons, fromBigEndian_cons, hlength] at hvalue
          rw [ih hlength (Nat.add_left_cancel hvalue)]

end Value

section Bits

/-- The bits of the integer are the bits of the bytes. -/
theorem testBit_fromBigEndian (b : Bytes) (x : Byte) (i : Nat) :
    (fromBigEndian (b ++ [x])).testBit i =
      if i < 8 then x.toNat.testBit i else (fromBigEndian b).testBit (i - 8) := by
  have hsum : fromBigEndian b * 256 + x.toNat =
      2 ^ 8 * fromBigEndian b + x.toNat := by omega
  rw [fromBigEndian_append_singleton, hsum,
    Nat.testBit_two_pow_mul_add _ x.toNat_lt]

variable {f : Byte → Byte → Byte} {g : Nat → Nat → Nat} {p : Bool → Bool → Bool}

/-- An operation on bytes that works bit by bit works so on the integers. -/
theorem fromBigEndian_zipWith (hzero : p false false = false)
    (hf : ∀ x y i, (f x y).toNat.testBit i =
      p (x.toNat.testBit i) (y.toNat.testBit i))
    (hg : ∀ m n i, (g m n).testBit i = p (m.testBit i) (n.testBit i))
    {a b : Bytes} (h : a.length = b.length) :
    fromBigEndian (List.zipWith f a b) =
      g (fromBigEndian a) (fromBigEndian b) := by
  refine Nat.eq_of_testBit_eq fun i => ?_
  rw [hg]
  induction a using List.reverseRecOn generalizing b i with
  | nil =>
      obtain rfl := List.eq_nil_of_length_eq_zero h.symm
      simp [fromBigEndian, hzero]
  | append_singleton a x ih =>
      induction b using List.reverseRecOn with
      | nil => simp at h
      | append_singleton b y _ =>
          have hlength : a.length = b.length := by simpa using h
          have hzip : List.zipWith f (a ++ [x]) (b ++ [y]) =
              List.zipWith f a b ++ [f x y] := List.zipWith_append hlength
          rw [hzip, testBit_fromBigEndian, testBit_fromBigEndian,
            testBit_fromBigEndian]
          split
          · exact hf x y i
          · exact ih hlength (i - 8)

theorem fromBigEndian_complement (b : Bytes) :
    fromBigEndian (b.map fun x => ~~~x) =
      256 ^ b.length - 1 - fromBigEndian b := by
  induction b using List.reverseRecOn with
  | nil => rfl
  | append_singleton b x ih =>
      have hlt := fromBigEndian_lt b
      have hx := x.toNat_lt
      rw [List.map_append, List.map_singleton, fromBigEndian_append_singleton,
        ih, UInt8.toNat_not, fromBigEndian_append_singleton,
        List.length_append, List.length_singleton, pow_succ]
      simp only [UInt8.size]
      omega

end Bits

end Web3Core
