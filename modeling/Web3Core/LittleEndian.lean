/-
Byte strings as integers, least significant byte first: the order in which a
machine that is not big endian keeps its words.  Bit `i` of the integer is a bit
of byte `i / 8`, so writing a byte where there was none is an exclusive or.  Words of four bytes are
read from an array in either order.
-/
import Mathlib.Tactic.Ring
import Web3Core.BigEndian

namespace Web3Core

/-- The integer a byte string reads as, least significant byte first. -/
def fromLittleEndian (b : Bytes) : Nat := fromBigEndian b.reverse

/-- A number in bytes, the least significant one first. -/
def littleEndian (count n : Nat) : Bytes :=
  (List.range count).map fun i => UInt8.ofNat (n >>> (8 * i))

theorem fromLittleEndian_lt (b : Bytes) : fromLittleEndian b < 256 ^ b.length := by
  have hlt := fromBigEndian_lt b.reverse
  rwa [List.length_reverse] at hlt

theorem testBit_fromLittleEndian (b : Bytes) (i : Nat) :
    (fromLittleEndian b).testBit i =
      (b.getD (i / 8) 0).toNat.testBit (i % 8) := by
  induction b generalizing i with
  | nil => simp [fromLittleEndian, fromBigEndian]
  | cons x b ih =>
      rw [fromLittleEndian, List.reverse_cons, testBit_fromBigEndian]
      by_cases hi : i < 8
      · rw [if_pos hi, Nat.div_eq_of_lt hi, Nat.mod_eq_of_lt hi,
          List.getD_cons_zero]
      · rw [if_neg hi, show i / 8 = (i - 8) / 8 + 1 by omega,
          show i % 8 = (i - 8) % 8 by omega, List.getD_cons_succ]
        exact ih (i - 8)

@[simp] theorem length_littleEndian (count n : Nat) :
    (littleEndian count n).length = count := by
  simp [littleEndian]

theorem getD_littleEndian {count i : Nat} (n : Nat) (h : i < count) :
    (littleEndian count n).getD i 0 = UInt8.ofNat (n >>> (8 * i)) := by
  rw [List.getD_eq_getElem _ _ (by simpa using h)]
  simp [littleEndian]

theorem testBit_ofNat (n i : Nat) :
    (UInt8.ofNat n).toNat.testBit i = (decide (i < 8) && n.testBit i) := by
  rw [UInt8.toNat_ofNat', Nat.testBit_mod_two_pow]

theorem fromLittleEndian_littleEndian (count n : Nat) :
    fromLittleEndian (littleEndian count n) = n % 256 ^ count := by
  apply Nat.eq_of_testBit_eq
  intro i
  rw [testBit_fromLittleEndian, show 256 = 2 ^ 8 from rfl, ← Nat.pow_mul,
    Nat.testBit_mod_two_pow]
  by_cases hi : i < 8 * count
  · rw [getD_littleEndian n (by omega), testBit_ofNat, Nat.testBit_shiftRight,
      decide_eq_true hi, decide_eq_true (show i % 8 < 8 by omega),
      Nat.div_add_mod]
  · rw [List.getD_eq_default _ _ (by rw [length_littleEndian]; omega),
      decide_eq_false hi]
    simp

/-- Writing a byte into a place that is zero. -/
theorem fromLittleEndian_set {b : Bytes} {k : Nat} (hk : k < b.length)
    (hzero : b.getD k 0 = 0) (x : Byte) :
    fromLittleEndian (b.set k x) =
      fromLittleEndian b ^^^ (x.toNat <<< (8 * k)) := by
  apply Nat.eq_of_testBit_eq
  intro i
  rw [Nat.testBit_xor, testBit_fromLittleEndian, testBit_fromLittleEndian,
    Nat.testBit_shiftLeft, List.getD_eq_getElem?_getD]
  by_cases hi : i / 8 = k
  · rw [hi, List.getElem?_set_self hk, hzero, Option.getD_some,
      show i % 8 = i - 8 * k by omega, decide_eq_true (show i ≥ 8 * k by omega)]
    simp
  · rw [List.getElem?_set_ne (by omega), ← List.getD_eq_getElem?_getD]
    by_cases hle : 8 * k ≤ i
    · have hx : x.toNat.testBit (i - 8 * k) = false :=
        Nat.testBit_lt_two_pow
          (Nat.lt_of_lt_of_le x.toNat_lt (Nat.pow_le_pow_right (by decide) (by omega)))
      rw [hx, Bool.and_false, Bool.xor_false]
    · rw [decide_eq_false (by omega), Bool.false_and, Bool.xor_false]

section Words

/-- Bytes that are shifted next to each other. -/
theorem toNat_or_shiftLeft (a b c d : UInt8) :
    (a.toUInt32 <<< 24 ||| b.toUInt32 <<< 16 ||| c.toUInt32 <<< 8 |||
      d.toUInt32).toNat = fromBigEndian [a, b, c, d] := by
  have hor (x y i : Nat) (h : y < 2 ^ i) : x * 2 ^ i ||| y = x * 2 ^ i + y := by
    rw [Nat.mul_comm, Nat.two_pow_add_eq_or_of_lt h]
  have ha := a.toNat_lt
  have hb := b.toNat_lt
  have hc := c.toNat_lt
  have hd := d.toNat_lt
  have hvalue : fromBigEndian [a, b, c, d] =
      ((a.toNat * 256 + b.toNat) * 256 + c.toNat) * 256 + d.toNat := by
    simp [fromBigEndian]
  have hshift (x : UInt8) (n : UInt32) (hn : n.toNat ≤ 24) :
      (x.toUInt32 <<< n).toNat = x.toNat * 2 ^ n.toNat := by
    have hx : x.toNat * 2 ^ n.toNat < 2 ^ 8 * 2 ^ 24 :=
      Nat.mul_lt_mul_of_lt_of_le x.toNat_lt (Nat.pow_le_pow_right (by decide) hn)
        (by decide)
    rw [UInt32.toNat_shiftLeft, UInt8.toNat_toUInt32,
      Nat.mod_eq_of_lt (show n.toNat < 32 by omega), Nat.shiftLeft_eq,
      Nat.mod_eq_of_lt (by omega)]
  rw [UInt32.toNat_or, UInt32.toNat_or, UInt32.toNat_or,
    hshift a 24 (by decide), hshift b 16 (by decide), hshift c 8 (by decide),
    UInt8.toNat_toUInt32, hvalue]
  simp only [UInt32.reduceToNat]
  rw [hor a.toNat (b.toNat * 2 ^ 16) 24 (by omega),
    show a.toNat * 2 ^ 24 + b.toNat * 2 ^ 16 =
      (a.toNat * 2 ^ 8 + b.toNat) * 2 ^ 16 by ring,
    hor _ (c.toNat * 2 ^ 8) 16 (by omega),
    show (a.toNat * 2 ^ 8 + b.toNat) * 2 ^ 16 + c.toNat * 2 ^ 8 =
      ((a.toNat * 2 ^ 8 + b.toNat) * 2 ^ 8 + c.toNat) * 2 ^ 8 by ring,
    hor _ d.toNat 8 hd]
  rfl

theorem take_drop_four (b : Bytes) {i : Nat} (h : i + 4 ≤ b.length) :
    (b.drop i).take 4 =
      [b.getD i 0, b.getD (i + 1) 0, b.getD (i + 2) 0, b.getD (i + 3) 0] := by
  rw [List.drop_eq_getElem_cons (by omega), List.drop_eq_getElem_cons (by omega),
    List.drop_eq_getElem_cons (by omega), List.drop_eq_getElem_cons (by omega)]
  simp only [List.take_succ_cons, List.take_zero]
  rw [List.getD_eq_getElem _ _ (by omega), List.getD_eq_getElem _ _ (by omega),
    List.getD_eq_getElem _ _ (by omega), List.getD_eq_getElem _ _ (by omega)]

end Words

end Web3Core
