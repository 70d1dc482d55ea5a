/-
RIPEMD-160 of a byte string.  A block goes through two lines of five rounds with
sixteen steps each; the order of its words in a round is a power of one
permutation, the shift of a word depends on the round alone, and the constants
are bits of the square roots and the cube roots of the first primes.
-/
import Mathlib.Analysis.SpecialFunctions.Pow.NthRootLemmas
import Web3Core.BlockHash
import Web3Core.LittleEndian

namespace Web3Core

namespace RIPEMD

/-- The bits of the `k`-th root of a number, 30 of them behind the point. -/
def rootBits (k n : Nat) : UInt32 := UInt32.ofNat (Nat.nthRoot k (n * 2 ^ (30 * k)))

def rotated (n : Nat) (x : UInt32) : UInt32 :=
  UInt32.ofBitVec (x.toBitVec.rotateLeft n)

/-- The function of a round of the first line. -/
def function : Nat → UInt32 → UInt32 → UInt32 → UInt32
  | 0, x, y, z => x ^^^ y ^^^ z
  | 1, x, y, z => (x &&& y) ||| (~~~x &&& z)
  | 2, x, y, z => (x ||| ~~~y) ^^^ z
  | 3, x, y, z => (x &&& z) ||| (y &&& ~~~z)
  | _, x, y, z => x ^^^ (y ||| ~~~z)

/-- The constant of a round, in the first line or in the parallel one. -/
def constant : Bool → Nat → UInt32
  | false, 0 => 0
  | false, 1 => rootBits 2 2
  | false, 2 => rootBits 2 3
  | false, 3 => rootBits 2 5
  | false, _ => rootBits 2 7
  | true, 0 => rootBits 3 2
  | true, 1 => rootBits 3 3
  | true, 2 => rootBits 3 5
  | true, 3 => rootBits 3 7
  | true, _ => 0

/-- The permutation of the words. -/
def rho (i : Nat) : Nat :=
  [7, 4, 13, 1, 10, 6, 15, 3, 12, 0, 9, 5, 2, 14, 11, 8].getD i 0

/-- The word of a step; the parallel line begins with a permutation of its
own. -/
def word (parallel : Bool) (j : Nat) : Nat :=
  rho^[j / 16] (if parallel then (9 * (j % 16) + 5) % 16 else j % 16)

/-- The shift of a word in a round. -/
def shift (round word : Nat) : Nat :=
  ([[11, 14, 15, 12, 5, 8, 7, 9, 11, 13, 14, 15, 6, 7, 9, 8],
    [12, 13, 11, 15, 6, 9, 9, 7, 12, 15, 11, 13, 7, 8, 7, 7],
    [13, 15, 14, 11, 7, 7, 6, 8, 13, 14, 13, 12, 5, 5, 6, 9],
    [14, 11, 12, 14, 8, 6, 5, 5, 15, 12, 15, 14, 9, 9, 8, 6],
    [15, 12, 13, 13, 9, 5, 8, 6, 14, 11, 12, 11, 8, 6, 5, 5]].getD round []).getD
    word 0

/-- The five words a block changes. -/
structure Words where
  a : UInt32
  b : UInt32
  c : UInt32
  d : UInt32
  e : UInt32

def step (f : UInt32 → UInt32 → UInt32 → UInt32) (constant word : UInt32)
    (shift : Nat) (v : Words) : Words :=
  ⟨v.e, rotated shift (v.a + f v.b v.c v.d + word + constant) + v.e, v.b,
    rotated 10 v.c, v.d⟩

/-- The first `n` steps of a line. -/
def line (parallel : Bool) (block : Nat → UInt32) (v : Words) : Nat → Words
  | 0 => v
  | j + 1 =>
      step (function (if parallel then 4 - j / 16 else j / 16))
        (constant parallel (j / 16)) (block (word parallel j))
        (shift (j / 16) (word parallel j)) (line parallel block v j)

/-- Word `t` of a string of bytes. -/
def wordAt (b : Bytes) (t : Nat) : UInt32 :=
  UInt32.ofNat (fromLittleEndian ((b.drop (4 * t)).take 4))

def compress (v : Words) (block : Bytes) : Words :=
  let l := line false (wordAt block) v 80
  let r := line true (wordAt block) v 80
  ⟨v.b + l.c + r.d, v.c + l.d + r.e, v.d + l.e + r.a, v.e + l.a + r.b,
    v.a + l.b + r.c⟩

def initial : Words :=
  ⟨0x67452301, 0xefcdab89, 0x98badcfe, 0x10325476, 0xc3d2e1f0⟩

def Words.bytes (v : Words) : Bytes :=
  [v.a, v.b, v.c, v.d, v.e].flatMap fun x => littleEndian 4 x.toNat

/-- The hash of a message: its length in bits closes it. -/
def hash (m : Bytes) : Bytes :=
  (takeWhole compress 64 initial
    (closed 64 0x80 0 (littleEndian 8 (8 * m.length)) m)).1.bytes

theorem word_lt (parallel : Bool) {j : Nat} (h : j < 80) : word parallel j < 16 := by
  have hall : ∀ parallel, ∀ j < 80, word parallel j < 16 := by decide +kernel
  exact hall parallel j h

/-- A word of a block with a byte written into a place that is zero. -/
theorem wordAt_set {b : Bytes} {i : Nat}
    (hlength : 4 * (i / 4) + 4 ≤ b.length) (hzero : b.getD i 0 = 0) (x : Byte)
    (t : Nat) :
    wordAt (b.set i x) t =
      if t = i / 4 then
        wordAt b t ^^^ UInt32.ofNat (x.toNat <<< (8 * (i % 4)))
      else wordAt b t := by
  rw [wordAt, wordAt, List.drop_set]
  by_cases ht : t = i / 4
  · subst ht
    have hdrop : (b.drop (4 * (i / 4))).getD (i % 4) 0 = 0 := by
      rw [List.getD_eq_getElem?_getD, List.getElem?_drop, Nat.div_add_mod,
        ← List.getD_eq_getElem?_getD, hzero]
    have htake : ((b.drop (4 * (i / 4))).take 4).getD (i % 4) 0 = 0 := by
      rw [List.getD_eq_getElem?_getD, List.getElem?_take_of_lt (by omega),
        ← List.getD_eq_getElem?_getD, hdrop]
    have hfour : ((b.drop (4 * (i / 4))).take 4).length = 4 := by
      rw [List.length_take, List.length_drop]
      omega
    rw [if_neg (by omega), if_pos rfl, show i - 4 * (i / 4) = i % 4 by omega,
      List.take_set, fromLittleEndian_set (by rw [hfour]; omega) htake]
    apply UInt32.toNat_inj.1
    rw [UInt32.toNat_ofNat', UInt32.toNat_xor, UInt32.toNat_ofNat',
      UInt32.toNat_ofNat', Nat.xor_mod_two_pow]
  · rw [if_neg ht]
    by_cases hlt : i < 4 * t
    · rw [if_pos hlt]
    · rw [if_neg hlt, List.take_set_of_le (by omega)]

/-- The words in front of the last eight bytes of a block. -/
theorem wordAt_take_append {b c : Bytes} {n t : Nat} (hn : n ≤ b.length)
    (ht : 4 * t + 4 ≤ n) : wordAt (b.take n ++ c) t = wordAt b t := by
  rw [wordAt, wordAt, List.drop_append_of_le_length (by
      rw [List.length_take]; omega), List.take_append_of_le_length (by
      rw [List.length_drop, List.length_take]; omega),
    List.drop_take, List.take_take, Nat.min_eq_left (by omega)]

/-- The words of a number at the end of a block. -/
theorem wordAt_append_littleEndian {b : Bytes} {count n t k : Nat}
    (hb : b.length = 4 * t) (hk : 4 * k + 4 ≤ count) :
    wordAt (b ++ littleEndian count n) (t + k) = UInt32.ofNat (n >>> (32 * k)) := by
  have hbytes : (((b ++ littleEndian count n).drop (4 * (t + k))).take 4) =
      littleEndian 4 (n >>> (32 * k)) := by
    rw [Nat.mul_add, ← List.drop_drop, List.drop_left' hb]
    apply List.ext_getElem
    · rw [List.length_take, List.length_drop, length_littleEndian,
        length_littleEndian]
      omega
    · intro i hi _
      rw [length_littleEndian] at *
      simp only [littleEndian, List.getElem_take, List.getElem_drop,
        List.getElem_map, List.getElem_range, ← Nat.shiftRight_add]
      congr 2
      ring
  apply UInt32.toNat_inj.1
  rw [wordAt, hbytes, fromLittleEndian_littleEndian, UInt32.toNat_ofNat',
    UInt32.toNat_ofNat', Nat.mod_mod_of_dvd _ (by decide)]

end RIPEMD

end Web3Core
