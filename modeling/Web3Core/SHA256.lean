/-
SHA-256 of a byte string.  Its constants are bits of the roots of the first
primes; a message is closed by a mark and its length, and its blocks are taken
one after the other, each with a schedule of 64 words.
-/
import Mathlib.Data.Nat.Nth
import Mathlib.Data.Nat.Prime.Basic
import Mathlib.Analysis.SpecialFunctions.Pow.NthRootLemmas
import Web3Core.BigEndian
import Web3Core.BlockHash

namespace Web3Core

namespace SHA256

/-- The first 32 bits behind the point of the `k`-th root of the prime number
`t`. -/
noncomputable def rootBits (k t : Nat) : UInt32 :=
  UInt32.ofNat (Nat.nthRoot k (Nat.nth Nat.Prime t * 2 ^ (32 * k)))

def rotated (n : Nat) (x : UInt32) : UInt32 :=
  UInt32.ofBitVec (x.toBitVec.rotateRight n)

def choice (x y z : UInt32) : UInt32 := (x &&& y) ^^^ (~~~x &&& z)

def majority (x y z : UInt32) : UInt32 := (x &&& y) ^^^ (x &&& z) ^^^ (y &&& z)

/-- The functions Σ₀ and Σ₁ of the rounds. -/
def sum0 (x : UInt32) : UInt32 := rotated 2 x ^^^ rotated 13 x ^^^ rotated 22 x

def sum1 (x : UInt32) : UInt32 := rotated 6 x ^^^ rotated 11 x ^^^ rotated 25 x

/-- The functions σ₀ and σ₁ of the schedule. -/
def sigma0 (x : UInt32) : UInt32 := rotated 7 x ^^^ rotated 18 x ^^^ (x >>> 3)

def sigma1 (x : UInt32) : UInt32 := rotated 17 x ^^^ rotated 19 x ^^^ (x >>> 10)

/-- The schedule of a block of sixteen words. -/
def schedule (block : Nat → UInt32) (t : Nat) : UInt32 :=
  if t < 16 then block t
  else
    sigma1 (schedule block (t - 2)) + schedule block (t - 7) +
      sigma0 (schedule block (t - 15)) + schedule block (t - 16)

/-- The eight words a block changes. -/
structure Words where
  a : UInt32
  b : UInt32
  c : UInt32
  d : UInt32
  e : UInt32
  f : UInt32
  g : UInt32
  h : UInt32

/-- A round with its constant and its word of the schedule. -/
def round (v : Words) (constant word : UInt32) : Words :=
  let t₁ := v.h + sum1 v.e + choice v.e v.f v.g + constant + word
  let t₂ := sum0 v.a + majority v.a v.b v.c
  ⟨t₁ + t₂, v.a, v.b, v.c, v.d + t₁, v.e, v.f, v.g⟩

/-- The first `n` rounds. -/
noncomputable def rounds (block : Nat → UInt32) (v : Words) : Nat → Words
  | 0 => v
  | n + 1 => round (rounds block v n) (rootBits 3 n) (schedule block n)

def add (v w : Words) : Words :=
  ⟨v.a + w.a, v.b + w.b, v.c + w.c, v.d + w.d, v.e + w.e, v.f + w.f, v.g + w.g,
    v.h + w.h⟩

/-- Word `t` of a string of bytes. -/
def wordAt (b : Bytes) (t : Nat) : UInt32 :=
  UInt32.ofNat (fromBigEndian ((b.drop (4 * t)).take 4))

noncomputable def compress (v : Words) (block : Bytes) : Words :=
  add v (rounds (wordAt block) v 64)

noncomputable def initial : Words :=
  ⟨rootBits 2 0, rootBits 2 1, rootBits 2 2, rootBits 2 3, rootBits 2 4,
    rootBits 2 5, rootBits 2 6, rootBits 2 7⟩

/-- A number in bytes, the most significant one first. -/
def bytesOf (count n : Nat) : Bytes :=
  (List.range count).reverse.map fun i => UInt8.ofNat (n >>> (8 * i))

theorem length_bytesOf (count n : Nat) : (bytesOf count n).length = count := by
  simp [bytesOf]

theorem fromBigEndian_bytesOf (count n : Nat) :
    fromBigEndian (bytesOf count n) = n % 256 ^ count := by
  induction count with
  | zero => simp [bytesOf, fromBigEndian, Nat.mod_one]
  | succ count ih =>
      have hcons : bytesOf (count + 1) n =
          UInt8.ofNat (n >>> (8 * count)) :: bytesOf count n := by
        simp [bytesOf, List.range_succ]
      rw [hcons, fromBigEndian_cons, ih, length_bytesOf, UInt8.toNat_ofNat',
        Nat.shiftRight_eq_div_pow, Nat.pow_mul, Nat.mod_pow_succ (b := 256),
        Nat.add_comm, Nat.mul_comm]

def Words.bytes (v : Words) : Bytes :=
  [v.a, v.b, v.c, v.d, v.e, v.f, v.g, v.h].flatMap fun x => bytesOf 4 x.toNat

/-- The blocks of a message closed by a field are taken. -/
noncomputable def hashWith (field m : Bytes) : Bytes :=
  (takeWhole compress 64 initial (closed 64 0x80 0 field m)).1.bytes

/-- The hash of a message: its length in bits is the field. -/
noncomputable def hash (m : Bytes) : Bytes :=
  hashWith (bytesOf 8 (8 * m.length)) m

end SHA256

end Web3Core
