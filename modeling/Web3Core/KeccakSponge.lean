/-
Keccak on byte strings.  The permutation of 25 lanes is 24 rounds of five step
mappings; the rotations and the constants of the rounds come from a walk over
the lanes and from a shift register.  A message is padded to whole blocks, each
of which is added to the state and permuted, and the output is read off the
state block by block.
-/
import Mathlib.Data.Fin.Basic
import Web3Core.BlockHash
import Web3Core.LittleEndian

namespace Web3Core

namespace Keccak

/-- The lanes of a state, in five columns and five rows. -/
abbrev Lanes := Fin 5 → Fin 5 → UInt64

def rotated (n : Nat) (x : UInt64) : UInt64 :=
  UInt64.ofBitVec (x.toBitVec.rotateLeft n)

/-- The parity of a column. -/
def parity (A : Lanes) (x : Fin 5) : UInt64 :=
  (List.finRange 5).foldl (fun c y => c ^^^ A x y) 0

def theta (A : Lanes) : Lanes := fun x y =>
  A x y ^^^ (parity A (x + 4) ^^^ rotated 1 (parity A (x + 1)))

/-- The walk over all lanes but the first. -/
def walk : Nat → Fin 5 × Fin 5
  | 0 => (1, 0)
  | t + 1 => ((walk t).2, 2 * (walk t).1 + 3 * (walk t).2)

/-- The rotation of a lane: it is the next triangular number at every step of
the walk. -/
def offset (x y : Fin 5) : Nat :=
  ((List.range 24).find? fun t => walk t = (x, y)).elim 0 fun t =>
    (t + 1) * (t + 2) / 2 % 64

def rho (A : Lanes) : Lanes := fun x y => rotated (offset x y) (A x y)

def pi (A : Lanes) : Lanes := fun x y => A (x + 3 * y) x

def chi (A : Lanes) : Lanes := fun x y =>
  A x y ^^^ (~~~A (x + 1) y &&& A (x + 2) y)

/-- The shift register. -/
def shiftRegister (r : Nat) : Nat :=
  if 2 * r < 256 then 2 * r else (2 * r) ^^^ 0x171

def roundBit (t : Nat) : Bool := (shiftRegister^[t] 1).testBit 0

/-- The constant of a round, of seven bits that stand at 0, 1, 3, 7 and so on. -/
def roundConstant (i : Nat) : UInt64 :=
  UInt64.ofNat (((List.range 7).map fun j =>
    if roundBit (j + 7 * i) then 2 ^ (2 ^ j - 1) else 0).sum)

def iota (i : Nat) (A : Lanes) : Lanes := fun x y =>
  if x = 0 ∧ y = 0 then A x y ^^^ roundConstant i else A x y

def round (A : Lanes) (i : Nat) : Lanes := iota i (chi (pi (rho (theta A))))

def rounds (A : Lanes) : Lanes := (List.range 24).foldl round A

/-- The lanes in the order in which a state holds them. -/
def Lanes.toList (A : Lanes) : List UInt64 :=
  (List.finRange 5).flatMap fun y => (List.finRange 5).map fun x => A x y

/-- A lane of a state of 200 bytes. -/
def laneAt (s : Bytes) (i : Nat) : UInt64 :=
  UInt64.ofNat (fromLittleEndian ((s.drop (8 * i)).take 8))

def lanes (s : Bytes) : Lanes := fun x y => laneAt s (5 * y + x)

def bytesOf (l : List UInt64) : Bytes :=
  l.flatMap fun lane => littleEndian 8 lane.toNat

/-- The permutation of the states. -/
def permute (s : Bytes) : Bytes := bytesOf (rounds (lanes s)).toList

section Sponge

variable (f : Bytes → Bytes) (rate : Nat)

/-- A block is added to the front of the state. -/
def add (s b : Bytes) : Bytes := List.zipWith (· ^^^ ·) s b ++ s.drop b.length

def absorb (s b : Bytes) : Bytes := f (add s b)

/-- A message is padded by bits of its domain, zeros, and a last bit. -/
def padded (domain : Byte) (m : Bytes) : Bytes :=
  let p := closed rate domain 0 [] m
  p.set (p.length - 1) (p.getD (p.length - 1) 0 ^^^ 0x80)

/-- What is read off the state: its front, then that of the next one. -/
def squeeze (s : Bytes) (size : Nat) : Bytes :=
  ((List.range (size / rate + 1)).flatMap fun i => (f^[i] s).take rate).take size

def sponge (domain : Byte) (m : Bytes) (size : Nat) : Bytes :=
  squeeze f rate
    (takeWhole (absorb f) rate (List.replicate 200 0) (padded rate domain m)).1
    size

end Sponge

end Keccak

end Web3Core
