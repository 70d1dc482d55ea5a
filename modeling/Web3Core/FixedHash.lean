/-
`FixedHash.h`: arrays of `N` bytes, their construction from other hashes and
from byte strings, and their operators, each a loop over the bytes.  `N` is an
`unsigned` in the source, and so are the counts that are computed from it.
-/
import Mathlib.Data.List.GetD
import Web3Core.Bytes

namespace Web3Core

/-- `FixedHash::ConstructFromHashType`. -/
inductive Alignment where
  | left
  | right
  | failIfDifferent
deriving Repr, DecidableEq

namespace FixedHash

variable {N : Nat}

/-- The default constructed hash. -/
def zero (N : Nat) : FixedHash N := ⟨List.replicate N 0, List.length_replicate⟩

/-- `operator bool`: whether there is a byte other than zero. -/
def isSet (h : FixedHash N) : Bool := h.data.any (· != 0)

/-- The loop of the constructors over the first or the last `c` bytes. -/
def copyLoop (N : Nat) (b : Bytes) (t : Alignment) (c : Nat) : Bytes :=
  (List.range c).foldl (fun m i =>
    m.set (if t = .right then N - 1 - i else i)
      (b.getD (if t = .right then b.length - 1 - i else i) 0))
    (List.replicate N 0)

theorem length_copyLoop (N : Nat) (b : Bytes) (t : Alignment) (c : Nat) :
    (copyLoop N b t c).length = N := by
  induction c with
  | zero => exact List.length_replicate
  | succ c ih =>
      unfold copyLoop at ih ⊢
      rw [List.range_succ, List.foldl_append]
      simpa using ih

/-- The constructor from another hash; it takes every other alignment for the
left one. -/
def fromHash {M : Nat} (N : Nat) (h : FixedHash M) (t : Alignment) :
    FixedHash N :=
  ⟨copyLoop N h.data t (min M N), length_copyLoop N _ _ _⟩

/-- The body of the constructors from byte strings.  The number of bytes that
are copied is computed with a size converted to `unsigned`. -/
def construct (N : Nat) (b : Bytes) (t : Alignment) : FixedHash N :=
  if h : b.length = N then ⟨b, h⟩
  else if t ≠ .failIfDifferent then
    ⟨copyLoop N b t (min (toUnsigned b.length) N), length_copyLoop N _ _ _⟩
  else zero N

/-- The constructor from `bytes`. -/
def fromBytes (N : Nat) (b : Bytes) (t : Alignment) : FixedHash N :=
  construct N b t

/-- The constructor from a `bytesConstRef`. -/
def fromRef (N : Nat) (v : BytesConstRef) (t : Alignment) : FixedHash N :=
  construct N v.toBytes t

/-- The number of bits of the type `Arith`. -/
def arithBits (N : Nat) : Nat := toUnsigned (N * 8 : Nat)

/-- The loop of `toBigEndian`. -/
def toBigEndianLoop : Nat → Nat → Bytes → Bytes
  | 0, _, out => out
  | i + 1, value, out =>
      toBigEndianLoop i (value >>> 8) (out.set i (UInt8.ofNat (value &&& 0xff)))

theorem length_toBigEndianLoop (i value : Nat) (out : Bytes) :
    (toBigEndianLoop i value out).length = out.length := by
  induction i generalizing value out with
  | zero => rfl
  | succ i ih => rw [toBigEndianLoop, ih, List.length_set]

/-- The constructor from the arithmetic type. -/
def ofArith (N : Nat) (value : Nat) : FixedHash N :=
  ⟨toBigEndianLoop N value (List.replicate N 0), by
    rw [length_toBigEndianLoop, List.length_replicate]⟩

/-- The conversion to the arithmetic type, with the loop of `fromBigEndian`. -/
def toArith (h : FixedHash N) : Nat :=
  h.data.foldl (fun ret x => (ret <<< 8 ||| x.toNat) % 2 ^ arithBits N) 0

/-- A word of eight bytes of the machine. -/
def word (b : Bytes) (i : Nat) : Nat :=
  fromBigEndian ((b.drop (8 * i)).take 8).reverse

/-- `operator==`; there is one of its own for `h256`, which compares words. -/
def equals (a c : FixedHash N) : Bool :=
  if N = 32 then
    word a.data 0 == word c.data 0 && word a.data 1 == word c.data 1 &&
      word a.data 2 == word c.data 2 && word a.data 3 == word c.data 3
  else a.data == c.data

/-- `operator!=`. -/
def differs (a c : FixedHash N) : Bool := a.data != c.data

/-- The loop of `operator<`. -/
def lessLoop : Bytes → Bytes → Bool
  | x :: a, y :: c =>
      if x < y then true else if x > y then false else lessLoop a c
  | _, _ => false

/-- `operator<`. -/
def less (a c : FixedHash N) : Bool := lessLoop a.data c.data

/-- `operator>=`. -/
def notLess (a c : FixedHash N) : Bool := !less a c

/-- `operator<=`. -/
def lessOrEqual (a c : FixedHash N) : Bool := equals a c || less a c

/-- `operator>`. -/
def greater (a c : FixedHash N) : Bool := !lessOrEqual a c

/-- The loops of the operators with a hash on the right. -/
def combine (f : Byte → Byte → Byte) (a c : FixedHash N) : FixedHash N :=
  ⟨List.zipWith f a.data c.data, by
    rw [List.length_zipWith, a.size_data, c.size_data, Nat.min_self]⟩

/-- `operator^=`, and `operator^` on a copy. -/
def xorWith (a c : FixedHash N) : FixedHash N :=
  combine (fun x y => x ^^^ y) a c

/-- `operator|=`, and `operator|` on a copy. -/
def orWith (a c : FixedHash N) : FixedHash N :=
  combine (fun x y => x ||| y) a c

/-- `operator&=`, and `operator&` on a copy. -/
def andWith (a c : FixedHash N) : FixedHash N :=
  combine (fun x y => x &&& y) a c

/-- `operator~`. -/
def complement (a : FixedHash N) : FixedHash N :=
  ⟨a.data.map fun x => ~~~x, by rw [List.length_map, a.size_data]⟩

/-- The loop of `operator++`, from the byte behind the one it begins with. -/
def incrementLoop : Nat → Bytes → Bytes
  | 0, m => m
  | i + 1, m =>
      let x := m.getD i 0 + 1
      if x = 0 then incrementLoop i (m.set i x) else m.set i x

theorem length_incrementLoop (i : Nat) (m : Bytes) :
    (incrementLoop i m).length = m.length := by
  induction i generalizing m with
  | zero => rfl
  | succ i ih =>
      rw [incrementLoop]
      split
      · rw [ih, List.length_set]
      · exact List.length_set

/-- `operator++`. -/
def increment (a : FixedHash N) : FixedHash N :=
  ⟨incrementLoop N a.data, by rw [length_incrementLoop, a.size_data]⟩

/-- The inner loop of `firstBitSet`; a byte that is not zero takes at most
eight rounds. -/
def shiftLoop : Nat → Byte → Nat → Nat
  | 0, _, ret => ret
  | rounds + 1, d, ret =>
      if d &&& 0x80 ≠ 0 then ret
      else shiftLoop rounds (d <<< 1) (toUnsigned (ret + 1 : Nat))

/-- The loop of `firstBitSet`. -/
def firstBitLoop : Bytes → Nat → Nat
  | [], ret => ret
  | d :: m, ret =>
      if d ≠ 0 then shiftLoop 8 d ret
      else firstBitLoop m (toUnsigned (ret + 8 : Nat))

/-- The index of the first bit set to one. -/
def firstBitSet (a : FixedHash N) : Nat := firstBitLoop a.data 0

/-- `clear`. -/
def clear (_ : FixedHash N) : FixedHash N := zero N

end FixedHash

end Web3Core
