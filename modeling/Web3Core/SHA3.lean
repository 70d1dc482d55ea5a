/-
`SHA3.cpp`: the unrolled Keccak permutation on an array of 25 words and a
scratch array of five, the sponge over it, and `sha3`.  The state is an array of
bytes that the permutation takes for words, as a little endian machine keeps
them.
-/
import Web3Core.LittleEndian

namespace Web3Core

namespace SHA3

def rho : List UInt64 := [
  1, 3, 6, 10, 15, 21,
  28, 36, 45, 55, 2, 14,
  27, 41, 56, 8, 25, 43,
  62, 18, 39, 61, 20, 44]

def pi : List Nat := [
  10, 7, 11, 17, 18, 3,
  5, 16, 8, 21, 24, 4,
  15, 23, 19, 13, 12, 2,
  20, 14, 22, 9, 6, 1]

def RC : List UInt64 := [
  1, 0x8082, 0x800000000000808a, 0x8000000080008000,
  0x808b, 0x80000001, 0x8000000080008081, 0x8000000000008009,
  0x8a, 0x88, 0x80008009, 0x8000000a,
  0x8000808b, 0x800000000000008b, 0x8000000000008089, 0x8000000000008003,
  0x8000000000008002, 0x8000000000000080, 0x800a, 0x800000008000000a,
  0x8000000080008081, 0x8000000000008080, 0x80000001, 0x8000000080008008]

def rol (x s : UInt64) : UInt64 := (x <<< s) ||| (x >>> (64 - s))

/-- `FOR5`. -/
def for5 {σ : Type} (s : Nat) (e : σ → Nat → σ) (state : σ) : σ :=
  [0, s, 2 * s, 3 * s, 4 * s].foldl e state

/-- The first loop of Theta, over the scratch array. -/
def thetaSums (a b : List UInt64) : List UInt64 :=
  for5 1 (fun b x =>
    for5 5 (fun b y => b.set x (b.getD x 0 ^^^ a.getD (x + y) 0)) (b.set x 0)) b

/-- Its second loop. -/
def thetaLanes (a b : List UInt64) : List UInt64 :=
  for5 1 (fun a x =>
    for5 5 (fun a y => a.set (y + x)
      (a.getD (y + x) 0 ^^^
        (b.getD ((x + 4) % 5) 0 ^^^ rol (b.getD ((x + 1) % 5) 0) 1))) a) a

/-- A step of Rho and pi: the array, `b[0]`, and `t`. -/
def rhoPiStep (state : List UInt64 × UInt64 × UInt64) (x : Nat) :
    List UInt64 × UInt64 × UInt64 :=
  let b₀ := state.1.getD (pi.getD x 0) 0
  (state.1.set (pi.getD x 0) (rol state.2.2 (rho.getD x 0)), b₀, b₀)

/-- Rho and pi, which keep a word in `b[0]`. -/
def rhoPi (a b : List UInt64) : List UInt64 × List UInt64 :=
  let state := (List.range 24).foldl rhoPiStep (a, b.getD 0 0, a.getD 1 0)
  (state.1, b.set 0 state.2.1)

/-- The body of Chi, on a row. -/
def chiRow (state : List UInt64 × List UInt64) (y : Nat) :
    List UInt64 × List UInt64 :=
  let b := for5 1 (fun b x => b.set x (state.1.getD (y + x) 0)) state.2
  (for5 1 (fun a x => a.set (y + x)
    (b.getD x 0 ^^^ (~~~(b.getD ((x + 1) % 5) 0) &&& b.getD ((x + 2) % 5) 0)))
    state.1, b)

/-- A round on the two arrays. -/
def round (state : List UInt64 × List UInt64) (i : Nat) :
    List UInt64 × List UInt64 :=
  let b := thetaSums state.1 state.2
  let a := thetaLanes state.1 b
  let state := for5 5 chiRow (rhoPi a b)
  (state.1.set 0 (state.1.getD 0 0 ^^^ RC.getD i 0), state.2)

/-- The words of the state. -/
def wordsOf (state : Bytes) : List UInt64 :=
  (List.range 25).map fun i =>
    UInt64.ofNat (fromLittleEndian ((state.drop (8 * i)).take 8))

def keccakf (state : Bytes) : Bytes :=
  ((List.range 24).foldl round (wordsOf state, [0, 0, 0, 0, 0])).1.flatMap
    fun (word : UInt64) => littleEndian 8 word.toNat

def plen : Nat := 200

def xorin (dst src : Bytes) (len : Nat) : Bytes :=
  (List.range len).foldl (fun dst i =>
    dst.set i (dst.getD i 0 ^^^ src.getD i 0)) dst

def setout (src dst : Bytes) (len : Nat) : Bytes :=
  (List.range len).foldl (fun dst i => dst.set i (src.getD i 0)) dst

/-- The state and the input behind the full blocks that `foldP` absorbs. -/
def absorbLoop {rate : Nat} (h : 0 < rate) (a input : Bytes) : Bytes × Bytes :=
  if input.length ≥ rate then
    absorbLoop h (keccakf (xorin a input rate)) (input.drop rate)
  else (a, input)
termination_by input.length
decreasing_by
  rw [List.length_drop]
  omega

/-- The output that `foldP` and the `setout` behind it write. -/
def squeezeLoop {rate : Nat} (h : 0 < rate) (a out : Bytes) : Bytes :=
  if out.length ≥ rate then
    (setout a out rate).take rate ++
      squeezeLoop h (keccakf a) (out.drop rate)
  else setout a out out.length
termination_by out.length
decreasing_by
  rw [List.length_drop]
  omega

/-- `hash`, for a rate other than zero: the bytes of the output, if it is not a
null pointer; nothing is written when it returns its error. -/
def hash (out : Option Bytes) (input : BytesConstRef) {rate : Nat} (h : 0 < rate)
    (delim : Byte) : Option Bytes :=
  match out with
  | none => none
  | some out =>
      if (input.data.isNone && input.count != 0) || decide (rate ≥ plen) then none
      else
        let absorbed := absorbLoop h (List.replicate plen 0) input.toBytes
        let a := absorbed.1
        let inlen := absorbed.2.length
        let a := a.set inlen (a.getD inlen 0 ^^^ delim)
        let a := a.set (rate - 1) (a.getD (rate - 1) 0 ^^^ 0x80)
        let a := xorin a absorbed.2 inlen
        some (squeezeLoop h (keccakf a) out)

/-- `defshake`. -/
def shake (bits : Nat) (h : 0 < 200 - bits / 4) (out : Option Bytes)
    (input : BytesConstRef) : Option Bytes :=
  hash out input h 0x1f

/-- `defsha3`. -/
def sha3Of (bits : Nat) (h : 0 < 200 - bits / 4) (out : Option Bytes)
    (input : BytesConstRef) : Option Bytes :=
  if out.any fun out => out.length > bits / 8 then none
  else hash out input h 0x01

def shake128 := shake 128 (by decide)

def shake256 := shake 256 (by decide)

def sha3_224 := sha3Of 224 (by decide)

def sha3_256 := sha3Of 256 (by decide)

def sha3_384 := sha3Of 384 (by decide)

def sha3_512 := sha3Of 512 (by decide)

/-- `sha3` into an output: whether its size is right, and what it is then. -/
def sha3Into (input : BytesConstRef) (output : Bytes) : Bool × Bytes :=
  if output.length ≠ 32 then (false, output)
  else (true, (sha3_256 (some output) input).getD output)

end SHA3

end Web3Core
