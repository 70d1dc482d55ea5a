/-
`picosha2.h`: the hash of a message that comes in pieces, with a length kept in
four digits of 16 bits, and `sha256` of `Hash.cpp`, which passes the message as
one piece.
-/
import Mathlib.Data.Vector.Basic
import Web3Core.BlockHash
import Web3Core.Bytes

namespace Web3Core

namespace PicoSHA2

def mask8bit (x : UInt8) : UInt8 := x &&& 0xff

def mask32bit (x : UInt32) : UInt32 := x &&& 0xffffffff

def addConstant : List UInt32 := [
  0x428a2f98, 0x71374491, 0xb5c0fbcf, 0xe9b5dba5,
  0x3956c25b, 0x59f111f1, 0x923f82a4, 0xab1c5ed5,
  0xd807aa98, 0x12835b01, 0x243185be, 0x550c7dc3,
  0x72be5d74, 0x80deb1fe, 0x9bdc06a7, 0xc19bf174,
  0xe49b69c1, 0xefbe4786, 0x0fc19dc6, 0x240ca1cc,
  0x2de92c6f, 0x4a7484aa, 0x5cb0a9dc, 0x76f988da,
  0x983e5152, 0xa831c66d, 0xb00327c8, 0xbf597fc7,
  0xc6e00bf3, 0xd5a79147, 0x06ca6351, 0x14292967,
  0x27b70a85, 0x2e1b2138, 0x4d2c6dfc, 0x53380d13,
  0x650a7354, 0x766a0abb, 0x81c2c92e, 0x92722c85,
  0xa2bfe8a1, 0xa81a664b, 0xc24b8b70, 0xc76c51a3,
  0xd192e819, 0xd6990624, 0xf40e3585, 0x106aa070,
  0x19a4c116, 0x1e376c08, 0x2748774c, 0x34b0bcb5,
  0x391c0cb3, 0x4ed8aa4a, 0x5b9cca4f, 0x682e6ff3,
  0x748f82ee, 0x78a5636f, 0x84c87814, 0x8cc70208,
  0x90befffa, 0xa4506ceb, 0xbef9a3f7, 0xc67178f2]

/-- The array `h_`, and the variables `a` to `h` of a block. -/
structure MessageDigest where
  a : UInt32
  b : UInt32
  c : UInt32
  d : UInt32
  e : UInt32
  f : UInt32
  g : UInt32
  h : UInt32
deriving Repr, DecidableEq

def initialMessageDigest : MessageDigest :=
  ⟨0x6a09e667, 0xbb67ae85, 0x3c6ef372, 0xa54ff53a,
    0x510e527f, 0x9b05688c, 0x1f83d9ab, 0x5be0cd19⟩

def ch (x y z : UInt32) : UInt32 := (x &&& y) ^^^ (~~~x &&& z)

def maj (x y z : UInt32) : UInt32 := (x &&& y) ^^^ (x &&& z) ^^^ (y &&& z)

def rotr (x n : UInt32) : UInt32 := mask32bit ((x >>> n) ||| (x <<< (32 - n)))

def bsig0 (x : UInt32) : UInt32 := rotr x 2 ^^^ rotr x 13 ^^^ rotr x 22

def bsig1 (x : UInt32) : UInt32 := rotr x 6 ^^^ rotr x 11 ^^^ rotr x 25

def shr (x n : UInt32) : UInt32 := x >>> n

def ssig0 (x : UInt32) : UInt32 := rotr x 7 ^^^ rotr x 18 ^^^ shr x 3

def ssig1 (x : UInt32) : UInt32 := rotr x 17 ^^^ rotr x 19 ^^^ shr x 10

/-- The word of the block that the first loop of `hash256_block` reads. -/
def blockWord (first : Bytes) (i : Nat) : UInt32 :=
  (mask8bit (first.getD (i * 4) 0)).toUInt32 <<< 24 |||
    (mask8bit (first.getD (i * 4 + 1) 0)).toUInt32 <<< 16 |||
    (mask8bit (first.getD (i * 4 + 2) 0)).toUInt32 <<< 8 |||
    (mask8bit (first.getD (i * 4 + 3) 0)).toUInt32

/-- The body of the second loop. -/
def extendWords (w : List UInt32) (i : Nat) : List UInt32 :=
  w.set i (mask32bit (ssig1 (w.getD (i - 2) 0) + w.getD (i - 7) 0 +
    ssig0 (w.getD (i - 15) 0) + w.getD (i - 16) 0))

/-- The first two loops, which fill the array `w`. -/
def fillWords (first : Bytes) : List UInt32 :=
  (List.range' 16 48).foldl extendWords
    ((List.range 16).foldl (fun w i => w.set i (blockWord first i))
      (List.replicate 64 0))

/-- A round of its third loop. -/
def round (w : List UInt32) (v : MessageDigest) (i : Nat) : MessageDigest :=
  let temp1 := v.h + bsig1 v.e + ch v.e v.f v.g + addConstant.getD i 0 +
    w.getD i 0
  let temp2 := bsig0 v.a + maj v.a v.b v.c
  { h := v.g
    g := v.f
    f := v.e
    e := mask32bit (v.d + temp1)
    d := v.c
    c := v.b
    b := v.a
    a := mask32bit (temp1 + temp2) }

def hash256Block (messageDigest : MessageDigest) (first : Bytes) :
    MessageDigest :=
  let v := (List.range 64).foldl (round (fillWords first)) messageDigest
  { a := mask32bit (messageDigest.a + v.a)
    b := mask32bit (messageDigest.b + v.b)
    c := mask32bit (messageDigest.c + v.c)
    d := mask32bit (messageDigest.d + v.d)
    e := mask32bit (messageDigest.e + v.e)
    f := mask32bit (messageDigest.f + v.f)
    g := mask32bit (messageDigest.g + v.g)
    h := mask32bit (messageDigest.h + v.h) }

/-- The loop of `add_to_data_length`, which ends where there is no carry. -/
def addLoop (carry : UInt32) : List UInt32 → List UInt32
  | [] => []
  | digit :: digits =>
      if digit + carry ≥ 65536 then
        (digit + carry - 65536) :: addLoop 1 digits
      else (digit + carry) :: digits

def addToDataLength (digits : List UInt32) (n : UInt32) : List UInt32 :=
  addLoop 0 (digits.set 0 (digits.getD 0 0 + n))

/-- The first loop of `write_data_bit_length`, from bytes to bits. -/
def shiftLoop (carry : UInt32) : List UInt32 → List UInt32
  | [] => []
  | digit :: digits =>
      (((digit <<< 3) ||| carry) &&& 65535) ::
        shiftLoop ((digit >>> (16 - 3)) &&& 65535) digits

/-- The eight bytes that `write_data_bit_length` writes. -/
def writeDataBitLength (digits : List UInt32) : Bytes :=
  (shiftLoop 0 digits).reverse.flatMap fun (digit : UInt32) =>
    [(digit >>> 8).toUInt8, digit.toUInt8]

/-- `std::fill` on a part of an array. -/
def fill (temp : Bytes) (first last : Nat) (value : UInt8) : Bytes :=
  temp.take first ++ List.replicate (last - first) value ++ temp.drop last

/-- The bytes are written into an array from a place on. -/
def write (temp : Bytes) (first : Nat) (b : Bytes) : Bytes :=
  temp.take first ++ b ++ temp.drop (first + b.length)

/-- `hash256_one_by_one`.  Between two calls less than a block is waiting. -/
structure Hash256OneByOne where
  buffer : Bytes
  dataLengthDigits : List UInt32
  h : MessageDigest
  short : buffer.length < 64

/-- The loop of `process` over the blocks of the buffer. -/
def processLoop (buffer : Bytes) (h : MessageDigest) (i : Nat) :
    MessageDigest × Nat :=
  if i + 64 ≤ buffer.length then
    processLoop buffer (hash256Block h ((buffer.drop i).take 64)) (i + 64)
  else (h, i)
termination_by buffer.length - i

theorem length_sub_processLoop (buffer : Bytes) (h : MessageDigest) (i : Nat) :
    buffer.length - (processLoop buffer h i).2 < 64 := by
  fun_induction processLoop buffer h i with
  | case1 h i hle ih => exact ih
  | case2 h i hgt =>
      show buffer.length - i < 64
      omega

namespace Hash256OneByOne

def init : Hash256OneByOne :=
  ⟨[], [0, 0, 0, 0], initialMessageDigest, by decide⟩

def process (x : Hash256OneByOne) (data : Bytes) : Hash256OneByOne :=
  let buffer := x.buffer ++ data
  { buffer := buffer.drop (processLoop buffer x.h 0).2
    dataLengthDigits :=
      addToDataLength x.dataLengthDigits (UInt32.ofNat data.length)
    h := (processLoop buffer x.h 0).1
    short := by
      rw [List.length_drop]
      exact length_sub_processLoop _ _ _ }

def finish (x : Hash256OneByOne) : Hash256OneByOne :=
  let remains := x.buffer.length
  let temp := write (List.replicate 64 0) 0 x.buffer
  let temp := temp.set remains 0x80
  let ready :=
    if remains > 55 then
      let temp := fill temp (remains + 1) 64 0
      (hash256Block x.h temp, fill temp 0 (64 - 4) 0)
    else (x.h, fill temp (remains + 1) (64 - 4) 0)
  let temp := write ready.2 56 (writeDataBitLength x.dataLengthDigits)
  { x with h := hash256Block ready.1 temp }

/-- The bytes that `get_hash_bytes` writes into a range of `size` bytes. -/
def getHashBytes (x : Hash256OneByOne) (size : Nat) : Bytes :=
  ([x.h.a, x.h.b, x.h.c, x.h.d, x.h.e, x.h.f, x.h.g, x.h.h].flatMap fun (word : UInt32) =>
    (List.range 4).map fun i =>
      mask8bit (word >>> (24 - 8 * UInt32.ofNat i)).toUInt8).take size

end Hash256OneByOne

/-- `hash256`, which writes into a range of `size` bytes. -/
def hash256 (src : Bytes) (size : Nat) : Bytes :=
  ((Hash256OneByOne.init.process src).finish).getHashBytes size

end PicoSHA2

/-- `sha256` of `Hash.cpp`. -/
def sha256 (input : Bytes) : H256 :=
  ⟨PicoSHA2.hash256 input 32, by
    simp [PicoSHA2.hash256, PicoSHA2.Hash256OneByOne.getHashBytes]⟩

/-- The example of the standard, the three letters "abc". -/
example : (sha256 [0x61, 0x62, 0x63]).data = [
    0xba, 0x78, 0x16, 0xbf, 0x8f, 0x01, 0xcf, 0xea,
    0x41, 0x41, 0x40, 0xde, 0x5d, 0xae, 0x22, 0x23,
    0xb0, 0x03, 0x61, 0xa3, 0x96, 0x17, 0x7a, 0x9c,
    0xb4, 0x10, 0xff, 0x61, 0xf2, 0x00, 0x15, 0xad] := by decide +kernel

end Web3Core
