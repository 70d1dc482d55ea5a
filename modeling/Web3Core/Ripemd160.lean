/-
`ripemd160` of `Hash.cpp`: the macros of a step and the 160 places where they are
used, the block function, and the loops over the message.
-/
import Web3Core.Bytes

namespace Web3Core

namespace Rmd160

/-- There are five variables. -/
scoped instance neZero_five : NeZero 5 := ⟨by decide⟩

/-- The five basic functions. -/
inductive Basic where
  | F
  | G
  | H
  | I
  | J
deriving Repr, DecidableEq

def Basic.apply : Basic → UInt32 → UInt32 → UInt32 → UInt32
  | .F, x, y, z => x ^^^ y ^^^ z
  | .G, x, y, z => (x &&& y) ||| (~~~x &&& z)
  | .H, x, y, z => (x ||| ~~~y) ^^^ z
  | .I, x, y, z => (x &&& z) ||| (y &&& ~~~z)
  | .J, x, y, z => x ^^^ (y ||| ~~~z)

def rol (x n : UInt32) : UInt32 := (x <<< n) ||| (x >>> (32 - n))

/-- A use of one of the ten macros: its basic function and its constant, the
variables it is applied to, the place of its word in `X`, and the shift. -/
structure Step where
  function : Basic
  constant : UInt32
  a : Fin 5
  b : Fin 5
  c : Fin 5
  d : Fin 5
  e : Fin 5
  x : Nat
  s : UInt32
deriving Repr, DecidableEq

def ff : Fin 5 → Fin 5 → Fin 5 → Fin 5 → Fin 5 → Nat → UInt32 → Step :=
  Step.mk .F 0

def gg : Fin 5 → Fin 5 → Fin 5 → Fin 5 → Fin 5 → Nat → UInt32 → Step :=
  Step.mk .G 0x5a827999

def hh : Fin 5 → Fin 5 → Fin 5 → Fin 5 → Fin 5 → Nat → UInt32 → Step :=
  Step.mk .H 0x6ed9eba1

def ii : Fin 5 → Fin 5 → Fin 5 → Fin 5 → Fin 5 → Nat → UInt32 → Step :=
  Step.mk .I 0x8f1bbcdc

def jj : Fin 5 → Fin 5 → Fin 5 → Fin 5 → Fin 5 → Nat → UInt32 → Step :=
  Step.mk .J 0xa953fd4e

def fff : Fin 5 → Fin 5 → Fin 5 → Fin 5 → Fin 5 → Nat → UInt32 → Step :=
  Step.mk .F 0

def ggg : Fin 5 → Fin 5 → Fin 5 → Fin 5 → Fin 5 → Nat → UInt32 → Step :=
  Step.mk .G 0x7a6d76e9

def hhh : Fin 5 → Fin 5 → Fin 5 → Fin 5 → Fin 5 → Nat → UInt32 → Step :=
  Step.mk .H 0x6d703ef3

def iii : Fin 5 → Fin 5 → Fin 5 → Fin 5 → Fin 5 → Nat → UInt32 → Step :=
  Step.mk .I 0x5c4dd124

def jjj : Fin 5 → Fin 5 → Fin 5 → Fin 5 → Fin 5 → Nat → UInt32 → Step :=
  Step.mk .J 0x50a28be6

/-- The body of the macros, on the five variables of a line. -/
def Step.run (X : List UInt32) (v : Vector UInt32 5) (m : Step) :
    Vector UInt32 5 :=
  let v := v.set m.a
    (v[m.a] + (m.function.apply v[m.b] v[m.c] v[m.d] + X.getD m.x 0 + m.constant))
  let v := v.set m.a (rol v[m.a] m.s + v[m.e])
  v.set m.c (rol v[m.c] 10)

section Steps

/-- The variables of the first line. -/
abbrev aa : Fin 5 := 0

abbrev bb : Fin 5 := 1

abbrev cc : Fin 5 := 2

abbrev dd : Fin 5 := 3

abbrev ee : Fin 5 := 4

/-- The variables of the parallel line. -/
abbrev aaa : Fin 5 := 0

abbrev bbb : Fin 5 := 1

abbrev ccc : Fin 5 := 2

abbrev ddd : Fin 5 := 3

abbrev eee : Fin 5 := 4

/-- The rounds 1 to 5. -/
def rounds : List Step := [
  ff aa bb cc dd ee 0 11, ff ee aa bb cc dd 1 14,
  ff dd ee aa bb cc 2 15, ff cc dd ee aa bb 3 12,
  ff bb cc dd ee aa 4 5, ff aa bb cc dd ee 5 8,
  ff ee aa bb cc dd 6 7, ff dd ee aa bb cc 7 9,
  ff cc dd ee aa bb 8 11, ff bb cc dd ee aa 9 13,
  ff aa bb cc dd ee 10 14, ff ee aa bb cc dd 11 15,
  ff dd ee aa bb cc 12 6, ff cc dd ee aa bb 13 7,
  ff bb cc dd ee aa 14 9, ff aa bb cc dd ee 15 8,
  gg ee aa bb cc dd 7 7, gg dd ee aa bb cc 4 6,
  gg cc dd ee aa bb 13 8, gg bb cc dd ee aa 1 13,
  gg aa bb cc dd ee 10 11, gg ee aa bb cc dd 6 9,
  gg dd ee aa bb cc 15 7, gg cc dd ee aa bb 3 15,
  gg bb cc dd ee aa 12 7, gg aa bb cc dd ee 0 12,
  gg ee aa bb cc dd 9 15, gg dd ee aa bb cc 5 9,
  gg cc dd ee aa bb 2 11, gg bb cc dd ee aa 14 7,
  gg aa bb cc dd ee 11 13, gg ee aa bb cc dd 8 12,
  hh dd ee aa bb cc 3 11, hh cc dd ee aa bb 10 13,
  hh bb cc dd ee aa 14 6, hh aa bb cc dd ee 4 7,
  hh ee aa bb cc dd 9 14, hh dd ee aa bb cc 15 9,
  hh cc dd ee aa bb 8 13, hh bb cc dd ee aa 1 15,
  hh aa bb cc dd ee 2 14, hh ee aa bb cc dd 7 8,
  hh dd ee aa bb cc 0 13, hh cc dd ee aa bb 6 6,
  hh bb cc dd ee aa 13 5, hh aa bb cc dd ee 11 12,
  hh ee aa bb cc dd 5 7, hh dd ee aa bb cc 12 5,
  ii cc dd ee aa bb 1 11, ii bb cc dd ee aa 9 12,
  ii aa bb cc dd ee 11 14, ii ee aa bb cc dd 10 15,
  ii dd ee aa bb cc 0 14, ii cc dd ee aa bb 8 15,
  ii bb cc dd ee aa 12 9, ii aa bb cc dd ee 4 8,
  ii ee aa bb cc dd 13 9, ii dd ee aa bb cc 3 14,
  ii cc dd ee aa bb 7 5, ii bb cc dd ee aa 15 6,
  ii aa bb cc dd ee 14 8, ii ee aa bb cc dd 5 6,
  ii dd ee aa bb cc 6 5, ii cc dd ee aa bb 2 12,
  jj bb cc dd ee aa 4 9, jj aa bb cc dd ee 0 15,
  jj ee aa bb cc dd 5 5, jj dd ee aa bb cc 9 11,
  jj cc dd ee aa bb 7 6, jj bb cc dd ee aa 12 8,
  jj aa bb cc dd ee 2 13, jj ee aa bb cc dd 10 12,
  jj dd ee aa bb cc 14 5, jj cc dd ee aa bb 1 12,
  jj bb cc dd ee aa 3 13, jj aa bb cc dd ee 8 14,
  jj ee aa bb cc dd 11 11, jj dd ee aa bb cc 6 8,
  jj cc dd ee aa bb 15 5, jj bb cc dd ee aa 13 6]

/-- The parallel rounds 1 to 5. -/
def parallelRounds : List Step := [
  jjj aaa bbb ccc ddd eee 5 8, jjj eee aaa bbb ccc ddd 14 9,
  jjj ddd eee aaa bbb ccc 7 9, jjj ccc ddd eee aaa bbb 0 11,
  jjj bbb ccc ddd eee aaa 9 13, jjj aaa bbb ccc ddd eee 2 15,
  jjj eee aaa bbb ccc ddd 11 15, jjj ddd eee aaa bbb ccc 4 5,
  jjj ccc ddd eee aaa bbb 13 7, jjj bbb ccc ddd eee aaa 6 7,
  jjj aaa bbb ccc ddd eee 15 8, jjj eee aaa bbb ccc ddd 8 11,
  jjj ddd eee aaa bbb ccc 1 14, jjj ccc ddd eee aaa bbb 10 14,
  jjj bbb ccc ddd eee aaa 3 12, jjj aaa bbb ccc ddd eee 12 6,
  iii eee aaa bbb ccc ddd 6 9, iii ddd eee aaa bbb ccc 11 13,
  iii ccc ddd eee aaa bbb 3 15, iii bbb ccc ddd eee aaa 7 7,
  iii aaa bbb ccc ddd eee 0 12, iii eee aaa bbb ccc ddd 13 8,
  iii ddd eee aaa bbb ccc 5 9, iii ccc ddd eee aaa bbb 10 11,
  iii bbb ccc ddd eee aaa 14 7, iii aaa bbb ccc ddd eee 15 7,
  iii eee aaa bbb ccc ddd 8 12, iii ddd eee aaa bbb ccc 12 7,
  iii ccc ddd eee aaa bbb 4 6, iii bbb ccc ddd eee aaa 9 15,
  iii aaa bbb ccc ddd eee 1 13, iii eee aaa bbb ccc ddd 2 11,
  hhh ddd eee aaa bbb ccc 15 9, hhh ccc ddd eee aaa bbb 5 7,
  hhh bbb ccc ddd eee aaa 1 15, hhh aaa bbb ccc ddd eee 3 11,
  hhh eee aaa bbb ccc ddd 7 8, hhh ddd eee aaa bbb ccc 14 6,
  hhh ccc ddd eee aaa bbb 6 6, hhh bbb ccc ddd eee aaa 9 14,
  hhh aaa bbb ccc ddd eee 11 12, hhh eee aaa bbb ccc ddd 8 13,
  hhh ddd eee aaa bbb ccc 12 5, hhh ccc ddd eee aaa bbb 2 14,
  hhh bbb ccc ddd eee aaa 10 13, hhh aaa bbb ccc ddd eee 0 13,
  hhh eee aaa bbb ccc ddd 4 7, hhh ddd eee aaa bbb ccc 13 5,
  ggg ccc ddd eee aaa bbb 8 15, ggg bbb ccc ddd eee aaa 6 5,
  ggg aaa bbb ccc ddd eee 4 8, ggg eee aaa bbb ccc ddd 1 11,
  ggg ddd eee aaa bbb ccc 3 14, ggg ccc ddd eee aaa bbb 11 14,
  ggg bbb ccc ddd eee aaa 15 6, ggg aaa bbb ccc ddd eee 0 14,
  ggg eee aaa bbb ccc ddd 5 6, ggg ddd eee aaa bbb ccc 12 9,
  ggg ccc ddd eee aaa bbb 2 12, ggg bbb ccc ddd eee aaa 13 9,
  ggg aaa bbb ccc ddd eee 9 12, ggg eee aaa bbb ccc ddd 7 5,
  ggg ddd eee aaa bbb ccc 10 15, ggg ccc ddd eee aaa bbb 14 8,
  fff bbb ccc ddd eee aaa 12 8, fff aaa bbb ccc ddd eee 15 5,
  fff eee aaa bbb ccc ddd 10 12, fff ddd eee aaa bbb ccc 4 9,
  fff ccc ddd eee aaa bbb 1 12, fff bbb ccc ddd eee aaa 5 5,
  fff aaa bbb ccc ddd eee 8 14, fff eee aaa bbb ccc ddd 7 6,
  fff ddd eee aaa bbb ccc 6 8, fff ccc ddd eee aaa bbb 2 13,
  fff bbb ccc ddd eee aaa 13 6, fff aaa bbb ccc ddd eee 14 5,
  fff eee aaa bbb ccc ddd 0 15, fff ddd eee aaa bbb ccc 3 13,
  fff ccc ddd eee aaa bbb 9 11, fff bbb ccc ddd eee aaa 11 11]

end Steps

def mdInit : Vector UInt32 5 :=
  #v[0x67452301, 0xefcdab89, 0x98badcfe, 0x10325476, 0xc3d2e1f0]

def mdCompress (MDbuf : Vector UInt32 5) (X : List UInt32) : Vector UInt32 5 :=
  let v := rounds.foldl (Step.run X) MDbuf
  let w := parallelRounds.foldl (Step.run X) MDbuf
  #v[w[ddd] + (v[cc] + MDbuf[1]), MDbuf[2] + v[dd] + w[eee],
    MDbuf[3] + v[ee] + w[aaa], MDbuf[4] + v[aa] + w[bbb],
    MDbuf[0] + v[bb] + w[ccc]]

/-- The exclusive or of a value into a word of an array. -/
def xorAt (X : List UInt32) (i : Nat) (value : UInt32) : List UInt32 :=
  X.set i (X.getD i 0 ^^^ value)

/-- The bytes left of the message and the bit behind them. -/
def mdMessageWords (strptr : Bytes) (lswlen : UInt32) : List UInt32 :=
  let X := (List.range (lswlen &&& 63).toNat).foldl (fun X i =>
    xorAt X (i >>> 2)
      ((strptr.getD i 0).toUInt32 <<< (8 * (UInt32.ofNat i &&& 3))))
    (List.replicate 16 0)
  xorAt X ((lswlen >>> 2) &&& 15).toNat (1 <<< (8 * (lswlen &&& 3) + 7))

def mdFinish (MDbuf : Vector UInt32 5) (strptr : Bytes) (lswlen mswlen : UInt32) :
    Vector UInt32 5 :=
  let X := mdMessageWords strptr lswlen
  let ready :=
    if (lswlen &&& 63) > 55 then (mdCompress MDbuf X, List.replicate 16 0)
    else (MDbuf, X)
  let X := ready.2.set 14 (lswlen <<< 3)
  let X := X.set 15 ((lswlen >>> 29) ||| (mswlen <<< 3))
  mdCompress ready.1 X

/-- `BYTES_TO_DWORD` at a place of the message. -/
def bytesToDword (message : Bytes) (i : Nat) : UInt32 :=
  (message.getD (i + 3) 0).toUInt32 <<< 24 |||
    (message.getD (i + 2) 0).toUInt32 <<< 16 |||
    (message.getD (i + 1) 0).toUInt32 <<< 8 ||| (message.getD i 0).toUInt32

/-- The chunk of sixteen words that begins the message. -/
def currentChunk (message : Bytes) : List UInt32 :=
  (List.range 16).map fun i => bytesToDword message (4 * i)

/-- The loop of `ripemd160`: the chunks, and the message behind them. -/
def chunkLoop (buffer : Vector UInt32 5) (message : Bytes) (remaining : Nat) :
    Vector UInt32 5 × Bytes :=
  if remaining ≥ 64 then
    chunkLoop (mdCompress buffer (currentChunk message)) (message.drop 64)
      (remaining - 64)
  else (buffer, message)

/-- The bytes of the buffer, each word from its lowest byte on. -/
def hashcode (buffer : Vector UInt32 5) : Bytes :=
  buffer.toList.flatMap fun (word : UInt32) =>
    [word.toUInt8, (word >>> 8).toUInt8, (word >>> 16).toUInt8,
      (word >>> 24).toUInt8]

end Rmd160

open Rmd160 in
/-- `ripemd160`, which keeps the length of its input in 32 bits. -/
def ripemd160 (input : Bytes) : FixedHash 20 :=
  let size := UInt32.ofNat input.length
  let chunks := chunkLoop mdInit input size.toNat
  ⟨hashcode (mdFinish chunks.1 chunks.2 size 0), by
    simp [hashcode]⟩

/-- The example of the hash function's authors for "abc". -/
example : (ripemd160 [0x61, 0x62, 0x63]).data = [
    0x8e, 0xb2, 0x08, 0xf7, 0xe0, 0x5d, 0x98, 0x7a, 0x9b, 0x04,
    0x4a, 0x8e, 0x98, 0xc6, 0xb0, 0x87, 0xf1, 0x5a, 0x0b, 0xfc] := by
  decide +kernel

end Web3Core
