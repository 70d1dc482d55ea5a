/-
`CommonJS.h` and `CommonJS.cpp`: hashes, numbers and byte strings in the texts
of JavaScript, and how they are read back.  The constructors of the number types
from decimal digits belong to the library of the numbers and are a parameter.
-/
import Web3Core.FixedHashImage
import Web3Core.HexText

namespace Web3Core

/-- A number of a type with so many bits, which are counted in an
`unsigned`. -/
structure UnsignedNumber (bits : Nat) where
  value : Nat
  value_lt : value < 2 ^ bits
  bits_lt : bits < 2 ^ 32

/-- The constructor from a string of a number type with so many bits, or with
`none` for as many as it takes. -/
abbrev NumberParser := Option Nat → Bytes → Except Exception Nat

/-- `toCompactBigEndian`: at least `least` bytes, and as many as it takes. -/
def toCompactBigEndian (value least : Nat) : Bytes :=
  let size := max least (bytesRequired value)
  FixedHash.toBigEndianLoop size value (List.replicate size 0)

/-- `toJS` of a hash. -/
def toJSHash {N : Nat} (h : FixedHash N) : Bytes :=
  ascii "0x" ++ toHex h.data 2 false

/-- `toJS` of a number: its first digit is removed if it is a zero. -/
def toJSNumber {bits : Nat} (n : UnsignedNumber bits) : Bytes :=
  let h := toHex (toCompactBigEndian n.value 1) 2 false
  let res := if h.getD 0 0 ≠ 0x30 then h else h.drop 1
  ascii "0x" ++ res

/-- `toJS` of a byte string; its new size is an `unsigned`. -/
def toJSBytes (b : Bytes) (padding : Nat) : Bytes :=
  let n := resized b (max (toUnsigned b.length) (toUnsigned padding))
  ascii "0x" ++ toHex n 2 false

/-- `find_first_not_of("0123456789") == npos`. -/
def isDecimal (s : Bytes) : Bool := s.all fun c => 0x30 ≤ c && c ≤ 0x39

section Readers

variable (parse : NumberParser)

def jsToBytes (s : Bytes) : Except Exception Bytes :=
  if s.take 2 = ascii "0x" then fromHex (s.drop 2) false
  else if isDecimal s then do
    let n ← parse none s
    .ok (toCompactBigEndian n 0)
  else .ok []

/-- `jsToFixed`, which takes the last digits for a hash.  Where they begin is
computed with `unsigned` numbers. -/
def jsToFixed (N : Nat) (s : Bytes) : Except Exception (FixedHash N) :=
  if s.take 2 = ascii "0x" then
    let digits := toUnsigned (N * 2 : Nat)
    let start := toUnsigned
      (2 + max digits (toUnsigned (s.length - 2 : Nat)) - digits : Nat)
    FixedHash.fromString N (s.drop start) .failIfDifferent
  else if isDecimal s then do
    let n ← parse (some (FixedHash.arithBits N)) s
    .ok (FixedHash.ofArith N n)
  else .ok (FixedHash.zero N)

/-- `jsToInt`, with the loop of `fromBigEndian`. -/
def jsToInt (N : Nat) (s : Bytes) : Except Exception Nat :=
  if s.take 2 = ascii "0x" then do
    let b ← fromHex (s.drop 2) false
    .ok (b.foldl (fun ret x =>
      (ret <<< 8 ||| x.toNat) % 2 ^ FixedHash.arithBits N) 0)
  else if isDecimal s then parse (some (FixedHash.arithBits N)) s
  else .ok 0

end Readers

theorem take_hexMark (s : Bytes) :
    (ascii "0x" ++ s).take 2 = ascii "0x" := rfl

theorem drop_hexMark (s : Bytes) : (ascii "0x" ++ s).drop 2 = s := rfl

/-! Numbers. -/

theorem fromBigEndian_toCompactBigEndian (value least : Nat) :
    fromBigEndian (toCompactBigEndian value least) = value := by
  obtain ⟨b, hlength, hvalue, hloop⟩ := FixedHash.toBigEndianLoop_eq
    (max least (bytesRequired value)) value
    (List.replicate (max least (bytesRequired value)) 0) (by simp)
  have hlt := (bytesRequired_le_iff value _).1
    (le_max_right least (bytesRequired value))
  simp only [toCompactBigEndian, hloop, List.drop_replicate, Nat.sub_self,
    List.replicate_zero, List.append_nil, hvalue, Nat.mod_eq_of_lt hlt]

theorem length_toCompactBigEndian (value least : Nat) :
    (toCompactBigEndian value least).length =
      max least (bytesRequired value) := by
  simp only [toCompactBigEndian, FixedHash.length_toBigEndianLoop,
    List.length_replicate]

/-- To remove the first digit of two if it is a zero is to print the first byte
with one digit if it has one. -/
theorem drop_first_digit {b : Bytes} (hne : b ≠ []) (hb : b.length ≤ 2 ^ 32) :
    (if (toHex b 2 false).getD 0 0 ≠ 0x30 then toHex b 2 false
      else (toHex b 2 false).drop 1) = toHex b 1 false := by
  obtain ⟨x, b, rfl⟩ := List.exists_cons_of_ne_nil hne
  have hzero : ∀ y : Fin 16, hexDigit y = 0x30 ↔ (y : Nat) = 0 := by decide
  have hhigh : x.toNat / 16 < 16 :=
    Nat.div_lt_of_lt_mul (show x.toNat < 16 * 16 from x.toNat_lt)
  have hdigit : hexDigit (x.toNat / 16) = 0x30 ↔ x.toNat / 16 = 0 :=
    hzero ⟨x.toNat / 16, hhigh⟩
  rw [toHex_one x (by simpa using hb), printedHex, toHex_two, toHex_two,
    List.flatMap_cons]
  simp only [List.cons_append, List.nil_append, List.getD_cons_zero,
    List.drop_succ_cons, List.drop_zero, ne_eq, hdigit]
  by_cases hx : x.toNat < 16
  · rw [if_neg (not_not.2 (Nat.div_eq_of_lt hx)), if_pos hx,
      Nat.mod_eq_of_lt hx]
    rfl
  · have hne : ¬ x.toNat / 16 = 0 := by omega
    rw [if_pos hne, if_neg hx]
    rfl

section Numbers

variable {bits : Nat} (n : UnsignedNumber bits)

/-- No number has more bytes than an `unsigned` counts bits for. -/
theorem UnsignedNumber.length_le :
    (toCompactBigEndian n.value 1).length ≤ 2 ^ 29 := by
  have hbytes : ∀ k, bits ≤ 8 * k → bytesRequired n.value ≤ k := by
    intro k hk
    rw [bytesRequired_le_iff, ← FixedHash.pow_bytes]
    exact lt_of_lt_of_le n.value_lt (Nat.pow_le_pow_right Nat.two_pos hk)
  have hbits := n.bits_lt
  have hle := hbytes (2 ^ 29) (by omega)
  rw [length_toCompactBigEndian]
  omega

theorem toJSNumber_eq :
    toJSNumber n =
      ascii "0x" ++ toHex (toCompactBigEndian n.value 1) 1 false := by
  have hle := n.length_le
  have hne : toCompactBigEndian n.value 1 ≠ [] := by
    rw [ne_eq, ← List.length_eq_zero_iff, length_toCompactBigEndian]
    omega
  rw [toJSNumber, drop_first_digit hne (by omega)]

variable (parse : NumberParser)

/-- A number is read modulo the width of the type that it is read as. -/
theorem jsToInt_toJSNumber (N : Nat) :
    jsToInt parse N (toJSNumber n) =
      .ok (n.value % 2 ^ FixedHash.arithBits N) := by
  have hle := n.length_le
  obtain ⟨hspelled, hcount⟩ := spelled_toHex (.inl rfl)
    (show (toCompactBigEndian n.value 1).length ≤ 2 ^ 32 by omega)
  have hlt : (toHex (toCompactBigEndian n.value 1) 1 false).length <
      2 ^ 32 := by
    rw [hcount, digitCount]
    omega
  have hread : fromHex (toHex (toCompactBigEndian n.value 1) 1 false) false =
      .ok (toCompactBigEndian n.value 1) :=
    hspelled.fromHex_eq false false hlt
  rw [toJSNumber_eq, jsToInt, if_pos (take_hexMark _), drop_hexMark, hread,
    ok_bind, FixedHash.foldl_shift_mod, fromBigEndian_toCompactBigEndian]

end Numbers

/-! Hashes and byte strings. -/

section Bytes

variable (parse : NumberParser)

theorem jsToFixed_toJSHash {N : Nat} (h : FixedHash N) :
    jsToFixed parse N (toJSHash h) =
      if N < 2 ^ 31 then .ok h else .error .outOfFuel := by
  have hdigits := (spells_toHex h.data).length_eq
  rw [h.size_data] at hdigits
  have hlength : (toJSHash h).length - 2 = N * 2 := by
    rw [toJSHash, List.length_append, hdigits]
    exact (Nat.add_sub_cancel_left 2 (2 * N)).trans (Nat.mul_comm 2 N)
  have hstart : toUnsigned (2 + max (toUnsigned (N * 2 : Nat))
      (toUnsigned (N * 2 : Nat)) - toUnsigned (N * 2 : Nat) : Nat) = 2 := by
    rw [Nat.max_self, Nat.add_sub_cancel]
    decide
  have hprefix : (toJSHash h).take 2 = ascii "0x" := take_hexMark _
  rw [jsToFixed, hlength, if_pos hprefix]
  simp only [hstart]
  rw [toJSHash, drop_hexMark, FixedHash.fromString]
  split
  · rename_i hN
    rw [fromHex_toHex (by rw [h.size_data]; exact hN), ok_bind,
      FixedHash.fromBytes, FixedHash.construct, dif_pos h.size_data]
  · rename_i hN
    rw [fromHex_toHex_endless (by rw [h.size_data]; exact not_lt.1 hN)]
    rfl

theorem jsToBytes_toJSBytes (b : Bytes) :
    jsToBytes parse (toJSBytes b 0) = .ok b ↔ b.length < 2 ^ 31 := by
  have hread : jsToBytes parse (toJSBytes b 0) =
      fromHex (toHex (resized b (toUnsigned b.length)) 2 false) false := by
    have hsize : max (toUnsigned b.length) (toUnsigned (0 : Nat)) =
        toUnsigned b.length := Nat.max_zero _
    rw [jsToBytes, toJSBytes, hsize, if_pos (take_hexMark _), drop_hexMark]
  rw [hread]
  constructor
  · intro h
    by_contra hlong
    by_cases hsize : toUnsigned b.length < 2 ^ 31
    · -- What is read has the size that was left of the byte string.
      have hleft : (resized b (toUnsigned b.length)).length =
          toUnsigned b.length := length_resized b _
      rw [fromHex_toHex (by rw [hleft]; exact hsize), Except.ok.injEq] at h
      rw [h] at hleft
      omega
    · rw [fromHex_toHex_endless (by
        rw [length_resized]
        exact not_lt.1 hsize)] at h
      cases h
  · intro hlt
    have hsame : resized b (toUnsigned b.length) = b := by
      rw [toUnsigned_of_lt (by omega), resized, List.take_length, Nat.sub_self,
        List.replicate_zero, List.append_nil]
    rw [hsame, fromHex_toHex hlt]

end Bytes

/-- **Texts are read back.**  Byte strings in hex digits and in the texts of
JavaScript, and hashes, if and only if the text has less than 2^32 characters;
numbers as far as the type that they are read as has the bits, which are eight
times its bytes up to the width whose bits an `unsigned` can count. -/
theorem texts_readBack_iff {w : Nat} (hw : w = 1 ∨ w = 2) (b : Bytes)
    (addPrefix : Bool) (upper : Nat → Bool) (throws : Bool)
    (parse : NumberParser) {bits : Nat} (n : UnsignedNumber bits) (M : Nat)
    {N : Nat} (h : FixedHash N) :
    (fromHex (hexText b w addPrefix upper) throws = .ok b ↔
        digitCount b w + (if addPrefix then 2 else 0) < 2 ^ 32) ∧
      (jsToInt parse M (toJSNumber n) = .ok n.value ↔
        n.value < 2 ^ FixedHash.arithBits M) ∧
      (jsToFixed parse N (toJSHash h) = .ok h ↔ N < 2 ^ 31) ∧
      (jsToBytes parse (toJSBytes b 0) = .ok b ↔ b.length < 2 ^ 31) := by
  refine ⟨fromHex_hexText_iff hw b addPrefix upper throws, ?_, ?_,
    jsToBytes_toJSBytes parse b⟩
  · rw [jsToInt_toJSNumber, Except.ok.injEq]
    exact Nat.mod_eq_iff_lt (Nat.two_pow_pos _).ne'
  · rw [jsToFixed_toJSHash]
    split
    · rename_i hN
      exact iff_of_true rfl hN
    · rename_i hN
      exact iff_of_false (fun heq => by cases heq) hN

/-- The byte `0x05` in one digit, the number 300 as one of two bytes. -/
theorem texts_readBack_short :
    (fromHex (hexText [0x05] 1 true fun _ => true) false = .ok [0x05] ↔
        digitCount [0x05] 1 + (if true then 2 else 0) < 2 ^ 32) ∧
      (jsToInt (fun _ _ => .ok 0) 2 (toJSNumber
          (⟨300, by decide, by decide⟩ : UnsignedNumber 16)) = .ok 300 ↔
        300 < 2 ^ FixedHash.arithBits 2) ∧
      (jsToFixed (fun _ _ => .ok 0) 4 (toJSHash (FixedHash.zero 4)) =
          .ok (FixedHash.zero 4) ↔ 4 < 2 ^ 31) ∧
      (jsToBytes (fun _ _ => .ok 0) (toJSBytes [0x05] 0) = .ok [0x05] ↔
        [(0x05 : Byte)].length < 2 ^ 31) :=
  texts_readBack_iff (.inl rfl) [0x05] true (fun _ => true) false
    (fun _ _ => .ok 0) ⟨300, by decide, by decide⟩ 2 (FixedHash.zero 4)

/-- The loop over 2^32 digits does not end. -/
theorem not_texts_readBack :
    fromHex (toHex (List.replicate (2 ^ 31) 1) 2 false) false =
        .error .outOfFuel ∧
      jsToBytes (fun _ _ => .ok 0) (toJSBytes (List.replicate (2 ^ 31) 1) 0) ≠
        .ok (List.replicate (2 ^ 31) 1) := by
  have hlength : (List.replicate (2 ^ 31) (1 : Byte)).length = 2 ^ 31 :=
    List.length_replicate
  refine ⟨fromHex_toHex_endless hlength.ge false, fun h => ?_⟩
  have hlt := (jsToBytes_toJSBytes _ _).1 h
  rw [hlength] at hlt
  exact lt_irrefl _ hlt

end Web3Core
