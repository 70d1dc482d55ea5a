/-
Byte strings, their exceptions, and views into them.

A size or a reference count of the source is a natural number: it is that of
data a machine holds.  Where the code limits, tests or can outgrow a width (the
length bytes of an RLP item, the casts to `byte`, the numbers of nibbles in an
`unsigned` or an `int`), the width is modelled.
-/
import Mathlib.Data.Nat.Digits.Lemmas
import Mathlib.Data.List.TakeDrop

namespace Web3Core

abbrev Byte := UInt8

abbrev Bytes := List Byte

instance : LinearOrder Byte where
  le_refl := UInt8.le_refl
  le_trans _ _ _ := UInt8.le_trans
  le_antisymm _ _ := UInt8.le_antisymm
  le_total := UInt8.le_total
  lt_iff_le_not_ge _ _ := by
    rw [UInt8.not_le]
    exact ⟨fun h => ⟨UInt8.le_of_lt h, h⟩, And.right⟩
  toDecidableLE := inferInstance

/-- What ends a computation early.  `assertion` stands for a failed `assert`,
`outOfRange` for a read outside the memory a view covers, `intOverflow` for a
sum that an `int` cannot hold, `jsonValueType` and `invalidArgument` for what
the JSON library and `stoi` throw, and `outOfFuel` for a recursion that has not
ended after the number of steps it was given. -/
inductive Exception where
  | badRLP
  | oversizeRLP
  | undersizeRLP
  | badCast
  | rlpException (comment : String)
  | rootNotFound
  | badRoot
  | invalidTrie
  | invalidState
  | rlpxFrameDecryptFailed
  | rlpxInvalidPacket
  | badHexCharacter
  | cryptoException (comment : String)
  | jsonValueType
  | invalidArgument
  | divisionByZero
  | assertion
  | outOfRange
  | intOverflow
  | networkStartRequired
  | nullPointer
  | outOfFuel
deriving Repr, DecidableEq

@[simp] theorem ok_bind {α β : Type} (x : α) (f : α → Except Exception β) :
    (Except.ok x >>= f) = f x := rfl

@[simp] theorem error_bind {α β : Type} (e : Exception)
    (f : α → Except Exception β) :
    ((Except.error e : Except Exception α) >>= f) = .error e := rfl

@[simp] theorem pure_eq_ok {α : Type} (x : α) :
    (pure x : Except Exception α) = .ok x := rfl

/-- What went before a result has a result. -/
theorem exists_of_bind {α β : Type} {x : Except Exception α}
    {f : α → Except Exception β} {y : β} (h : (x >>= f) = .ok y) :
    ∃ a, x = .ok a ∧ f a = .ok y := by
  cases x with
  | error e => cases h
  | ok a => exact ⟨a, rfl, h⟩

/-- `std::numeric_limits<size_t>::max()`. -/
def sizeMax : Nat := 2 ^ 64 - 1

/-- The conversion to `unsigned`. -/
def toUnsigned (x : Int) : Nat := (x % 2 ^ 32).toNat

/-- The conversion to `int`. -/
def toInt (x : Int) : Int := x.bmod (2 ^ 32)

/-- The sum of two `int`s. -/
def addInt (x y : Int) : Except Exception Int :=
  if -2 ^ 31 ≤ x + y ∧ x + y < 2 ^ 31 then .ok (x + y) else .error .intOverflow

theorem toUnsigned_of_lt {n : Nat} (h : n < 2 ^ 32) : toUnsigned n = n := by
  rw [toUnsigned]
  omega

theorem toInt_of_lt {n : Nat} (h : n < 2 ^ 31) : toInt n = n := by
  rw [toInt, Int.bmod]
  omega

/-- `assert`. -/
def check (condition : Bool) : Except Exception Unit :=
  if condition then .ok () else .error .assertion

@[simp] theorem check_true : check true = .ok () := rfl

/-- The bytes of an integer, most significant first, none for zero: what
`pushInt` writes when it is given `bytesRequired` bytes. -/
def bigEndian (n : Nat) : Bytes :=
  ((Nat.digits 256 n).map UInt8.ofNat).reverse

/-- The number of bytes it takes to write an integer. -/
def bytesRequired (n : Nat) : Nat := (Nat.digits 256 n).length

/-- The integer a byte string reads as, most significant byte first. -/
def fromBigEndian (b : Bytes) : Nat :=
  b.foldl (fun acc x => acc * 256 + x.toNat) 0

@[simp] theorem length_bigEndian (n : Nat) :
    (bigEndian n).length = bytesRequired n := by
  simp [bigEndian, bytesRequired]

theorem bytesRequired_le_iff (n k : Nat) :
    bytesRequired n ≤ k ↔ n < 256 ^ k :=
  Nat.digits_length_le_iff (by omega) n

theorem bytesRequired_pos {n : Nat} (h : 0 < n) : 0 < bytesRequired n := by
  by_contra hzero
  have := (bytesRequired_le_iff n 0).1 (by omega)
  omega

theorem fromBigEndian_append_singleton (b : Bytes) (x : Byte) :
    fromBigEndian (b ++ [x]) = fromBigEndian b * 256 + x.toNat := by
  simp [fromBigEndian]

theorem fromBigEndian_lt (b : Bytes) : fromBigEndian b < 256 ^ b.length := by
  induction b using List.reverseRecOn with
  | nil => exact Nat.one_pos
  | append_singleton b x ih =>
      have hx := x.toNat_lt
      rw [fromBigEndian_append_singleton, List.length_append,
        List.length_singleton, pow_succ]
      omega

theorem fromBigEndian_reverse (b : Bytes) :
    fromBigEndian b.reverse = Nat.ofDigits 256 (b.map UInt8.toNat) := by
  induction b with
  | nil => rfl
  | cons x b ih =>
      rw [List.reverse_cons, fromBigEndian_append_singleton, ih, List.map_cons,
        Nat.ofDigits_cons]
      omega

theorem map_toNat_ofNat_digits (n : Nat) :
    ((Nat.digits 256 n).map UInt8.ofNat).map UInt8.toNat =
      Nat.digits 256 n := by
  rw [List.map_map]
  refine (List.map_congr_left fun d hd => ?_).trans (List.map_id _)
  have hlt : d < 256 := Nat.digits_lt_base (by omega) hd
  simp [UInt8.toNat_ofNat', Nat.mod_eq_of_lt hlt]

/-- Reading back what was written. -/
@[simp] theorem fromBigEndian_bigEndian (n : Nat) :
    fromBigEndian (bigEndian n) = n := by
  rw [bigEndian, fromBigEndian_reverse, map_toNat_ofNat_digits,
    Nat.ofDigits_digits]

/-- A byte string without a leading zero is the one written for its
integer. -/
theorem bigEndian_fromBigEndian {x : Byte} {b : Bytes} (hx : x ≠ 0) :
    bigEndian (fromBigEndian (x :: b)) = x :: b := by
  have hrev : x :: b = (b.reverse ++ [x]).reverse := by simp
  have hdigits : Nat.digits 256 (fromBigEndian (x :: b)) =
      (b.reverse ++ [x]).map UInt8.toNat := by
    rw [hrev, fromBigEndian_reverse]
    refine Nat.digits_ofDigits 256 (by omega) _ (fun d hd => ?_) fun hne => ?_
    · obtain ⟨y, -, rfl⟩ := List.mem_map.1 hd
      exact y.toNat_lt
    · simp only [List.map_append, List.map_cons, List.map_nil,
        List.getLast_append_singleton]
      exact fun hzero => hx (UInt8.toNat_inj.1 hzero)
  rw [bigEndian, hdigits, List.map_map, hrev]
  congr 1
  refine (List.map_congr_left fun y _ => ?_).trans (List.map_id _)
  simp

/-- Without its leading zeros a byte string is what is written for its
integer. -/
theorem bigEndian_fromBigEndian_eq (b : Bytes) :
    bigEndian (fromBigEndian b) = b.dropWhile (· == 0) := by
  induction b with
  | nil => rfl
  | cons x b ih =>
      by_cases hx : x = 0
      · subst hx
        rw [List.dropWhile_cons_of_pos rfl, ← ih]
        rfl
      · rw [List.dropWhile_cons_of_neg (by simpa using hx),
          bigEndian_fromBigEndian hx]

/-- Leading zeros are all that is left out. -/
theorem replicate_append_dropWhile (b : Bytes) :
    List.replicate (b.length - (b.dropWhile (· == 0)).length) 0 ++
      b.dropWhile (· == 0) = b := by
  induction b with
  | nil => rfl
  | cons x b ih =>
      by_cases hx : x = 0
      · subst hx
        have hle := (List.dropWhile_suffix (· == 0) (l := b)).length_le
        rw [List.dropWhile_cons_of_pos rfl, List.length_cons,
          Nat.succ_sub hle, List.replicate_succ, List.cons_append, ih]
      · rw [List.dropWhile_cons_of_neg (by simpa using hx), Nat.sub_self]
        rfl

theorem bigEndian_ne_zero_cons {n : Nat} (hn : 0 < n) :
    ∃ x b, bigEndian n = x :: b ∧ x ≠ 0 := by
  have hne : Nat.digits 256 n ≠ [] := by
    rw [Nat.digits_ne_nil_iff_ne_zero]
    omega
  have hlast := Nat.getLast_digit_ne_zero 256 (show n ≠ 0 by omega)
  have hlt : (Nat.digits 256 n).getLast hne < 256 :=
    Nat.digits_lt_base (by omega) (List.getLast_mem hne)
  refine ⟨UInt8.ofNat ((Nat.digits 256 n).getLast hne),
    ((Nat.digits 256 n).dropLast.map UInt8.ofNat).reverse, ?_, ?_⟩
  · conv_lhs => rw [bigEndian, ← List.dropLast_append_getLast hne]
    simp
  · intro hzero
    have := congrArg UInt8.toNat hzero
    simp [UInt8.toNat_ofNat', Nat.mod_eq_of_lt hlt] at this
    exact hlast this

/-- A byte array of fixed size. -/
structure FixedHash (N : Nat) where
  data : Bytes
  size_data : data.length = N
deriving DecidableEq

abbrev H256 := FixedHash 32

abbrev H512 := FixedHash 64

theorem FixedHash.ext {N : Nat} {a b : FixedHash N} (h : a.data = b.data) :
    a = b := by
  cases a
  cases b
  simpa using h

/-- `resize`: cut off at the end, or filled up with zeros. -/
def resized (b : Bytes) (n : Nat) : Bytes :=
  b.take n ++ List.replicate (n - b.length) 0

theorem length_resized (b : Bytes) (n : Nat) : (resized b n).length = n := by
  rw [resized, List.length_append, List.length_take, List.length_replicate]
  omega

/-- A `vector_ref<byte const>`: `count` bytes of the memory `mem` from the
address `data` on, which is `none` for a null pointer. -/
structure BytesConstRef where
  mem : Bytes
  data : Option Nat
  count : Nat
deriving DecidableEq

namespace BytesConstRef

/-- The default constructed view. -/
def null : BytesConstRef := ⟨[], none, 0⟩

/-- The view of a whole byte string. -/
def ofBytes (b : Bytes) : BytesConstRef := ⟨b, some 0, b.length⟩

/-- The bytes in view. -/
def toBytes (v : BytesConstRef) : Bytes :=
  match v.data with
  | none => []
  | some p => (v.mem.drop p).take v.count

/-- The view `v[i]` of `operator[]`, within bounds only. -/
def get (v : BytesConstRef) (i : Nat) : Except Exception Byte :=
  if i < v.count then
    match v.toBytes[i]? with
    | some x => .ok x
    | none => .error .outOfRange
  else .error .outOfRange

/-- The first byte of a view that is not empty. -/
def head? (v : BytesConstRef) : Option Byte :=
  if v.count = 0 then none else v.toBytes.head?

/-- A shifted and shortened view; null if it goes out of bounds in any way. -/
def cropped (v : BytesConstRef) (start len : Nat) : BytesConstRef :=
  match v.data with
  | none => null
  | some p =>
      if start ≤ v.count ∧ len ≤ v.count ∧ start + len ≤ v.count then
        ⟨v.mem, some (p + start), if len = sizeMax then v.count - start else len⟩
      else null

/-- A shifted view that ends where the original ends. -/
def croppedFrom (v : BytesConstRef) (start : Nat) : BytesConstRef :=
  match v.data with
  | none => null
  | some p =>
      if start ≤ v.count then ⟨v.mem, some (p + start), v.count - start⟩
      else null

/-- `retarget(next().data(), count)`: the `count` bytes after the view. -/
def following (v : BytesConstRef) (count : Nat) : BytesConstRef :=
  ⟨v.mem, v.data.map (· + v.count), count⟩

/-- Views are compared by address and size. -/
def same (v w : BytesConstRef) : Bool := v.data == w.data && v.count == w.count

/-- The view of `len` bytes at the address `p`. -/
def window (mem : Bytes) (p len : Nat) : BytesConstRef := ⟨mem, some p, len⟩

/-- The view lies inside the memory it points into. -/
def Valid (v : BytesConstRef) : Prop :=
  match v.data with
  | none => v.count = 0
  | some p => p + v.count ≤ v.mem.length

theorem length_toBytes {v : BytesConstRef} (hv : v.Valid) :
    v.toBytes.length = v.count := by
  unfold Valid toBytes at *
  split at hv
  · simp [hv]
  · simp only [List.length_take, List.length_drop]
    omega

theorem get_eq {v : BytesConstRef} (hv : v.Valid) {i : Nat} {x : Byte}
    (hx : v.toBytes[i]? = some x) : v.get i = .ok x := by
  obtain ⟨hi, -⟩ := List.getElem?_eq_some_iff.1 hx
  rw [length_toBytes hv] at hi
  simp [get, hi, hx]

theorem head?_eq {v : BytesConstRef} (hv : v.Valid) :
    v.head? = v.toBytes.head? := by
  unfold head?
  split
  · rename_i hzero
    rw [List.eq_nil_of_length_eq_zero ((length_toBytes hv).trans hzero)]
    rfl
  · rfl

@[simp] theorem toBytes_ofBytes (b : Bytes) : (ofBytes b).toBytes = b := by
  simp [ofBytes, toBytes]

@[simp] theorem valid_ofBytes (b : Bytes) : (ofBytes b).Valid := by
  simp [ofBytes, Valid]

@[simp] theorem toBytes_null : null.toBytes = [] := rfl

@[simp] theorem count_null : null.count = 0 := rfl

@[simp] theorem valid_null : null.Valid := rfl

theorem cropped_of_le {v : BytesConstRef} {p : Nat} (hp : v.data = some p)
    {start len : Nat} (h : start + len ≤ v.count) (hlen : len ≠ sizeMax) :
    v.cropped start len = window v.mem (p + start) len := by
  have hbounds : start ≤ v.count ∧ len ≤ v.count ∧ start + len ≤ v.count := by
    omega
  rw [cropped, hp]
  simp only [hbounds, and_self, ↓reduceIte, hlen, window]

theorem toBytes_cropped {v : BytesConstRef} {p : Nat} (hp : v.data = some p)
    {start len : Nat} (h : start + len ≤ v.count) (hlen : len ≠ sizeMax) :
    (v.cropped start len).toBytes = (v.toBytes.drop start).take len := by
  rw [cropped_of_le hp h hlen]
  simp only [toBytes, window, hp, List.drop_take, List.drop_drop,
    List.take_take]
  congr 1
  omega

theorem croppedFrom_of_le {v : BytesConstRef} {p : Nat} (hp : v.data = some p)
    {start : Nat} (h : start ≤ v.count) :
    v.croppedFrom start = window v.mem (p + start) (v.count - start) := by
  rw [croppedFrom, hp]
  simp only [h, ↓reduceIte, window]

end BytesConstRef

end Web3Core
