/-
The RLP reader: `RLP.h` and the reading half of `RLP.cpp`.  An `RLP` is a view
of encoded bytes with a cache for indexed access; nothing is decoded before
it is asked for.
-/
import Web3Core.Bytes

namespace Web3Core

def rlpMaxLengthBytes : Nat := 8
def rlpDataImmLenStart : Nat := 0x80
def rlpListStart : Nat := 0xc0
def rlpDataImmLenCount : Nat :=
  rlpListStart - rlpDataImmLenStart - rlpMaxLengthBytes
def rlpDataIndLenZero : Nat := rlpDataImmLenStart + rlpDataImmLenCount - 1
def rlpListImmLenCount : Nat := 256 - rlpListStart - rlpMaxLengthBytes
def rlpListIndLenZero : Nat := rlpListStart + rlpListImmLenCount - 1

@[simp] theorem rlpMaxLengthBytes_eq : rlpMaxLengthBytes = 8 := rfl

@[simp] theorem rlpDataImmLenStart_eq : rlpDataImmLenStart = 0x80 := rfl

@[simp] theorem rlpListStart_eq : rlpListStart = 0xc0 := rfl

@[simp] theorem rlpDataImmLenCount_eq : rlpDataImmLenCount = 56 := rfl

@[simp] theorem rlpDataIndLenZero_eq : rlpDataIndLenZero = 0xb7 := rfl

@[simp] theorem rlpListImmLenCount_eq : rlpListImmLenCount = 56 := rfl

@[simp] theorem rlpListIndLenZero_eq : rlpListIndLenZero = 0xf7 := rfl

/-- The flags of a conversion. -/
structure Strictness where
  allowNonCanon : Bool := false
  throwOnFail : Bool := false
  failIfTooBig : Bool := false
  failIfTooSmall : Bool := false
deriving Repr, DecidableEq

namespace Strictness

def strict : Strictness := { throwOnFail := true, failIfTooBig := true }

def veryStrict : Strictness :=
  { throwOnFail := true, failIfTooBig := true, failIfTooSmall := true }

def laissezFaire : Strictness := { allowNonCanon := true }

/-- `ThrowOnFail | FailIfTooSmall`. -/
def throwIfTooSmall : Strictness :=
  { throwOnFail := true, failIfTooSmall := true }

end Strictness

/-- A view of an encoded item.  The last three fields are the cache of
`operator[]`. -/
structure RLP where
  data : BytesConstRef
  lastIndex : Nat := sizeMax
  lastEnd : Nat := 0
  lastItem : BytesConstRef := .null
deriving DecidableEq

namespace RLP

/-- The default constructed item. -/
def null : RLP := { data := .null }

def isNull (r : RLP) : Bool := r.data.count == 0

/-- The first byte of an item that is not null satisfies `p`. -/
def headSatisfies (r : RLP) (p : Nat → Bool) : Bool :=
  match r.data.head? with
  | none => false
  | some n => p n.toNat

def isEmpty (r : RLP) : Bool :=
  r.headSatisfies fun n => n == rlpDataImmLenStart || n == rlpListStart

def isData (r : RLP) : Bool := r.headSatisfies fun n => n < rlpListStart

def isList (r : RLP) : Bool := r.headSatisfies fun n => rlpListStart ≤ n

def isSingleByte (r : RLP) : Bool :=
  r.headSatisfies fun n => n < rlpDataImmLenStart

/-- Throws if a single byte is encoded in two bytes. -/
def requireGood (r : RLP) : Except Exception Unit :=
  match r.data.head? with
  | none => .error .badRLP
  | some n =>
      if n.toNat ≠ rlpDataImmLenStart + 1 then .ok ()
      else if r.data.count < 2 then .error .badRLP
      else do
        let x ← r.data.get 1
        if x.toNat < rlpDataImmLenStart then .error .badRLP else .ok ()

/-- The loop over the length bytes. -/
def readLength (r : RLP) (lengthSize : Nat) : Except Exception Nat :=
  (List.range lengthSize).foldlM (fun ret i => do
    let x ← r.data.get (i + 1)
    .ok (ret * 256 + x.toNat)) 0

/-- The length of an item with `lengthSize` length bytes.  The branches of the
source for data and for lists differ in the numbers only; the limit at the end
lets `payloadOffset` be added without overflow. -/
def indirectLength (r : RLP) (lengthSize least : Nat) :
    Except Exception Nat :=
  if r.data.count ≤ lengthSize then .error .badRLP
  else do
    let first ← r.data.get 1
    if first = 0 then .error .badRLP
    else if lengthSize > 8 then .error .undersizeRLP
    else do
      let ret ← readLength r lengthSize
      if ret < least then .error .badRLP
      else if ret ≥ sizeMax - 0x100 then .error .undersizeRLP
      else .ok ret

/-- The size of the payload, as given by the encoding. -/
def length (r : RLP) : Except Exception Nat :=
  match r.data.head? with
  | none => .ok 0
  | some n => do
      r.requireGood
      if n.toNat < rlpDataImmLenStart then .ok 1
      else if n.toNat ≤ rlpDataIndLenZero then
        .ok (n.toNat - rlpDataImmLenStart)
      else if n.toNat < rlpListStart then
        r.indirectLength (n.toNat - rlpDataIndLenZero)
          (rlpListStart - rlpDataImmLenStart - rlpMaxLengthBytes)
      else if n.toNat ≤ rlpListIndLenZero then .ok (n.toNat - rlpListStart)
      else
        r.indirectLength (n.toNat - rlpListIndLenZero)
          (0x100 - rlpListStart - rlpMaxLengthBytes)

/-- The number of bytes used to encode the length. -/
def lengthSize (r : RLP) : Nat :=
  match r.data.head? with
  | none => 0
  | some n =>
      if r.isData && n.toNat > rlpDataIndLenZero then
        n.toNat - rlpDataIndLenZero
      else if r.isList && n.toNat > rlpListIndLenZero then
        n.toNat - rlpListIndLenZero
      else 0

def payloadOffset (r : RLP) : Nat :=
  if r.isSingleByte then 0 else 1 + r.lengthSize

def payload (r : RLP) : Except Exception BytesConstRef := do
  let l ← r.length
  if l > r.data.count then .error .badRLP
  else .ok (r.data.cropped r.payloadOffset l)

/-- The size of the item as given by the encoding. -/
def actualSize (r : RLP) : Except Exception Nat :=
  if r.isNull then .ok 0
  else if r.isSingleByte then .ok 1
  else if r.isData || r.isList then do
    let l ← r.length
    .ok (r.payloadOffset + l)
  else .ok 0

/-- The check of the constructor that the view is not too big. -/
def refuseTooBig (d : BytesConstRef) (s : Strictness) :
    Except Exception BytesConstRef :=
  if s.failIfTooBig then do
    let size ← RLP.actualSize { data := d }
    if size < d.count then
      if s.throwOnFail then .error .oversizeRLP else .ok .null
    else .ok d
  else .ok d

/-- The check of the constructor that the view, of `count` bytes to begin
with, is not too small. -/
def refuseTooSmall (d : BytesConstRef) (count : Nat) (s : Strictness) :
    Except Exception BytesConstRef :=
  if s.failIfTooSmall then do
    let size ← RLP.actualSize { data := d }
    if size > count then
      if s.throwOnFail then .error .undersizeRLP else .ok .null
    else .ok d
  else .ok d

/-- The constructor from a view. -/
def ofRef (d : BytesConstRef) (s : Strictness) : Except Exception RLP := do
  let d' ← refuseTooBig d s
  let d'' ← refuseTooSmall d' d.count s
  .ok { data := d'' }

/-- The constructor from a byte string or a `std::string`, very strict. -/
def ofBytes (b : Bytes) : Except Exception RLP :=
  ofRef (.ofBytes b) .veryStrict

/-- The size encoded at the beginning of the view. -/
def sizeAsEncoded (d : BytesConstRef) : Except Exception Nat := do
  let r ← ofRef d .throwIfTooSmall
  r.actualSize

/-- The bytes `[p.data, p.data + len)`. -/
def readBytes (p : BytesConstRef) (len : Nat) : Except Exception Bytes :=
  if len ≤ p.count then .ok (p.toBytes.take len) else .error .outOfRange

def toBytes (r : RLP) : Except Exception Bytes :=
  if !r.isData then .ok []
  else do
    let p ← r.payload
    let l ← r.length
    readBytes p l

def toString (r : RLP) : Except Exception Bytes :=
  if !r.isData then .ok []
  else do
    let p ← r.payload
    let l ← r.length
    .ok (p.cropped 0 l).toBytes

/-- The `N` bytes with the given ones at the right end. -/
def alignRight (N : Nat) (b : Bytes) : FixedHash N where
  data := List.replicate (N - min N b.length) 0 ++ b.take N
  size_data := by
    rw [List.length_append, List.length_replicate, List.length_take]
    omega

/-- The conversion to a fixed hash. -/
def toHash (N : Nat) (r : RLP) (flags : Strictness) :
    Except Exception (FixedHash N) := do
  r.requireGood
  let p ← r.payload
  let l := p.count
  if !r.isData || (l > N && flags.failIfTooBig) ||
      (l < N && flags.failIfTooSmall) then
    if flags.throwOnFail then .error .badCast else .ok (alignRight N [])
  else .ok (alignRight N p.toBytes)

/-- Whether the item is the encoding of an integer. -/
def isInt (r : RLP) : Except Exception Bool :=
  match r.data.head? with
  | none => .ok false
  | some n => do
      r.requireGood
      if n.toNat < rlpDataImmLenStart then .ok (n != 0)
      else if n.toNat = rlpDataImmLenStart then .ok true
      else if n.toNat ≤ rlpDataIndLenZero then
        if r.data.count ≤ 1 then .error .badRLP
        else do
          let x ← r.data.get 1
          .ok (x != 0)
      else if n.toNat < rlpListStart then
        if r.data.count ≤ 1 + n.toNat - rlpDataIndLenZero then .error .badRLP
        else do
          let x ← r.data.get (1 + n.toNat - rlpDataIndLenZero)
          .ok (x != 0)
      else .ok false

/-- The conversion to an unsigned integer of `size` bytes. -/
def toInt (r : RLP) (size : Nat) (flags : Strictness) :
    Except Exception Nat := do
  r.requireGood
  let int ← r.isInt
  if (!int && !flags.allowNonCanon) || r.isList || r.isNull then
    if flags.throwOnFail then .error .badCast else .ok 0
  else do
    let p ← r.payload
    if p.count > size && flags.failIfTooBig then
      if flags.throwOnFail then .error .badCast else .ok 0
    else .ok (fromBigEndian p.toBytes % 256 ^ size)

/-- An iterator over the items of a list. -/
structure Iterator where
  remaining : Nat
  currentItem : BytesConstRef
deriving DecidableEq

namespace Iterator

/-- `iterator(parent, true)`. -/
def start (parent : RLP) : Except Exception Iterator :=
  if parent.isList then do
    let pl ← parent.payload
    let size ← sizeAsEncoded pl
    let item := pl.cropped 0 size
    .ok ⟨pl.count - item.count, item⟩
  else .ok ⟨0, parent.data.croppedFrom parent.data.count⟩

/-- `iterator(parent, false)`. -/
def finish (parent : RLP) : Iterator :=
  ⟨0, parent.data.croppedFrom parent.data.count⟩

/-- `operator++`. -/
def next (it : Iterator) : Except Exception Iterator :=
  if it.remaining ≠ 0 then do
    let rest := it.currentItem.following it.remaining
    let size ← sizeAsEncoded rest
    let item := rest.cropped 0 size
    .ok ⟨it.remaining - min it.remaining item.count, item⟩
  else .ok ⟨0, it.currentItem.following 0⟩

/-- `operator*`. -/
def item (it : Iterator) : Except Exception RLP :=
  ofRef it.currentItem .veryStrict

end Iterator

/-- The loop of `toList`; `fuel` bounds its rounds. -/
def collect : Nat → Iterator → Iterator → Except Exception (List RLP)
  | 0, _, _ => .error .outOfFuel
  | fuel + 1, it, last =>
      if it.currentItem.same last.currentItem then .ok []
      else do
        let item ← it.item
        let it' ← it.next
        let rest ← collect fuel it' last
        .ok (item :: rest)

/-- The items of a list.  A round that does not end the loop takes at least
one byte off the payload. -/
def toList (r : RLP) : Except Exception (List RLP) :=
  if !r.isList then .ok []
  else do
    let it ← Iterator.start r
    collect (r.data.count + 1) it (Iterator.finish r)

/-- The loop of `items`. -/
def countItems : Nat → BytesConstRef → Except Exception Nat
  | 0, _ => .error .outOfFuel
  | fuel + 1, d =>
      if d.count = 0 then .ok 0
      else do
        let size ← sizeAsEncoded d
        let n ← countItems fuel (d.croppedFrom size)
        .ok (n + 1)

def items (r : RLP) : Except Exception Nat :=
  if r.isList then do
    let d ← r.payload
    countItems (d.count + 1) d
  else .ok 0

def itemCount (r : RLP) : Except Exception Nat :=
  if r.isList then r.items else .ok 0

/-- The first part of `operator[]`: go back to the first item if the index
lies before the cached one.  The cache keeps what was assigned before an
exception. -/
def rewind (r : RLP) (i : Nat) : Except Exception Unit × RLP :=
  if i < r.lastIndex then
    match r.payload with
    | .error e => (.error e, r)
    | .ok p =>
        match sizeAsEncoded p with
        | .error e => (.error e, r)
        | .ok size =>
            (.ok (), { r with lastEnd := size, lastItem := p.cropped 0 size,
                              lastIndex := 0 })
  else (.ok (), r)

/-- One round of the loop of `operator[]`. -/
def advance (r : RLP) : Except Exception Unit × RLP :=
  match r.payload with
  | .error e => (.error e, r)
  | .ok p =>
      let rest := p.croppedFrom r.lastEnd
      match sizeAsEncoded rest with
      | .error e => (.error e, { r with lastItem := rest })
      | .ok size =>
          let item := rest.cropped 0 size
          (.ok (), { r with lastItem := item,
                            lastEnd := r.lastEnd + item.count,
                            lastIndex := r.lastIndex + 1 })

/-- The loop of `operator[]`; it takes at most `rounds` rounds. -/
def advanceTo : Nat → Nat → RLP → Except Exception Unit × RLP
  | 0, _, r => (.ok (), r)
  | rounds + 1, i, r =>
      if r.lastIndex < i ∧ r.lastItem.count ≠ 0 then
        match advance r with
        | (.error e, r') => (.error e, r')
        | (.ok (), r') => advanceTo rounds i r'
      else (.ok (), r)

/-- `operator[]`: the outcome and the object with its cache updated. -/
def subscript (r : RLP) (i : Nat) : Except Exception RLP × RLP :=
  match rewind r i with
  | (.error e, r') => (.error e, r')
  | (.ok (), r') =>
      match advanceTo (i - r'.lastIndex) i r' with
      | (.error e, r'') => (.error e, r'')
      | (.ok (), r'') => (ofRef r''.lastItem .throwIfTooSmall, r'')

/-- `operator[]` for its outcome. -/
def get (r : RLP) (i : Nat) : Except Exception RLP := (r.subscript i).1

/-- Calls of `operator[]` on one object, one after the other. -/
def subscripts (r : RLP) : List Nat → List (Except Exception RLP)
  | [] => []
  | i :: indices => (r.subscript i).1 :: subscripts (r.subscript i).2 indices

end RLP

end Web3Core
