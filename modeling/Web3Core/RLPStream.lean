/-
The RLP writer: `RLPStream` of `RLP.h` and `RLP.cpp`.  A list is opened with
its number of items; its header is put in front of what was written since once
the last item is there, which may complete the list around it in turn.
-/
import Web3Core.RLP

namespace Web3Core

/-- The output and the open lists, innermost first, each with the number of
items still to come and the position where it starts. -/
structure RLPStream where
  buffer : Bytes := []
  listStack : List (Nat × Nat) := []
deriving Repr, DecidableEq

namespace RLPStream

/-- Put a header in front of what was written from position `p` on. -/
def insertAt (buffer : Bytes) (p : Nat) (header : Bytes) : Bytes :=
  buffer.take p ++ header ++ buffer.drop p

/-- The loop of `noteAppended`: every list that is completed is a single item
of the list around it. -/
def closeLists : List (Nat × Nat) → Nat → Bytes → Except Exception RLPStream
  | [], _, buffer => .ok ⟨buffer, []⟩
  | (remaining, p) :: rest, itemCount, buffer =>
      if remaining < itemCount then
        .error (.rlpException "itemCount too large")
      else if remaining - itemCount ≠ 0 then
        .ok ⟨buffer, (remaining - itemCount, p) :: rest⟩
      else
        let s := buffer.length - p
        let brs := bytesRequired s
        if s < rlpListImmLenCount then
          closeLists rest 1
            (insertAt buffer p [UInt8.ofNat (rlpListStart + s)])
        else if rlpListIndLenZero + brs ≤ 0xff then
          closeLists rest 1 (insertAt buffer p
            (UInt8.ofNat (rlpListIndLenZero + brs) :: bigEndian s))
        else .error (.rlpException "itemCount too large for RLP")

def noteAppended (s : RLPStream) (itemCount : Nat) :
    Except Exception RLPStream :=
  if itemCount = 0 then .ok s
  else closeLists s.listStack itemCount s.buffer

/-- `appendRaw`: encoded bytes that count for `itemCount` items. -/
def appendRaw (s : RLPStream) (b : Bytes) (itemCount : Nat) :
    Except Exception RLPStream :=
  noteAppended { s with buffer := s.buffer ++ b } itemCount

def push (s : RLPStream) (b : Bytes) : RLPStream :=
  { s with buffer := s.buffer ++ b }

/-- The type byte of an item with its length bytes. -/
def pushCount (s : RLPStream) (count base : Nat) :
    Except Exception RLPStream :=
  let br := bytesRequired count
  if br + base > 0xff then
    .error (.rlpException "Count too large for RLP")
  else .ok (s.push (UInt8.ofNat (br + base) :: bigEndian count))

/-- `appendList` of encoded items. -/
def appendListOf (s : RLPStream) (b : Bytes) : Except Exception RLPStream := do
  let s' ←
    if b.length < rlpListImmLenCount then
      .ok (s.push [UInt8.ofNat (b.length + rlpListStart)])
    else s.pushCount b.length rlpListIndLenZero
  s'.appendRaw b 1

/-- `appendList` of a number of items to come. -/
def appendList (s : RLPStream) (items : Nat) : Except Exception RLPStream :=
  if items ≠ 0 then
    .ok { s with listStack := (items, s.buffer.length) :: s.listStack }
  else s.appendListOf []

/-- `append` of a byte string, without its leading zeros if `compact`. -/
def append (s : RLPStream) (b : Bytes) (compact : Bool := false) :
    Except Exception RLPStream := do
  let d := if compact then b.dropWhile (· == 0) else b
  let s' ←
    if d.length = 1 ∧ (d.headD 0).toNat < rlpDataImmLenStart then
      .ok (s.push d)
    else do
      let s' ←
        if d.length < rlpDataImmLenCount then
          .ok (s.push [UInt8.ofNat (d.length + rlpDataImmLenStart)])
        else s.pushCount d.length rlpDataIndLenZero
      s'.appendRaw d 0
  s'.noteAppended 1

/-- `pushInt`: the output grows by `br` bytes, and the bytes of the integer are
written from its end backwards, however many they are. -/
def pushInt (s : RLPStream) (n br : Nat) : Except Exception RLPStream :=
  let b := s.buffer ++ List.replicate br 0
  if b.length < bytesRequired n then .error .outOfRange
  else
    .ok { s with buffer := b.take (b.length - bytesRequired n) ++ bigEndian n }

/-- `append` of an integer, which must not be negative.  Its bytes are counted
by an `unsigned`. -/
def appendInt (s : RLPStream) (n : Nat) : Except Exception RLPStream := do
  let s' ←
    if n = 0 then .ok (s.push [UInt8.ofNat rlpDataImmLenStart])
    else if n < rlpDataImmLenStart then .ok (s.push [UInt8.ofNat n])
    else do
      let br := bytesRequired n % 2 ^ 32
      let s' ←
        if br < rlpDataImmLenCount then
          .ok (s.push [UInt8.ofNat (br + rlpDataImmLenStart)])
        else
          let brbr := bytesRequired br
          if rlpDataIndLenZero + brbr > 0xff then
            .error (.rlpException "Number too large for RLP")
          else (s.push [UInt8.ofNat (rlpDataIndLenZero + brbr)]).pushInt br brbr
      s'.pushInt n br
  s'.noteAppended 1

/-- `append` of a fixed hash, without its leading zeros if `compact`; nothing
is appended for zero if `allOrNothing`. -/
def appendHash {N : Nat} (s : RLPStream) (h : FixedHash N)
    (compact allOrNothing : Bool := false) : Except Exception RLPStream :=
  if allOrNothing && h.data.all (· == 0) then s.append []
  else s.append h.data compact

theorem appendHash_eq {N : Nat} (s : RLPStream) (h : FixedHash N) :
    s.appendHash h = s.append h.data := rfl

theorem pushInt_bytesRequired (s : RLPStream) (n : Nat) :
    s.pushInt n (bytesRequired n) = .ok (s.push (bigEndian n)) := by
  have hlen : (s.buffer ++ List.replicate (bytesRequired n) (0 : Byte)).length =
      s.buffer.length + bytesRequired n := by
    rw [List.length_append, List.length_replicate]
  rw [pushInt]
  simp only [hlen]
  rw [if_neg (by omega), Nat.add_sub_cancel, List.take_left]
  rfl

/-- `append` of an encoded item. -/
def appendItem (s : RLPStream) (r : RLP) : Except Exception RLPStream :=
  s.appendRaw r.data.toBytes 1

/-- `RLPStream(items)`. -/
def ofList (items : Nat) : Except Exception RLPStream :=
  appendList {} items

def out (s : RLPStream) : Except Exception Bytes :=
  if s.listStack ≠ [] then
    .error (.rlpException "listStack is not empty")
  else .ok s.buffer

end RLPStream

/-- `rlp`: the encoding of a single item. -/
def rlp (b : Bytes) : Except Exception Bytes := do
  let s ← RLPStream.append {} b
  s.out

/-- `rlpList` of two items, each given by how it is appended. -/
def rlpList (first second : RLPStream → Except Exception RLPStream) :
    Except Exception Bytes := do
  let s ← RLPStream.ofList 2
  let s' ← first s
  let s'' ← second s'
  s''.out

/-- The empty string in RLP format. -/
def rlpNull : Bytes := [UInt8.ofNat rlpDataImmLenStart]

end Web3Core
