/-
`TrieHash.h` and `TrieHash.cpp`: the root of a whole map, built in one go.  The
map is sorted by the nibbles of its keys, and a node is made of a range of it
whose keys share their first `preLen` nibbles.  The recursion is bounded by a
fuel, the number of nibbles of the longest key.
-/
import Web3Core.OrderedMap
import Web3Core.TrieCommon

namespace Web3Core

abbrev BytesMap := OrderedMap Bytes Bytes

abbrev HexMap := OrderedMap Bytes Bytes

/-- A range of entries, from one iterator to another. -/
abbrev HexRange := List (Bytes × Bytes)

/-- The nibbles of a byte string, each in a byte. -/
def asNibbles (s : Bytes) : Bytes := s.flatMap fun i => [i / 16, i % 16]

/-- The loop over the nibbles of two keys from `shared` on. -/
def sharedLoop (first key : Bytes) (x : Nat) : Nat → Nat → Except Exception Nat
  | 0, shared => .ok shared
  | rounds + 1, shared =>
      if shared < x then do
        let a ← byteAt first shared
        let b ← byteAt key shared
        if a = b then sharedLoop first key x rounds (shared + 1) else .ok shared
      else .ok shared

/-- The loop over the entries behind the first: the number of nibbles that all
of them share with it. -/
def sharedPreLoop (first : Bytes) (preLen : Nat) :
    HexRange → Nat → Except Exception Nat
  | [], sharedPre => .ok sharedPre
  | i :: is, sharedPre =>
      if sharedPre = 0 then .ok sharedPre
      else do
        let x := min sharedPre
          (min (toUnsigned first.length) (toUnsigned i.1.length))
        let shared ← sharedLoop first i.1 x (x - preLen) preLen
        sharedPreLoop first preLen is (min shared sharedPre)

/-- The entries at the beginning of a range that go on with the nibble `i`, and
those behind. -/
def takeSlot (preLen : Nat) (i : Byte) :
    HexRange → Except Exception (HexRange × HexRange)
  | [] => .ok ([], [])
  | n :: ns => do
      let x ← byteAt n.1 preLen
      if x = i then do
        let r ← takeSlot preLen i ns
        .ok (n :: r.1, r.2)
      else .ok ([], n :: ns)

section

variable (sha3 : Bytes → H256)

/-- `hash256aux`, given `hash256rlp`. -/
def hash256aux
    (hash256rlp : HexRange → Nat → RLPStream → Except Exception RLPStream)
    (range : HexRange) (preLen : Nat) (rlp : RLPStream) :
    Except Exception RLPStream := do
  let s ← hash256rlp range preLen {}
  let b ← s.out
  if b.length < 32 then rlp.appendRaw b 1 else rlp.appendHash (sha3 b)

/-- A round of the loop over the 16 slots of a branch. -/
def hash256slot
    (hash256rlp : HexRange → Nat → RLPStream → Except Exception RLPStream)
    (preLen : Nat) (r : HexRange × RLPStream) (i : Nat) :
    Except Exception (HexRange × RLPStream) := do
  let n ← takeSlot preLen (UInt8.ofNat i) r.1
  let rlp ← (
    if n.1 = [] then r.2.append []
    else hash256aux sha3 hash256rlp n.1 (toUnsigned (preLen + 1)) r.2 :
    Except Exception RLPStream)
  .ok (n.2, rlp)

def hash256rlp :
    Nat → HexRange → Nat → RLPStream → Except Exception RLPStream
  | 0, _, _, _ => .error .outOfFuel
  | _ + 1, [], _, rlp => rlp.append []
  | _ + 1, [e], preLen, rlp => do
      let rlp ← rlp.appendList 2
      let key ← hexPrefixEncode e.1 true (toInt preLen)
      let rlp ← rlp.append key
      rlp.append e.2
  | fuel + 1, e :: e' :: es, preLen, rlp => do
      let sharedPre ← sharedPreLoop e.1 preLen (e' :: es) (2 ^ 32 - 1)
      if sharedPre > preLen then do
        let rlp ← rlp.appendList 2
        let key ← hexPrefixEncode e.1 false (toInt preLen) (toInt sharedPre)
        let rlp ← rlp.append key
        hash256aux sha3 (hash256rlp fuel) (e :: e' :: es) sharedPre rlp
      else do
        let rlp ← rlp.appendList 17
        let b := if preLen = e.1.length then e' :: es else e :: e' :: es
        let r ← (List.range 16).foldlM
          (hash256slot sha3 (hash256rlp fuel) preLen) (b, rlp)
        if preLen = e.1.length then r.2.append e.2 else r.2.append []

/-- The entries of a map by the nibbles of their keys. -/
def hexMapOf (s : BytesMap) : HexMap :=
  s.entries.reverse.foldl (fun hexMap i => hexMap.insert (asNibbles i.1) i.2) {}

/-- The calls it takes: the keys have no more nibbles. -/
def hexFuel (s : BytesMap) : Nat :=
  s.entries.foldr (fun e n => max (e.1.length * 2 + 2) n) 0

def rlp256 (s : BytesMap) : Except Exception Bytes :=
  if s.entries = [] then rlp []
  else do
    let rlp ← hash256rlp sha3 (hexFuel s) (hexMapOf s).entries 0 {}
    rlp.out

def hash256 (s : BytesMap) : Except Exception H256 := do
  let b ← rlp256 sha3 s
  .ok (sha3 b)

/-- `rlp` of an unsigned integer. -/
def rlpUnsigned (n : Nat) : Except Exception Bytes := do
  let s ← RLPStream.appendInt {} n
  s.out

/-- The root of a list: its items by the encodings of their indices. -/
def orderedTrieRoot (data : List Bytes) : Except Exception H256 := do
  let r ← data.foldlM (fun (r : BytesMap × Nat) i => do
    let key ← rlpUnsigned r.2
    .ok (r.1.insert key i, toUnsigned (r.2 + 1))) ({}, 0)
  hash256 sha3 r.1

end

end Web3Core
