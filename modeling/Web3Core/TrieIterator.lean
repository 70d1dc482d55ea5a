/-
`GenericTrieDB::iterator`.  An iterator keeps the way from the root to the
entry it is at, a node of the trie at each step; `operator++` and the seek of
`lower_bound` are two loops over this trail.  The source does not bound the
loops, here they have a fuel.
-/
import Web3Core.TrieDB

namespace Web3Core

namespace GenericTrieDB

/-- `deref`. -/
def deref (n : RLP) : DBProgram Bytes :=
  if n.isList then pure n.data.toBytes
  else do
    let h ← n.toHash 32 .strict
    node h

/-- `iterator::Node`: `key` is a hex-prefix encoding, `child` is 255 on
entering, 16 at the node itself, the number of a child, or 17 on exiting. -/
structure Node where
  rlp : Bytes
  key : Bytes
  child : Byte
deriving Repr, DecidableEq

/-- What `incrementChild` makes of `child`. -/
def childAfter (child : Byte) : Byte :=
  if child = 16 then 0 else if child = 15 then 17 else child + 1

def Node.incrementChild (b : Node) : Node :=
  { b with child := childAfter b.child }

/-- `iterator`.  The trail is given from its back to its front, and the
default iterator has none. -/
structure Iterator where
  trail : List Node := []
  that : Option GenericTrieDB := none
deriving DecidableEq

/-- `operator==`. -/
def Iterator.equals (it it' : Iterator) : Bool := it.trail == it'.trail

/-- `end()`. -/
def past : Iterator := {}

/-- `m_that->deref(n)`. -/
def derefIn (that : Option GenericTrieDB) (n : RLP) : DBProgram Bytes :=
  match that with
  | some _ => deref n
  | none => .throw .nullPointer

/-- `for (;; incrementChild())` up to a child that is not empty, or 17.  From
every byte it takes less than 256 rounds to get to 17. -/
def childLoop (rlp : RLP) : Nat → Byte → Except Exception Byte
  | 0, _ => .error .outOfFuel
  | fuel + 1, child =>
      if child = 17 then .ok child
      else do
        let r ← rlp.get child.toNat
        if r.isEmpty then childLoop rlp fuel (childAfter child) else .ok child

/-- The end of a round of both loops, which looks through the children of the
branch `b` at the back of the trail; `onwards` is the next round.  What is left
of the search key, `k`, is for the first child that is looked at only. -/
def children (that : Option GenericTrieDB) (rlp : RLP) (b : Node)
    (below : List Node) (k : NibbleSlice)
    (onwards : List Node → NibbleSlice → DBProgram Iterator) :
    DBProgram Iterator := do
  let itemCount ← rlp.itemCount
  check (rlp.isList && itemCount == 17)
  let child ← childLoop rlp 256 b.child
  if child = 17 then onwards below k.clear
  else do
    let back := { b with child }
    if child = 16 then pure ⟨back :: below, that⟩
    else do
      let r ← rlp.get child.toNat
      let s ← derefIn that r
      let key ← hexPrefixEncodeJoin (keyOfHexPrefix back.key) ⟨[child], 1⟩ false
      onwards (⟨s, key, 255⟩ :: back :: below)
        (if child = b.child then k else k.clear)

/-- The loop of `next()`. -/
def nextLoop (that : Option GenericTrieDB) :
    Nat → List Node → DBProgram Iterator
  | 0, _ => .throw .outOfFuel
  | _ + 1, [] => pure ⟨[], none⟩
  | fuel + 1, b :: below => do
      let rlp ← RLP.ofBytes b.rlp
      if b.child = 255 then
        if rlp.isEmpty then nextLoop that fuel below
        else do
          let ok ← isNode rlp
          if !ok then pure ⟨b :: below, none⟩
          else do
            let itemCount ← rlp.itemCount
            if itemCount = 2 then do
              let keyOfRLP ← keyOf rlp
              let key ← hexPrefixEncodeJoin (keyOfHexPrefix b.key) keyOfRLP
                false
              let leaf ← isLeaf rlp
              if leaf then pure ⟨{ b with key, child := 0 } :: below, that⟩
              else do
                let r ← rlp.get 1
                let s ← derefIn that r
                nextLoop that fuel ({ b with rlp := s, key } :: below)
            else
              children that rlp { b with child := 16 } below ⟨[], 0⟩
                fun trail _ => nextLoop that fuel trail
      else do
        let itemCount ← rlp.itemCount
        if !(rlp.isList && itemCount == 17) then nextLoop that fuel below
        else
          children that rlp b.incrementChild below ⟨[], 0⟩ fun trail _ =>
            nextLoop that fuel trail

/-- What a two-item node leaves of the search key, or `none` where the node is
to be skipped. -/
def passKey (k keyOfRLP : NibbleSlice) :
    Except Exception (Option NibbleSlice) := do
  let contains ← k.contains keyOfRLP
  let earlier ← andThen (!contains) (k.isEarlierThan keyOfRLP)
  if !contains && !earlier then .ok none
  else do
    let k' := if contains then k else k.clear
    .ok (some (k'.mid (min k'.size keyOfRLP.size)))

/-- The loop of `next(_key)`, `k` being what is left of the key. -/
def seekLoop (that : Option GenericTrieDB) :
    Nat → List Node → NibbleSlice → DBProgram Iterator
  | 0, _, _ => .throw .outOfFuel
  | _ + 1, [], _ => pure ⟨[], none⟩
  | fuel + 1, b :: below, k => do
      let rlp ← RLP.ofBytes b.rlp
      if b.child = 255 then
        if rlp.isEmpty then seekLoop that fuel below k.clear
        else do
          let ok ← isNode rlp
          if !ok then pure ⟨b :: below, none⟩
          else do
            let itemCount ← rlp.itemCount
            if itemCount = 2 then do
              let keyOfRLP ← keyOf rlp
              let rest ← passKey k keyOfRLP
              match rest with
              | none => seekLoop that fuel below k.clear
              | some k' => do
                  let key ← hexPrefixEncodeJoin (keyOfHexPrefix b.key) keyOfRLP
                    false
                  let leaf ← isLeaf rlp
                  if leaf then
                    if k'.size = 0 then
                      pure ⟨{ b with key, child := 0 } :: below, that⟩
                    else seekLoop that fuel below k'.clear
                  else do
                    let r ← rlp.get 1
                    let s ← derefIn that r
                    seekLoop that fuel ({ b with rlp := s, key } :: below) k'
            else if k.size ≠ 0 then do
              let i ← k.get 0
              children that rlp { b with child := i } below (k.mid 1)
                (seekLoop that fuel)
            else
              children that rlp { b with child := 16 } below k
                (seekLoop that fuel)
      else do
        let itemCount ← rlp.itemCount
        if !(rlp.isList && itemCount == 17) then
          seekLoop that fuel below k.clear
        else
          children that rlp b.incrementChild below k (seekLoop that fuel)

/-- The trail both constructors begin with; one null byte encodes the empty
key. -/
def rootTrail (t : GenericTrieDB) : DBProgram (List Node) := do
  let s ← node t.root
  pure [⟨s, [0], 255⟩]

/-- `begin()`. -/
def begin (t : GenericTrieDB) (fuel : Nat) : DBProgram Iterator := do
  let trail ← rootTrail t
  nextLoop (some t) fuel trail

/-- `lower_bound`. -/
def lowerBound (t : GenericTrieDB) (fuel : Nat) (key : Bytes) :
    DBProgram Iterator := do
  let trail ← rootTrail t
  seekLoop (some t) fuel trail ⟨key, 0⟩

namespace Iterator

/-- `operator++`. -/
def next (it : Iterator) (fuel : Nat) : DBProgram Iterator :=
  nextLoop it.that fuel it.trail

/-- `at()`. -/
def entry (it : Iterator) : Except Exception (Bytes × Bytes) :=
  match it.trail with
  | [] => .error .assertion
  | b :: _ => do
      check (b.key ≠ [])
      let x ← byteAt b.key 0
      check (x &&& 0x10 == 0)
      let rlp ← RLP.ofBytes b.rlp
      let itemCount ← rlp.itemCount
      let r ← rlp.get (if itemCount = 2 then 1 else 16)
      let value ← r.payload
      .ok (b.key.drop 1, value.toBytes)

/-- `for (; it != end(); ++it)`, with all entries on the way; `rounds` and
`fuel` bound the loops. -/
def collect (fuel : Nat) : Nat → Iterator → DBProgram (List (Bytes × Bytes))
  | 0, _ => .throw .outOfFuel
  | rounds + 1, it =>
      if it.equals past then pure []
      else do
        let e ← it.entry
        let it' ← it.next fuel
        let rest ← collect fuel rounds it'
        pure (e :: rest)

/-- `while (it != end() && (*it).first < k) ++it;` -/
def skipBelow (fuel : Nat) (k : Bytes) : Nat → Iterator → DBProgram Iterator
  | 0, _ => .throw .outOfFuel
  | rounds + 1, it =>
      if it.equals past then pure it
      else do
        let e ← it.entry
        if e.1 < k then do
          let it' ← it.next fuel
          skipBelow fuel k rounds it'
        else pure it

end Iterator

end GenericTrieDB

end Web3Core
