/-
`RangeMask.h`: sets of elements of a ground range, kept as the ranges that they
are made of.  A range is a pair of its first element and of the first element
after it; the ranges are in a map from the one to the other.
-/
import Web3Core.OrderedMap
import Web3Core.Bytes
import Mathlib.Order.Interval.Finset.Nat

namespace Web3Core

/-- `RangeMask<unsigned>`: the ground range and the ranges inside it. -/
structure RangeMask where
  all : Nat × Nat
  ranges : OrderedMap Nat Nat := {}

namespace RangeMask

/-- The complement of the ranges that follow, from `last` on. -/
def gaps (second : Nat) : List (Nat × Nat) → Nat → OrderedMap Nat Nat →
    OrderedMap Nat Nat
  | [], last, ret => if last ≠ second then ret.insert last second else ret
  | i :: rest, last, ret =>
      gaps second rest i.2 (if i.1 ≠ last then ret.insert last i.1 else ret)

/-- The complement relative to the ground range. -/
def inverted (m : RangeMask) : RangeMask where
  all := m.all
  ranges := gaps m.all.2 m.ranges.entries m.all.1 {}

/-- The loop of `lowest` over the ranges that follow; `_items` elements are still
to be taken.  Sums and differences of unsigned numbers wrap around. -/
def lowestFrom : List (Nat × Nat) → Nat → OrderedMap Nat Nat → OrderedMap Nat Nat
  | [], _, ret => ret
  | i :: rest, items, ret =>
      if items = 0 then ret
      else
        let second := min ((i.1 + items) % 2 ^ 32) i.2
        lowestFrom rest ((items + i.1 + 2 ^ 32 - second) % 2 ^ 32)
          (ret.insert i.1 second)

/-- A mask of the smallest elements. -/
def lowest (m : RangeMask) (items : Nat) : RangeMask where
  all := m.all
  ranges := lowestFrom m.ranges.entries items {}

/-- The loop that includes the range from `i` to `second`.  Every round but the
last goes to the end of a range. -/
def uniteFrom (second : Nat) : Nat → Nat → OrderedMap Nat Nat →
    Except Exception (OrderedMap Nat Nat)
  | 0, _, _ => .error .outOfFuel
  | fuel + 1, i, ranges =>
      if second ≤ i then .ok ranges
      else
        let rangeAfter := ranges.upperBound i
        match (ranges.beforeUpperBound i).filter fun it => i ≤ it.2 with
        | none =>
            -- `i` is before the first range or apart from the one before it.
            match rangeAfter with
            | none => .ok (ranges.insert i second)
            | some after =>
                if after.1 > second then .ok (ranges.insert i second)
                else if after.1 = i then
                  uniteFrom second fuel after.2 ranges
                else
                  uniteFrom second fuel after.2
                    ((ranges.insert i after.2).erase after.1)
        | some it =>
            if it.2 = i then
              match rangeAfter with
              | none => .ok (ranges.insert it.1 second)
              | some after =>
                  if after.1 > second then .ok (ranges.insert it.1 second)
                  else
                    uniteFrom second fuel after.2
                      ((ranges.insert it.1 after.2).erase after.1)
            else uniteFrom second fuel it.2 ranges

/-- `unionWith` of a range. -/
def unionRange (m : RangeMask) (range : Nat × Nat) :
    Except Exception RangeMask := do
  let ranges ← uniteFrom range.2 (range.2 - range.1 + 1) range.1 m.ranges
  .ok { m with ranges }

/-- `unionWith` of a single element. -/
def unionElement (m : RangeMask) (i : Nat) : Except Exception RangeMask :=
  m.unionRange (i, (i + 1) % 2 ^ 32)

/-- `unionWith` of a mask. -/
def unionWith (m other : RangeMask) : Except Exception RangeMask :=
  other.ranges.entries.foldlM unionRange
    { m with all := (min other.all.1 m.all.1, max other.all.2 m.all.2) }

/-- `operator-`: the complement of the union with the complement. -/
def minus (m other : RangeMask) : Except Exception RangeMask := do
  let united ← m.inverted.unionWith other
  .ok united.inverted

def clear (m : RangeMask) : RangeMask := { m with ranges := {} }

def contains (m : RangeMask) (i : Nat) : Bool :=
  match m.ranges.beforeUpperBound i with
  | none => false
  | some it => it.2 > i

def empty (m : RangeMask) : Bool := m.ranges.entries.isEmpty

def full (m : RangeMask) : Bool :=
  m.all.1 = m.all.2 ||
    match m.ranges.entries with
    | [range] => range.1 = m.all.1 && range.2 = m.all.2
    | _ => false

/-- The smallest element larger than `t`, or the end of the ground range. -/
def next (m : RangeMask) (t : Nat) : Nat :=
  let t := (t + 1) % 2 ^ 32
  let after := m.ranges.upperBound t
  match (m.ranges.beforeUpperBound t).filter fun it => t < it.2 with
  | some _ => t
  | none =>
      match after with
      | none => m.all.2
      | some after => after.1

/-- The number of elements. -/
def size (m : RangeMask) : Nat :=
  m.ranges.entries.foldl (fun c r => c + (r.2 - r.1)) 0

def firstOut (m : RangeMask) : Nat :=
  match m.ranges.lookup m.all.1 with
  | none => m.all.1
  | some second => second

def lastIn (m : RangeMask) : Nat :=
  match m.ranges.entries.getLast? with
  | none => m.all.1
  | some range => (range.2 + (2 ^ 32 - 1)) % 2 ^ 32

/-- Where an iteration begins. -/
def begin (m : RangeMask) : Nat :=
  match m.ranges.entries with
  | [] => m.all.2
  | range :: _ => range.1

/-- The elements that an iteration goes through from one on. -/
def iterate (m : RangeMask) : Nat → Nat → Except Exception (List Nat)
  | 0, _ => .error .outOfFuel
  | fuel + 1, value =>
      if value = m.all.2 then .ok []
      else do
        let rest ← iterate m fuel (m.next value)
        .ok (value :: rest)

/-- The elements from `begin` to `end`. -/
def toList (m : RangeMask) : Except Exception (List Nat) :=
  m.iterate (m.all.2 - m.begin + 1) m.begin

end RangeMask

end Web3Core
