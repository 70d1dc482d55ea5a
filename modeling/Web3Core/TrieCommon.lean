/-
`TrieCommon.h` and `TrieCommon.cpp`: nibble views of byte strings, the
encodings of their hex prefix, and the accessors of two-item nodes and
branches.
-/
import Web3Core.Nibbles
import Web3Core.PatriciaInsert
import Web3Core.RLPItems

namespace Web3Core

/-- `v[i]`, within bounds only. -/
def byteAt (v : Bytes) (i : Nat) : Except Exception Byte :=
  match v[i]? with
  | some x => .ok x
  | none => .error .outOfRange

def nibble (data : Bytes) (i : Nat) : Except Exception Byte := do
  let x ← byteAt data (i / 2)
  if i % 2 = 1 then .ok (x &&& 15) else .ok (x >>> 4)

/-- The loop of `sharedNibbles`. -/
def sharedNibblesLoop (first second : Bytes) :
    Nat → Nat → Nat → Except Exception Nat
  | 0, _, _ => .ok 0
  | rounds + 1, beginFirst, beginSecond => do
      let a ← nibble first beginFirst
      let b ← nibble second beginSecond
      if a = b then do
        let ret ← sharedNibblesLoop first second rounds (beginFirst + 1)
          (beginSecond + 1)
        .ok (ret + 1)
      else .ok 0

/-- The length of the longest common prefix of two ranges of nibbles. -/
def sharedNibbles (first : Bytes) (beginFirst endFirst : Nat) (second : Bytes)
    (beginSecond endSecond : Nat) : Except Exception Nat :=
  sharedNibblesLoop first second
    (min (endFirst - beginFirst) (endSecond - beginSecond)) beginFirst
    beginSecond

/-- A nibble-based view of a byte string. -/
structure NibbleSlice where
  data : Bytes
  offset : Nat := 0
deriving Repr, DecidableEq

namespace NibbleSlice

/-- `operator[]`. -/
def get (s : NibbleSlice) (index : Nat) : Except Exception Byte :=
  nibble s.data (toUnsigned (s.offset + index))

def size (s : NibbleSlice) : Nat :=
  toUnsigned (s.data.length * 2 - s.offset)

def mid (s : NibbleSlice) (index : Nat) : NibbleSlice :=
  ⟨s.data, toUnsigned (s.offset + index)⟩

/-- The number of shared nibbles at the beginning of both. -/
def shared (s k : NibbleSlice) : Except Exception Nat :=
  sharedNibbles s.data s.offset (toUnsigned (s.offset + s.size)) k.data k.offset
    (toUnsigned (k.offset + k.size))

/-- Whether `k` is a prefix of `s`. -/
def contains (s k : NibbleSlice) : Except Exception Bool := do
  let n ← s.shared k
  .ok (n == k.size)

/-- `operator==`. -/
def equals (s k : NibbleSlice) : Except Exception Bool :=
  if k.size = s.size then do
    let n ← s.shared k
    .ok (n == k.size)
  else .ok false

def clear (_ : NibbleSlice) : NibbleSlice := ⟨[], 0⟩

/-- The loop of `isEarlierThan` and the decision behind it. -/
def isEarlierThanLoop (s k : NibbleSlice) : Nat → Nat → Except Exception Bool
  | 0, i => .ok (decide (i < k.size))
  | rounds + 1, i => do
      let a ← s.get i
      let b ← k.get i
      if a < b then .ok true
      else if a > b then .ok false
      else isEarlierThanLoop s k rounds (i + 1)

/-- Whether `s`, a full key, lies strictly before the prefix `k`. -/
def isEarlierThan (s k : NibbleSlice) : Except Exception Bool :=
  isEarlierThanLoop s k (min k.size s.size) 0

end NibbleSlice

def isLeaf (twoItem : RLP) : Except Exception Bool := do
  let itemCount ← twoItem.itemCount
  check (twoItem.isList && itemCount == 2)
  let r ← twoItem.get 0
  let pl ← r.payload
  let x ← pl.get 0
  .ok (x &&& 0x20 != 0)

/-- `keyOf` of a hex-prefixed byte string. -/
def keyOfHexPrefix (hpe : Bytes) : NibbleSlice :=
  match hpe with
  | [] => ⟨hpe, 0⟩
  | x :: _ => if x &&& 0x10 != 0 then ⟨hpe, 1⟩ else ⟨hpe, 2⟩

/-- `keyOf` of a two-item node. -/
def keyOf (twoItem : RLP) : Except Exception NibbleSlice := do
  let r ← twoItem.get 0
  let pl ← r.payload
  .ok (keyOfHexPrefix pl.toBytes)

/-- The first byte of a hex prefix, before a nibble is put into it. -/
def hexPrefixByte (leaf odd : Bool) : Byte :=
  ((if leaf then 2 else 0) ||| (if odd then 1 else 0)) * 16

/-- The loop of `hexPrefixEncode` over a vector of nibbles. -/
def hexVectorLoop (hexVector : Bytes) : Nat → Nat → Except Exception Bytes
  | 0, _ => .ok []
  | rounds + 1, i => do
      let a ← byteAt hexVector i
      let b ← byteAt hexVector (i + 1)
      let ret ← hexVectorLoop hexVector rounds (i + 2)
      .ok ((a * 16 + b) :: ret)

/-- `hexPrefixEncode` of a vector of nibbles. -/
def hexPrefixEncode (hexVector : Bytes) (leaf : Bool) (first : Int := 0)
    (last : Int := -1) : Except Exception Bytes := do
  let first' := toUnsigned first
  let last' := toUnsigned (if last < 0 then hexVector.length + 1 + last else last)
  let odd := (last' + first') % 2 != 0
  if odd then do
    let n ← byteAt hexVector first'
    let ret ← hexVectorLoop hexVector ((last' - first') / 2) (first' + 1)
    .ok ((hexPrefixByte leaf odd ||| n) :: ret)
  else do
    let ret ← hexVectorLoop hexVector ((last' - first') / 2) first'
    .ok (hexPrefixByte leaf odd :: ret)

/-- `ret.back() |= n`. -/
def orBack (ret : Bytes) (n : Byte) : Bytes :=
  match ret.getLast? with
  | some x => ret.dropLast ++ [x ||| n]
  | none => []

/-- The loop of `hexPrefixEncode` over the nibbles of a byte string: `d` counts
the nibbles, an odd one goes into the last byte. -/
def pushNibbles (data : Bytes) :
    Nat → Nat → Nat → Bytes → Except Exception (Nat × Bytes)
  | 0, _, d, ret => .ok (d, ret)
  | rounds + 1, i, d, ret => do
      let n ← nibble data i
      pushNibbles data rounds (i + 1) (d + 1)
        (if d % 2 = 1 then orBack ret n else ret ++ [n <<< 4])

/-- `hexPrefixEncode` of the nibbles `[first, last)` behind an offset. -/
def hexPrefixEncodeRange (data : Bytes) (leaf : Bool) (first last : Int)
    (offset : Nat) : Except Exception Bytes := do
  let first' := toUnsigned (first + offset)
  let last ←
    if last < 0 then do
      let n ← addInt (toInt (data.length * 2 - offset)) 1
      addInt n last
    else .ok last
  let last' := toUnsigned (last + offset)
  let odd := (last' + first') % 2 != 0
  let r ← pushNibbles data (last' - first') first' (if odd then 1 else 2)
    [hexPrefixByte leaf odd]
  .ok r.2

/-- `hexPrefixEncode` of a slice. -/
def hexPrefixEncodeSlice (s : NibbleSlice) (leaf : Bool) (first : Int := 0)
    (last : Int := -1) : Except Exception Bytes :=
  hexPrefixEncodeRange s.data leaf first last s.offset

/-- `hexPrefixEncode` of two slices, one after the other. -/
def hexPrefixEncodeJoin (s₁ s₂ : NibbleSlice) (leaf : Bool) :
    Except Exception Bytes := do
  let begin₁ := s₁.offset
  let end₁ := toUnsigned (s₁.data.length * 2)
  let begin₂ := s₂.offset
  let end₂ := toUnsigned (s₂.data.length * 2)
  let odd := (end₁ + begin₁ + (end₂ + begin₂)) % 2 != 0
  let r₁ ← pushNibbles s₁.data (end₁ - begin₁) begin₁ (if odd then 1 else 2)
    [hexPrefixByte leaf odd]
  let r₂ ← pushNibbles s₂.data (end₂ - begin₂) begin₂ r₁.1 r₁.2
  .ok r₂.2

/-- The loop of `uniqueInUse`; `used` is 255 until a slot in use is found. -/
def uniqueInUseLoop (orig : RLP) (except : Nat) :
    List Nat → Nat → Except Exception Nat
  | [], used => .ok used
  | i :: is, used =>
      if i ≠ except then do
        let r ← orig.get i
        if r.isEmpty then uniqueInUseLoop orig except is used
        else if used = 255 then uniqueInUseLoop orig except is i
        else .ok 255
      else uniqueInUseLoop orig except is used

/-- The only slot of a branch in use besides `except`, or 255. -/
def uniqueInUse (orig : RLP) (except : Nat) : Except Exception Nat :=
  uniqueInUseLoop orig except (List.range 17) 255

/-! The nibbles a slice shows, and what the functions compute of them. -/

namespace NibbleSlice

/-- The nibbles behind the offset. -/
def word (s : NibbleSlice) : List Nibble := (nibbles s.data).drop s.offset

theorem length_word {s : NibbleSlice} (h : s.offset ≤ s.data.length * 2) :
    s.word.length + s.offset = s.data.length * 2 := by
  rw [word, List.length_drop, length_nibbles]
  omega

/-- The slice shows the word `ns`, and its counters can hold the numbers of
nibbles. -/
structure Shows (s : NibbleSlice) (ns : List Nibble) : Prop where
  word : (nibbles s.data).drop s.offset = ns
  offset_le : s.offset ≤ s.data.length * 2
  small : s.data.length * 2 ≤ 2 ^ 31
  short : ns.length < 2 ^ 31 - 1

theorem nibble_eq {data : Bytes} {i : Nat} {n : Nibble}
    (h : (nibbles data)[i]? = some n) : nibble data i = .ok n.toByte := by
  rw [nibbles_getElem?] at h
  obtain ⟨x, hx, rfl⟩ := Option.map_eq_some_iff.1 h
  rw [nibble, byteAt, hx]
  by_cases hodd : i % 2 = 1
  · simp only [hodd, ↓reduceIte, ok_bind, Except.ok.injEq]
    apply UInt8.toNat_inj.1
    rw [Nibble.toNat_toByte, UInt8.toNat_and]
    exact Nat.and_two_pow_sub_one_eq_mod x.toNat 4
  · simp only [hodd, ↓reduceIte, ok_bind, Except.ok.injEq]
    apply UInt8.toNat_inj.1
    rw [Nibble.toNat_toByte, UInt8.toNat_shiftRight]
    exact Nat.shiftRight_eq_div_pow x.toNat 4

section Shows

variable {s k : NibbleSlice} {v w : List Nibble}

theorem Shows.length (h : s.Shows v) : v.length = s.data.length * 2 - s.offset := by
  rw [← h.word, List.length_drop, length_nibbles]

theorem Shows.size (h : s.Shows v) : s.size = v.length := by
  have hlength := h.length
  have hoffset := h.offset_le
  have hsmall := h.small
  rw [NibbleSlice.size, toUnsigned]
  omega

theorem Shows.size_cons {n : Nibble} {ns : List Nibble} (h : s.Shows (n :: ns)) :
    (s.size == 0) = false := by
  rw [h.size]
  rfl

theorem shows_key {b : Bytes} (h : b.length < 2 ^ 30) :
    Shows ⟨b, 0⟩ (nibbles b) := by
  refine ⟨rfl, Nat.zero_le _, ?_, ?_⟩
  · simp only
    omega
  · rw [length_nibbles]
    omega

theorem Shows.mid (h : s.Shows v) {n : Nat} (hn : n ≤ v.length) :
    (s.mid n).Shows (v.drop n) := by
  have hlength := h.length
  have hoffset := h.offset_le
  have hsmall := h.small
  have hmid : (s.mid n) = ⟨s.data, s.offset + n⟩ := by
    rw [NibbleSlice.mid, ← Nat.cast_add, toUnsigned_of_lt (by omega)]
  rw [hmid]
  refine ⟨by rw [← h.word, List.drop_drop], ?_, hsmall, ?_⟩
  · simp only
    omega
  · have := h.short
    rw [List.length_drop]
    omega

theorem Shows.get (h : s.Shows v) {i : Nat} {n : Nibble} (hi : v[i]? = some n) :
    s.get i = .ok n.toByte := by
  have hlength := h.length
  have hsmall := h.small
  have hlt : i < v.length := (List.getElem?_eq_some_iff.1 hi).1
  rw [NibbleSlice.get, ← Nat.cast_add, toUnsigned_of_lt (by omega)]
  refine nibble_eq ?_
  rw [← List.getElem?_drop, h.word, hi]

/-- Reading a nibble behind the end. -/
theorem Shows.get_nil (h : s.Shows []) : s.get 0 = .error .outOfRange := by
  have hlength := h.length
  have hoffset := h.offset_le
  have hsmall := h.small
  rw [List.length_nil] at hlength
  have hnone : s.data[(s.offset + 0) / 2]? = none :=
    List.getElem?_eq_none (by omega)
  rw [NibbleSlice.get, ← Nat.cast_add, toUnsigned_of_lt (by omega), nibble,
    byteAt, hnone]
  rfl

end Shows

theorem sharedNibblesLoop_eq {first second : Bytes} {v w : List Nibble}
    {i j : Nat} (hv : (nibbles first).drop i = v)
    (hw : (nibbles second).drop j = w) :
    sharedNibblesLoop first second (min v.length w.length) i j =
      .ok (sharedLength v w) := by
  induction v generalizing i j w with
  | nil => simp [sharedNibblesLoop]
  | cons a v ih =>
      cases w with
      | nil => simp [sharedNibblesLoop]
      | cons b w =>
          have ha : (nibbles first)[i]? = some a := by
            rw [← List.head?_drop, hv]
            rfl
          have hb : (nibbles second)[j]? = some b := by
            rw [← List.head?_drop, hw]
            rfl
          have hv' : (nibbles first).drop (i + 1) = v := by
            rw [← List.drop_drop, hv]
            rfl
          have hw' : (nibbles second).drop (j + 1) = w := by
            rw [← List.drop_drop, hw]
            rfl
          have hmin : min (a :: v).length (b :: w).length =
              min v.length w.length + 1 := by
            simp only [List.length_cons]
            omega
          rw [hmin, sharedNibblesLoop, nibble_eq ha, ok_bind, nibble_eq hb,
            ok_bind]
          by_cases hab : a = b
          · subst hab
            simp [ih hv' hw']
          · rw [if_neg (fun h => hab (Nibble.toByte_inj.1 h))]
            simp [sharedLength, hab]

section Shared

variable {s k : NibbleSlice} {v w : List Nibble}

theorem Shows.shared (h : s.Shows v) (h' : k.Shows w) :
    s.shared k = .ok (sharedLength v w) := by
  have hend : ∀ {s : NibbleSlice} {v : List Nibble}, s.Shows v →
      toUnsigned (s.offset + s.size) - s.offset = v.length := by
    intro s v h
    have hlength := h.length
    have hoffset := h.offset_le
    have hsmall := h.small
    rw [h.size, ← Nat.cast_add, toUnsigned_of_lt (by omega)]
    omega
  rw [NibbleSlice.shared, sharedNibbles, hend h, hend h']
  exact sharedNibblesLoop_eq h.word h'.word

theorem Shows.contains (h : s.Shows v) (h' : k.Shows w) :
    s.contains k = .ok (decide (w <+: v)) := by
  rw [NibbleSlice.contains, h.shared h', ok_bind, Except.ok.injEq,
    Bool.eq_iff_iff, beq_iff_eq, decide_eq_true_eq, h'.size,
    sharedLength_eq_length_iff]

theorem Shows.equals (h : s.Shows v) (h' : k.Shows w) :
    s.equals k = .ok (decide (v = w)) := by
  rw [NibbleSlice.equals]
  by_cases hsize : k.size = s.size
  · rw [if_pos hsize, h.shared h', ok_bind, Except.ok.injEq, Bool.eq_iff_iff,
      beq_iff_eq, decide_eq_true_eq, h'.size, sharedLength_eq_length_iff]
    rw [h.size, h'.size] at hsize
    constructor
    · intro hpre
      exact (hpre.eq_of_length hsize).symm
    · rintro rfl
      exact List.prefix_rfl
  · rw [if_neg hsize, Except.ok.injEq, eq_comm, decide_eq_false_iff_not]
    rintro rfl
    exact hsize (h'.size.trans h.size.symm)

theorem Nibble.toByte_lt {m n : Nibble} : m.toByte < n.toByte ↔ m < n := by
  rw [UInt8.lt_iff_toNat_lt, Nibble.toNat_toByte, Nibble.toNat_toByte]
  exact Fin.lt_def.symm

theorem Shows.isEarlierThanLoop_eq (h : s.Shows v) (h' : k.Shows w) {i : Nat}
    (hi : i ≤ v.length) (hi' : i ≤ w.length) :
    isEarlierThanLoop s k (min (w.length - i) (v.length - i)) i =
      .ok (decide (v.drop i < w.drop i)) := by
  induction hrounds : min (w.length - i) (v.length - i) generalizing i with
  | zero =>
      rw [isEarlierThanLoop, h'.size, Except.ok.injEq, decide_eq_decide]
      by_cases hw : i < w.length
      · have hv : v.drop i = [] := List.drop_eq_nil_of_le (by omega)
        rw [hv, List.drop_eq_getElem_cons hw]
        exact iff_of_true hw (List.nil_lt_cons _ _)
      · have hw' : w.drop i = [] := List.drop_eq_nil_of_le (by omega)
        rw [hw']
        exact iff_of_false hw (List.not_lt_nil _)
  | succ rounds ih =>
      have hv : i < v.length := by omega
      have hw : i < w.length := by omega
      rw [isEarlierThanLoop, h.get (List.getElem?_eq_getElem hv), ok_bind,
        h'.get (List.getElem?_eq_getElem hw), ok_bind,
        List.drop_eq_getElem_cons hv, List.drop_eq_getElem_cons hw]
      by_cases hlt : v[i] < w[i]
      · rw [if_pos (Nibble.toByte_lt.2 hlt), Except.ok.injEq, eq_comm,
          decide_eq_true_eq]
        exact List.cons_lt_cons_iff.2 (.inl hlt)
      · rw [if_neg (mt Nibble.toByte_lt.1 hlt)]
        by_cases hgt : w[i] < v[i]
        · rw [if_pos (Nibble.toByte_lt.2 hgt), Except.ok.injEq, eq_comm,
            decide_eq_false_iff_not, List.cons_lt_cons_iff]
          rintro (hlt' | ⟨heq, -⟩)
          · exact hlt hlt'
          · exact absurd heq hgt.ne'
        · have heq : v[i] = w[i] := le_antisymm (not_lt.1 hgt) (not_lt.1 hlt)
          rw [if_neg (mt Nibble.toByte_lt.1 hgt), ih (by omega) (by omega)
            (by omega), Except.ok.injEq, decide_eq_decide, heq,
            List.cons_lt_cons_iff]
          exact ⟨fun hrest => .inr ⟨rfl, hrest⟩,
            fun hrest => hrest.elim (fun hlt' => absurd hlt' (lt_irrefl _))
              And.right⟩

/-- A key lies before a prefix if it is smaller as a word. -/
theorem Shows.isEarlierThan (h : s.Shows v) (h' : k.Shows w) :
    s.isEarlierThan k = .ok (decide (v < w)) := by
  have hloop := h.isEarlierThanLoop_eq h' (Nat.zero_le _) (Nat.zero_le _)
  rwa [Nat.sub_zero, Nat.sub_zero, List.drop_zero, List.drop_zero,
    ← h.size, ← h'.size] at hloop

end Shared

/-! A slice whose nibbles are counted as none. -/

section Spent

variable {s : NibbleSlice} (h : s.size = 0) (k : NibbleSlice)

include h

theorem shared_of_size : s.shared k = .ok 0 := by
  have hend : toUnsigned ((s.offset : Int) + ((0 : Nat) : Int)) - s.offset = 0 := by
    rw [toUnsigned]
    omega
  rw [shared, sharedNibbles, h, hend, Nat.zero_min]
  rfl

theorem contains_of_size : s.contains k = .ok (k.size == 0) := by
  rw [contains, shared_of_size h, ok_bind, Except.ok.injEq, Bool.eq_iff_iff,
    beq_iff_eq, beq_iff_eq, eq_comm]

theorem isEarlierThan_of_size : s.isEarlierThan k = .ok (k.size != 0) := by
  rw [NibbleSlice.isEarlierThan, h, Nat.min_zero, isEarlierThanLoop,
    Except.ok.injEq, Bool.eq_iff_iff, decide_eq_true_eq, bne_iff_ne,
    Nat.pos_iff_ne_zero]

theorem size_mid_zero : (s.mid 0).size = 0 := by
  rw [size, toUnsigned] at h
  rw [size, mid, toUnsigned, toUnsigned]
  simp only
  omega

end Spent

theorem size_clear (s : NibbleSlice) : s.clear.size = 0 := rfl

end NibbleSlice

section HexPrefix

open Nibble (join)

/-- What the loop of `hexPrefixEncode` makes of a word. -/
def pushed : Nat → Bytes → List Nibble → Bytes
  | _, ret, [] => ret
  | d, ret, n :: ns =>
      pushed (d + 1)
        (if d % 2 = 1 then orBack ret n.toByte else ret ++ [n.toByte <<< 4]) ns

theorem pushNibbles_eq {data : Bytes} {ns rest : List Nibble} {i : Nat}
    (h : (nibbles data).drop i = ns ++ rest) (d : Nat) (ret : Bytes) :
    pushNibbles data ns.length i d ret = .ok (d + ns.length, pushed d ret ns) := by
  induction ns generalizing i d ret with
  | nil => rfl
  | cons n ns ih =>
      have hn : (nibbles data)[i]? = some n := by
        rw [← List.head?_drop, h]
        rfl
      have hrest : (nibbles data).drop (i + 1) = ns ++ rest := by
        rw [← List.drop_drop, h]
        rfl
      rw [List.length_cons, pushNibbles, NibbleSlice.nibble_eq hn, ok_bind,
        ih hrest, pushed]
      simp only [Except.ok.injEq, Prod.mk.injEq, and_true]
      omega

theorem pushed_append (d : Nat) (ret : Bytes) (v w : List Nibble) :
    pushed d ret (v ++ w) = pushed (d + v.length) (pushed d ret v) w := by
  induction v generalizing d ret with
  | nil => rfl
  | cons n v ih =>
      rw [List.cons_append, pushed, ih, pushed, List.length_cons]
      congr 1
      omega

theorem shift_or (a b : Nibble) : (a.toByte <<< 4) ||| b.toByte = join a b := by
  revert a b
  decide

theorem hexPrefixByte_or (leaf : Bool) (n : Nibble) :
    hexPrefixByte leaf true ||| n.toByte = join (hexPrefixFlags leaf true) n := by
  revert leaf n
  decide

theorem hexPrefixByte_even (leaf : Bool) :
    hexPrefixByte leaf false = join (hexPrefixFlags leaf false) 0 := by
  revert leaf
  decide

theorem pushed_even {ns : List Nibble} (heven : ns.length % 2 = 0) {d : Nat}
    (hd : d % 2 = 0) (ret : Bytes) : pushed d ret ns = ret ++ pack ns := by
  induction ns using pack.induct generalizing d ret with
  | case1 a b ns ih =>
      have hns : ns.length % 2 = 0 := by
        simp only [List.length_cons] at heven
        omega
      have hback : orBack (ret ++ [a.toByte <<< 4]) b.toByte =
          ret ++ [join a b] := by
        simp [orBack, shift_or]
      rw [pushed, if_neg (by omega), pushed, if_pos (by omega), hback,
        ih hns (by omega), pack, List.append_assoc]
      rfl
  | case2 ns hns =>
      rcases ns with _ | ⟨a, _ | ⟨b, ns⟩⟩
      · simp [pushed, pack]
      · simp at heven
      · exact absurd rfl (hns a b ns)

/-- The encoder writes the hex-prefix notation. -/
theorem pushed_eq_hexPrefix (leaf : Bool) (ns : List Nibble) :
    pushed (if (ns.length % 2 != 0) = true then 1 else 2)
      [hexPrefixByte leaf (ns.length % 2 != 0)] ns = hexPrefix leaf ns := by
  rcases hexPrefix_cases leaf ns with ⟨n, ms, rfl, heven, h⟩ | ⟨heven, h⟩
  · have hodd : ((n :: ms).length % 2 != 0) = true := by
      rw [bne_iff_ne, List.length_cons]
      omega
    rw [h, hodd, if_pos rfl, pushed, if_pos rfl, pushed_even heven (by omega)]
    simp [orBack, hexPrefixByte_or]
  · have hodd : (ns.length % 2 != 0) = false := by simp [heven]
    rw [h, hodd, if_neg (by simp), pushed_even heven rfl, hexPrefixByte_even]
    rfl

section Encode

variable {s k : NibbleSlice} {v w : List Nibble}

/-- The range `[first, last)` of the nibbles, once its ends are computed. -/
theorem pushNibbles_range {data : Bytes} {first last : Nat} (leaf : Bool)
    (h : (nibbles data).drop first = v ++ w) (hlast : last = first + v.length) :
    (do
      let odd := (last + first) % 2 != 0
      let r ← pushNibbles data (last - first) first (if odd then 1 else 2)
        [hexPrefixByte leaf odd]
      .ok r.2 : Except Exception Bytes) = .ok (hexPrefix leaf v) := by
  have hodd : (first + v.length + first) % 2 = v.length % 2 := by omega
  simp only [hlast, Nat.add_sub_cancel_left, pushNibbles_eq h, ok_bind, hodd,
    pushed_eq_hexPrefix]

theorem addInt_of_lt {x y : Int} (h : -2 ^ 31 ≤ x + y) (h' : x + y < 2 ^ 31) :
    addInt x y = .ok (x + y) := if_pos ⟨h, h'⟩

/-- The part of the word `w` from `first` to `last`; a negative end counts from
the end, which itself is -1. -/
def PartOf (w : List Nibble) (first last : Int) (ns : List Nibble) : Prop :=
  ∃ a b : Nat, first = a ∧ (if last < 0 then w.length + 1 + last else last) = b ∧
    a ≤ b ∧ b ≤ w.length ∧ ns = (w.take b).drop a

/-- A part of a word stands before what follows it. -/
theorem PartOf.exists_split {first last : Int} {ns : List Nibble}
    (h : PartOf w first last ns) :
    ∃ a b : Nat, first = a ∧
      (if last < 0 then w.length + 1 + last else last) = b ∧
      b = a + ns.length ∧ b ≤ w.length ∧ w.drop a = ns ++ w.drop b := by
  obtain ⟨a, b, hfirst, hlast, hle, hle', rfl⟩ := h
  refine ⟨a, b, hfirst, hlast, ?_, hle', ?_⟩
  · rw [List.length_drop, List.length_take]
    omega
  · conv_lhs => rw [← List.take_append_drop b w]
    rw [List.drop_append_of_le_length]
    rw [List.length_take]
    omega

theorem partOf_between {a b : Nat} (hle : a ≤ b) (hle' : b ≤ w.length)
    (hshort : w.length < 2 ^ 31) :
    PartOf w (toInt a) (toInt b) ((w.take b).drop a) := by
  refine ⟨a, b, toInt_of_lt (by omega), ?_, hle, hle', rfl⟩
  rw [toInt_of_lt (by omega), if_neg (by omega)]

theorem partOf_drop {a : Nat} (hle : a ≤ w.length) (hshort : w.length < 2 ^ 31) :
    PartOf w (toInt a) (-1) (w.drop a) := by
  refine ⟨a, w.length, toInt_of_lt (by omega), ?_, hle, le_rfl, ?_⟩
  · rw [if_pos (by decide), Int.add_neg_cancel_right]
  · rw [List.take_length]

/-- A part of a slice, where an `unsigned` holds the number of nibbles and, if
the end is counted from the end, an `int` does. -/
theorem hexPrefixEncodeSlice_eq (leaf : Bool) {first last : Int}
    {ns : List Nibble} (hoffset : s.offset ≤ s.data.length * 2)
    (h : PartOf s.word first last ns) (hsmall : s.data.length < 2 ^ 31)
    (hint : last < 0 → s.data.length * 2 - s.offset < 2 ^ 31 - 1) :
    hexPrefixEncodeSlice s leaf first last = .ok (hexPrefix leaf ns) := by
  obtain ⟨a, b, rfl, hlast, hb, hle, hsplit⟩ := h.exists_split
  have hlength := NibbleSlice.length_word hoffset
  have hfirst : toUnsigned ((a : Int) + s.offset) = a + s.offset := by
    rw [← Nat.cast_add, toUnsigned_of_lt (by omega)]
  have hend : toUnsigned ((b : Int) + s.offset) = b + s.offset := by
    rw [← Nat.cast_add, toUnsigned_of_lt (by omega)]
  have hword : (nibbles s.data).drop (a + s.offset) = ns ++ s.word.drop b := by
    rw [← hsplit, NibbleSlice.word, List.drop_drop, Nat.add_comm]
  have hrange := pushNibbles_range leaf hword
    (show b + s.offset = a + s.offset + ns.length by omega)
  rw [hexPrefixEncodeSlice, hexPrefixEncodeRange, hfirst]
  by_cases hneg : last < 0
  · have hshort := hint hneg
    have hsize : toInt (s.data.length * 2 - s.offset) = s.word.length := by
      have hcast : (s.data.length * 2 - s.offset : Int) = s.word.length := by
        omega
      rw [hcast, toInt_of_lt (by omega)]
    rw [if_pos hneg] at hlast
    rw [if_pos hneg, hsize, addInt_of_lt (by omega) (by omega), ok_bind,
      addInt_of_lt (by omega) (by omega), ok_bind, hlast]
    simp only [hend]
    exact hrange
  · rw [if_neg hneg] at hlast
    rw [if_neg hneg, ok_bind, hlast]
    simp only [hend]
    exact hrange

/-- Two slices, where an `unsigned` holds the numbers of nibbles. -/
theorem hexPrefixEncodeJoin_eq (leaf : Bool)
    (hs : s.offset ≤ s.data.length * 2) (hk : k.offset ≤ k.data.length * 2)
    (hsmall : s.data.length < 2 ^ 31) (hsmall' : k.data.length < 2 ^ 31) :
    hexPrefixEncodeJoin s k leaf = .ok (hexPrefix leaf (s.word ++ k.word)) := by
  have hend : ∀ {s : NibbleSlice}, s.offset ≤ s.data.length * 2 →
      s.data.length < 2 ^ 31 →
        toUnsigned (s.data.length * 2) = s.word.length + s.offset := by
    intro s hoffset hsmall
    have hlength := NibbleSlice.length_word hoffset
    have hcast : (s.data.length * 2 : Int) = (s.data.length * 2 : Nat) := by
      omega
    rw [hcast, toUnsigned_of_lt (by omega), hlength]
  have hodd : (s.word.length + s.offset + s.offset +
      (k.word.length + k.offset + k.offset)) % 2 =
        (s.word ++ k.word).length % 2 := by
    rw [List.length_append]
    omega
  have hword : ∀ s : NibbleSlice,
      (nibbles s.data).drop s.offset = s.word ++ [] := fun s =>
    (List.append_nil _).symm
  simp only [hexPrefixEncodeJoin, hend hs hsmall, hend hk hsmall', hodd,
    Nat.add_sub_cancel, pushNibbles_eq (hword s), pushNibbles_eq (hword k),
    ok_bind, ← pushed_append, pushed_eq_hexPrefix]

theorem NibbleSlice.Shows.encode_drop (h : s.Shows v) (leaf : Bool) {n : Nat}
    (hn : n ≤ v.length) :
    hexPrefixEncodeSlice s leaf (toInt n) = .ok (hexPrefix leaf (v.drop n)) := by
  have hlength := h.length
  have hsmall := h.small
  have hshort := h.short
  have hpart : PartOf s.word (toInt n) (-1) (v.drop n) := by
    rw [NibbleSlice.word, h.word]
    exact partOf_drop hn (by omega)
  exact hexPrefixEncodeSlice_eq leaf h.offset_le hpart (by omega)
    fun _ => by omega

theorem NibbleSlice.Shows.encode (h : s.Shows v) (leaf : Bool) :
    hexPrefixEncodeSlice s leaf = .ok (hexPrefix leaf v) :=
  h.encode_drop leaf (n := 0) (Nat.zero_le _)

theorem NibbleSlice.Shows.encode_take (h : s.Shows v) (leaf : Bool) {n : Nat}
    (hn : n ≤ v.length) :
    hexPrefixEncodeSlice s leaf 0 (toInt n) =
      .ok (hexPrefix leaf (v.take n)) := by
  have hlength := h.length
  have hsmall := h.small
  have hshort := h.short
  have hzero : toInt (0 : Nat) = 0 := by decide
  have hpart := partOf_between (Nat.zero_le n) hn (by omega)
  rw [hzero, List.drop_zero, ← h.word, ← NibbleSlice.word] at hpart
  rw [← h.word]
  exact hexPrefixEncodeSlice_eq leaf h.offset_le hpart (by omega)
    fun _ => by omega

theorem NibbleSlice.Shows.encode_join (h : s.Shows v) (h' : k.Shows w) (leaf : Bool) :
    hexPrefixEncodeJoin s k leaf = .ok (hexPrefix leaf (v ++ w)) := by
  have hsmall := h.small
  have hsmall' := h'.small
  have hjoin := hexPrefixEncodeJoin_eq leaf h.offset_le h'.offset_le
    (by omega) (by omega)
  rwa [NibbleSlice.word, NibbleSlice.word, h.word, h'.word] at hjoin

/-- The hex prefix of a single slot index. -/
theorem hexPrefixEncodeRange_slot (i : Nibble) :
    hexPrefixEncodeRange [i.toByte] false 1 2 0 =
      .ok (hexPrefix false [i]) := by
  revert i
  decide

end Encode

theorem hexPrefixEncode_nil (leaf : Bool) :
    hexPrefixEncode [] leaf = .ok (hexPrefix leaf []) := by
  cases leaf <;> rfl

/-- What is read back out of the notation. -/
theorem keyOfHexPrefix_word (leaf : Bool) (ns : List Nibble) :
    (keyOfHexPrefix (hexPrefix leaf ns)).word = ns ∧
      0 < (keyOfHexPrefix (hexPrefix leaf ns)).offset ∧
      (keyOfHexPrefix (hexPrefix leaf ns)).offset ≤ 2 ∧
      (keyOfHexPrefix (hexPrefix leaf ns)).data.length * 2 =
        ns.length + (keyOfHexPrefix (hexPrefix leaf ns)).offset := by
  have hodd : ∀ (leaf : Bool) (n : Nibble),
      join (hexPrefixFlags leaf true) n &&& 0x10 ≠ 0 := by decide
  have heven : ∀ leaf : Bool,
      join (hexPrefixFlags leaf false) 0 &&& 0x10 = 0 := by decide
  have hlen := length_hexPrefix leaf ns
  rcases hexPrefix_cases leaf ns with ⟨n, ms, rfl, hms, h⟩ | ⟨hns, h⟩
  · rw [h] at hlen ⊢
    rw [keyOfHexPrefix, if_pos (by simpa using hodd leaf n)]
    refine ⟨by simp [NibbleSlice.word, nibbles, nibbles_pack hms],
      Nat.one_pos, one_le_two, ?_⟩
    simp only [hlen, List.length_cons]
    omega
  · rw [h] at hlen ⊢
    rw [keyOfHexPrefix, if_neg (by simp [heven leaf])]
    refine ⟨by simp [NibbleSlice.word, nibbles, nibbles_pack hns],
      Nat.two_pos, le_rfl, ?_⟩
    simp only [hlen]
    omega

theorem shows_keyOfHexPrefix (leaf : Bool) {ns : List Nibble}
    (hshort : ns.length < 2 ^ 31 - 1) :
    (keyOfHexPrefix (hexPrefix leaf ns)).Shows ns := by
  obtain ⟨hword, -, hoffset, hlength⟩ := keyOfHexPrefix_word leaf ns
  exact ⟨hword, by omega, by omega, hshort⟩

/-- The nibbles of a slice behind the path of a trail. -/
theorem NibbleSlice.Shows.join_path {s : NibbleSlice} {path key : List Nibble}
    (h : s.Shows key) (hpath : path.length < 2 ^ 31 - 1) :
    hexPrefixEncodeJoin (keyOfHexPrefix (hexPrefix false path)) s false =
      .ok (hexPrefix false (path ++ key)) :=
  (shows_keyOfHexPrefix false hpath).encode_join h false

/-- The marks of a leaf and of an odd word are in the first byte. -/
theorem exists_hexPrefix_marks (leaf : Bool) (ns : List Nibble) :
    ∃ x rest, hexPrefix leaf ns = x :: rest ∧ (x &&& 0x20 != 0) = leaf ∧
      (x &&& 0x10 ≠ 0 ↔ ns.length % 2 = 1) := by
  have hodd : ∀ (leaf : Bool) (n : Nibble),
      (join (hexPrefixFlags leaf true) n &&& 0x20 != 0) = leaf ∧
        join (hexPrefixFlags leaf true) n &&& 0x10 ≠ 0 := by decide
  have heven : ∀ leaf : Bool,
      (join (hexPrefixFlags leaf false) 0 &&& 0x20 != 0) = leaf ∧
        ¬ join (hexPrefixFlags leaf false) 0 &&& 0x10 ≠ 0 := by decide
  rcases hexPrefix_cases leaf ns with ⟨n, ms, rfl, hms, h⟩ | ⟨hns, h⟩
  · obtain ⟨hleaf, hbit⟩ := hodd leaf n
    refine ⟨_, _, h, hleaf, iff_of_true hbit ?_⟩
    rw [List.length_cons]
    omega
  · obtain ⟨hleaf, hbit⟩ := heven leaf
    exact ⟨_, _, h, hleaf, iff_of_false hbit (by omega)⟩

end HexPrefix

section Accessors

variable {r : RLP}

theorem isLeaf_eq {leaf : Bool} {ns : List Nibble} {x : RLPTree}
    (h : r.Rep (.list [.data (hexPrefix leaf ns), x])) :
    isLeaf r = .ok leaf := by
  obtain ⟨c, hc, hrep⟩ := h.get (i := 0) rfl
  obtain ⟨v, hv, hvalid, hbytes⟩ := hrep.exists_payload
  obtain ⟨y, rest, hy, hmark, -⟩ := exists_hexPrefix_marks leaf ns
  have hlist : r.isList = true := h.isList
  have hfirst : v.get 0 = .ok y := by
    refine BytesConstRef.get_eq hvalid ?_
    rw [hbytes, RLPTree.payload, hy]
    rfl
  simp [isLeaf, h.itemCount, hlist, hc, hv, hfirst, hmark]

theorem keyOf_eq {leaf : Bool} {ns : List Nibble} {x : RLPTree}
    (h : r.Rep (.list [.data (hexPrefix leaf ns), x]))
    (hshort : ns.length < 2 ^ 31 - 1) :
    ∃ s, keyOf r = .ok s ∧ s.Shows ns := by
  obtain ⟨c, hc, hrep⟩ := h.get (i := 0) rfl
  obtain ⟨v, hv, -, hbytes⟩ := hrep.exists_payload
  refine ⟨keyOfHexPrefix (hexPrefix leaf ns), ?_,
    shows_keyOfHexPrefix leaf hshort⟩
  simp [keyOf, hc, hv, hbytes, RLPTree.payload]

/-- The slots the loop of `uniqueInUse` counts. -/
def slotsInUse (ts : List RLPTree) (except : Nat) (is : List Nat) : List Nat :=
  is.filter fun i => i ≠ except ∧ (ts[i]?.map RLPTree.payload).getD [] ≠ []

theorem uniqueInUseLoop_eq {ts : List RLPTree} (h : r.Rep (.list ts))
    (except : Nat) (is : List Nat) (his : ∀ i ∈ is, i < ts.length)
    (his' : ∀ i ∈ is, i < 255) (used : Nat) :
    uniqueInUseLoop r except is used =
      .ok (match slotsInUse ts except is with
        | [] => used
        | [i] => if used = 255 then i else 255
        | _ => 255) := by
  induction is generalizing used with
  | nil => rfl
  | cons i is ih =>
      have hi := his i List.mem_cons_self
      have hi' := his' i List.mem_cons_self
      have hrest := ih (fun j hj => his j (List.mem_cons_of_mem i hj))
        (fun j hj => his' j (List.mem_cons_of_mem i hj))
      have hget : ts[i]? = some ts[i] := List.getElem?_eq_getElem hi
      obtain ⟨c, hc, hrep⟩ := h.get hget
      rw [uniqueInUseLoop]
      by_cases hex : i = except
      · have hskip : slotsInUse ts except (i :: is) =
            slotsInUse ts except is := by
          simp [slotsInUse, hex]
        rw [if_neg (by simp [hex]), hrest, hskip]
      · rw [if_pos hex, hc, ok_bind, hrep.isEmpty]
        by_cases hempty : ts[i].payload = []
        · have hskip : slotsInUse ts except (i :: is) =
              slotsInUse ts except is := by
            simp [slotsInUse, hget, hempty]
          rw [if_pos (by simp [hempty]), hrest, hskip]
        · have hcons : slotsInUse ts except (i :: is) =
              i :: slotsInUse ts except is := by
            simp [slotsInUse, hget, hempty, hex]
          rw [if_neg (by simp [hempty]), hcons]
          by_cases hused : used = 255
          · rw [if_pos hused, hrest, hused]
            have hne : i ≠ 255 := by omega
            cases slotsInUse ts except is with
            | nil => simp
            | cons j js => cases js <;> simp [hne]
          · rw [if_neg hused]
            cases slotsInUse ts except is <;> simp [hused]

/-- A branch has one slot in use, or `uniqueInUse` says 255. -/
theorem uniqueInUse_eq {ts : List RLPTree} (h : r.Rep (.list ts))
    (hlen : ts.length = 17) (except : Nat) :
    uniqueInUse r except =
      .ok (match slotsInUse ts except (List.range 17) with
        | [i] => i
        | _ => 255) := by
  rw [uniqueInUse, uniqueInUseLoop_eq h except _
    (fun i hi => by rw [hlen]; exact List.mem_range.1 hi)
    (fun i hi => by have := List.mem_range.1 hi; omega)]
  cases slotsInUse ts except (List.range 17) with
  | nil => rfl
  | cons i is => cases is <;> simp

/-- A slot that counts for `uniqueInUse`. -/
def InUse (ts : List RLPTree) (except i : Nat) : Prop :=
  i ≠ except ∧ (ts[i]?.map RLPTree.payload).getD [] ≠ []

theorem mem_slotsInUse {ts : List RLPTree} {except i : Nat} :
    i ∈ slotsInUse ts except (List.range 17) ↔ i < 17 ∧ InUse ts except i := by
  simp [slotsInUse, InUse]

theorem uniqueInUse_of_only {ts : List RLPTree} (h : r.Rep (.list ts))
    (hlen : ts.length = 17) {except i : Nat} (hi : i < 17)
    (huse : InUse ts except i)
    (honly : ∀ j < 17, InUse ts except j → j = i) :
    uniqueInUse r except = .ok i := by
  have hslots : slotsInUse ts except (List.range 17) = [i] := by
    rw [← List.perm_singleton]
    refine (List.perm_ext_iff_of_nodup (List.nodup_range.filter _)
      (List.nodup_singleton i)).2 fun j => ?_
    rw [List.mem_singleton]
    constructor
    · intro hj
      obtain ⟨hlt, hj⟩ := mem_slotsInUse.1 hj
      exact honly j hlt hj
    · rintro rfl
      exact mem_slotsInUse.2 ⟨hi, huse⟩
  rw [uniqueInUse_eq h hlen, hslots]

theorem uniqueInUse_of_two {ts : List RLPTree} (h : r.Rep (.list ts))
    (hlen : ts.length = 17) {except i j : Nat} (hij : i ≠ j) (hi : i < 17)
    (hj : j < 17) (hui : InUse ts except i) (huj : InUse ts except j) :
    uniqueInUse r except = .ok 255 := by
  have hi' := mem_slotsInUse.2 ⟨hi, hui⟩
  have hj' := mem_slotsInUse.2 ⟨hj, huj⟩
  rw [uniqueInUse_eq h hlen]
  cases hslots : slotsInUse ts except (List.range 17) with
  | nil => rfl
  | cons k ks =>
      cases ks with
      | nil =>
          rw [hslots, List.mem_singleton] at hi' hj'
          exact absurd (hi'.trans hj'.symm) hij
      | cons l ls => rfl

end Accessors

end Web3Core
