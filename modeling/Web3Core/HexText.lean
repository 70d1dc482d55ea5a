/-
The forms in which hex digits are read: with a prefix or without, in lower or
upper case, and with one digit or two for the first byte.  All of them are read
back as long as an `unsigned` can hold every position of the text.
-/
import Web3Core.Hex

namespace Web3Core

/-- The digits with `0x` put in front of them, or without. -/
def prefixed (addPrefix : Bool) (s : Bytes) : Bytes :=
  (if addPrefix then ascii "0x" else []) ++ s

def upperCase (c : Byte) : Byte :=
  if 0x61 ≤ c ∧ c ≤ 0x7a then c - 0x20 else c

/-- Some of the characters in upper case. -/
def cased (upper : Nat → Bool) (s : Bytes) : Bytes :=
  s.mapIdx fun i c => if upper i then upperCase c else c

/-- What `toHex` prints, in one of the forms. -/
def hexText (b : Bytes) (w : Nat) (addPrefix : Bool) (upper : Nat → Bool) :
    Bytes :=
  prefixed addPrefix (cased upper (toHex b w false))

/-- The number of digits: two for a byte, or one for the first byte if it is
small and the width is one. -/
def digitCount (b : Bytes) (w : Nat) : Nat :=
  2 * b.length - if w = 1 ∧ (b.headD 16).toNat < 16 then 1 else 0

/-- The characters are hex digits for the bytes, where the first byte may have
one digit only. -/
inductive Spelled : Bytes → Bytes → Prop
  | even {s b : Bytes} (h : Spells s b) : Spelled s b
  | odd {c : Byte} {s b : Bytes} {h : Nat} (first : fromHexDigit c = some h)
      (rest : Spells s b) : Spelled (c :: s) (UInt8.ofNat h :: b)

/-! Upper case. -/

theorem fromHexDigit_upperCase (c : Byte) :
    fromHexDigit (upperCase c) = fromHexDigit c := by
  have hall : ∀ x : Fin 256, fromHexDigit (upperCase (UInt8.ofNat x)) =
      fromHexDigit (UInt8.ofNat x) := by decide +kernel
  have h := hall ⟨c.toNat, c.toNat_lt⟩
  rwa [UInt8.ofNat_toNat] at h

theorem fromHexDigit_cased (upper : Bool) (c : Byte) :
    fromHexDigit (if upper then upperCase c else c) = fromHexDigit c := by
  split
  · exact fromHexDigit_upperCase c
  · rfl

@[simp] theorem length_cased (upper : Nat → Bool) (s : Bytes) :
    (cased upper s).length = s.length := List.length_mapIdx

section Forms

variable {s b r : Bytes}

theorem Spells.cased (h : Spells s b) (upper : Nat → Bool) :
    Spells (cased upper s) b := by
  induction h generalizing upper with
  | nil => exact .nil
  | cons high low _ ih =>
      rw [Web3Core.cased, List.mapIdx_cons, List.mapIdx_cons]
      exact .cons ((fromHexDigit_cased _ _).trans high)
        ((fromHexDigit_cased _ _).trans low) (ih fun i => upper (i + 1 + 1))

theorem Spelled.cased (h : Spelled s b) (upper : Nat → Bool) :
    Spelled (cased upper s) b := by
  cases h with
  | even h => exact .even (h.cased upper)
  | odd first rest =>
      rw [Web3Core.cased, List.mapIdx_cons]
      exact .odd ((fromHexDigit_cased _ _).trans first)
        (rest.cased fun i => upper (i + 1))

theorem Spelled.digits (h : Spelled s b) :
    ∀ c ∈ s, (fromHexDigit c).isSome = true := by
  cases h with
  | even h => exact h.digits
  | odd first rest =>
      refine List.forall_mem_cons.2 ⟨?_, rest.digits⟩
      rw [first, Option.isSome_some]

/-- Where the digits begin. -/
theorem start_prefixed (hdigits : ∀ c ∈ s, (fromHexDigit c).isSome = true)
    (addPrefix : Bool) :
    (if (prefixed addPrefix s).getD 0 0 = 0x30 ∧
        (prefixed addPrefix s).getD 1 0 = 0x78 then 2 else 0) =
      (prefixed addPrefix []).length := by
  cases addPrefix with
  | true => rfl
  | false => exact if_neg (not_prefix_of_digits hdigits)

/-- What is spelled is read. -/
theorem Spelled.fromHex_eq (h : Spelled s b) (addPrefix throws : Bool)
    (hlt : (prefixed addPrefix s).length < 2 ^ 32) :
    fromHex (prefixed addPrefix s) throws = .ok b := by
  have hstart := start_prefixed h.digits addPrefix
  have hsplit : prefixed addPrefix s = prefixed addPrefix [] ++ s := by
    rw [prefixed, prefixed, List.append_nil]
  have hp : (prefixed addPrefix []).length % 2 = 0 := by
    cases addPrefix <;> rfl
  rw [fromHex, hstart]
  rw [hsplit] at hlt ⊢
  generalize prefixed addPrefix [] = p at hp hlt
  cases h with
  | even h =>
      have hlength := h.length_eq
      have heven : ¬ (p ++ s).length % 2 ≠ 0 := by
        rw [List.length_append]
        omega
      rw [if_neg heven, h.fromHexLoop_eq throws hlt [] (by
        rw [List.length_append]
        omega), List.nil_append]
  | @odd c s b h first rest =>
      have hlength := rest.length_eq
      have hodd : (p ++ c :: s).length % 2 ≠ 0 := by
        rw [List.length_append, List.length_cons]
        omega
      have hc : (p ++ c :: s).getD p.length 0 = c := by simp
      have hnext : p.length + 1 = (p ++ [c]).length := by simp
      have hcons : p ++ c :: s = (p ++ [c]) ++ s := by simp
      rw [if_pos hodd, hc, first]
      simp only
      rw [hcons] at hlt ⊢
      rw [hnext, rest.fromHexLoop_eq throws hlt _ (by
        rw [List.length_append]
        omega)]
      rfl

theorem badHex_ok {throws : Bool} (h : badHex throws = .ok r) : r = [] := by
  cases throws with
  | true => cases h
  | false => exact (Except.ok.inj h).symm

/-- In a longer text the loop is never at the end. -/
theorem fromHexLoop_long (hsize : 2 ^ 32 ≤ s.length) (throws : Bool)
    {fuel i : Nat} (hi : i < 2 ^ 32) {ret : Bytes}
    (h : fromHexLoop s throws fuel i ret = .ok r) : r = [] := by
  induction fuel generalizing i ret with
  | zero => cases h
  | succ fuel ih =>
      have hwrap : toUnsigned (i + 2 : Nat) < 2 ^ 32 := by
        rw [toUnsigned]
        omega
      rw [fromHexLoop, if_pos (lt_of_lt_of_le hi hsize)] at h
      split at h
      · exact ih hwrap h
      · exact badHex_ok h

theorem fromHex_long (hsize : 2 ^ 32 ≤ s.length) {throws : Bool}
    (h : fromHex s throws = .ok r) : r = [] := by
  have hstart :
      (if s.getD 0 0 = 0x30 ∧ s.getD 1 0 = 0x78 then 2 else 0) ≤ 2 := by
    split <;> omega
  rw [fromHex] at h
  generalize (if s.getD 0 0 = 0x30 ∧ s.getD 1 0 = 0x78 then 2 else 0) = start
    at h hstart
  split at h
  · split at h
    · exact fromHexLoop_long hsize throws (by omega) h
    · exact badHex_ok h
  · exact fromHexLoop_long hsize throws (by omega) h

/-! What is printed. -/

theorem length_le_flatten {ls : List Bytes} (h : ∀ l ∈ ls, l ≠ []) :
    ls.length ≤ ls.flatten.length := by
  induction ls with
  | nil => exact le_rfl
  | cons l ls ih =>
      obtain ⟨hl, hls⟩ := List.forall_mem_cons.1 h
      have hpos := List.length_pos_iff.2 hl
      have hrest := ih hls
      rw [List.flatten_cons, List.length_append, List.length_cons]
      omega

theorem length_le_toHex (b : Bytes) (w : Nat) :
    b.length ≤ (toHex b w false).length := by
  have hne : ∀ (w : Nat) (x : Byte), filled w (printedHex x) ≠ [] := by
    intro w x
    rw [filled, printedHex]
    split <;> simp
  have hlength : (b.mapIdx fun i x =>
      filled (if toUnsigned i ≠ 0 then 2 else w) (printedHex x)).length ≤
      (toHex b w false).length := by
    refine length_le_flatten fun l hl => ?_
    obtain ⟨i, hi, rfl⟩ := List.mem_mapIdx.1 hl
    exact hne _ _
  rwa [List.length_mapIdx] at hlength

/-- The digits of the first byte, and those of the others. -/
theorem toHex_one (x : Byte) (hb : b.length < 2 ^ 32) :
    toHex (x :: b) 1 false = printedHex x ++ toHex b 2 false := by
  have hfirst : filled (if toUnsigned (0 : Nat) ≠ 0 then 2 else 1)
      (printedHex x) = printedHex x := by
    rw [if_neg (by decide), filled, printedHex]
    split <;> rfl
  have hrest : (b.mapIdx fun i x => filled
      (if toUnsigned ((i + 1 : Nat) : Int) ≠ 0 then 2 else 1)
        (printedHex x)) =
      b.mapIdx fun i x => filled (if toUnsigned i ≠ 0 then 2 else 2)
        (printedHex x) := by
    refine List.ext_getElem (by simp) fun i hi _ => ?_
    rw [List.length_mapIdx] at hi
    have hnext : toUnsigned ((i + 1 : Nat) : Int) ≠ 0 := by
      rw [toUnsigned_of_lt (by omega)]
      omega
    simp only [List.getElem_mapIdx, ite_self, if_pos hnext]
  simp only [toHex, Bool.false_eq_true, if_false, List.mapIdx_cons, hfirst,
    hrest, List.flatten_cons]

theorem spelled_toHex {w : Nat} (hw : w = 1 ∨ w = 2)
    (hb : b.length ≤ 2 ^ 32) :
    Spelled (toHex b w false) b ∧
      (toHex b w false).length = digitCount b w := by
  have htwo : Spelled (toHex b 2 false) b ∧
      (toHex b 2 false).length = digitCount b 2 :=
    ⟨.even (spells_toHex b), (spells_toHex b).length_eq⟩
  rcases hw with rfl | rfl
  · cases b with
    | nil => exact ⟨.even .nil, rfl⟩
    | cons x b =>
        have hone := toHex_one x (b := b) (by simpa using hb)
        by_cases hx : x.toNat < 16
        · have hdigit : printedHex x = [hexDigit x.toNat] := if_pos hx
          have hodd := Spelled.odd (fromHexDigit_hexDigit hx) (spells_toHex b)
          rw [UInt8.ofNat_toNat] at hodd
          rw [hone, hdigit, digitCount, if_pos ⟨rfl, hx⟩, List.length_append,
            (spells_toHex b).length_eq, List.length_singleton, List.length_cons]
          exact ⟨hodd, by omega⟩
        · have hsame : toHex (x :: b) 1 false = toHex (x :: b) 2 false := by
            rw [hone, toHex_two, toHex_two, List.flatMap_cons, printedHex,
              if_neg hx]
          rw [hsame, digitCount, if_neg fun h => hx h.2]
          exact htwo
  · exact htwo

/-- **Hex digits are read back** in all their forms, if and only if the text has
less than 2^32 characters. -/
theorem fromHex_hexText_iff {w : Nat} (hw : w = 1 ∨ w = 2) (b : Bytes)
    (addPrefix : Bool) (upper : Nat → Bool) (throws : Bool) :
    fromHex (hexText b w addPrefix upper) throws = .ok b ↔
      digitCount b w + (if addPrefix then 2 else 0) < 2 ^ 32 := by
  have hp : (prefixed addPrefix []).length = if addPrefix then 2 else 0 := by
    cases addPrefix <;> rfl
  have hlength : (hexText b w addPrefix upper).length =
      (toHex b w false).length + if addPrefix then 2 else 0 := by
    rw [hexText, prefixed, ← List.append_nil (ite _ _ _), ← prefixed,
      List.length_append, hp, length_cased, Nat.add_comm]
  by_cases hb : b.length ≤ 2 ^ 32
  · obtain ⟨hspelled, hcount⟩ := spelled_toHex hw hb
    rw [← hcount, ← hlength]
    constructor
    · intro hread
      by_contra hlong
      obtain rfl := fromHex_long (not_lt.1 hlong) hread
      rw [hlength, hcount, digitCount, List.length_nil, Nat.mul_zero,
        Nat.zero_sub, Nat.zero_add] at hlong
      exact hlong (by cases addPrefix <;> decide)
    · intro hlt
      exact (hspelled.cased upper).fromHex_eq addPrefix throws hlt
  · have hle := length_le_toHex b w
    constructor
    · intro hread
      obtain rfl := fromHex_long (by omega) hread
      exact absurd (Nat.zero_le _) hb
    · intro hlt
      rw [digitCount] at hlt
      split at hlt <;> omega

end Forms

end Web3Core
