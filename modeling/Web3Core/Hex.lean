/-
`toHex` and `fromHex` of `CommonData.h` and `CommonData.cpp`, and the forms of a
hash that are made of them.  A string is the byte string of its characters.
The positions in a string are `unsigned`, its size is not.
-/
import Web3Core.FixedHash

namespace Web3Core

/-- The characters of a literal. -/
def ascii (s : String) : Bytes := s.toList.map fun c => UInt8.ofNat c.toNat

/-- `"0123456789abcdef"[x]`. -/
def hexDigit (x : Nat) : Byte :=
  UInt8.ofNat (if x < 10 then 0x30 + x else 0x61 + (x - 10))

/-- What `std::hex` prints of a byte. -/
def printedHex (x : Byte) : Bytes :=
  if x.toNat < 16 then [hexDigit x.toNat]
  else [hexDigit (x.toNat / 16), hexDigit (x.toNat % 16)]

/-- `setw` with zeros to fill up. -/
def filled (w : Nat) (digits : Bytes) : Bytes :=
  List.replicate (w - digits.length) 0x30 ++ digits

/-- `toHex`; the elements are counted in an `unsigned`. -/
def toHex (data : Bytes) (w : Nat) (addPrefix : Bool) : Bytes :=
  let digits := (data.mapIdx fun i x =>
    filled (if toUnsigned i ≠ 0 then 2 else w) (printedHex x)).flatten
  if addPrefix then ascii "0x" ++ digits else digits

/-- `fromHex` of a character, or `none` for -1. -/
def fromHexDigit (c : Byte) : Option Nat :=
  if 0x30 ≤ c ∧ c ≤ 0x39 then some (c.toNat - 0x30)
  else if 0x61 ≤ c ∧ c ≤ 0x66 then some (c.toNat - 0x61 + 10)
  else if 0x41 ≤ c ∧ c ≤ 0x46 then some (c.toNat - 0x41 + 10)
  else none

/-- What `fromHex` does about a wrong character. -/
def badHex (throws : Bool) : Except Exception Bytes :=
  if throws then .error .badHexCharacter else .ok []

/-- The loop of `fromHex` over pairs of characters. -/
def fromHexLoop (s : Bytes) (throws : Bool) :
    Nat → Nat → Bytes → Except Exception Bytes
  | 0, _, _ => .error .outOfFuel
  | fuel + 1, i, ret =>
      if i < s.length then
        match fromHexDigit (s.getD i 0),
          fromHexDigit (s.getD (toUnsigned (i + 1 : Nat)) 0) with
        | some h, some l =>
            fromHexLoop s throws fuel (toUnsigned (i + 2 : Nat))
              (ret ++ [UInt8.ofNat (h * 16 + l)])
        | _, _ => badHex throws
      else .ok ret

/-- `fromHex`.  A loop that ends takes less rounds than there are
characters. -/
def fromHex (s : Bytes) (throws : Bool) : Except Exception Bytes :=
  let start := if s.getD 0 0 = 0x30 ∧ s.getD 1 0 = 0x78 then 2 else 0
  if s.length % 2 ≠ 0 then
    match fromHexDigit (s.getD start 0) with
    | some h =>
        fromHexLoop s throws (s.length + 1) (start + 1) [UInt8.ofNat h]
    | none => badHex throws
  else fromHexLoop s throws (s.length + 1) start []

/-- The constructor of a hash from a string of hex digits. -/
def FixedHash.fromString (N : Nat) (s : Bytes) (t : Alignment) :
    Except Exception (FixedHash N) := do
  let b ← fromHex s true
  .ok (FixedHash.fromBytes N b t)

/-- `toUUID`. -/
def toUUID (uuid : FixedHash 16) : Bytes :=
  [20, 16, 12, 8].foldl (fun ret i => ret.take i ++ ascii "-" ++ ret.drop i)
    (toHex uuid.data 2 false)

/-- `fromUUID`, which takes what is no UUID for zero. -/
def fromUUID (uuid : Bytes) : Except Exception (FixedHash 16) :=
  match FixedHash.fromString 16 (uuid.filter (· ≠ 0x2d)) .failIfDifferent with
  | .error .outOfFuel => .error .outOfFuel
  | .error _ => .ok (FixedHash.zero 16)
  | .ok h => .ok h

/-! Pairs of digits. -/

/-- The characters are pairs of hex digits for the bytes. -/
inductive Spells : Bytes → Bytes → Prop
  | nil : Spells [] []
  | cons {c d : Byte} {s b : Bytes} {h l : Nat}
      (high : fromHexDigit c = some h) (low : fromHexDigit d = some l)
      (rest : Spells s b) : Spells (c :: d :: s) (UInt8.ofNat (h * 16 + l) :: b)

namespace Spells

variable {s b : Bytes}

theorem length_eq (h : Spells s b) : s.length = 2 * b.length := by
  induction h with
  | nil => rfl
  | cons _ _ _ ih =>
      simp only [List.length_cons]
      omega

theorem digits (h : Spells s b) :
    ∀ c ∈ s, (fromHexDigit c).isSome = true := by
  induction h with
  | nil => simp
  | cons high low _ ih =>
      intro c hc
      rcases List.mem_cons.1 hc with rfl | hc
      · rw [high, Option.isSome_some]
      · rcases List.mem_cons.1 hc with rfl | hc
        · rw [low, Option.isSome_some]
        · exact ih c hc

/-- The characters that are left are read. -/
theorem fromHexLoop_eq (h : Spells s b) (throws : Bool) {p : Bytes}
    (hlt : (p ++ s).length < 2 ^ 32) (ret : Bytes) {fuel : Nat}
    (hfuel : b.length < fuel) :
    fromHexLoop (p ++ s) throws fuel p.length ret = .ok (ret ++ b) := by
  induction h generalizing p ret fuel with
  | nil =>
      obtain ⟨fuel, rfl⟩ := Nat.exists_eq_succ_of_ne_zero hfuel.ne'
      rw [fromHexLoop, if_neg (by simp), List.append_nil]
  | @cons c d s b h l high low rest ih =>
      obtain ⟨fuel, rfl⟩ := Nat.exists_eq_succ_of_ne_zero
        (Nat.ne_of_gt (Nat.zero_lt_of_lt hfuel))
      have hnext := toUnsigned_of_lt (n := p.length + 1)
        (by simp only [List.length_append, List.length_cons] at hlt; omega)
      have hafter := toUnsigned_of_lt (n := p.length + 2)
        (by simp only [List.length_append, List.length_cons] at hlt; omega)
      have hin : p.length < (p ++ c :: d :: s).length := by simp
      have hc : (p ++ c :: d :: s).getD p.length 0 = c := by simp
      have hd : (p ++ c :: d :: s).getD (p.length + 1) 0 = d := by simp
      have hsplit : p ++ c :: d :: s = (p ++ [c, d]) ++ s := by simp
      have hplace : p.length + 2 = (p ++ [c, d]).length := by simp
      have hrest := ih (p := p ++ [c, d]) (hsplit ▸ hlt)
        (ret ++ [UInt8.ofNat (h * 16 + l)])
        (Nat.lt_of_succ_lt_succ hfuel)
      rw [fromHexLoop, if_pos hin, hc, hnext, hd, high, low, hafter, hplace,
        hsplit]
      exact hrest.trans (by rw [List.append_assoc, List.singleton_append])

end Spells

/-- Over so many digits that the position starts again from zero, the loop does
not end. -/
theorem fromHexLoop_endless {s : Bytes} (hsize : 2 ^ 32 ≤ s.length)
    (hdigits : ∀ c ∈ s, (fromHexDigit c).isSome = true) (throws : Bool)
    (fuel : Nat) {i : Nat} (hi : i < 2 ^ 32) (ret : Bytes) :
    fromHexLoop s throws fuel i ret = .error .outOfFuel := by
  induction fuel generalizing i ret with
  | zero => rfl
  | succ fuel ih =>
      have hdigit : ∀ j < 2 ^ 32, ∃ x, fromHexDigit (s.getD j 0) = some x := by
        intro j hj
        have hjs : j < s.length := lt_of_lt_of_le hj hsize
        have hmem : s.getD j 0 ∈ s := by
          rw [List.getD_eq_getElem _ _ hjs]
          exact List.getElem_mem hjs
        exact Option.isSome_iff_exists.1 (hdigits _ hmem)
      have hwrap : ∀ n : Nat, toUnsigned n < 2 ^ 32 := by
        intro n
        rw [toUnsigned]
        omega
      obtain ⟨h, hh⟩ := hdigit i hi
      obtain ⟨l, hl⟩ := hdigit _ (hwrap (i + 1))
      rw [fromHexLoop, if_pos (lt_of_lt_of_le hi hsize), hh, hl]
      exact ih (hwrap (i + 2)) _

theorem fromHexDigit_hexDigit {x : Nat} (hx : x < 16) :
    fromHexDigit (hexDigit x) = some x := by
  have hall : ∀ y : Fin 16, fromHexDigit (hexDigit y) = some (y : Nat) := by
    decide
  exact hall ⟨x, hx⟩

theorem filled_printedHex (x : Byte) :
    filled 2 (printedHex x) =
      [hexDigit (x.toNat / 16), hexDigit (x.toNat % 16)] := by
  rw [printedHex]
  split
  · rename_i hsmall
    rw [Nat.div_eq_of_lt hsmall, Nat.mod_eq_of_lt hsmall]
    rfl
  · rfl

theorem toHex_two (b : Bytes) :
    toHex b 2 false =
      b.flatMap fun x =>
        [hexDigit (x.toNat / 16), hexDigit (x.toNat % 16)] := by
  have hmap : (b.mapIdx fun i x =>
      filled (if toUnsigned i ≠ 0 then 2 else 2) (printedHex x)) =
        b.map fun x => [hexDigit (x.toNat / 16), hexDigit (x.toNat % 16)] := by
    simp only [ite_self, filled_printedHex]
    exact List.ext_getElem (by simp) (by simp)
  rw [toHex, hmap, if_neg Bool.false_ne_true, List.flatMap_def]

theorem spells_toHex (b : Bytes) : Spells (toHex b 2 false) b := by
  rw [toHex_two]
  induction b with
  | nil => exact .nil
  | cons x b ih =>
      have hbyte : UInt8.ofNat (x.toNat / 16 * 16 + x.toNat % 16) = x := by
        rw [Nat.div_add_mod', UInt8.ofNat_toNat]
      have hpair := Spells.cons (fromHexDigit_hexDigit
        (Nat.div_lt_of_lt_mul (show x.toNat < 16 * 16 from x.toNat_lt)))
        (fromHexDigit_hexDigit (Nat.mod_lt x.toNat (by decide))) ih
      rwa [hbyte] at hpair

/-- A string of hex digits does not begin like a prefix. -/
theorem not_prefix_of_digits {s : Bytes}
    (h : ∀ c ∈ s, (fromHexDigit c).isSome = true) :
    ¬ (s.getD 0 0 = 0x30 ∧ s.getD 1 0 = 0x78) := by
  rintro ⟨-, hx⟩
  rcases s with _ | ⟨c, _ | ⟨d, s⟩⟩
  · exact absurd hx (by decide)
  · exact absurd (show (0 : Byte) = 0x78 from hx) (by decide)
  · rw [List.getD_cons_succ, List.getD_cons_zero] at hx
    have hd := h d (List.mem_cons_of_mem _ List.mem_cons_self)
    rw [hx] at hd
    exact absurd hd (by decide)

theorem fromHex_of_spells {s b : Bytes} (h : Spells s b) (throws : Bool) :
    fromHex s throws = fromHexLoop s throws (s.length + 1) 0 [] := by
  have heven : ¬ s.length % 2 ≠ 0 := by
    rw [h.length_eq]
    omega
  rw [fromHex, if_neg heven, if_neg (not_prefix_of_digits h.digits)]

/-- What was printed is read, if it has less than 2^32 digits. -/
theorem fromHex_toHex {b : Bytes} (h : b.length < 2 ^ 31) (throws : Bool) :
    fromHex (toHex b 2 false) throws = .ok b := by
  have hspells := spells_toHex b
  have hlength := hspells.length_eq
  rw [fromHex_of_spells hspells]
  exact hspells.fromHexLoop_eq (p := []) throws (by
    rw [List.nil_append]
    omega) [] (by omega)

/-- From 2^32 digits on the loop does not end. -/
theorem fromHex_toHex_endless {b : Bytes} (h : 2 ^ 31 ≤ b.length)
    (throws : Bool) :
    fromHex (toHex b 2 false) throws = .error .outOfFuel := by
  have hspells := spells_toHex b
  have hlength := hspells.length_eq
  rw [fromHex_of_spells hspells]
  exact fromHexLoop_endless (by omega) hspells.digits throws _ (by decide) []

end Web3Core
