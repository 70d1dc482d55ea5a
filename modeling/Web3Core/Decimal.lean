/-
Numbers in a text, as `toString` prints and `stoi` reads them, and a text that
is cut at the first of its separators.
-/
import Mathlib.Data.List.TakeWhile
import Web3Core.Hex

namespace Web3Core

/-- `stoi`: white space, a sign, and the digits behind it. -/
def stoi (s : Bytes) : Except Exception Int :=
  let s := s.dropWhile fun c => c = 0x20 ∨ 0x09 ≤ c ∧ c ≤ 0x0d
  let unsigned := if s.headD 0 = 0x2b ∨ s.headD 0 = 0x2d then s.drop 1 else s
  let digits := unsigned.takeWhile fun c => 0x30 ≤ c ∧ c ≤ 0x39
  let value : Int := digits.foldl (fun n c => n * 10 + (c.toNat - 0x30)) 0
  let n := if s.headD 0 = 0x2d then -value else value
  if digits ≠ [] ∧ -2 ^ 31 ≤ n ∧ n < 2 ^ 31 then .ok n
  else .error .invalidArgument

/-- What `toString` prints of a number. -/
def decimal (n : Nat) : Bytes := ascii (toString n)

/-- The digits of a number as characters. -/
theorem decimal_eq (n : Nat) :
    decimal n = (Nat.toDigits 10 n).map fun c => UInt8.ofNat c.toNat := by
  rw [decimal, ascii, Nat.toString_eq_repr, Nat.toList_repr]

theorem toNat_digit {c : Char} (h : c.isDigit = true) :
    (UInt8.ofNat c.toNat).toNat = c.toNat ∧ 48 ≤ c.toNat ∧ c.toNat ≤ 57 := by
  rw [Char.isDigit, Bool.and_eq_true, decide_eq_true_iff,
    decide_eq_true_iff] at h
  have hlow : 48 ≤ c.toNat := h.1
  have hhigh : c.toNat ≤ 57 := h.2
  rw [UInt8.toNat_ofNat']
  omega

theorem mem_decimal {n : Nat} {c : Byte} (h : c ∈ decimal n) :
    0x30 ≤ c ∧ c ≤ 0x39 := by
  rw [decimal_eq, List.mem_map] at h
  obtain ⟨d, hd, rfl⟩ := h
  obtain ⟨heq, hlow, hhigh⟩ :=
    toNat_digit (Nat.isDigit_of_mem_toDigits (by decide) (by decide) hd)
  rw [UInt8.le_iff_toNat_le, UInt8.le_iff_toNat_le, heq]
  exact ⟨hlow, hhigh⟩

theorem decimal_ne_nil (n : Nat) : decimal n ≠ [] := by
  rw [decimal_eq]
  exact fun h => Nat.toDigits_ne_nil (List.map_eq_nil_iff.1 h)

/-- The digits are added up from the first to the last. -/
theorem foldl_digits (l : List Char) (h : ∀ c ∈ l, c.isDigit = true)
    (init : Nat) :
    (l.map fun c => UInt8.ofNat c.toNat).foldl
        (fun (n : Int) c => n * 10 + (c.toNat - 0x30)) init =
      (Nat.ofDigitChars 10 l init : Nat) := by
  induction l generalizing init with
  | nil => rw [Nat.ofDigitChars_nil, List.map_nil, List.foldl_nil]
  | cons c l ih =>
      obtain ⟨heq, hlow, -⟩ := toNat_digit (h c List.mem_cons_self)
      have hstep : (init : Int) * 10 + ((UInt8.ofNat c.toNat).toNat - 0x30) =
          ((10 * init + (c.toNat - '0'.toNat) : Nat) : Int) := by
        rw [heq, show '0'.toNat = 48 from rfl]
        omega
      rw [Nat.ofDigitChars_cons, List.map_cons, List.foldl_cons, hstep]
      exact ih (fun d hd => h d (List.mem_cons_of_mem c hd)) _

/-- A number is read as it was printed. -/
theorem stoi_decimal {n : Nat} (h : n < 2 ^ 31) : stoi (decimal n) = .ok n := by
  obtain ⟨c, s, hcons⟩ := List.exists_cons_of_ne_nil (decimal_ne_nil n)
  have hdigit : ∀ d ∈ c :: s, 0x30 ≤ d ∧ d ≤ 0x39 := by
    rw [← hcons]
    exact fun d => mem_decimal
  have hnot : ∀ d : Byte, d < 0x30 → c ≠ d := by
    rintro d hd rfl
    exact absurd (hdigit c List.mem_cons_self).1 (UInt8.not_le.2 hd)
  have hspace : ¬ (c = 0x20 ∨ 0x09 ≤ c ∧ c ≤ 0x0d) := by
    rintro (hc | ⟨-, hc⟩)
    · exact hnot 0x20 (by decide) hc
    · exact absurd (UInt8.le_trans (hdigit c List.mem_cons_self).1 hc)
        (by decide)
  have hplus := hnot 0x2b (by decide)
  have hminus := hnot 0x2d (by decide)
  have htake : (c :: s).takeWhile (fun c => 0x30 ≤ c ∧ c ≤ 0x39) = c :: s :=
    List.takeWhile_eq_self_iff.2 fun d hd => decide_eq_true (hdigit d hd)
  have hvalue := foldl_digits (Nat.toDigits 10 n)
    (fun c hc => Nat.isDigit_of_mem_toDigits (by decide) (by decide) hc) 0
  rw [Nat.ofDigitChars_ten_toDigits, ← decimal_eq, hcons] at hvalue
  have hbounds : c :: s ≠ [] ∧ -2 ^ 31 ≤ (n : Int) ∧ (n : Int) < 2 ^ 31 :=
    ⟨List.cons_ne_nil c s, by omega, by omega⟩
  rw [stoi, hcons, List.dropWhile_cons_of_neg (by simpa using hspace)]
  simp only [List.headD_cons, hplus, hminus, or_self, if_false, htake]
  rw [show (0 : Int) = ((0 : Nat) : Int) from rfl, hvalue, if_pos hbounds]

/-! Cutting at a separator. -/

section Cut

variable {α : Type} [DecidableEq α]

/-- What is in front of the first `c` and what is behind it, as of
`find_first_of` and `substr`. -/
def cutAt (c : α) (s : List α) : Option (List α × List α) :=
  (s.idxOf? c).map fun i => (s.take i, s.drop (i + 1))

variable {c : α} {a b s : List α}

theorem cutAt_eq_none_iff : cutAt c s = none ↔ c ∉ s := by
  rw [cutAt, Option.map_eq_none_iff, List.idxOf?_eq_none_iff]

/-- The first `c` is behind what has none. -/
theorem idxOf?_append (h : c ∉ a) : (a ++ c :: b).idxOf? c = some a.length := by
  rw [List.idxOf?_eq_some_iff]
  refine ⟨by simp, by simp, fun j hj hc => h ?_⟩
  rw [List.getElem_append_left hj] at hc
  exact hc ▸ List.getElem_mem hj

theorem cutAt_append (h : c ∉ a) : cutAt c (a ++ c :: b) = some (a, b) := by
  rw [cutAt, idxOf?_append h, Option.map_some, List.take_left]
  simp

/-- There is no separator in front of the cut. -/
theorem not_mem_of_cutAt (h : cutAt c s = some (a, b)) : c ∉ a := by
  rw [cutAt, Option.map_eq_some_iff] at h
  obtain ⟨i, hi, hab⟩ := h
  obtain ⟨hlt, -, hfirst⟩ := List.idxOf?_eq_some_iff.1 hi
  obtain ⟨rfl, -⟩ := Prod.mk.inj hab
  intro hmem
  obtain ⟨j, hj, hc⟩ := List.getElem_of_mem hmem
  rw [List.getElem_take] at hc
  exact hfirst j (by rw [List.length_take] at hj; omega) hc

end Cut

end Web3Core
