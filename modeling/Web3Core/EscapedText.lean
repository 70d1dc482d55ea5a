/-
`escaped` of `CommonData.cpp`, and the loop of the `rlp` tool that takes the
escapes out of a JSON string again.  The loop hands the `x` of a group to
`fromHex` along with the first digit, so no group is ever read.
-/
import Web3Core.Hex

namespace Web3Core

/-- `prettyEscapes`. -/
def prettyEscape (c : Byte) : Option Byte :=
  if c = 0x0d then some 0x72
  else if c = 0x0a then some 0x6e
  else if c = 0x09 then some 0x74
  else if c = 0x0b then some 0x76
  else none

/-- What `escaped` writes for a character.  A `char` is signed: those from 0x80
on are less than a blank. -/
def escapedChar (all : Bool) (c : Byte) : Bytes :=
  if c = 0x22 ∧ !all then ascii "\\\""
  else if c = 0x5c ∧ !all then ascii "\\\\"
  else if (prettyEscape c).isSome ∧ !all then
    ascii "\\" ++ (prettyEscape c).toList
  else if c < 0x20 ∨ 0x80 ≤ c ∨ all then
    ascii "\\x" ++ [hexDigit (c.toNat / 16), hexDigit (c.toNat % 16)]
  else [c]

def escaped (s : Bytes) (all : Bool) : Bytes :=
  ascii "\"" ++ s.flatMap (escapedChar all) ++ ascii "\""

/-- What stands between the quotes. -/
def unquoted (s : Bytes) : Bytes := s.tail.dropLast

/-- `v[0]`, within bounds only. -/
def firstByte : Bytes → Except Exception Byte
  | [] => .error .outOfRange
  | x :: _ => .ok x

/-- The loop over a JSON string.  The second character of an escape is skipped
if it does not begin a group of hex digits. -/
def unescapeLoop (s : Bytes) : Nat → Nat → Bytes → Except Exception Bytes
  | 0, _, _ => .error .outOfFuel
  | fuel + 1, i, ss =>
      if i < s.length then
        if s.getD i 0 = 0x5c ∧ toUnsigned (i + 1 : Nat) < s.length then
          let i' := toUnsigned (i + 1 : Nat)
          if s.getD i' 0 = 0x78 ∧ toUnsigned (i' + 2 : Nat) < s.length then do
            let b ← fromHex ((s.drop i').take 2) false
            let x ← firstByte b
            unescapeLoop s fuel (toUnsigned (i' + 1 : Nat)) (ss ++ [x])
          else unescapeLoop s fuel (toUnsigned (i' + 1 : Nat)) ss
        else if s.getD i 0 ≠ 0x5c then
          unescapeLoop s fuel (toUnsigned (i + 1 : Nat)) (ss ++ [s.getD i 0])
        else unescapeLoop s fuel (toUnsigned (i + 1 : Nat)) ss
      else .ok ss

/-- The string that the tool makes of a JSON string.  A loop that ends takes
less rounds than there are characters. -/
def unescape (s : Bytes) : Except Exception Bytes :=
  unescapeLoop s (s.length + 1) 0 []

/-! What the loop makes of a text. -/

/-- The bytes that the loop finds; a group of hex digits is not read. -/
def readEscapes : Bytes → Except Exception Bytes
  | [] => .ok []
  | [c] => .ok (if c = 0x5c then [] else [c])
  | c :: d :: s =>
      if c = 0x5c then
        if d = 0x78 ∧ 2 ≤ s.length then .error .outOfRange else readEscapes s
      else do
        let b ← readEscapes (d :: s)
        .ok (c :: b)

/-- Two characters that begin with an `x` are no hex digits. -/
theorem fromHex_group (d : Byte) : fromHex [0x78, d] false = .ok [] := by
  have hdigit : fromHexDigit 0x78 = none := by decide
  simp [fromHex, fromHexLoop, hdigit, badHex]

section Loop

variable {p s : Bytes} {c d : Byte} {fuel : Nat}

/-- At a group the loop takes the first byte of nothing. -/
theorem unescapeLoop_group (hp : p.length + 3 < 2 ^ 32) (hs : 2 ≤ s.length)
    (ss : Bytes) :
    unescapeLoop (p ++ 0x5c :: 0x78 :: s) (fuel + 1) p.length ss =
      .error .outOfRange := by
  obtain ⟨d, e, s, rfl⟩ : ∃ d e t, s = d :: e :: t := by
    rcases s with _ | ⟨d, _ | ⟨e, t⟩⟩
    · exact absurd hs (by decide)
    · exact absurd hs (by simp)
    · exact ⟨d, e, t, rfl⟩
  have hnext := toUnsigned_of_lt (n := p.length + 1) (by omega)
  have hlast := toUnsigned_of_lt (n := p.length + 1 + 2) (by omega)
  have hgroup : (p ++ 0x5c :: 0x78 :: d :: e :: s).drop (p.length + 1) =
      0x78 :: d :: e :: s := by simp
  have hc : (p ++ 0x5c :: 0x78 :: d :: e :: s).getD p.length 0 = 0x5c := by simp
  have hx : (p ++ 0x5c :: 0x78 :: d :: e :: s).getD (p.length + 1) 0 = 0x78 := by
    simp
  have hlength : (p ++ 0x5c :: 0x78 :: d :: e :: s).length =
      p.length + 4 + s.length := by
    simp only [List.length_append, List.length_cons]
    omega
  rw [unescapeLoop, if_pos (by omega), hnext, if_pos ⟨hc, by omega⟩]
  simp only [hlast, hgroup]
  rw [if_pos ⟨hx, by omega⟩]
  show (fromHex [0x78, d] false >>= _) = _
  rw [fromHex_group]
  rfl

theorem unescapeLoop_end (p ss : Bytes) :
    unescapeLoop p (fuel + 1) p.length ss = .ok ss := by
  rw [unescapeLoop, if_neg (lt_irrefl _)]

theorem unescapeLoop_plain (hp : p.length + 1 < 2 ^ 32) (hc : c ≠ 0x5c)
    (ss : Bytes) :
    unescapeLoop (p ++ c :: s) (fuel + 1) p.length ss =
      unescapeLoop ((p ++ [c]) ++ s) fuel (p ++ [c]).length (ss ++ [c]) := by
  have hnext := toUnsigned_of_lt (n := p.length + 1) hp
  have hget : (p ++ c :: s).getD p.length 0 = c := by simp
  have hin : p.length < (p ++ c :: s).length := by simp
  rw [unescapeLoop, if_pos hin, hget, if_neg (fun h => hc h.1), if_pos hc, hnext,
    List.append_assoc, List.singleton_append, List.length_append]
  rfl

/-- A backslash and what it escapes, at the end nothing, are left out. -/
theorem unescapeLoop_skip (hp : p.length + 3 + s.length < 2 ^ 32)
    (hgroup : ¬ (d = 0x78 ∧ 2 ≤ s.length)) (ss : Bytes) :
    unescapeLoop (p ++ 0x5c :: d :: s) (fuel + 1) p.length ss =
      unescapeLoop ((p ++ [0x5c, d]) ++ s) fuel (p ++ [0x5c, d]).length ss := by
  have hnext := toUnsigned_of_lt (n := p.length + 1) (by omega)
  have hafter := toUnsigned_of_lt (n := p.length + 1 + 1) (by omega)
  have hlast := toUnsigned_of_lt (n := p.length + 1 + 2) (by omega)
  have hc : (p ++ 0x5c :: d :: s).getD p.length 0 = 0x5c := by simp
  have hd : (p ++ 0x5c :: d :: s).getD (p.length + 1) 0 = d := by simp
  have hlength : (p ++ 0x5c :: d :: s).length = p.length + 2 + s.length := by
    simp only [List.length_append, List.length_cons]
    omega
  have hnot : ¬ (d = 0x78 ∧ p.length + 1 + 2 < p.length + 2 + s.length) :=
    fun h => hgroup ⟨h.1, by omega⟩
  rw [unescapeLoop, hlength, if_pos (by omega), hnext, if_pos ⟨hc, by omega⟩]
  simp only [hd, hlast, hafter, if_neg hnot]
  rw [List.append_assoc, List.length_append]
  rfl

theorem unescapeLoop_last (hp : p.length + 1 < 2 ^ 32) (ss : Bytes) :
    unescapeLoop (p ++ [0x5c]) (fuel + 2) p.length ss = .ok ss := by
  have hnext := toUnsigned_of_lt (n := p.length + 1) hp
  have hc : (p ++ [0x5c]).getD p.length 0 = 0x5c := by simp
  have hlength : (p ++ [0x5c]).length = p.length + 1 := by simp
  rw [unescapeLoop, hlength, if_pos (by omega), hnext,
    if_neg (fun h => lt_irrefl _ h.2), hc, if_neg (by decide), ← hlength,
    unescapeLoop_end]

/-- The loop over what is left of a text. -/
theorem unescapeLoop_eq (hlt : (p ++ s).length + 1 < 2 ^ 32) (ss : Bytes)
    (hfuel : s.length < fuel) :
    unescapeLoop (p ++ s) fuel p.length ss =
      (readEscapes s).map (ss ++ ·) := by
  induction s using readEscapes.induct generalizing p ss fuel with
  | case1 =>
      obtain ⟨fuel, rfl⟩ := Nat.exists_eq_succ_of_ne_zero hfuel.ne'
      rw [List.append_nil, unescapeLoop_end, readEscapes, Except.map,
        List.append_nil]
  | case2 c =>
      obtain ⟨fuel, rfl⟩ := Nat.exists_eq_add_of_lt hfuel
      simp only [List.length_append, List.length_singleton] at hlt
      by_cases hc : c = 0x5c
      · rw [hc, List.length_singleton, Nat.add_comm 1 fuel,
          unescapeLoop_last (by omega), readEscapes, if_pos rfl, Except.map,
          List.append_nil]
      · rw [List.length_singleton, Nat.add_comm 1 fuel,
          unescapeLoop_plain (by omega) hc, List.append_nil, unescapeLoop_end,
          readEscapes, if_neg hc]
        rfl
  | case3 d s hgroup =>
      obtain ⟨fuel, rfl⟩ := Nat.exists_eq_add_of_lt hfuel
      obtain ⟨rfl, hs⟩ := hgroup
      simp only [List.length_append, List.length_cons] at hlt
      rw [readEscapes, if_pos rfl, if_pos ⟨rfl, hs⟩,
        unescapeLoop_group (by omega) hs]
      rfl
  | case4 d s hgroup ih =>
      obtain ⟨fuel, rfl⟩ := Nat.exists_eq_add_of_lt hfuel
      simp only [List.length_append, List.length_cons] at hlt
      rw [readEscapes, if_pos rfl, if_neg hgroup, unescapeLoop_skip (by omega)
        hgroup]
      refine ih ?_ ss (by rw [List.length_cons, List.length_cons]; omega)
      simp only [List.length_append, List.length_cons, List.length_nil]
      omega
  | case5 c d s hc ih =>
      obtain ⟨fuel, rfl⟩ := Nat.exists_eq_add_of_lt hfuel
      simp only [List.length_append, List.length_cons] at hlt
      rw [readEscapes, if_neg hc, unescapeLoop_plain (by omega) hc, ih ?_ _
        (by simp only [List.length_cons]; omega)]
      · cases readEscapes (d :: s) with
        | error e => rfl
        | ok b => simp [Except.map]
      · simp only [List.length_append, List.length_cons, List.length_nil]
        omega

end Loop

/-- What the tool makes of a text. -/
theorem unescape_eq {s : Bytes} (h : s.length + 1 < 2 ^ 32) :
    unescape s = readEscapes s := by
  have hloop := unescapeLoop_eq (p := []) (s := s) h [] (Nat.lt_succ_self _)
  rw [List.nil_append] at hloop
  rw [unescape, ← List.length_nil, hloop]
  cases readEscapes s <;> rfl

theorem unquoted_escaped (ss : Bytes) (all : Bool) :
    unquoted (escaped ss all) = ss.flatMap (escapedChar all) := by
  simp [unquoted, escaped, ascii]

/-- The escapes that `escaped` writes for every character are all groups: the
tool reads back what was escaped so if and only if there was nothing. -/
theorem unescape_escaped_iff (ss : Bytes) :
    unescape (unquoted (escaped ss true)) = .ok ss ↔ ss = [] := by
  constructor
  · intro h
    cases ss with
    | nil => rfl
    | cons c ss =>
        have hchar : escapedChar true c = 0x5c :: 0x78 ::
            [hexDigit (c.toNat / 16), hexDigit (c.toNat % 16)] := by
          simp [escapedChar, ascii]
        rw [unescape, unquoted_escaped, List.flatMap_cons, hchar] at h
        have hgroup : Except.error Exception.outOfRange = .ok (c :: ss) :=
          (unescapeLoop_group (p := []) (by decide) (by simp) []).symm.trans h
        cases hgroup
  · rintro rfl
    decide

/-- The escaped text of `A`. -/
theorem not_unescape_escaped :
    unquoted (escaped (ascii "A") true) = ascii "\\x41" ∧
      unescape (unquoted (escaped (ascii "A") true)) = .error .outOfRange ∧
      unescape (unquoted (escaped (ascii "A") true)) ≠ .ok (ascii "A") := by
  decide

/-! The texts in which only some characters are escaped. -/

section Pretty

variable {s b : Bytes} {c : Byte}

theorem readEscapes_plain (hc : c ≠ 0x5c) (s : Bytes) :
    readEscapes (c :: s) = (readEscapes s).map (c :: ·) := by
  cases s with
  | nil => simp [readEscapes, hc, Except.map]
  | cons d s =>
      rw [readEscapes, if_neg hc]
      cases readEscapes (d :: s) <;> rfl

/-- A character is written as it is, as an escape that is left out, or as a
group. -/
theorem escapedChar_cases (c : Byte) :
    c ≠ 0x5c ∧ escapedChar false c = [c] ∨
      (∃ d, d ≠ 0x78 ∧ escapedChar false c = [0x5c, d]) ∨
      ∃ d e, escapedChar false c = [0x5c, 0x78, d, e] := by
  by_cases hquote : c = 0x22
  · exact .inr (.inl ⟨0x22, by decide, by simp [escapedChar, hquote, ascii]⟩)
  by_cases hslash : c = 0x5c
  · exact .inr (.inl ⟨0x5c, by decide, by simp [escapedChar, hslash, ascii]⟩)
  cases hpretty : prettyEscape c with
  | some d =>
      have hd : d ≠ 0x78 := by
        rintro rfl
        revert hpretty
        simp only [prettyEscape]
        split_ifs <;> decide
      refine .inr (.inl ⟨d, hd, ?_⟩)
      simp [escapedChar, hquote, hslash, hpretty, ascii]
  | none =>
      by_cases hlow : c < 0x20 ∨ 0x80 ≤ c
      · refine .inr (.inr ⟨hexDigit (c.toNat / 16), hexDigit (c.toNat % 16),
          ?_⟩)
        simp [escapedChar, hquote, hslash, hpretty, hlow, ascii]
      · refine .inl ⟨hslash, ?_⟩
        simp [escapedChar, hquote, hslash, hpretty, hlow]

/-- Nothing is read for an escaped character. -/
theorem length_of_readEscapes {ss : Bytes}
    (h : readEscapes (ss.flatMap (escapedChar false)) = .ok b) :
    b.length ≤ ss.length ∧
      (b.length = ss.length → ∀ c ∈ ss, escapedChar false c = [c]) := by
  induction ss generalizing b with
  | nil =>
      obtain rfl : [] = b := Except.ok.inj h
      exact ⟨le_rfl, fun _ c hc => absurd hc List.not_mem_nil⟩
  | cons c ss ih =>
      rw [List.flatMap_cons] at h
      rcases escapedChar_cases c with ⟨hc, hchar⟩ | ⟨d, hd, hchar⟩ |
        ⟨d, e, hchar⟩
      · rw [hchar, List.singleton_append, readEscapes_plain hc] at h
        cases hread : readEscapes (ss.flatMap (escapedChar false)) with
        | error e =>
            rw [hread] at h
            cases h
        | ok b' =>
            rw [hread] at h
            obtain rfl : c :: b' = b := Except.ok.inj h
            obtain ⟨hle, hplain⟩ := ih hread
            refine ⟨Nat.succ_le_succ hle, fun hlength => ?_⟩
            exact List.forall_mem_cons.2
              ⟨hchar, hplain (Nat.succ.inj hlength)⟩
      · have hskip : ¬ (d = 0x78 ∧ 2 ≤
            (ss.flatMap (escapedChar false)).length) := fun h => hd h.1
        rw [hchar, List.cons_append, List.singleton_append, readEscapes,
          if_pos rfl, if_neg hskip] at h
        obtain ⟨hle, -⟩ := ih h
        rw [List.length_cons]
        exact ⟨by omega, fun hlength => by omega⟩
      · rw [hchar] at h
        simp [readEscapes] at h

theorem readEscapes_escaped_plain {ss : Bytes}
    (h : ∀ c ∈ ss, escapedChar false c = [c]) :
    readEscapes (ss.flatMap (escapedChar false)) = .ok ss := by
  induction ss with
  | nil => rfl
  | cons c ss ih =>
      obtain ⟨hchar, hplain⟩ := List.forall_mem_cons.1 h
      have hc : c ≠ 0x5c := by
        rintro rfl
        revert hchar
        decide
      rw [List.flatMap_cons, hchar, List.singleton_append,
        readEscapes_plain hc, ih hplain]
      rfl

/-- The tool reads back what is escaped by default if and only if no character
of it is. -/
theorem unescape_escaped_default_iff {ss : Bytes}
    (h : (unquoted (escaped ss false)).length + 1 < 2 ^ 32) :
    unescape (unquoted (escaped ss false)) = .ok ss ↔
      ∀ c ∈ ss, escapedChar false c = [c] := by
  rw [unescape_eq h, unquoted_escaped]
  exact ⟨fun hread => (length_of_readEscapes hread).2 rfl,
    readEscapes_escaped_plain⟩

end Pretty

end Web3Core
