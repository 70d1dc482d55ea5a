/-
The hex-prefix code as one code: whatever call of an encoder is asked for a word
of nibbles, the bytes are the same, the word and its marks can be read back from
them, and no other word or mark has them.
-/
import Web3Core.TrieBulk

namespace Web3Core

open Nibble (toByte)

/-- The calls of the three encoders. -/
inductive HexPrefixCall where
  | vector (hexVector : Bytes) (first last : Int)
  | slice (s : NibbleSlice) (first last : Int)
  | join (s₁ s₂ : NibbleSlice)

namespace HexPrefixCall

/-- What the call computes. -/
def run (leaf : Bool) : HexPrefixCall → Except Exception Bytes
  | vector hexVector first last => hexPrefixEncode hexVector leaf first last
  | slice s first last => hexPrefixEncodeSlice s leaf first last
  | join s₁ s₂ => hexPrefixEncodeJoin s₁ s₂ leaf

/-- The call asks for the code of the word `ns`. -/
def Asks : HexPrefixCall → List Nibble → Prop
  | vector hexVector first last, ns =>
      ∃ w : List Nibble, hexVector = w.map toByte ∧ PartOf w first last ns
  | slice s first last, ns =>
      s.offset ≤ s.data.length * 2 ∧ PartOf s.word first last ns
  | join s₁ s₂, ns =>
      s₁.offset ≤ s₁.data.length * 2 ∧ s₂.offset ≤ s₂.data.length * 2 ∧
        ns = s₁.word ++ s₂.word

/-- The counters of the encoders hold the sizes: an `unsigned` the number of
nibbles, and an `int` the size of a slice whose end is counted from its end. -/
def Fits : HexPrefixCall → Prop
  | vector hexVector _ _ => hexVector.length < 2 ^ 32
  | slice s _ last => s.data.length < 2 ^ 31 ∧
      (last < 0 → s.data.length * 2 - s.offset < 2 ^ 31 - 1)
  | join s₁ s₂ => s₁.data.length < 2 ^ 31 ∧ s₂.data.length < 2 ^ 31

variable {c : HexPrefixCall} {ns : List Nibble}

/-- Every call writes the hex-prefix notation of the word it is asked for. -/
theorem run_eq (hasks : c.Asks ns) (hfits : c.Fits) (leaf : Bool) :
    c.run leaf = .ok (hexPrefix leaf ns) := by
  cases c with
  | vector hexVector first last =>
      obtain ⟨w, rfl, hpart⟩ := hasks
      have hshort : w.length < 2 ^ 32 := by
        rwa [Fits, List.length_map] at hfits
      exact hexPrefixEncode_eq leaf hpart hshort
  | slice s first last =>
      obtain ⟨hoffset, hpart⟩ := hasks
      exact hexPrefixEncodeSlice_eq leaf hoffset hpart hfits.1 hfits.2
  | join s₁ s₂ =>
      obtain ⟨hoffset₁, hoffset₂, rfl⟩ := hasks
      exact hexPrefixEncodeJoin_eq leaf hoffset₁ hoffset₂ hfits.1 hfits.2

/-- The key of the code has the size and the nibbles of the word. -/
theorem keyOfHexPrefix_get (leaf : Bool) (hshort : ns.length + 2 ≤ 2 ^ 32) :
    (keyOfHexPrefix (hexPrefix leaf ns)).size = ns.length ∧
      ∀ (i : Nat) (n : Nibble), ns[i]? = some n →
        (keyOfHexPrefix (hexPrefix leaf ns)).get i = .ok n.toByte := by
  obtain ⟨hword, -, hoffset, hlength⟩ := keyOfHexPrefix_word leaf ns
  generalize keyOfHexPrefix (hexPrefix leaf ns) = s at hword hoffset hlength ⊢
  constructor
  · rw [NibbleSlice.size, toUnsigned]
    omega
  · intro i n hi
    have hlt : i < ns.length := (List.getElem?_eq_some_iff.1 hi).1
    rw [NibbleSlice.get, ← Nat.cast_add, toUnsigned_of_lt (by omega)]
    refine NibbleSlice.nibble_eq ?_
    rw [← List.getElem?_drop, ← NibbleSlice.word, hword, hi]

/-- **The hex-prefix code.**  All calls that ask for a word write the same
bytes; the word and its marks are read back from them, and no call for another
word or mark writes them. -/
theorem exists_code (hasks : c.Asks ns) (hfits : c.Fits)
    (hshort : ns.length + 2 ≤ 2 ^ 32) (leaf : Bool) :
    ∃ code, c.run leaf = .ok code ∧
      (∀ c' : HexPrefixCall, c'.Asks ns → c'.Fits → c'.run leaf = .ok code) ∧
      (keyOfHexPrefix code).size = ns.length ∧
      (∀ (i : Nat) (n : Nibble), ns[i]? = some n →
        (keyOfHexPrefix code).get i = .ok n.toByte) ∧
      (∃ x rest, code = x :: rest ∧ (x &&& 0x20 != 0) = leaf ∧
        (x &&& 0x10 ≠ 0 ↔ ns.length % 2 = 1)) ∧
      ∀ (c' : HexPrefixCall) (ns' : List Nibble) (leaf' : Bool),
        c'.Asks ns' → c'.Fits → c'.run leaf' = .ok code →
          ns' = ns ∧ leaf' = leaf := by
  obtain ⟨hsize, hget⟩ := keyOfHexPrefix_get leaf hshort
  refine ⟨hexPrefix leaf ns, run_eq hasks hfits leaf,
    fun c' hasks' hfits' => run_eq hasks' hfits' leaf, hsize, hget,
    exists_hexPrefix_marks leaf ns, fun c' ns' leaf' hasks' hfits' hrun => ?_⟩
  rw [run_eq hasks' hfits', Except.ok.injEq] at hrun
  obtain ⟨hleaf, hns⟩ := hexPrefix_inj hrun
  exact ⟨hns, hleaf⟩

/-- The second to the last but one nibble of a slice that starts at an odd
one. -/
theorem exists_code_slice :
    ∃ code, (slice ⟨[0x12, 0x34], 1⟩ 1 (-2)).run true = .ok code ∧
      (∀ c' : HexPrefixCall, c'.Asks [3] → c'.Fits →
        c'.run true = .ok code) ∧
      (keyOfHexPrefix code).size = 1 ∧
      (∀ (i : Nat) (n : Nibble), [3][i]? = some n →
        (keyOfHexPrefix code).get i = .ok n.toByte) ∧
      (∃ x rest, code = x :: rest ∧ (x &&& 0x20 != 0) = true ∧
        (x &&& 0x10 ≠ 0 ↔ [(3 : Nibble)].length % 2 = 1)) ∧
      ∀ (c' : HexPrefixCall) (ns' : List Nibble) (leaf' : Bool),
        c'.Asks ns' → c'.Fits → c'.run leaf' = .ok code →
          ns' = [3] ∧ leaf' = true := by
  have hasks : (slice ⟨[0x12, 0x34], 1⟩ 1 (-2)).Asks [3] :=
    ⟨by decide, 1, 2, rfl, by decide, by decide, by decide, by decide⟩
  have hfits : (slice ⟨[0x12, 0x34], 1⟩ 1 (-2)).Fits :=
    ⟨by decide, fun _ => by decide⟩
  exact exists_code hasks hfits (by decide) true

theorem nibbles_replicate (n : Nat) :
    nibbles (List.replicate n 0) = List.replicate (2 * n) 0 := by
  induction n with
  | zero => rfl
  | succ n ih =>
      rw [List.replicate_succ, nibbles, ih, Nat.mul_succ, List.replicate_succ,
        List.replicate_succ]
      rfl

/-- The size of a slice of 2^31 - 1 nibbles is an `int`, but not with the one
that is added to it. -/
theorem run_slice_overflow {k : Bytes} (hk : k.length = 2 ^ 30) (leaf : Bool) :
    (slice ⟨k, 1⟩ 0 (-1)).run leaf = .error .intOverflow := by
  have hint : toInt ((2 ^ 30 : Nat) * 2 - (1 : Nat)) = 2 ^ 31 - 1 := by decide
  have hone : addInt (2 ^ 31 - 1) 1 = .error .intOverflow := by decide
  rw [run, hexPrefixEncodeSlice, hexPrefixEncodeRange, if_pos (by decide)]
  simp only [hk, hint, hone]
  rfl

theorem asks_slice_replicate {n size : Nat} (hn : 0 < n)
    (hsize : 2 * n - 1 = size) :
    (slice ⟨List.replicate n 0, 1⟩ 0 (-1)).Asks (List.replicate size 0) := by
  have hword : NibbleSlice.word ⟨List.replicate n 0, 1⟩ =
      List.replicate size 0 := by
    rw [NibbleSlice.word, nibbles_replicate, List.drop_replicate, hsize]
  refine ⟨?_, 0, size, rfl, ?_, Nat.zero_le _, ?_, ?_⟩
  · simp only [List.length_replicate]
    omega
  · rw [hword, List.length_replicate, if_pos (by decide),
      Int.add_neg_cancel_right]
  · rw [hword, List.length_replicate]
  · rw [hword, List.drop_zero, List.take_replicate, Nat.min_self]

/-- A slice of 2^31 - 1 nibbles, up to its end. -/
theorem not_exists_code :
    (slice ⟨List.replicate (2 ^ 30) 0, 1⟩ 0 (-1)).Asks
        (List.replicate (2 ^ 31 - 1) 0) ∧
      (slice ⟨List.replicate (2 ^ 30) 0, 1⟩ 0 (-1)).run false =
        .error .intOverflow :=
  ⟨asks_slice_replicate (by decide) (by decide),
    run_slice_overflow List.length_replicate false⟩

end HexPrefixCall

end Web3Core
