/-
The key derivation of ECIES beside the concatenation of hashes under a counter
that it stands for.  The counter carries as a number of four bytes does; the
number of hashes is computed for blocks of 64 bytes, while a hash has 32, and
what is missing is filled up with zeros.
-/
import Web3Core.CryptoPP

namespace Web3Core

/-! Blocks of one length, one after the other. -/

section Blocks

variable {α : Type}

/-- The first `n` blocks. -/
def blocks (block : Nat → List α) (n : Nat) : List α :=
  (List.range n).flatMap block

variable {block : Nat → List α} {size : Nat}

theorem blocks_succ (block : Nat → List α) (n : Nat) :
    blocks block (n + 1) = block 0 ++ blocks (fun i => block (i + 1)) n := by
  rw [blocks, List.range_succ_eq_map, List.flatMap_cons, List.flatMap_map]
  rfl

theorem length_blocks (hsize : ∀ i, (block i).length = size) (n : Nat) :
    (blocks block n).length = size * n := by
  induction n generalizing block with
  | zero => rfl
  | succ n ih =>
      rw [blocks_succ, List.length_append, hsize,
        ih fun i => hsize (i + 1), Nat.mul_succ, Nat.add_comm]

theorem blocks_add (block : Nat → List α) (m n : Nat) :
    blocks block (m + n) =
      blocks block m ++ blocks (fun i => block (m + i)) n := by
  rw [blocks, List.range_add, List.flatMap_append, List.flatMap_map]
  rfl

/-- More blocks than are needed make no difference. -/
theorem take_blocks (hsize : ∀ i, (block i).length = size) {len m n : Nat}
    (hm : len ≤ size * m) (hn : len ≤ size * n) :
    (blocks block m).take len = (blocks block n).take len := by
  have hmore : ∀ {a b : Nat}, a ≤ b → len ≤ size * a →
      (blocks block b).take len = (blocks block a).take len := by
    intro a b hab ha
    obtain ⟨c, rfl⟩ := Nat.exists_eq_add_of_le hab
    rw [blocks_add, List.take_append_of_le_length]
    rwa [length_blocks hsize]
  rcases le_total m n with h | h
  · exact (hmore h hm).symm
  · exact hmore h hn

theorem blocks_replicate (x : α) (size n : Nat) :
    blocks (fun _ => List.replicate size x) n =
      List.replicate (size * n) x := by
  induction n with
  | zero => rfl
  | succ n ih =>
      rw [blocks_succ, ih, ← List.replicate_add, Nat.mul_succ, Nat.add_comm]

end Blocks

/-! The counter. -/

/-- A number in four bytes, most significant first. -/
def counter (n : Nat) : Bytes :=
  [UInt8.ofNat (n / 2 ^ 24), UInt8.ofNat (n / 2 ^ 16), UInt8.ofNat (n / 2 ^ 8),
    UInt8.ofNat n]

theorem ofNat_add_one (n : Nat) : UInt8.ofNat n + 1 = UInt8.ofNat (n + 1) := by
  rw [UInt8.ofNat_add]
  rfl

theorem ofNat_eq_zero_iff (n : Nat) : UInt8.ofNat n = 0 ↔ n % 256 = 0 := by
  rw [← UInt8.toNat_inj, UInt8.toNat_ofNat']
  rfl

/-- The carries of the loop are those of the number. -/
theorem nextCounter_counter (n : Nat) :
    nextCounter (counter n) = counter (n + 1) := by
  simp only [nextCounter, counter, ofNat_add_one, ne_eq, ofNat_eq_zero_iff]
  -- The first byte from the right that does not come back to zero takes the
  -- carry.
  by_cases h₀ : (n + 1) % 256 = 0
  · have e₀ : (n + 1) / 2 ^ 8 = n / 2 ^ 8 + 1 := by omega
    by_cases h₁ : (n / 2 ^ 8 + 1) % 256 = 0
    · have e₁ : (n + 1) / 2 ^ 16 = n / 2 ^ 16 + 1 := by omega
      by_cases h₂ : (n / 2 ^ 16 + 1) % 256 = 0
      · have e₂ : (n + 1) / 2 ^ 24 = n / 2 ^ 24 + 1 := by omega
        rw [if_neg (not_not.2 h₀), if_neg (not_not.2 h₁), if_neg (not_not.2 h₂),
          e₀, e₁, e₂]
      · have e₂ : (n + 1) / 2 ^ 24 = n / 2 ^ 24 := by omega
        rw [if_neg (not_not.2 h₀), if_neg (not_not.2 h₁), if_pos h₂, e₀, e₁, e₂]
    · have e₁ : (n + 1) / 2 ^ 16 = n / 2 ^ 16 := by omega
      have e₂ : (n + 1) / 2 ^ 24 = n / 2 ^ 24 := by omega
      rw [if_neg (not_not.2 h₀), if_pos h₁, e₀, e₁, e₂]
  · have e₀ : (n + 1) / 2 ^ 8 = n / 2 ^ 8 := by omega
    have e₁ : (n + 1) / 2 ^ 16 = n / 2 ^ 16 := by omega
    have e₂ : (n + 1) / 2 ^ 24 = n / 2 ^ 24 := by omega
    rw [if_pos h₀, e₀, e₁, e₂]

section Derivation

variable (sha256 : Bytes → H256) (z : H256) (s1 : Bytes)

/-- The hash under the `i`-th counter, which starts from one. -/
def kdfBlock (i : Nat) : Bytes := (sha256 (counter (i + 1) ++ z.data ++ s1)).data

/-- The first `len` bytes of the hashes under the counters 1, 2, 3 and so on,
one after the other. -/
def concatenationKDF (len : Nat) : Bytes :=
  (blocks (kdfBlock sha256 z s1) len).take len

theorem length_kdfBlock (i : Nat) : (kdfBlock sha256 z s1 i).length = 32 :=
  (sha256 _).size_data

theorem kdfLoop_eq (rounds n : Nat) (k : Bytes) :
    kdfLoop sha256 z s1 rounds (counter (n + 1)) k =
      k ++ blocks (fun i => kdfBlock sha256 z s1 (n + i)) rounds := by
  induction rounds generalizing n k with
  | zero => exact (List.append_nil k).symm
  | succ rounds ih =>
      have hshift : (fun i => kdfBlock sha256 z s1 (n + (i + 1))) =
          fun i => kdfBlock sha256 z s1 (n + 1 + i) := by
        funext i
        rw [Nat.add_right_comm, Nat.add_assoc]
      rw [kdfLoop, nextCounter_counter, ih, blocks_succ, hshift,
        List.append_assoc]
      rfl

/-- The rounds that the loop of `eciesKDF` takes. -/
def kdfRounds (len : Nat) : Nat := (len + 7) % 2 ^ 29 / 64 + 1

theorem eciesKDF_eq (len : Nat) :
    eciesKDF sha256 z s1 len =
      resized (blocks (kdfBlock sha256 z s1) (kdfRounds len)) len := by
  have hrounds : toUnsigned (toUnsigned (len + 7 : Nat) * 8 : Nat) / (64 * 8) +
      1 = kdfRounds len := by
    rw [toUnsigned, toUnsigned, kdfRounds]
    omega
  have hloop := kdfLoop_eq sha256 z s1 (kdfRounds len) 0 []
  simp only [Nat.zero_add, List.nil_append] at hloop
  rw [eciesKDF, hrounds, ← hloop]
  rfl

/-- The lengths for which there are hashes enough. -/
theorem kdfRounds_enough_iff (len : Nat) :
    len ≤ 32 * kdfRounds len ↔ len ≤ 32 ∨ 57 ≤ len ∧ len ≤ 64 := by
  rw [kdfRounds]
  omega

variable {len len' : Nat}

theorem eciesKDF_of_enough (h : len ≤ 32 * kdfRounds len) :
    eciesKDF sha256 z s1 len = concatenationKDF sha256 z s1 len := by
  have hsize := length_kdfBlock sha256 z s1
  have hfill : len - 32 * kdfRounds len = 0 := Nat.sub_eq_zero_of_le h
  rw [eciesKDF_eq, resized, length_blocks hsize, hfill, List.replicate_zero,
    List.append_nil, concatenationKDF]
  exact take_blocks hsize h (by omega)

/-- A key is the beginning of any longer one. -/
theorem concatenationKDF_prefix (h : len ≤ len') :
    concatenationKDF sha256 z s1 len <+: concatenationKDF sha256 z s1 len' := by
  have hsame : (blocks (kdfBlock sha256 z s1) len).take len =
      (blocks (kdfBlock sha256 z s1) len').take len :=
    take_blocks (length_kdfBlock sha256 z s1) (by omega) (by omega)
  rw [concatenationKDF, concatenationKDF, hsame]
  exact List.take_prefix_take_left h

/-- A function that makes a hash of equal bytes of everything. -/
def constantHash (x : Byte) (_ : Bytes) : H256 :=
  ⟨List.replicate 32 x, List.length_replicate⟩

/-- With such hashes the key has no other bytes. -/
theorem concatenationKDF_constantHash (x : Byte) (len : Nat) :
    concatenationKDF (constantHash x) z s1 len = List.replicate len x := by
  have hblock : kdfBlock (constantHash x) z s1 =
      fun _ => List.replicate 32 x := rfl
  rw [concatenationKDF, hblock, blocks_replicate, List.take_replicate]
  congr 1
  omega

/-- Behind the last hash the bytes are zero. -/
theorem getElem?_eciesKDF_of_not_enough (h : 32 * kdfRounds len < len) :
    (eciesKDF sha256 z s1 len)[32 * kdfRounds len]? = some 0 := by
  have hlength := length_blocks (length_kdfBlock sha256 z s1) (kdfRounds len)
  have htake : (blocks (kdfBlock sha256 z s1) (kdfRounds len)).take len =
      blocks (kdfBlock sha256 z s1) (kdfRounds len) :=
    List.take_of_length_le (by omega)
  rw [eciesKDF_eq, resized, htake,
    List.getElem?_append_right hlength.le, hlength, Nat.sub_self,
    List.getElem?_replicate_of_lt (by omega)]

variable (len)

/-- The code makes the concatenated hashes of a length, for any hash function,
if and only if it makes enough of them; then no byte of the key is the same for
all hash functions, and the key is the beginning of any longer one. -/
theorem eciesKDF_iff :
    ((∀ sha256, eciesKDF sha256 z s1 len = concatenationKDF sha256 z s1 len) ↔
        len ≤ 32 ∨ 57 ≤ len ∧ len ≤ 64) ∧
      ((∀ i < len, ∃ sha256 sha256', (eciesKDF sha256 z s1 len)[i]? ≠
          (eciesKDF sha256' z s1 len)[i]?) ↔
        len ≤ 32 ∨ 57 ≤ len ∧ len ≤ 64) ∧
      ∀ sha256 len', (len ≤ 32 ∨ 57 ≤ len ∧ len ≤ 64) →
        (len' ≤ 32 ∨ 57 ≤ len' ∧ len' ≤ 64) → len ≤ len' →
          eciesKDF sha256 z s1 len <+: eciesKDF sha256 z s1 len' := by
  have hones : ∀ {i}, i < len →
      (concatenationKDF (constantHash 1) z s1 len)[i]? = some 1 := by
    intro i hi
    rw [concatenationKDF_constantHash, List.getElem?_replicate_of_lt hi]
  refine ⟨⟨fun h => ?_, fun h sha256 => ?_⟩, ⟨fun h => ?_, fun h i hi => ?_⟩,
    fun sha256 len' h h' hle => ?_⟩
  · -- A hash function that makes no zeros shows the padding.
    by_contra hshort
    have hlt := not_le.1 (mt (kdfRounds_enough_iff len).1 hshort)
    have hzero := getElem?_eciesKDF_of_not_enough (constantHash 1) z s1 hlt
    rw [h, hones hlt, Option.some_inj] at hzero
    exact absurd hzero (by decide)
  · exact eciesKDF_of_enough sha256 z s1 ((kdfRounds_enough_iff len).2 h)
  · by_contra hshort
    have hlt := not_le.1 (mt (kdfRounds_enough_iff len).1 hshort)
    obtain ⟨sha256, sha256', hne⟩ := h _ hlt
    rw [getElem?_eciesKDF_of_not_enough sha256 z s1 hlt,
      getElem?_eciesKDF_of_not_enough sha256' z s1 hlt] at hne
    exact hne rfl
  · have hsame := fun sha256 => eciesKDF_of_enough sha256 z s1
      ((kdfRounds_enough_iff len).2 h)
    refine ⟨constantHash 1, constantHash 0, ?_⟩
    rw [hsame, hsame, hones hi, concatenationKDF_constantHash,
      List.getElem?_replicate_of_lt hi]
    decide
  · rw [eciesKDF_of_enough sha256 z s1 ((kdfRounds_enough_iff len).2 h),
      eciesKDF_of_enough sha256 z s1 ((kdfRounds_enough_iff len').2 h')]
    exact concatenationKDF_prefix sha256 z s1 hle

end Derivation

/-- A key of 48 bytes ends in 16 zeros, also where no hash has any, and it is
not the beginning of the key of 64 bytes. -/
theorem not_concatenationKDF :
    eciesKDF (constantHash 1) (FixedHash.zero 32) [] 48 ≠
        concatenationKDF (constantHash 1) (FixedHash.zero 32) [] 48 ∧
      (eciesKDF (constantHash 1) (FixedHash.zero 32) [] 48).drop 32 =
        List.replicate 16 0 ∧
      ¬ eciesKDF (constantHash 1) (FixedHash.zero 32) [] 48 <+:
        eciesKDF (constantHash 1) (FixedHash.zero 32) [] 64 := by
  decide +kernel

end Web3Core
