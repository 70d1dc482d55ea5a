/-
The Bloom filters of `FixedHash.h`.  A filter is a hash, too; of a hash that is
added a few groups of bytes tell which bits are set.
-/
import Web3Core.FixedHashImage

namespace Web3Core

namespace FixedHash

variable {M N : Nat}

/-- `contains`. -/
def contains (a c : FixedHash N) : Bool := equals (andWith a c) c

/-- `c_bloomBits`. -/
def bloomBits (M : Nat) : Nat := toUnsigned (M * 8 : Nat)

/-- `c_bloomBytes`; `StaticLog2` is the binary logarithm. -/
def bloomBytes (M : Nat) : Nat := (Nat.log2 (bloomBits M) + 7) / 8

/-- The index in round `i` of the loop of `bloomPart`. -/
def bloomIndex (M : Nat) (h : FixedHash N) (i : Nat) : Nat :=
  ((h.data.drop (i * bloomBytes M)).take (bloomBytes M)).foldl
    (fun index x => toUnsigned (index <<< 8 : Nat) ||| x.toNat) 0 &&&
      (bloomBits M - 1)

/-- `ret[M - 1 - index / 8] |= (1 << (index % 8))`. -/
def setBit (ret : FixedHash M) (index : Nat) : FixedHash M :=
  ⟨ret.data.set (M - 1 - index / 8)
    (ret.data.getD (M - 1 - index / 8) 0 ||| UInt8.ofNat (1 <<< (index % 8))), by
    rw [List.length_set, ret.size_data]⟩

/-- `bloomPart`. -/
def bloomPart (P M : Nat) (h : FixedHash N) : FixedHash M :=
  (List.range P).foldl (fun ret i => ret.setBit (h.bloomIndex M i)) (zero M)

/-- `shiftBloom`. -/
def shiftBloom (P : Nat) (a : FixedHash M) (h : FixedHash N) : FixedHash M :=
  a.orWith (h.bloomPart P M)

/-- `containsBloom`. -/
def containsBloom (P : Nat) (a : FixedHash M) (h : FixedHash N) : Bool :=
  a.contains (h.bloomPart P M)

/-- The bits that are set, from the last one on. -/
def bits (a : FixedHash N) : Set Nat := {k | (value a).testBit k = true}

theorem bits_zero : bits (zero N) = ∅ := by
  refine Set.eq_empty_iff_forall_notMem.2 fun k hk => ?_
  have hvalue : value (zero N) = 0 := fromBigEndian_replicate_zero N
  rw [bits, Set.mem_ofPred_eq, hvalue, Nat.zero_testBit] at hk
  cases hk

theorem bits_orWith (a c : FixedHash N) : bits (orWith a c) = bits a ∪ bits c := by
  ext k
  rw [bits, Set.mem_ofPred_eq, value_orWith, Nat.testBit_or, Bool.or_eq_true]
  rfl

/-- A hash contains another one if it has its bits. -/
theorem contains_iff (a c : FixedHash N) :
    contains a c = true ↔ bits c ⊆ bits a := by
  rw [contains, equals_iff_value, value_andWith]
  constructor
  · intro hand k hk
    rw [bits, Set.mem_ofPred_eq] at hk
    rw [← hand, Nat.testBit_and, Bool.and_eq_true] at hk
    exact hk.1
  · intro hsub
    apply Nat.eq_of_testBit_eq
    intro k
    rw [Nat.testBit_and]
    rcases hc : (value c).testBit k with _ | _
    · exact Bool.and_false _
    · have ha : (value a).testBit k = true := hsub hc
      rw [ha]
      rfl

/-- The byte string of a single bit. -/
theorem fromBigEndian_set {k : Nat} (hk : k < 8 * M) :
    fromBigEndian ((List.replicate M 0).set (M - 1 - k / 8)
      (UInt8.ofNat (1 <<< (k % 8)))) = 2 ^ k := by
  have hsplit : M = (M - 1 - k / 8) + (k / 8 + 1) := by omega
  have hbyte : (UInt8.ofNat (1 <<< (k % 8))).toNat = 2 ^ (k % 8) := by
    have hlt : 2 ^ (k % 8) < 2 ^ 8 :=
      Nat.pow_lt_pow_right Nat.one_lt_two (Nat.mod_lt k (by decide))
    rw [UInt8.toNat_ofNat', Nat.one_shiftLeft]
    exact Nat.mod_eq_of_lt hlt
  have hset : (List.replicate M (0 : Byte)).set (M - 1 - k / 8)
      (UInt8.ofNat (1 <<< (k % 8))) =
        List.replicate (M - 1 - k / 8) (0 : Byte) ++
          UInt8.ofNat (1 <<< (k % 8)) :: List.replicate (k / 8) (0 : Byte) := by
    generalize hp : M - 1 - k / 8 = p at hsplit ⊢
    rw [hsplit, List.replicate_add, List.replicate_succ, List.set_append_right]
    · rw [List.length_replicate, Nat.sub_self, List.set_cons_zero]
    · exact List.length_replicate.le
  rw [hset, fromBigEndian_append, fromBigEndian_replicate_zero, Nat.zero_mul,
    Nat.zero_add, fromBigEndian_cons, fromBigEndian_replicate_zero, Nat.add_zero, hbyte,
    List.length_replicate, ← pow_bytes, ← pow_add, Nat.mod_add_div]

theorem set_or (m : Bytes) (p : Nat) (x : Byte) :
    m.set p (m.getD p 0 ||| x) =
      List.zipWith (fun x y => x ||| y) m ((List.replicate m.length 0).set p x) := by
  apply List.ext_getElem
  · simp
  · intro i hi hi'
    rw [List.length_set] at hi
    rw [List.getElem_zipWith, List.getElem_set, List.getElem_set,
      List.getElem_replicate]
    split
    · next heq =>
      subst heq
      rw [List.getD_eq_getElem _ _ hi]
    · exact UInt8.or_zero.symm

theorem value_setBit (ret : FixedHash M) {k : Nat} (hk : k < 8 * M) :
    value (setBit ret k) = value ret ||| 2 ^ k := by
  have hlength : ((List.replicate M (0 : Byte)).set (M - 1 - k / 8)
      (UInt8.ofNat (1 <<< (k % 8)))).length = M := by
    rw [List.length_set, List.length_replicate]
  have hor : setBit ret k = orWith ret ⟨_, hlength⟩ := by
    apply FixedHash.ext
    have hset := set_or ret.data (M - 1 - k / 8) (UInt8.ofNat (1 <<< (k % 8)))
    rw [ret.size_data] at hset
    exact hset
  rw [hor, value_orWith]
  exact congrArg _ (fromBigEndian_set hk)

theorem bits_setBit (ret : FixedHash M) {k : Nat} (hk : k < 8 * M) :
    bits (setBit ret k) = insert k (bits ret) := by
  ext j
  rw [bits, Set.mem_ofPred_eq, value_setBit ret hk, Nat.testBit_or, Bool.or_eq_true,
    Nat.testBit_two_pow, decide_eq_true_iff, Set.mem_insert_iff, or_comm, eq_comm]
  rfl

/-- Up to four bytes are read as a number. -/
theorem foldl_index {b : Bytes} (h : b.length ≤ 4) :
    b.foldl (fun index x => toUnsigned (index <<< 8 : Nat) ||| x.toNat) 0 =
      fromBigEndian b := by
  induction b using List.reverseRecOn with
  | nil => rfl
  | append_singleton b x ih =>
      rw [List.length_append, List.length_singleton] at h
      have hb : fromBigEndian b < 2 ^ 24 := by
        have hpow : 256 ^ b.length ≤ 256 ^ 3 :=
          Nat.pow_le_pow_right (by decide) (Nat.le_of_succ_le_succ h)
        exact (fromBigEndian_lt b).trans_le hpow
      have hx : x.toNat < 2 ^ 8 := x.toNat_lt
      have hshift : fromBigEndian b <<< 8 < 2 ^ 32 := by
        rw [Nat.shiftLeft_eq]
        omega
      rw [List.foldl_append, List.foldl_cons, List.foldl_nil, ih (Nat.le_of_succ_le h),
        toUnsigned_natCast, Nat.mod_eq_of_lt hshift, fromBigEndian_append_singleton,
        ← Nat.shiftLeft_add_eq_or_of_lt hx, Nat.shiftLeft_eq]

/-- The position that group `i` of the bytes of a hash stands for, in a filter
of `2 ^ m` bytes. -/
def bloomPosition (m : Nat) (h : FixedHash N) (i : Nat) : Nat :=
  fromBigEndian ((h.data.drop (i * ((m + 10) / 8))).take ((m + 10) / 8)) % 2 ^ (m + 3)

section Filter

variable {m : Nat} (hm : m < 29)
include hm

theorem bloomIndex_eq (h : FixedHash N) (i : Nat) :
    h.bloomIndex (2 ^ m) i = bloomPosition m h i := by
  have hpow : 2 ^ m * 8 = 2 ^ (m + 3) := (pow_add 2 m 3).symm
  have hlt : 2 ^ (m + 3) < 2 ^ 32 := Nat.pow_lt_pow_right Nat.one_lt_two (by omega)
  have hbits : bloomBits (2 ^ m) = 2 ^ (m + 3) := by
    rw [bloomBits, toUnsigned_natCast, hpow, Nat.mod_eq_of_lt hlt]
  have hbytes : bloomBytes (2 ^ m) = (m + 10) / 8 := by
    rw [bloomBytes, hbits, Nat.log2_two_pow]
  have hlength :
      ((h.data.drop (i * ((m + 10) / 8))).take ((m + 10) / 8)).length ≤ 4 := by
    rw [List.length_take]
    omega
  rw [bloomIndex, hbytes, hbits, foldl_index hlength, Nat.and_two_pow_sub_one_eq_mod]
  rfl

theorem bloomIndex_lt (h : FixedHash N) (i : Nat) :
    h.bloomIndex (2 ^ m) i < 8 * 2 ^ m := by
  have hpow : 8 * 2 ^ m = 2 ^ (m + 3) := (Nat.mul_comm _ _).trans (pow_add 2 m 3).symm
  rw [bloomIndex_eq hm, hpow]
  exact Nat.mod_lt _ (Nat.two_pow_pos _)

/-- The bits of `bloomPart` are those at the positions of its rounds. -/
theorem bits_bloomPart (P : Nat) (h : FixedHash N) :
    bits (h.bloomPart P (2 ^ m)) = {k | ∃ i < P, bloomPosition m h i = k} := by
  induction P with
  | zero =>
      rw [bloomPart, List.range_zero, List.foldl_nil, bits_zero]
      refine (Set.eq_empty_iff_forall_notMem.2 ?_).symm
      rintro k ⟨i, hi, -⟩
      exact absurd hi (Nat.not_lt_zero i)
  | succ P ih =>
      have hstep : h.bloomPart (P + 1) (2 ^ m) =
          (h.bloomPart P (2 ^ m)).setBit (h.bloomIndex (2 ^ m) P) := by
        rw [bloomPart, List.range_succ, List.foldl_append]
        rfl
      rw [hstep, bits_setBit _ (bloomIndex_lt hm h P), ih,
        bloomIndex_eq hm]
      ext k
      constructor
      · rintro (rfl | ⟨i, hi, rfl⟩)
        · exact ⟨P, Nat.lt_succ_self P, rfl⟩
        · exact ⟨i, Nat.lt_succ_of_lt hi, rfl⟩
      · rintro ⟨i, hi, rfl⟩
        rcases Nat.lt_succ_iff_lt_or_eq.1 hi with hi | rfl
        · exact .inr ⟨i, hi, rfl⟩
        · exact .inl rfl

end Filter

/-- The bits of a filter to which hashes were added. -/
theorem bits_shiftBlooms (P : Nat) (a : FixedHash M) (hs : List (FixedHash N)) :
    bits (hs.foldl (shiftBloom P) a) =
      bits a ∪ ⋃ g ∈ hs, bits (g.bloomPart P M) := by
  induction hs generalizing a with
  | nil => simp
  | cons g hs ih =>
      rw [List.foldl_cons, ih, shiftBloom, bits_orWith, Set.union_assoc]
      simp

/-- A filter of `2 ^ m` bytes contains exactly the hashes all of whose positions
are among its bits or the positions of hashes that were added; so it contains
whatever was added. -/
theorem containsBloom_iff (P m : Nat) (hm : m < 29) (a : FixedHash (2 ^ m))
    (hs : List (FixedHash N)) (h : FixedHash N) :
    (hs.foldl (shiftBloom P) a).containsBloom P h = true ↔
      ∀ i < P, (value a).testBit (bloomPosition m h i) = true ∨
        ∃ g ∈ hs, ∃ j < P, bloomPosition m g j = bloomPosition m h i := by
  have hbits : ∀ k, k ∈ bits (hs.foldl (shiftBloom P) a) ↔
      (value a).testBit k = true ∨ ∃ g ∈ hs, ∃ j < P, bloomPosition m g j = k := by
    intro k
    rw [bits_shiftBlooms, Set.mem_union, Set.mem_iUnion₂]
    simp only [bits_bloomPart hm, Set.mem_ofPred_eq, exists_prop]
    rfl
  rw [containsBloom, contains_iff, bits_bloomPart hm]
  constructor
  · intro hsub i hi
    exact (hbits _).1 (hsub ⟨i, hi, rfl⟩)
  · rintro hall _ ⟨i, hi, rfl⟩
    exact (hbits _).2 (hall i hi)

theorem containsBloom_iff_added :
    ([ofArith 4 1234, ofArith 4 77].foldl (shiftBloom 2) (zero (2 ^ 2))).containsBloom 2
      (ofArith 4 77) = true :=
  (containsBloom_iff 2 2 (by decide) (zero (2 ^ 2)) [ofArith 4 1234, ofArith 4 77]
    (ofArith 4 77)).2 (by decide)

end FixedHash

end Web3Core
