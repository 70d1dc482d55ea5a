/-
A hash of `N` bytes as an integer below `2 ^ (8 * N)`.  Every loop of the class
is an operation on the integers; what the conversions to `unsigned` take away
from widths and sizes of 2^29 and 2^32 bytes on is stated exactly.
-/
import Web3Core.BigEndian
import Web3Core.FixedHash

namespace Web3Core

namespace FixedHash

variable {N : Nat}

section Copy

theorem copyLoop_succ (N : Nat) (b : Bytes) (t : Alignment) (c : Nat) :
    copyLoop N b t (c + 1) =
      (copyLoop N b t c).set (if t = .right then N - 1 - c else c)
        (b.getD (if t = .right then b.length - 1 - c else c) 0) := by
  simp [copyLoop, List.range_succ]

/-- Aligned to the left, the bytes are cut or followed by zeros. -/
theorem copyLoop_left {b : Bytes} {t : Alignment} (ht : t ≠ .right) {c : Nat}
    (hN : c ≤ N) (hb : c ≤ b.length) :
    copyLoop N b t c = b.take c ++ List.replicate (N - c) 0 := by
  induction c with
  | zero => simp [copyLoop]
  | succ c ih =>
      have hzeros : List.replicate (N - c) (0 : Byte) =
          0 :: List.replicate (N - (c + 1)) 0 := by
        rw [← List.replicate_succ]
        congr 1
        omega
      have hget : b.getD c 0 = b[c] := List.getD_eq_getElem b 0 hb
      have hlength : (b.take c).length = c := by
        rw [List.length_take]
        omega
      rw [copyLoop_succ, ih (by omega) (by omega), if_neg ht, if_neg ht, hget,
        hzeros, List.set_append_right _ _ hlength.le, hlength, Nat.sub_self,
        List.set_cons_zero, List.take_add_one, List.getElem?_eq_getElem hb,
        List.append_assoc]
      rfl

/-- Aligned to the right, they are cut at the front or preceded by zeros. -/
theorem copyLoop_right {b : Bytes} {c : Nat} (hN : c ≤ N) (hb : c ≤ b.length) :
    copyLoop N b .right c =
      List.replicate (N - c) 0 ++ b.drop (b.length - c) := by
  induction c with
  | zero => simp [copyLoop]
  | succ c ih =>
      have hzeros : List.replicate (N - c) (0 : Byte) =
          List.replicate (N - (c + 1)) 0 ++ [0] := by
        rw [← List.replicate_succ']
        congr 1
        omega
      have hlt : b.length - (c + 1) < b.length := by omega
      have hindex : b.length - 1 - c = b.length - (c + 1) := by omega
      have hget : b.getD (b.length - 1 - c) 0 = b[b.length - (c + 1)] := by
        rw [hindex]
        exact List.getD_eq_getElem b 0 hlt
      have hplace : N - 1 - c = (List.replicate (N - (c + 1)) (0 : Byte)).length := by
        rw [List.length_replicate]
        omega
      have hdrop : b.drop (b.length - (c + 1)) =
          b[b.length - (c + 1)] :: b.drop (b.length - c) := by
        rw [List.drop_eq_getElem_cons hlt]
        congr 2
        omega
      rw [copyLoop_succ, ih (by omega) (by omega), if_pos rfl, if_pos rfl, hget,
        hzeros, List.append_assoc, hplace,
        List.set_append_right _ _ le_rfl, Nat.sub_self, hdrop]
      rfl

end Copy

/-- The integer a hash stands for. -/
def value (h : FixedHash N) : Nat := fromBigEndian h.data

theorem pow_bytes (n : Nat) : 2 ^ (8 * n) = 256 ^ n := by
  rw [pow_mul]
  norm_num

theorem value_lt (h : FixedHash N) : value h < 256 ^ N := by
  have := fromBigEndian_lt h.data
  rwa [h.size_data] at this

theorem value_inj {a c : FixedHash N} (h : value a = value c) : a = c :=
  FixedHash.ext (fromBigEndian_inj (a.size_data.trans c.size_data.symm) h)

section Arithmetic

theorem toBigEndianLoop_eq (i v : Nat) (out : Bytes) (hi : i ≤ out.length) :
    ∃ b : Bytes, b.length = i ∧ fromBigEndian b = v % 256 ^ i ∧
      toBigEndianLoop i v out = b ++ out.drop i := by
  induction i generalizing v out with
  | zero => exact ⟨[], rfl, by simp [fromBigEndian, Nat.mod_one], rfl⟩
  | succ i ih =>
      obtain ⟨b, hlength, hvalue, hloop⟩ := ih (v >>> 8)
        (out.set i (UInt8.ofNat (v &&& 0xff))) (by rw [List.length_set]; omega)
      have hand : v &&& 0xff = v % 256 := Nat.and_two_pow_sub_one_eq_mod v 8
      refine ⟨b ++ [UInt8.ofNat (v % 256)], by simp [hlength], ?_, ?_⟩
      · have hbyte : (UInt8.ofNat (v % 256)).toNat = v % 256 := by
          rw [UInt8.toNat_ofNat']
          omega
        have hshift : v >>> 8 = v / 256 := Nat.shiftRight_eq_div_pow v 8
        rw [fromBigEndian_append_singleton, hvalue, hbyte, hshift, pow_succ',
          Nat.mod_mul]
        omega
      · have hdrop : (out.set i (UInt8.ofNat (v % 256))).drop i =
            UInt8.ofNat (v % 256) :: out.drop (i + 1) := by
          rw [List.drop_eq_getElem_cons (by rw [List.length_set]; omega),
            List.getElem_set_self, List.drop_set_of_lt (by omega)]
        rw [toBigEndianLoop, hloop, hand, hdrop]
        simp

theorem value_ofArith (N v : Nat) : value (ofArith N v) = v % 256 ^ N := by
  obtain ⟨b, hlength, hvalue, hloop⟩ := toBigEndianLoop_eq N v
    (List.replicate N 0) (by simp)
  show fromBigEndian (toBigEndianLoop N v (List.replicate N 0)) = _
  rw [hloop, ← hvalue]
  simp

theorem arithBits_eq (hN : N < 2 ^ 29) : arithBits N = 8 * N := by
  rw [arithBits, toUnsigned_of_lt (by omega), Nat.mul_comm]

/-- The loop of `fromBigEndian` with a type of so many bits. -/
theorem foldl_shift_mod (b : Bytes) (k : Nat) :
    b.foldl (fun ret x => (ret <<< 8 ||| x.toNat) % 2 ^ k) 0 =
      fromBigEndian b % 2 ^ k := by
  induction b using List.reverseRecOn with
  | nil => exact (Nat.zero_mod _).symm
  | append_singleton b x ih =>
      have hor : (fromBigEndian b % 2 ^ k) <<< 8 ||| x.toNat =
          fromBigEndian b % 2 ^ k * 256 + x.toNat := by
        rw [← Nat.shiftLeft_add_eq_or_of_lt x.toNat_lt, Nat.shiftLeft_eq]
      rw [List.foldl_append, ih, List.foldl_cons, List.foldl_nil, hor,
        fromBigEndian_append_singleton, Nat.add_mod, Nat.mod_mul_mod,
        ← Nat.add_mod]

theorem toArith_eq (hN : N < 2 ^ 29) (h : FixedHash N) :
    toArith h = value h := by
  have hlt := value_lt h
  rw [← pow_bytes, ← arithBits_eq hN] at hlt
  rw [toArith, foldl_shift_mod]
  exact Nat.mod_eq_of_lt hlt

end Arithmetic

section Comparison

/-- The words of a hash of 32 bytes are its bytes. -/
theorem words_inj {a c : Bytes} (ha : a.length = 32) (hc : c.length = 32)
    (h : ∀ i < 4, word a i = word c i) : a = c := by
  have hslice : ∀ i < 4, (a.drop (8 * i)).take 8 = (c.drop (8 * i)).take 8 := by
    intro i hi
    have hlength : ((a.drop (8 * i)).take 8).reverse.length =
        ((c.drop (8 * i)).take 8).reverse.length := by
      simp only [List.length_reverse, List.length_take, List.length_drop, ha, hc]
    exact List.reverse_injective (fromBigEndian_inj hlength (h i hi))
  have hjoin : ∀ b : Bytes, b.length = 32 → b = (b.drop (8 * 0)).take 8 ++
      ((b.drop (8 * 1)).take 8 ++ ((b.drop (8 * 2)).take 8 ++
        (b.drop (8 * 3)).take 8)) := by
    intro b hb
    have hlast : (b.drop (8 * 3)).take 8 = b.drop 24 := by
      rw [List.take_of_length_le (by rw [List.length_drop]; omega)]
    have hthird : (b.drop (8 * 2)).take 8 ++ b.drop 24 = b.drop 16 := by
      have := List.take_append_drop 8 (b.drop 16)
      rwa [List.drop_drop] at this
    have hsecond : (b.drop (8 * 1)).take 8 ++ b.drop 16 = b.drop 8 := by
      have := List.take_append_drop 8 (b.drop 8)
      rwa [List.drop_drop] at this
    rw [hlast, hthird, hsecond]
    exact (List.take_append_drop 8 b).symm
  rw [hjoin a ha, hjoin c hc, hslice 0 (by omega), hslice 1 (by omega),
    hslice 2 (by omega), hslice 3 (by omega)]

theorem equals_iff (a c : FixedHash N) : equals a c = true ↔ a = c := by
  unfold equals
  split
  · rename_i hN
    simp only [Bool.and_eq_true, beq_iff_eq]
    constructor
    · rintro ⟨⟨⟨h0, h1⟩, h2⟩, h3⟩
      refine FixedHash.ext (words_inj (a.size_data.trans hN)
        (c.size_data.trans hN) fun i hi => ?_)
      interval_cases i <;> assumption
    · rintro rfl
      exact ⟨⟨⟨rfl, rfl⟩, rfl⟩, rfl⟩
  · rw [beq_iff_eq]
    exact ⟨FixedHash.ext, fun h => h ▸ rfl⟩

theorem lessLoop_iff {a c : Bytes} (h : a.length = c.length) :
    lessLoop a c = true ↔ fromBigEndian a < fromBigEndian c := by
  induction a generalizing c with
  | nil =>
      obtain rfl := List.eq_nil_of_length_eq_zero h.symm
      simp [lessLoop]
  | cons x a ih =>
      cases c with
      | nil => cases h
      | cons y c =>
          have hlength : a.length = c.length := by simpa using h
          rw [fromBigEndian_cons_lt_iff hlength, ← ih hlength, lessLoop]
          rcases lt_trichotomy x y with hlt | rfl | hgt
          · simp [hlt]
          · simp
          · have hnot : ¬ x < y := not_lt_of_gt hgt
            have hne : x ≠ y := ne_of_gt hgt
            simp [hnot, hne, hgt]

theorem less_iff (a c : FixedHash N) : less a c = true ↔ value a < value c :=
  lessLoop_iff (a.size_data.trans c.size_data.symm)

theorem equals_iff_value (a c : FixedHash N) :
    equals a c = true ↔ value a = value c := by
  rw [equals_iff]
  exact ⟨fun h => h ▸ rfl, value_inj⟩

theorem lessOrEqual_iff (a c : FixedHash N) :
    lessOrEqual a c = true ↔ value a ≤ value c := by
  rw [lessOrEqual, Bool.or_eq_true, equals_iff_value, less_iff]
  omega

theorem notLess_iff (a c : FixedHash N) :
    notLess a c = true ↔ value c ≤ value a := by
  have := less_iff a c
  rw [notLess, Bool.not_eq_true', ← Bool.not_eq_true, this, Nat.not_lt]

theorem greater_iff (a c : FixedHash N) :
    greater a c = true ↔ value c < value a := by
  have := lessOrEqual_iff a c
  rw [greater, Bool.not_eq_true', ← Bool.not_eq_true, this, Nat.not_le]

end Comparison

section Bitwise

theorem value_xorWith (a c : FixedHash N) :
    value (xorWith a c) = value a ^^^ value c :=
  fromBigEndian_zipWith (p := xor) rfl
    (fun x y i => by rw [UInt8.toNat_xor, Nat.testBit_xor])
    (fun m n i => Nat.testBit_xor m n i) (a.size_data.trans c.size_data.symm)

theorem value_orWith (a c : FixedHash N) :
    value (orWith a c) = value a ||| value c :=
  fromBigEndian_zipWith (p := or) rfl
    (fun x y i => by rw [UInt8.toNat_or, Nat.testBit_or])
    (fun m n i => Nat.testBit_or m n i) (a.size_data.trans c.size_data.symm)

theorem value_andWith (a c : FixedHash N) :
    value (andWith a c) = value a &&& value c :=
  fromBigEndian_zipWith (p := and) rfl
    (fun x y i => by rw [UInt8.toNat_and, Nat.testBit_and])
    (fun m n i => Nat.testBit_and m n i) (a.size_data.trans c.size_data.symm)

theorem value_complement (a : FixedHash N) :
    value (complement a) = 256 ^ N - 1 - value a := by
  have := fromBigEndian_complement a.data
  rwa [a.size_data] at this

end Bitwise

section Increment

/-- The loop adds one to the integer of the first `i` bytes. -/
theorem incrementLoop_eq {i : Nat} {m : Bytes} (hi : i ≤ m.length) :
    ∃ b : Bytes, b.length = i ∧ incrementLoop i m = b ++ m.drop i ∧
      fromBigEndian b = (fromBigEndian (m.take i) + 1) % 256 ^ i := by
  induction i generalizing m with
  | zero => exact ⟨[], rfl, rfl, by simp [fromBigEndian]⟩
  | succ i ih =>
      have hx := (m[i]).toNat_lt
      have hget : m.getD i 0 = m[i] := List.getD_eq_getElem m 0 hi
      have htake : m.take (i + 1) = m.take i ++ [m[i]] := by
        rw [List.take_add_one, List.getElem?_eq_getElem hi]
        rfl
      have hlength : (m.take i).length = i := by
        rw [List.length_take]
        omega
      have hlt := fromBigEndian_lt (m.take i)
      rw [hlength] at hlt
      have hset : ∀ y : Byte, (m.set i y).drop i = y :: m.drop (i + 1) := by
        intro y
        rw [List.drop_eq_getElem_cons (by rw [List.length_set]; omega),
          List.getElem_set_self, List.drop_set_of_lt (by omega)]
      have hkeep : ∀ y : Byte, (m.set i y).take i = m.take i := fun y =>
        List.take_set_of_le (by omega)
      rw [incrementLoop, hget, htake, fromBigEndian_append_singleton, pow_succ']
      by_cases hcarry : m[i] + 1 = 0
      · have hbyte : (m[i]).toNat = 255 := by
          have := congrArg UInt8.toNat hcarry
          rw [UInt8.toNat_add] at this
          simp at this
          omega
        obtain ⟨b, hb, hloop, hvalue⟩ := ih (m := m.set i (m[i] + 1))
          (by rw [List.length_set]; omega)
        rw [hkeep] at hvalue
        refine ⟨b ++ [m[i] + 1], by simp [hb], ?_, ?_⟩
        · rw [if_pos hcarry, hloop, hset]
          simp
        · have hzero : (m[i] + 1).toNat = 0 := by rw [hcarry]; rfl
          have hsum : fromBigEndian (m.take i) * 256 + (m[i]).toNat + 1 =
              256 * (fromBigEndian (m.take i) + 1) := by omega
          rw [fromBigEndian_append_singleton, hvalue, hzero, hsum,
            Nat.mul_mod_mul_left, Nat.add_zero, Nat.mul_comm]
      · have hbyte : (m[i] + 1).toNat = (m[i]).toNat + 1 := by
          have hne : (m[i] + 1).toNat ≠ 0 := fun h =>
            hcarry (UInt8.toNat_inj.1 h)
          rw [UInt8.toNat_add] at hne ⊢
          simp at hne ⊢
          omega
        refine ⟨m.take i ++ [m[i] + 1], by simp [hlength], ?_, ?_⟩
        · have hsplit := List.take_append_drop i (m.set i (m[i] + 1))
          rw [hkeep, hset] at hsplit
          rw [if_neg hcarry, ← hsplit]
          simp
        · have hbound := (m[i] + 1).toNat_lt
          rw [fromBigEndian_append_singleton, hbyte, Nat.mod_eq_of_lt]
          · omega
          · rw [hbyte] at hbound
            omega

theorem value_increment (a : FixedHash N) :
    value (increment a) = (value a + 1) % 256 ^ N := by
  obtain ⟨b, -, hloop, hvalue⟩ := incrementLoop_eq a.size_data.ge
  have htake : a.data.take N = a.data := List.take_of_length_le a.size_data.le
  have hdrop : a.data.drop N = [] := List.drop_of_length_le a.size_data.le
  rw [htake] at hvalue
  rw [hdrop, List.append_nil] at hloop
  show fromBigEndian (incrementLoop N a.data) = _
  rw [hloop, hvalue, value]

end Increment

section FirstBit

theorem size_eq {n k : Nat} (hle : 2 ^ k ≤ n) (hlt : n < 2 ^ (k + 1)) :
    Nat.size n = k + 1 :=
  Nat.le_antisymm (Nat.size_le.2 hlt) (Nat.lt_size.2 hle)

theorem toUnsigned_natCast (n : Nat) : toUnsigned (n : Int) = n % 2 ^ 32 := by
  rw [toUnsigned]
  omega

theorem shiftLoop_add {rounds : Nat} (d : Byte) {ret : Nat}
    (h : ret + rounds < 2 ^ 32) :
    shiftLoop rounds d ret = ret + shiftLoop rounds d 0 := by
  induction rounds generalizing d ret with
  | zero => rfl
  | succ rounds ih =>
      have hnext : toUnsigned (ret + 1 : Nat) = ret + 1 :=
        toUnsigned_of_lt (by omega)
      have hone : toUnsigned (0 + 1 : Nat) = 1 := rfl
      rw [shiftLoop, shiftLoop, hnext, hone]
      split
      · rfl
      · rw [ih (d <<< 1) (by omega), @ih (d <<< 1) 1 (by omega), Nat.add_assoc]

/-- The inner loop finds the first bit of a byte that is not zero. -/
theorem shiftLoop_bounds {d : Byte} (hd : d ≠ 0) :
    shiftLoop 8 d 0 ≤ 7 ∧ 2 ^ (7 - shiftLoop 8 d 0) ≤ d.toNat ∧
      d.toNat < 2 ^ (8 - shiftLoop 8 d 0) := by
  have hall : ∀ n < 256, n ≠ 0 → shiftLoop 8 (UInt8.ofNat n) 0 ≤ 7 ∧
      2 ^ (7 - shiftLoop 8 (UInt8.ofNat n) 0) ≤ n ∧
      n < 2 ^ (8 - shiftLoop 8 (UInt8.ofNat n) 0) := by
    decide +kernel
  have hne : d.toNat ≠ 0 := fun h => hd (UInt8.toNat_inj.1 h)
  have := hall d.toNat d.toNat_lt hne
  rwa [UInt8.ofNat_toNat] at this

theorem firstBitLoop_eq {m : Bytes} {ret : Nat}
    (h : ret + 8 * m.length < 2 ^ 32) :
    firstBitLoop m ret = ret + (8 * m.length - Nat.size (fromBigEndian m)) := by
  induction m generalizing ret with
  | nil => rfl
  | cons d m ih =>
      rw [List.length_cons] at h ⊢
      have hlt := fromBigEndian_lt m
      have hpow : 256 ^ m.length = 2 ^ (8 * m.length) := by
        rw [pow_mul]
        norm_num
      rw [hpow] at hlt
      rw [firstBitLoop, fromBigEndian_cons, hpow]
      by_cases hd : d = 0
      · have hnext : toUnsigned (ret + 8 : Nat) = ret + 8 :=
          toUnsigned_of_lt (by omega)
        have hsize : Nat.size (fromBigEndian m) ≤ 8 * m.length :=
          Nat.size_le.2 hlt
        have hzero : (0 : Byte).toNat = 0 := rfl
        rw [if_neg (not_not.2 hd), hnext, ih (by omega), hd, hzero, Nat.zero_mul,
          Nat.zero_add]
        omega
      · obtain ⟨hseven, hlow, hhigh⟩ := shiftLoop_bounds hd
        rw [if_pos hd, shiftLoop_add d (by omega)]
        generalize shiftLoop 8 d 0 = k at *
        have hle : 2 ^ (7 - k + 8 * m.length) ≤
            d.toNat * 2 ^ (8 * m.length) + fromBigEndian m := by
          rw [pow_add]
          exact (Nat.mul_le_mul_right _ hlow).trans (Nat.le_add_right _ _)
        have hgt : d.toNat * 2 ^ (8 * m.length) + fromBigEndian m <
            2 ^ (7 - k + 8 * m.length + 1) := by
          have hexp : 7 - k + 8 * m.length + 1 = 8 - k + 8 * m.length := by omega
          have := Nat.mul_le_mul_right (2 ^ (8 * m.length))
            (show d.toNat + 1 ≤ 2 ^ (8 - k) from hhigh)
          rw [hexp, pow_add]
          rw [Nat.add_mul, Nat.one_mul] at this
          omega
        rw [size_eq hle hgt]
        omega

/-- On zeros the count goes on past the largest `unsigned`. -/
theorem firstBitLoop_replicate (n : Nat) {ret : Nat} (h : ret < 2 ^ 32) :
    firstBitLoop (List.replicate n 0) ret = (ret + 8 * n) % 2 ^ 32 := by
  induction n generalizing ret with
  | zero =>
      rw [Nat.mul_zero, Nat.add_zero, Nat.mod_eq_of_lt h]
      rfl
  | succ n ih =>
      have hlt : (ret + 8) % 2 ^ 32 < 2 ^ 32 := Nat.mod_lt _ (by omega)
      rw [List.replicate_succ, firstBitLoop, if_neg (by simp),
        toUnsigned_natCast, ih hlt]
      omega

end FirstBit

section Alignment

/-- Bytes shifted to the width of a hash. -/
def shifted (N length v : Nat) : Nat :=
  if length ≤ N then v * 2 ^ (8 * (N - length))
  else v / 2 ^ (8 * (length - N))

theorem value_copyLoop_right {b : Bytes} {c : Nat} (hN : c ≤ N)
    (hb : c ≤ b.length) :
    fromBigEndian (copyLoop N b .right c) = fromBigEndian b % 256 ^ c := by
  rw [copyLoop_right hN hb, fromBigEndian_append, fromBigEndian_replicate_zero,
    Nat.zero_mul, Nat.zero_add, fromBigEndian_drop b hb]

theorem value_copyLoop_left {b : Bytes} {t : Alignment} (ht : t ≠ .right)
    {c : Nat} (hN : c ≤ N) (hb : c ≤ b.length) :
    fromBigEndian (copyLoop N b t c) =
      fromBigEndian (b.take c) * 256 ^ (N - c) := by
  rw [copyLoop_left ht hN hb, fromBigEndian_append,
    fromBigEndian_replicate_zero, List.length_replicate, Nat.add_zero]

theorem mod_min_length (N : Nat) (b : Bytes) :
    fromBigEndian b % 256 ^ min b.length N = fromBigEndian b % 256 ^ N := by
  have hlt := fromBigEndian_lt b
  rcases Nat.le_total b.length N with hle | hle
  · have hpow := Nat.pow_le_pow_right (show 0 < 256 by omega) hle
    rw [Nat.min_eq_left hle, Nat.mod_eq_of_lt hlt, Nat.mod_eq_of_lt (by omega)]
  · rw [Nat.min_eq_right hle]

theorem take_min_length (N : Nat) (b : Bytes) :
    fromBigEndian (b.take (min b.length N)) * 256 ^ (N - min b.length N) =
      shifted N b.length (fromBigEndian b) := by
  rw [shifted, pow_bytes, pow_bytes]
  split
  · rename_i hle
    rw [Nat.min_eq_left hle, List.take_length]
  · rename_i hle
    rw [Nat.min_eq_right (by omega), Nat.sub_self, pow_zero, Nat.mul_one,
      fromBigEndian_take]

theorem value_fromHash_right {M : Nat} (h : FixedHash M) :
    value (fromHash N h .right) = value h % 2 ^ (8 * N) := by
  have hmin := mod_min_length N h.data
  rw [h.size_data] at hmin
  rw [pow_bytes, value, value, ← hmin]
  exact value_copyLoop_right (Nat.min_le_right M N)
    (by rw [h.size_data]; exact Nat.min_le_left M N)

theorem value_fromHash_left {M : Nat} (h : FixedHash M) :
    value (fromHash N h .left) = shifted N M (value h) := by
  have hmin := take_min_length N h.data
  rw [h.size_data] at hmin
  rw [value, value, ← hmin]
  exact value_copyLoop_left (by decide) (Nat.min_le_right M N)
    (by rw [h.size_data]; exact Nat.min_le_left M N)

end Alignment

/-- The bytes that a constructor from a byte string would copy but for the
conversion of the size to `unsigned`. -/
def overlooked (N : Nat) (b : Bytes) (t : Alignment) : Bytes :=
  let c := min (toUnsigned b.length) N
  let full := min b.length N
  if t = .right then (b.drop (b.length - full)).take (full - c)
  else (b.take full).drop c

section Construct

theorem toUnsigned_le (n : Nat) : toUnsigned (n : Int) ≤ n := by
  rw [toUnsigned_natCast]
  exact Nat.mod_le _ _

theorem construct_of_length {b : Bytes} (h : b.length = N) (t : Alignment) :
    (construct N b t).data = b := by
  rw [construct, dif_pos h]

theorem construct_of_ne {b : Bytes} {t : Alignment} (h : b.length ≠ N)
    (ht : t ≠ .failIfDifferent) :
    (construct N b t).data =
      copyLoop N b t (min (toUnsigned b.length) N) := by
  rw [construct, dif_neg h, if_pos ht]

/-- A size that fits an `unsigned` lets nothing be overlooked. -/
theorem overlooked_of_lt {b : Bytes} (h : b.length < 2 ^ 32) (t : Alignment) :
    overlooked N b t = [] := by
  rw [overlooked, toUnsigned_of_lt h]
  split
  · rw [Nat.sub_self, List.take_zero]
  · exact List.drop_of_length_le (by rw [List.length_take]; omega)

/-- Aligned to the right the bytes are the integer modulo the width, if none
but zeros are overlooked. -/
theorem construct_right_iff (hN : N < 2 ^ 32) (b : Bytes) :
    value (construct N b .right) = fromBigEndian b % 2 ^ (8 * N) ↔
      ∀ x ∈ overlooked N b .right, x = 0 := by
  rw [pow_bytes, value]
  by_cases h : b.length = N
  · have hlt := fromBigEndian_lt b
    rw [h] at hlt
    rw [construct_of_length h, overlooked_of_lt (h ▸ hN), Nat.mod_eq_of_lt hlt]
    simp
  · have hle := toUnsigned_le b.length
    rw [construct_of_ne h (by decide), overlooked, if_pos rfl,
      ← mod_min_length N b]
    generalize hc : min (toUnsigned b.length) N = c
    generalize hfull : min b.length N = full
    have hfullb : full ≤ b.length := by omega
    rw [value_copyLoop_right (by omega) (by omega),
      ← fromBigEndian_drop b hfullb, ← fromBigEndian_drop b (by omega),
      ← fromBigEndian_eq_zero_iff]
    have hsplit := List.take_append_drop (full - c) (b.drop (b.length - full))
    have hdrop : (b.drop (b.length - full)).drop (full - c) =
        b.drop (b.length - c) := by
      rw [List.drop_drop]
      congr 1
      omega
    have hpos : 0 < 256 ^ (b.drop (b.length - c)).length :=
      Nat.pow_pos (by omega)
    rw [hdrop] at hsplit
    have hvalue := congrArg fromBigEndian hsplit
    rw [fromBigEndian_append] at hvalue
    rw [← hvalue]
    constructor
    · intro heq
      have hzero : fromBigEndian ((b.drop (b.length - full)).take (full - c)) *
          256 ^ (b.drop (b.length - c)).length = 0 := by omega
      exact (Nat.mul_eq_zero.1 hzero).resolve_right hpos.ne'
    · intro hzero
      rw [hzero, Nat.zero_mul, Nat.zero_add]

/-- Aligned to the left they are the integer shifted by whole bytes. -/
theorem construct_left_iff (hN : N < 2 ^ 32) (b : Bytes) :
    value (construct N b .left) = shifted N b.length (fromBigEndian b) ↔
      ∀ x ∈ overlooked N b .left, x = 0 := by
  rw [value]
  by_cases h : b.length = N
  · rw [construct_of_length h, overlooked_of_lt (h ▸ hN), shifted, h]
    simp
  · have hle := toUnsigned_le b.length
    rw [construct_of_ne h (by decide), overlooked, if_neg (by decide),
      ← take_min_length N b]
    generalize hc : min (toUnsigned b.length) N = c
    generalize hfull : min b.length N = full
    have hcfull : c ≤ full := by omega
    rw [value_copyLoop_left (by decide) (by omega) (by omega),
      ← fromBigEndian_eq_zero_iff]
    have htake : (b.take full).take c = b.take c := by
      rw [List.take_take, Nat.min_eq_left hcfull]
    have hsplit := List.take_append_drop c (b.take full)
    have hlength : ((b.take full).drop c).length = full - c := by
      rw [List.length_drop, List.length_take]
      omega
    have hexp : N - c = full - c + (N - full) := by omega
    have hpos : 0 < 256 ^ (N - full) := Nat.pow_pos (by omega)
    rw [htake] at hsplit
    have hvalue := congrArg fromBigEndian hsplit
    rw [fromBigEndian_append, hlength] at hvalue
    rw [← hvalue, Nat.add_mul, hexp, pow_add, ← Nat.mul_assoc]
    constructor
    · intro heq
      have hzero : fromBigEndian ((b.take full).drop c) * 256 ^ (N - full) = 0 := by
        omega
      exact (Nat.mul_eq_zero.1 hzero).resolve_right hpos.ne'
    · intro hzero
      rw [hzero, Nat.zero_mul, Nat.add_zero]

end Construct

/-- The class is an exact image of the integers below `2 ^ (8 * N)`, as far as
it does not read byte strings. -/
structure ImageOfIntegers (N : Nat) : Prop where
  ofArith_toArith : ∀ a : FixedHash N, ofArith N (toArith a) = a
  toArith_ofArith : ∀ v < 2 ^ (8 * N), toArith (ofArith N v) = v
  equals : ∀ a c : FixedHash N, equals a c = true ↔ toArith a = toArith c
  differs : ∀ a c : FixedHash N, differs a c = true ↔ toArith a ≠ toArith c
  less : ∀ a c : FixedHash N, less a c = true ↔ toArith a < toArith c
  lessOrEqual : ∀ a c : FixedHash N,
    lessOrEqual a c = true ↔ toArith a ≤ toArith c
  greater : ∀ a c : FixedHash N, greater a c = true ↔ toArith a > toArith c
  notLess : ∀ a c : FixedHash N, notLess a c = true ↔ toArith a ≥ toArith c
  increment : ∀ a : FixedHash N,
    toArith (increment a) = (toArith a + 1) % 2 ^ (8 * N)
  xorWith : ∀ a c : FixedHash N,
    toArith (xorWith a c) = toArith a ^^^ toArith c
  orWith : ∀ a c : FixedHash N,
    toArith (orWith a c) = toArith a ||| toArith c
  andWith : ∀ a c : FixedHash N,
    toArith (andWith a c) = toArith a &&& toArith c
  complement : ∀ a : FixedHash N,
    toArith (complement a) = 2 ^ (8 * N) - 1 - toArith a
  fromHash_right : ∀ (M : Nat) (h : FixedHash M), M < 2 ^ 32 →
    toArith (fromHash N h .right) = value h % 2 ^ (8 * N)
  fromHash_left : ∀ (M : Nat) (h : FixedHash M), M < 2 ^ 32 →
    toArith (fromHash N h .left) = shifted N M (value h)
  firstBitSet : ∀ a : FixedHash N,
    firstBitSet a = 8 * N - Nat.size (toArith a)

theorem imageOfIntegers (hN : N < 2 ^ 29) : ImageOfIntegers N := by
  have harith := fun a : FixedHash N => toArith_eq hN a
  constructor
  · intro a
    refine value_inj ?_
    rw [value_ofArith, harith, Nat.mod_eq_of_lt (value_lt a)]
  · intro v hv
    rw [harith, value_ofArith, ← pow_bytes, Nat.mod_eq_of_lt hv]
  · intro a c
    rw [harith, harith, equals_iff_value]
  · intro a c
    rw [harith, harith, FixedHash.differs, bne_iff_ne]
    exact not_congr ⟨fun h => congrArg fromBigEndian h,
      fun h => congrArg FixedHash.data (value_inj h)⟩
  · intro a c
    rw [harith, harith, less_iff]
  · intro a c
    rw [harith, harith, lessOrEqual_iff]
  · intro a c
    rw [harith, harith, greater_iff]
  · intro a c
    rw [harith, harith, notLess_iff]
  · intro a
    rw [harith, harith, value_increment, pow_bytes]
  · intro a c
    rw [harith, harith, harith, value_xorWith]
  · intro a c
    rw [harith, harith, harith, value_orWith]
  · intro a c
    rw [harith, harith, harith, value_andWith]
  · intro a
    rw [harith, harith, value_complement, pow_bytes]
  · intro M h _
    rw [harith, value_fromHash_right]
  · intro M h _
    rw [harith, value_fromHash_left]
  · intro a
    have hlength : 0 + 8 * a.data.length < 2 ^ 32 := by
      rw [a.size_data]
      omega
    rw [harith, FixedHash.firstBitSet, firstBitLoop_eq hlength, a.size_data,
      Nat.zero_add, value]

/-- From 2^29 bytes on the index of a bit does not fit an `unsigned`. -/
theorem not_imageOfIntegers (hN : 2 ^ 29 ≤ N) : ¬ ImageOfIntegers N := by
  intro h
  have hzero := h.firstBitSet (zero N)
  have hvalue : toArith (zero N) = 0 := by
    have : ∀ n, (List.replicate n (0 : Byte)).foldl
        (fun ret x => (ret <<< 8 ||| x.toNat) % 2 ^ arithBits N) 0 = 0 := by
      intro n
      induction n with
      | zero => rfl
      | succ n ih =>
          rw [List.replicate_succ', List.foldl_append, ih]
          simp
    exact this N
  rw [hvalue, Nat.size_zero, FixedHash.firstBitSet, zero,
    firstBitLoop_replicate N (by omega)] at hzero
  omega

/-- **Hashes as integers.**  The operators are those on the integers up to the
width whose bits an `unsigned` can count, and the constructors from byte
strings give the integer modulo the width or shifted, up to the bytes they
overlook. -/
theorem image_iff (hN : N < 2 ^ 32) :
    (ImageOfIntegers N ↔ N < 2 ^ 29) ∧
      ∀ (b : Bytes) (v : BytesConstRef), v.toBytes = b →
        ((value (fromBytes N b .right) = fromBigEndian b % 2 ^ (8 * N) ∧
          value (fromRef N v .right) = fromBigEndian b % 2 ^ (8 * N)) ↔
            ∀ x ∈ overlooked N b .right, x = 0) ∧
        ((value (fromBytes N b .left) = shifted N b.length (fromBigEndian b) ∧
          value (fromRef N v .left) = shifted N b.length (fromBigEndian b)) ↔
            ∀ x ∈ overlooked N b .left, x = 0) := by
  refine ⟨⟨fun h => ?_, imageOfIntegers⟩, ?_⟩
  · by_contra hge
    exact not_imageOfIntegers (Nat.not_lt.1 hge) h
  · rintro b v rfl
    rw [fromRef, fromBytes, fromRef, fromBytes, and_self, and_self]
    exact ⟨construct_right_iff hN _, construct_left_iff hN _⟩

theorem image_iff_cut :
    value (fromBytes 2 [1, 2, 3] .right) = 0x010203 % 2 ^ (8 * 2) ∧
      value (fromRef 2 (.ofBytes [1, 2, 3]) .right) =
        0x010203 % 2 ^ (8 * 2) :=
  ((@image_iff 2 (by decide)).2 [1, 2, 3] (.ofBytes [1, 2, 3]) rfl).1.2
    (by decide +kernel)

/-- Of 2^32 bytes none is copied. -/
theorem not_image :
    ∃ (N : Nat) (b : Bytes), 1 ≤ N ∧ N < 2 ^ 29 ∧
      value (fromBytes N b .right) ≠ fromBigEndian b % 2 ^ (8 * N) := by
  refine ⟨1, List.replicate (2 ^ 32 - 1 + 1) 1, le_rfl, by decide, ?_⟩
  have hlength : (List.replicate (2 ^ 32 - 1 + 1) (1 : Byte)).length = 2 ^ 32 :=
    List.length_replicate
  have hunsigned : toUnsigned ((2 ^ 32 : Nat) : Int) = 0 := by decide
  have hvalue : value (fromBytes 1 (List.replicate (2 ^ 32 - 1 + 1) 1) .right) =
      0 := by
    rw [fromBytes, value, construct_of_ne (by rw [hlength]; decide) (by decide),
      hlength, hunsigned]
    rfl
  have hpow : 2 ^ (8 * 1) = 256 := rfl
  rw [hvalue, List.replicate_succ', fromBigEndian_append_singleton, hpow,
    Nat.mul_add_mod_self_right]
  decide

end FixedHash

end Web3Core
