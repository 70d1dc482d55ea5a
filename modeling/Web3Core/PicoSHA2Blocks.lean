/-
A block of `picosha2.h` is a block of SHA-256: the tables hold the bits of the
roots of the primes, the loops over the array `w` fill in the schedule, and the
third loop goes through the rounds.
-/
import Mathlib.Tactic.IntervalCases
import Web3Core.LittleEndian
import Web3Core.PicoSHA2
import Web3Core.SHA256

namespace Web3Core

namespace PicoSHA2

section Constants

theorem length_filter_range (p : Nat → Prop) [DecidablePred p] (n : Nat) :
    ((List.range n).filter p).length = Nat.count p n := by
  induction n with
  | zero => rfl
  | succ n ih =>
      rw [List.range_succ, List.filter_append, List.length_append, ih,
        Nat.count_succ]
      by_cases hn : p n <;> simp [hn]

/-- The numbers that have a property, in order. -/
theorem nth_eq_getD_filter_range (p : Nat → Prop) [DecidablePred p]
    {n t : Nat} (h : t < ((List.range n).filter p).length) :
    Nat.nth p t = ((List.range n).filter p).getD t 0 := by
  induction n with
  | zero => exact absurd h (Nat.not_lt_zero t)
  | succ n ih =>
      rw [List.range_succ, List.filter_append] at h ⊢
      rcases Nat.lt_or_ge t ((List.range n).filter p).length with hlt | hge
      · rw [List.getD_append _ _ _ _ hlt, ih hlt]
      · by_cases hn : p n
        · have ht : t = Nat.count p n := by
            rw [length_filter_range] at hge
            simp only [hn, List.length_append, length_filter_range,
              List.filter_cons, List.filter_nil, decide_true, if_true,
              List.length_singleton] at h
            omega
          rw [ht, Nat.nth_count hn, List.getD_append_right _ _ _ _
            (by rw [length_filter_range]), length_filter_range]
          simp [hn]
        · simp only [hn, List.length_append, List.filter_cons, List.filter_nil,
            decide_false, Bool.false_eq_true, if_false, List.length_nil] at h
          omega

/-- A number below 19² is a prime where no smaller prime up to 17 divides
it. -/
def isPrime (n : Nat) : Bool :=
  Nat.ble 2 n && [2, 3, 5, 7, 11, 13, 17].all fun d =>
    Nat.ble n d || !Nat.beq (n % d) 0

theorem isPrime_eq {n : Nat} (h : n < 361) : isPrime n = decide (Nat.Prime n) := by
  rw [Bool.eq_iff_iff, decide_eq_true_iff]
  simp only [isPrime, Bool.and_eq_true, Nat.ble_eq, List.all_eq_true,
    Bool.or_eq_true, Bool.not_eq_true', ← Bool.not_eq_true, Nat.beq_eq]
  constructor
  · rintro ⟨htwo, hnone⟩
    by_contra hprime
    have hfactor := Nat.minFac_sq_le_self (by omega) hprime
    have hlt : Nat.minFac n < 19 := by nlinarith
    have hdvd := Nat.mod_eq_zero_of_dvd (Nat.minFac_dvd n)
    have hp : Nat.Prime (Nat.minFac n) := Nat.minFac_prime (by omega)
    have hsmall : Nat.minFac n < n := by nlinarith [hp.two_le]
    have hmem : Nat.minFac n ∈ [2, 3, 5, 7, 11, 13, 17] := by
      interval_cases Nat.minFac n <;> first | decide | (exact absurd hp (by decide))
    rcases hnone _ hmem with hle | hne
    · omega
    · exact hne hdvd
  · intro hprime
    refine ⟨hprime.two_le, ?_⟩
    intro d hd
    rw [or_iff_not_imp_left]
    intro hlt hmod
    rcases (Nat.dvd_prime hprime).1 (Nat.dvd_of_mod_eq_zero hmod) with rfl | rfl
    · exact absurd hd (by decide)
    · omega

/-- The first 64 primes. -/
def primes : List Nat := [
  2, 3, 5, 7, 11, 13, 17, 19, 23, 29, 31, 37, 41, 43, 47, 53, 59, 61, 67, 71, 73,
  79, 83, 89, 97, 101, 103, 107, 109, 113, 127, 131, 137, 139, 149, 151, 157, 163,
  167, 173, 179, 181, 191, 193, 197, 199, 211, 223, 227, 229, 233, 239, 241, 251,
  257, 263, 269, 271, 277, 281, 283, 293, 307, 311]

theorem nth_prime {t : Nat} (h : t < 64) :
    Nat.nth Nat.Prime t = primes.getD t 0 := by
  have hprimes : (List.range 312).filter isPrime = primes := by decide +kernel
  have hfilter : (List.range 312).filter Nat.Prime = primes := by
    rw [← hprimes]
    apply List.filter_congr
    intro n hn
    have hlt := List.mem_range.1 hn
    rw [isPrime_eq (by omega)]
  rw [nth_eq_getD_filter_range Nat.Prime (by rwa [hfilter]), hfilter]

/-- A word is the first bits behind the point where its root lies between the
word and the next one. -/
theorem rootBits_eq {k t p whole : Nat} {word : UInt32}
    (hp : Nat.nth Nat.Prime t = p)
    (hle : (whole * 2 ^ 32 + word.toNat) ^ k ≤ p * 2 ^ (32 * k))
    (hlt : p * 2 ^ (32 * k) < (whole * 2 ^ 32 + word.toNat + 1) ^ k) :
    SHA256.rootBits k t = word := by
  rw [SHA256.rootBits, hp, Nat.nthRoot_eq_of_le_of_lt hle hlt]
  apply UInt32.toNat_inj.1
  have hword := word.toNat_lt
  rw [UInt32.toNat_ofNat', Nat.add_comm, Nat.add_mul_mod_self_right,
    Nat.mod_eq_of_lt hword]

theorem getD_addConstant {t : Nat} (h : t < 64) :
    addConstant.getD t 0 = SHA256.rootBits 3 t := by
  have hall : ∀ t < 64, ∃ whole < 7,
      (whole * 2 ^ 32 + (addConstant.getD t 0).toNat) ^ 3 ≤
        primes.getD t 0 * 2 ^ (32 * 3) ∧
      primes.getD t 0 * 2 ^ (32 * 3) <
        (whole * 2 ^ 32 + (addConstant.getD t 0).toNat + 1) ^ 3 := by
    decide +kernel
  obtain ⟨whole, -, hle, hlt⟩ := hall t h
  exact (rootBits_eq (nth_prime h) hle hlt).symm

/-- An array in the words of the standard. -/
def MessageDigest.words (v : MessageDigest) : SHA256.Words :=
  ⟨v.a, v.b, v.c, v.d, v.e, v.f, v.g, v.h⟩

theorem words_initialMessageDigest :
    initialMessageDigest.words = SHA256.initial := by
  have hroot (t whole : Nat) (word : UInt32) (ht : t < 64)
      (hle : (whole * 2 ^ 32 + word.toNat) ^ 2 ≤ primes.getD t 0 * 2 ^ (32 * 2))
      (hlt : primes.getD t 0 * 2 ^ (32 * 2) <
        (whole * 2 ^ 32 + word.toNat + 1) ^ 2) :
      word = SHA256.rootBits 2 t := (rootBits_eq (nth_prime ht) hle hlt).symm
  unfold SHA256.initial
  rw [← hroot 0 1 0x6a09e667 (by decide) (by decide) (by decide),
    ← hroot 1 1 0xbb67ae85 (by decide) (by decide) (by decide),
    ← hroot 2 2 0x3c6ef372 (by decide) (by decide) (by decide),
    ← hroot 3 2 0xa54ff53a (by decide) (by decide) (by decide),
    ← hroot 4 3 0x510e527f (by decide) (by decide) (by decide),
    ← hroot 5 3 0x9b05688c (by decide) (by decide) (by decide),
    ← hroot 6 4 0x1f83d9ab (by decide) (by decide) (by decide),
    ← hroot 7 4 0x5be0cd19 (by decide) (by decide) (by decide)]
  rfl

end Constants

section Words

@[simp] theorem mask8bit_eq (x : UInt8) : mask8bit x = x := by
  apply UInt8.toNat_inj.1
  have hx := x.toNat_lt
  rw [mask8bit, UInt8.toNat_and, show (0xff : UInt8).toNat = 2 ^ 8 - 1 from rfl,
    Nat.and_two_pow_sub_one_eq_mod, Nat.mod_eq_of_lt hx]

@[simp] theorem mask32bit_eq (x : UInt32) : mask32bit x = x := by
  apply UInt32.toNat_inj.1
  have hx := x.toNat_lt
  rw [mask32bit, UInt32.toNat_and,
    show (0xffffffff : UInt32).toNat = 2 ^ 32 - 1 from rfl,
    Nat.and_two_pow_sub_one_eq_mod, Nat.mod_eq_of_lt hx]

theorem rotr_eq (x : UInt32) {n : Nat} (hpos : 0 < n) (hlt : n < 32) :
    rotr x (UInt32.ofNat n) = SHA256.rotated n x := by
  have hn : (UInt32.ofNat n).toNat = n := by
    rw [UInt32.toNat_ofNat', Nat.mod_eq_of_lt (by omega)]
  have hright : (32 - UInt32.ofNat n).toNat = 32 - n := by
    rw [UInt32.toNat_sub_of_le _ _ (by rw [UInt32.le_iff_toNat_le, hn]; exact hlt.le),
      hn]
    rfl
  apply UInt32.toBitVec_inj.1
  rw [rotr, mask32bit_eq, SHA256.rotated, BitVec.rotateRight_def,
    Nat.mod_eq_of_lt hlt]
  simp only [UInt32.toBitVec_or, UInt32.toBitVec_shiftRight,
    UInt32.toBitVec_shiftLeft, BitVec.ushiftRight_eq', BitVec.shiftLeft_eq',
    BitVec.toNat_umod, UInt32.toNat_toBitVec, hn, hright]
  rw [show (32 : BitVec 32).toNat = 32 from rfl, Nat.mod_eq_of_lt hlt,
    Nat.mod_eq_of_lt (show 32 - n < 32 by omega)]

theorem bsig0_eq (x : UInt32) : bsig0 x = SHA256.sum0 x := by
  have htwo : rotr x 2 = _ := @rotr_eq x 2 (by decide) (by decide)
  have hthirteen : rotr x 13 = _ := @rotr_eq x 13 (by decide) (by decide)
  have htwentyTwo : rotr x 22 = _ := @rotr_eq x 22 (by decide) (by decide)
  rw [bsig0, htwo, hthirteen, htwentyTwo, SHA256.sum0]

theorem bsig1_eq (x : UInt32) : bsig1 x = SHA256.sum1 x := by
  have hsix : rotr x 6 = _ := @rotr_eq x 6 (by decide) (by decide)
  have heleven : rotr x 11 = _ := @rotr_eq x 11 (by decide) (by decide)
  have htwentyFive : rotr x 25 = _ := @rotr_eq x 25 (by decide) (by decide)
  rw [bsig1, hsix, heleven, htwentyFive, SHA256.sum1]

theorem ssig0_eq (x : UInt32) : ssig0 x = SHA256.sigma0 x := by
  have hseven : rotr x 7 = _ := @rotr_eq x 7 (by decide) (by decide)
  have heighteen : rotr x 18 = _ := @rotr_eq x 18 (by decide) (by decide)
  rw [ssig0, hseven, heighteen, SHA256.sigma0, shr]

theorem ssig1_eq (x : UInt32) : ssig1 x = SHA256.sigma1 x := by
  have hseventeen : rotr x 17 = _ := @rotr_eq x 17 (by decide) (by decide)
  have hnineteen : rotr x 19 = _ := @rotr_eq x 19 (by decide) (by decide)
  rw [ssig1, hseventeen, hnineteen, SHA256.sigma1, shr]

theorem blockWord_eq {first : Bytes} {t : Nat} (h : 4 * t + 4 ≤ first.length) :
    blockWord first t = SHA256.wordAt first t := by
  apply UInt32.toNat_inj.1
  have hlt := fromBigEndian_lt ((first.drop (4 * t)).take 4)
  rw [List.length_take_of_le (by rw [List.length_drop]; omega)] at hlt
  rw [SHA256.wordAt, UInt32.toNat_ofNat', Nat.mod_eq_of_lt (by omega),
    take_drop_four _ h, blockWord, mask8bit_eq, mask8bit_eq, mask8bit_eq,
    mask8bit_eq, toNat_or_shiftLeft, Nat.mul_comm 4]

end Words

section Schedule

/-- The first `n` words of the array are those of the schedule. -/
structure Filled (first : Bytes) (n : Nat) (w : List UInt32) : Prop where
  length_eq : w.length = 64
  getD_eq : ∀ t < n, w.getD t 0 = SHA256.schedule (SHA256.wordAt first) t

variable {first : Bytes} {n : Nat} {w : List UInt32}

theorem Filled.set (h : Filled first n w) (hn : n < 64) {x : UInt32}
    (hx : x = SHA256.schedule (SHA256.wordAt first) n) :
    Filled first (n + 1) (w.set n x) where
  length_eq := by rw [List.length_set, h.length_eq]
  getD_eq := by
    intro t ht
    rcases Nat.lt_or_eq_of_le (Nat.le_of_lt_succ ht) with hlt | rfl
    · rw [List.getD_eq_getElem?_getD, List.getElem?_set_ne (by omega),
        ← List.getD_eq_getElem?_getD, h.getD_eq t hlt]
    · rw [List.getD_eq_getElem?_getD,
        List.getElem?_set_self (by rw [h.length_eq]; exact hn), hx]
      rfl

/-- The loop over the words of the block. -/
theorem filled_block (hfirst : first.length = 64) {n : Nat} (hn : n ≤ 16) :
    Filled first n ((List.range n).foldl
      (fun w i => w.set i (blockWord first i)) (List.replicate 64 0)) := by
  induction n with
  | zero => exact ⟨List.length_replicate, fun t ht => absurd ht t.not_lt_zero⟩
  | succ n ih =>
      rw [List.range_succ, List.foldl_append, List.foldl_cons, List.foldl_nil]
      refine (ih (by omega)).set (by omega) ?_
      rw [blockWord_eq (by omega), SHA256.schedule, if_pos (by omega)]

theorem Filled.extendWords (h : Filled first n w) (hge : 16 ≤ n) (hlt : n < 64) :
    Filled first (n + 1) (PicoSHA2.extendWords w n) := by
  refine h.set hlt ?_
  rw [mask32bit_eq, ssig1_eq, ssig0_eq, h.getD_eq _ (by omega),
    h.getD_eq _ (by omega), h.getD_eq _ (by omega), h.getD_eq _ (by omega)]
  conv_rhs => rw [SHA256.schedule, if_neg (by omega)]

/-- The loop over the other words. -/
theorem filled_extendWords (h : Filled first 16 w) {n : Nat} (hn : n ≤ 48) :
    Filled first (16 + n) ((List.range' 16 n).foldl PicoSHA2.extendWords w) := by
  induction n with
  | zero => exact h
  | succ n ih =>
      rw [List.range'_1_concat, List.foldl_append, List.foldl_cons,
        List.foldl_nil]
      exact (ih (by omega)).extendWords (by omega) (by omega)

theorem filled_fillWords (hfirst : first.length = 64) :
    Filled first 64 (fillWords first) :=
  filled_extendWords (filled_block hfirst (le_refl 16)) (le_refl 48)

end Schedule

section Rounds

variable {first : Bytes}

theorem words_round {w : List UInt32} (h : Filled first 64 w) {t : Nat}
    (ht : t < 64) (v : MessageDigest) :
    (round w v t).words = SHA256.round v.words (SHA256.rootBits 3 t)
      (SHA256.schedule (SHA256.wordAt first) t) := by
  rw [round, h.getD_eq t ht, getD_addConstant ht, mask32bit_eq, mask32bit_eq,
    bsig0_eq, bsig1_eq]
  rfl

theorem words_rounds {w : List UInt32} (h : Filled first 64 w)
    (v : MessageDigest) {n : Nat} (hn : n ≤ 64) :
    ((List.range n).foldl (round w) v).words =
      SHA256.rounds (SHA256.wordAt first) v.words n := by
  induction n with
  | zero => rfl
  | succ n ih =>
      rw [List.range_succ, List.foldl_append]
      exact (words_round h (by omega) _).trans (by rw [ih (by omega)]; rfl)

/-- `hash256_block` is the compression of the standard. -/
theorem words_hash256Block (v : MessageDigest) (hfirst : first.length = 64) :
    (hash256Block v first).words = SHA256.compress v.words first := by
  have hrounds := words_rounds (filled_fillWords hfirst) v (le_refl 64)
  rw [SHA256.compress, ← hrounds, hash256Block]
  simp only [mask32bit_eq]
  rfl

end Rounds

end PicoSHA2

end Web3Core
