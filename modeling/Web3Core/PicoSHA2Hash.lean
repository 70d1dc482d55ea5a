/-
`picosha2.h` against the standard.  Pieces of at most 65536 bytes are counted
right and hashed as one message.  The first digit of the length gives off one
carry a call and no more, so a longer piece leaves more than 16 bits in it, and
the length in bits that closes the message is then right or not by the number of
times the piece fills the digit.
-/
import Web3Core.PicoSHA2Blocks

namespace Web3Core

namespace PicoSHA2

section Digits

/-- A number in `k` digits of 16 bits, the lowest one first. -/
def digitsOf : Nat → Nat → List UInt32
  | 0, _ => []
  | k + 1, v => UInt32.ofNat (v % 65536) :: digitsOf k (v / 65536)

/-- One carry is enough for what comes to less than two digits. -/
theorem addLoop_digitsOf {digit carry : UInt32} {sum : Nat} (k v : Nat)
    (hsum : digit.toNat + carry.toNat = sum) (hlt : sum < 2 * 65536) :
    addLoop carry (digit :: digitsOf k v) = digitsOf (k + 1) (v * 65536 + sum) := by
  have hadd : (digit + carry).toNat = sum := by
    rw [UInt32.toNat_add, hsum, Nat.mod_eq_of_lt (by omega)]
  have hlow : (v * 65536 + sum) % 65536 = sum % 65536 := by omega
  rw [addLoop, digitsOf, hlow]
  by_cases hge : 65536 ≤ sum
  · have hcond : digit + carry ≥ 65536 := by
      rw [ge_iff_le, UInt32.le_iff_toNat_le, hadd]
      exact hge
    have hdigit : digit + carry - 65536 = UInt32.ofNat (sum % 65536) := by
      apply UInt32.toNat_inj.1
      rw [UInt32.toNat_sub_of_le _ _ hcond, hadd, UInt32.toNat_ofNat',
        show (65536 : UInt32).toNat = 65536 from rfl]
      omega
    have hhigh : (v * 65536 + sum) / 65536 = v + 1 := by omega
    rw [if_pos hcond, hdigit, hhigh]
    cases k with
    | zero => rfl
    | succ k =>
        have hnext : (UInt32.ofNat (v % 65536)).toNat + (1 : UInt32).toNat =
            v % 65536 + 1 := by
          rw [UInt32.toNat_ofNat', Nat.mod_eq_of_lt (by omega)]
          rfl
        rw [digitsOf, addLoop_digitsOf k (v / 65536) hnext (by omega),
          show v / 65536 * 65536 + (v % 65536 + 1) = v + 1 by omega]
  · have hcond : ¬digit + carry ≥ 65536 := by
      rw [ge_iff_le, UInt32.le_iff_toNat_le, hadd]
      exact hge
    have hdigit : digit + carry = UInt32.ofNat (sum % 65536) := by
      apply UInt32.toNat_inj.1
      rw [hadd, UInt32.toNat_ofNat']
      omega
    have hhigh : (v * 65536 + sum) / 65536 = v := by omega
    rw [if_neg hcond, hdigit, hhigh]

theorem addToDataLength_digitsOf (v : Nat) {n : Nat} (hn : n ≤ 65536) :
    addToDataLength (digitsOf 4 v) (UInt32.ofNat n) = digitsOf 4 (v + n) := by
  have hsum : (UInt32.ofNat (v % 65536) + UInt32.ofNat n).toNat +
      (0 : UInt32).toNat = v % 65536 + n := by
    rw [UInt32.toNat_add, UInt32.toNat_ofNat', UInt32.toNat_ofNat']
    simp only [UInt32.toNat_zero]
    omega
  have hloop := addLoop_digitsOf 3 (v / 65536) hsum (by omega)
  rw [show v / 65536 * 65536 + (v % 65536 + n) = v + n by omega] at hloop
  exact hloop

theorem length_addLoop (carry : UInt32) (digits : List UInt32) :
    (addLoop carry digits).length = digits.length := by
  induction digits generalizing carry with
  | nil => rfl
  | cons digit digits ih =>
      rw [addLoop]
      split
      · rw [List.length_cons, ih, List.length_cons]
      · rfl

theorem length_addToDataLength (digits : List UInt32) (n : UInt32) :
    (addToDataLength digits n).length = digits.length := by
  rw [addToDataLength, length_addLoop, List.length_set]

/-- What a digit becomes in bits, and what it hands to the next one. -/
theorem shiftLoop_cons (carry digit : UInt32) (digits : List UInt32) :
    shiftLoop carry (digit :: digits) =
      UInt32.ofNat ((digit.toNat * 8 ||| carry.toNat) % 65536) ::
        shiftLoop (UInt32.ofNat (digit.toNat / 8192 % 65536)) digits := by
  have hdigit : ((digit <<< 3) ||| carry) &&& 65535 =
      UInt32.ofNat ((digit.toNat * 8 ||| carry.toNat) % 65536) := by
    apply UInt32.toNat_inj.1
    rw [UInt32.toNat_and, UInt32.toNat_or, UInt32.toNat_shiftLeft,
      UInt32.toNat_ofNat', show (65535 : UInt32).toNat = 2 ^ 16 - 1 from rfl,
      Nat.and_two_pow_sub_one_eq_mod, Nat.or_mod_two_pow,
      show (3 : UInt32).toNat % 32 = 3 from rfl, Nat.shiftLeft_eq,
      Nat.mod_mod_of_dvd _ (by decide), ← Nat.or_mod_two_pow,
      Nat.mod_eq_of_lt (show (digit.toNat * 8 ||| carry.toNat) % 65536 < 2 ^ 32 by
        omega)]
  have hcarry : (digit >>> (16 - 3)) &&& 65535 =
      UInt32.ofNat (digit.toNat / 8192 % 65536) := by
    apply UInt32.toNat_inj.1
    rw [UInt32.toNat_and, UInt32.toNat_shiftRight, UInt32.toNat_ofNat',
      show (65535 : UInt32).toNat = 2 ^ 16 - 1 from rfl,
      Nat.and_two_pow_sub_one_eq_mod,
      show (16 - 3 : UInt32).toNat % 32 = 13 from rfl,
      Nat.shiftRight_eq_div_pow,
      Nat.mod_eq_of_lt (show digit.toNat / 8192 % 65536 < 2 ^ 32 by omega)]
  rw [shiftLoop, hdigit, hcarry]

theorem shiftLoop_digitsOf (k v : Nat) {carry : Nat} (hcarry : carry < 8) :
    shiftLoop (UInt32.ofNat carry) (digitsOf k v) = digitsOf k (8 * v + carry) := by
  induction k generalizing v carry with
  | zero => rfl
  | succ k ih =>
      have hdigit : (UInt32.ofNat (v % 65536)).toNat = v % 65536 := by
        rw [UInt32.toNat_ofNat', Nat.mod_eq_of_lt (by omega)]
      have hc : (UInt32.ofNat carry).toNat = carry := by
        rw [UInt32.toNat_ofNat', Nat.mod_eq_of_lt (by omega)]
      have hor : v % 65536 * 8 ||| carry = v % 65536 * 8 + carry := by
        rw [Nat.mul_comm]
        exact (Nat.two_pow_add_eq_or_of_lt (i := 3) hcarry _).symm
      rw [digitsOf, shiftLoop_cons, hdigit, hc, hor,
        Nat.mod_eq_of_lt (show v % 65536 / 8192 < 65536 by omega),
        ih _ (by omega), digitsOf]
      congr 2
      · omega
      · omega

theorem length_shiftLoop (carry : UInt32) (digits : List UInt32) :
    (shiftLoop carry digits).length = digits.length := by
  induction digits generalizing carry with
  | nil => rfl
  | cons digit digits ih => rw [shiftLoop, List.length_cons, ih, List.length_cons]

theorem length_writeDataBitLength {digits : List UInt32}
    (h : digits.length = 4) : (writeDataBitLength digits).length = 8 := by
  have hbytes (l : List UInt32) : (l.flatMap fun (digit : UInt32) =>
      [(digit >>> 8).toUInt8, digit.toUInt8]).length = 2 * l.length := by
    induction l with
    | nil => rfl
    | cons digit l ih =>
        rw [List.flatMap_cons, List.length_append, ih, List.length_cons,
          List.length_cons, List.length_cons, List.length_nil]
        omega
  rw [writeDataBitLength, hbytes, List.length_reverse, length_shiftLoop, h]

/-- The bytes of the digits of a number. -/
theorem flatMap_digitsOf (v : Nat) :
    ((digitsOf 4 v).reverse.flatMap fun (digit : UInt32) =>
      [(digit >>> 8).toUInt8, digit.toUInt8]) = SHA256.bytesOf 8 v := by
  have hhigh (w : Nat) : (UInt32.ofNat (w % 65536) >>> 8).toUInt8 =
      UInt8.ofNat (w >>> 8) := by
    apply UInt8.toNat_inj.1
    rw [UInt32.toNat_toUInt8, UInt32.toNat_shiftRight, UInt32.toNat_ofNat',
      UInt8.toNat_ofNat', show (8 : UInt32).toNat % 32 = 8 from rfl,
      Nat.shiftRight_eq_div_pow, Nat.shiftRight_eq_div_pow]
    omega
  have hlow (w : Nat) : (UInt32.ofNat (w % 65536)).toUInt8 = UInt8.ofNat w := by
    apply UInt8.toNat_inj.1
    rw [UInt32.toNat_toUInt8, UInt32.toNat_ofNat', UInt8.toNat_ofNat']
    omega
  have hdiv (w : Nat) : w / 65536 = w >>> 16 := (Nat.shiftRight_eq_div_pow w 16).symm
  simp only [digitsOf, List.reverse_cons, List.reverse_nil, List.nil_append,
    List.cons_append, List.flatMap_cons, List.flatMap_nil, hhigh, hlow, hdiv,
    ← Nat.shiftRight_add, SHA256.bytesOf]
  rfl

/-- The length of a message in bits, where its digits are those of its length in
bytes. -/
theorem writeDataBitLength_digitsOf (v : Nat) :
    writeDataBitLength (digitsOf 4 v) = SHA256.bytesOf 8 (8 * v) := by
  have hshift : shiftLoop 0 (digitsOf 4 v) = digitsOf 4 (8 * v) :=
    @shiftLoop_digitsOf 4 v 0 (by decide)
  rw [writeDataBitLength, hshift, flatMap_digitsOf]

end Digits

section Blocks

/-- The loop of `process` takes the whole blocks of the buffer. -/
theorem processLoop_eq (buffer : Bytes) (h : MessageDigest) (i : Nat)
    (hi : i ≤ buffer.length) :
    (processLoop buffer h i).1 = (takeWhole hash256Block 64 h (buffer.drop i)).1 ∧
      buffer.drop (processLoop buffer h i).2 =
        (takeWhole hash256Block 64 h (buffer.drop i)).2 := by
  fun_induction processLoop buffer h i with
  | case1 h i hle ih =>
      rw [takeWhole_of_le (by decide) (by rw [List.length_drop]; omega),
        List.drop_drop]
      exact ih hle
  | case2 h i hgt =>
      rw [takeWhole_of_lt (by rw [List.length_drop]; omega)]
      exact ⟨rfl, rfl⟩

theorem process_eq (x : Hash256OneByOne) (data : Bytes) :
    (x.process data).h = (takeWhole hash256Block 64 x.h (x.buffer ++ data)).1 ∧
      (x.process data).buffer =
        (takeWhole hash256Block 64 x.h (x.buffer ++ data)).2 :=
  processLoop_eq (x.buffer ++ data) x.h 0 (Nat.zero_le _)

/-- Writing zeros over the zeros behind a mark changes nothing. -/
theorem fill_zero {b : Bytes} {mark : UInt8} {k last : Nat}
    (hle : b.length + 1 ≤ last) (hge : last ≤ b.length + 1 + k) :
    fill (b ++ mark :: List.replicate k 0) (b.length + 1) last 0 =
      b ++ mark :: List.replicate k 0 := by
  have hsplit : b ++ mark :: List.replicate k (0 : UInt8) =
      (b ++ [mark]) ++ List.replicate k 0 := by
    rw [List.append_assoc, List.singleton_append]
  have hlength : (b ++ [mark]).length = b.length + 1 := by
    rw [List.length_append, List.length_singleton]
  rw [hsplit, fill, List.take_left' hlength, List.drop_append, hlength,
    List.drop_eq_nil_of_le (by omega), List.nil_append, List.drop_replicate,
    List.append_assoc, ← List.replicate_add,
    show last - (b.length + 1) + (k - (last - (b.length + 1))) = k by omega]

/-- The array `temp` with its mark. -/
theorem set_write {b : Bytes} (h : b.length < 64) (mark : UInt8) :
    (write (List.replicate 64 0) 0 b).set b.length mark =
      b ++ mark :: List.replicate (63 - b.length) 0 := by
  rw [write, List.take_zero, List.nil_append, List.drop_replicate,
    List.set_append_right _ _ (le_refl _), Nat.sub_self,
    show 64 - (0 + b.length) = 63 - b.length + 1 by omega, List.replicate_succ,
    List.set_cons_zero]

/-- `finish` takes the blocks of what is left, closed by the length. -/
theorem finish_eq (x : Hash256OneByOne) (hdigits : x.dataLengthDigits.length = 4) :
    x.finish.h = (takeWhole hash256Block 64 x.h
      (closed 64 0x80 0 (writeDataBitLength x.dataLengthDigits) x.buffer)).1 := by
  have hshort := x.short
  have hfield := length_writeDataBitLength hdigits
  rw [Hash256OneByOne.finish]
  simp only [set_write hshort]
  by_cases hgt : x.buffer.length > 55
  · have hlast : write (fill (x.buffer ++ 0x80 :: List.replicate
        (63 - x.buffer.length) 0) 0 (64 - 4) 0) 56
          (writeDataBitLength x.dataLengthDigits) =
        List.replicate 56 0 ++ writeDataBitLength x.dataLengthDigits := by
      rw [write, fill, hfield, List.take_zero, List.nil_append,
        List.take_append_of_le_length (by simp), List.take_replicate,
        List.drop_eq_nil_of_le (by
          simp only [List.length_append, List.length_replicate,
            List.length_drop, List.length_cons]
          omega), List.append_nil]
      rfl
    rw [takeWhole_closed_of_gt hshort (by omega) (by omega), if_pos hgt, hfield]
    simp only [fill_zero (show x.buffer.length + 1 ≤ 64 by omega)
      (show 64 ≤ x.buffer.length + 1 + (63 - x.buffer.length) by omega), hlast,
      show 64 - (x.buffer.length + 1) = 63 - x.buffer.length by omega]
  · have hlast : write (x.buffer ++ 0x80 :: List.replicate
        (63 - x.buffer.length) 0) 56 (writeDataBitLength x.dataLengthDigits) =
        x.buffer ++ 0x80 :: (List.replicate (55 - x.buffer.length) 0 ++
          writeDataBitLength x.dataLengthDigits) := by
      have hsplit : x.buffer ++ 0x80 :: List.replicate (63 - x.buffer.length)
          (0 : UInt8) = (x.buffer ++ 0x80 ::
            List.replicate (55 - x.buffer.length) 0) ++ List.replicate 8 0 := by
        rw [show 63 - x.buffer.length = 55 - x.buffer.length + 8 by omega,
          List.replicate_add, List.append_assoc, List.cons_append]
      rw [hsplit, write, hfield, List.take_left' (by
          simp only [List.length_append, List.length_replicate, List.length_cons]
          omega),
        List.drop_eq_nil_of_le (by
          simp only [List.length_append, List.length_replicate, List.length_cons]
          omega), List.append_nil, List.append_assoc, List.cons_append]
    rw [takeWhole_closed_of_le (by omega), if_neg hgt, hfield]
    simp only [fill_zero (show x.buffer.length + 1 ≤ 64 - 4 by omega)
      (show 64 - 4 ≤ x.buffer.length + 1 + (63 - x.buffer.length) by omega),
      hlast, show 64 - (x.buffer.length + 1 + 8) = 55 - x.buffer.length by omega]

/-- The bytes of the words of an array. -/
theorem getHashBytes_eq (x : Hash256OneByOne) :
    x.getHashBytes 32 = x.h.words.bytes := by
  have hword (word : UInt32) : (List.range 4).map (fun i =>
      mask8bit (word >>> (24 - 8 * UInt32.ofNat i)).toUInt8) =
      SHA256.bytesOf 4 word.toNat := by
    have hbyte (n : UInt32) (hn : n.toNat < 32) : (word >>> n).toUInt8 =
        UInt8.ofNat (word.toNat >>> n.toNat) := by
      apply UInt8.toNat_inj.1
      rw [UInt32.toNat_toUInt8, UInt32.toNat_shiftRight, Nat.mod_eq_of_lt hn,
        UInt8.toNat_ofNat']
    simp only [mask8bit_eq, SHA256.bytesOf]
    show [(word >>> 24).toUInt8, (word >>> 16).toUInt8, (word >>> 8).toUInt8,
      (word >>> 0).toUInt8] = _
    rw [hbyte 24 (by decide), hbyte 16 (by decide), hbyte 8 (by decide),
      hbyte 0 (by decide)]
    rfl
  rw [Hash256OneByOne.getHashBytes, SHA256.Words.bytes]
  simp only [hword]
  exact List.take_of_length_le (by simp [SHA256.bytesOf])

end Blocks

section Pieces

/-- The pieces of a message are passed one after the other. -/
def processAll (pieces : List Bytes) : Hash256OneByOne :=
  pieces.foldl Hash256OneByOne.process .init

/-- The digits of the length, as the calls leave them. -/
def lengthDigits (pieces : List Bytes) : List UInt32 :=
  pieces.foldl (fun digits piece =>
    addToDataLength digits (UInt32.ofNat piece.length)) [0, 0, 0, 0]

theorem processAll_eq (pieces : List Bytes) :
    ((processAll pieces).h, (processAll pieces).buffer) =
        takeWhole hash256Block 64 initialMessageDigest pieces.flatten ∧
      (processAll pieces).dataLengthDigits = lengthDigits pieces := by
  induction pieces using List.reverseRecOn with
  | nil => exact ⟨(takeWhole_of_lt (by decide)).symm, rfl⟩
  | append_singleton pieces piece ih =>
      obtain ⟨hstate, hdigits⟩ := ih
      have hprocess := process_eq (processAll pieces) piece
      rw [processAll, lengthDigits, List.foldl_append, List.foldl_append,
        List.flatten_append, List.flatten_singleton,
        takeWhole_append (by decide), ← hstate]
      exact ⟨Prod.ext hprocess.1 hprocess.2, by
        rw [List.foldl_cons, List.foldl_cons, ← lengthDigits, ← hdigits]
        rfl⟩

theorem length_lengthDigits (pieces : List Bytes) :
    (lengthDigits pieces).length = 4 := by
  induction pieces using List.reverseRecOn with
  | nil => rfl
  | append_singleton pieces piece ih =>
      rw [lengthDigits, List.foldl_append, List.foldl_cons, List.foldl_nil,
        length_addToDataLength]
      exact ih

/-- The pieces are hashed as one message, closed by the length counted over the
calls. -/
theorem getHashBytes_processAll (pieces : List Bytes) :
    (processAll pieces).finish.getHashBytes 32 =
      SHA256.hashWith (writeDataBitLength (lengthDigits pieces))
        pieces.flatten := by
  obtain ⟨hstate, hdigits⟩ := processAll_eq pieces
  have hfinish := finish_eq (processAll pieces)
    (by rw [hdigits, length_lengthDigits])
  have hh := congrArg Prod.fst hstate
  have hbuffer := congrArg Prod.snd hstate
  simp only at hh hbuffer
  rw [hdigits, hh, hbuffer, ← takeWhole_closed (by decide)] at hfinish
  rw [getHashBytes_eq, hfinish, SHA256.hashWith, ← words_initialMessageDigest,
    takeWhole_map MessageDigest.words (by decide) fun v _ hb =>
      words_hash256Block v hb]

theorem lengthDigits_eq {pieces : List Bytes}
    (hpieces : ∀ piece ∈ pieces, piece.length ≤ 65536) :
    lengthDigits pieces = digitsOf 4 pieces.flatten.length := by
  induction pieces using List.reverseRecOn with
  | nil => rfl
  | append_singleton pieces piece ih =>
      rw [lengthDigits, List.foldl_append, ← lengthDigits,
        ih fun p hp => hpieces p (List.mem_append_left _ hp), List.foldl_cons,
        List.foldl_nil, addToDataLength_digitsOf _ (hpieces piece (by simp)),
        List.flatten_append, List.length_append, List.flatten_singleton]

/-- A message that comes in pieces of at most 65536 bytes is hashed as the
standard hashes it at once. -/
theorem pieces_hashed {pieces : List Bytes}
    (hpieces : ∀ piece ∈ pieces, piece.length ≤ 65536) :
    (processAll pieces).finish.getHashBytes 32 =
      SHA256.hash pieces.flatten := by
  rw [getHashBytes_processAll, lengthDigits_eq hpieces,
    writeDataBitLength_digitsOf, SHA256.hash]

theorem pieces_hashed_abc :
    (processAll [[0x61], [], [0x62, 0x63]]).finish.getHashBytes 32 =
      SHA256.hash [0x61, 0x62, 0x63] :=
  @pieces_hashed [[0x61], [], [0x62, 0x63]] (by decide)

end Pieces

section WholeMessage

/-- The bytes that close a message of `n` bytes that comes as one piece. -/
def lengthField (n : Nat) : Bytes :=
  writeDataBitLength (addToDataLength [0, 0, 0, 0] (UInt32.ofNat n))

theorem or_eight (n : Nat) :
    8 ||| n = if n / 8 % 2 = 0 then n + 8 else n := by
  have hsplit : 8 ||| n = 16 * (n / 16) + (8 ||| n % 16) := by
    have hdiv := Nat.div_add_mod (8 ||| n) 16
    rw [show (8 ||| n) / 16 = n / 16 by
        rw [show 16 = 2 ^ 4 from rfl, Nat.or_div_two_pow]
        simp,
      show (8 ||| n) % 16 = 8 ||| n % 16 by
        rw [show 16 = 2 ^ 4 from rfl, Nat.or_mod_two_pow]] at hdiv
    exact hdiv.symm
  have hsmall : ∀ r < 16, 8 ||| r = if r / 8 = 0 then r + 8 else r := by decide
  rw [hsplit, hsmall (n % 16) (Nat.mod_lt _ (by decide))]
  split
  · rw [if_pos (by omega)]
    omega
  · rw [if_neg (by omega)]
    omega

/-- Two digits whose bits go no further than the second one. -/
theorem fromBigEndian_writeDataBitLength (x y : UInt32) (hy : y.toNat < 8192) :
    fromBigEndian (writeDataBitLength [x, y, 0, 0]) =
      (y.toNat * 8 ||| x.toNat / 8192 % 65536) % 65536 * 65536 +
        x.toNat * 8 % 65536 := by
  obtain ⟨high, hhigh⟩ : ∃ n, n = (y.toNat * 8 ||| x.toNat / 8192 % 65536) % 65536 :=
    ⟨_, rfl⟩
  have hdigits : shiftLoop 0 [x, y, 0, 0] =
      digitsOf 4 (high * 65536 + x.toNat * 8 % 65536) := by
    have hcarry : (UInt32.ofNat (x.toNat / 8192 % 65536)).toNat =
        x.toNat / 8192 % 65536 := by
      rw [UInt32.toNat_ofNat', Nat.mod_eq_of_lt (by omega)]
    rw [shiftLoop_cons, shiftLoop_cons, shiftLoop_cons, shiftLoop_cons, hcarry,
      ← hhigh, UInt32.toNat_zero, Nat.or_zero, Nat.div_eq_of_lt hy]
    simp only [digitsOf]
    rw [show (high * 65536 + x.toNat * 8 % 65536) % 65536 = x.toNat * 8 % 65536 by
        omega,
      show (high * 65536 + x.toNat * 8 % 65536) / 65536 = high by omega,
      Nat.mod_eq_of_lt (show high < 65536 by omega),
      Nat.div_eq_of_lt (show high < 65536 by omega)]
    rfl
  rw [writeDataBitLength, hdigits, flatMap_digitsOf, SHA256.fromBigEndian_bytesOf,
    ← hhigh, Nat.mod_eq_of_lt (by omega)]

theorem fromBigEndian_lengthField (n : Nat) :
    fromBigEndian (lengthField n) =
      if n % 2 ^ 32 < 65536 then n % 2 ^ 32 * 8
      else
        (8 ||| (n % 2 ^ 32 - 65536) / 8192) % 65536 * 65536 +
          (n % 2 ^ 32 - 65536) * 8 % 65536 := by
  have hn : (UInt32.ofNat n).toNat = n % 2 ^ 32 := UInt32.toNat_ofNat'
  obtain ⟨x, hx⟩ : ∃ x, x = UInt32.ofNat n := ⟨_, rfl⟩
  have hadd : addToDataLength [0, 0, 0, 0] x =
      if 65536 ≤ x then [x - 65536, 1, 0, 0] else [x, 0, 0, 0] := by
    show addLoop 0 [0 + x, 0, 0, 0] = _
    rw [UInt32.zero_add, addLoop, UInt32.add_zero]
    rfl
  rw [lengthField, ← hx, hadd]
  rw [← hx] at hn
  by_cases hlt : x.toNat < 65536
  · rw [if_neg (by rw [UInt32.le_iff_toNat_le]; exact Nat.not_le.2 hlt),
      fromBigEndian_writeDataBitLength _ _ (by decide), ← hn, if_pos hlt,
      UInt32.toNat_zero, Nat.zero_mul, Nat.zero_or]
    omega
  · have hle : 65536 ≤ x := UInt32.le_iff_toNat_le.2 (Nat.not_lt.1 hlt)
    have hbound : x.toNat < 2 ^ 32 := x.toNat_lt
    rw [if_pos hle, fromBigEndian_writeDataBitLength _ _ (by decide), ← hn,
      if_neg hlt, UInt32.toNat_sub_of_le _ _ hle,
      show (65536 : UInt32).toNat = 65536 from rfl,
      show (1 : UInt32).toNat * 8 = 8 from rfl, Nat.or_mod_two_pow (n := 16),
      Nat.mod_mod, ← Nat.or_mod_two_pow]

/-- The length is right where the first digit is not filled, or is filled an odd
number of times in less than 2^29 bytes. -/
theorem fromBigEndian_lengthField_iff (n : Nat) :
    fromBigEndian (lengthField n) = 8 * n ↔
      n < 2 ^ 16 ∨ n < 2 ^ 29 ∧ n / 2 ^ 16 % 2 = 1 := by
  rw [fromBigEndian_lengthField]
  by_cases hlt : n % 2 ^ 32 < 65536
  · rw [if_pos hlt]
    omega
  · rw [if_neg hlt, or_eight]
    split
    · omega
    · omega

/-- The hash of a message that comes as one piece, as `sha256` passes it. -/
theorem sha256_hashed (input : Bytes) :
    (sha256 input).data = SHA256.hashWith (lengthField input.length) input ∧
      (fromBigEndian (lengthField input.length) = 8 * input.length ↔
        input.length < 2 ^ 16 ∨
          input.length < 2 ^ 29 ∧ input.length / 2 ^ 16 % 2 = 1) ∧
      (fromBigEndian (lengthField input.length) = 8 * input.length →
        (sha256 input).data = SHA256.hash input) := by
  have hdata : (sha256 input).data =
      SHA256.hashWith (lengthField input.length) input := by
    have hpieces := getHashBytes_processAll [input]
    rw [List.flatten_singleton] at hpieces
    exact hpieces
  refine ⟨hdata, fromBigEndian_lengthField_iff _, ?_⟩
  intro hright
  have hlength : (lengthField input.length).length = 8 :=
    length_writeDataBitLength (length_addToDataLength _ _)
  have hlt := fromBigEndian_lt (lengthField input.length)
  rw [hlength, hright] at hlt
  have hfield : lengthField input.length = SHA256.bytesOf 8 (8 * input.length) := by
    apply fromBigEndian_inj
    · rw [hlength, SHA256.length_bytesOf]
    · rw [hright, SHA256.fromBigEndian_bytesOf, Nat.mod_eq_of_lt hlt]
  rw [hdata, hfield, SHA256.hash]

end WholeMessage

end PicoSHA2

end Web3Core
