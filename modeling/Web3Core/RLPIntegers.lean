/-
Integers and hashes in RLP, by all that writes and reads them: the integer as a
number, as bytes without their leading zeros and as a hash, and the conversions
back, which accept the one form that is written and no other.
-/
import Web3Core.RLPCanonical
import Web3Core.RLPFields

namespace Web3Core

open BytesConstRef (window)
open RLPTree (encode header)

namespace RLP

section Reader

variable {r : RLP} {offset l : Nat}

theorem isInt_cons (hv : r.data.Valid) {x : Byte} {rest : Bytes}
    (hb : r.data.toBytes = x :: rest) (hgood : r.requireGood = .ok ()) :
    r.isInt =
      if x.toNat < 0x80 then .ok (x != 0)
      else if x.toNat = 0x80 then .ok true
      else if x.toNat ≤ 0xb7 then
        if r.data.count ≤ 1 then .error .badRLP
        else do
          let y ← r.data.get 1
          .ok (y != 0)
      else if x.toNat < 0xc0 then
        if r.data.count ≤ 1 + x.toNat - 0xb7 then .error .badRLP
        else do
          let y ← r.data.get (1 + x.toNat - 0xb7)
          .ok (y != 0)
      else .ok false := by
  simp only [RLP.isInt, head?_cons hv hb, hgood, bind, Except.bind]
  rfl

/-- Whether data is an integer is told by the first byte of its payload. -/
theorem isInt_of_head (hv : r.data.Valid)
    (h : Head r.data.toBytes false offset l) :
    r.isInt = if l = 0 then .ok true else
      match r.data.toBytes[offset]? with
      | none => .error .badRLP
      | some x => .ok (x != 0) := by
  generalize hb : r.data.toBytes = b at h
  generalize hkind : false = isList at h
  cases h with
  | @byte x rest hx =>
      have hgood := (requireGood_cons hv hb).2 (by omega)
      rw [isInt_cons hv hb hgood, if_pos hx, if_neg one_ne_zero]
      rfl
  | @data l rest hl hsingle =>
      obtain ⟨x, more, hhead, hshape⟩ :=
        header_eq_cons 0x80 (Or.inl rfl) (show l < 2 ^ 64 by omega)
      have hfirst : (header 0x80 l ++ rest)[(header 0x80 l).length]? =
          rest.head? := by
        rw [List.getElem?_append_right le_rfl, Nat.sub_self,
          List.head?_eq_getElem?]
      rw [hfirst]
      rw [hhead, List.cons_append] at hb
      have hgood := (requireGood_cons hv hb).2 fun hone => by
        rcases hshape with ⟨-, hx, rfl⟩ | ⟨-, hx, -, hpos, -⟩
        · exact hsingle (by omega)
        · omega
      have hcount : r.data.count = more.length + rest.length + 1 := by
        rw [count_eq hv hb, List.length_cons, List.length_append]
      have hlow : ¬ x.toNat < 0x80 := by omega
      have hget : ∀ y : Byte, rest.head? = some y →
          r.data.get (more.length + 1) = .ok y := fun y hy =>
        get_succ hv hb (by rw [List.getElem?_append_right le_rfl,
          Nat.sub_self, ← List.head?_eq_getElem?, hy])
      rw [isInt_cons hv hb hgood, if_neg hlow]
      by_cases hzero : l = 0
      · rw [if_pos (by omega), if_pos hzero]
      · rw [if_neg (by omega), if_neg hzero]
        have hread : (if r.data.count ≤ more.length + 1 then
            (.error .badRLP : Except Exception Bool)
          else do
            let y ← r.data.get (more.length + 1)
            .ok (y != 0)) =
          match rest.head? with
          | none => .error .badRLP
          | some y => .ok (y != 0) := by
          cases rest with
          | nil =>
              rw [if_pos (by rw [hcount, List.length_nil])]
              rfl
          | cons y rest =>
              rw [if_neg (by rw [hcount, List.length_cons]; omega),
                hget y rfl]
              rfl
        rcases hshape with ⟨hshort, hx, rfl⟩ | ⟨hlong, hx, rfl, hpos, hle⟩
        · rw [if_pos (by omega)]
          exact hread
        · rw [length_bigEndian, Nat.add_comm] at hread
          have hindex : 1 + x.toNat - 0xb7 = 1 + bytesRequired l := by omega
          rw [if_neg (by omega), if_pos (by omega), hindex]
          exact hread
  | list rest hl => cases hkind

theorem isInt_of_list (hv : r.data.Valid)
    (h : Head r.data.toBytes true offset l) : r.isInt = .ok false := by
  obtain ⟨hlength, -, hlist, -⟩ := of_head hv h
  obtain ⟨x, rest, hb⟩ := List.exists_cons_of_ne_nil h.ne_nil
  rw [isList_cons hv hb, decide_eq_true_eq] at hlist
  have hgood := (requireGood_cons hv hb).2 (by omega)
  rw [isInt_cons hv hb hgood, if_neg (by omega), if_neg (by omega),
    if_neg (by omega), if_neg (by omega)]

theorem requireGood_of_head (hv : r.data.Valid) {isList : Bool}
    (h : Head r.data.toBytes isList offset l) : r.requireGood = .ok () := by
  have hlength := (of_head hv h).1
  obtain ⟨x, rest, hb⟩ := List.exists_cons_of_ne_nil h.ne_nil
  rw [RLP.length, head?_cons hv hb] at hlength
  cases hgood : r.requireGood with
  | ok u => rfl
  | error e => simp [hgood] at hlength

theorem count_ne_zero (hv : r.data.Valid) {isList : Bool}
    (h : Head r.data.toBytes isList offset l) : r.data.count ≠ 0 := by
  rw [← BytesConstRef.length_toBytes hv]
  exact fun hzero => h.ne_nil (List.length_eq_zero_iff.1 hzero)

/-- What the conversion of data to an integer comes to. -/
theorem toInt_of_data (hv : r.data.Valid)
    (h : Head r.data.toBytes false offset l) (size : Nat) :
    r.toInt size .strict =
      match r.isInt with
      | .error e => .error e
      | .ok false => .error .badCast
      | .ok true =>
          if r.data.count < l then .error .badRLP
          else if size < (r.data.cropped offset l).count then .error .badCast
          else .ok
            (fromBigEndian (r.data.cropped offset l).toBytes % 256 ^ size) := by
  obtain ⟨hlength, hoffset, hlist, -⟩ := of_head hv h
  have hnull : r.isNull = false := by
    rw [RLP.isNull, beq_eq_false_iff_ne]
    exact count_ne_zero hv h
  rw [RLP.toInt, requireGood_of_head hv h, ok_bind, hlist, hnull]
  cases r.isInt with
  | error e => rfl
  | ok int =>
      cases int with
      | false => rfl
      | true =>
          rw [ok_bind, RLP.payload, hlength, ok_bind, hoffset]
          by_cases hl : r.data.count < l <;> simp [hl, Strictness.strict]

/-- The conversion of data that is all there. -/
theorem toInt_of_whole (hv : r.data.Valid)
    (h : Head r.data.toBytes false offset l)
    (hlen : r.data.count = offset + l) (size : Nat) :
    r.toInt size .strict =
      if (r.data.toBytes.drop offset).head? = some 0 ∨ size < l then
        .error .badCast
      else .ok (fromBigEndian (r.data.toBytes.drop offset) % 256 ^ size) := by
  obtain ⟨p, hp⟩ := exists_address hv (count_ne_zero hv h)
  have hmax : l ≠ sizeMax := by
    have := (head_bounds h).2.1
    omega
  have hcropped : (r.data.cropped offset l).toBytes =
      r.data.toBytes.drop offset := by
    rw [BytesConstRef.toBytes_cropped hp hlen.ge hmax]
    refine List.take_of_length_le ?_
    rw [List.length_drop, BytesConstRef.length_toBytes hv]
    omega
  have hcount : (r.data.cropped offset l).count = l := by
    rw [BytesConstRef.cropped_of_le hp hlen.ge hmax]
    rfl
  rw [toInt_of_data hv h, isInt_of_head hv h, hcropped, hcount,
    List.head?_drop, if_neg (by omega : ¬ r.data.count < l)]
  by_cases hzero : l = 0
  · have hnone : r.data.toBytes[offset]? = none := by
      rw [List.getElem?_eq_none_iff, BytesConstRef.length_toBytes hv]
      omega
    rw [hzero, if_pos rfl, hnone]
    simp
  · have hlt : offset < r.data.toBytes.length := by
      rw [BytesConstRef.length_toBytes hv]
      omega
    rw [if_neg hzero, List.getElem?_eq_getElem hlt]
    by_cases hfirst : r.data.toBytes[offset] = 0
    · simp [hfirst]
    · have htrue : (r.data.toBytes[offset] != 0) = true :=
        bne_iff_ne.2 hfirst
      simp only [htrue, Option.some.injEq, hfirst, false_or]

/-- The payload begins inside the data, with a byte that is not zero, and ends
behind it, and yet it is no longer than the data. -/
def CutShort (r : RLP) : Prop :=
  r.isInt = .ok true ∧ ∃ l, r.length = .ok l ∧ l ≤ r.data.count ∧
    r.data.count < r.payloadOffset + l

/-- The conversion of data whose end is missing. -/
theorem toInt_of_cut (hv : r.data.Valid)
    (h : Head r.data.toBytes false offset l)
    (hlen : r.data.count < offset + l) (size : Nat) :
    (r.CutShort → r.toInt size .strict = .ok 0) ∧
      (¬ r.CutShort → r.toInt size .strict = .error .badCast ∨
        r.toInt size .strict = .error .badRLP) := by
  obtain ⟨hlength, hoffset, -, -⟩ := of_head hv h
  obtain ⟨p, hp⟩ := exists_address hv (count_ne_zero hv h)
  have hcropped : r.data.cropped offset l = .null := by
    rw [BytesConstRef.cropped, hp]
    exact if_neg (by omega)
  have hiff : r.CutShort ↔ r.isInt = .ok true ∧ l ≤ r.data.count := by
    rw [CutShort, hlength, hoffset]
    constructor
    · rintro ⟨hint, l', hl', hle, -⟩
      obtain rfl := Except.ok.inj hl'
      exact ⟨hint, hle⟩
    · rintro ⟨hint, hle⟩
      exact ⟨hint, l, rfl, hle, hlen⟩
  have hint : r.isInt = .ok true ∨ r.isInt = .ok false ∨
      r.isInt = .error .badRLP := by
    rw [isInt_of_head hv h]
    split
    · exact Or.inl rfl
    · split
      · exact Or.inr (Or.inr rfl)
      · rename_i x _
        cases (x != 0)
        · exact Or.inr (Or.inl rfl)
        · exact Or.inl rfl
  rw [hiff, toInt_of_data hv h, hcropped]
  rcases hint with hint | hint | hint
  · rw [hint]
    by_cases hl : r.data.count < l
    · simp [hl]
    · simp [hl, fromBigEndian]
  · simp [hint]
  · simp [hint]

end Reader

end RLP

/-- `rlp` of a fixed hash without its leading zeros. -/
def rlpHash {N : Nat} (h : FixedHash N) : Except Exception Bytes := do
  let s ← RLPStream.appendHash {} h true
  s.out

/-- `rlp` of an integer. -/
def rlpBigint (n : Nat) : Except Exception Bytes := do
  let s ← RLPStream.appendInt {} n
  s.out

/-- What is written for an integer is the encoding of its bytes. -/
theorem rlpBigint_eq {n : Nat} (hn : bytesRequired n < 2 ^ 32) :
    rlpBigint n = .ok (encode (.data (bigEndian n))) := by
  have hlen : (bigEndian n).length < 2 ^ 64 := by
    rw [length_bigEndian]
    omega
  rw [rlpBigint, RLPTree.appendInt_eq_append {} hn,
    RLPTree.append_eq_appendRaw {} hlen]
  rfl

/-- The types of integers an item is converted to. -/
inductive IntType where
  | uint8
  | uint16
  | uint32
  | uint64
  | u160
  | u256
  | bigint
deriving Repr, DecidableEq

namespace IntType

/-- `intTraits<T>::maxSize`. -/
def maxSize : IntType → Nat
  | .uint8 => 1
  | .uint16 => 2
  | .uint32 => 4
  | .uint64 => 8
  | .u160 => 20
  | .u256 => 32
  | .bigint => 2 ^ 32 - 1

theorem maxSize_lt (T : IntType) : T.maxSize < 2 ^ 32 := by
  cases T <;> decide

theorem pow_maxSize (T : IntType) : 256 ^ T.maxSize = 2 ^ (8 * T.maxSize) :=
  (pow_mul 2 8 T.maxSize).symm

end IntType

namespace RLP

/-- The item converts to an integer of the type exactly if the bytes `b` are
written for the integer and the type can hold it; otherwise it throws. -/
structure ConvertsExactly (T : IntType) (b : Bytes) (r : RLP) : Prop where
  value : ∀ n, r.toInt T.maxSize .strict = .ok n ↔
    rlpBigint n = .ok b ∧ n < 2 ^ (8 * T.maxSize)
  thrown : ∀ e, r.toInt T.maxSize .strict = .error e →
    e = .badCast ∨ e = .badRLP

variable {T : IntType} {b : Bytes} {n : Nat}

theorem bytesRequired_le_maxSize (hn : n < 2 ^ (8 * T.maxSize)) :
    bytesRequired n ≤ T.maxSize :=
  (bytesRequired_le_iff n _).2 (T.pow_maxSize ▸ hn)

/-- The bytes written for an integer convert to it. -/
theorem toInt_of_rlpBigint (hb : rlpBigint n = .ok b)
    (hn : n < 2 ^ (8 * T.maxSize)) :
    toInt { data := .ofBytes b } T.maxSize .strict = .ok n := by
  have hle := bytesRequired_le_maxSize hn
  have hmax := T.maxSize_lt
  rw [rlpBigint_eq (by omega), Except.ok.injEq] at hb
  have hfits : (RLPTree.data (bigEndian n)).Fits := by
    have := RLPTree.length_encodeData_le (b := bigEndian n)
      (by rw [length_bigEndian]; omega)
    rw [length_bigEndian] at this
    unfold RLPTree.Fits
    omega
  have hrep : Rep { data := .ofBytes b } (.data (bigEndian n)) :=
    hb ▸ .of_holds hfits (.whole _)
  obtain ⟨pre, hpre, hhead⟩ := hrep.head
  have hpayload : (RLPTree.data (bigEndian n)).payload = bigEndian n := rfl
  have hdrop : (RLP.data { data := .ofBytes b }).toBytes.drop pre.length =
      bigEndian n := by
    rw [hrep.data_toBytes, hpre, List.drop_left, hpayload]
  have hfirst : (bigEndian n).head? ≠ some 0 := by
    by_cases hzero : n = 0
    · subst hzero
      exact fun h => nomatch h
    · obtain ⟨x, c, hx, hne⟩ := bigEndian_ne_zero_cons (Nat.pos_of_ne_zero hzero)
      rw [hx, List.head?_cons, Ne, Option.some.injEq]
      exact hne
  rw [toInt_of_whole hrep.valid hhead
    (by rw [hrep.count, hpre, List.length_append]), hdrop, hpayload,
    length_bigEndian, if_neg (not_or.2 ⟨hfirst, Nat.not_lt.2 hle⟩),
    fromBigEndian_bigEndian, T.pow_maxSize, Nat.mod_eq_of_lt hn]

/-- Data that is all there was written for the integer it converts to. -/
theorem rlpBigint_of_whole {r : RLP} {offset l : Nat} (hv : r.data.Valid)
    (hhead : Head r.data.toBytes false offset l)
    (hlen : r.data.count = offset + l)
    (h : r.toInt T.maxSize .strict = .ok n) :
    rlpBigint n = .ok r.data.toBytes ∧ n < 2 ^ (8 * T.maxSize) := by
  have hlength := BytesConstRef.length_toBytes hv
  rw [toInt_of_whole hv hhead hlen] at h
  split at h
  · cases h
  · rename_i hcond
    obtain ⟨hfirst, hle⟩ := not_or.1 hcond
    generalize hp : r.data.toBytes.drop offset = p at h hfirst
    have hsize : p.length = l := by
      rw [← hp, List.length_drop]
      omega
    have hlt : fromBigEndian p < 256 ^ T.maxSize :=
      (fromBigEndian_lt p).trans_le
        (Nat.pow_le_pow_right (by omega) (by omega))
    rw [Nat.mod_eq_of_lt hlt, Except.ok.injEq] at h
    have hbytes : bigEndian n = p := by
      rw [← h, bigEndian_fromBigEndian_eq]
      cases p with
      | nil => rfl
      | cons x p =>
          refine List.dropWhile_cons_of_neg ?_
          simpa using hfirst
    have hmax := T.maxSize_lt
    rw [rlpBigint_eq (by rw [← length_bigEndian, hbytes]; omega), hbytes, ← hp,
      (bytes_of_head hhead (hlength.trans hlen)).2.1 rfl, ← h]
    exact ⟨rfl, T.pow_maxSize ▸ hlt⟩

/-- A short payload starts behind a byte that is not zero, and the bytes
written for an integer have their whole payload. -/
theorem not_cutShort_of_rlpBigint (h : rlpBigint 0 = .ok b) :
    ¬ CutShort { data := .ofBytes b } := by
  obtain rfl : [0x80] = b := Except.ok.inj h
  rintro ⟨-, l, hl, hle, hlt⟩
  obtain rfl : 0 = l := Except.ok.inj hl
  exact absurd hlt (by decide)

/-- What a strict construction lets through: nothing or a list or data cut off
before its payload, which are no integers; data that is cut short; data that
is all there. -/
theorem cutShort_cases {r : RLP} {size : Nat} (hv : r.data.Valid)
    (hsize : r.actualSize = .ok size) (hle : r.data.count ≤ size) (k : Nat) :
    (¬ r.CutShort ∧ (r.toInt k .strict = .error .badCast ∨
        r.toInt k .strict = .error .badRLP)) ∨
      (r.CutShort ∧ r.data.count < size ∧ r.toInt k .strict = .ok 0) ∨
      (¬ r.CutShort ∧ ∃ offset l, Head r.data.toBytes false offset l ∧
        r.data.count = offset + l) := by
  by_cases hcount : r.data.count = 0
  · have hnone : r.data.head? = none := if_pos hcount
    have hint : r.isInt = .ok false := by rw [isInt, hnone]
    have hgood : r.requireGood = .error .badRLP := by rw [requireGood, hnone]
    refine Or.inl ⟨fun hcut => ?_, Or.inr ?_⟩
    · have := hcut.1
      rw [hint, Except.ok.injEq] at this
      exact Bool.false_ne_true this
    · rw [toInt, hgood, error_bind]
  · obtain ⟨isList, offset, l, hhead, rfl⟩ :=
      exists_head_of_actualSize hv hcount hsize
    obtain ⟨hlength, hoffset, hlist, -⟩ := of_head hv hhead
    cases isList with
    | true =>
        have hint := isInt_of_list hv hhead
        refine Or.inl ⟨fun hcut => ?_, Or.inl ?_⟩
        · have := hcut.1
          rw [hint, Except.ok.injEq] at this
          exact Bool.false_ne_true this
        · rw [toInt, requireGood_of_head hv hhead, ok_bind, hint]
          rfl
    | false =>
        rcases Nat.lt_or_ge r.data.count (offset + l) with hlt | hge
        · obtain ⟨hcut, hwhole⟩ := toInt_of_cut hv hhead hlt k
          by_cases h : r.CutShort
          · exact Or.inr (Or.inl ⟨h, hlt, hcut h⟩)
          · exact Or.inl ⟨h, hwhole h⟩
        · refine Or.inr (Or.inr ⟨?_, offset, l, hhead, by omega⟩)
          rintro ⟨-, l', hl', -, hlt⟩
          rw [hlength, Except.ok.injEq] at hl'
          rw [hoffset] at hlt
          omega

/-- The conversion to an integer, by any strict construction: it is exact
unless the construction lets data through whose end is missing. -/
theorem convertsExactly_iff {flags : Strictness} (hflags : flags.Strict)
    {r : RLP} (h : ofRef (.ofBytes b) flags = .ok r) (T : IntType) :
    ConvertsExactly T b r ↔ flags.failIfTooSmall = true ∨ ¬ r.CutShort := by
  obtain ⟨rfl, hbig, hsmall⟩ := ofRef_strict hflags.1 h
  obtain ⟨size, hsize, hle⟩ := hbig hflags.2
  have hv : (BytesConstRef.ofBytes b).Valid := BytesConstRef.valid_ofBytes b
  have hbytes : (BytesConstRef.ofBytes b).toBytes = b :=
    BytesConstRef.toBytes_ofBytes b
  have hcases := cutShort_cases hv hsize hle T.maxSize
  constructor
  · intro hexact
    refine Or.inr fun hcut => ?_
    rcases hcases with ⟨hnot, -⟩ | ⟨-, -, hzero⟩ | ⟨hnot, -⟩
    · exact hnot hcut
    · exact not_cutShort_of_rlpBigint ((hexact.value 0).mp hzero).1 hcut
    · exact hnot hcut
  · intro hcond
    have hnot : ¬ CutShort { data := .ofBytes b } := by
      rcases hcond with hflag | hnot
      · obtain ⟨size', hsize', hge⟩ := hsmall hflag
        obtain rfl := Except.ok.inj (hsize'.symm.trans hsize)
        rcases hcases with ⟨hnot, -⟩ | ⟨-, hlt, -⟩ | ⟨hnot, -⟩
        · exact hnot
        · exact absurd hge (Nat.not_le.mpr hlt)
        · exact hnot
      · exact hnot
    rcases hcases with ⟨-, herror⟩ | ⟨hcut, -⟩ | ⟨-, offset, l, hhead, hlen⟩
    · constructor
      · intro n
        refine ⟨fun hn => ?_, fun hn => toInt_of_rlpBigint hn.1 hn.2⟩
        rcases herror with herror | herror
        · rw [herror] at hn
          cases hn
        · rw [herror] at hn
          cases hn
      · intro e he
        rcases herror with herror | herror
        · exact Or.inl (Except.error.inj (he.symm.trans herror))
        · exact Or.inr (Except.error.inj (he.symm.trans herror))
    · exact absurd hcut hnot
    · constructor
      · intro n
        refine ⟨fun hn => ?_, fun hn => toInt_of_rlpBigint hn.1 hn.2⟩
        have := rlpBigint_of_whole hv hhead hlen hn
        rwa [hbytes] at this
      · intro e he
        rw [toInt_of_whole hv hhead hlen] at he
        split at he
        · exact Or.inl (Except.error.inj he).symm
        · cases he

theorem alignRight_dropWhile {N : Nat} (h : FixedHash N) :
    alignRight N (h.data.dropWhile (· == 0)) = h := by
  have hle := (List.dropWhile_suffix (l := h.data) (· == 0)).length_le
  rw [h.size_data] at hle
  have hjoin := replicate_append_dropWhile h.data
  rw [h.size_data] at hjoin
  have hdata : ∀ d : Bytes, d.length ≤ N → (alignRight N d).data =
      List.replicate (N - d.length) 0 ++ d := by
    intro d hd
    rw [← Nat.min_eq_right hd]
    simp only [alignRight, List.take_of_length_le hd]
  apply FixedHash.ext
  rw [hdata _ hle, hjoin]

theorem toHash_of_rlpHash {N : Nat} (hN : N < 2 ^ 32) (h : FixedHash N) :
    ∃ b, rlpHash h = .ok b ∧ ∀ flags, ∃ r,
      RLP.ofRef (.ofBytes b) flags = .ok r ∧ r.toHash N .strict = .ok h := by
  generalize hd : h.data.dropWhile (· == 0) = d
  have hle : d.length ≤ N := by
    have := (List.dropWhile_suffix (l := h.data) (· == 0)).length_le
    rwa [hd, h.size_data] at this
  have hwrite : rlpHash h = .ok (encode (.data d)) := by
    have happend : RLPStream.appendHash {} h true = RLPStream.append {} d := by
      rw [← hd]
      rfl
    rw [rlpHash, happend, RLPTree.append_eq_appendRaw {} (by omega)]
    rfl
  have hfits : (RLPTree.data d).Fits := by
    have := RLPTree.length_encodeData_le (b := d) (by omega)
    unfold RLPTree.Fits
    omega
  have hrep : Rep { data := .ofBytes (encode (.data d)) } (.data d) :=
    .of_holds hfits (.whole _)
  refine ⟨encode (.data d), hwrite, fun flags => ⟨_, hrep.ofRef flags, ?_⟩⟩
  rw [hrep.toHash hle, ← hd, alignRight_dropWhile]

/-- More bytes than an `unsigned` can count are not all written into the
output, which has grown by fewer. -/
theorem appendInt_of_long {n : Nat} (hn : 2 ^ 32 ≤ bytesRequired n) :
    RLPStream.appendInt {} n = .error .outOfRange := by
  have hbig : ¬ n < 0x80 := by
    intro hlt
    have := (bytesRequired_le_iff n 1).2 (by omega)
    omega
  have hlt : bytesRequired n % 2 ^ 32 < 2 ^ 32 := Nat.mod_lt _ (by omega)
  have hshort : ∀ c : Bytes, c.length ≤ 5 →
      (RLPStream.push {} c).pushInt n (bytesRequired n % 2 ^ 32) =
        .error .outOfRange := by
    intro c hc
    have hbuffer : (RLPStream.push {} c).buffer = c := rfl
    rw [RLPStream.pushInt]
    refine if_pos ?_
    rw [hbuffer, List.length_append, List.length_replicate]
    omega
  rw [RLPStream.appendInt, if_neg (by omega), if_neg (by exact hbig)]
  simp only []
  generalize bytesRequired n % 2 ^ 32 = br at hlt hshort
  have hbrbr : bytesRequired br ≤ 4 := (bytesRequired_le_iff br 4).2 (by omega)
  by_cases hone : br < rlpDataImmLenCount
  · simp only [hone, ↓reduceIte, ok_bind]
    rw [hshort _ (by simp)]
    rfl
  · have hmax : ¬ rlpDataIndLenZero + bytesRequired br > 0xff := by
      rw [rlpDataIndLenZero_eq]
      omega
    simp only [hone, ↓reduceIte, hmax, RLPStream.pushInt_bytesRequired, ok_bind]
    have hpush : ∀ c d : Bytes, (RLPStream.push {} c).push d =
        RLPStream.push {} (c ++ d) := fun c d => rfl
    rw [hpush, hshort _ (by simp; omega)]
    rfl

/-- Bytes are appended or refused. -/
theorem append_ne_outOfRange (b : Bytes) (compact : Bool) :
    RLPStream.append {} b compact ≠ .error .outOfRange := by
  intro h
  rw [RLPStream.append] at h
  simp only [] at h
  generalize (if compact = true then b.dropWhile (· == 0) else b) = d at h
  split at h
  · cases h
  · split at h
    · cases h
    · rw [RLPStream.pushCount] at h
      split at h
      · cases h
      · cases h

/-- Appending bytes without their leading zeros is appending their integer,
where an `unsigned` counts the bytes that are left. -/
theorem append_compact_iff (b : Bytes) :
    (∀ s : RLPStream, s.append b true = s.appendInt (fromBigEndian b)) ↔
      (b.dropWhile (· == 0)).length < 2 ^ 32 := by
  have hcount : bytesRequired (fromBigEndian b) =
      (b.dropWhile (· == 0)).length := by
    rw [← length_bigEndian, bigEndian_fromBigEndian_eq]
  constructor
  · intro hall
    by_contra hlong
    have h := hall {}
    rw [appendInt_of_long (by rw [hcount]; omega)] at h
    exact append_ne_outOfRange b true h
  · intro hlt s
    rw [RLPTree.appendInt_eq_append s (hcount ▸ hlt),
      bigEndian_fromBigEndian_eq]
    rfl

/-- All that the conversions promise of an item, of bytes and of a hash: the
conversion of the item to an integer is exact, the two ways to write the bytes
as an integer agree, and the conversion to a hash undoes what writes the hash.
It fails for items that are cut short, which the flags `Strict` let through,
and for integers of four gigabytes, and never else. -/
theorem integers_iff (T : IntType) {flags : Strictness} (hflags : flags.Strict)
    {b : Bytes} {r : RLP} (h : ofRef (.ofBytes b) flags = .ok r) (c : Bytes)
    {N : Nat} (hN : N < 2 ^ 32) (x : FixedHash N) :
    (ConvertsExactly T b r ∧
      (∀ s : RLPStream, s.append c true = s.appendInt (fromBigEndian c)) ∧
      ∃ d, rlpHash x = .ok d ∧ ∀ flags', ∃ r',
        ofRef (.ofBytes d) flags' = .ok r' ∧ r'.toHash N .strict = .ok x) ↔
      (flags.failIfTooSmall = true ∨ ¬ r.CutShort) ∧
        (c.dropWhile (· == 0)).length < 2 ^ 32 :=
  and_congr (convertsExactly_iff hflags h T)
    ((and_iff_left (toHash_of_rlpHash hN x)).trans (append_compact_iff c))

/-- A number of two bytes, bytes and a hash with leading zeros. -/
theorem integers_iff_known :
    ConvertsExactly .u256 [0x82, 0x01, 0x00]
        { data := .ofBytes [0x82, 0x01, 0x00] } ∧
      (∀ s : RLPStream, s.append [0, 1, 0] true =
        s.appendInt (fromBigEndian [0, 1, 0])) ∧
      ∃ d, rlpHash (⟨[0, 0, 7], rfl⟩ : FixedHash 3) = .ok d ∧
        ∀ flags', ∃ r', ofRef (.ofBytes d) flags' = .ok r' ∧
          r'.toHash 3 .strict = .ok ⟨[0, 0, 7], rfl⟩ :=
  (@integers_iff .u256 .veryStrict ⟨rfl, rfl⟩ [0x82, 0x01, 0x00]
    { data := .ofBytes [0x82, 0x01, 0x00] } (by decide) [0, 1, 0] 3 (by decide)
    ⟨[0, 0, 7], rfl⟩).mpr ⟨Or.inl rfl, by decide⟩

/-- Four gigabytes of ones are not written alike, and two of three bytes, read
under the flags `Strict`, convert to zero. -/
theorem not_integers_exact :
    (¬ ∀ s : RLPStream, s.append (List.replicate (2 ^ 32) 1) true =
        s.appendInt (fromBigEndian (List.replicate (2 ^ 32) 1))) ∧
      ∃ r, ofRef (.ofBytes [0x83, 0x01, 0x02]) .strict = .ok r ∧
        ∀ T, ¬ ConvertsExactly T [0x83, 0x01, 0x02] r := by
  constructor
  · rw [append_compact_iff, List.dropWhile_replicate_eq_filter_not,
      List.filter_replicate]
    rw [if_pos (by decide), List.length_replicate]
    exact Nat.lt_irrefl _
  · refine ⟨{ data := .ofBytes [0x83, 0x01, 0x02] }, by decide, fun T h => ?_⟩
    have hopen : ofRef (.ofBytes [0x83, 0x01, 0x02]) .strict =
        .ok { data := .ofBytes [0x83, 0x01, 0x02] } := by decide
    rcases (convertsExactly_iff ⟨rfl, rfl⟩ hopen T).mp h with hflag | hcut
    · cases hflag
    · refine hcut ⟨by decide, 3, by decide, by decide, by decide⟩

end RLP

end Web3Core
