/-
Integers in RLP: what the writer appends for an integer is read back as that
integer by any type that has enough bytes for it.
-/
import Web3Core.RLPItems

namespace Web3Core

open BytesConstRef (window)

namespace RLPTree

/-- The tree of an integer. -/
def int (n : Nat) : RLPTree := .data (bigEndian n)

/-- An integer below 256 is a single byte. -/
theorem bigEndian_of_lt {n : Nat} (hzero : n ≠ 0) (hn : n < 256) :
    bigEndian n = [UInt8.ofNat n] := by
  rw [bigEndian, Nat.digits_of_lt 256 n hzero hn]
  rfl

theorem encode_int_small {n : Nat} (hzero : n ≠ 0) (hn : n < 0x80) :
    encode (int n) = [UInt8.ofNat n] := by
  have hbyte : ((([UInt8.ofNat n] : Bytes).headD 0).toNat) < 0x80 := by
    rw [List.headD_cons, UInt8.toNat_ofNat']
    omega
  rw [int, encode, encodeData, bigEndian_of_lt hzero (by omega),
    if_pos ⟨rfl, hbyte⟩]

theorem encode_int_large {n : Nat} (hn : 0x80 ≤ n)
    (hshort : bytesRequired n < 56) :
    encode (int n) =
      UInt8.ofNat (0x80 + bytesRequired n) :: bigEndian n := by
  have hsingle : ¬ ((bigEndian n).length = 1 ∧
      ((bigEndian n).headD 0).toNat < 0x80) := by
    rintro ⟨hlen, hhead⟩
    rw [length_bigEndian] at hlen
    have hbyte : n < 256 := (bytesRequired_le_iff n 1).1 hlen.le
    rw [bigEndian_of_lt (by omega) hbyte, List.headD_cons,
      UInt8.toNat_ofNat'] at hhead
    omega
  rw [int, encode, encodeData, if_neg hsingle, header, length_bigEndian,
    if_pos hshort]
  rfl

/-- Appending an integer whose bytes an `unsigned` can count is appending its
bytes. -/
theorem appendInt_eq_append (s : RLPStream) {n : Nat}
    (hn : bytesRequired n < 2 ^ 32) : s.appendInt n = s.append (bigEndian n) := by
  by_cases hzero : n = 0
  · subst hzero
    have hnil : bigEndian 0 = [] := rfl
    rw [RLPStream.appendInt, RLPStream.append, if_pos rfl, hnil]
    simp [RLPStream.push, RLPStream.appendRaw, RLPStream.noteAppended]
  · by_cases hsmall : n < 0x80
    · have hbyte : ((([UInt8.ofNat n] : Bytes).headD 0).toNat) <
          rlpDataImmLenStart := by
        rw [List.headD_cons, UInt8.toNat_ofNat', rlpDataImmLenStart_eq]
        omega
      rw [RLPStream.appendInt, RLPStream.append, if_neg hzero,
        if_pos (by exact hsmall), bigEndian_of_lt hzero (by omega)]
      simp only [Bool.false_eq_true, ↓reduceIte, hbyte, and_true,
        List.length_singleton]
    · have hsingle : ¬ (bytesRequired n = 1 ∧
          ((bigEndian n).headD 0).toNat < rlpDataImmLenStart) := by
        rintro ⟨hlen, hhead⟩
        have hbyte : n < 256 := (bytesRequired_le_iff n 1).1 hlen.le
        rw [bigEndian_of_lt hzero hbyte, List.headD_cons,
          UInt8.toNat_ofNat', rlpDataImmLenStart_eq] at hhead
        omega
      have hbrbr : bytesRequired (bytesRequired n) ≤ 4 :=
        (bytesRequired_le_iff _ 4).2 (by omega)
      rw [RLPStream.appendInt, RLPStream.append, if_neg hzero,
        if_neg (by exact hsmall), Nat.mod_eq_of_lt hn]
      simp only [Bool.false_eq_true, ↓reduceIte, length_bigEndian, hsingle]
      by_cases hshort : bytesRequired n < rlpDataImmLenCount
      · simp only [hshort, ↓reduceIte, ok_bind, RLPStream.pushInt_bytesRequired]
        rfl
      · have hmax : ¬ rlpDataIndLenZero + bytesRequired (bytesRequired n) >
            0xff := by
          rw [rlpDataIndLenZero_eq]
          omega
        have hmax' : ¬ bytesRequired (bytesRequired n) + rlpDataIndLenZero >
            0xff := by
          rw [Nat.add_comm]
          exact hmax
        simp only [hshort, ↓reduceIte, hmax, RLPStream.pushInt_bytesRequired,
          ok_bind, RLPStream.pushCount, hmax']
        rw [Nat.add_comm rlpDataIndLenZero]
        simp only [RLPStream.push, RLPStream.appendRaw, RLPStream.noteAppended,
          ↓reduceIte, ok_bind, List.append_assoc, List.cons_append,
          List.nil_append]

/-- Appending an integer is appending its encoding as an item. -/
theorem appendInt_eq_appendRaw (s : RLPStream) {n : Nat}
    (hshort : bytesRequired n < 56) :
    s.appendInt n = s.appendRaw (encode (int n)) 1 := by
  have hlen : (bigEndian n).length < 2 ^ 64 := by
    rw [length_bigEndian]
    omega
  rw [appendInt_eq_append s (by omega), append_eq_appendRaw s hlen, int, encode]

/-- Appending an integer is writing its tree. -/
theorem appendInt_eq_write (s : RLPStream) {n : Nat}
    (hshort : bytesRequired n < 56) : s.appendInt n = write (int n) s := by
  exact appendInt_eq_append s (by omega)

end RLPTree

namespace RLP

open RLPTree (encode encodeItems)

namespace Rep

variable {r : RLP} {n size : Nat}

theorem isInt (h : Rep r (.int n)) (hshort : bytesRequired n < 56) :
    r.isInt = .ok true := by
  have hgood := h.requireGood
  by_cases hsmall : n < 0x80
  · by_cases hzero : n = 0
    · subst hzero
      have hb : r.data.toBytes = [0x80] := h.data_toBytes
      have hhead : r.data.head? = some 0x80 := head?_cons h.valid hb
      simp only [RLP.isInt, hhead, hgood, ok_bind]
      rfl
    · have hb := h.data_toBytes
      rw [RLPTree.encode_int_small hzero hsmall] at hb
      have hhead := head?_cons h.valid hb
      have hbyte : (UInt8.ofNat n).toNat = n := by
        rw [UInt8.toNat_ofNat']
        omega
      have hlt : n < rlpDataImmLenStart := hsmall
      have hne : (UInt8.ofNat n != 0) = true := by
        rw [bne_iff_ne]
        intro heq
        rw [heq] at hbyte
        exact hzero hbyte.symm
      simp only [RLP.isInt, hhead, hgood, ok_bind, hbyte, hlt, ↓reduceIte, hne]
  · have hb := h.data_toBytes
    rw [RLPTree.encode_int_large (Nat.not_lt.1 hsmall) hshort] at hb
    obtain ⟨x, rest, hx, hne⟩ := bigEndian_ne_zero_cons (show 0 < n by omega)
    have hhead := head?_cons h.valid hb
    have hpos : 0 < bytesRequired n := bytesRequired_pos (by omega)
    have hbyte : (UInt8.ofNat (0x80 + bytesRequired n)).toNat =
        0x80 + bytesRequired n := by
      rw [UInt8.toNat_ofNat']
      omega
    have hcount := count_eq h.valid hb
    rw [hx] at hb
    have hget : r.data.get 1 = .ok x := get_succ h.valid hb rfl
    have hlt : ¬ 0x80 + bytesRequired n < rlpDataImmLenStart := by
      rw [rlpDataImmLenStart_eq]
      omega
    have hne' : ¬ 0x80 + bytesRequired n = rlpDataImmLenStart := by
      rw [rlpDataImmLenStart_eq]
      omega
    have hle : 0x80 + bytesRequired n ≤ rlpDataIndLenZero := by
      rw [rlpDataIndLenZero_eq]
      omega
    have hmany : ¬ r.data.count ≤ 1 := by
      rw [hcount, List.length_cons, length_bigEndian]
      omega
    have htrue : (x != 0) = true := by rwa [bne_iff_ne]
    simp only [RLP.isInt, hhead, hgood, ok_bind, hbyte, hlt, hne', hle, hmany,
      ↓reduceIte, hget, htrue]

/-- The conversion to an integer of `size` bytes. -/
theorem toInt (h : Rep r (.int n)) (hsize : n < 256 ^ size)
    (hshort : bytesRequired n < 56) (flags : Strictness) :
    r.toInt size flags = .ok n := by
  obtain ⟨v, hv, hvalid, hbytes⟩ := h.exists_payload
  have hpayload : v.toBytes = bigEndian n := hbytes
  have hcount : v.count = bytesRequired n := by
    rw [← BytesConstRef.length_toBytes hvalid, hpayload, length_bigEndian]
  have hle : bytesRequired n ≤ size := (bytesRequired_le_iff n size).2 hsize
  have hlist : r.isList = false := h.isList
  have hcond : (decide (v.count > size) && flags.failIfTooBig) = false := by
    rw [hcount, decide_eq_false (by omega), Bool.false_and]
  simp only [RLP.toInt, h.requireGood, h.isInt hshort, hlist, h.isNull, hv,
    ok_bind, Bool.not_true, Bool.false_and, Bool.or_self, Bool.false_eq_true,
    ↓reduceIte, hcond, hpayload, fromBigEndian_bigEndian,
    Nat.mod_eq_of_lt hsize]

end Rep

end RLP

end Web3Core
