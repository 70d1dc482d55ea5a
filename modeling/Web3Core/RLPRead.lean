/-
The reader on single items.  What the length bytes of an item say is a
relation between the first bytes of a view and the numbers the reader computes;
the reader succeeds exactly where the relation holds, which is where the
header is the one the format prescribes for the length.
-/
import Web3Core.RLPTree

namespace Web3Core

open RLPTree (header)

/-- The first bytes of an item, whether it is a list, where its payload starts
and how long the payload is. -/
inductive Head : Bytes → Bool → Nat → Nat → Prop
  | byte {x : Byte} (rest : Bytes) (hx : x.toNat < 0x80) :
      Head (x :: rest) false 0 1
  | data {l : Nat} (rest : Bytes) (hl : l < 2 ^ 64 - 0x101)
      (hgood : l = 1 → ∃ x rest', rest = x :: rest' ∧ 0x80 ≤ x.toNat) :
      Head (header 0x80 l ++ rest) false (header 0x80 l).length l
  | list {l : Nat} (rest : Bytes) (hl : l < 2 ^ 64 - 0x101) :
      Head (header 0xc0 l ++ rest) true (header 0xc0 l).length l

/-- The first byte of a header and the length bytes after it. -/
theorem header_eq_cons (base : Nat) (hbase : base = 0x80 ∨ base = 0xc0)
    {l : Nat} (hl : l < 2 ^ 64) :
    ∃ x more, header base l = x :: more ∧
      ((l < 56 ∧ x.toNat = base + l ∧ more = []) ∨
        (56 ≤ l ∧ x.toNat = base + 55 + bytesRequired l ∧
          more = bigEndian l ∧ 0 < bytesRequired l ∧
          bytesRequired l ≤ 8)) := by
  unfold header
  by_cases hshort : l < 56
  · rw [if_pos hshort]
    refine ⟨_, _, rfl, Or.inl ⟨hshort, ?_, rfl⟩⟩
    rw [UInt8.toNat_ofNat']
    omega
  · have hbr : bytesRequired l ≤ 8 := (bytesRequired_le_iff _ 8).2 (by omega)
    have hpos : 0 < bytesRequired l := bytesRequired_pos (by omega)
    rw [if_neg hshort]
    refine ⟨_, _, rfl, Or.inr ⟨by omega, ?_, rfl, hpos, hbr⟩⟩
    rw [UInt8.toNat_ofNat']
    omega

theorem Head.ne_nil {b : Bytes} {isList : Bool} {offset l : Nat}
    (h : Head b isList offset l) : b ≠ [] := by
  have hpos := RLPTree.length_header_pos
  cases h with
  | byte rest hx => exact List.cons_ne_nil _ _
  | @data l rest hl hgood =>
      exact fun hnil => absurd (congrArg List.length
        (List.append_eq_nil_iff.1 hnil).1) (hpos 0x80 l).ne'
  | @list l rest hl =>
      exact fun hnil => absurd (congrArg List.length
        (List.append_eq_nil_iff.1 hnil).1) (hpos 0xc0 l).ne'

namespace RLP

section Reader

variable {r : RLP} {x : Byte} {more rest : Bytes}

theorem count_eq (hv : r.data.Valid) {b : Bytes} (hb : r.data.toBytes = b) :
    r.data.count = b.length := by
  rw [← hb, BytesConstRef.length_toBytes hv]

theorem head?_cons (hv : r.data.Valid) (hb : r.data.toBytes = x :: rest) :
    r.data.head? = some x := by
  rw [BytesConstRef.head?_eq hv, hb]
  rfl

theorem get_succ (hv : r.data.Valid) (hb : r.data.toBytes = x :: rest) {i : Nat}
    {y : Byte} (hy : rest[i]? = some y) : r.data.get (i + 1) = .ok y :=
  BytesConstRef.get_eq hv (by rw [hb]; simpa using hy)

/-- The length bytes are read as an integer. -/
theorem readLength_eq (hv : r.data.Valid)
    (hb : r.data.toBytes = x :: (more ++ rest)) :
    readLength r more.length = .ok (fromBigEndian more) := by
  have hpre : ∀ k ≤ more.length,
      readLength r k = .ok (fromBigEndian (more.take k)) := by
    intro k hk
    induction k with
    | zero => rfl
    | succ k ih =>
        have hlt : k < more.length := hk
        have hy : (more ++ rest)[k]? = some more[k] := by
          rw [List.getElem?_append_left hlt, List.getElem?_eq_getElem hlt]
        have hread := ih (by omega)
        unfold readLength at hread ⊢
        rw [List.range_succ, List.foldlM_append, hread,
          List.take_add_one, List.getElem?_eq_getElem hlt, Option.toList_some,
          fromBigEndian_append_singleton]
        simp [bind, Except.bind, pure, Except.pure, get_succ hv hb hy]
  rw [hpre more.length le_rfl, List.take_length]

theorem indirectLength_eq (hv : r.data.Valid) {l : Nat}
    (hb : r.data.toBytes = x :: (bigEndian l ++ rest)) (hleast : 56 ≤ l)
    (hl : l < 2 ^ 64 - 0x101) :
    r.indirectLength (bytesRequired l) 56 = .ok l := by
  obtain ⟨y, b, hy, hne⟩ := bigEndian_ne_zero_cons (show 0 < l by omega)
  have hcount : ¬ r.data.count ≤ bytesRequired l := by
    rw [count_eq hv hb, List.length_cons, List.length_append, length_bigEndian]
    omega
  have hfirst : r.data.get 1 = .ok y := by
    refine get_succ hv hb (i := 0) ?_
    simp [hy]
  have hsize : ¬ 8 < bytesRequired l := by
    have := (bytesRequired_le_iff l 8).2 (by omega)
    omega
  have hread : readLength r (bytesRequired l) = .ok l := by
    rw [← length_bigEndian, readLength_eq hv hb, fromBigEndian_bigEndian]
  have hmax : ¬ l ≥ sizeMax - 0x100 := by
    unfold sizeMax
    omega
  simp only [indirectLength, hcount, ↓reduceIte, hfirst, bind, Except.bind, hne,
    gt_iff_lt, hsize, hread, Nat.not_lt.2 hleast, hmax]

theorem exists_of_indirectLength (hv : r.data.Valid)
    (hb : r.data.toBytes = x :: rest) {size l : Nat} (hsize : 0 < size)
    (h : r.indirectLength size 56 = .ok l) :
    ∃ rest', rest = bigEndian l ++ rest' ∧ bytesRequired l = size ∧ 56 ≤ l ∧
      l < 2 ^ 64 - 0x101 := by
  have hcount := count_eq hv hb
  unfold indirectLength at h
  split at h
  · cases h
  · rename_i hbig
    rw [List.length_cons] at hcount
    obtain ⟨y, more, hmore⟩ : ∃ y more, rest.take size = y :: more :=
      List.exists_cons_of_length_pos (by rw [List.length_take]; omega)
    have hrest : rest = (y :: more) ++ rest.drop size := by
      rw [← hmore, List.take_append_drop]
    have hlen : (y :: more).length = size := by
      rw [← hmore, List.length_take]
      omega
    have hfirst : r.data.get 1 = .ok y := by
      refine get_succ hv hb (i := 0) ?_
      rw [hrest]
      rfl
    rw [hrest] at hb
    have hread : readLength r size = .ok (fromBigEndian (y :: more)) := by
      rw [← hlen]
      exact readLength_eq hv hb
    simp only [hfirst, hread, bind, Except.bind] at h
    split at h
    · cases h
    · rename_i hne
      split at h
      · cases h
      · split at h
        · cases h
        · split at h
          · cases h
          · rename_i hleast hmax
            obtain rfl : fromBigEndian (y :: more) = l := by simpa using h
            have hbe := bigEndian_fromBigEndian (b := more) hne
            refine ⟨rest.drop size, by rw [hbe]; exact hrest, ?_, by omega, ?_⟩
            · rw [← length_bigEndian, hbe, hlen]
            · unfold sizeMax at hmax
              omega

end Reader

section Head

variable {r : RLP} {b : Bytes} {isList : Bool} {offset l : Nat}

/-- The reader's view of the first byte of a header. -/
theorem headSatisfies_cons (hv : r.data.Valid) {x : Byte} {rest : Bytes}
    (hb : r.data.toBytes = x :: rest) (p : Nat → Bool) :
    r.headSatisfies p = p x.toNat := by
  simp [headSatisfies, head?_cons hv hb]

theorem isData_cons (hv : r.data.Valid) {x : Byte} {rest : Bytes}
    (hb : r.data.toBytes = x :: rest) : r.isData = decide (x.toNat < 0xc0) := by
  rw [isData, headSatisfies_cons hv hb]
  rfl

theorem isList_cons (hv : r.data.Valid) {x : Byte} {rest : Bytes}
    (hb : r.data.toBytes = x :: rest) : r.isList = decide (0xc0 ≤ x.toNat) := by
  rw [RLP.isList, headSatisfies_cons hv hb]
  rfl

theorem isSingleByte_cons (hv : r.data.Valid) {x : Byte} {rest : Bytes}
    (hb : r.data.toBytes = x :: rest) :
    r.isSingleByte = decide (x.toNat < 0x80) := by
  rw [isSingleByte, headSatisfies_cons hv hb]
  rfl

theorem requireGood_cons (hv : r.data.Valid) {x : Byte} {rest : Bytes}
    (hb : r.data.toBytes = x :: rest) :
    r.requireGood = .ok () ↔
      (x.toNat = 0x81 → ∃ y rest', rest = y :: rest' ∧ 0x80 ≤ y.toNat) := by
  have hcount := count_eq hv hb
  rw [List.length_cons] at hcount
  simp only [requireGood, head?_cons hv hb, rlpDataImmLenStart_eq,
    Nat.reduceAdd]
  by_cases hx : x.toNat = 0x81
  · simp only [hx, ne_eq, not_true_eq_false, ↓reduceIte, forall_const]
    cases rest with
    | nil => simp [hcount]
    | cons y rest' =>
        have hsize : ¬ r.data.count < 2 := by
          rw [hcount, List.length_cons]
          omega
        have hy : r.data.get 1 = .ok y := get_succ hv hb (i := 0) rfl
        simp only [hsize, ↓reduceIte, hy, bind, Except.bind]
        by_cases hsmall : y.toNat < 0x80
        · simp [hsmall, Nat.not_le.2 hsmall]
        · simp [hsmall, Nat.not_lt.1 hsmall]
  · simp [hx]

theorem lengthSize_cons (hv : r.data.Valid) {x : Byte} {rest : Bytes}
    (hb : r.data.toBytes = x :: rest) :
    r.lengthSize =
      if x.toNat < 0xc0 then x.toNat - 0xb7 else x.toNat - 0xf7 := by
  rw [lengthSize, head?_cons hv hb]
  simp only [isData_cons hv hb, isList_cons hv hb]
  simp only [rlpDataIndLenZero_eq, rlpListIndLenZero_eq]
  simp only [gt_iff_lt, Bool.and_eq_true, decide_eq_true_eq]
  by_cases hx : x.toNat < 0xc0
  · by_cases hlong : 0xb7 < x.toNat
    · simp only [hx, hlong, and_self, ↓reduceIte]
    · have hlist : ¬ 0xc0 ≤ x.toNat := by omega
      simp only [hx, hlong, hlist, and_false, false_and, ↓reduceIte]
      omega
  · by_cases hlong : 0xf7 < x.toNat
    · have hlist : 0xc0 ≤ x.toNat := by omega
      simp only [hx, hlong, hlist, false_and, and_self, ↓reduceIte]
    · simp only [hx, hlong, false_and, and_false, ↓reduceIte]
      omega

theorem payloadOffset_cons (hv : r.data.Valid) {x : Byte} {rest : Bytes}
    (hb : r.data.toBytes = x :: rest) :
    r.payloadOffset =
      if x.toNat < 0x80 then 0
      else if x.toNat < 0xc0 then 1 + (x.toNat - 0xb7)
      else 1 + (x.toNat - 0xf7) := by
  simp only [payloadOffset, isSingleByte_cons hv hb, lengthSize_cons hv hb,
    decide_eq_true_eq]
  split
  · rfl
  · split <;> rfl

theorem length_cons (hv : r.data.Valid) {x : Byte} {rest : Bytes}
    (hb : r.data.toBytes = x :: rest) (hgood : r.requireGood = .ok ()) :
    r.length =
      if x.toNat < 0x80 then .ok 1
      else if x.toNat ≤ 0xb7 then .ok (x.toNat - 0x80)
      else if x.toNat < 0xc0 then r.indirectLength (x.toNat - 0xb7) 56
      else if x.toNat ≤ 0xf7 then .ok (x.toNat - 0xc0)
      else r.indirectLength (x.toNat - 0xf7) 56 := by
  simp only [RLP.length, head?_cons hv hb, hgood, bind, Except.bind]
  rfl

/-- The reader computes what the head says. -/
theorem of_head (hv : r.data.Valid) (h : Head r.data.toBytes isList offset l) :
    r.length = .ok l ∧ r.payloadOffset = offset ∧ r.isList = isList ∧
      r.isData = !isList := by
  generalize hb : r.data.toBytes = b at h
  cases h with
  | @byte x rest hx =>
      have hgood := (requireGood_cons hv hb).2 (by omega)
      rw [length_cons hv hb hgood, payloadOffset_cons hv hb, isList_cons hv hb,
        isData_cons hv hb, if_pos hx, if_pos hx]
      simp only [true_and, decide_eq_false_iff_not, Bool.not_false,
        decide_eq_true_eq]
      omega
  | @data l rest hl hsingle =>
      obtain ⟨x, more, hhead, ⟨hshort, hx, rfl⟩ | ⟨hlong, hx, rfl, hpos, hle⟩⟩ :=
        header_eq_cons 0x80 (Or.inl rfl) (show l < 2 ^ 64 by omega)
      · rw [hhead] at hb ⊢
        have hgood := (requireGood_cons hv hb).2 fun hone => by
          simpa using hsingle (by omega)
        rw [length_cons hv hb hgood, payloadOffset_cons hv hb,
          isList_cons hv hb, isData_cons hv hb, if_neg (by omega),
          if_pos (by omega), if_neg (by omega), if_pos (by omega)]
        simp only [Except.ok.injEq, decide_eq_false_iff_not, Bool.not_false,
          decide_eq_true_eq, List.length_singleton]
        omega
      · rw [hhead] at hb ⊢
        have hgood := (requireGood_cons hv hb).2 (by omega)
        have hsize : x.toNat - 0xb7 = bytesRequired l := by omega
        rw [length_cons hv hb hgood, payloadOffset_cons hv hb,
          isList_cons hv hb, isData_cons hv hb, if_neg (by omega),
          if_neg (by omega), if_pos (by omega), if_neg (by omega),
          if_pos (by omega), hsize, indirectLength_eq hv hb hlong hl]
        simp only [decide_eq_false_iff_not, Bool.not_false, decide_eq_true_eq,
          List.length_cons, length_bigEndian, true_and]
        omega
  | @list l rest hl =>
      obtain ⟨x, more, hhead, ⟨hshort, hx, rfl⟩ | ⟨hlong, hx, rfl, hpos, hle⟩⟩ :=
        header_eq_cons 0xc0 (Or.inr rfl) (show l < 2 ^ 64 by omega)
      · rw [hhead] at hb ⊢
        have hgood := (requireGood_cons hv hb).2 (by omega)
        rw [length_cons hv hb hgood, payloadOffset_cons hv hb,
          isList_cons hv hb, isData_cons hv hb, if_neg (by omega),
          if_neg (by omega), if_neg (by omega), if_pos (by omega),
          if_neg (by omega), if_neg (by omega)]
        simp only [Except.ok.injEq, decide_eq_false_iff_not, Bool.not_true,
          decide_eq_true_eq, List.length_singleton]
        omega
      · rw [hhead] at hb ⊢
        have hgood := (requireGood_cons hv hb).2 (by omega)
        have hsize : x.toNat - 0xf7 = bytesRequired l := by omega
        rw [length_cons hv hb hgood, payloadOffset_cons hv hb,
          isList_cons hv hb, isData_cons hv hb, if_neg (by omega),
          if_neg (by omega), if_neg (by omega), if_neg (by omega),
          if_neg (by omega), if_neg (by omega), hsize,
          indirectLength_eq hv hb hlong hl]
        simp only [decide_eq_false_iff_not, Bool.not_true, decide_eq_true_eq,
          List.length_cons, length_bigEndian, true_and]
        omega

/-- Where the reader finds a length, the view begins with the head that says
so. -/
theorem exists_head (hv : r.data.Valid) (hne : r.data.toBytes ≠ [])
    (h : r.length = .ok l) :
    Head r.data.toBytes r.isList r.payloadOffset l := by
  obtain ⟨x, rest, hb⟩ := List.exists_cons_of_ne_nil hne
  have hgood : r.requireGood = .ok () := by
    rw [RLP.length, head?_cons hv hb] at h
    cases hg : r.requireGood with
    | ok u => rfl
    | error e => simp [hg, bind, Except.bind] at h
  have hsingle := (requireGood_cons hv hb).1 hgood
  rw [length_cons hv hb hgood] at h
  suffices hhead : ∃ isList offset, Head r.data.toBytes isList offset l by
    obtain ⟨isList, offset, hhead⟩ := hhead
    obtain ⟨-, rfl, rfl, -⟩ := of_head hv hhead
    exact hhead
  rw [hb]
  split at h
  · rename_i hx
    obtain rfl : 1 = l := by simpa using h
    exact ⟨_, _, .byte rest hx⟩
  · split at h
    · rename_i hx hshort
      obtain rfl : x.toNat - 0x80 = l := by simpa using h
      have hheader : header 0x80 (x.toNat - 0x80) = [x] := by
        rw [header, if_pos (by omega), Nat.add_sub_cancel' (by omega),
          UInt8.ofNat_toNat]
      have hhead := Head.data (l := x.toNat - 0x80) rest (by omega)
        fun hone => hsingle (by omega)
      rw [hheader] at hhead
      exact ⟨_, _, hhead⟩
    · split at h
      · rename_i hshort hdata
        obtain ⟨rest', rfl, hsize, hleast, hl⟩ :=
          exists_of_indirectLength hv hb (by omega) h
        have hheader : header 0x80 l = x :: bigEndian l := by
          rw [header, if_neg (by omega), hsize, Nat.add_sub_cancel' (by omega),
            UInt8.ofNat_toNat]
        have hhead := Head.data rest' hl (by omega)
        rw [hheader] at hhead
        exact ⟨_, _, hhead⟩
      · split at h
        · rename_i hdata hshort
          obtain rfl : x.toNat - 0xc0 = l := by simpa using h
          have hheader : header 0xc0 (x.toNat - 0xc0) = [x] := by
            rw [header, if_pos (by omega), Nat.add_sub_cancel' (by omega),
              UInt8.ofNat_toNat]
          have hhead := Head.list (l := x.toNat - 0xc0) rest (by omega)
          rw [hheader] at hhead
          exact ⟨_, _, hhead⟩
        · rename_i hshort
          obtain ⟨rest', rfl, hsize, hleast, hl⟩ :=
            exists_of_indirectLength hv hb (by omega) h
          have hheader : header 0xc0 l = x :: bigEndian l := by
            rw [header, if_neg (by omega), hsize,
              Nat.add_sub_cancel' (by omega), UInt8.ofNat_toNat]
          have hhead := Head.list rest' hl
          rw [hheader] at hhead
          exact ⟨_, _, hhead⟩

end Head

end RLP

end Web3Core
