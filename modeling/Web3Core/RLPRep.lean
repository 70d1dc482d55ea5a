/-
Views of encoded trees.  A view of an encoding shows the tree it encodes: the
kind of the item, its payload and, for a byte string, its conversions are what
the tree says, wherever in memory the encoding lies and whatever follows it.
-/
import Web3Core.RLPRead

namespace Web3Core

open BytesConstRef (window)

/-- The memory holds `b` at the address `p`. -/
def Holds (mem : Bytes) (p : Nat) (b : Bytes) : Prop :=
  ∃ pre post, mem = pre ++ (b ++ post) ∧ pre.length = p

namespace Holds

variable {mem b c : Bytes} {p : Nat}

theorem whole (b : Bytes) : Holds b 0 b := ⟨[], [], by simp, rfl⟩

theorem left (h : Holds mem p (b ++ c)) : Holds mem p b := by
  obtain ⟨pre, post, rfl, hp⟩ := h
  exact ⟨pre, c ++ post, by simp, hp⟩

theorem right (h : Holds mem p (b ++ c)) : Holds mem (p + b.length) c := by
  obtain ⟨pre, post, rfl, hp⟩ := h
  exact ⟨pre ++ b, post, by simp, by rw [List.length_append, hp]⟩

theorem valid (h : Holds mem p b) : (window mem p b.length).Valid := by
  obtain ⟨pre, post, rfl, hp⟩ := h
  simp only [BytesConstRef.Valid, window, List.length_append]
  omega

theorem toBytes (h : Holds mem p b) : (window mem p b.length).toBytes = b := by
  obtain ⟨pre, post, rfl, rfl⟩ := h
  simp [BytesConstRef.toBytes, window]

end Holds

namespace RLPTree

def isList : RLPTree → Bool
  | .data _ => false
  | .list _ => true

/-- What the payload of the encoding is. -/
def payload : RLPTree → Bytes
  | .data b => b
  | .list items => encodeItems items

/-- The encoding of a tree begins with the head for its payload. -/
theorem exists_head {t : RLPTree} (hfits : t.Fits) (rest : Bytes) :
    ∃ pre, encode t = pre ++ t.payload ∧
      Head (encode t ++ rest) t.isList pre.length t.payload.length := by
  unfold Fits at hfits
  cases t with
  | data b =>
      rw [encode, encodeData] at hfits ⊢
      split
      · rename_i h
        obtain ⟨x, rfl⟩ := List.length_eq_one_iff.1 h.1
        exact ⟨[], rfl, .byte rest h.2⟩
      · rename_i h
        rw [if_neg h, List.length_append] at hfits
        have hpos := length_header_pos 0x80 b.length
        refine ⟨header 0x80 b.length, rfl, ?_⟩
        rw [List.append_assoc]
        refine .data (b ++ rest) (by omega) fun hone => ?_
        obtain ⟨x, rfl⟩ := List.length_eq_one_iff.1 hone
        exact ⟨x, rest, rfl, by simpa using h⟩
  | list items =>
      have hpos := length_header_pos 0xc0 (encodeItems items).length
      rw [encode, encodeList, List.length_append] at hfits
      refine ⟨header 0xc0 (encodeItems items).length, rfl, ?_⟩
      rw [encode, encodeList, List.append_assoc]
      exact .list (encodeItems items ++ rest) (by omega)

end RLPTree

namespace RLP

open RLPTree (encode encodeItems)

theorem actualSize_of_head {r : RLP} (hv : r.data.Valid) {isList : Bool}
    {offset l : Nat} (h : Head r.data.toBytes isList offset l) :
    r.actualSize = .ok (offset + l) := by
  obtain ⟨hlength, hoffset, hlist, hdata⟩ := of_head hv h
  obtain ⟨x, rest, hb⟩ := List.exists_cons_of_ne_nil h.ne_nil
  have hcount := count_eq hv hb
  rw [List.length_cons] at hcount
  have hnull : r.isNull = false := by simp [isNull, hcount]
  rw [actualSize, hnull]
  by_cases hsingle : r.isSingleByte
  · have hx : x.toNat < 0x80 := by simpa [isSingleByte_cons hv hb] using hsingle
    have hgood := (requireGood_cons hv hb).2 (by omega)
    rw [length_cons hv hb hgood, if_pos hx] at hlength
    rw [payloadOffset_cons hv hb, if_pos hx] at hoffset
    obtain rfl : 1 = l := by simpa using hlength
    simp [hsingle, ← hoffset]
  · cases isList <;> simp [hsingle, hlist, hdata, hlength, hoffset, bind,
      Except.bind]

/-- A view that has the size its beginning says is accepted under any
flags. -/
theorem ofRef_of_size {d : BytesConstRef} {s : Strictness} {size : Nat}
    (hsize : RLP.actualSize { data := d } = .ok size)
    (hbig : s.failIfTooBig = true → d.count ≤ size)
    (hsmall : s.failIfTooSmall = true → size ≤ d.count) :
    ofRef d s = .ok { data := d } := by
  have hfirst : refuseTooBig d s = .ok d := by
    unfold refuseTooBig
    split
    · rename_i h
      simp [hsize, bind, Except.bind, Nat.not_lt.2 (hbig h)]
    · rfl
  have hsecond : refuseTooSmall d d.count s = .ok d := by
    unfold refuseTooSmall
    split
    · rename_i h
      simp [hsize, bind, Except.bind, Nat.not_lt.2 (hsmall h)]
    · rfl
  simp [ofRef, hfirst, hsecond, bind, Except.bind]

/-- The size found at the beginning of a view. -/
theorem sizeAsEncoded_eq {mem : Bytes} {p : Nat} {t : RLPTree} {rest : Bytes}
    (hfits : t.Fits) (h : Holds mem p (encode t ++ rest)) :
    sizeAsEncoded (window mem p (encode t ++ rest).length) =
      .ok (encode t).length := by
  obtain ⟨pre, hpre, hhead⟩ := RLPTree.exists_head hfits rest
  have hsize : RLP.actualSize { data := window mem p (encode t ++ rest).length } =
      .ok (encode t).length := by
    rw [actualSize_of_head h.valid (by rw [h.toBytes]; exact hhead), hpre,
      List.length_append]
  have href := ofRef_of_size (s := .throwIfTooSmall) hsize (fun h => by cases h)
    fun _ => by simp [window]
  rw [sizeAsEncoded, href, ok_bind, hsize]

theorem sizeAsEncoded_empty (mem : Bytes) (p : Nat) :
    sizeAsEncoded (window mem p 0) = .ok 0 := rfl

/-- A view of the encoding of `t` and nothing else, not yet indexed. -/
structure Rep (r : RLP) (t : RLPTree) : Prop where
  fits : t.Fits
  view : ∃ mem p, r = { data := window mem p (encode t).length } ∧
    Holds mem p (encode t)

namespace Rep

variable {r : RLP} {t : RLPTree} {b : Bytes}

theorem of_holds {mem : Bytes} {p : Nat} (hfits : t.Fits)
    (h : Holds mem p (encode t)) :
    Rep { data := window mem p (encode t).length } t :=
  ⟨hfits, mem, p, rfl, h⟩

theorem valid (h : Rep r t) : r.data.Valid := by
  obtain ⟨mem, p, rfl, hp⟩ := h.view
  exact hp.valid

theorem data_toBytes (h : Rep r t) : r.data.toBytes = encode t := by
  obtain ⟨mem, p, rfl, hp⟩ := h.view
  exact hp.toBytes

theorem count (h : Rep r t) : r.data.count = (encode t).length := by
  obtain ⟨mem, p, rfl, hp⟩ := h.view
  rfl

theorem head (h : Rep r t) :
    ∃ pre, encode t = pre ++ t.payload ∧
      Head r.data.toBytes t.isList pre.length t.payload.length := by
  simpa [h.data_toBytes] using RLPTree.exists_head h.fits []

theorem actualSize (h : Rep r t) :
    r.actualSize = .ok (encode t).length := by
  obtain ⟨pre, hpre, hhead⟩ := h.head
  rw [actualSize_of_head h.valid hhead, hpre, List.length_append]

/-- The view is accepted under any flags. -/
theorem ofRef (h : Rep r t) (s : Strictness) : RLP.ofRef r.data s = .ok r := by
  obtain ⟨mem, p, rfl, -⟩ := h.view
  exact ofRef_of_size h.actualSize (fun _ => le_rfl) fun _ => le_rfl

/-- Reading an encoding. -/
theorem ofBytes (hfits : t.Fits) :
    ∃ r, RLP.ofBytes (encode t) = .ok r ∧ Rep r t :=
  have h : Rep { data := window (encode t) 0 (encode t).length } t :=
    .of_holds hfits (.whole _)
  ⟨_, h.ofRef .veryStrict, h⟩

theorem isNull (h : Rep r t) : r.isNull = false := by
  have := RLPTree.length_encode_pos t
  simp [RLP.isNull, h.count, this.ne']

theorem isList (h : Rep r t) : r.isList = t.isList := by
  obtain ⟨pre, -, hhead⟩ := h.head
  exact (of_head h.valid hhead).2.2.1

theorem isData (h : Rep r t) : r.isData = !t.isList := by
  obtain ⟨pre, -, hhead⟩ := h.head
  exact (of_head h.valid hhead).2.2.2

theorem length (h : Rep r t) : r.length = .ok t.payload.length := by
  obtain ⟨pre, -, hhead⟩ := h.head
  exact (of_head h.valid hhead).1

theorem requireGood (h : Rep r t) : r.requireGood = .ok () := by
  have hlength := h.length
  obtain ⟨x, rest, hb⟩ := List.exists_cons_of_ne_nil (RLPTree.encode_ne_nil t)
  rw [RLP.length, head?_cons h.valid (h.data_toBytes.trans hb)] at hlength
  cases hgood : r.requireGood with
  | ok u => rfl
  | error e => simp [hgood, bind, Except.bind] at hlength

/-- The payload is a view of the part of the encoding behind the head. -/
theorem payload_eq {mem : Bytes} {p : Nat}
    (h : Rep { data := window mem p (encode t).length } t)
    (hp : Holds mem p (encode t)) :
    ∃ q, RLP.payload { data := window mem p (encode t).length } =
        .ok (window mem q t.payload.length) ∧ Holds mem q t.payload ∧
      q + t.payload.length = p + (encode t).length := by
  obtain ⟨pre, hpre, hhead⟩ := h.head
  obtain ⟨hlength, hoffset, -, -⟩ := of_head h.valid hhead
  have hsum : (encode t).length = pre.length + t.payload.length := by
    rw [hpre, List.length_append]
  have hmax : t.payload.length ≠ sizeMax := by
    have := h.fits
    unfold RLPTree.Fits at this
    unfold sizeMax
    omega
  have hle : pre.length + t.payload.length ≤
      (window mem p (encode t).length).count := hsum.ge
  have hsmall : ¬ t.payload.length >
      (window mem p (encode t).length).count := by omega
  refine ⟨p + pre.length, ?_, ?_, by omega⟩
  · rw [RLP.payload, hlength, ok_bind, if_neg hsmall,
      hoffset, BytesConstRef.cropped_of_le rfl hle hmax]
    rfl
  · rw [hpre] at hp
    exact hp.right

theorem exists_payload (h : Rep r t) :
    ∃ v, r.payload = .ok v ∧ v.Valid ∧ v.toBytes = t.payload := by
  obtain ⟨mem, p, rfl, hp⟩ := h.view
  obtain ⟨q, hq, hholds, -⟩ := h.payload_eq hp
  exact ⟨_, hq, hholds.valid, hholds.toBytes⟩

theorem toBytes (h : Rep r (.data b)) : r.toBytes = .ok b := by
  obtain ⟨v, hv, hvalid, hbytes⟩ := h.exists_payload
  have hcount : v.count = b.length := by
    rw [← BytesConstRef.length_toBytes hvalid, hbytes]
    rfl
  have hdata : r.isData = true := h.isData
  simp [RLP.toBytes, hdata, hv, h.length, bind, Except.bind, readBytes,
    hcount, hbytes, RLPTree.payload]

theorem toString (h : Rep r (.data b)) : r.toString = .ok b := by
  obtain ⟨mem, p, rfl, hp⟩ := h.view
  obtain ⟨q, hq, hholds, -⟩ := h.payload_eq hp
  have hdata : RLP.isData { data := window mem p (encode (.data b)).length } =
      true := h.isData
  have hmax : b.length ≠ sizeMax := by
    have := h.fits
    have hle := RLPTree.length_data_le b
    unfold RLPTree.Fits at this
    unfold sizeMax
    omega
  have hcrop : (window mem q b.length).cropped 0 b.length =
      window mem q b.length :=
    BytesConstRef.cropped_of_le rfl (by simp [window]) hmax
  simp only [RLPTree.payload] at hq hholds
  simp [RLP.toString, hdata, hq, h.length, bind, Except.bind,
    RLPTree.payload, hcrop, hholds.toBytes]

/-- The conversion to a hash aligns a short byte string to the right. -/
theorem toHash {N : Nat} (h : Rep r (.data b)) (hle : b.length ≤ N) :
    r.toHash N .strict = .ok (alignRight N b) := by
  obtain ⟨v, hv, hvalid, hbytes⟩ := h.exists_payload
  have hcount : v.count = b.length := by
    rw [← BytesConstRef.length_toBytes hvalid, hbytes]
    rfl
  have hdata : r.isData = true := h.isData
  simp [RLP.toHash, h.requireGood, hv, hdata, hbytes, hcount, bind,
    Except.bind, Strictness.strict, Nat.not_lt.2 hle, RLPTree.payload]

theorem toHash_of_lt (h : Rep r (.data b)) (hlt : 32 < b.length) :
    r.toHash 32 .strict = .error .badCast := by
  obtain ⟨v, hv, hvalid, hbytes⟩ := h.exists_payload
  have hcount : v.count = b.length := by
    rw [← BytesConstRef.length_toBytes hvalid, hbytes]
    rfl
  simp [RLP.toHash, h.requireGood, hv, hcount, bind, Except.bind,
    Strictness.strict, hlt]

/-- Empty items are the empty byte string and the empty list. -/
theorem isEmpty (h : Rep r t) : r.isEmpty = t.payload.isEmpty := by
  obtain ⟨pre, -, hhead⟩ := h.head
  obtain ⟨x, rest, hx⟩ := List.exists_cons_of_ne_nil (RLPTree.encode_ne_nil t)
  have hb := h.data_toBytes.trans hx
  rw [RLP.isEmpty, headSatisfies_cons h.valid hb, Bool.eq_iff_iff,
    List.isEmpty_iff_length_eq_zero, Bool.or_eq_true, beq_iff_eq, beq_iff_eq,
    rlpDataImmLenStart_eq, rlpListStart_eq]
  generalize t.payload.length = l at hhead ⊢
  rw [hb] at hhead
  generalize t.isList = isList, pre.length = offset at hhead
  generalize hcons : x :: rest = b at hhead
  cases hhead with
  | byte rest' hlt =>
      obtain ⟨rfl, -⟩ := List.cons.inj hcons
      omega
  | data rest' hl hgood =>
      obtain ⟨y, more, hy, hshape⟩ :=
        header_eq_cons 0x80 (Or.inl rfl) (show l < 2 ^ 64 by omega)
      rw [hy] at hcons
      obtain ⟨rfl, -⟩ := List.cons.inj hcons
      omega
  | list rest' hl =>
      obtain ⟨y, more, hy, hshape⟩ :=
        header_eq_cons 0xc0 (Or.inr rfl) (show l < 2 ^ 64 by omega)
      rw [hy] at hcons
      obtain ⟨rfl, -⟩ := List.cons.inj hcons
      omega

end Rep

end RLP

end Web3Core
