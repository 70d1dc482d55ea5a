/-
The format that RLP defines, as a function on trees, and the writer as an
implementation of it: whatever lists are open, writing a tree is appending its
encoding as a single item.
-/
import Web3Core.RLPStream

namespace Web3Core

/-- What an RLP encoding is an encoding of. -/
inductive RLPTree where
  | data (b : Bytes)
  | list (items : List RLPTree)

namespace RLPTree

/-- The prefix of a payload of `len` bytes. -/
def header (base len : Nat) : Bytes :=
  if len < 56 then [UInt8.ofNat (base + len)]
  else UInt8.ofNat (base + 55 + bytesRequired len) :: bigEndian len

def encodeData (b : Bytes) : Bytes :=
  if b.length = 1 ∧ (b.headD 0).toNat < 0x80 then b
  else header 0x80 b.length ++ b

def encodeList (payload : Bytes) : Bytes :=
  header 0xc0 payload.length ++ payload

mutual

def encode : RLPTree → Bytes
  | .data b => encodeData b
  | .list items => encodeList (encodeItems items)

def encodeItems : List RLPTree → Bytes
  | [] => []
  | t :: ts => encode t ++ encodeItems ts

end

mutual

/-- Write a tree with an `RLPStream`. -/
def write : RLPTree → RLPStream → Except Exception RLPStream
  | .data b, s => s.append b
  | .list items, s => do
      let s' ← s.appendList items.length
      writeItems items s'

def writeItems : List RLPTree → RLPStream → Except Exception RLPStream
  | [], s => .ok s
  | t :: ts, s => do
      let s' ← write t s
      writeItems ts s'

end

theorem writeItems_append (ts us : List RLPTree) (s : RLPStream) :
    writeItems (ts ++ us) s = writeItems ts s >>= writeItems us := by
  induction ts generalizing s with
  | nil => rfl
  | cons t ts ih => simp only [List.cons_append, writeItems, ih, bind_assoc]

/-- The whole encoding is shorter than a size the reader refuses. -/
def Fits (t : RLPTree) : Prop := (encode t).length < 2 ^ 64 - 0x100

instance (t : RLPTree) : Decidable t.Fits :=
  inferInstanceAs (Decidable ((encode t).length < 2 ^ 64 - 0x100))

/-- Induction over a tree: a list may use the claim for its items. -/
theorem induct {P : RLPTree → Prop} (data : ∀ b, P (.data b))
    (list : ∀ items, (∀ t ∈ items, P t) → P (.list items)) : ∀ t, P t
  | .data b => data b
  | .list items => list items fun t _ => induct data list t

theorem encodeItems_append (ts us : List RLPTree) :
    encodeItems (ts ++ us) = encodeItems ts ++ encodeItems us := by
  induction ts with
  | nil => rfl
  | cons t ts ih => simp [encodeItems, ih]

theorem length_header_pos (base len : Nat) : 0 < (header base len).length := by
  unfold header
  split <;> simp

theorem length_header_le (base : Nat) {len : Nat} (hlen : len < 2 ^ 64) :
    (header base len).length ≤ 9 := by
  unfold header
  split
  · simp
  · have := (bytesRequired_le_iff len 8).2 (by omega)
    simp only [List.length_cons, length_bigEndian]
    omega

theorem encode_ne_nil (t : RLPTree) : encode t ≠ [] := by
  cases t with
  | data b =>
      rw [encode, encodeData]
      split
      · rename_i h
        intro hnil
        simp [hnil] at h
      · have := length_header_pos 0x80 b.length
        intro hnil
        simp [List.append_eq_nil_iff] at hnil
        simp [hnil.1] at this
  | list items =>
      have := length_header_pos 0xc0 (encodeItems items).length
      intro hnil
      rw [encode, encodeList, List.append_eq_nil_iff] at hnil
      simp [hnil.1] at this

theorem length_encode_pos (t : RLPTree) : 0 < (encode t).length :=
  List.length_pos_iff.2 (encode_ne_nil t)

theorem length_encode_le_of_mem {t : RLPTree} {items : List RLPTree}
    (ht : t ∈ items) : (encode t).length ≤ (encodeItems items).length := by
  induction items with
  | nil => cases ht
  | cons u us ih =>
      rw [encodeItems, List.length_append]
      rcases List.mem_cons.1 ht with rfl | hmem
      · omega
      · have := ih hmem
        omega

theorem length_encodeItems_lt (items : List RLPTree) :
    (encodeItems items).length < (encode (.list items)).length := by
  have := length_header_pos 0xc0 (encodeItems items).length
  rw [encode, encodeList, List.length_append]
  omega

theorem Fits.of_mem {t : RLPTree} {items : List RLPTree}
    (h : (list items).Fits) (ht : t ∈ items) : t.Fits := by
  have hle := length_encode_le_of_mem ht
  have hlt := length_encodeItems_lt items
  unfold Fits at *
  omega

theorem length_data_le (b : Bytes) :
    b.length ≤ (encode (.data b)).length := by
  rw [encode, encodeData]
  split
  · exact le_rfl
  · rw [List.length_append]
    omega

theorem length_encodeData_le {b : Bytes} (hb : b.length < 2 ^ 64) :
    (encode (.data b)).length ≤ b.length + 9 := by
  rw [encode, encodeData]
  split
  · omega
  · have := length_header_le 0x80 hb
    rw [List.length_append]
    omega

theorem length_encode_list_le {ts : List RLPTree}
    (h : (encodeItems ts).length < 2 ^ 64) :
    (encode (.list ts)).length ≤ (encodeItems ts).length + 9 := by
  have := length_header_le 0xc0 h
  rw [encode, encodeList, List.length_append]
  omega

theorem length_encodeItems_le {ts : List RLPTree} {n : Nat}
    (h : ∀ t ∈ ts, (encode t).length ≤ n) :
    (encodeItems ts).length ≤ ts.length * n := by
  induction ts with
  | nil => simp [encodeItems]
  | cons t ts ih =>
      have ht := h t List.mem_cons_self
      have hts := ih fun u hu => h u (List.mem_cons_of_mem t hu)
      rw [encodeItems, List.length_append, List.length_cons,
        Nat.add_mul]
      omega

/-! The writer against the format. -/

open RLPStream

/-- A list is completed by all of its items at once. -/
theorem closeLists_all (n : Nat) (stack : List (Nat × Nat))
    (buffer payload : Bytes) (hlen : payload.length < 2 ^ 64) :
    closeLists ((n, buffer.length) :: stack) n (buffer ++ payload) =
      closeLists stack 1 (buffer ++ encodeList payload) := by
  have hbr : bytesRequired payload.length ≤ 8 :=
    (bytesRequired_le_iff _ 8).2 (by omega)
  have hsize : (buffer ++ payload).length - buffer.length = payload.length := by
    simp
  rw [closeLists, hsize]
  by_cases hshort : payload.length < 56
  · simp [hshort, insertAt, encodeList, header]
  · have hmax : 0xf7 + bytesRequired payload.length ≤ 0xff := by omega
    simp [hshort, hmax, insertAt, encodeList, header]

theorem closeLists_one (stack : List (Nat × Nat)) (buffer payload : Bytes)
    (hlen : payload.length < 2 ^ 64) :
    closeLists ((1, buffer.length) :: stack) 1 (buffer ++ payload) =
      closeLists stack 1 (buffer ++ encodeList payload) :=
  closeLists_all 1 stack buffer payload hlen

theorem closeLists_more (stack : List (Nat × Nat)) (n p : Nat)
    (buffer : Bytes) :
    closeLists ((n + 2, p) :: stack) 1 buffer =
      .ok ⟨buffer, (n + 1, p) :: stack⟩ := by
  simp [closeLists]

theorem pushCount_eq (s : RLPStream) {count base : Nat} (hbase : base ≤ 0xf7)
    (hcount : count < 2 ^ 64) :
    s.pushCount count base =
      .ok (s.push (UInt8.ofNat (base + bytesRequired count) ::
        bigEndian count)) := by
  have hbr : bytesRequired count ≤ 8 := (bytesRequired_le_iff _ 8).2 (by omega)
  have hmax : ¬ bytesRequired count + base > 0xff := by omega
  rw [pushCount, if_neg hmax, Nat.add_comm]

/-- Appending a byte string is appending its encoding as an item. -/
theorem append_eq_appendRaw (s : RLPStream) {b : Bytes}
    (hlen : b.length < 2 ^ 64) :
    s.append b = s.appendRaw (encodeData b) 1 := by
  rw [RLPStream.append, encodeData]
  by_cases hsingle : b.length = 1 ∧ (b.headD 0).toNat < 0x80
  · simp only [Bool.false_eq_true, ↓reduceIte, rlpDataImmLenStart_eq, hsingle,
      and_self]
    rfl
  · simp only [Bool.false_eq_true, ↓reduceIte, rlpDataImmLenStart_eq,
      rlpDataImmLenCount_eq, rlpDataIndLenZero_eq, if_neg hsingle, header]
    by_cases hshort : b.length < 56
    · simp [hshort, bind, Except.bind, appendRaw, push, noteAppended,
        Nat.add_comm]
    · simp [hshort, pushCount_eq s (show 0xb7 ≤ 0xf7 by omega) hlen, bind,
        Except.bind, appendRaw, push, noteAppended]

/-- Writing a list from its encoded items is appending its encoding. -/
theorem appendListOf_eq_appendRaw (s : RLPStream) {payload : Bytes}
    (hlen : payload.length < 2 ^ 64) :
    s.appendListOf payload = s.appendRaw (encodeList payload) 1 := by
  simp only [appendListOf, encodeList, header, rlpListImmLenCount_eq,
    rlpListStart_eq, rlpListIndLenZero_eq]
  by_cases hshort : payload.length < 56
  · simp [hshort, bind, Except.bind, appendRaw, push, Nat.add_comm]
  · simp [hshort, pushCount_eq s (Nat.le_refl 0xf7) hlen, bind, Except.bind,
      appendRaw, push]

/-- A list is opened, and all of its items are written at once. -/
theorem appendList_appendRaw (s : RLPStream) {n : Nat} (hn : n ≠ 0)
    {payload : Bytes} (hlen : payload.length < 2 ^ 64) :
    (do let s ← s.appendList n; s.appendRaw payload n) =
      s.appendRaw (encodeList payload) 1 := by
  have hclose := closeLists_all n s.listStack s.buffer payload hlen
  simp [appendList, appendRaw, noteAppended, hn, bind, Except.bind, hclose]

/-- A list of `n` items of which some are written: its stream, closed with the
last of them. -/
def listStream (stack : List (Nat × Nat)) (buffer : Bytes) (n : Nat)
    (items : List Bytes) : Except Exception RLPStream :=
  if items.length < n then
    .ok ⟨buffer ++ items.flatten, (n - items.length, buffer.length) :: stack⟩
  else closeLists stack 1 (buffer ++ encodeList items.flatten)

theorem listStream_append (stack : List (Nat × Nat)) (buffer : Bytes) {n : Nat}
    {items : List Bytes} (hn : items.length < n) (b : Bytes)
    (hlen : (items.flatten ++ b).length < 2 ^ 64) :
    (do let s ← listStream stack buffer n items; s.appendRaw b 1) =
      listStream stack buffer n (items ++ [b]) := by
  simp only [listStream, hn, ↓reduceIte, List.length_append,
    List.length_singleton, List.flatten_append, List.flatten_singleton]
  by_cases hlast : items.length + 1 < n
  · obtain ⟨m, hm⟩ : ∃ m, n - items.length = m + 2 :=
      ⟨n - items.length - 2, by omega⟩
    have hrest : n - (items.length + 1) = m + 1 := by omega
    simp only [hlast, ↓reduceIte, hm, hrest, bind, Except.bind, appendRaw,
      noteAppended, one_ne_zero, closeLists_more, List.append_assoc]
  · have hm : n - items.length = 1 := by omega
    simp only [hlast, ↓reduceIte, hm, bind, Except.bind, appendRaw,
      noteAppended, one_ne_zero, List.append_assoc, closeLists_one _ _ _ hlen]

theorem flatten_map_encode (items : List RLPTree) :
    (items.map encode).flatten = encodeItems items := by
  induction items with
  | nil => rfl
  | cons t ts ih => simp [encodeItems, ih]

/-- Writing the items that are missing closes the list. -/
theorem writeItems_eq (stack : List (Nat × Nat)) (buffer : Bytes)
    (items : List RLPTree) (done : List Bytes)
    (hlen : (done.flatten ++ encodeItems items).length < 2 ^ 64)
    (hwrite : ∀ t ∈ items, ∀ s, write t s = s.appendRaw (encode t) 1) :
    (do let s ← listStream stack buffer (done.length + items.length) done
        writeItems items s) =
      listStream stack buffer (done.length + items.length)
        (done ++ items.map encode) := by
  induction items generalizing done with
  | nil =>
      simp only [writeItems, List.map_nil, List.append_nil]
      cases listStream stack buffer (done.length + ([] : List RLPTree).length)
        done <;> rfl
  | cons t ts ih =>
      have hcount : done.length < done.length + (t :: ts).length := by simp
      have hhead : (done.flatten ++ encode t).length < 2 ^ 64 := by
        simp only [encodeItems, List.length_append] at hlen ⊢
        omega
      have hstep := listStream_append stack buffer hcount (encode t) hhead
      have hrest := ih (done ++ [encode t])
        (by simpa [encodeItems] using hlen)
        fun u hu => hwrite u (List.mem_cons_of_mem t hu)
      have hlength : (done ++ [encode t]).length + ts.length =
          done.length + (t :: ts).length := by
        simp only [List.length_append, List.length_cons, List.length_nil]
        omega
      rw [hlength] at hrest
      rw [List.map_cons, List.append_cons, ← hrest, ← hstep]
      simp only [writeItems, hwrite t List.mem_cons_self]
      cases listStream stack buffer (done.length + (t :: ts).length) done <;>
        rfl

/-- The writer implements the format. -/
theorem write_eq_appendRaw (t : RLPTree) (s : RLPStream)
    (hlen : (encode t).length < 2 ^ 64) :
    write t s = s.appendRaw (encode t) 1 := by
  induction t using induct generalizing s with
  | data b =>
      have hle := length_data_le b
      rw [write, append_eq_appendRaw s (by omega), encode]
  | list items ih =>
      have hlt := length_encodeItems_lt items
      rw [write]
      cases items with
      | nil =>
          rw [List.length_nil, appendList, if_neg (by simp),
            appendListOf_eq_appendRaw s (by simp), encode, encodeItems]
          cases s.appendRaw (encodeList []) 1 <;> rfl
      | cons u us =>
          have hitems := writeItems_eq s.listStack s.buffer (u :: us) []
            (by simpa using hlt.trans hlen) fun v hv s' =>
              ih v hv s' ((length_encode_le_of_mem hv).trans_lt
                (hlt.trans hlen))
          rw [List.length_nil, Nat.zero_add, List.nil_append] at hitems
          have hopen : s.appendList (u :: us).length =
              listStream s.listStack s.buffer (u :: us).length [] := by
            simp [appendList, listStream]
          rw [hopen, hitems, listStream, if_neg (by simp), flatten_map_encode]
          simp [appendRaw, noteAppended, encode]

/-- Writing a tree to an empty stream. -/
theorem out_write (t : RLPTree) (hlen : (encode t).length < 2 ^ 64) :
    (do let s ← write t {}; s.out) = .ok (encode t) := by
  rw [write_eq_appendRaw t {} hlen]
  simp [appendRaw, noteAppended, closeLists, bind, Except.bind, out]

/-- Trees that are in no list are written one after the other. -/
theorem writeItems_top (ts : List RLPTree) (b : Bytes)
    (hlen : (encodeItems ts).length < 2 ^ 64) :
    writeItems ts ⟨b, []⟩ = .ok ⟨b ++ encodeItems ts, []⟩ := by
  induction ts generalizing b with
  | nil => simp [writeItems, encodeItems]
  | cons t ts ih =>
      rw [encodeItems, List.length_append] at hlen
      have hwrite : write t ⟨b, []⟩ = .ok ⟨b ++ encode t, []⟩ := by
        rw [write_eq_appendRaw t _ (by omega)]
        rfl
      rw [writeItems, hwrite, ok_bind, ih _ (by omega), encodeItems,
        List.append_assoc]

/-- The stream into which the first `k` of the given items of a list are
written. -/
def partialList (all : List RLPTree) (k : Nat) : RLPStream :=
  if k < all.length then
    ⟨encodeItems (all.take k), [(all.length - k, 0)]⟩
  else ⟨encode (.list all), []⟩

theorem listStream_eq_partialList {all : List RLPTree} {k : Nat}
    (hk : k ≤ all.length) :
    listStream [] [] all.length ((all.take k).map encode) =
      .ok (partialList all k) := by
  have hlen : ((all.take k).map encode).length = k := by
    rw [List.length_map, List.length_take]
    omega
  unfold listStream partialList
  rw [hlen, flatten_map_encode]
  by_cases hlt : k < all.length
  · simp [hlt]
  · rw [if_neg hlt, if_neg hlt, List.take_of_length_le (Nat.not_lt.1 hlt)]
    rfl

theorem ofList_eq {all : List RLPTree} (hne : all ≠ []) :
    RLPStream.ofList all.length = .ok (partialList all 0) := by
  have hpos : all.length ≠ 0 := by simpa using hne
  simp [RLPStream.ofList, appendList, partialList, encodeItems, hpos,
    Nat.pos_of_ne_zero hpos]

theorem appendRaw_partialList {all : List RLPTree} (hfits : (list all).Fits)
    {k : Nat} {t : RLPTree} (ht : all[k]? = some t) :
    (partialList all k).appendRaw (encode t) 1 =
      .ok (partialList all (k + 1)) := by
  obtain ⟨hk, rfl⟩ := List.getElem?_eq_some_iff.1 ht
  have hlen : ((all.take k).map encode).length < all.length := by
    rw [List.length_map, List.length_take]
    omega
  have hpre : (encodeItems (all.take k) ++ encode all[k]).length < 2 ^ 64 := by
    have hall := length_encodeItems_lt all
    have hsplit := encodeItems_append (all.take (k + 1)) (all.drop (k + 1))
    rw [List.take_append_drop, List.take_add_one, List.getElem?_eq_getElem hk,
      Option.toList_some, encodeItems_append] at hsplit
    have := congrArg List.length hsplit
    simp only [encodeItems, List.append_nil, List.length_append] at this ⊢
    unfold Fits at hfits
    omega
  have hstep := listStream_append [] [] hlen (encode all[k])
    (by rwa [flatten_map_encode])
  have htake : (all.take k).map encode ++ [encode all[k]] =
      (all.take (k + 1)).map encode := by
    rw [List.take_add_one, List.getElem?_eq_getElem hk, Option.toList_some,
      List.map_append]
    rfl
  rw [htake, listStream_eq_partialList hk.le, listStream_eq_partialList hk] at hstep
  exact hstep

theorem append_partialList {all : List RLPTree} (hfits : (list all).Fits)
    {k : Nat} {b : Bytes} (hb : all[k]? = some (.data b)) :
    (partialList all k).append b = .ok (partialList all (k + 1)) := by
  have hmem := List.mem_of_getElem? hb
  have hle := length_data_le b
  have hlt := hfits.of_mem hmem
  unfold Fits at hlt
  rw [append_eq_appendRaw _ (by omega)]
  exact appendRaw_partialList hfits hb

theorem out_partialList (all : List RLPTree) :
    (partialList all all.length).out = .ok (encode (.list all)) := by
  simp [partialList, out]

/-- A loop that writes the items of a list one after the other. -/
theorem foldlM_partialList {all : List RLPTree}
    {f : RLPStream → Nat → Except Exception RLPStream} {n : Nat}
    (hstep : ∀ i < n, f (partialList all i) i = .ok (partialList all (i + 1))) :
    (List.range n).foldlM f (partialList all 0) = .ok (partialList all n) := by
  induction n with
  | zero => rfl
  | succ n ih =>
      rw [List.range_succ, List.foldlM_append,
        ih fun i hi => hstep i (Nat.lt_succ_of_lt hi)]
      simp [hstep n (Nat.lt_succ_self n)]

end RLPTree

end Web3Core
