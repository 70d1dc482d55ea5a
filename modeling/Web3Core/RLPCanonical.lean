/-
What can be read is canonical.  A view whose recursive reading succeeds is the
encoding of the tree it reads as: the reader refuses every other form at the
head of an item, at the end of a list or at the end of the whole view.
-/
import Web3Core.RLPRoundTrip

namespace Web3Core

open BytesConstRef (window)

open RLPTree (encode encodeItems header)

/-- Read an item down to its leaves: byte strings by `toBytes`, lists item by
item through the iterator, which constructs each of them strictly. -/
def readTree : Nat → RLP → Except Exception RLPTree
  | 0, _ => .error .outOfFuel
  | fuel + 1, r =>
      if r.isData then do
        let b ← r.toBytes
        .ok (.data b)
      else if r.isList then do
        let items ← r.toList
        let ts ← items.mapM (readTree fuel)
        .ok (.list ts)
      else .error .badRLP

/-- Construct an item from a byte string and read it. -/
def decode (flags : Strictness) (fuel : Nat) (b : Bytes) :
    Except Exception RLPTree := do
  let r ← RLP.ofRef (.ofBytes b) flags
  readTree fuel r

/-- The flags of a strict construction. -/
def Strictness.Strict (flags : Strictness) : Prop :=
  flags.throwOnFail = true ∧ flags.failIfTooBig = true

namespace RLP

/-- The view is not longer than its beginning says. -/
def Filled (r : RLP) : Prop :=
  r.data.Valid ∧ ∃ size, r.actualSize = .ok size ∧ r.data.count ≤ size

theorem ofRef_strict {d : BytesConstRef} {flags : Strictness} {r : RLP}
    (hthrow : flags.throwOnFail = true) (h : ofRef d flags = .ok r) :
    r = { data := d } ∧
      (flags.failIfTooBig = true →
        ∃ size, r.actualSize = .ok size ∧ d.count ≤ size) ∧
      (flags.failIfTooSmall = true →
        ∃ size, r.actualSize = .ok size ∧ size ≤ d.count) := by
  have hfirst : ∀ d', refuseTooBig d flags = .ok d' → d' = d ∧
      (flags.failIfTooBig = true → ∃ size,
        RLP.actualSize { data := d } = .ok size ∧ d.count ≤ size) := by
    intro d' hd'
    unfold refuseTooBig at hd'
    split at hd'
    · cases hsize : RLP.actualSize { data := d } with
      | error e => simp [hsize] at hd'
      | ok size =>
          by_cases hlt : size < d.count
          · simp [hsize, hlt] at hd'
          · simp only [hsize, ok_bind, hlt, ↓reduceIte, Except.ok.injEq] at hd'
            exact ⟨hd'.symm, fun _ => ⟨size, rfl, Nat.not_lt.1 hlt⟩⟩
    · rename_i hflag
      exact ⟨(Except.ok.inj hd').symm, fun h => absurd h hflag⟩
  have hsecond : ∀ d'', refuseTooSmall d d.count flags = .ok d'' → d'' = d ∧
      (flags.failIfTooSmall = true → ∃ size,
        RLP.actualSize { data := d } = .ok size ∧ size ≤ d.count) := by
    intro d'' hd''
    unfold refuseTooSmall at hd''
    split at hd''
    · cases hsize : RLP.actualSize { data := d } with
      | error e => simp [hsize] at hd''
      | ok size =>
          by_cases hlt : size > d.count
          · simp [hsize, hlt] at hd''
          · simp only [hsize, ok_bind, hlt, ↓reduceIte, Except.ok.injEq] at hd''
            exact ⟨hd''.symm, fun _ => ⟨size, rfl, Nat.not_lt.1 hlt⟩⟩
    · rename_i hflag
      exact ⟨(Except.ok.inj hd'').symm, fun h => absurd h hflag⟩
  unfold ofRef at h
  cases hbig : refuseTooBig d flags with
  | error e => simp [hbig] at h
  | ok d' =>
      obtain ⟨rfl, hfit⟩ := hfirst d' hbig
      cases hsmall : refuseTooSmall d' d'.count flags with
      | error e => simp [hbig, hsmall] at h
      | ok d'' =>
          obtain ⟨rfl, hfill⟩ := hsecond d'' hsmall
          simp only [hbig, hsmall, ok_bind, Except.ok.injEq] at h
          exact ⟨h.symm, h ▸ hfit, h ▸ hfill⟩

theorem filled_of_item {it : Iterator} (hv : it.currentItem.Valid) {r : RLP}
    (h : it.item = .ok r) : r = { data := it.currentItem } ∧ r.Filled := by
  obtain ⟨rfl, hbig, -⟩ := ofRef_strict rfl h
  exact ⟨rfl, hv, hbig rfl⟩

theorem toBytes_ne_nil {d : BytesConstRef} (hv : d.Valid) (hne : d.count ≠ 0) :
    d.toBytes ≠ [] := by
  intro hnil
  have := BytesConstRef.length_toBytes hv
  rw [hnil] at this
  exact hne this.symm

theorem head_bounds {b : Bytes} {isList : Bool} {offset l : Nat}
    (h : Head b isList offset l) :
    0 < offset + l ∧ offset + l < sizeMax ∧ offset ≤ b.length := by
  unfold sizeMax
  cases h with
  | byte rest hx => simp
  | @data l rest hl hgood =>
      have hpos := RLPTree.length_header_pos 0x80 l
      have hle := RLPTree.length_header_le 0x80 (show l < 2 ^ 64 by omega)
      simp only [List.length_append]
      omega
  | @list l rest hl =>
      have hpos := RLPTree.length_header_pos 0xc0 l
      have hle := RLPTree.length_header_le 0xc0 (show l < 2 ^ 64 by omega)
      simp only [List.length_append]
      omega

/-- A size is found where there is a head. -/
theorem exists_head_of_actualSize {r : RLP} (hv : r.data.Valid)
    (hne : r.data.count ≠ 0) {size : Nat} (h : r.actualSize = .ok size) :
    ∃ isList offset l, Head r.data.toBytes isList offset l ∧
      size = offset + l := by
  have hbytes := toBytes_ne_nil hv hne
  obtain ⟨x, rest, hb⟩ := List.exists_cons_of_ne_nil hbytes
  by_cases hx : x.toNat < 0x80
  · have hhead : Head r.data.toBytes false 0 1 := hb ▸ .byte rest hx
    rw [actualSize_of_head hv hhead] at h
    exact ⟨_, _, _, hhead, (Except.ok.inj h).symm⟩
  · have hsingle : r.isSingleByte = false := by
      simp [isSingleByte_cons hv hb, Nat.not_lt.1 hx]
    have hkind : (r.isData || r.isList) = true := by
      rw [isData_cons hv hb, isList_cons hv hb, Bool.or_eq_true,
        decide_eq_true_eq, decide_eq_true_eq]
      omega
    cases hl : r.length with
    | error e => simp [actualSize, RLP.isNull, hne, hsingle, hkind, hl] at h
    | ok l =>
        have hhead := exists_head hv hbytes hl
        rw [actualSize_of_head hv hhead] at h
        exact ⟨_, _, _, hhead, (Except.ok.inj h).symm⟩

/-- The size found at the beginning of a view that is not empty cuts a view
off it that is not empty either. -/
theorem cut_front {mem : Bytes} {p n size : Nat} (hend : p + n ≤ mem.length)
    (hn : n ≠ 0) (h : sizeAsEncoded (window mem p n) = .ok size) :
    size ≠ 0 ∧ size ≤ n ∧
      (window mem p n).cropped 0 size = window mem p size := by
  unfold sizeAsEncoded at h
  cases href : ofRef (window mem p n) .throwIfTooSmall with
  | error e => simp [href] at h
  | ok r =>
      obtain ⟨rfl, -, hsmall⟩ := ofRef_strict rfl href
      obtain ⟨size', hsize', hle⟩ := hsmall rfl
      rw [href, ok_bind, hsize', Except.ok.injEq] at h
      subst h
      obtain ⟨isList, offset, l, hhead, rfl⟩ :=
        exists_head_of_actualSize (r := { data := window mem p n }) hend hn hsize'
      obtain ⟨hpos, hmax, -⟩ := head_bounds hhead
      refine ⟨hpos.ne', hle, ?_⟩
      have hle' : 0 + (offset + l) ≤ (window mem p n).count := by omega
      rw [BytesConstRef.cropped_of_le rfl hle' hmax.ne]
      rfl

theorem exists_next {mem : Bytes} {p c remaining : Nat} {it : Iterator}
    (hend : p + c + remaining ≤ mem.length)
    (h : Iterator.next ⟨remaining, window mem p c⟩ = .ok it) :
    ∃ c' m', it = ⟨m', window mem (p + c) c'⟩ ∧ c' + m' = remaining ∧
      (c' = 0 → m' = 0) := by
  unfold Iterator.next at h
  by_cases hrem : remaining = 0
  · simp only [hrem, ne_eq, not_true_eq_false, ↓reduceIte, Except.ok.injEq] at h
    exact ⟨0, 0, h.symm, by omega, fun _ => rfl⟩
  · simp only [ne_eq, hrem, not_false_eq_true, ↓reduceIte] at h
    have hfollow : (window mem p c).following remaining =
        window mem (p + c) remaining := rfl
    rw [hfollow] at h
    cases hsize : sizeAsEncoded (window mem (p + c) remaining) with
    | error e => simp [hsize] at h
    | ok size =>
        obtain ⟨hpos, hle, hcrop⟩ := cut_front hend hrem hsize
        rw [hsize, ok_bind, hcrop, Except.ok.injEq] at h
        have hmin : min remaining (window mem (p + c) size).count = size :=
          Nat.min_eq_right hle
        rw [hmin] at h
        exact ⟨size, remaining - size, h.symm, by omega, fun hc => absurd hc hpos⟩

/-- The items the loop of `toList` yields fill the rest of the payload. -/
theorem flatten_collect {mem : Bytes} {fuel p c remaining : Nat}
    {rs : List RLP} (hend : p + c + remaining ≤ mem.length)
    (hzero : c = 0 → remaining = 0)
    (h : collect fuel ⟨remaining, window mem p c⟩
      ⟨0, window mem (p + c + remaining) 0⟩ = .ok rs) :
    (rs.map fun r => r.data.toBytes).flatten =
        (mem.drop p).take (c + remaining) ∧
      ∀ r ∈ rs, r.Filled := by
  induction fuel generalizing p c remaining rs with
  | zero => cases h
  | succ fuel ih =>
      rw [collect] at h
      by_cases hsame : (window mem p c).same
          (window mem (p + c + remaining) 0) = true
      · simp only [hsame, ↓reduceIte, Except.ok.injEq] at h
        simp only [BytesConstRef.same, window, Bool.and_eq_true, beq_iff_eq,
          Option.some.injEq] at hsame
        obtain ⟨hp, rfl⟩ := hsame
        obtain rfl : remaining = 0 := by omega
        subst h
        simp
      · simp only [hsame, Bool.false_eq_true, ↓reduceIte] at h
        have hvalid : (window mem p c).Valid := by
          simp only [BytesConstRef.Valid, window]
          omega
        cases hitem : Iterator.item ⟨remaining, window mem p c⟩ with
        | error e => simp [hitem] at h
        | ok r =>
            obtain ⟨rfl, hfilled⟩ := filled_of_item hvalid hitem
            rw [hitem, ok_bind] at h
            cases hnext : Iterator.next ⟨remaining, window mem p c⟩ with
            | error e => simp [hnext] at h
            | ok it =>
                obtain ⟨c', m', rfl, rfl, hzero'⟩ := exists_next hend hnext
                rw [hnext, ok_bind, ← Nat.add_assoc] at h
                cases hrest : collect fuel ⟨m', window mem (p + c) c'⟩
                    ⟨0, window mem (p + c + c' + m') 0⟩ with
                | error e => simp [hrest] at h
                | ok rest =>
                    obtain ⟨hflat, hall⟩ := ih (by omega) hzero' hrest
                    simp only [hrest, ok_bind, Except.ok.injEq] at h
                    subst h
                    refine ⟨?_, fun r hr => ?_⟩
                    · rw [List.map_cons, List.flatten_cons, hflat]
                      have htake := List.take_add (l := mem.drop p) (i := c)
                        (j := c' + m')
                      rw [htake, List.drop_drop]
                      rfl
                    · rcases List.mem_cons.1 hr with rfl | hmem
                      · exact hfilled
                      · exact hall r hmem

/-- An iterator on a null view never meets the end. -/
theorem collect_null {fuel : Nat} {last : Iterator}
    (hlast : last.currentItem.data ≠ none) (rs : List RLP) :
    collect fuel ⟨0, .null⟩ last ≠ .ok rs := by
  induction fuel generalizing rs with
  | zero => simp [collect]
  | succ fuel ih =>
      have hsame : BytesConstRef.null.same last.currentItem = false := by
        simp only [BytesConstRef.same, BytesConstRef.null, Bool.and_eq_false_imp,
          beq_iff_eq]
        exact fun h => absurd h.symm hlast
      have hitem : Iterator.item ⟨0, .null⟩ = .ok .null := rfl
      have hnext : Iterator.next ⟨0, .null⟩ = .ok ⟨0, .null⟩ := rfl
      rw [collect, hsame]
      simp only [Bool.false_eq_true, ↓reduceIte, hitem, hnext, ok_bind]
      cases hrest : collect fuel ⟨0, .null⟩ last with
      | error e => simp
      | ok rest => exact absurd hrest (ih rest)

/-- The payload of a filled view: what is behind the head, or nothing if the
view is too short. -/
theorem exists_payload_cut {r : RLP} {p : Nat} (hv : r.data.Valid)
    (hp : r.data.data = some p) {isList : Bool} {offset l : Nat}
    (hhead : Head r.data.toBytes isList offset l) {v : BytesConstRef}
    (h : r.payload = .ok v) :
    (offset + l ≤ r.data.count ∧ v = window r.data.mem (p + offset) l) ∨
      (r.data.count < offset + l ∧ 0 < l ∧ v = .null) := by
  obtain ⟨hlength, hoffset, -, -⟩ := of_head hv hhead
  obtain ⟨-, hmax, hle⟩ := head_bounds hhead
  rw [BytesConstRef.length_toBytes hv] at hle
  rw [payload, hlength, ok_bind] at h
  split at h
  · cases h
  · rw [hoffset, Except.ok.injEq] at h
    by_cases hfit : offset + l ≤ r.data.count
    · rw [BytesConstRef.cropped_of_le hp hfit (by omega)] at h
      exact Or.inl ⟨hfit, h.symm⟩
    · refine Or.inr ⟨by omega, by omega, ?_⟩
      rw [← h, BytesConstRef.cropped, hp]
      simp [hfit]

/-- The head of a view of exactly its size is the header of the payload. -/
theorem bytes_of_head {b : Bytes} {isList : Bool} {offset l : Nat}
    (h : Head b isList offset l) (hlen : b.length = offset + l) :
    b.length < 2 ^ 64 ∧ (isList = false → encode (.data (b.drop offset)) = b) ∧
      (isList = true → RLPTree.encodeList (b.drop offset) = b) := by
  have hmax := (head_bounds h).2.1
  unfold sizeMax at hmax
  refine ⟨by omega, ?_⟩
  cases h with
  | @byte x rest hx =>
      obtain rfl : rest = [] := by simpa using hlen
      simp [encode, RLPTree.encodeData, hx]
  | @data l rest hl hgood =>
      obtain rfl : rest.length = l := by simpa using hlen
      have hsingle : ¬ (rest.length = 1 ∧ (rest.headD 0).toNat < 0x80) := by
        rintro ⟨hone, hsmall⟩
        obtain ⟨x, rest', rfl, hx⟩ := hgood hone
        exact absurd hsmall (Nat.not_lt.2 hx)
      simp [encode, RLPTree.encodeData, -List.headD_eq_head?_getD, hsingle]
  | @list l rest hl =>
      obtain rfl : rest.length = l := by simpa using hlen
      simp [RLPTree.encodeList]

theorem exists_address {v : BytesConstRef} (hv : v.Valid) (hne : v.count ≠ 0) :
    ∃ p, v.data = some p := by
  cases hp : v.data with
  | some p => exact ⟨p, rfl⟩
  | none =>
      simp only [BytesConstRef.Valid, hp] at hv
      exact absurd hv hne

/-- The items of a filled list fill its payload. -/
theorem flatten_toList {r : RLP} (hr : r.Filled) {offset l : Nat}
    (hhead : Head r.data.toBytes true offset l)
    (hcount : r.data.count ≤ offset + l) {rs : List RLP}
    (h : r.toList = .ok rs) :
    r.data.count = offset + l ∧
      (rs.map fun r => r.data.toBytes).flatten = r.data.toBytes.drop offset ∧
      ∀ r ∈ rs, r.Filled := by
  obtain ⟨hv, -⟩ := hr
  obtain ⟨-, -, hlist, -⟩ := of_head hv hhead
  have hne : r.data.count ≠ 0 := fun hzero =>
    hhead.ne_nil (List.eq_nil_of_length_eq_zero
      ((BytesConstRef.length_toBytes hv).trans hzero))
  obtain ⟨p, hp⟩ := exists_address hv hne
  have hend : p + r.data.count ≤ r.data.mem.length := by
    simpa only [BytesConstRef.Valid, hp] using hv
  have hlast : Iterator.finish r =
      ⟨0, window r.data.mem (p + r.data.count) 0⟩ := by
    rw [Iterator.finish, BytesConstRef.croppedFrom_of_le hp le_rfl, Nat.sub_self]
  rw [toList, hlist] at h
  simp only [Bool.not_true, Bool.false_eq_true, ↓reduceIte, hlast] at h
  cases hstart : Iterator.start r with
  | error e => simp [hstart] at h
  | ok it =>
      rw [hstart, ok_bind] at h
      rw [Iterator.start, if_pos hlist] at hstart
      cases hpayload : r.payload with
      | error e => simp [hpayload] at hstart
      | ok v =>
          rw [hpayload, ok_bind] at hstart
          rcases exists_payload_cut hv hp hhead hpayload with
            ⟨hfit, rfl⟩ | ⟨-, -, rfl⟩
          · have hsum : r.data.count = offset + l := by omega
            have htail : r.data.toBytes.drop offset =
                (r.data.mem.drop (p + offset)).take l := by
              simp only [BytesConstRef.toBytes, hp, List.drop_take,
                List.drop_drop, hsum, Nat.add_sub_cancel_left]
            cases hsize : sizeAsEncoded (window r.data.mem (p + offset) l) with
            | error e => simp [hsize] at hstart
            | ok size =>
                rw [hsize, ok_bind] at hstart
                obtain ⟨c, m, rfl, rfl, hzero⟩ : ∃ c m,
                    it = ⟨m, window r.data.mem (p + offset) c⟩ ∧ c + m = l ∧
                      (c = 0 → m = 0) := by
                  by_cases hl : l = 0
                  · subst hl
                    obtain rfl : 0 = size := by
                      simpa [sizeAsEncoded_empty] using hsize
                    exact ⟨0, 0, (Except.ok.inj hstart).symm, rfl, fun _ => rfl⟩
                  · obtain ⟨hpos, hle, hcrop⟩ := cut_front (by omega) hl hsize
                    rw [hcrop] at hstart
                    refine ⟨size, l - size, (Except.ok.inj hstart).symm,
                      by omega, fun hc => absurd hc hpos⟩
                have hsame : p + r.data.count = p + offset + c + m := by omega
                rw [hsame] at h
                obtain ⟨hflat, hall⟩ := flatten_collect (by omega) hzero h
                exact ⟨hsum, hflat.trans htail.symm, hall⟩
          · obtain rfl : ⟨0, .null⟩ = it := by
              simpa [sizeAsEncoded, refuseTooBig, refuseTooSmall, ofRef,
                Strictness.throwIfTooSmall, actualSize, RLP.isNull,
                BytesConstRef.cropped, BytesConstRef.null] using hstart
            exact absurd h (collect_null (by simp [window]) rs)

end RLP

theorem mapM_readTree {fuel : Nat} {rs : List RLP} {ts : List RLPTree}
    (ih : ∀ r ∈ rs, ∀ t, readTree fuel r = .ok t →
      encode t = r.data.toBytes)
    (h : rs.mapM (readTree fuel) = .ok ts) :
    encodeItems ts = (rs.map fun r => r.data.toBytes).flatten := by
  induction rs generalizing ts with
  | nil =>
      obtain rfl : [] = ts := by simpa using h
      rfl
  | cons r rs ihrs =>
      rw [List.mapM_cons] at h
      cases ht : readTree fuel r with
      | error e => simp [ht] at h
      | ok t =>
          cases hts : rs.mapM (readTree fuel) with
          | error e => simp [ht, hts] at h
          | ok ts' =>
              obtain rfl : t :: ts' = ts := by simpa [ht, hts] using h
              rw [RLPTree.encodeItems, ih r List.mem_cons_self t ht,
                ihrs (fun r' hr' => ih r' (List.mem_cons_of_mem r hr')) hts]
              rfl

/-- A filled view that reads as a tree is the encoding of the tree. -/
theorem encode_of_readTree {fuel : Nat} {r : RLP} {t : RLPTree}
    (hr : r.Filled) (h : readTree fuel r = .ok t) :
    encode t = r.data.toBytes ∧ (encode t).length < 2 ^ 64 := by
  induction fuel generalizing r t with
  | zero => cases h
  | succ fuel ih =>
      have hfilled := hr
      obtain ⟨hv, size, hsize, hle⟩ := hr
      have hbytes := BytesConstRef.length_toBytes hv
      rw [readTree] at h
      by_cases hcount : r.data.count = 0
      · have hhead : r.data.head? = none := by
          simp [BytesConstRef.head?, hcount]
        simp [RLP.isData, RLP.isList, RLP.headSatisfies, hhead] at h
      · obtain ⟨isList, offset, l, hhead, rfl⟩ :=
          RLP.exists_head_of_actualSize hv hcount hsize
        obtain ⟨hlength, -, hlist, hdata⟩ := RLP.of_head hv hhead
        cases isList with
        | false =>
            simp only [hdata, Bool.not_false, ↓reduceIte] at h
            cases hpayload : r.payload with
            | error e => simp [RLP.toBytes, hdata, hpayload] at h
            | ok v =>
                obtain ⟨p, hp⟩ := RLP.exists_address hv hcount
                rcases RLP.exists_payload_cut hv hp hhead hpayload with
                  ⟨hfit, rfl⟩ | ⟨-, hpos, rfl⟩
                · have hsum : r.data.toBytes.length = offset + l := by omega
                  have htail : (window r.data.mem (p + offset) l).toBytes =
                      r.data.toBytes.drop offset := by
                    simp only [BytesConstRef.toBytes, window, hp,
                      List.drop_take, List.drop_drop]
                    congr 1
                    omega
                  obtain rfl : .data (r.data.toBytes.drop offset) = t := by
                    have hall : (window r.data.mem (p + offset) l).toBytes.take l =
                        r.data.toBytes.drop offset := by
                      rw [htail]
                      exact List.take_of_length_le (by
                        rw [List.length_drop]
                        omega)
                    have hcut : (window r.data.mem (p + offset) l).count = l := rfl
                    simpa [RLP.toBytes, hdata, hpayload, hlength,
                      RLP.readBytes, hcut, hall] using h
                  obtain ⟨hlt, hd, -⟩ := RLP.bytes_of_head hhead hsum
                  rw [hd rfl]
                  exact ⟨rfl, hlt⟩
                · simp [RLP.toBytes, hdata, hpayload, hlength, RLP.readBytes,
                    BytesConstRef.count_null, Nat.not_le.2 hpos] at h
        | true =>
            simp only [hdata, Bool.not_true, Bool.false_eq_true, ↓reduceIte,
              hlist] at h
            cases hitems : r.toList with
            | error e => simp [hitems] at h
            | ok rs =>
                obtain ⟨hsum, hflat, hall⟩ :=
                  RLP.flatten_toList hfilled hhead hle hitems
                cases hts : rs.mapM (readTree fuel) with
                | error e => simp [hitems, hts] at h
                | ok ts =>
                    obtain rfl : .list ts = t := by simpa [hitems, hts] using h
                    have hchildren := mapM_readTree
                      (fun r' hr' t' ht' => (ih (hall r' hr') ht').1) hts
                    obtain ⟨hlt, -, hl⟩ :=
                      RLP.bytes_of_head hhead (hbytes.trans hsum)
                    rw [encode, hchildren, hflat, hl rfl]
                    exact ⟨rfl, hlt⟩

/-- What reads as a tree was written for the tree, so a tree has one
encoding. -/
theorem write_of_decode {flags : Strictness} (hflags : flags.Strict)
    {fuel : Nat} {b : Bytes} {t : RLPTree}
    (h : decode flags fuel b = .ok t) :
    t.encoded = .ok b ∧
      ∀ flags' fuel' b', Strictness.Strict flags' →
        decode flags' fuel' b' = .ok t → b' = b := by
  have hencode : ∀ {flags fuel b}, Strictness.Strict flags →
      decode flags fuel b = .ok t →
      encode t = b ∧ (encode t).length < 2 ^ 64 := by
    intro flags fuel b hflags h
    unfold decode at h
    cases hr : RLP.ofRef (.ofBytes b) flags with
    | error e => simp [hr] at h
    | ok r =>
        rw [hr, ok_bind] at h
        obtain ⟨rfl, hbig, -⟩ := RLP.ofRef_strict hflags.1 hr
        have := encode_of_readTree ⟨BytesConstRef.valid_ofBytes b, hbig hflags.2⟩ h
        rwa [BytesConstRef.toBytes_ofBytes] at this
  obtain ⟨rfl, hlt⟩ := hencode hflags h
  exact ⟨RLPTree.out_write t hlt, fun _ _ _ hflags' h' =>
    (hencode hflags' h').1.symm⟩

/-- A list with a string of one byte that needs a header. -/
theorem write_of_decode_list :
    (RLPTree.list [.data [0x80], .list []]).encoded =
        .ok [0xc3, 0x81, 0x80, 0xc0] ∧
      ∀ flags' fuel' b', Strictness.Strict flags' →
        decode flags' fuel' b' = .ok (.list [.data [0x80], .list []]) →
          b' = [0xc3, 0x81, 0x80, 0xc0] :=
  write_of_decode (show Strictness.Strict .strict from ⟨rfl, rfl⟩)
    (show decode .strict 2 [0xc3, 0x81, 0x80, 0xc0] = _ from rfl)

end Web3Core
