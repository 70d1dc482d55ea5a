/-
The three ways to the items of a list: the iterator, the count, and indexed
access with its cache.  All of them cut the payload of an encoded list into
the encodings of its items, in order.
-/
import Web3Core.RLPRep

namespace Web3Core

open BytesConstRef (window)

open RLPTree (encode encodeItems)

namespace RLP

/-- The items whose encodings follow each other from the address `p` on. -/
def itemsAt (mem : Bytes) : Nat → List RLPTree → List RLP
  | _, [] => []
  | p, t :: ts =>
      { data := window mem p (encode t).length } ::
        itemsAt mem (p + (encode t).length) ts

theorem rep_itemsAt {mem : Bytes} {p : Nat} {ts : List RLPTree}
    (h : Holds mem p (encodeItems ts)) (hfits : ∀ t ∈ ts, t.Fits) :
    List.Forall₂ Rep (itemsAt mem p ts) ts := by
  induction ts generalizing p with
  | nil => exact .nil
  | cons t ts ih =>
      refine .cons ?_ (ih h.right fun u hu => hfits u (List.mem_cons_of_mem t hu))
      exact .of_holds (hfits t List.mem_cons_self) h.left

theorem length_le_length_encodeItems (ts : List RLPTree) :
    ts.length ≤ (encodeItems ts).length := by
  induction ts with
  | nil => exact le_rfl
  | cons t ts ih =>
      have hpos := RLPTree.length_encode_pos t
      rw [RLPTree.encodeItems, List.length_append, List.length_cons]
      omega

section Iteration

variable {mem : Bytes}

/-- The iterator that stands in front of the items `ts`. -/
def iteratorAt (mem : Bytes) (p : Nat) : List RLPTree → Iterator
  | [] => ⟨0, window mem p 0⟩
  | t :: ts => ⟨(encodeItems ts).length, window mem p (encode t).length⟩

theorem next_iteratorAt {p : Nat} {t : RLPTree} {ts : List RLPTree}
    (h : Holds mem p (encodeItems (t :: ts))) (hfits : ∀ u ∈ ts, u.Fits) :
    (iteratorAt mem p (t :: ts)).next =
      .ok (iteratorAt mem (p + (encode t).length) ts) := by
  cases ts with
  | nil => rfl
  | cons u us =>
      have hrest : Holds mem (p + (encode t).length) (encode u ++ encodeItems us) :=
        h.right
      have hu := hfits u List.mem_cons_self
      have hpos := RLPTree.length_encode_pos u
      have hsize := sizeAsEncoded_eq hu hrest
      have hmax : (encode u).length ≠ sizeMax := by
        unfold RLPTree.Fits at hu
        unfold sizeMax
        omega
      have hne : (encodeItems (u :: us)).length ≠ 0 := by
        rw [RLPTree.encodeItems, List.length_append]
        omega
      have hfollow : (window mem p (encode t).length).following
          (encodeItems (u :: us)).length =
            window mem (p + (encode t).length) (encode u ++ encodeItems us).length :=
        rfl
      have hle : 0 + (encode u).length ≤ (window mem (p + (encode t).length)
          (encode u ++ encodeItems us).length).count := by simp [window]
      have hcrop := BytesConstRef.cropped_of_le rfl hle hmax
      simp only [Iterator.next, iteratorAt, hne, ne_eq, not_false_eq_true,
        ↓reduceIte, hfollow, hsize, ok_bind, hcrop]
      simp [window, RLPTree.encodeItems]

theorem start_iterator {r : RLP} {q : Nat} {ts : List RLPTree}
    (hlist : r.isList = true)
    (hpayload : r.payload = .ok (window mem q (encodeItems ts).length))
    (h : Holds mem q (encodeItems ts)) (hfits : ∀ t ∈ ts, t.Fits) :
    Iterator.start r = .ok (iteratorAt mem q ts) := by
  rw [Iterator.start, if_pos hlist, hpayload, ok_bind]
  cases ts with
  | nil => rfl
  | cons t ts =>
      have ht := hfits t List.mem_cons_self
      have hmax : (encode t).length ≠ sizeMax := by
        unfold RLPTree.Fits at ht
        unfold sizeMax
        omega
      have hle : 0 + (encode t).length ≤
          (window mem q (encodeItems (t :: ts)).length).count := by
        simp [window, RLPTree.encodeItems]
      have hcrop := BytesConstRef.cropped_of_le rfl hle hmax
      have hsize : sizeAsEncoded (window mem q (encodeItems (t :: ts)).length) =
          .ok (encode t).length := sizeAsEncoded_eq ht h
      rw [hsize, ok_bind, hcrop]
      simp [iteratorAt, window, RLPTree.encodeItems]

/-- The loop of `toList` yields the items one after the other. -/
theorem collect_iteratorAt {p : Nat} {ts : List RLPTree}
    (h : Holds mem p (encodeItems ts)) (hfits : ∀ t ∈ ts, t.Fits) (fuel : Nat)
    (hfuel : ts.length < fuel) :
    collect fuel (iteratorAt mem p ts)
        ⟨0, window mem (p + (encodeItems ts).length) 0⟩ =
      .ok (itemsAt mem p ts) := by
  induction ts generalizing p fuel with
  | nil =>
      obtain ⟨fuel, rfl⟩ := Nat.exists_eq_add_of_lt hfuel
      simp [collect, iteratorAt, BytesConstRef.same, window, itemsAt,
        RLPTree.encodeItems]
  | cons t ts ih =>
      obtain ⟨fuel, rfl⟩ : ∃ n, fuel = n + 1 := ⟨fuel - 1, by omega⟩
      have hpos := RLPTree.length_encode_pos t
      have ht := hfits t List.mem_cons_self
      have hts : ∀ u ∈ ts, u.Fits := fun u hu =>
        hfits u (List.mem_cons_of_mem t hu)
      have hsame : (iteratorAt mem p (t :: ts)).currentItem.same
          (window mem (p + (encodeItems (t :: ts)).length) 0) = false := by
        simp [iteratorAt, BytesConstRef.same, window, hpos.ne']
      have hitem : (iteratorAt mem p (t :: ts)).item =
          .ok { data := window mem p (encode t).length } :=
        (Rep.of_holds ht h.left).ofRef .veryStrict
      have hend : p + (encodeItems (t :: ts)).length =
          p + (encode t).length + (encodeItems ts).length := by
        rw [RLPTree.encodeItems, List.length_append]
        omega
      have hrest := ih h.right hts fuel (by simpa using hfuel)
      rw [← hend] at hrest
      rw [collect, hsame]
      simp only [Bool.false_eq_true, ↓reduceIte, hitem, ok_bind,
        next_iteratorAt h hts, hrest]
      rfl

theorem countItems_eq {q : Nat} {ts : List RLPTree}
    (h : Holds mem q (encodeItems ts)) (hfits : ∀ t ∈ ts, t.Fits) {fuel : Nat}
    (hfuel : ts.length < fuel) :
    countItems fuel (window mem q (encodeItems ts).length) = .ok ts.length := by
  induction ts generalizing q fuel with
  | nil =>
      obtain ⟨fuel, rfl⟩ := Nat.exists_eq_add_of_lt hfuel
      simp [countItems, window, RLPTree.encodeItems]
  | cons t ts ih =>
      obtain ⟨fuel, rfl⟩ : ∃ n, fuel = n + 1 := ⟨fuel - 1, by omega⟩
      have hpos := RLPTree.length_encode_pos t
      have ht := hfits t List.mem_cons_self
      have hcount : (window mem q (encodeItems (t :: ts)).length).count ≠ 0 := by
        simp only [window, RLPTree.encodeItems, List.length_append]
        omega
      have hsize : sizeAsEncoded (window mem q (encodeItems (t :: ts)).length) =
          .ok (encode t).length := sizeAsEncoded_eq ht h
      have hcrop : (window mem q (encodeItems (t :: ts)).length).croppedFrom
          (encode t).length =
            window mem (q + (encode t).length) (encodeItems ts).length := by
        rw [BytesConstRef.croppedFrom_of_le rfl
          (by simp [window, RLPTree.encodeItems])]
        simp [window, RLPTree.encodeItems]
      rw [countItems, if_neg hcount, hsize, ok_bind, hcrop,
        ih h.right (fun u hu => hfits u (List.mem_cons_of_mem t hu))
          (by simpa using hfuel), ok_bind, List.length_cons]

end Iteration

namespace Rep

variable {r : RLP} {ts : List RLPTree}

theorem fits_items (h : Rep r (.list ts)) : ∀ t ∈ ts, t.Fits :=
  fun _ ht => h.fits.of_mem ht

/-- A view of an encoded list knows its items. -/
theorem exists_items (h : Rep r (.list ts)) :
    ∃ mem q, r.payload = .ok (window mem q (encodeItems ts).length) ∧
      Holds mem q (encodeItems ts) ∧
      r.itemCount = .ok ts.length ∧ r.toList = .ok (itemsAt mem q ts) := by
  obtain ⟨mem, p, hr, hp⟩ := h.view
  subst hr
  obtain ⟨q, hq, hholds, hend⟩ := h.payload_eq hp
  have hlist : RLP.isList
      { data := window mem p (encode (.list ts)).length } = true := h.isList
  have hfits := h.fits_items
  have hcount := length_le_length_encodeItems ts
  have hlt := RLPTree.length_encodeItems_lt ts
  have hfinish : Iterator.finish
      { data := window mem p (encode (.list ts)).length } =
        ⟨0, window mem (q + (encodeItems ts).length) 0⟩ := by
    have hpq : p + (encode (.list ts)).length = q + (encodeItems ts).length :=
      hend.symm
    rw [Iterator.finish, BytesConstRef.croppedFrom_of_le rfl le_rfl]
    simp [window, hpq]
  refine ⟨mem, q, hq, hholds, ?_, ?_⟩
  · rw [itemCount, if_pos hlist, items, if_pos hlist, hq, ok_bind]
    exact countItems_eq hholds hfits (Nat.lt_succ_of_le hcount)
  · have hstart := start_iterator hlist hq hholds hfits
    rw [toList, hlist]
    simp only [Bool.not_true, Bool.false_eq_true, ↓reduceIte, hstart, ok_bind,
      hfinish]
    exact collect_iteratorAt hholds hfits _ (by
      show ts.length < (encode (.list ts)).length + 1
      omega)

theorem itemCount (h : Rep r (.list ts)) : r.itemCount = .ok ts.length := by
  obtain ⟨mem, q, -, -, hcount, -⟩ := h.exists_items
  exact hcount

theorem toList (h : Rep r (.list ts)) :
    ∃ rs, r.toList = .ok rs ∧ List.Forall₂ Rep rs ts := by
  obtain ⟨mem, q, -, hholds, -, hlist⟩ := h.exists_items
  exact ⟨_, hlist, rep_itemsAt hholds h.fits_items⟩

end Rep

section Subscript

variable {mem : Bytes} {q : Nat} {ts : List RLPTree}

/-- Where the item with index `k` starts in the payload. -/
def itemOffset (ts : List RLPTree) (k : Nat) : Nat :=
  (encodeItems (ts.take k)).length

/-- The view of the item with index `k`, empty behind the last one. -/
def itemView (mem : Bytes) (q : Nat) (ts : List RLPTree) (k : Nat) :
    BytesConstRef :=
  window mem (q + itemOffset ts k) (encodeItems ((ts.drop k).take 1)).length

/-- The payload from the item with index `k` on. -/
def itemsFrom (mem : Bytes) (q : Nat) (ts : List RLPTree) (k : Nat) :
    BytesConstRef :=
  window mem (q + itemOffset ts k) (encodeItems (ts.drop k)).length

theorem itemOffset_succ (mem : Bytes) (q : Nat) (ts : List RLPTree) (k : Nat) :
    itemOffset ts (k + 1) = itemOffset ts k + (itemView mem q ts k).count := by
  simp only [itemOffset, itemView, window, List.take_add,
    RLPTree.encodeItems_append, List.length_append]

theorem length_encodeItems_split (ts : List RLPTree) (k : Nat) :
    (encodeItems ts).length =
      itemOffset ts k + (encodeItems (ts.drop k)).length := by
  conv_lhs => rw [← List.take_append_drop k ts]
  rw [RLPTree.encodeItems_append, List.length_append, itemOffset]

theorem holds_itemsFrom (h : Holds mem q (encodeItems ts)) (k : Nat) :
    Holds mem (q + itemOffset ts k) (encodeItems (ts.drop k)) := by
  rw [← List.take_append_drop k ts, RLPTree.encodeItems_append] at h
  exact h.right

theorem croppedFrom_itemOffset (k : Nat) :
    (window mem q (encodeItems ts).length).croppedFrom (itemOffset ts k) =
      itemsFrom mem q ts k := by
  have hsplit := length_encodeItems_split ts k
  rw [BytesConstRef.croppedFrom_of_le rfl (by simp only [window]; omega)]
  simp only [window, itemsFrom, hsplit, Nat.add_sub_cancel_left]

/-- The first item of what is left of a payload. -/
theorem itemsFrom_item (h : Holds mem q (encodeItems ts))
    (hfits : ∀ t ∈ ts, t.Fits) (k : Nat) :
    ∃ size, sizeAsEncoded (itemsFrom mem q ts k) = .ok size ∧
      (itemsFrom mem q ts k).cropped 0 size = itemView mem q ts k ∧
      size = (itemView mem q ts k).count := by
  have hholds := holds_itemsFrom h k
  rw [itemsFrom, itemView]
  cases hdrop : ts.drop k with
  | nil => exact ⟨0, rfl, rfl, rfl⟩
  | cons t us =>
      have ht : t.Fits := hfits t (List.mem_of_mem_drop
        (hdrop ▸ List.mem_cons_self : t ∈ ts.drop k))
      have hmax : (encode t).length ≠ sizeMax := by
        unfold RLPTree.Fits at ht
        unfold sizeMax
        omega
      rw [hdrop] at hholds
      refine ⟨(encode t).length, sizeAsEncoded_eq ht hholds, ?_, ?_⟩
      · rw [BytesConstRef.cropped_of_le rfl
          (by simp [window, RLPTree.encodeItems]) hmax]
        simp [window, RLPTree.encodeItems]
      · simp [window, RLPTree.encodeItems]

/-- The cache of `operator[]` when it stands at the item with index `k`. -/
structure CacheAt (mem : Bytes) (q : Nat) (ts : List RLPTree) (r : RLP)
    (k : Nat) : Prop where
  payload : r.payload = .ok (window mem q (encodeItems ts).length)
  index : r.lastIndex = k
  item : r.lastItem = itemView mem q ts k
  last : r.lastEnd = itemOffset ts (k + 1)

/-- The cache between two calls: unused, or at some item. -/
inductive CacheOk (mem : Bytes) (q : Nat) (ts : List RLPTree) (r : RLP) : Prop
  | unused (payload : r.payload = .ok (window mem q (encodeItems ts).length))
      (index : r.lastIndex = sizeMax) (item : r.lastItem = .null)
  | used {k : Nat} (hk : k ≤ ts.length) (cache : CacheAt mem q ts r k)

theorem cacheAt_rewind {r : RLP} (h : Holds mem q (encodeItems ts))
    (hfits : ∀ t ∈ ts, t.Fits)
    (hpayload : r.payload = .ok (window mem q (encodeItems ts).length)) {i : Nat}
    (hi : i < r.lastIndex) :
    ∃ r', rewind r i = (.ok (), r') ∧ CacheAt mem q ts r' 0 := by
  obtain ⟨size, hsize, hcrop, hcount⟩ := itemsFrom_item h hfits 0
  have hfrom : itemsFrom mem q ts 0 = window mem q (encodeItems ts).length := rfl
  rw [hfrom] at hsize hcrop
  simp only [rewind, hi, ↓reduceIte, hpayload, hsize]
  refine ⟨_, rfl, hpayload, rfl, hcrop, ?_⟩
  rw [itemOffset_succ mem q, hcount]
  simp [itemOffset, RLPTree.encodeItems]

theorem cacheAt_advance {r : RLP} (h : Holds mem q (encodeItems ts))
    (hfits : ∀ t ∈ ts, t.Fits) {k : Nat} (hr : CacheAt mem q ts r k) :
    ∃ r', advance r = (.ok (), r') ∧ CacheAt mem q ts r' (k + 1) := by
  obtain ⟨size, hsize, hcrop, -⟩ := itemsFrom_item h hfits (k + 1)
  simp only [advance, hr.payload, hr.last, croppedFrom_itemOffset, hsize, hcrop]
  refine ⟨_, rfl, hr.payload, ?_, rfl, ?_⟩
  · simp [hr.index]
  · rw [itemOffset_succ mem q ts (k + 1)]

theorem count_itemView_pos {k : Nat} (hk : k < ts.length) :
    (itemView mem q ts k).count ≠ 0 := by
  have hpos := RLPTree.length_encode_pos ts[k]
  rw [itemView, List.drop_eq_getElem_cons hk]
  simp only [window, List.take_succ_cons, List.take_zero, RLPTree.encodeItems,
    List.append_nil]
  omega

theorem count_itemView_end : (itemView mem q ts ts.length).count = 0 := by
  simp [itemView, window, RLPTree.encodeItems]

/-- The loop stops at the item that was asked for, or behind the last one. -/
theorem cacheAt_advanceTo (h : Holds mem q (encodeItems ts))
    (hfits : ∀ t ∈ ts, t.Fits) {i rounds k : Nat} {r : RLP}
    (hr : CacheAt mem q ts r k) (hk : k ≤ ts.length) (hki : k ≤ i)
    (hrounds : i - k ≤ rounds) :
    ∃ r', advanceTo rounds i r = (.ok (), r') ∧
      CacheAt mem q ts r' (min i ts.length) := by
  induction rounds generalizing k r with
  | zero =>
      obtain rfl : k = i := by omega
      rw [Nat.min_eq_left hk]
      exact ⟨r, rfl, hr⟩
  | succ rounds ih =>
      by_cases hgo : k < i ∧ k < ts.length
      · obtain ⟨r', hadvance, hr'⟩ := cacheAt_advance h hfits hr
        obtain ⟨r'', hto, hr''⟩ := ih hr' (by omega) (by omega) (by omega)
        refine ⟨r'', ?_, hr''⟩
        have hcond : r.lastIndex < i ∧ r.lastItem.count ≠ 0 := by
          rw [hr.index, hr.item]
          exact ⟨hgo.1, count_itemView_pos hgo.2⟩
        simp only [advanceTo, hcond, ne_eq, not_false_eq_true, and_self,
          ↓reduceIte, hadvance, hto]
      · have hstop : ¬ (r.lastIndex < i ∧ r.lastItem.count ≠ 0) := by
          rw [hr.index, hr.item]
          rintro ⟨hlt, hcount⟩
          obtain rfl : k = ts.length := by omega
          exact hcount count_itemView_end
        have hmin : min i ts.length = k := by omega
        rw [hmin]
        exact ⟨r, by rw [advanceTo, if_neg hstop], hr⟩

theorem rep_itemView (h : Holds mem q (encodeItems ts))
    (hfits : ∀ t ∈ ts, t.Fits) {i : Nat} (hi : i < ts.length) :
    Rep { data := itemView mem q ts i } ts[i] := by
  have hview : itemView mem q ts i =
      window mem (q + itemOffset ts i) (encode ts[i]).length := by
    rw [itemView, List.drop_eq_getElem_cons hi, List.take_succ_cons,
      List.take_zero, RLPTree.encodeItems, RLPTree.encodeItems, List.append_nil]
  have hholds := holds_itemsFrom h i
  rw [List.drop_eq_getElem_cons hi] at hholds
  rw [hview]
  exact .of_holds (hfits ts[i] (List.getElem_mem hi)) hholds.left

/-- A call of `operator[]` leaves the cache in order; within the list it
yields the item. -/
theorem subscript_cacheOk (h : Holds mem q (encodeItems ts))
    (hfits : ∀ t ∈ ts, t.Fits) (hmax : ts.length < sizeMax) {r : RLP}
    (hr : CacheOk mem q ts r) (i : Nat) :
    CacheOk mem q ts (r.subscript i).2 ∧
      (i < ts.length →
        (r.subscript i).1 = .ok { data := itemView mem q ts i }) := by
  have hfinal : ∀ {r' : RLP} {k : Nat}, CacheAt mem q ts r' k → k ≤ ts.length →
      k ≤ i → rewind r i = (.ok (), r') →
      CacheOk mem q ts (r.subscript i).2 ∧ (i < ts.length →
        (r.subscript i).1 = .ok { data := itemView mem q ts i }) := by
    intro r' k hr' hk hki hrewind
    have hrounds : i - k ≤ i - r'.lastIndex := by rw [hr'.index]
    obtain ⟨r'', hto, hr''⟩ := cacheAt_advanceTo h hfits hr' hk hki hrounds
    have hsub : r.subscript i = (ofRef r''.lastItem .throwIfTooSmall, r'') := by
      simp only [subscript, hrewind, hto]
    rw [hsub]
    refine ⟨.used (Nat.min_le_right _ _) hr'', fun hi => ?_⟩
    rw [hr''.item, Nat.min_eq_left hi.le]
    exact (rep_itemView h hfits hi).ofRef .throwIfTooSmall
  cases hr with
  | unused hpayload hindex hitem =>
      by_cases hi : i < sizeMax
      · obtain ⟨r', hrewind, hr'⟩ :=
          cacheAt_rewind h hfits hpayload (hindex ▸ hi)
        exact hfinal hr' (Nat.zero_le _) (Nat.zero_le _) hrewind
      · have hrewind : rewind r i = (.ok (), r) := by
          rw [rewind, if_neg (by omega)]
        have hto : advanceTo (i - r.lastIndex) i r = (.ok (), r) := by
          cases i - r.lastIndex with
          | zero => rfl
          | succ rounds => simp [advanceTo, hitem]
        refine ⟨?_, fun hlt => by omega⟩
        simp only [subscript, hrewind, hto]
        exact .unused hpayload hindex hitem
  | @used k hk hcache =>
      by_cases hi : i < k
      · obtain ⟨r', hrewind, hr'⟩ :=
          cacheAt_rewind h hfits hcache.payload (hcache.index ▸ hi)
        exact hfinal hr' (Nat.zero_le _) (Nat.zero_le _) hrewind
      · have hrewind : rewind r i = (.ok (), r) := by
          rw [rewind, if_neg (by rw [hcache.index]; exact hi)]
        exact hfinal hcache hk (Nat.not_lt.1 hi) hrewind

/-- Calls of `operator[]` in any order. -/
theorem subscripts_eq (h : Holds mem q (encodeItems ts))
    (hfits : ∀ t ∈ ts, t.Fits) (hmax : ts.length < sizeMax) {r : RLP}
    (hr : CacheOk mem q ts r) (indices : List Nat) :
    List.Forall₂ (fun i outcome =>
        i < ts.length → outcome = .ok { data := itemView mem q ts i })
      indices (r.subscripts indices) := by
  induction indices generalizing r with
  | nil => exact .nil
  | cons i indices ih =>
      obtain ⟨hcache, hitem⟩ := subscript_cacheOk h hfits hmax hr i
      exact .cons hitem (ih hcache)

theorem itemsAt_getElem? (mem : Bytes) (q : Nat) (ts : List RLPTree)
    {i : Nat} (hi : i < ts.length) :
    (itemsAt mem q ts)[i]? = some { data := itemView mem q ts i } := by
  induction ts generalizing q i with
  | nil => cases hi
  | cons t ts ih =>
      cases i with
      | zero =>
          simp [itemsAt, itemView, itemOffset, RLPTree.encodeItems]
      | succ i =>
          have := ih (q + (encode t).length) (i := i) (by simpa using hi)
          simp only [itemsAt, List.getElem?_cons_succ, this]
          simp [itemView, itemOffset, RLPTree.encodeItems, Nat.add_assoc]

/-- A view that begins with an encoded list knows the items of the list. -/
theorem exists_items_front {p : Nat} {rest : Bytes}
    (hfits : (RLPTree.list ts).Fits)
    (h : Holds mem p (encode (.list ts) ++ rest)) {r : RLP}
    (hr : r = { data := window mem p (encode (.list ts) ++ rest).length }) :
    ofRef r.data .throwIfTooSmall = .ok r ∧ r.itemCount = .ok ts.length ∧
      ∃ q, Holds mem q (encodeItems ts) ∧ CacheOk mem q ts r := by
  obtain ⟨pre, hpre, hhead⟩ := RLPTree.exists_head hfits rest
  have hvalid : r.data.Valid := hr ▸ h.valid
  have hbytes : r.data.toBytes = encode (.list ts) ++ rest := hr ▸ h.toBytes
  rw [← hbytes] at hhead
  obtain ⟨hlength, hoffset, hlist, -⟩ := of_head hvalid hhead
  have hlist : r.isList = true := hlist
  have hsize := actualSize_of_head hvalid hhead
  have hcount : r.data.count = (encode (.list ts) ++ rest).length := by rw [hr]; rfl
  have hsum : (encode (.list ts)).length =
      pre.length + (encodeItems ts).length := by
    rw [hpre, List.length_append]
    rfl
  have hle : pre.length + (encodeItems ts).length ≤ r.data.count := by
    rw [hcount, List.length_append]
    omega
  have hmax : (encodeItems ts).length ≠ sizeMax := by
    unfold RLPTree.Fits at hfits
    unfold sizeMax
    omega
  have hpayload : r.payload =
      .ok (window mem (p + pre.length) (encodeItems ts).length) := by
    have hsmall : ¬ (encodeItems ts).length > r.data.count := by omega
    have hdata : r.data = window mem p (encode (.list ts) ++ rest).length := by
      rw [hr]
    rw [RLP.payload, hlength, ok_bind]
    simp only [RLPTree.payload, hsmall, ↓reduceIte, hoffset]
    rw [BytesConstRef.cropped_of_le (by rw [hdata]; rfl) hle hmax, hdata]
    rfl
  have hholds : Holds mem (p + pre.length) (encodeItems ts) := by
    rw [hpre, List.append_assoc] at h
    exact h.right.left
  have hitems : ∀ t ∈ ts, t.Fits := fun t ht => hfits.of_mem ht
  refine ⟨?_, ?_, p + pre.length, hholds, .unused hpayload ?_ ?_⟩
  · have hsize' : RLP.actualSize { data := r.data } =
        .ok (encode (.list ts)).length := by
      rw [hsum]
      rw [hr] at hsize ⊢
      exact hsize
    rw [ofRef_of_size hsize' (fun h => by cases h)
      fun _ => by rw [hcount, List.length_append]; omega, hr]
  · have hmany := length_le_length_encodeItems ts
    rw [itemCount, if_pos hlist, items, if_pos hlist, hpayload, ok_bind]
    exact countItems_eq hholds hitems (Nat.lt_succ_of_le hmany)
  · rw [hr]
  · rw [hr]

end Subscript

namespace Rep

variable {r : RLP} {ts : List RLPTree}

/-- The iterator and any calls of `operator[]` give the same items. -/
theorem exists_items_subscripts (h : Rep r (.list ts)) :
    ∃ rs, r.toList = .ok rs ∧ List.Forall₂ Rep rs ts ∧
      ∀ indices, List.Forall₂ (fun i outcome =>
          ∀ item, rs[i]? = some item → outcome = .ok item)
        indices (r.subscripts indices) := by
  obtain ⟨mem, q, hpayload, hholds, -, hlist⟩ := h.exists_items
  have hitems := rep_itemsAt hholds h.fits_items
  refine ⟨_, hlist, hitems, fun indices => ?_⟩
  have hmax : ts.length < sizeMax := by
    have hfits := h.fits
    have hcount := length_le_length_encodeItems ts
    have hlt := RLPTree.length_encodeItems_lt ts
    unfold RLPTree.Fits at hfits
    unfold sizeMax
    omega
  have hfresh : CacheOk mem q ts r := by
    obtain ⟨mem', p, rfl, -⟩ := h.view
    exact .unused hpayload rfl rfl
  refine (subscripts_eq hholds h.fits_items hmax hfresh indices).imp ?_
  intro i outcome houtcome item hitem
  have hi : i < ts.length := by
    rw [← hitems.length_eq]
    exact (List.getElem?_eq_some_iff.1 hitem).1
  rw [itemsAt_getElem? mem q ts hi] at hitem
  rw [houtcome hi, Option.some.inj hitem]

/-- Indexed access to an item. -/
theorem get (h : Rep r (.list ts)) {i : Nat} {t : RLPTree}
    (ht : ts[i]? = some t) : ∃ c, r.get i = .ok c ∧ Rep c t := by
  obtain ⟨rs, -, hitems, hsub⟩ := h.exists_items_subscripts
  obtain ⟨hi, rfl⟩ := List.getElem?_eq_some_iff.1 ht
  have hi' : i < rs.length := by rwa [hitems.length_eq]
  have hone := hsub [i]
  simp only [subscripts] at hone
  obtain ⟨hget, -⟩ := List.forall₂_cons.1 hone
  exact ⟨rs[i], hget _ (List.getElem?_eq_getElem hi'), hitems.get hi' hi⟩

end Rep

end RLP

end Web3Core
