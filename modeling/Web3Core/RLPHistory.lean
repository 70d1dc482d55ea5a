/-
Indexed access and its history.  `operator[]` walks the payload from the place
the last call left behind.  What a fresh object finds at an index is a walk
over the payload alone; the place is compared with that walk, also where a
call ended in an exception and left it in the middle of an update.
-/
import Web3Core.RLPCanonical

namespace Web3Core

open BytesConstRef (window)

namespace RLP

/-- The item with index `i` of the payload `p`, or what follows the last
one. -/
def nth : Nat → BytesConstRef → Except Exception BytesConstRef
  | 0, p => do
      let size ← sizeAsEncoded p
      .ok (p.cropped 0 size)
  | i + 1, p => do
      let size ← sizeAsEncoded p
      if size = 0 then .ok (p.cropped 0 size)
      else nth i (p.croppedFrom size)

/-- The item with index `k` starts at the offset `o` of the payload `p`: the
items before it are well formed. -/
inductive Starts (p : BytesConstRef) : Nat → Nat → Prop
  | first : Starts p 0 0
  | next {k o size : Nat} (before : Starts p k o)
      (item : sizeAsEncoded (p.croppedFrom o) = .ok size) (hne : size ≠ 0) :
      Starts p (k + 1) (o + size)

/-- The item with index `k` is the first malformed one. -/
def BreaksAt (p : BytesConstRef) (k : Nat) : Prop :=
  ∃ o e, Starts p k o ∧ sizeAsEncoded (p.croppedFrom o) = .error e

/-- Two items are the same: one view, or both null. -/
def SameItem (r s : RLP) : Prop :=
  r.data.same s.data = true ∨ (r.isNull = true ∧ s.isNull = true)

/-- Two calls have the same outcome: the same item or the same exception. -/
def SameOutcome : Except Exception RLP → Except Exception RLP → Prop
  | .ok r, .ok s => SameItem r s
  | .error e, .error f => e = f
  | _, _ => False

/-- The calls keep clear of the state that the malformed item behind the one
with index `k` leaves behind: the largest index is asked for only before all
others, and `k` not directly after a larger index. -/
def KeepsClear (k : Nat) (indices : List Nat) : Prop :=
  sizeMax ∉ indices.dropWhile (· == sizeMax) ∧
    (indices.dropWhile (· == sizeMax)).IsChain fun j i => i = k → j ≤ k

/-- A payload: null, or inside its memory and smaller than the largest
size. -/
def Sound (p : BytesConstRef) : Prop :=
  p = .null ∨ ∃ mem q n, p = window mem q n ∧ q + n ≤ mem.length ∧ n < sizeMax

theorem sizeAsEncoded_of_count {v : BytesConstRef} (h : v.count = 0) :
    sizeAsEncoded v = .ok 0 := by
  simp [sizeAsEncoded, ofRef, refuseTooBig, refuseTooSmall, actualSize,
    RLP.isNull, Strictness.throwIfTooSmall, h]

theorem Sound.croppedFrom {p : BytesConstRef} (hp : Sound p) (o : Nat) :
    Sound (p.croppedFrom o) := by
  rcases hp with rfl | ⟨mem, q, n, rfl, hend, hmax⟩
  · exact Or.inl rfl
  · by_cases hle : o ≤ n
    · rw [BytesConstRef.croppedFrom_of_le rfl hle]
      exact Or.inr ⟨mem, q + o, n - o, rfl, by omega, by omega⟩
    · exact Or.inl (by simp [BytesConstRef.croppedFrom, window, hle])

theorem Sound.valid {p : BytesConstRef} (hp : Sound p) : p.Valid := by
  rcases hp with rfl | ⟨mem, q, n, rfl, hend, -⟩
  · rfl
  · exact hend

/-- The head of a view is the head of the item at its beginning. -/
theorem head_take {b : Bytes} {isList : Bool} {offset l : Nat}
    (h : Head b isList offset l) :
    Head (b.take (offset + l)) isList offset l := by
  cases h with
  | byte rest hx => exact .byte [] hx
  | @data l rest hl hgood =>
      rw [List.take_length_add_append]
      refine .data (rest.take l) hl fun hone => ?_
      obtain ⟨x, rest', rfl, hx⟩ := hgood hone
      exact ⟨x, rest'.take 0, by rw [hone]; rfl, hx⟩
  | @list l rest hl =>
      rw [List.take_length_add_append]
      exact .list (rest.take l) hl

/-- What the size at the beginning of a payload cuts off it. -/
structure Front (p : BytesConstRef) (size : Nat) : Prop where
  count : (p.cropped 0 size).count = size
  le : size ≤ p.count
  zero : size = 0 ↔ p.count = 0
  actualSize : RLP.actualSize { data := p.cropped 0 size } = .ok size

theorem Front.ofRef {p : BytesConstRef} {size : Nat} (h : Front p size)
    (s : Strictness) :
    ofRef (p.cropped 0 size) s = .ok { data := p.cropped 0 size } :=
  ofRef_of_size h.actualSize (fun _ => h.count.le) fun _ => h.count.ge

theorem actualSize_of_count {v : BytesConstRef} (h : v.count = 0) :
    RLP.actualSize { data := v } = .ok 0 := by
  simp [actualSize, RLP.isNull, h]

theorem Sound.front {p : BytesConstRef} (hp : Sound p) {size : Nat}
    (h : sizeAsEncoded p = .ok size) : Front p size := by
  by_cases hcount : p.count = 0
  · rw [sizeAsEncoded_of_count hcount] at h
    obtain rfl : 0 = size := Except.ok.inj h
    have hempty : (p.cropped 0 0).count = 0 := by
      rcases hp with rfl | ⟨mem, q, n, rfl, -, -⟩ <;> rfl
    exact ⟨hempty, Nat.zero_le _, ⟨fun _ => hcount, fun _ => rfl⟩,
      actualSize_of_count hempty⟩
  · rcases hp with rfl | ⟨mem, q, n, rfl, hend, hmax⟩
    · exact absurd rfl hcount
    · obtain ⟨hpos, hle, hcrop⟩ := cut_front hend hcount h
      refine ⟨by rw [hcrop]; rfl, hle, iff_of_false hpos hcount, ?_⟩
      unfold sizeAsEncoded at h
      cases href : RLP.ofRef (window mem q n) .throwIfTooSmall with
      | error e => simp [href] at h
      | ok r =>
          obtain ⟨rfl, -, hsmall⟩ := ofRef_strict rfl href
          obtain ⟨size', hsize', -⟩ := hsmall rfl
          rw [href, ok_bind, hsize', Except.ok.injEq] at h
          subst h
          obtain ⟨isList, offset, l, hhead, rfl⟩ :=
            exists_head_of_actualSize (r := { data := window mem q n }) hend
              hcount hsize'
          have htake : (window mem q (offset + l)).toBytes =
              (window mem q n).toBytes.take (offset + l) := by
            simp only [BytesConstRef.toBytes, window, List.take_take,
              Nat.min_eq_left hle]
          rw [hcrop]
          refine actualSize_of_head ?_ (htake ▸ head_take hhead)
          simp only [BytesConstRef.Valid, window]
          omega

theorem Sound.croppedFrom_zero {p : BytesConstRef} (hp : Sound p) :
    p.croppedFrom 0 = p := by
  rcases hp with rfl | ⟨mem, q, n, rfl, -, -⟩
  · rfl
  · rw [BytesConstRef.croppedFrom_of_le rfl (Nat.zero_le _)]
    rfl

theorem Sound.croppedFrom_croppedFrom {p : BytesConstRef} (hp : Sound p)
    (o size : Nat) :
    (p.croppedFrom o).croppedFrom size = p.croppedFrom (o + size) := by
  rcases hp with rfl | ⟨mem, q, n, rfl, -, -⟩
  · rfl
  · by_cases ho : o ≤ n
    · by_cases hs : o + size ≤ n
      · have hs' : size ≤ n - o := by omega
        simp [BytesConstRef.croppedFrom, window, ho, hs, hs', Nat.add_assoc,
          Nat.sub_sub]
      · have hs' : ¬ size ≤ n - o := by omega
        simp [BytesConstRef.croppedFrom, window, BytesConstRef.null, ho, hs,
          hs']
    · have hs : ¬ o + size ≤ n := by omega
      simp [BytesConstRef.croppedFrom, window, BytesConstRef.null, ho, hs]

section Walk

variable {p : BytesConstRef}

theorem nth_of_starts (hp : Sound p) {k o : Nat} (h : Starts p k o) (m : Nat) :
    nth (k + m) p = nth m (p.croppedFrom o) := by
  induction h generalizing m with
  | first => rw [hp.croppedFrom_zero, Nat.zero_add]
  | @next k o size before item hne ih =>
      have hshift : k + 1 + m = k + (m + 1) := by omega
      rw [hshift, ih (m + 1), nth, item, ok_bind, if_neg hne,
        hp.croppedFrom_croppedFrom]

theorem nth_of_error {e : Exception} (h : sizeAsEncoded p = .error e)
    (i : Nat) : nth i p = .error e := by
  cases i <;> simp [nth, h]

theorem nth_of_break (hp : Sound p) {k o i : Nat} {e : Exception}
    (h : Starts p k o) (he : sizeAsEncoded (p.croppedFrom o) = .error e)
    (hk : k ≤ i) : nth i p = .error e := by
  obtain ⟨m, rfl⟩ := Nat.exists_eq_add_of_le hk
  rw [nth_of_starts hp h, nth_of_error he]

/-- A walk that fails does so at a malformed item. -/
theorem exists_break (hp : Sound p) {k o i : Nat} {e : Exception}
    (h : Starts p k o) (he : nth i (p.croppedFrom o) = .error e) :
    ∃ k', k ≤ k' ∧ BreaksAt p k' := by
  induction i generalizing k o with
  | zero =>
      cases hsize : sizeAsEncoded (p.croppedFrom o) with
      | error e => exact ⟨k, le_rfl, o, e, h, hsize⟩
      | ok size => simp [nth, hsize] at he
  | succ i ih =>
      cases hsize : sizeAsEncoded (p.croppedFrom o) with
      | error e => exact ⟨k, le_rfl, o, e, h, hsize⟩
      | ok size =>
          by_cases hzero : size = 0
          · simp [nth, hsize, hzero] at he
          · rw [nth, hsize, ok_bind, if_neg hzero,
              hp.croppedFrom_croppedFrom] at he
            obtain ⟨k', hk', hbreak⟩ := ih (.next h hsize hzero) he
            exact ⟨k', by omega, hbreak⟩

theorem nth_ok (hp : Sound p) {i : Nat} {w : BytesConstRef}
    (h : nth i p = .ok w) :
    ofRef w .throwIfTooSmall = .ok { data := w } ∧
      (p.count ≤ i → w.count = 0) := by
  induction i generalizing p with
  | zero =>
      cases hsize : sizeAsEncoded p with
      | error e => simp [nth, hsize] at h
      | ok size =>
          have hfront := hp.front hsize
          obtain rfl : p.cropped 0 size = w := by simpa [nth, hsize] using h
          refine ⟨hfront.ofRef _, fun hcount => ?_⟩
          rw [hfront.count, hfront.zero]
          omega
  | succ i ih =>
      cases hsize : sizeAsEncoded p with
      | error e => simp [nth, hsize] at h
      | ok size =>
          have hfront := hp.front hsize
          by_cases hzero : size = 0
          · obtain rfl : p.cropped 0 size = w := by
              simpa [nth, hsize, hzero] using h
            exact ⟨hfront.ofRef _, fun _ => hfront.count.trans hzero⟩
          · rw [nth, hsize, ok_bind, if_neg hzero] at h
            obtain ⟨href, hcount⟩ := ih (hp.croppedFrom size) h
            refine ⟨href, fun hle => hcount ?_⟩
            rcases hp with rfl | ⟨mem, q, n, rfl, -, -⟩
            · exact Nat.zero_le _
            · rw [BytesConstRef.croppedFrom_of_le rfl hfront.le]
              simp only [window] at hle ⊢
              omega

theorem Starts.unique {k o o' : Nat} (h : Starts p k o) (h' : Starts p k o') :
    o = o' := by
  induction h generalizing o' with
  | first =>
      cases h'
      rfl
  | next before item hne ih =>
      cases h' with
      | next before' item' hne' =>
          obtain rfl := ih before'
          rw [item] at item'
          rw [Except.ok.inj item']

/-- An item before another one is well formed and not empty. -/
theorem Starts.item {k k' o o' : Nat} (h : Starts p k o) (h' : Starts p k' o')
    (hlt : k < k') :
    ∃ size, sizeAsEncoded (p.croppedFrom o) = .ok size ∧ size ≠ 0 := by
  induction h' with
  | first => cases hlt
  | @next k' o' size before item hne ih =>
      by_cases heq : k = k'
      · subst heq
        obtain rfl := h.unique before
        exact ⟨size, item, hne⟩
      · exact ih (by omega)

theorem BreaksAt.unique {j k : Nat} (hj : BreaksAt p j) (hk : BreaksAt p k) :
    j = k := by
  obtain ⟨oj, ej, hj, hej⟩ := hj
  obtain ⟨ok, ek, hk, hek⟩ := hk
  rcases Nat.lt_trichotomy j k with hlt | heq | hlt
  · obtain ⟨size, hsize, -⟩ := hj.item hk hlt
    rw [hej] at hsize
    cases hsize
  · exact heq
  · obtain ⟨size, hsize, -⟩ := hk.item hj hlt
    rw [hek] at hsize
    cases hsize

theorem Starts.le_count (hp : Sound p) {k o : Nat} (h : Starts p k o) :
    k ≤ o ∧ o ≤ p.count := by
  induction h with
  | first => exact ⟨le_rfl, Nat.zero_le _⟩
  | @next k o size before item hne ih =>
      have hle := ((hp.croppedFrom o).front item).le
      rcases hp with rfl | ⟨mem, q, n, rfl, -, -⟩
      · obtain rfl : 0 = size := Except.ok.inj item
        exact absurd rfl hne
      · rw [BytesConstRef.croppedFrom_of_le rfl ih.2] at hle
        simp only [window] at hle ih ⊢
        omega

end Walk

section Cache

variable {p : BytesConstRef} {r : RLP}

/-- What a fresh object finds at the index `i` of the payload `p`. -/
def fetch (p : BytesConstRef) (i : Nat) : Except Exception RLP := do
  let item ← nth i p
  ofRef item .throwIfTooSmall

/-- The cache holds the item with index `k`, or the end of the payload. -/
structure Cached (p : BytesConstRef) (r : RLP) (k : Nat) : Prop where
  payload : r.payload = .ok p
  index : r.lastIndex = k
  place : ∃ o size, Starts p k o ∧ sizeAsEncoded (p.croppedFrom o) = .ok size ∧
    r.lastItem = (p.croppedFrom o).cropped 0 size ∧ r.lastEnd = o + size

/-- The cache was left in the middle of an update: the index of an item with
the malformed rest of the payload behind it. -/
structure Broken (p : BytesConstRef) (r : RLP) (k : Nat) : Prop where
  payload : r.payload = .ok p
  index : r.lastIndex = k
  place : ∃ o e, Starts p (k + 1) o ∧
    sizeAsEncoded (p.croppedFrom o) = .error e ∧
    r.lastItem = p.croppedFrom o ∧ r.lastEnd = o

/-- The cache after a call with the index `i`. -/
inductive After (p : BytesConstRef) (i : Nat) (r : RLP) : Prop
  | found (h : Cached p r i)
  | behind {j : Nat} (hj : j < i) (h : Cached p r j)
      (hend : r.lastItem.count = 0)
  | failed {j : Nat} (hj : j < i) (h : Broken p r j)

theorem Cached.nth (hp : Sound p) {k : Nat} (h : Cached p r k) :
    nth k p = .ok r.lastItem := by
  obtain ⟨o, size, hstarts, hsize, hitem, -⟩ := h.place
  have := nth_of_starts hp hstarts 0
  rw [Nat.add_zero] at this
  rw [this, RLP.nth, hsize, ok_bind, hitem]

theorem Cached.nth_of_end (hp : Sound p) {k i : Nat} (h : Cached p r k)
    (hend : r.lastItem.count = 0) (hk : k ≤ i) :
    RLP.nth i p = .ok r.lastItem := by
  obtain ⟨o, size, hstarts, hsize, hitem, -⟩ := h.place
  obtain ⟨m, rfl⟩ := Nat.exists_eq_add_of_le hk
  obtain rfl : size = 0 := by
    rw [← ((hp.croppedFrom o).front hsize).count, ← hitem, hend]
  rw [nth_of_starts hp hstarts m, hitem]
  cases m <;> simp [RLP.nth, hsize]

/-- One round of the loop from a cached item that is not empty. -/
theorem advance_cached (hp : Sound p) {k : Nat} (h : Cached p r k)
    (hitem : r.lastItem.count ≠ 0) :
    (∃ r', advance r = (.ok (), r') ∧ Cached p r' (k + 1)) ∨
      ∃ e r', advance r = (.error e, r') ∧ Broken p r' k ∧
        ∀ i, k < i → RLP.nth i p = .error e := by
  obtain ⟨o, size, hstarts, hsize, hlast, hend⟩ := h.place
  have hne : size ≠ 0 := by
    rwa [hlast, ((hp.croppedFrom o).front hsize).count] at hitem
  have hnext := Starts.next hstarts hsize hne
  cases hrest : sizeAsEncoded (p.croppedFrom (o + size)) with
  | error e =>
      refine Or.inr ⟨e, { r with lastItem := p.croppedFrom (o + size) }, ?_, ?_,
        fun i hi => nth_of_break hp hnext hrest hi⟩
      · simp only [advance, h.payload, hend, hrest]
      · exact ⟨h.payload, h.index, o + size, e, hnext, hrest, rfl, hend⟩
  | ok size' =>
      have hcount := ((hp.croppedFrom (o + size)).front hrest).count
      simp only [advance, h.payload, hend, hrest, hcount]
      exact Or.inl ⟨_, rfl, h.payload, congrArg (· + 1) h.index, o + size,
        size', hnext, hrest, rfl, rfl⟩

/-- The loop finds what the walk over the payload finds. -/
theorem advanceTo_cached (hp : Sound p) {k i rounds : Nat} (h : Cached p r k)
    (hk : k ≤ i) (hrounds : i - k ≤ rounds) :
    (∃ r', advanceTo rounds i r = (.ok (), r') ∧
        RLP.nth i p = .ok r'.lastItem ∧ After p i r') ∨
      ∃ e r', advanceTo rounds i r = (.error e, r') ∧
        RLP.nth i p = .error e ∧ After p i r' := by
  induction rounds generalizing k r with
  | zero =>
      obtain rfl : k = i := by omega
      exact Or.inl ⟨r, rfl, h.nth hp, .found h⟩
  | succ rounds ih =>
      by_cases hki : k = i
      · subst hki
        have hstop : ¬ (r.lastIndex < k ∧ r.lastItem.count ≠ 0) := by
          rw [h.index]
          exact fun hgo => absurd hgo.1 (lt_irrefl k)
        exact Or.inl ⟨r, by rw [advanceTo, if_neg hstop], h.nth hp, .found h⟩
      · by_cases hitem : r.lastItem.count = 0
        · have hstop : ¬ (r.lastIndex < i ∧ r.lastItem.count ≠ 0) :=
            fun hgo => hgo.2 hitem
          exact Or.inl ⟨r, by rw [advanceTo, if_neg hstop],
            h.nth_of_end hp hitem hk, .behind (by omega) h hitem⟩
        · have hgo : r.lastIndex < i ∧ r.lastItem.count ≠ 0 := by
            rw [h.index]
            exact ⟨by omega, hitem⟩
          rcases advance_cached hp h hitem with
            ⟨r', hadvance, hr'⟩ | ⟨e, r', hadvance, hr', hnth⟩
          · have hto : advanceTo (rounds + 1) i r = advanceTo rounds i r' := by
              rw [advanceTo, if_pos hgo, hadvance]
            rw [hto]
            exact ih hr' (by omega) (by omega)
          · refine Or.inr ⟨e, r', by rw [advanceTo, if_pos hgo, hadvance],
              hnth i (by omega), .failed (by omega) hr'⟩

/-- A call that has gone back to the cached item `k`, or did not have to. -/
theorem subscript_of_cached (hp : Sound p) {r' : RLP} {k i : Nat}
    (h : Cached p r' k) (hk : k ≤ i) (hrewind : rewind r i = (.ok (), r')) :
    (r.subscript i).1 = fetch p i ∧ After p i (r.subscript i).2 := by
  have hrounds : i - k ≤ i - r'.lastIndex := by rw [h.index]
  rcases advanceTo_cached hp h hk hrounds with
    ⟨r'', hto, hnth, hafter⟩ | ⟨e, r'', hto, hnth, hafter⟩
  · simp only [subscript, hrewind, hto, fetch, hnth, ok_bind]
    exact ⟨trivial, hafter⟩
  · simp only [subscript, hrewind, hto, fetch, hnth, error_bind]
    exact ⟨trivial, hafter⟩

/-- A call that goes back to the first item. -/
theorem subscript_of_lt (hp : Sound p) {i size : Nat}
    (hpayload : r.payload = .ok p) (hsize : sizeAsEncoded p = .ok size)
    (hi : i < r.lastIndex) :
    (r.subscript i).1 = fetch p i ∧ After p i (r.subscript i).2 := by
  have hrewind : rewind r i = (.ok (), { r with
      lastEnd := size, lastItem := p.cropped 0 size, lastIndex := 0 }) := by
    simp only [rewind, hi, ↓reduceIte, hpayload, hsize]
  have hcached : Cached p { r with
      lastEnd := size, lastItem := p.cropped 0 size, lastIndex := 0 } 0 := by
    refine ⟨hpayload, rfl, 0, size, .first, ?_, ?_, (Nat.zero_add size).symm⟩
    · rw [hp.croppedFrom_zero, hsize]
    · rw [hp.croppedFrom_zero]
  exact subscript_of_cached hp hcached (Nat.zero_le i) hrewind

theorem Starts.sizeAsEncoded (hp : Sound p) {k o : Nat} (h : Starts p k o)
    (hk : 0 < k) : ∃ size, RLP.sizeAsEncoded p = .ok size := by
  obtain ⟨size, hsize, -⟩ := Starts.item .first h hk
  rw [hp.croppedFrom_zero] at hsize
  exact ⟨size, hsize⟩

theorem subscript_cached (hp : Sound p) {k : Nat} (h : Cached p r k) (i : Nat) :
    (r.subscript i).1 = fetch p i ∧ After p i (r.subscript i).2 := by
  by_cases hi : i < k
  · obtain ⟨o, -, hstarts, -, -, -⟩ := h.place
    obtain ⟨size, hsize⟩ := hstarts.sizeAsEncoded hp (by omega)
    exact subscript_of_lt hp h.payload hsize (h.index ▸ hi)
  · have hrewind : rewind r i = (.ok (), r) := by
      rw [rewind, if_neg (by rw [h.index]; exact hi)]
    exact subscript_of_cached hp h (Nat.not_lt.1 hi) hrewind

theorem ofRef_of_sizeAsEncoded {v : BytesConstRef} {e : Exception}
    (h : sizeAsEncoded v = .error e) : ofRef v .throwIfTooSmall = .error e := by
  unfold sizeAsEncoded at h
  cases href : ofRef v .throwIfTooSmall with
  | error f => simpa [href] using h
  | ok r =>
      obtain ⟨-, -, hsmall⟩ := ofRef_strict rfl href
      obtain ⟨size, hsize, -⟩ := hsmall rfl
      simp [href, hsize] at h

/-- A call left the cache in the middle of an update: the item whose index was
kept cannot be had directly after it. -/
theorem subscript_broken_self {k : Nat} (h : Broken p r k) :
    ∃ e, (r.subscript k).1 = .error e := by
  obtain ⟨o, e, -, he, hitem, -⟩ := h.place
  have hrewind : rewind r k = (.ok (), r) := by
    rw [rewind, if_neg (by rw [h.index]; exact lt_irrefl k)]
  have hto : advanceTo (k - r.lastIndex) k r = (.ok (), r) := by
    rw [h.index, Nat.sub_self]
    rfl
  refine ⟨e, ?_⟩
  simp only [subscript, hrewind, hto, hitem]
  exact ofRef_of_sizeAsEncoded he

/-- A larger index fails as the last call did. -/
theorem subscript_broken_gt (hp : Sound p) {k i : Nat} (h : Broken p r k)
    (hi : k < i) :
    (r.subscript i).1 = fetch p i ∧ Broken p (r.subscript i).2 k := by
  obtain ⟨o, e, hstarts, he, hitem, rfl⟩ := h.place
  have hne : r.lastItem.count ≠ 0 := by
    intro hzero
    rw [hitem] at hzero
    rw [sizeAsEncoded_of_count hzero] at he
    cases he
  have hrewind : rewind r i = (.ok (), r) := by
    rw [rewind, if_neg (by rw [h.index]; omega)]
  have hadvance : advance r = (.error e, r) := by
    simp only [advance, h.payload, he]
    rw [← hitem]
  have hto : advanceTo (i - r.lastIndex) i r = (.error e, r) := by
    obtain ⟨m, hm⟩ : ∃ m, i - r.lastIndex = m + 1 :=
      ⟨i - r.lastIndex - 1, by rw [h.index]; omega⟩
    rw [hm, advanceTo, if_pos ⟨by rw [h.index]; exact hi, hne⟩, hadvance]
  have hnth : RLP.nth i p = .error e := nth_of_break hp hstarts he hi
  simp only [subscript, hrewind, hto, fetch, hnth, error_bind]
  exact ⟨trivial, h⟩

theorem subscript_broken_lt (hp : Sound p) {k i : Nat} (h : Broken p r k)
    (hi : i < k) :
    (r.subscript i).1 = fetch p i ∧ After p i (r.subscript i).2 := by
  obtain ⟨o, -, hstarts, -⟩ := h.place
  obtain ⟨size, hsize⟩ := hstarts.sizeAsEncoded hp (Nat.succ_pos k)
  exact subscript_of_lt hp h.payload hsize (h.index ▸ hi)

end Cache

section History

variable {p : BytesConstRef} {r : RLP}

@[refl] theorem SameOutcome.refl (x : Except Exception RLP) :
    SameOutcome x x := by
  cases x with
  | error e => rfl
  | ok r => exact Or.inl (by simp [BytesConstRef.same])

/-- A new object: its cache is unused. -/
def Fresh (r : RLP) : Prop := r.lastIndex = sizeMax ∧ r.lastItem = .null

theorem subscript_max {d : RLP} (h : Fresh d) :
    d.subscript sizeMax = (.ok .null, d) := by
  obtain ⟨hindex, hitem⟩ := h
  have hrewind : rewind d sizeMax = (.ok (), d) := by
    rw [rewind, if_neg (by rw [hindex]; exact lt_irrefl _)]
  have hto : advanceTo (sizeMax - d.lastIndex) sizeMax d = (.ok (), d) := by
    rw [hindex, Nat.sub_self]
    rfl
  simp only [subscript, hrewind, hto, hitem]
  rfl

/-- The payload of a new object, with a first item that is well formed. -/
structure Opens (d : RLP) (p : BytesConstRef) : Prop where
  fresh : Fresh d
  payload : d.payload = .ok p
  sound : Sound p
  first : ∃ size, sizeAsEncoded p = .ok size

/-- A call that cannot read the first item leaves the object as it was. -/
theorem subscript_unread {d : RLP} (h : Fresh d)
    (hread : ∀ p size, d.payload = .ok p → sizeAsEncoded p ≠ .ok size) {i : Nat}
    (hi : i ≤ sizeMax) : (d.subscript i).2 = d := by
  by_cases hmax : i = sizeMax
  · rw [hmax, subscript_max h]
  · have hlt : i < d.lastIndex := by
      rw [h.1]
      omega
    cases hpayload : d.payload with
    | error e => simp only [subscript, rewind, hlt, ↓reduceIte, hpayload]
    | ok p =>
        cases hsize : sizeAsEncoded p with
        | error e =>
            simp only [subscript, rewind, hlt, ↓reduceIte, hpayload, hsize]
        | ok size => exact absurd hsize (hread p size hpayload)

theorem subscripts_unread {d : RLP} (h : Fresh d)
    (hread : ∀ p size, d.payload = .ok p → sizeAsEncoded p ≠ .ok size)
    {indices : List Nat} (hi : ∀ i ∈ indices, i ≤ sizeMax) :
    d.subscripts indices = indices.map d.get := by
  induction indices with
  | nil => rfl
  | cons i indices ih =>
      have hrest := ih fun j hj => hi j (List.mem_cons_of_mem i hj)
      rw [subscripts, subscript_unread h hread (hi i List.mem_cons_self), hrest]
      rfl

variable {d : RLP}

theorem Opens.get (h : Opens d p) {i : Nat} (hi : i < sizeMax) :
    d.get i = fetch p i ∧ After p i (d.subscript i).2 := by
  obtain ⟨size, hsize⟩ := h.first
  exact subscript_of_lt h.sound h.payload hsize (h.fresh.1 ▸ hi)

theorem Opens.get_max (h : Opens d p) : d.get sizeMax = .ok .null := by
  rw [RLP.get, subscript_max h.fresh]

theorem Sound.count_lt (hp : Sound p) : p.count < sizeMax := by
  rcases hp with rfl | ⟨mem, q, n, rfl, -, hmax⟩
  · decide
  · exact hmax

section Malformed

variable {k : Nat}

/-- The cache after a call with the index `j` whose outcome was right. -/
def Follows (p : BytesConstRef) (k j : Nat) (r : RLP) : Prop :=
  (j ≤ k ∧ Cached p r j) ∨ (k < j ∧ Broken p r k)

theorem Cached.le_of_break {j : Nat} (h : Cached p r j)
    (hbreak : BreaksAt p (k + 1)) : j ≤ k := by
  obtain ⟨o, size, hstarts, hsize, -, -⟩ := h.place
  obtain ⟨o', e, hstarts', he⟩ := hbreak
  by_contra hlt
  rcases Nat.lt_or_eq_of_le (show k + 1 ≤ j by omega) with hlt | rfl
  · obtain ⟨size', hsize', -⟩ := hstarts'.item hstarts hlt
    rw [he] at hsize'
    cases hsize'
  · obtain rfl := hstarts.unique hstarts'
    rw [he] at hsize
    cases hsize

theorem After.follows (hp : Sound p) (hbreak : BreaksAt p (k + 1)) {i : Nat}
    (h : After p i r) : Follows p k i r := by
  cases h with
  | found hcached => exact Or.inl ⟨hcached.le_of_break hbreak, hcached⟩
  | @behind j hj hcached hend =>
      have hle := hcached.le_of_break hbreak
      obtain ⟨o, size, hstarts, hsize, hitem, -⟩ := hcached.place
      obtain ⟨o', e, hstarts', -⟩ := hbreak
      obtain ⟨size', hsize', hne⟩ := hstarts.item hstarts' (by omega)
      rw [hsize, Except.ok.injEq] at hsize'
      rw [hitem, ((hp.croppedFrom o).front hsize).count, hsize'] at hend
      exact absurd hend hne
  | @failed j hj hbroken =>
      obtain ⟨o, e, hstarts, he, -, -⟩ := hbroken.place
      obtain rfl : j = k :=
        Nat.succ.inj (BreaksAt.unique ⟨o, e, hstarts, he⟩ hbreak)
      exact Or.inr ⟨hj, hbroken⟩

theorem BreaksAt.fetch (hp : Sound p) (hbreak : BreaksAt p (k + 1)) :
    (∃ s, fetch p k = .ok s) ∧ (∃ e, fetch p sizeMax = .error e) ∧
      k < sizeMax := by
  obtain ⟨o', e, hstarts', he⟩ := hbreak
  have hcount := hp.count_lt
  have hle := hstarts'.le_count hp
  refine ⟨?_, ⟨e, ?_⟩, by omega⟩
  · cases hstarts' with
    | @next _ o size before item hne =>
        have hnth := nth_of_starts hp before 0
        rw [Nat.add_zero, RLP.nth, item, ok_bind] at hnth
        exact ⟨_, by rw [RLP.fetch, hnth, ok_bind, (nth_ok hp hnth).1]⟩
  · rw [RLP.fetch, nth_of_break hp hstarts' he (by omega), error_bind]

theorem sameOutcome_fetch_iff (h : Opens d p) (hbreak : BreaksAt p (k + 1))
    {i : Nat} (hi : i ≤ sizeMax) :
    SameOutcome (fetch p i) (d.get i) ↔ i ≠ sizeMax := by
  constructor
  · rintro hsame rfl
    obtain ⟨-, ⟨e, he⟩, -⟩ := hbreak.fetch h.sound
    rw [he, h.get_max] at hsame
    exact hsame
  · intro hne
    rw [(h.get (by omega)).1]

/-- One call on an object whose last outcome was right. -/
theorem subscript_follows (h : Opens d p) (hbreak : BreaksAt p (k + 1))
    {i j : Nat} (hr : Follows p k j r) (hi : i ≤ sizeMax) :
    (SameOutcome (r.subscript i).1 (d.get i) ↔ i ≠ sizeMax ∧ (i = k → j ≤ k)) ∧
      ((i = k → j ≤ k) → Follows p k i (r.subscript i).2) := by
  have hfetch := sameOutcome_fetch_iff h hbreak hi
  rcases hr with ⟨hj, hcached⟩ | ⟨hj, hbroken⟩
  · obtain ⟨hout, hafter⟩ := subscript_cached h.sound hcached i
    rw [hout, hfetch]
    exact ⟨⟨fun hne => ⟨hne, fun _ => hj⟩, And.left⟩,
      fun _ => hafter.follows h.sound hbreak⟩
  · rcases Nat.lt_trichotomy i k with hlt | rfl | hgt
    · obtain ⟨hout, hafter⟩ := subscript_broken_lt h.sound hbroken hlt
      rw [hout, hfetch]
      exact ⟨⟨fun hne => ⟨hne, fun heq => by omega⟩, And.left⟩,
        fun _ => hafter.follows h.sound hbreak⟩
    · obtain ⟨e, hout⟩ := subscript_broken_self hbroken
      obtain ⟨⟨s, hs⟩, -, hlt⟩ := hbreak.fetch h.sound
      have hbad : ¬ (i = i → j ≤ i) := fun hle => absurd (hle rfl) (by omega)
      rw [hout, (h.get hlt).1, hs]
      exact ⟨⟨False.elim, fun hright => hbad hright.2⟩,
        fun hle => absurd hle hbad⟩
    · obtain ⟨hout, hafter⟩ := subscript_broken_gt h.sound hbroken hgt
      rw [hout, hfetch]
      exact ⟨⟨fun hne => ⟨hne, fun heq => by omega⟩, And.left⟩,
        fun _ => Or.inr ⟨hgt, hafter⟩⟩

theorem subscripts_follows (h : Opens d p) (hbreak : BreaksAt p (k + 1))
    {indices : List Nat} (hi : ∀ i ∈ indices, i ≤ sizeMax) {j : Nat}
    (hr : Follows p k j r) :
    List.Forall₂ SameOutcome (r.subscripts indices) (indices.map d.get) ↔
      sizeMax ∉ indices ∧
        (j :: indices).IsChain fun j i => i = k → j ≤ k := by
  induction indices generalizing j r with
  | nil => simp [subscripts]
  | cons i indices ih =>
      obtain ⟨hsame, hnext⟩ := subscript_follows h hbreak hr
        (hi i List.mem_cons_self)
      rw [subscripts, List.map_cons, List.forall₂_cons, hsame,
        List.isChain_cons_cons, List.mem_cons, not_or]
      constructor
      · rintro ⟨⟨hne, hle⟩, hrest⟩
        have := (ih (fun l hl => hi l (List.mem_cons_of_mem i hl))
          (hnext hle)).1 hrest
        exact ⟨⟨fun heq => hne heq.symm, this.1⟩, hle, this.2⟩
      · rintro ⟨⟨hne, hmem⟩, hle, hchain⟩
        exact ⟨⟨fun heq => hne heq.symm, hle⟩,
          (ih (fun l hl => hi l (List.mem_cons_of_mem i hl))
            (hnext hle)).2 ⟨hmem, hchain⟩⟩

/-- Calls on a new object, up to the first one that uses the cache and from
it on. -/
theorem subscripts_fresh_of_break (h : Opens d p) (hbreak : BreaksAt p (k + 1))
    {indices : List Nat} (hi : ∀ i ∈ indices, i ≤ sizeMax) :
    List.Forall₂ SameOutcome (d.subscripts indices) (indices.map d.get) ↔
      KeepsClear k indices := by
  induction indices with
  | nil => simp [subscripts, KeepsClear]
  | cons i indices ih =>
      have hrest := fun l hl => hi l (List.mem_cons_of_mem i hl)
      have hsame : SameOutcome (d.subscript i).1 (d.get i) := .refl _
      rw [subscripts, List.map_cons, List.forall₂_cons]
      by_cases hmax : i = sizeMax
      · subst hmax
        rw [subscript_max h.fresh, ih hrest, KeepsClear, KeepsClear,
          List.dropWhile_cons_of_pos (by simp)]
        rw [subscript_max h.fresh] at hsame
        exact and_iff_right hsame
      · have hlt : i < sizeMax := by
          have := hi i List.mem_cons_self
          omega
        have hfollows := (h.get hlt).2.follows h.sound hbreak
        rw [subscripts_follows h hbreak hrest hfollows, KeepsClear,
          List.dropWhile_cons_of_neg (by simpa using hmax), List.mem_cons,
          not_or]
        constructor
        · rintro ⟨-, hmem, hchain⟩
          exact ⟨⟨fun heq => hmax heq.symm, hmem⟩, hchain⟩
        · rintro ⟨⟨-, hmem⟩, hchain⟩
          exact ⟨hsame, hmem, hchain⟩

end Malformed

section WellFormed

theorem Opens.fetch_max (h : Opens d p) (hgood : ∀ k, ¬ BreaksAt p (k + 1)) :
    SameOutcome (fetch p sizeMax) (.ok .null) := by
  cases hnth : nth sizeMax p with
  | error e =>
      have hstart := hnth
      rw [← h.sound.croppedFrom_zero] at hstart
      obtain ⟨k, -, hbreak⟩ := exists_break h.sound .first hstart
      cases k with
      | zero =>
          obtain ⟨o, e, hstarts, he⟩ := hbreak
          obtain rfl := hstarts.unique .first
          obtain ⟨size, hsize⟩ := h.first
          rw [h.sound.croppedFrom_zero, hsize] at he
          cases he
      | succ k => exact absurd hbreak (hgood k)
  | ok w =>
      obtain ⟨href, hcount⟩ := nth_ok h.sound hnth
      rw [fetch, hnth, ok_bind, href]
      exact Or.inr ⟨by simpa [RLP.isNull] using hcount h.sound.count_lt.le, rfl⟩

theorem After.cached {i : Nat} (hgood : ∀ k, ¬ BreaksAt p (k + 1))
    (h : After p i r) : ∃ j, Cached p r j := by
  cases h with
  | found hcached => exact ⟨i, hcached⟩
  | behind hj hcached hend => exact ⟨_, hcached⟩
  | @failed j hj hbroken =>
      obtain ⟨o, e, hstarts, he, -⟩ := hbroken.place
      exact absurd ⟨o, e, hstarts, he⟩ (hgood j)

theorem subscripts_cached (h : Opens d p) (hgood : ∀ k, ¬ BreaksAt p (k + 1))
    {indices : List Nat} (hi : ∀ i ∈ indices, i ≤ sizeMax) {j : Nat}
    (hr : Cached p r j) :
    List.Forall₂ SameOutcome (r.subscripts indices) (indices.map d.get) := by
  induction indices generalizing j r with
  | nil => exact .nil
  | cons i indices ih =>
      obtain ⟨hout, hafter⟩ := subscript_cached h.sound hr i
      obtain ⟨j', hr'⟩ := hafter.cached hgood
      refine .cons ?_ (ih (fun l hl => hi l (List.mem_cons_of_mem i hl)) hr')
      rw [hout]
      by_cases hmax : i = sizeMax
      · rw [hmax, h.get_max]
        exact h.fetch_max hgood
      · have hlt : i < sizeMax := by
          have := hi i List.mem_cons_self
          omega
        rw [(h.get hlt).1]

theorem subscripts_fresh (h : Opens d p) (hgood : ∀ k, ¬ BreaksAt p (k + 1))
    {indices : List Nat} (hi : ∀ i ∈ indices, i ≤ sizeMax) :
    List.Forall₂ SameOutcome (d.subscripts indices) (indices.map d.get) := by
  induction indices with
  | nil => exact .nil
  | cons i indices ih =>
      have hrest := fun l hl => hi l (List.mem_cons_of_mem i hl)
      refine .cons (.refl _) ?_
      by_cases hmax : i = sizeMax
      · rw [hmax, subscript_max h.fresh]
        exact ih hrest
      · have hlt : i < sizeMax := by
          have := hi i List.mem_cons_self
          omega
        obtain ⟨j, hj⟩ := (h.get hlt).2.cached hgood
        exact subscripts_cached h hgood hrest hj

end WellFormed

end History

/-- The payload of an item that a strict construction accepts. -/
theorem sound_payload {flags : Strictness} (hflags : flags.Strict) {b : Bytes}
    {r : RLP} (h : ofRef (.ofBytes b) flags = .ok r) {p : BytesConstRef}
    (hp : r.payload = .ok p) : Sound p := by
  obtain ⟨rfl, hbig, -⟩ := ofRef_strict hflags.1 h
  by_cases hne : b.length = 0
  · obtain rfl := List.eq_nil_of_length_eq_zero hne
    exact Or.inl (Except.ok.inj hp).symm
  · have hv : (BytesConstRef.ofBytes b).Valid := BytesConstRef.valid_ofBytes b
    obtain ⟨size, hsize, hle⟩ := hbig hflags.2
    obtain ⟨isList, offset, l, hhead, rfl⟩ :=
      exists_head_of_actualSize (r := { data := .ofBytes b }) hv hne hsize
    obtain ⟨-, hmax, -⟩ := head_bounds hhead
    rcases exists_payload_cut hv rfl hhead hp with ⟨hfit, rfl⟩ | ⟨-, -, rfl⟩
    · have hfit : offset + l ≤ b.length := hfit
      refine Or.inr ⟨b, 0 + offset, l, rfl, by omega, by omega⟩
    · exact Or.inl rfl

/-- **The history of indexed access.**  On what a strict construction accepts,
a list or not, every call of `operator[]` has the outcome it has on a new
object, if and only if the calls keep clear of the state that a malformed item
leaves behind, where a well-formed item stands before it. -/
theorem subscripts_history_iff {flags : Strictness} (hflags : flags.Strict)
    {b : Bytes} {r : RLP} (h : ofRef (.ofBytes b) flags = .ok r)
    {indices : List Nat} (hindices : ∀ i ∈ indices, i ≤ sizeMax) :
    List.Forall₂ SameOutcome (r.subscripts indices) (indices.map r.get) ↔
      ∀ p k, r.payload = .ok p → BreaksAt p (k + 1) → KeepsClear k indices := by
  have hfresh : Fresh r := by
    obtain ⟨rfl, -, -⟩ := ofRef_strict hflags.1 h
    exact ⟨rfl, rfl⟩
  by_cases hread : ∃ p size, r.payload = .ok p ∧ sizeAsEncoded p = .ok size
  · obtain ⟨p, size, hpayload, hsize⟩ := hread
    have hopens : Opens r p :=
      ⟨hfresh, hpayload, sound_payload hflags h hpayload, size, hsize⟩
    by_cases hbreak : ∃ k, BreaksAt p (k + 1)
    · obtain ⟨k, hbreak⟩ := hbreak
      rw [subscripts_fresh_of_break hopens hbreak hindices]
      constructor
      · intro hclear p' k' hpayload' hbreak'
        obtain rfl := Except.ok.inj (hpayload.symm.trans hpayload')
        obtain rfl := Nat.succ.inj (hbreak.unique hbreak')
        exact hclear
      · exact fun hclear => hclear p k hpayload hbreak
    · have hgood := not_exists.1 hbreak
      refine iff_of_true (subscripts_fresh hopens hgood hindices) ?_
      intro p' k hpayload' hbreak'
      obtain rfl := Except.ok.inj (hpayload.symm.trans hpayload')
      exact absurd hbreak' (hgood k)
  · have hunread : ∀ p size, r.payload = .ok p → sizeAsEncoded p ≠ .ok size :=
      fun p size hpayload hsize => hread ⟨p, size, hpayload, hsize⟩
    refine iff_of_true ?_ ?_
    · rw [subscripts_unread hfresh hunread hindices]
      exact List.forall₂_same.2 fun x _ => .refl x
    · rintro p k hpayload ⟨o, e, hstarts, -⟩
      have hsound := sound_payload hflags h hpayload
      obtain ⟨size, hsize⟩ := hstarts.sizeAsEncoded hsound (Nat.succ_pos k)
      exact absurd hsize (hunread p size hpayload)

/-- A malformed item behind a byte, and calls that keep clear of it. -/
theorem subscripts_history_clear :
    List.Forall₂ SameOutcome
        (RLP.subscripts { data := .ofBytes [0xc2, 0x01, 0x81] } [0, 1, 1])
        ([0, 1, 1].map (RLP.get { data := .ofBytes [0xc2, 0x01, 0x81] })) ↔
      ∀ p k, RLP.payload { data := .ofBytes [0xc2, 0x01, 0x81] } = .ok p →
        BreaksAt p (k + 1) → KeepsClear k [0, 1, 1] :=
  subscripts_history_iff (show Strictness.Strict .veryStrict from ⟨rfl, rfl⟩)
    (b := [0xc2, 0x01, 0x81]) (by decide +kernel) (by decide)

/-- After `[1]` has failed at the malformed item, `[0]` fails too. -/
theorem not_subscripts_history :
    ∃ b r, ofRef (.ofBytes b) .veryStrict = .ok r ∧ r.isList = true ∧
      ∃ indices, (∀ i ∈ indices, i ≤ sizeMax) ∧
        ¬ List.Forall₂ SameOutcome (r.subscripts indices)
          (indices.map r.get) := by
  refine ⟨[0xc2, 0x01, 0x81], { data := .ofBytes [0xc2, 0x01, 0x81] },
    by decide +kernel, by decide, [1, 0], by decide, ?_⟩
  have hcalls : RLP.subscripts { data := .ofBytes [0xc2, 0x01, 0x81] } [1, 0] =
      [.error .badRLP, .error .badRLP] := by decide +kernel
  have hget : RLP.get { data := .ofBytes [0xc2, 0x01, 0x81] } 0 =
      .ok { data := window [0xc2, 0x01, 0x81] 1 1 } := by decide +kernel
  rw [hcalls, List.map_cons, List.map_cons, hget]
  rintro (_ | ⟨-, hrest⟩)
  cases hrest with
  | cons hsame _ => exact hsame

end RLP

end Web3Core
