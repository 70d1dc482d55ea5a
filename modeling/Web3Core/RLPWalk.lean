/-
The ways of walking an item: the count, the iterator and indexed access.  A
payload whose items are all well formed splits into them, and each of the walks
over the payload yields the parts; what the walks do differently is left to
items that are not lists and to lists that are cut off.
-/
import Web3Core.RLPHistory

namespace Web3Core

open BytesConstRef (window)

namespace RLP

/-- The payload `p` consists of the items `vs`. -/
inductive Splits : BytesConstRef → List BytesConstRef → Prop
  | nil {p : BytesConstRef} (hcount : p.count = 0) : Splits p []
  | cons {p : BytesConstRef} {size : Nat} {vs : List BytesConstRef}
      (item : sizeAsEncoded p = .ok size) (hne : size ≠ 0)
      (rest : Splits (p.croppedFrom size) vs) :
      Splits p (p.cropped 0 size :: vs)

section Parts

variable {p : BytesConstRef}

theorem Sound.count_croppedFrom (hp : Sound p) {size : Nat}
    (h : size ≤ p.count) : (p.croppedFrom size).count = p.count - size := by
  rcases hp with rfl | ⟨mem, q, n, rfl, -, -⟩
  · exact (Nat.zero_sub size).symm
  · rw [BytesConstRef.croppedFrom_of_le rfl h]
    rfl

/-- A payload in which every walk succeeds splits. -/
theorem exists_splits (hp : Sound p)
    (hnth : ∀ i, i ≤ p.count → ∃ w, nth i p = .ok w) : ∃ vs, Splits p vs := by
  induction hn : p.count using Nat.strong_induction_on generalizing p with
  | _ n ih =>
      obtain ⟨w, hw⟩ := hnth 0 (Nat.zero_le _)
      cases hsize : sizeAsEncoded p with
      | error e => simp [nth, hsize] at hw
      | ok size =>
          have hfront := hp.front hsize
          by_cases hzero : size = 0
          · exact ⟨[], .nil (hfront.zero.1 hzero)⟩
          · have hcount := hp.count_croppedFrom hfront.le
            have hle := hfront.le
            have hrest : ∀ i, i ≤ (p.croppedFrom size).count →
                ∃ w, nth i (p.croppedFrom size) = .ok w := by
              intro i hi
              obtain ⟨w, hw⟩ := hnth (i + 1) (by omega)
              rw [nth, hsize, ok_bind, if_neg hzero] at hw
              exact ⟨w, hw⟩
            obtain ⟨vs, hvs⟩ := ih (p.croppedFrom size).count (by omega)
              (hp.croppedFrom size) hrest rfl
            exact ⟨_, .cons hsize hzero hvs⟩

theorem Splits.length_le (hp : Sound p) {vs : List BytesConstRef}
    (h : Splits p vs) : vs.length ≤ p.count := by
  induction h with
  | nil hcount => exact Nat.zero_le _
  | cons item hne rest ih =>
      have hle := (hp.front item).le
      have hrest := ih (hp.croppedFrom _)
      rw [hp.count_croppedFrom hle] at hrest
      rw [List.length_cons]
      omega

theorem Splits.countItems {vs : List BytesConstRef} (h : Splits p vs)
    (hp : Sound p) {fuel : Nat} (hfuel : vs.length < fuel) :
    countItems fuel p = .ok vs.length := by
  induction h generalizing fuel with
  | nil hcount =>
      obtain ⟨fuel, rfl⟩ := Nat.exists_eq_add_of_lt hfuel
      simp [RLP.countItems, hcount]
  | @cons p size vs item hne rest ih =>
      obtain ⟨fuel, rfl⟩ : ∃ m, fuel = m + 1 :=
        ⟨fuel - 1, by rw [List.length_cons] at hfuel; omega⟩
      have hcount : p.count ≠ 0 := fun hzero => hne ((hp.front item).zero.2 hzero)
      rw [RLP.countItems, if_neg hcount, item, ok_bind,
        ih (hp.croppedFrom size) (by rw [List.length_cons] at hfuel; omega)]
      rfl

/-- The walk to an index finds the part with the index, or an empty view
behind the last part. -/
theorem Splits.nth {vs : List BytesConstRef} (h : Splits p vs) (hp : Sound p)
    (i : Nat) : ∃ w, RLP.nth i p = .ok w ∧
      (∀ hi : i < vs.length, w = vs[i]) ∧ (vs.length ≤ i → w.count = 0) := by
  induction h generalizing i with
  | @nil p hcount =>
      have hsize := sizeAsEncoded_of_count hcount
      refine ⟨p.cropped 0 0, ?_, fun hi => absurd hi (Nat.not_lt_zero i),
        fun _ => (hp.front hsize).count⟩
      cases i <;> simp [RLP.nth, hsize]
  | @cons p size vs item hne rest ih =>
      cases i with
      | zero =>
          refine ⟨p.cropped 0 size, by rw [RLP.nth, item, ok_bind],
            fun _ => rfl, fun hle => ?_⟩
          exact absurd hle (Nat.not_le.2 (Nat.succ_pos _))
      | succ i =>
          obtain ⟨w, hw, hin, hout⟩ := ih (hp.croppedFrom size) i
          refine ⟨w, by rw [RLP.nth, item, ok_bind, if_neg hne, hw],
            fun hi => hin (Nat.lt_of_succ_lt_succ hi),
            fun hle => hout (Nat.le_of_succ_le_succ hle)⟩

theorem next_eq {mem : Bytes} {q c c' n : Nat} (hend : q + c + n ≤ mem.length)
    (h : sizeAsEncoded (window mem (q + c) n) = .ok c') :
    Iterator.next ⟨n, window mem q c⟩ = .ok ⟨n - c', window mem (q + c) c'⟩ ∧
      c' ≤ n := by
  by_cases hn : n = 0
  · subst hn
    obtain rfl : 0 = c' := Except.ok.inj h
    exact ⟨rfl, le_rfl⟩
  · obtain ⟨-, hle, hcrop⟩ := cut_front hend hn h
    have hfollow : (window mem q c).following n = window mem (q + c) n := rfl
    refine ⟨?_, hle⟩
    simp only [Iterator.next, ne_eq, hn, not_false_eq_true, ↓reduceIte, hfollow,
      h, ok_bind, hcrop]
    simp [window, Nat.min_eq_right hle]

theorem Splits.size {vs : List BytesConstRef} (h : Splits p vs) :
    ∃ size, sizeAsEncoded p = .ok size := by
  cases h with
  | nil hcount => exact ⟨0, sizeAsEncoded_of_count hcount⟩
  | cons item _ _ => exact ⟨_, item⟩

/-- The loop of `toList` from the first item of a payload on. -/
theorem Splits.collect {mem : Bytes} {q n c : Nat} {vs : List BytesConstRef}
    (h : Splits (window mem q (c + n)) vs) (hend : q + (c + n) ≤ mem.length)
    (hmax : c + n < sizeMax)
    (hfirst : sizeAsEncoded (window mem q (c + n)) = .ok c) {fuel : Nat}
    (hfuel : vs.length < fuel) :
    collect fuel ⟨n, window mem q c⟩ ⟨0, window mem (q + (c + n)) 0⟩ =
      .ok (vs.map fun v => { data := v }) := by
  obtain ⟨fuel, rfl⟩ := Nat.exists_eq_add_of_lt hfuel
  induction vs generalizing q n c with
  | nil =>
      cases h with
      | nil hcount =>
          have hzero : c = 0 ∧ n = 0 := by
            have : c + n = 0 := hcount
            omega
          obtain ⟨rfl, rfl⟩ := hzero
          simp [RLP.collect, BytesConstRef.same, window]
  | cons v vs ih =>
      have hsound : Sound (window mem q (c + n)) :=
        Or.inr ⟨mem, q, c + n, rfl, hend, hmax⟩
      cases h with
      | @cons _ size _ item hne rest =>
          rw [hfirst, Except.ok.injEq] at item
          subst item
          have hcrop := (cut_front hend (by omega) hfirst).2.2
          have hrest : (window mem q (c + n)).croppedFrom c =
              window mem (q + c) n := by
            rw [BytesConstRef.croppedFrom_of_le rfl (Nat.le_add_right c n)]
            simp [window]
          rw [hrest] at rest
          have hsame : (window mem q c).same (window mem (q + (c + n)) 0) =
              false := by
            simp [BytesConstRef.same, window, hne]
          have hitem : Iterator.item ⟨n, window mem q c⟩ =
              .ok { data := window mem q c } := by
            have := (hsound.front hfirst).ofRef .veryStrict
            rwa [hcrop] at this
          obtain ⟨c', hc'⟩ := rest.size
          obtain ⟨hnext, hle⟩ := next_eq (by omega) hc'
          obtain ⟨n', rfl⟩ := Nat.exists_eq_add_of_le hle
          rw [Nat.add_sub_cancel_left] at hnext
          have hlast : q + (c + (c' + n')) = q + c + (c' + n') := by omega
          have hloop := ih rest (by omega) (by omega) hc'
          rw [List.length_cons, Nat.add_right_comm vs.length 1 fuel, RLP.collect,
            hsame]
          simp only [Bool.false_eq_true, ↓reduceIte, hitem, ok_bind, hnext,
            hlast, hloop (by omega), hcrop, List.map_cons]

end Parts

/-- None of the calls throws; the loop of `toList` may still not end. -/
structure Quiet (r : RLP) : Prop where
  itemCount : ∃ n, r.itemCount = .ok n
  toList : ∀ e, r.toList = .error e → e = .outOfFuel
  get : ∀ i, i ≤ sizeMax → ∃ s, r.get i = .ok s

/-- The walks agree: as many items as are counted, each of them found under
its index, and the null item elsewhere. -/
def WalksAgree (r : RLP) : Prop :=
  ∃ items, r.toList = .ok items ∧ r.itemCount = .ok items.length ∧
    ∀ i, i ≤ sizeMax → ∃ s, r.get i = .ok s ∧
      if h : r.isList = true ∧ i < items.length then
        SameItem s (items.get ⟨i, h.2⟩)
      else s.isNull = true

/-- A list whose payload is not cut off, or an item without payload that is
not a list. -/
def Walkable (r : RLP) : Prop :=
  ∀ p, r.payload = .ok p → if r.isList then p ≠ .null else p.count = 0

section Agreement

variable {p : BytesConstRef} {r : RLP}

/-- Indexed access on a new object whose payload splits. -/
theorem Opens.get_split (h : Opens r p) {vs : List BytesConstRef}
    (hvs : Splits p vs) {i : Nat} (hi : i ≤ sizeMax) :
    ∃ s, r.get i = .ok s ∧ (∀ hlt : i < vs.length, s = { data := vs[i] }) ∧
      (vs.length ≤ i → s.isNull = true) := by
  by_cases hmax : i = sizeMax
  · have hlength := hvs.length_le h.sound
    have hcount := h.sound.count_lt
    exact ⟨.null, by rw [hmax, h.get_max], fun hlt => by omega, fun _ => rfl⟩
  · obtain ⟨w, hw, hin, hout⟩ := hvs.nth h.sound i
    refine ⟨{ data := w }, ?_, fun hlt => by rw [hin hlt], fun hle => ?_⟩
    · rw [(h.get (by omega)).1, fetch, hw, ok_bind, (nth_ok h.sound hw).1]
    · simpa [RLP.isNull] using hout hle

theorem Quiet.opens (h : Quiet r) (hfresh : Fresh r)
    (hsound : ∀ p, r.payload = .ok p → Sound p) : ∃ p, Opens r p := by
  have hlt : 0 < r.lastIndex := by
    rw [hfresh.1]
    decide
  obtain ⟨s, hs⟩ := h.get 0 (Nat.zero_le _)
  cases hpayload : r.payload with
  | error e =>
      simp [RLP.get, subscript, rewind, hlt, hpayload] at hs
  | ok p =>
      cases hsize : sizeAsEncoded p with
      | error e =>
          simp [RLP.get, subscript, rewind, hlt, hpayload, hsize] at hs
      | ok size => exact ⟨p, hfresh, hpayload, hsound p hpayload, size, hsize⟩

theorem Quiet.splits (h : Quiet r) (hopens : Opens r p) :
    ∃ vs, Splits p vs := by
  refine exists_splits hopens.sound fun i hi => ?_
  have hcount := hopens.sound.count_lt
  obtain ⟨s, hs⟩ := h.get i (by omega)
  rw [(hopens.get (by omega)).1, fetch] at hs
  cases hnth : nth i p with
  | error e => simp [hnth] at hs
  | ok w => exact ⟨w, rfl⟩

/-- A payload inside its memory. -/
structure Lies (mem : Bytes) (q n : Nat) : Prop where
  le : q + n ≤ mem.length
  lt : n < sizeMax

section Window

variable {mem : Bytes} {q n c : Nat}

theorem Lies.sound (h : Lies mem q n) : Sound (window mem q n) :=
  Or.inr ⟨mem, q, n, rfl, h.le, h.lt⟩

/-- The iterator of a list whose payload lies at `q`. -/
theorem start_window (hlist : r.isList = true)
    (hpayload : r.payload = .ok (window mem q n)) (h : Lies mem q n)
    (hsize : sizeAsEncoded (window mem q n) = .ok c) :
    Iterator.start r = .ok ⟨n - c, window mem q c⟩ ∧ c ≤ n := by
  have hle : c ≤ n := (h.sound.front hsize).le
  have hcrop : (window mem q n).cropped 0 c = window mem q c := by
    have hbound : 0 + c ≤ (window mem q n).count := by
      rw [Nat.zero_add]
      exact hle
    have := h.lt
    rw [BytesConstRef.cropped_of_le rfl hbound (by omega)]
    rfl
  rw [Iterator.start, if_pos hlist, hpayload, ok_bind, hsize, ok_bind, hcrop]
  exact ⟨rfl, hle⟩

/-- The list of the items of a payload that splits. -/
theorem toList_of_splits (hlist : r.isList = true)
    (hpayload : r.payload = .ok (window mem q n))
    (hend : (Iterator.finish r).currentItem = window mem (q + n) 0)
    (h : Lies mem q n) {vs : List BytesConstRef}
    (hvs : Splits (window mem q n) vs) (hcount : n ≤ r.data.count) :
    r.toList = .ok (vs.map fun v => { data := v }) := by
  obtain ⟨c, hc⟩ := hvs.size
  obtain ⟨hstart, hle⟩ := start_window hlist hpayload h hc
  have hlast : Iterator.finish r = ⟨0, window mem (q + n) 0⟩ := by
    rw [← hend]
    rfl
  obtain ⟨m, rfl⟩ := Nat.exists_eq_add_of_le hle
  have hlength : vs.length ≤ c + m := hvs.length_le h.sound
  rw [Nat.add_sub_cancel_left] at hstart
  rw [toList, hlist, hstart, hlast]
  simp only [Bool.not_true, Bool.false_eq_true, ↓reduceIte, ok_bind]
  exact hvs.collect h.le h.lt hc (by omega)

end Window

/-- The walks over a list whose payload splits. -/
theorem Opens.walksAgree (h : Opens r p) {vs : List BytesConstRef}
    (hvs : Splits p vs) (hlist : r.isList = true)
    (hitems : r.toList = .ok (vs.map fun v => { data := v })) :
    WalksAgree r := by
  refine ⟨_, hitems, ?_, fun i hi => ?_⟩
  · rw [itemCount, if_pos hlist, items, if_pos hlist, h.payload, ok_bind,
      List.length_map]
    exact hvs.countItems h.sound (Nat.lt_succ_of_le (hvs.length_le h.sound))
  · obtain ⟨s, hs, hin, hout⟩ := h.get_split hvs hi
    refine ⟨s, hs, ?_⟩
    split
    · rename_i hboth
      have hlt : i < vs.length := by simpa using hboth.2
      rw [hin hlt]
      exact Or.inl (by simp [BytesConstRef.same])
    · rename_i hboth
      refine hout ?_
      by_contra hlt
      exact hboth ⟨hlist, by simpa using hlt⟩

theorem offset_pos {b : Bytes} {offset l : Nat} (h : Head b true offset l) :
    0 < offset := by
  cases h with
  | list rest hl => exact RLPTree.length_header_pos _ _

/-- The iterator of a list that is cut off starts at a null view. -/
theorem start_null (hlist : r.isList = true) (hp : r.payload = .ok .null) :
    Iterator.start r = .ok ⟨0, .null⟩ := by
  rw [Iterator.start, if_pos hlist, hp]
  rfl

/-- Where the payload of a list on a whole byte string lies, if the list is
not cut off. -/
theorem exists_payload_window {flags : Strictness} (hflags : flags.Strict)
    {b : Bytes} (h : ofRef (.ofBytes b) flags = .ok r)
    (hlist : r.isList = true) (hp : r.payload = .ok p) (hne : p ≠ .null) :
    ∃ q n, p = window b q n ∧ 0 < q ∧ q + n = b.length ∧ n < sizeMax ∧
      (Iterator.finish r).currentItem = window b (q + n) 0 := by
  obtain ⟨rfl, hbig, -⟩ := ofRef_strict hflags.1 h
  have hv : (BytesConstRef.ofBytes b).Valid := BytesConstRef.valid_ofBytes b
  obtain ⟨size, hsize, hle⟩ := hbig hflags.2
  have hb : b.length ≠ 0 := by
    intro hzero
    obtain rfl := List.eq_nil_of_length_eq_zero hzero
    cases hlist
  obtain ⟨isList, offset, l, hhead, rfl⟩ :=
    exists_head_of_actualSize (r := { data := .ofBytes b }) hv hb hsize
  obtain ⟨-, -, hkind, -⟩ := of_head hv hhead
  rw [hlist] at hkind
  obtain ⟨-, hmax, -⟩ := head_bounds hhead
  obtain rfl := hkind
  have hpos := offset_pos hhead
  have hle : b.length ≤ offset + l := hle
  rcases exists_payload_cut hv rfl hhead hp with ⟨hfit, rfl⟩ | ⟨-, -, rfl⟩
  · have hfit : offset + l ≤ b.length := hfit
    have hsum : 0 + offset + l = b.length := by omega
    refine ⟨0 + offset, l, rfl, by omega, hsum, by omega, ?_⟩
    rw [hsum, Iterator.finish]
    simp [BytesConstRef.croppedFrom, BytesConstRef.ofBytes, window]
  · exact absurd rfl hne

end Agreement

/-- **The ways of walking an item.**  Where none of the calls throws, they
agree if and only if the item is a list that is not cut off or has an empty
payload. -/
theorem walksAgree_iff {flags : Strictness} (hflags : flags.Strict) {b : Bytes}
    {r : RLP} (h : ofRef (.ofBytes b) flags = .ok r) (hquiet : Quiet r) :
    WalksAgree r ↔ Walkable r := by
  have hfresh : Fresh r := by
    obtain ⟨rfl, -, -⟩ := ofRef_strict hflags.1 h
    exact ⟨rfl, rfl⟩
  obtain ⟨p, hopens⟩ := hquiet.opens hfresh fun p => sound_payload hflags h
  obtain ⟨vs, hvs⟩ := hquiet.splits hopens
  constructor
  · rintro ⟨items, hitems, -, hget⟩ p' hp'
    obtain rfl := Except.ok.inj (hopens.payload.symm.trans hp')
    by_cases hlist : r.isList = true
    · rw [if_pos hlist]
      rintro rfl
      rw [toList, hlist, start_null hlist hp'] at hitems
      refine absurd hitems (collect_null ?_ items)
      obtain ⟨rfl, -, -⟩ := ofRef_strict hflags.1 h
      simp [Iterator.finish, BytesConstRef.croppedFrom, BytesConstRef.ofBytes]
    · rw [if_neg hlist]
      obtain ⟨s, hs, hnull⟩ := hget 0 (Nat.zero_le _)
      rw [dif_neg fun hboth => hlist hboth.1] at hnull
      obtain ⟨s', hs', hin, -⟩ := hopens.get_split hvs (Nat.zero_le _)
      obtain rfl := Except.ok.inj (hs.symm.trans hs')
      cases hvs with
      | nil hcount => exact hcount
      | @cons _ size _ item hne rest =>
          rw [hin (Nat.succ_pos _)] at hnull
          have hcount := (hopens.sound.front item).count
          have hzero : (p.cropped 0 size).count = 0 := by
            simpa [RLP.isNull] using hnull
          exact absurd (hcount.symm.trans hzero) hne
  · intro hwalk
    have hcond := hwalk p hopens.payload
    by_cases hlist : r.isList = true
    · rw [if_pos hlist] at hcond
      obtain ⟨q, n, rfl, hq, hsum, hn, hend⟩ :=
        exists_payload_window hflags h hlist hopens.payload hcond
      have hcount : r.data.count = b.length := by
        obtain ⟨rfl, -, -⟩ := ofRef_strict hflags.1 h
        rfl
      exact hopens.walksAgree hvs hlist
        (toList_of_splits hlist hopens.payload hend ⟨hsum.le, hn⟩ hvs (by omega))
    · rw [if_neg hlist] at hcond
      have hlist' : r.isList = false := by simpa using hlist
      obtain rfl : vs = [] := by
        have := hvs.length_le hopens.sound
        exact List.eq_nil_of_length_eq_zero (by omega)
      refine ⟨[], by simp [toList, hlist'], by simp [itemCount, hlist'],
        fun i hi => ?_⟩
      obtain ⟨s, hs, -, hout⟩ := hopens.get_split hvs hi
      exact ⟨s, hs, by simpa using hout (Nat.zero_le _)⟩

/-- The item `0x05` holds a byte and is not a list. -/
theorem quiet_byte : Quiet { data := .ofBytes [0x05] } := by
  refine ⟨⟨0, by decide⟩, fun e he => ?_, fun i hi => ?_⟩
  · have hitems : RLP.toList { data := .ofBytes [0x05] } = .ok [] := by decide
    rw [hitems] at he
    cases he
  · have hopens : Opens { data := .ofBytes [0x05] } (window [0x05] 0 1) :=
      ⟨⟨rfl, rfl⟩, by decide +kernel, Or.inr ⟨_, _, _, rfl, by decide, by decide⟩,
        1, by decide +kernel⟩
    have hvs : Splits (window [0x05] 0 1) [window [0x05] 0 1] :=
      .cons (by decide +kernel) Nat.one_ne_zero (.nil rfl)
    obtain ⟨s, hs, -⟩ := hopens.get_split hvs hi
    exact ⟨s, hs⟩

/-- A list of two items is walked alike in all ways. -/
theorem walksAgree_two :
    WalksAgree { data := .ofBytes [0xc2, 0x05, 0x06] } := by
  have hpayload : RLP.payload { data := .ofBytes [0xc2, 0x05, 0x06] } =
      .ok (window [0xc2, 0x05, 0x06] 1 2) := by decide +kernel
  have hopens : Opens { data := .ofBytes [0xc2, 0x05, 0x06] }
      (window [0xc2, 0x05, 0x06] 1 2) :=
    ⟨⟨rfl, rfl⟩, hpayload, Or.inr ⟨_, _, _, rfl, by decide, by decide⟩,
      1, by decide +kernel⟩
  have hfirst : sizeAsEncoded (window [0xc2, 0x05, 0x06] 1 2) = .ok 1 := by
    decide +kernel
  have hsecond : sizeAsEncoded ((window [0xc2, 0x05, 0x06] 1 2).croppedFrom 1) =
      .ok 1 := by decide +kernel
  have hvs : Splits (window [0xc2, 0x05, 0x06] 1 2) _ :=
    .cons hfirst Nat.one_ne_zero (.cons hsecond Nat.one_ne_zero (.nil rfl))
  have hquiet : Quiet { data := .ofBytes [0xc2, 0x05, 0x06] } := by
    refine ⟨⟨2, by decide +kernel⟩, fun e he => ?_, fun i hi => ?_⟩
    · have hitems : (RLP.toList { data := .ofBytes [0xc2, 0x05, 0x06] }).isOk :=
        by decide +kernel
      rw [he] at hitems
      cases hitems
    · obtain ⟨s, hs, -⟩ := hopens.get_split hvs hi
      exact ⟨s, hs⟩
  refine (walksAgree_iff (show Strictness.Strict .veryStrict from ⟨rfl, rfl⟩)
    (b := [0xc2, 0x05, 0x06]) (by decide +kernel)
    hquiet).mpr fun p hp => ?_
  obtain rfl := Except.ok.inj (hp.symm.trans hpayload)
  rw [if_pos (by decide)]
  decide

/-- Indexed access takes the byte of the item for an item of a list. -/
theorem not_walksAgree :
    ∃ b r, ofRef (.ofBytes b) .veryStrict = .ok r ∧ Quiet r ∧
      ¬ WalksAgree r := by
  refine ⟨[0x05], { data := .ofBytes [0x05] }, by decide +kernel, quiet_byte,
    ?_⟩
  rintro ⟨items, hitems, -, hget⟩
  obtain ⟨s, hs, hnull⟩ := hget 0 (Nat.zero_le _)
  have hfirst : RLP.get { data := .ofBytes [0x05] } 0 =
      .ok { data := window [0x05] 0 1 } := by decide +kernel
  obtain rfl := Except.ok.inj (hs.symm.trans hfirst)
  rw [dif_neg fun hboth => absurd hboth.1 (by decide)] at hnull
  exact absurd hnull (by decide)

end RLP

end Web3Core
