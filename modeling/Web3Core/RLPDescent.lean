/-
The recursive walk over untrusted bytes: construct an item strictly, iterate
over it, and iterate over every item found, down to the leaves.  The walk is
kept as a tree of what it produced, so that where each item lies can be stated
also for a walk that ends in an exception.
-/
import Web3Core.RLPWalk

namespace Web3Core

open BytesConstRef (window)

/-- The exceptions derived from `RLPException` that the reader throws. -/
def Exception.isRLP : Exception → Bool
  | .badCast | .badRLP | .oversizeRLP | .undersizeRLP => true
  | _ => false

/-- The first view lies inside the second one. -/
def BytesConstRef.Inside (q v : BytesConstRef) : Prop :=
  q.mem = v.mem ∧ ∃ a c, v.data = some a ∧ q.data = some c ∧ a ≤ c ∧
    c + q.count ≤ a + v.count

namespace RLP

/-- What an iteration produced: it came to the end, it was left by an
exception, or it produced an item, walked over the item and went on. -/
inductive Walk where
  | done
  | threw (e : Exception)
  | item (r : RLP) (inside rest : Walk)

/-- The exception that left an iteration. -/
def Walk.exception : Walk → Option Exception
  | .done => none
  | .threw e => some e
  | .item _ _ rest => rest.exception

/-- The loop `for (auto item: parent)` from an iterator on, with the walk over
each item as its body. -/
def walkFrom : Nat → RLP → Iterator → Walk
  | 0, _, _ => .threw .outOfFuel
  | fuel + 1, parent, it =>
      if it.currentItem.same (Iterator.finish parent).currentItem then .done
      else
        match it.item with
        | .error e => .threw e
        | .ok r =>
            let inside : Walk :=
              match Iterator.start r with
              | .error e => .threw e
              | .ok first => walkFrom fuel r first
            match inside.exception with
            | some e => .item r inside (.threw e)
            | none =>
                match it.next with
                | .error e => .item r inside (.threw e)
                | .ok it' => .item r inside (walkFrom fuel parent it')

/-- The walk over an item. -/
def walk (fuel : Nat) (r : RLP) : Walk :=
  match Iterator.start r with
  | .error e => .threw e
  | .ok first => walkFrom fuel r first

/-- The walk over a byte string. -/
def walkBytes (flags : Strictness) (fuel : Nat) (b : Bytes) : Walk :=
  match ofRef (.ofBytes b) flags with
  | .error e => .threw e
  | .ok r => walk fuel r

/-- A walk over what is left of a payload: every item is not empty and lies at
the beginning of what is left, a walk that came to the end has left nothing,
and the walk over an item is one over its payload, which lies inside it. -/
def Tiles : Walk → BytesConstRef → Prop
  | .done, p => p.count = 0
  | .threw e, _ => e.isRLP = true
  | .item r inside rest, p =>
      (∃ size, 0 < size ∧ size ≤ p.count ∧ r = { data := p.cropped 0 size } ∧
        r.data.Inside p ∧ Tiles rest (p.croppedFrom size)) ∧
      if r.isList then
        ∃ q, r.payload = .ok q ∧ q.Inside r.data ∧ Tiles inside q
      else inside = .done

/-- A walk over a byte string that ended: in an exception of the construction
or of the payload, or with the items of the payload. -/
def Safe (flags : Strictness) (b : Bytes) (w : Walk) : Prop :=
  (∃ e, e.isRLP = true ∧ w = .threw e) ∨
    ∃ r, ofRef (.ofBytes b) flags = .ok r ∧
      if r.isList then
        ∃ q, r.payload = .ok q ∧ q.Inside r.data ∧ Tiles w q
      else w = .done

section Exceptions

variable {α β : Type}

/-- A computation that ends in a result or in an exception of the reader. -/
def Clean (x : Except Exception α) : Prop := ∀ e, x = .error e → e.isRLP = true

theorem clean_ok (a : α) : Clean (.ok a) := fun e he => by cases he

theorem clean_error {e : Exception} (he : e.isRLP = true) :
    Clean (.error e : Except Exception α) := fun f hf => by
  cases hf
  exact he

theorem Clean.bind {x : Except Exception α} {f : α → Except Exception β}
    (hx : Clean x) (hf : ∀ a, x = .ok a → Clean (f a)) : Clean (x >>= f) := by
  cases x with
  | error e => exact fun e' he' => hx e' (by simpa using he')
  | ok a => exact hf a rfl

theorem clean_get {v : BytesConstRef} (hv : v.Valid) {i : Nat}
    (hi : i < v.count) : Clean (v.get i) := by
  have hlt : i < v.toBytes.length := by
    rw [BytesConstRef.length_toBytes hv]
    exact hi
  rw [BytesConstRef.get_eq hv (List.getElem?_eq_getElem hlt)]
  exact clean_ok _

variable {r : RLP}

theorem clean_requireGood (hv : r.data.Valid) : Clean r.requireGood := by
  unfold requireGood
  split
  · exact clean_error rfl
  · split
    · exact clean_ok _
    · split
      · exact clean_error rfl
      · rename_i hcount
        refine (clean_get hv (by omega)).bind fun x _ => ?_
        split
        · exact clean_error rfl
        · exact clean_ok _

theorem clean_readLength (hv : r.data.Valid) {k : Nat}
    (hk : k < r.data.count) : Clean (readLength r k) := by
  have hpre : ∀ j ≤ k, Clean (readLength r j) := by
    intro j hj
    induction j with
    | zero => exact clean_ok _
    | succ j ih =>
        have hread := ih (by omega)
        unfold readLength at hread ⊢
        rw [List.range_succ, List.foldlM_append]
        refine hread.bind fun n _ => ?_
        simp only [List.foldlM_cons, List.foldlM_nil]
        exact ((clean_get hv (by omega)).bind fun x _ => clean_ok _).bind
          fun m _ => clean_ok m
  exact hpre k le_rfl

theorem clean_indirectLength (hv : r.data.Valid) {k least : Nat} (hk : 0 < k) :
    Clean (r.indirectLength k least) := by
  unfold indirectLength
  split
  · exact clean_error rfl
  · rename_i hcount
    refine (clean_get hv (by omega)).bind fun x _ => ?_
    split
    · exact clean_error rfl
    · split
      · exact clean_error rfl
      · refine (clean_readLength hv (by omega)).bind fun n _ => ?_
        split
        · exact clean_error rfl
        · split
          · exact clean_error rfl
          · exact clean_ok _

theorem clean_length (hv : r.data.Valid) : Clean r.length := by
  unfold length
  split
  · exact clean_ok _
  · refine (clean_requireGood hv).bind fun _ _ => ?_
    split
    · exact clean_ok _
    · split
      · exact clean_ok _
      · rename_i n _ _ hdata
        split
        · exact clean_indirectLength hv (by omega)
        · split
          · exact clean_ok _
          · rename_i hlist
            exact clean_indirectLength hv (by omega)

theorem clean_payload (hv : r.data.Valid) : Clean r.payload := by
  unfold payload
  refine (clean_length hv).bind fun l _ => ?_
  split
  · exact clean_error rfl
  · exact clean_ok _

theorem clean_actualSize (hv : r.data.Valid) : Clean r.actualSize := by
  unfold actualSize
  split
  · exact clean_ok _
  · split
    · exact clean_ok _
    · split
      · exact (clean_length hv).bind fun l _ => clean_ok _
      · exact clean_ok _

theorem clean_ofRef {d : BytesConstRef} (hv : d.Valid) (s : Strictness) :
    Clean (ofRef d s) := by
  have hbig : Clean (refuseTooBig d s) := by
    unfold refuseTooBig
    split
    · refine (clean_actualSize (r := { data := d }) hv).bind fun size _ => ?_
      split
      · split
        · exact clean_error rfl
        · exact clean_ok _
      · exact clean_ok _
    · exact clean_ok _
  have hkept : ∀ d', refuseTooBig d s = .ok d' → d'.Valid := by
    intro d' hd'
    unfold refuseTooBig at hd'
    split at hd'
    · obtain ⟨size, -, hd'⟩ := exists_of_bind hd'
      split at hd'
      · split at hd'
        · cases hd'
        · cases hd'
          exact BytesConstRef.valid_null
      · cases hd'
        exact hv
    · cases hd'
      exact hv
  refine hbig.bind fun d' hd' => ?_
  have hsmall : Clean (refuseTooSmall d' d.count s) := by
    unfold refuseTooSmall
    split
    · refine (clean_actualSize (r := { data := d' }) (hkept d' hd')).bind
        fun size _ => ?_
      split
      · split
        · exact clean_error rfl
        · exact clean_ok _
      · exact clean_ok _
    · exact clean_ok _
  exact hsmall.bind fun d'' _ => clean_ok _

theorem clean_sizeAsEncoded {d : BytesConstRef} (hv : d.Valid) :
    Clean (sizeAsEncoded d) := by
  refine (clean_ofRef hv .throwIfTooSmall).bind fun r hr => ?_
  obtain ⟨rfl, -, -⟩ := ofRef_strict rfl hr
  exact clean_actualSize hv

end Exceptions

section Descent

theorem Tiles.exception {w : Walk} {p : BytesConstRef} (h : Tiles w p)
    {e : Exception} (he : w.exception = some e) : e.isRLP = true := by
  induction w generalizing p with
  | done => cases he
  | threw f =>
      cases he
      exact h
  | item r inside rest _ ih =>
      obtain ⟨⟨size, -, -, -, -, hrest⟩, -⟩ := h
      exact ih hrest he

theorem next_error {mem : Bytes} {q c n : Nat} {e : Exception}
    (h : sizeAsEncoded (window mem (q + c) n) = .error e) :
    Iterator.next ⟨n, window mem q c⟩ = .error e := by
  have hn : n ≠ 0 := by
    rintro rfl
    cases h
  have hfollow : (window mem q c).following n = window mem (q + c) n := rfl
  simp only [Iterator.next, ne_eq, hn, not_false_eq_true, ↓reduceIte, hfollow, h,
    error_bind]

variable {mem : Bytes} {q n c : Nat}

/-- The payload of a list that has exactly the size its beginning says. -/
theorem exists_payload_filled (hend : q + c ≤ mem.length)
    (hlist : RLP.isList { data := window mem q c } = true)
    (hsize : RLP.actualSize { data := window mem q c } = .ok c) :
    ∃ offset l, 0 < offset ∧ offset + l = c ∧ c < sizeMax ∧
      RLP.payload { data := window mem q c } =
        .ok (window mem (q + offset) l) := by
  have hv : (window mem q c).Valid := hend
  have hne : c ≠ 0 := by
    rintro rfl
    cases hlist
  obtain ⟨isList, offset, l, hhead, hsum⟩ :=
    exists_head_of_actualSize (r := { data := window mem q c }) hv hne hsize
  obtain ⟨hlength, hoffset, hkind, -⟩ := of_head hv hhead
  rw [hlist] at hkind
  obtain rfl := hkind
  obtain ⟨-, hmax, -⟩ := head_bounds hhead
  refine ⟨offset, l, offset_pos hhead, hsum.symm, by omega, ?_⟩
  have hbound : offset + l ≤ (window mem q c).count := hsum.ge
  have hle : ¬ l > (window mem q c).count := by omega
  rw [payload, hlength, ok_bind, if_neg hle, hoffset,
    BytesConstRef.cropped_of_le rfl hbound (by omega)]
  rfl

theorem inside_window {a k : Nat} (hle : q ≤ a) (hend : a + k ≤ q + n) :
    (window mem a k).Inside (window mem q n) :=
  ⟨rfl, q, a, rfl, rfl, hle, hend⟩

/-- `walkFrom` with so much fuel walks over every payload of fewer bytes. -/
def WalksOver (fuel : Nat) : Prop :=
  ∀ {parent : RLP} {mem : Bytes} {q n c : Nat}, Lies mem q (c + n) →
    (Iterator.finish parent).currentItem = window mem (q + (c + n)) 0 →
    sizeAsEncoded (window mem q (c + n)) = .ok c → c + n < fuel →
    Tiles (walkFrom fuel parent ⟨n, window mem q c⟩) (window mem q (c + n))

theorem finish_window :
    (Iterator.finish { data := window mem q c }).currentItem =
      window mem (q + c) 0 := by
  rw [Iterator.finish, BytesConstRef.croppedFrom_of_le rfl le_rfl]
  simp [window]

/-- The walk over a payload from its first item on. -/
theorem WalksOver.walk {fuel : Nat} (hwalk : WalksOver fuel) {r : RLP}
    (hlist : r.isList = true) (hpayload : r.payload = .ok (window mem q n))
    (hlast : (Iterator.finish r).currentItem = window mem (q + n) 0)
    (h : Lies mem q n) (hfuel : n < fuel) :
    (∃ e, e.isRLP = true ∧ walk fuel r = .threw e) ∨
      Tiles (walk fuel r) (window mem q n) := by
  cases hsize : sizeAsEncoded (window mem q n) with
  | error e =>
      refine Or.inl ⟨e, clean_sizeAsEncoded (show (window mem q n).Valid from h.le) e hsize, ?_⟩
      rw [RLP.walk, Iterator.start, if_pos hlist, hpayload, ok_bind, hsize]
      rfl
  | ok c =>
      obtain ⟨hstart, hle⟩ := start_window hlist hpayload h hsize
      obtain ⟨m, rfl⟩ := Nat.exists_eq_add_of_le hle
      rw [Nat.add_sub_cancel_left] at hstart
      rw [RLP.walk, hstart]
      exact Or.inr (hwalk h hlast hsize hfuel)

theorem walk_leaf {fuel : Nat} {r : RLP} (hlist : r.isList = false) :
    walk (fuel + 1) r = .done := by
  have hstart : Iterator.start r = .ok (Iterator.finish r) := by
    rw [Iterator.start, hlist]
    rfl
  rw [walk, hstart]
  simp [walkFrom, BytesConstRef.same]

/-- The walk over an item that an iteration produced. -/
theorem WalksOver.inside {fuel : Nat} (hwalk : WalksOver fuel)
    (hend : q + c ≤ mem.length)
    (hsize : RLP.actualSize { data := window mem q c } = .ok c)
    (hfuel : c ≤ fuel) (hpos : 0 < c) {r : RLP}
    (hr : r = { data := window mem q c }) :
    if r.isList then
      ∃ p, r.payload = .ok p ∧ p.Inside r.data ∧ Tiles (RLP.walk fuel r) p
    else RLP.walk fuel r = .done := by
  split
  · rename_i hlist
    rw [hr] at hlist
    obtain ⟨offset, l, hpos, hsum, hmax, hpayload⟩ :=
      exists_payload_filled hend hlist hsize
    have hlies : Lies mem (q + offset) l := ⟨by omega, by omega⟩
    have hlast : (Iterator.finish r).currentItem =
        window mem (q + offset + l) 0 := by
      rw [hr, finish_window, Nat.add_assoc, hsum]
    rw [← hr] at hlist hpayload
    refine ⟨_, hpayload, hr ▸ inside_window (by omega) (by omega), ?_⟩
    rcases hwalk.walk hlist hpayload hlast hlies (by omega) with
      ⟨e, he, hthrew⟩ | htiles
    · rw [hthrew]
      exact he
    · exact htiles
  · rename_i hlist
    obtain ⟨fuel, rfl⟩ : ∃ m, fuel = m + 1 := ⟨fuel - 1, by omega⟩
    exact walk_leaf (by simpa using hlist)

/-- A round of the loop that produces an item. -/
theorem walkFrom_item {fuel : Nat} {parent r : RLP} {it : Iterator}
    (hsame : it.currentItem.same (Iterator.finish parent).currentItem ≠ true)
    (hitem : it.item = .ok r) :
    walkFrom (fuel + 1) parent it = .item r (walk fuel r)
      (match (walk fuel r).exception with
        | some e => .threw e
        | none =>
            match it.next with
            | .error e => .threw e
            | .ok it' => walkFrom fuel parent it') := by
  rw [walkFrom, if_neg hsame, hitem, walk]
  simp only
  split
  · rfl
  · split <;> rfl

theorem isRLP_of_inside {r : RLP} {w : Walk}
    (h : if r.isList then ∃ p, r.payload = .ok p ∧ p.Inside r.data ∧ Tiles w p
      else w = .done) {e : Exception} (he : w.exception = some e) :
    e.isRLP = true := by
  split at h
  · obtain ⟨p, -, -, htiles⟩ := h
    exact htiles.exception he
  · rw [h] at he
    cases he

/-- The walk over what is left of a payload; the fuel bounds the items that
follow one another and the depth at once, since either leaves fewer bytes. -/
theorem walksOver (fuel : Nat) : WalksOver fuel := by
  induction fuel with
  | zero => exact fun _ _ _ hfuel => absurd hfuel (Nat.not_lt_zero _)
  | succ fuel ih =>
      intro parent mem q n c h hlast hfirst hfuel
      have hfront := h.sound.front hfirst
      by_cases hc : c = 0
      · have hn : c + n = 0 := hfront.zero.1 hc
        obtain ⟨rfl, rfl⟩ : c = 0 ∧ n = 0 := by omega
        have hsame : (window mem q 0).same
            (Iterator.finish parent).currentItem = true := by
          rw [hlast]
          simp [BytesConstRef.same, window]
        rw [walkFrom, if_pos hsame]
        exact hn
      · have hle := h.le
        have hlt := h.lt
        have hsame : (window mem q c).same
            (Iterator.finish parent).currentItem ≠ true := by
          rw [hlast]
          simp [BytesConstRef.same, window, hc]
        obtain ⟨-, -, hcrop⟩ := cut_front hle (by omega) hfirst
        have hsize := hfront.actualSize
        rw [hcrop] at hsize
        have hitem : Iterator.item ⟨n, window mem q c⟩ =
            .ok { data := window mem q c } := by
          have := hfront.ofRef .veryStrict
          rwa [hcrop] at this
        have hrest : (window mem q (c + n)).croppedFrom c =
            window mem (q + c) n := by
          rw [BytesConstRef.croppedFrom_of_le rfl (Nat.le_add_right c n)]
          simp [window]
        have hinside := WalksOver.inside ih (by omega) hsize (by omega)
          (Nat.pos_of_ne_zero hc) rfl
        rw [walkFrom_item hsame hitem]
        refine ⟨⟨c, Nat.pos_of_ne_zero hc, Nat.le_add_right c n, by rw [hcrop],
          inside_window le_rfl (by omega), ?_⟩, hinside⟩
        rw [hrest]
        cases hexception :
            (walk fuel { data := window mem q c }).exception with
        | some e => exact isRLP_of_inside hinside hexception
        | none =>
            cases hnext : sizeAsEncoded (window mem (q + c) n) with
            | error e =>
                have hv : (window mem (q + c) n).Valid := by
                  simp only [BytesConstRef.Valid, window]
                  omega
                rw [next_error hnext]
                exact clean_sizeAsEncoded hv e hnext
            | ok c' =>
                obtain ⟨hit, hle'⟩ := next_eq (by omega) hnext
                obtain ⟨m, rfl⟩ := Nat.exists_eq_add_of_le hle'
                rw [hit, Nat.add_sub_cancel_left]
                refine ih ⟨by omega, by omega⟩ ?_ hnext (by omega)
                rw [hlast]
                congr 1
                omega

end Descent

/-- The walk over a byte string ends, and ends safely. -/
def WalksSafely (flags : Strictness) (b : Bytes) : Prop :=
  ∃ n, ∀ fuel, n ≤ fuel → Safe flags b (walkBytes flags fuel b)

section Root

variable {flags : Strictness} {b : Bytes} {r : RLP}

/-- The iterator of a list whose payload is a null view never comes to the
end. -/
theorem not_safe_of_null (hflags : flags.Strict)
    (h : ofRef (.ofBytes b) flags = .ok r) (hlist : r.isList = true)
    (hpayload : r.payload = .ok .null) (fuel : Nat) :
    ¬ Safe flags b (walkBytes flags fuel b) := by
  have hwalk : walkBytes flags fuel b = walkFrom fuel r ⟨0, .null⟩ := by
    rw [walkBytes, h]
    simp only [walk, start_null hlist hpayload]
  rw [hwalk]
  rintro (⟨e, he, hthrew⟩ | ⟨r', hr', hsafe⟩)
  · cases fuel with
    | zero =>
        cases hthrew
        cases he
    | succ fuel =>
        have hsame : BytesConstRef.null.same
            (Iterator.finish r).currentItem ≠ true := by
          obtain ⟨rfl, -, -⟩ := ofRef_strict hflags.1 h
          simp [BytesConstRef.same, BytesConstRef.null, Iterator.finish,
            BytesConstRef.croppedFrom, BytesConstRef.ofBytes]
        have hitem : Iterator.item ⟨0, .null⟩ = .ok .null := rfl
        rw [walkFrom_item hsame hitem] at hthrew
        cases hthrew
  · obtain rfl := Except.ok.inj (h.symm.trans hr')
    rw [if_pos hlist, hpayload] at hsafe
    obtain ⟨q, hq, ⟨-, a, c, -, hdata, -⟩, -⟩ := hsafe
    obtain rfl := Except.ok.inj hq
    cases hdata

theorem walksSafely_of_payload (hflags : flags.Strict)
    (hcond : ∀ r, ofRef (.ofBytes b) flags = .ok r → r.isList = true →
      r.payload ≠ .ok .null) : WalksSafely flags b := by
  refine ⟨b.length + 1, fun fuel hfuel => ?_⟩
  have hv : (BytesConstRef.ofBytes b).Valid := BytesConstRef.valid_ofBytes b
  cases href : ofRef (.ofBytes b) flags with
  | error e =>
      exact Or.inl ⟨e, clean_ofRef hv flags e href, by rw [walkBytes, href]⟩
  | ok r =>
      have hwalk : walkBytes flags fuel b = walk fuel r := by
        rw [walkBytes, href]
      obtain ⟨hr, -, -⟩ := ofRef_strict hflags.1 href
      rw [hwalk]
      by_cases hlist : r.isList = true
      · cases hpayload : r.payload with
        | error e =>
            refine Or.inl ⟨e, clean_payload (hr ▸ hv) e hpayload, ?_⟩
            rw [walk, Iterator.start, if_pos hlist, hpayload]
            rfl
        | ok p =>
            have hne : p ≠ .null := by
              rintro rfl
              exact hcond r href hlist hpayload
            obtain ⟨q, n, rfl, hpos, hsum, hn, hlast⟩ :=
              exists_payload_window hflags href hlist hpayload hne
            have hover : WalksOver fuel := walksOver fuel
            rcases WalksOver.walk hover hlist hpayload hlast ⟨hsum.le, hn⟩
              (by omega) with hthrew | htiles
            · exact Or.inl hthrew
            · refine Or.inr ⟨r, href, ?_⟩
              rw [if_pos hlist]
              refine ⟨_, hpayload, ?_, htiles⟩
              have hdata : r.data = window b 0 b.length := by rw [hr]; rfl
              rw [hdata]
              exact inside_window (Nat.zero_le q) (by omega)
      · obtain ⟨fuel, rfl⟩ := Nat.exists_eq_add_of_lt hfuel
        refine Or.inr ⟨r, href, ?_⟩
        rw [if_neg hlist]
        exact walk_leaf (by simpa using hlist)

/-- A construction that refuses what is too small refuses a list that is cut
off, so the walk over any byte string is safe by default. -/
theorem walksSafely_veryStrict (b : Bytes) : WalksSafely .veryStrict b := by
  refine walksSafely_of_payload ⟨rfl, rfl⟩ fun r h hlist hpayload => ?_
  obtain ⟨rfl, hbig, hsmall⟩ := ofRef_strict rfl h
  obtain ⟨size, hsize, hle⟩ := hbig rfl
  obtain ⟨size', hsize', hge⟩ := hsmall rfl
  obtain rfl := Except.ok.inj (hsize.symm.trans hsize')
  have hcount : size = b.length := Nat.le_antisymm hge hle
  subst hcount
  obtain ⟨offset, l, -, -, -, hfilled⟩ :=
    exists_payload_filled (q := 0) (by simp) hlist hsize
  have hnull := hpayload.symm.trans hfilled
  cases hnull

end Root

/-- **The walk over untrusted bytes.**  Constructed strictly and walked over
down to the leaves, every byte string is read safely in finitely many steps,
if and only if it is not taken for a list with a payload that is cut off,
which a strict construction accepts if it does not also refuse what is too
small. -/
theorem walksSafely_iff {flags : Strictness} (hflags : flags.Strict)
    (b : Bytes) : WalksSafely flags b ↔
      ∀ r, ofRef (.ofBytes b) flags = .ok r → r.isList = true →
        r.payload ≠ .ok .null := by
  refine ⟨?_, walksSafely_of_payload hflags⟩
  rintro ⟨n, hsafe⟩ r h hlist hpayload
  exact not_safe_of_null hflags h hlist hpayload n (hsafe n le_rfl)

/-- A list in a list is walked over safely. -/
theorem walksSafely_nested : WalksSafely .strict [0xc3, 0xc1, 0x05, 0x80] := by
  refine (walksSafely_iff ⟨rfl, rfl⟩ _).mpr fun r hr _ hnull => ?_
  have href : ofRef (.ofBytes [0xc3, 0xc1, 0x05, 0x80]) .strict =
      .ok { data := .ofBytes [0xc3, 0xc1, 0x05, 0x80] } := by decide +kernel
  obtain rfl := Except.ok.inj (hr.symm.trans href)
  exact absurd hnull (by decide +kernel)

/-- The list `0xc2 0x01` lacks its last byte. -/
theorem not_walksSafely :
    ∃ flags : Strictness, flags.Strict ∧ ∃ b, ¬ WalksSafely flags b := by
  refine ⟨.strict, ⟨rfl, rfl⟩, [0xc2, 0x01], fun ⟨n, hsafe⟩ => ?_⟩
  exact not_safe_of_null (r := { data := .ofBytes [0xc2, 0x01] }) ⟨rfl, rfl⟩
    (by decide +kernel) (by decide) (by decide +kernel) n (hsafe n le_rfl)

end RLP

end Web3Core
