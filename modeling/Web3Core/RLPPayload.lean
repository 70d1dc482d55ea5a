/-
The view that `payload` returns, for items read with any strictness.  Its check
compares the length with all of the data, the header included; where the data
end before the payload does, by no more than the header takes, the crop goes out
of bounds and a null view is returned.
-/
import Web3Core.RLPDescent

namespace Web3Core

open BytesConstRef (window)

namespace RLP

/-- The payload passes the check of `payload`, but the data end before it
does. -/
def PayloadCut (r : RLP) : Prop :=
  ∃ l, r.length = .ok l ∧ l ≤ r.data.count ∧ r.data.count < r.payloadOffset + l

/-- What `payload` returns is a view of `length` bytes that starts at
`payloadOffset` and lies inside the data. -/
def PayloadInside (r : RLP) : Prop :=
  ∀ p, r.payload = .ok p → ∃ l, r.length = .ok l ∧ p.count = l ∧
    p.data = r.data.data.map (· + r.payloadOffset) ∧ p.Inside r.data

/-- The conversions read nothing outside the data. -/
structure ReadsInside (r : RLP) : Prop where
  toBytes : r.toBytes ≠ .error .outOfRange
  toString : r.toString ≠ .error .outOfRange
  toInt : ∀ size flags, r.toInt size flags ≠ .error .outOfRange
  toHash : ∀ N flags, r.toHash N flags ≠ .error .outOfRange

section Conversions

variable {α : Type} {r : RLP}

theorem Clean.ne_outOfRange {x : Except Exception α} (h : Clean x) :
    x ≠ .error .outOfRange := by
  intro hx
  exact absurd (h _ hx) (by decide)

theorem clean_isInt (hv : r.data.Valid) : Clean r.isInt := by
  unfold isInt
  split
  · exact clean_ok _
  · refine (clean_requireGood hv).bind fun _ _ => ?_
    split
    · exact clean_ok _
    · split
      · exact clean_ok _
      · split
        · split
          · exact clean_error rfl
          · rename_i hcount
            exact (clean_get hv (by omega)).bind fun x _ => clean_ok _
        · split
          · split
            · exact clean_error rfl
            · rename_i hcount
              exact (clean_get hv (by omega)).bind fun x _ => clean_ok _
          · exact clean_ok _

theorem clean_toString (hv : r.data.Valid) : Clean r.toString := by
  unfold RLP.toString
  split
  · exact clean_ok _
  · exact (clean_payload hv).bind fun p _ =>
      (clean_length hv).bind fun l _ => clean_ok _

theorem clean_toInt (hv : r.data.Valid) (size : Nat) (flags : Strictness) :
    Clean (r.toInt size flags) := by
  unfold toInt
  refine (clean_requireGood hv).bind fun _ _ =>
    (clean_isInt hv).bind fun int _ => ?_
  split
  · split
    · exact clean_error rfl
    · exact clean_ok _
  · refine (clean_payload hv).bind fun p _ => ?_
    split
    · split
      · exact clean_error rfl
      · exact clean_ok _
    · exact clean_ok _

theorem clean_toHash (hv : r.data.Valid) (N : Nat) (flags : Strictness) :
    Clean (r.toHash N flags) := by
  unfold toHash
  refine (clean_requireGood hv).bind fun _ _ =>
    (clean_payload hv).bind fun p _ => ?_
  simp only
  split
  · split
    · exact clean_error rfl
    · exact clean_ok _
  · exact clean_ok _

end Conversions

section Payload

variable {r : RLP} {p : BytesConstRef}

/-- What `payload` returns is the view behind the header, if it fits into the
data, or a null view. -/
theorem payload_cases (hv : r.data.Valid) (hne : r.data.count ≠ 0)
    (h : r.payload = .ok p) :
    ∃ l, r.length = .ok l ∧
      ((¬ r.PayloadCut ∧ p.count = l ∧
          p.data = r.data.data.map (· + r.payloadOffset) ∧ p.Inside r.data) ∨
        (r.PayloadCut ∧ 0 < l ∧ p = .null)) := by
  obtain ⟨l, hlength, hpayload⟩ := exists_of_bind h
  have hhead := exists_head hv (toBytes_ne_nil hv hne) hlength
  obtain ⟨a, ha⟩ := exists_address hv hne
  have hle : l ≤ r.data.count := by
    by_contra hgt
    rw [if_pos (not_le.1 hgt)] at hpayload
    cases hpayload
  refine ⟨l, hlength, ?_⟩
  rcases exists_payload_cut hv ha hhead h with ⟨hfit, rfl⟩ | ⟨hcut, hpos, rfl⟩
  · refine Or.inl ⟨?_, rfl, by rw [ha]; rfl, rfl, a, _, ha, rfl,
      Nat.le_add_right _ _, ?_⟩
    · rintro ⟨l', hl', -, hlt⟩
      obtain rfl := Except.ok.inj (hlength.symm.trans hl')
      omega
    · rw [Nat.add_assoc]
      exact Nat.add_le_add_left hfit a
  · exact Or.inr ⟨⟨l, hlength, hle, hcut⟩, hpos, rfl⟩

theorem exists_payload_of_cut (h : r.PayloadCut) : ∃ p, r.payload = .ok p := by
  obtain ⟨l, hlength, hle, -⟩ := h
  rw [payload, hlength, ok_bind, if_neg (not_lt.2 hle)]
  exact ⟨_, rfl⟩

theorem payloadInside_iff (hv : r.data.Valid) (hne : r.data.count ≠ 0) :
    r.PayloadInside ↔ ¬ r.PayloadCut := by
  constructor
  · intro hinside hcut
    obtain ⟨p, hp⟩ := exists_payload_of_cut hcut
    obtain ⟨l, hl, hcount, -⟩ := hinside p hp
    obtain ⟨l', hl', ⟨hnot, -⟩ | ⟨-, hpos, rfl⟩⟩ := payload_cases hv hne hp
    · exact hnot hcut
    · obtain rfl := Except.ok.inj (hl.symm.trans hl')
      exact hpos.ne hcount
  · intro hnot p hp
    obtain ⟨l, hl, ⟨-, hinside⟩ | ⟨hcut, -⟩⟩ := payload_cases hv hne hp
    · exact ⟨l, hl, hinside⟩
    · exact absurd hcut hnot

/-- `toBytes` takes the bytes from the view and their number from `length`. -/
theorem toBytes_outOfRange_iff (hv : r.data.Valid) (hne : r.data.count ≠ 0) :
    r.toBytes = .error .outOfRange ↔ r.PayloadCut ∧ r.isData = true := by
  by_cases hdata : r.isData = true
  · have hbytes : r.toBytes = (do
        let p ← r.payload
        let l ← r.length
        readBytes p l) := by
      rw [RLP.toBytes, hdata]
      rfl
    rw [hbytes]
    cases hp : r.payload with
    | error e =>
        refine iff_of_false (fun h => ?_) fun h => ?_
        · rw [error_bind] at h
          exact (clean_payload hv).ne_outOfRange
            (hp.trans (congrArg _ (Except.error.inj h)))
        · obtain ⟨p, hp'⟩ := exists_payload_of_cut h.1
          cases hp.symm.trans hp'
    | ok p =>
        obtain ⟨l, hl, ⟨hnot, hcount, -⟩ | ⟨hcut, hpos, rfl⟩⟩ :=
          payload_cases hv hne hp
        · rw [ok_bind, hl, ok_bind, readBytes, if_pos hcount.ge]
          exact iff_of_false (fun h => by cases h) fun h => hnot h.1
        · rw [ok_bind, hl, ok_bind, readBytes,
            BytesConstRef.count_null, if_neg (Nat.not_le.2 hpos)]
          exact iff_of_true rfl ⟨hcut, hdata⟩
  · have hbytes : r.toBytes = .ok [] := by
      rw [RLP.toBytes, if_pos (by simpa using hdata)]
    rw [hbytes]
    exact iff_of_false (fun h => by cases h) fun h => hdata h.2

end Payload

section Construction

variable {d d' : BytesConstRef} {flags : Strictness} {r : RLP}

theorem refuseTooBig_cases (h : refuseTooBig d flags = .ok d') :
    d' = d ∨ d' = .null := by
  unfold refuseTooBig at h
  split at h
  · obtain ⟨size, -, h⟩ := exists_of_bind h
    split at h
    · split at h
      · cases h
      · exact Or.inr (Except.ok.inj h).symm
    · exact Or.inl (Except.ok.inj h).symm
  · exact Or.inl (Except.ok.inj h).symm

theorem refuseTooSmall_cases {count : Nat}
    (h : refuseTooSmall d count flags = .ok d') :
    (d' = d ∧ (flags.failIfTooSmall = true →
      ∃ size, RLP.actualSize { data := d } = .ok size ∧ size ≤ count)) ∨
      d' = .null := by
  unfold refuseTooSmall at h
  split at h
  · obtain ⟨size, hsize, h⟩ := exists_of_bind h
    split at h
    · split at h
      · cases h
      · exact Or.inr (Except.ok.inj h).symm
    · rename_i hle
      exact Or.inl ⟨(Except.ok.inj h).symm, fun _ => ⟨size, hsize, by omega⟩⟩
  · rename_i hflag
    exact Or.inl ⟨(Except.ok.inj h).symm, fun h => absurd h hflag⟩

/-- An item that is not null is a view of all that it was constructed from. -/
theorem ofRef_cases (h : ofRef d flags = .ok r) (hne : r.isNull = false) :
    r = { data := d } ∧ (flags.failIfTooSmall = true →
      ∃ size, r.actualSize = .ok size ∧ size ≤ d.count) := by
  obtain ⟨d₁, hbig, h⟩ := exists_of_bind h
  obtain ⟨d₂, hsmall, h⟩ := exists_of_bind h
  obtain rfl := Except.ok.inj h
  rcases refuseTooSmall_cases hsmall with ⟨rfl, hfill⟩ | rfl
  · rcases refuseTooBig_cases hbig with rfl | rfl
    · exact ⟨rfl, hfill⟩
    · cases hne
  · cases hne

/-- A construction that fails where the data are too small lets no payload
through that is cut. -/
theorem not_payloadCut (hd : d.Valid) (hflag : flags.failIfTooSmall = true)
    (h : ofRef d flags = .ok r) (hne : r.isNull = false) : ¬ r.PayloadCut := by
  obtain ⟨rfl, hfill⟩ := ofRef_cases h hne
  obtain ⟨size, hsize, hle⟩ := hfill hflag
  have hcount : d.count ≠ 0 := by simpa [isNull] using hne
  obtain ⟨isList, offset, l, hhead, rfl⟩ :=
    exists_head_of_actualSize (r := { data := d }) hd hcount hsize
  obtain ⟨hlength, hoffset, -⟩ := of_head (r := { data := d }) hd hhead
  rintro ⟨l', hl', -, hlt⟩
  obtain rfl := Except.ok.inj (hlength.symm.trans hl')
  rw [hoffset] at hlt
  exact absurd hle (not_le.2 hlt)

/-- **The payload of an item.**  For every strictness, `payload` stays inside
the data and the conversions with it if and only if the payload is not cut off
in the way its check misses; where it is, `toBytes` of data reads from a null
pointer. -/
theorem payload_stays_iff (hd : d.Valid) (h : ofRef d flags = .ok r)
    (hne : r.isNull = false) :
    (r.PayloadInside ∧ r.ReadsInside ↔ ¬ PayloadCut { data := d }) ∧
      (r.toBytes = .error .outOfRange ↔
        PayloadCut { data := d } ∧ r.isData = true) ∧
      (flags.failIfTooSmall = true → ¬ PayloadCut { data := d }) := by
  have hnot := fun hflag => not_payloadCut hd hflag h hne
  obtain ⟨rfl, -⟩ := ofRef_cases h hne
  have hcount : d.count ≠ 0 := by simpa [isNull] using hne
  have hbytes := toBytes_outOfRange_iff (r := { data := d }) hd hcount
  have hinside := payloadInside_iff (r := { data := d }) hd hcount
  refine ⟨⟨fun hsafe => hinside.1 hsafe.1, fun hwhole => ?_⟩, hbytes, hnot⟩
  exact ⟨hinside.2 hwhole, fun hout => hwhole (hbytes.1 hout).1,
    (clean_toString hd).ne_outOfRange,
    fun size flags => (clean_toInt hd size flags).ne_outOfRange,
    fun N flags => (clean_toHash hd N flags).ne_outOfRange⟩

/-- Three bytes of data after their header, and one byte more. -/
theorem payload_stays_whole :
    (PayloadInside { data := .ofBytes [0x83, 1, 2, 3, 4] } ∧
        ReadsInside { data := .ofBytes [0x83, 1, 2, 3, 4] } ↔
      ¬ PayloadCut { data := .ofBytes [0x83, 1, 2, 3, 4] }) ∧
      (RLP.toBytes { data := .ofBytes [0x83, 1, 2, 3, 4] } =
          .error .outOfRange ↔
        PayloadCut { data := .ofBytes [0x83, 1, 2, 3, 4] } ∧
          RLP.isData { data := .ofBytes [0x83, 1, 2, 3, 4] } = true) ∧
      (Strictness.laissezFaire.failIfTooSmall = true →
        ¬ PayloadCut { data := .ofBytes [0x83, 1, 2, 3, 4] }) :=
  payload_stays_iff (BytesConstRef.valid_ofBytes _)
    (show ofRef (.ofBytes [0x83, 1, 2, 3, 4]) .laissezFaire =
      .ok { data := .ofBytes [0x83, 1, 2, 3, 4] } by decide +kernel)
    (by decide +kernel)

/-- Two bytes of data of which one is there. -/
theorem not_payload_stays :
    ofRef (.ofBytes [0x82, 0x61]) .laissezFaire =
        .ok { data := .ofBytes [0x82, 0x61] } ∧
      RLP.isNull { data := .ofBytes [0x82, 0x61] } = false ∧
      ¬ PayloadInside { data := .ofBytes [0x82, 0x61] } ∧
      RLP.toBytes { data := .ofBytes [0x82, 0x61] } = .error .outOfRange := by
  have hlength : RLP.length { data := .ofBytes [0x82, 0x61] } = .ok 2 := by
    decide +kernel
  have hpayload : RLP.payload { data := .ofBytes [0x82, 0x61] } =
      .ok .null := by decide +kernel
  refine ⟨by decide +kernel, by decide +kernel, fun hinside => ?_,
    by decide +kernel⟩
  obtain ⟨l, hl, hcount, -⟩ := hinside _ hpayload
  obtain rfl := Except.ok.inj (hlength.symm.trans hl)
  exact absurd hcount (by decide)

end Construction

end RLP

end Web3Core
