/-
What the reader makes of a frame.  An item is found at the front of a buffer
whatever follows it, and a part of an item is not an item; so a frame of whole
packets gives these, and a packet that was split is whole only with its last
part.
-/
import Web3Core.RLPXFrameReader
import Web3Core.RLPXRounds

namespace Web3Core

namespace Head

variable {b : Bytes} {isList : Bool} {offset l : Nat}

/-- What follows an item does not change how it begins. -/
theorem append (h : Head b isList offset l) (rest : Bytes) :
    Head (b ++ rest) isList offset l := by
  cases h with
  | byte rest' hx => exact .byte (rest' ++ rest) hx
  | data rest' hl hgood =>
      rw [List.append_assoc]
      refine .data (rest' ++ rest) hl fun hone => ?_
      obtain ⟨x, rest'', rfl, hx⟩ := hgood hone
      exact ⟨x, rest'' ++ rest, rfl, hx⟩
  | list rest' hl =>
      rw [List.append_assoc]
      exact .list (rest' ++ rest) hl

end Head

namespace RLPXPacket

variable {b rest : Bytes}

/-- An item that is not empty has a head that tells its size. -/
theorem exists_head_of_isWhole (h : isWhole b = true) (hne : b ≠ []) :
    ∃ isList offset l, Head b isList offset l ∧ b.length = offset + l := by
  have hcount : (BytesConstRef.ofBytes b).count ≠ 0 := by
    simpa [BytesConstRef.ofBytes] using hne
  obtain ⟨isList, offset, l, hhead, hsize⟩ := RLP.exists_head_of_actualSize
    (r := { data := .ofBytes b }) (BytesConstRef.valid_ofBytes b) hcount
    (isWhole_iff.1 h).2
  rw [BytesConstRef.toBytes_ofBytes] at hhead
  exact ⟨isList, offset, l, hhead, hsize⟩

/-- An item is found at the front of a buffer. -/
theorem nextRLP_append (h : isWhole b = true) (hne : b ≠ []) (rest : Bytes) :
    nextRLP (b ++ rest) = b := by
  obtain ⟨isList, offset, l, hhead, hlength⟩ := exists_head_of_isWhole h hne
  have hsize : RLP.actualSize { data := .ofBytes (b ++ rest) } =
      .ok b.length := by
    have hhead' : Head (BytesConstRef.ofBytes (b ++ rest)).toBytes isList offset
        l := by
      rw [BytesConstRef.toBytes_ofBytes]
      exact hhead.append rest
    rw [hlength]
    exact RLP.actualSize_of_head (BytesConstRef.valid_ofBytes _) hhead'
  have hread : RLP.ofRef (.ofBytes (b ++ rest)) { allowNonCanon := true } =
      .ok { data := .ofBytes (b ++ rest) } :=
    RLP.ofRef_of_size hsize (fun h => by cases h) (fun h => by cases h)
  have hmin : min b.length (b ++ rest).length = b.length := by simp
  simp only [nextRLP, hread, ok_bind, hsize, hmin, List.take_left]

theorem nextRLP_eq (h : isWhole b = true) (hne : b ≠ []) : nextRLP b = b := by
  simpa using nextRLP_append h hne []

/-- A part of an item is not an item. -/
theorem isWhole_take {n : Nat} (h : isWhole b = true) (hpos : 0 < n)
    (hlt : n < b.length) : isWhole (b.take n) = false := by
  rw [Bool.eq_false_iff]
  intro hpart
  have hne : b ≠ [] := List.ne_nil_of_length_pos (hpos.trans hlt)
  have hne' : b.take n ≠ [] := by
    refine List.ne_nil_of_length_pos ?_
    rw [List.length_take]
    omega
  have hfront := nextRLP_append hpart hne' (b.drop n)
  rw [List.take_append_drop, nextRLP_eq h hne] at hfront
  have hlength := congrArg List.length hfront
  rw [List.length_take] at hlength
  omega

theorem isValid_iff {p : RLPXPacket} (hne : p.type ≠ []) :
    p.isValid = true ↔ isWhole p.type = true ∧ isWhole p.data = true := by
  simp [isValid, hne]

/-- A packet of a protocol that carries something. -/
structure Carried (capId : UInt8) (p : RLPXPacket) : Prop where
  sendable : p.Sendable
  cap : p.cap = capId
  data_ne : p.data ≠ []

variable {capId : UInt8} {p : RLPXPacket}

theorem Carried.type_ne (h : p.Carried capId) : p.type ≠ [] :=
  List.ne_nil_of_length_pos h.sendable.type_pos

theorem Carried.isWhole_type (h : p.Carried capId) : isWhole p.type = true :=
  ((isValid_iff h.type_ne).1 h.sendable.valid).1

theorem Carried.isWhole_data (h : p.Carried capId) : isWhole p.data = true :=
  ((isValid_iff h.type_ne).1 h.sendable.valid).2

/-- A packet that is made from its type and then given data. -/
theorem Carried.ofBytes_append (h : p.Carried capId) {b : Bytes} :
    ((ofBytes capId p.type).append b).2 = ⟨p.cap, p.type, b⟩ := by
  rw [ofBytes, nextRLP_eq h.isWhole_type h.type_ne, if_neg (lt_irrefl _),
    append, h.cap]
  rfl

end RLPXPacket

namespace RLPXFrameReader

open RLPXPacket

variable {r : RLPXFrameReader} {info : RLPXFrameInfo}

theorem packets_nil (fuel : Nat) (ret : List RLPXPacket) :
    packets info (fuel + 1) [] ret r = (.ok ret, r) := by
  rw [packets, List.isEmpty_nil, if_pos rfl]

/-- A frame of whole packets gives these packets. -/
theorem packets_wires (hmulti : info.multiFrame = false) :
    ∀ {ps ret : List RLPXPacket} {fuel : Nat}, (wires ps).length < fuel →
      (∀ p ∈ ps, p.Carried r.protocolType.toUInt8) →
      packets info fuel (wires ps) ret r = (.ok (ret ++ ps), r) := by
  intro ps
  induction ps with
  | nil =>
      intro ret fuel hfuel _
      obtain ⟨fuel, rfl⟩ : ∃ n, fuel = n + 1 := ⟨fuel - 1, by omega⟩
      rw [wires, List.flatMap_nil, packets_nil, List.append_nil]
  | cons p ps ih =>
      intro ret fuel hfuel hps
      obtain ⟨fuel, rfl⟩ : ∃ n, fuel = n + 1 := ⟨fuel - 1, by omega⟩
      have hp := hps p List.mem_cons_self
      have htype := hp.type_ne
      have hdata := hp.data_ne
      have hwires : wires (p :: ps) = p.type ++ (p.data ++ wires ps) := by
        rw [wires, List.flatMap_cons, wire, List.append_assoc, wires]
      have hnext : nextRLP (p.type ++ (p.data ++ wires ps)) = p.type :=
        nextRLP_append hp.isWhole_type htype _
      have hnext' : nextRLP (p.data ++ wires ps) = p.data :=
        nextRLP_append hp.isWhole_data hdata _
      have hlength : (wires ps).length < fuel := by
        have hpos := hp.sendable.type_pos
        rw [hwires, List.length_append, List.length_append] at hfuel
        omega
      have hrest := @ih (ret ++ [p]) fuel hlength
        fun p' hp' => hps p' (List.mem_cons_of_mem p hp')
      rw [packets, hwires]
      simp only [hnext, List.drop_left, hmulti, Bool.false_eq_true, ↓reduceIte,
        hnext', hp.ofBytes_append, hp.sendable.valid, List.isEmpty_iff,
        List.append_eq_nil_iff, htype, hdata, false_and]
      rw [hrest, List.append_assoc]
      rfl

/-- The first part of a packet that was split is kept. -/
theorem packets_first {p : RLPXPacket} {n fuel : Nat} {remaining : UInt32}
    (hmulti : info.multiFrame = true) (hp : p.Carried r.protocolType.toUInt8)
    (htype : p.type.length < n) (hn : n < p.size)
    (hremaining : UInt32.ofNat (subSize (subSize info.totalLength p.type.length)
      (n - p.type.length)) = remaining) (hne : remaining ≠ 0) :
    packets info (fuel + 2) (p.wire.take n) [] r =
      (.ok [], r.insertIncomplete info.sequenceId
        ⟨p.cap, p.type, p.data.take (n - p.type.length)⟩ remaining) := by
  have hsize := hp.sendable.size_eq
  have htake : p.wire.take n = p.type ++ p.data.take (n - p.type.length) := by
    rw [wire, List.take_append, List.take_of_length_le htype.le]
  have hnext : nextRLP (p.type ++ p.data.take (n - p.type.length)) = p.type :=
    nextRLP_append hp.isWhole_type hp.type_ne _
  have hlength : (p.data.take (n - p.type.length)).length = n - p.type.length := by
    rw [List.length_take]
    omega
  have hinvalid : isWhole (p.data.take (n - p.type.length)) = false :=
    isWhole_take hp.isWhole_data (by omega) (by omega)
  rw [← hlength] at hremaining
  rw [htake]
  generalize p.data.take (n - p.type.length) = part at *
  have hpart : part ≠ [] := List.ne_nil_of_length_pos (by omega)
  have hvalid : RLPXPacket.isValid ⟨p.cap, p.type, part⟩ = false := by
    rw [isValid, hinvalid, Bool.and_false]
  rw [packets]
  simp only [hnext, List.drop_left, hmulti, ↓reduceIte, hp.ofBytes_append,
    hvalid, Bool.false_eq_true, List.isEmpty_iff, List.append_eq_nil_iff,
    hp.type_ne, false_and, hremaining, Bool.true_and, bne_iff_ne, ne_eq,
    not_false_eq_true, hne, hpart, List.drop_length, packets_nil]

/-- A part of a packet is added to what was received of it. -/
theorem continuePacket_part {p : RLPXPacket} {buffer : Bytes}
    {remaining : UInt32} (hle : buffer.length < remaining.toNat) :
    r.continuePacket info buffer p remaining =
      (.ok [], { r with
        incomplete := r.incomplete.insert info.sequenceId
          ({ p with data := p.data ++ buffer },
            remaining - UInt32.ofNat buffer.length) }) := by
  have hne : remaining - UInt32.ofNat buffer.length ≠ 0 := by
    intro hzero
    have hnat := congrArg UInt32.toNat hzero
    rw [toNat_sub_ofNat hle.le, UInt32.toNat_zero] at hnat
    omega
  rw [continuePacket]
  simp only [if_neg hne]
  rfl

/-- The last part of a packet completes it. -/
theorem continuePacket_last {p : RLPXPacket} {buffer : Bytes}
    {remaining : UInt32} (heq : buffer.length = remaining.toNat)
    (hvalid : { p with data := p.data ++ buffer : RLPXPacket }.isValid = true) :
    r.continuePacket info buffer p remaining =
      (.ok [{ p with data := p.data ++ buffer }],
        { r with incomplete := r.incomplete.erase info.sequenceId }) := by
  have hzero : remaining - UInt32.ofNat buffer.length = 0 := by
    rw [heq, UInt32.ofNat_toNat, UInt32.sub_self]
  rw [continuePacket]
  simp only [hzero, ↓reduceIte, append, hvalid]

section Frame

variable {f : RLPXFrame} {tag : Bytes}

/-- Without its padding and its tag, a frame is its payload. -/
theorem buffer_eq (hinfo : info.padding = f.info.padding)
    (htag : tag.length = 16) (hshort : f.payload.length < 2 ^ 63) :
    ((BytesConstRef.ofBytes (f.padded ++ tag)).cropped 0
      (subSize (f.padded ++ tag).length (16 + info.padding))).toBytes =
        f.payload := by
  have hpadding : f.info.padding < 16 := Nat.mod_lt _ (by omega)
  have hlength : (f.padded ++ tag).length =
      f.payload.length + f.info.padding + 16 := by
    rw [List.length_append, f.length_padded, htag]
    rfl
  have hcount : (BytesConstRef.ofBytes (f.padded ++ tag)).count =
      (f.padded ++ tag).length := rfl
  have hsub : subSize (f.padded ++ tag).length (16 + info.padding) =
      f.payload.length := by
    rw [subSize_of_le (by omega) (by omega)]
    omega
  rw [hsub, BytesConstRef.cropped_of_le rfl (by omega)
    (by unfold sizeMax; omega)]
  simp [BytesConstRef.toBytes, BytesConstRef.window, BytesConstRef.ofBytes,
    RLPXFrame.padded, RLPXFrameCoder.pad]

/-- A frame is not refused for its size if it does not say how large its packet
is, or is not larger itself. -/
theorem not_tooLarge (htag : tag.length = 16)
    (hroom : info.totalLength ≠ 0 →
      f.payload.length + f.info.padding + 16 ≤ info.totalLength) :
    (f.padded ++ tag).isEmpty = false ∧
      (info.multiFrame && info.totalLength != 0 &&
        decide ((f.padded ++ tag).length > info.totalLength)) = false := by
  have hlength : (f.padded ++ tag).length =
      f.payload.length + f.info.padding + 16 := by
    rw [List.length_append, f.length_padded, htag]
    rfl
  constructor
  · rw [List.isEmpty_eq_false_iff]
    exact List.ne_nil_of_length_pos (by omega)
  · by_cases hzero : info.totalLength = 0
    · simp [hzero]
    · rw [← hlength] at hroom
      rw [decide_eq_false (Nat.not_lt.2 (hroom hzero)), Bool.and_false]

/-- A frame that does not go on with a packet is taken apart. -/
theorem accept_new (hinfo : info.padding = f.info.padding)
    (htag : tag.length = 16) (hshort : f.payload.length < 2 ^ 63)
    (hroom : info.totalLength ≠ 0 →
      f.payload.length + f.info.padding + 16 ≤ info.totalLength)
    (hnew : info.multiFrame = true →
      r.incomplete.lookup info.sequenceId = none) :
    r.accept info (f.padded ++ tag) =
      packets info (f.payload.length + 1) f.payload [] r := by
  obtain ⟨hempty, hlarge⟩ := not_tooLarge htag hroom
  have hbegun : (if info.multiFrame then r.incomplete.lookup info.sequenceId
      else none) = none := by
    split
    · next hmulti => exact hnew hmulti
    · rfl
  rw [accept, hempty, hlarge]
  simp only [buffer_eq hinfo htag hshort, hbegun, Bool.false_eq_true,
    ↓reduceIte]

/-- A frame goes on with the packet of its number if that lacks as much. -/
theorem accept_begun {p : RLPXPacket} {remaining : UInt32}
    (hinfo : info.padding = f.info.padding) (htag : tag.length = 16)
    (hshort : f.payload.length < 2 ^ 63) (hmulti : info.multiFrame = true)
    (htotal : info.totalLength = 0) (hpos : 0 < f.payload.length)
    (hle : f.payload.length ≤ remaining.toNat)
    (hbegun : r.incomplete.lookup info.sequenceId = some (p, remaining)) :
    r.accept info (f.padded ++ tag) =
      r.continuePacket info f.payload p remaining := by
  obtain ⟨hempty, hlarge⟩ := @not_tooLarge info f tag htag
    fun h => absurd htotal h
  rw [accept, hempty, hlarge]
  simp only [buffer_eq hinfo htag hshort, hmulti, hbegun, htotal, hpos, hle,
    and_self, Bool.false_eq_true, ↓reduceIte]

end Frame

end RLPXFrameReader

end Web3Core
