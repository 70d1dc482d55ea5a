/-
What a frame is filled with.  A queue whose front packet was begun goes on with
it; one whose front packet is too large begins it under a new number; any other
queue gives as many whole packets as fit.
-/
import Web3Core.RLPXFrameWriter

namespace Web3Core

/-- A difference of 32 bits. -/
theorem toNat_sub_ofNat {m : UInt32} {n : Nat} (hle : n ≤ m.toNat) :
    (m - UInt32.ofNat n).toNat = m.toNat - n := by
  have hlt := m.toNat_lt
  have hsize : UInt32.size = 2 ^ 32 := rfl
  have hn : (UInt32.ofNat n).toNat = n :=
    UInt32.toNat_ofNat_of_lt' (by omega)
  rw [UInt32.toNat_sub_of_le _ _ (UInt32.le_iff_toNat_le.2 (by omega)), hn]

theorem subSize_of_le {a b : Nat} (h : b ≤ a) (ha : a < 2 ^ 64) :
    subSize a b = a - b := by
  rw [subSize]
  omega

namespace RLPXPacket

variable {p : RLPXPacket} {b : Bytes}

/-- A byte string of the size it tells is an item, or there is nothing. -/
theorem isWhole_iff :
    isWhole b = true ↔
      RLP.ofBytes b = .ok { data := .ofBytes b } ∧
        RLP.actualSize { data := .ofBytes b } = .ok b.length := by
  constructor
  · intro h
    cases hr : RLP.ofBytes b with
    | error e => simp [isWhole, hr] at h
    | ok r =>
        obtain ⟨rfl, -, -⟩ := RLP.ofRef_strict rfl hr
        cases hsize : RLP.actualSize { data := .ofBytes b } with
        | error e => simp [isWhole, hr, hsize] at h
        | ok size =>
            have heq : size = b.length := by simpa [isWhole, hr, hsize] using h
            exact ⟨rfl, by rw [heq]⟩
  · rintro ⟨hr, hsize⟩
    simp [isWhole, hr, hsize]

/-- What is whole is shorter than a size of 64 bits. -/
theorem length_lt_of_isWhole (h : isWhole b = true) : b.length < 2 ^ 64 := by
  obtain ⟨-, hsize⟩ := isWhole_iff.1 h
  by_cases hnil : b = []
  · subst hnil
    decide
  · have hcount : (BytesConstRef.ofBytes b).count ≠ 0 := by
      simpa [BytesConstRef.ofBytes] using hnil
    obtain ⟨isList, offset, l, hhead, heq⟩ := RLP.exists_head_of_actualSize
      (r := { data := .ofBytes b }) (BytesConstRef.valid_ofBytes b) hcount hsize
    obtain ⟨-, hmax, -⟩ := RLP.head_bounds hhead
    rw [heq]
    unfold sizeMax at hmax
    omega

theorem size_of_isValid (h : p.isValid = true) :
    p.size = p.type.length + p.data.length := by
  simp only [isValid, Bool.and_eq_true] at h
  obtain ⟨htype, htypeSize⟩ := isWhole_iff.1 h.1.2
  obtain ⟨-, hdataSize⟩ := isWhole_iff.1 h.2
  have hdata : RLP.ofRef (.ofBytes p.data) .laissezFaire =
      .ok { data := .ofBytes p.data } :=
    RLP.ofRef_of_size hdataSize (fun h => by cases h) (fun h => by cases h)
  simp only [size, htype, hdata, ok_bind, htypeSize, hdataSize]

/-- A packet as a queue holds it: its type is the item of a byte. -/
structure Sendable (p : RLPXPacket) : Prop where
  valid : p.isValid = true
  type_pos : 0 < p.type.length
  type_le : p.type.length ≤ 2

/-- A packet as it goes over the wire. -/
def wire (p : RLPXPacket) : Bytes := p.type ++ p.data

def wires (ps : List RLPXPacket) : Bytes := ps.flatMap wire

/-- The last bytes of a packet are the last of its data. -/
theorem drop_wire (p : RLPXPacket) {n : Nat} (hn : n ≤ p.data.length) :
    p.wire.drop (p.wire.length - n) = p.data.drop (p.data.length - n) := by
  have hlength : p.wire.length = p.type.length + p.data.length :=
    List.length_append
  rw [hlength, Nat.add_sub_assoc hn, wire, List.drop_length_add_append]

theorem Sendable.size_eq (h : p.Sendable) :
    p.size = p.type.length + p.data.length := size_of_isValid h.valid

theorem Sendable.length_wire (h : p.Sendable) : p.wire.length = p.size := by
  rw [h.size_eq, wire, List.length_append]

theorem Sendable.data_lt (h : p.Sendable) : p.data.length < 2 ^ 64 := by
  have hvalid := h.valid
  simp only [isValid, Bool.and_eq_true] at hvalid
  exact length_lt_of_isWhole hvalid.2

end RLPXPacket

/-- The item of a byte is one or two bytes. -/
theorem length_encode_byte (n : UInt8) :
    0 < (RLPTree.encode (.int n.toNat)).length ∧
      (RLPTree.encode (.int n.toNat)).length ≤ 2 := by
  have hn := n.toNat_lt
  by_cases hsmall : n.toNat < 0x80
  · by_cases hzero : n.toNat = 0
    · rw [hzero]
      decide
    · rw [RLPTree.encode_int_small hzero hsmall]
      simp
  · have hbr : bytesRequired n.toNat ≤ 1 :=
      (bytesRequired_le_iff n.toNat 1).2 (by omega)
    rw [RLPTree.encode_int_large (Nat.not_lt.1 hsmall) (by omega),
      List.length_cons, length_bigEndian]
    omega

namespace WriterState

/-- A queue of which no packet was begun. -/
def idle (q : List RLPXPacket) (sequence : UInt16) : WriterState :=
  ⟨q, false, 0, false, sequence⟩

/-- A queue whose front was begun; `r` bytes of it are left. -/
def busy (p : RLPXPacket) (rest : List RLPXPacket) (r : Nat)
    (sequence : UInt16) : WriterState :=
  ⟨p :: rest, true, r, true, sequence⟩

/-- What is always true of a queue between two frames. -/
inductive Ok : WriterState → Prop where
  | idle {q : List RLPXPacket} (sequence : UInt16)
      (hq : ∀ p ∈ q, p.Sendable) : Ok (idle q sequence)
  | busy {p : RLPXPacket} {rest : List RLPXPacket} {r : Nat}
      (sequence : UInt16) (hq : ∀ p' ∈ p :: rest, p'.Sendable)
      (hpos : 0 < r) (hlt : r < p.data.length) : Ok (busy p rest r sequence)

theorem Ok.packets {qs : WriterState} (h : qs.Ok) : ∀ p ∈ qs.q, p.Sendable := by
  cases h with
  | idle sequence hq => exact hq
  | busy sequence hq hpos hlt => exact hq

/-- A packet is queued behind those that are there. -/
theorem Ok.push {qs : WriterState} (h : qs.Ok) {p : RLPXPacket}
    (hp : p.Sendable) : { qs with q := qs.q ++ [p] : WriterState }.Ok := by
  cases h with
  | idle sequence hq =>
      refine .idle sequence fun p' hp' => ?_
      rcases List.mem_append.1 hp' with hold | hnew
      · exact hq p' hold
      · exact List.mem_singleton.1 hnew ▸ hp
  | @busy p₀ rest r sequence hq hpos hlt =>
      refine .busy sequence (fun p' hp' => ?_) hpos hlt
      rcases List.mem_append.1 (show p' ∈ (p₀ :: rest) ++ [p] from hp') with
        hold | hnew
      · exact hq p' hold
      · exact List.mem_singleton.1 hnew ▸ hp

namespace Filling

variable {sid sequence : UInt16} {allot offset ret : Nat} {payload : Bytes}

/-- A packet that fits is written as a whole. -/
theorem writePortion_whole {p : RLPXPacket} {rest : List RLPXPacket}
    (hdata : p.data.length < 2 ^ 64) (hallot : allot < 2 ^ 64)
    (hfit : p.data.length ≤ allot) :
    writePortion ⟨⟨p :: rest, true, p.data.length, false, sequence⟩, sid, allot,
        payload, 0, ret⟩ p rest =
      ⟨idle rest sequence, sid, allot - p.data.length, payload ++ p.data, 0,
        ret + 1⟩ := by
  rcases Nat.eq_zero_or_pos p.data.length with hzero | hpos
  · have hnil : p.data = [] := List.length_eq_zero_iff.1 hzero
    simp [writePortion, hnil, idle]
  · have hsub : subSize p.data.length p.data.length = 0 := by
      rw [subSize_of_le le_rfl hdata, Nat.sub_self]
    have hsub' : subSize allot p.data.length = allot - p.data.length :=
      subSize_of_le hfit hallot
    have hcond : allot ≠ 0 ∧ p.data.length ≠ 0 := by omega
    simp only [writePortion, if_pos hcond, hsub, List.drop_zero,
      Nat.min_eq_left hfit, List.take_length, hsub', Nat.sub_self, idle,
      ↓reduceIte]

/-- Of a packet that was begun, as much is written as fits. -/
theorem writePortion_part {p : RLPXPacket} {rest : List RLPXPacket} {r : Nat}
    (hdata : p.data.length < 2 ^ 64) (hallot : allot < 2 ^ 64)
    (hpos : 0 < allot) (hr : allot < r) (hle : r ≤ p.data.length) :
    writePortion ⟨busy p rest r sequence, sid, allot, payload, 0, ret⟩ p rest =
      ⟨busy p rest (r - allot) sequence, sid, 0,
        payload ++ (p.data.drop (p.data.length - r)).take allot,
        p.data.length - r, ret⟩ := by
  have hsub : subSize p.data.length r = p.data.length - r :=
    subSize_of_le hle hdata
  have hlength : ((p.data.drop (p.data.length - r)).take allot).length =
      allot := by
    rw [List.length_take, List.length_drop]
    omega
  have hsub' : subSize allot allot = 0 := by
    rw [subSize_of_le le_rfl hallot, Nat.sub_self]
  have hcond : allot ≠ 0 ∧ r ≠ 0 := by omega
  have hleft : ¬ r - allot = 0 := by omega
  simp only [writePortion, busy, if_pos hcond, hsub, Nat.min_eq_right hr.le,
    hlength, hsub', if_neg hleft]

/-- The rest of a packet is written if it fits. -/
theorem writePortion_last {p : RLPXPacket} {rest : List RLPXPacket} {r : Nat}
    (hdata : p.data.length < 2 ^ 64) (hallot : allot < 2 ^ 64)
    (hpos : 0 < r) (hr : r ≤ allot) (hle : r ≤ p.data.length) :
    writePortion ⟨busy p rest r sequence, sid, allot, payload, 0, ret⟩ p rest =
      ⟨⟨rest, false, 0, true, sequence⟩, sid, allot - r,
        payload ++ p.data.drop (p.data.length - r), p.data.length - r,
        ret + 1⟩ := by
  have hsub : subSize p.data.length r = p.data.length - r :=
    subSize_of_le hle hdata
  have hlength : (p.data.drop (p.data.length - r)).length = r := by
    rw [List.length_drop]
    omega
  have htake : (p.data.drop (p.data.length - r)).take r =
      p.data.drop (p.data.length - r) := List.take_of_length_le hlength.le
  have hsub' : subSize allot r = allot - r := subSize_of_le hr hallot
  have hcond : allot ≠ 0 ∧ r ≠ 0 := by omega
  simp only [writePortion, busy, if_pos hcond, hsub, Nat.min_eq_left hr, htake,
    hlength, hsub', Nat.sub_self, ↓reduceIte]

/-- A packet that fits is taken up. -/
theorem startPacket_whole {p : RLPXPacket} {rest : List RLPXPacket}
    (hp : p.Sendable) (hallot : allot < 2 ^ 64) (hfit : p.size ≤ allot) :
    startPacket ⟨idle (p :: rest) sequence, sid, allot, payload, 0, ret⟩ =
      (⟨⟨p :: rest, true, p.data.length, false, sequence⟩, sid,
        allot - p.type.length, payload ++ p.type, 0, ret⟩, true) := by
  have htype : p.type.length ≤ allot := by
    have := hp.size_eq
    omega
  have hmulti : decide (p.size > allot) = false := decide_eq_false (by omega)
  have hroom : (decide (p.type.length > allot) || false && !payload.isEmpty) =
      false := by simpa using htype
  simp only [startPacket, idle, Bool.false_eq_true, ↓reduceIte, hmulti, hroom,
    subSize_of_le htype hallot]

/-- A packet that does not fit is left where it is if the frame is not empty. -/
theorem startPacket_full {p : RLPXPacket} {rest : List RLPXPacket}
    (hne : payload ≠ []) (hfit : allot < p.size) :
    startPacket ⟨idle (p :: rest) sequence, sid, allot, payload, 0, ret⟩ =
      (⟨idle (p :: rest) sequence, sid, allot, payload, 0, ret⟩, false) := by
  have hmulti : decide (p.size > allot) = true := decide_eq_true hfit
  have hroom : (decide (p.type.length > allot) || true && !payload.isEmpty) =
      true := by simp [hne]
  simp only [startPacket, idle, Bool.false_eq_true, ↓reduceIte, hmulti, hroom]

/-- A packet that does not fit begins an empty frame under a new number. -/
theorem startPacket_first {p : RLPXPacket} {rest : List RLPXPacket}
    (htype : p.type.length ≤ allot) (hallot : allot < 2 ^ 64)
    (hfit : allot < p.size) :
    startPacket ⟨idle (p :: rest) sequence, sid, allot, [], 0, ret⟩ =
      (⟨busy p rest p.data.length (sid + 1), sid + 1,
        allot - p.type.length, p.type, 0, ret⟩, true) := by
  have hmulti : decide (p.size > allot) = true := decide_eq_true hfit
  have hroom : (decide (p.type.length > allot) ||
      true && !([] : Bytes).isEmpty) = false := by simpa using htype
  simp only [startPacket, idle, busy, Bool.false_eq_true, ↓reduceIte, hmulti,
    hroom, subSize_of_le htype hallot, List.nil_append]

/-- A round with a packet that fits. -/
theorem fill_cons {p : RLPXPacket} {rest : List RLPXPacket} {fuel : Nat}
    (hp : p.Sendable) (hallot : allot < 2 ^ 64) (hmin : 16 ≤ allot)
    (hfit : p.size ≤ allot) :
    fill (fuel + 1)
        ⟨idle (p :: rest) sequence, sid, allot, payload, 0, ret⟩ =
      fill fuel ⟨idle rest sequence, sid, allot - p.size, payload ++ p.wire, 0,
        ret + 1⟩ := by
  have hsize := hp.size_eq
  have hwrite := @writePortion_whole sid sequence (allot - p.type.length) ret
    (payload ++ p.type) p rest hp.data_lt (by omega) (by omega)
  have hsub : allot - p.type.length - p.data.length = allot - p.size := by
    omega
  rw [hsub, List.append_assoc, ← RLPXPacket.wire.eq_1] at hwrite
  rw [fill, if_neg (Nat.not_lt.2 hmin)]
  simp only [startPacket_whole hp hallot hfit, hwrite, Bool.not_true,
    Bool.false_eq_true, ↓reduceIte]
  rfl

/-- Whether the packet at the front, if there is one, is left for another
frame: there is no room for a block, or the packet does not fit. -/
def Deferred (q : List RLPXPacket) (allot : Nat) : Prop :=
  ∀ p ∈ q.head?, allot < 16 ∨ allot < p.size

/-- A frame that holds something takes the packets that fit, in order. -/
theorem fill_more {q : List RLPXPacket} (hq : ∀ p ∈ q, p.Sendable) :
    ∀ {fuel allot ret : Nat} {payload : Bytes}, q.length < fuel →
      allot < 2 ^ 64 → payload ≠ [] →
      ∃ k ≤ q.length, (RLPXPacket.wires (q.take k)).length ≤ allot ∧
        Deferred (q.drop k)
          (allot - (RLPXPacket.wires (q.take k)).length) ∧
        fill fuel ⟨idle q sequence, sid, allot, payload, 0, ret⟩ =
          .ok ⟨idle (q.drop k) sequence, sid,
            allot - (RLPXPacket.wires (q.take k)).length,
            payload ++ RLPXPacket.wires (q.take k), 0, ret + k⟩ := by
  induction q with
  | nil =>
      intro fuel allot ret payload hfuel hallot hne
      obtain ⟨fuel, rfl⟩ : ∃ n, fuel = n + 1 := ⟨fuel - 1, by omega⟩
      refine ⟨0, le_rfl, Nat.zero_le _, by simp [Deferred], ?_⟩
      by_cases hmin : allot < 16
      · simp [fill, hmin, RLPXPacket.wires]
      · simp [fill, hmin, startPacket, idle, RLPXPacket.wires]
  | cons p rest ih =>
      intro fuel allot ret payload hfuel hallot hne
      obtain ⟨fuel, rfl⟩ : ∃ n, fuel = n + 1 := ⟨fuel - 1, by omega⟩
      have hp := hq p List.mem_cons_self
      by_cases hmin : allot < 16
      · refine ⟨0, Nat.zero_le _, Nat.zero_le _, fun _ _ => .inl ?_, ?_⟩
        · exact (Nat.sub_le _ _).trans_lt hmin
        · simp [fill, hmin, RLPXPacket.wires]
      · by_cases hfit : p.size ≤ allot
        · obtain ⟨k, hk, hle, hdeferred, heq⟩ := @ih
            (fun p' hp' => hq p' (List.mem_cons_of_mem p hp')) fuel
            (allot - p.size) (ret + 1) (payload ++ p.wire)
            (by simpa using hfuel) (by omega) (by simp [hne])
          have hlength : (RLPXPacket.wires ((p :: rest).take (k + 1))).length =
              p.size + (RLPXPacket.wires (rest.take k)).length := by
            rw [List.take_succ_cons, RLPXPacket.wires, List.flatMap_cons,
              List.length_append, hp.length_wire, RLPXPacket.wires]
          refine ⟨k + 1, by simpa using hk, by omega, ?_, ?_⟩
          · rw [hlength, ← Nat.sub_sub]
            exact hdeferred
          · rw [fill_cons hp hallot (Nat.not_lt.1 hmin) hfit, heq, hlength]
            simp only [List.drop_succ_cons, List.take_succ_cons,
              RLPXPacket.wires, List.flatMap_cons, List.append_assoc,
              Nat.sub_sub, Nat.add_assoc, Nat.add_comm 1 k]
        · have hfit := Nat.not_le.1 hfit
          refine ⟨0, Nat.zero_le _, Nat.zero_le _, fun p' hp' => .inr ?_, ?_⟩
          · cases hp'
            exact (Nat.sub_le _ _).trans_lt hfit
          · rw [fill, if_neg hmin]
            simp only [startPacket_full hne hfit, Bool.not_false,
              ↓reduceIte, List.take_zero, List.drop_zero, RLPXPacket.wires,
              List.flatMap_nil, List.append_nil, List.length_nil, Nat.sub_zero,
              Nat.add_zero]

/-- The packets that fit share a frame. -/
theorem fill_whole {p : RLPXPacket} {rest : List RLPXPacket}
    (hq : ∀ p' ∈ p :: rest, p'.Sendable) (hallot : allot < 2 ^ 64)
    (hmin : 16 ≤ allot) (hfit : p.size ≤ allot) :
    ∃ k, 0 < k ∧ k ≤ (p :: rest).length ∧
      (RLPXPacket.wires ((p :: rest).take k)).length ≤ allot ∧
      Deferred ((p :: rest).drop k)
        (allot - (RLPXPacket.wires ((p :: rest).take k)).length) ∧
      ∃ left, fill ((p :: rest).length + 1)
          ⟨idle (p :: rest) sequence, sid, allot, [], 0, 0⟩ =
        .ok ⟨idle ((p :: rest).drop k) sequence, sid, left,
          RLPXPacket.wires ((p :: rest).take k), 0, k⟩ := by
  have hp := hq p List.mem_cons_self
  have htype := hp.type_pos
  have hne : p.wire ≠ [] := by
    intro hnil
    have hlength := congrArg List.length hnil
    rw [RLPXPacket.wire, List.length_append, List.length_nil] at hlength
    omega
  obtain ⟨k, hk, hle, hdeferred, heq⟩ := @fill_more sid sequence rest
    (fun p' hp' => hq p' (List.mem_cons_of_mem p hp')) (rest.length + 1)
    (allot - p.size) 1 p.wire (Nat.lt_succ_self _) (by omega) hne
  have hwires : RLPXPacket.wires ((p :: rest).take (k + 1)) =
      p.wire ++ RLPXPacket.wires (rest.take k) := rfl
  have hlength : (RLPXPacket.wires ((p :: rest).take (k + 1))).length =
      p.size + (RLPXPacket.wires (rest.take k)).length := by
    rw [hwires, List.length_append, hp.length_wire]
  refine ⟨k + 1, Nat.succ_pos k, Nat.succ_le_succ hk, by omega, ?_,
    allot - p.size - (RLPXPacket.wires (rest.take k)).length, ?_⟩
  · rw [hlength, ← Nat.sub_sub]
    exact hdeferred
  · rw [List.length_cons, fill_cons hp hallot hmin hfit, List.nil_append,
      Nat.zero_add, heq, hwires, Nat.add_comm 1 k]
    rfl

/-- A packet that does not fit fills the frame. -/
theorem fill_first {p : RLPXPacket} {rest : List RLPXPacket} {fuel : Nat}
    (hp : p.Sendable) (hallot : allot < 2 ^ 64) (hmin : 16 ≤ allot)
    (hfit : allot < p.size) :
    fill (fuel + 1) ⟨idle (p :: rest) sequence, sid, allot, [], 0, 0⟩ =
      .ok ⟨busy p rest (p.size - allot) (sid + 1), sid + 1, 0,
        p.wire.take allot, 0, 0⟩ := by
  have hsize := hp.size_eq
  have htype := hp.type_le
  have hwrite := @writePortion_part (sid + 1) (sid + 1)
    (allot - p.type.length) 0 p.type p rest p.data.length hp.data_lt (by omega)
    (by omega) (by omega) le_rfl
  have hleft : p.data.length - (allot - p.type.length) = p.size - allot := by
    omega
  have htake : p.wire.take allot =
      p.type ++ p.data.take (allot - p.type.length) := by
    rw [RLPXPacket.wire, List.take_append, List.take_of_length_le (by omega)]
  rw [Nat.sub_self, List.drop_zero, hleft, ← htake] at hwrite
  rw [fill, if_neg (Nat.not_lt.2 hmin)]
  simp only [startPacket_first (by omega : p.type.length ≤ allot) hallot hfit,
    Bool.not_true, Bool.false_eq_true, ↓reduceIte]
  simp only [busy] at hwrite ⊢
  simp only [hwrite, ↓reduceIte]

/-- A packet that was begun fills the frame if more of it is left. -/
theorem fill_middle {p : RLPXPacket} {rest : List RLPXPacket} {r fuel : Nat}
    (hdata : p.data.length < 2 ^ 64) (hallot : allot < 2 ^ 64)
    (hmin : 16 ≤ allot) (hr : allot < r) (hle : r ≤ p.data.length) :
    fill (fuel + 1) ⟨busy p rest r sequence, sid, allot, [], 0, 0⟩ =
      .ok ⟨busy p rest (r - allot) sequence, sid, 0,
        (p.data.drop (p.data.length - r)).take allot, p.data.length - r, 0⟩ := by
  have hwrite := @writePortion_part sid sequence allot 0 [] p rest r hdata
    hallot (by omega) hr hle
  rw [fill, if_neg (Nat.not_lt.2 hmin)]
  simp only [busy, startPacket, List.nil_append] at hwrite ⊢
  simp only [hwrite, Bool.not_true, Bool.false_eq_true, ↓reduceIte]

/-- The rest of a packet that was begun has a frame of its own. -/
theorem fill_last {p : RLPXPacket} {rest : List RLPXPacket} {r fuel : Nat}
    (hdata : p.data.length < 2 ^ 64) (hallot : allot < 2 ^ 64)
    (hmin : 16 ≤ allot) (hpos : 0 < r) (hr : r ≤ allot)
    (hle : r ≤ p.data.length) :
    fill (fuel + 1) ⟨busy p rest r sequence, sid, allot, [], 0, 0⟩ =
      .ok ⟨⟨rest, false, 0, true, sequence⟩, sid, allot - r,
        p.data.drop (p.data.length - r), p.data.length - r, 1⟩ := by
  have hwrite := @writePortion_last sid sequence allot 0 [] p rest r hdata
    hallot hpos hr hle
  rw [fill, if_neg (Nat.not_lt.2 hmin)]
  simp only [busy, startPacket, List.nil_append] at hwrite ⊢
  simp only [hwrite, Bool.not_true, Bool.false_eq_true, ↓reduceIte]

end Filling

/-- What the next frame of a queue is, with `allot` bytes for its payload: the
queue and the last number given out, the frame, how many packets it completes,
and the queue and the number after it. -/
inductive NextFrame (protocolType : UInt16) (allot : Nat) :
    WriterState → UInt16 → RLPXFrame → Nat → WriterState → UInt16 → Prop where
  | whole {q : List RLPXPacket} {sequence sid : UInt16} {k : Nat} (hpos : 0 < k)
      (hle : k ≤ q.length) (hfit : (RLPXPacket.wires (q.take k)).length ≤ allot) :
      NextFrame protocolType allot (idle q sequence) sid
        (.single protocolType (RLPXPacket.wires (q.take k))) k
        (idle (q.drop k) sequence) sid
  | first {p : RLPXPacket} {rest : List RLPXPacket} {sequence sid : UInt16}
      (hfit : allot < p.size) :
      NextFrame protocolType allot (idle (p :: rest) sequence) sid
        (.first protocolType (sid + 1) (UInt32.ofNat p.size)
          (p.wire.take allot)) 0
        (busy p rest (p.size - allot) (sid + 1)) (sid + 1)
  | middle {p : RLPXPacket} {rest : List RLPXPacket} {r : Nat}
      {sequence sid : UInt16} (hr : allot < r) :
      NextFrame protocolType allot (busy p rest r sequence) sid
        (.next protocolType sequence
          ((p.data.drop (p.data.length - r)).take allot)) 0
        (busy p rest (r - allot) sequence) sid
  | last {p : RLPXPacket} {rest : List RLPXPacket} {r : Nat}
      {sequence sid : UInt16} (hr : r ≤ allot) :
      NextFrame protocolType allot (busy p rest r sequence) sid
        (.next protocolType sequence (p.data.drop (p.data.length - r))) 1
        (idle rest sequence) sid

/-- The number of bytes of the front packet that have not been written. -/
def left (qs : WriterState) : Nat :=
  if qs.writing then qs.remaining
  else (qs.q.head?.map RLPXPacket.size).getD 0

namespace NextFrame

variable {protocolType sid sid' : UInt16} {allot ret : Nat}
  {qs qs' : WriterState} {frame : RLPXFrame}

theorem ok (h : NextFrame protocolType allot qs sid frame ret qs' sid')
    (hmin : 16 ≤ allot) (hqs : qs.Ok) : qs'.Ok := by
  cases h with
  | whole hpos hle hfit =>
      refine .idle _ fun p hp => hqs.packets p ?_
      exact List.mem_of_mem_drop hp
  | first hfit =>
      have hp := hqs.packets _ List.mem_cons_self
      have hsize := hp.size_eq
      have htype := hp.type_le
      exact .busy _ hqs.packets (by omega) (by omega)
  | middle hr =>
      cases hqs with
      | busy _ hq hpos hlt => exact .busy _ hq (by omega) (by omega)
  | last hr =>
      exact .idle _ fun p hp => hqs.packets p (List.mem_cons_of_mem _ hp)

/-- The packets that a frame completes are taken off the queue. -/
theorem length_eq (h : NextFrame protocolType allot qs sid frame ret qs' sid') :
    qs'.q.length + ret = qs.q.length := by
  cases h with
  | whole hpos hle hfit =>
      simp only [idle, List.length_drop]
      omega
  | first hfit => rfl
  | middle hr => rfl
  | last hr => rfl

/-- A frame is not empty and fits; one that completes no packet is full. -/
theorem length_payload
    (h : NextFrame protocolType allot qs sid frame ret qs' sid')
    (hmin : 16 ≤ allot) (hqs : qs.Ok) :
    0 < frame.payload.length ∧ frame.payload.length ≤ allot ∧
      (ret = 0 → frame.payload.length = allot) := by
  cases h with
  | @whole q _ _ _ hpos hle hfit =>
      refine ⟨?_, hfit, fun h => absurd h hpos.ne'⟩
      cases q with
      | nil => exact absurd (hpos.trans_le hle) (lt_irrefl 0)
      | cons p rest =>
          have htype := (hqs.packets p List.mem_cons_self).type_pos
          obtain ⟨k, rfl⟩ : ∃ n, ret = n + 1 := ⟨ret - 1, by omega⟩
          simp only [RLPXFrame.payload, List.take_succ_cons, RLPXPacket.wires,
            List.flatMap_cons, RLPXPacket.wire, List.length_append]
          omega
  | first hfit =>
      have hp := hqs.packets _ List.mem_cons_self
      have hlength := hp.length_wire
      simp only [RLPXFrame.payload, List.length_take]
      omega
  | middle hr =>
      cases hqs with
      | busy _ hq hpos hlt =>
          simp only [RLPXFrame.payload, List.length_take, List.length_drop]
          omega
  | last hr =>
      cases hqs with
      | busy _ hq hpos hlt =>
          simp only [RLPXFrame.payload, List.length_drop]
          omega

theorem ne_nil (h : NextFrame protocolType allot qs sid frame ret qs' sid') :
    qs.q ≠ [] := by
  cases h with
  | whole hpos hle hfit =>
      exact List.length_pos_iff.1 (hpos.trans_le hle)
  | first hfit => exact List.cons_ne_nil _ _
  | middle hr => exact List.cons_ne_nil _ _
  | last hr => exact List.cons_ne_nil _ _

/-- A frame completes a packet if and only if what is left of the front packet
fits. -/
theorem ret_pos_iff
    (h : NextFrame protocolType allot qs sid frame ret qs' sid')
    (hqs : qs.Ok) : 0 < ret ↔ qs.left ≤ allot := by
  cases h with
  | @whole q _ _ _ hpos hle hfit =>
      refine iff_of_true hpos ?_
      cases q with
      | nil => exact absurd (hpos.trans_le hle) (lt_irrefl 0)
      | cons p rest =>
          have hp := hqs.packets p List.mem_cons_self
          obtain ⟨k, rfl⟩ : ∃ n, ret = n + 1 := ⟨ret - 1, by omega⟩
          rw [List.take_succ_cons, RLPXPacket.wires, List.flatMap_cons,
            List.length_append, hp.length_wire] at hfit
          exact (Nat.le_add_right _ _).trans hfit
  | first hfit => exact iff_of_false (lt_irrefl 0) (Nat.not_le.2 hfit)
  | middle hr => exact iff_of_false (lt_irrefl 0) (Nat.not_le.2 hr)
  | last hr => exact iff_of_true Nat.one_pos hr

end NextFrame

end WriterState

namespace RLPXFrameWriter

open WriterState

/-- What is always true of a writer between two frames. -/
structure Ok (w : RLPXFrameWriter) : Prop where
  high : w.high.Ok
  low : w.low.Ok

theorem enque_eq (w : RLPXFrameWriter) (type : UInt8) (payload : RLPStream)
    (priority : Bool) :
    w.enque type payload priority =
      payload.out.map fun data => w.enquePacket
        ⟨w.protocolType.toUInt8, RLPTree.encode (.int type.toNat), data⟩
        priority := by
  have hn := type.toNat_lt
  have hbr : bytesRequired type.toNat ≤ 1 :=
    (bytesRequired_le_iff type.toNat 1).2 (by omega)
  have happend : RLPStream.appendInt {} type.toNat =
      .ok ⟨RLPTree.encode (.int type.toNat), []⟩ := by
    rw [RLPTree.appendInt_eq_appendRaw _ (by omega)]
    rfl
  have hout : RLPStream.out ⟨RLPTree.encode (.int type.toNat), []⟩ =
      .ok (RLPTree.encode (.int type.toNat)) := rfl
  rw [enque, happend, ok_bind, RLPXPacket.ofStreams, hout, ok_bind]
  cases payload.out <;> rfl

theorem Ok.enquePacket {w : RLPXFrameWriter} (h : w.Ok) {p : RLPXPacket}
    (htype : 0 < p.type.length ∧ p.type.length ≤ 2) (priority : Bool) :
    (w.enquePacket p priority).Ok := by
  rw [RLPXFrameWriter.enquePacket]
  cases hvalid : p.isValid with
  | false => exact h
  | true =>
      have hp : p.Sendable := ⟨hvalid, htype.1, htype.2⟩
      cases priority with
      | true => exact ⟨h.high.push hp, h.low⟩
      | false => exact ⟨h.high, h.low.push hp⟩

/-- The queue that a round takes from. -/
def taken (w : RLPXFrameWriter) (swapQueues : Bool) : WriterState :=
  if w.takesHigh swapQueues then w.high else w.low

/-- The writer with another state of that queue. -/
def leave (w : RLPXFrameWriter) (swapQueues : Bool) (qs : WriterState)
    (sequenceId : UInt16) : RLPXFrameWriter :=
  if w.takesHigh swapQueues then { w with sequenceId, high := qs }
  else { w with sequenceId, low := qs }

theorem Ok.taken {w : RLPXFrameWriter} (h : w.Ok) (swapQueues : Bool) :
    (w.taken swapQueues).Ok := by
  rw [RLPXFrameWriter.taken]
  split
  · exact h.high
  · exact h.low

theorem Ok.leave {w : RLPXFrameWriter} (h : w.Ok) (swapQueues : Bool)
    {qs : WriterState} (hqs : qs.Ok) (sequenceId : UInt16) :
    (w.leave swapQueues qs sequenceId).Ok := by
  rw [RLPXFrameWriter.leave]
  split
  · exact ⟨hqs, h.low⟩
  · exact ⟨h.high, hqs⟩

/-- If something is queued, the queue that a round takes from is not empty. -/
theorem taken_ne_nil {w : RLPXFrameWriter} (hpending : w.size ≠ 0)
    (swapQueues : Bool) : (w.taken swapQueues).q ≠ [] := by
  rw [size] at hpending
  rw [taken, takesHigh]
  cases hhigh : w.high.q with
  | nil =>
      cases hlow : w.low.q with
      | nil => simp [hhigh, hlow] at hpending
      | cons p rest => simp [hlow]
  | cons p rest =>
      cases swapQueues with
      | false => simp [hhigh]
      | true =>
          cases hlow : w.low.q with
          | nil => simp [hhigh]
          | cons p' rest' => simp [hlow]

theorem payload_frameOf (w : RLPXFrameWriter) (f : Filling) :
    (w.frameOf f).payload = f.payload := by
  rw [frameOf]
  split
  · split <;> rfl
  · rfl

/-- A round fills one frame from the queue it takes from. -/
theorem nextFrame_eq {w : RLPXFrameWriter} {frameLen : Nat} {swapQueues : Bool}
    (h : w.Ok) (hpending : w.size ≠ 0)
    (hmin : 16 ≤ w.frameAllot frameLen swapQueues) :
    ∃ f qs', w.nextFrame frameLen swapQueues =
        .ok (f, w.leave swapQueues qs' f.sequenceId) ∧
      NextFrame w.protocolType (w.frameAllot frameLen swapQueues)
        (w.taken swapQueues) w.sequenceId (w.frameOf f) f.ret qs'
        f.sequenceId := by
  have hlt : w.frameAllot frameLen swapQueues < 2 ^ 64 := Nat.mod_lt _ (by omega)
  obtain ⟨allot, hallot⟩ : ∃ a, a = w.frameAllot frameLen swapQueues := ⟨_, rfl⟩
  obtain ⟨qs, hqs⟩ : ∃ qs, qs = w.taken swapQueues := ⟨_, rfl⟩
  have hne := taken_ne_nil hpending swapQueues
  have hok := h.taken swapQueues
  rw [← hqs] at hne hok
  rw [← hallot] at hmin hlt
  simp only [nextFrame, ← hallot, ← hqs, ← taken.eq_1]
  cases hok with
  | @idle q sequence hq =>
      cases q with
      | nil => exact absurd rfl hne
      | cons p rest =>
          have hp := hq p List.mem_cons_self
          by_cases hfit : p.size ≤ allot
          · obtain ⟨k, hpos, hle, hlength, -, left, heq⟩ := @Filling.fill_whole
              w.sequenceId sequence allot p rest hq hlt hmin hfit
            refine ⟨⟨idle ((p :: rest).drop k) sequence, w.sequenceId, left,
              RLPXPacket.wires ((p :: rest).take k), 0, k⟩,
              idle ((p :: rest).drop k) sequence, ?_,
              .whole hpos hle hlength⟩
            simp only [idle] at heq ⊢
            simp only [heq, ok_bind, Bool.and_false, Bool.false_eq_true,
              ↓reduceIte, leave]
          · have hfit := Nat.not_le.1 hfit
            have hleft : decide (p.size - allot = 0) = false :=
              decide_eq_false (by omega)
            have heq := @Filling.fill_first w.sequenceId sequence allot p rest
              (p :: rest).length hp hlt hmin hfit
            refine ⟨⟨busy p rest (p.size - allot) (w.sequenceId + 1),
              w.sequenceId + 1, 0, p.wire.take allot, 0, 0⟩,
              busy p rest (p.size - allot) (w.sequenceId + 1), ?_,
              .first hfit⟩
            simp only [idle] at heq ⊢
            simp only [heq, ok_bind, leave, busy, hleft, Bool.and_false,
              Bool.false_and, Bool.false_eq_true, ↓reduceIte]
  | @busy p rest r sequence hq hpos hrlt =>
      have hdata := (hq p List.mem_cons_self).data_lt
      have hoffset : ¬ p.data.length - r = 0 := by omega
      have hframe : ∀ (qs : WriterState) (left : Nat) (b : Bytes) (ret : Nat),
          qs.multiFrame = true →
          w.frameOf ⟨qs, w.sequenceId, left, b, p.data.length - r, ret⟩ =
            .next w.protocolType qs.sequence b := by
        intro qs left b ret hmulti
        simp only [frameOf, hmulti, if_neg hoffset, ↓reduceIte]
      by_cases hr : r ≤ allot
      · have heq := @Filling.fill_last w.sequenceId sequence allot p rest r
          (p :: rest).length hdata hlt hmin hpos hr hrlt.le
        have hne : (p.data.drop (p.data.length - r)).isEmpty = false := by
          rw [List.isEmpty_eq_false_iff, ← List.length_pos_iff,
            List.length_drop]
          omega
        refine ⟨⟨⟨rest, false, 0, true, sequence⟩, w.sequenceId, allot - r,
          p.data.drop (p.data.length - r), p.data.length - r, 1⟩,
          idle rest sequence, ?_, ?_⟩
        · simp only [busy] at heq ⊢
          simp only [heq, ok_bind, leave, idle, hne, Bool.not_false,
            decide_true, Bool.and_self, ↓reduceIte]
        · rw [hframe _ _ _ _ rfl]
          exact .last hr
      · have hr := Nat.not_le.1 hr
        have heq := @Filling.fill_middle w.sequenceId sequence allot p rest r
          (p :: rest).length hdata hlt hmin hr hrlt.le
        have hleft : decide (r - allot = 0) = false :=
          decide_eq_false (by omega)
        refine ⟨⟨busy p rest (r - allot) sequence, w.sequenceId, 0,
          (p.data.drop (p.data.length - r)).take allot, p.data.length - r, 0⟩,
          busy p rest (r - allot) sequence, ?_, ?_⟩
        · simp only [busy] at heq ⊢
          simp only [heq, ok_bind, leave, hleft, Bool.and_false,
            Bool.false_and, Bool.false_eq_true, ↓reduceIte]
        · rw [hframe _ _ _ _ rfl]
          exact .middle hr

end RLPXFrameWriter

end Web3Core
