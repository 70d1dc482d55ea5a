/-
`Session.h` and `Session.cpp`: how a session takes the frames that it has read.
A frame is checked for its shape; then its first byte is read as the type of a
packet and the rest is given to `readPacket`, or the session is disconnected.
-/
import Web3Core.RLPCanonical
import Web3Core.RLPInt

namespace Web3Core

inductive DisconnectReason where
  | disconnectRequested
  | tcpError
  | badProtocol
  | uselessPeer
  | tooManyPeers
  | duplicatePeer
  | incompatibleProtocol
  | nullIdentity
  | clientQuit
  | unexpectedIdentity
  | localIdentity
  | pingTimeout
  | userReason
  | noDisconnect
deriving DecidableEq

/-- What is done with a frame. -/
inductive SessionAction where
  | readPacket (capId : Nat) (packetType : Nat) (r : RLP)
  | disconnect (reason : DisconnectReason)

namespace Session

/-- `checkPacket`: the first byte is looked at before the size. -/
def checkPacket (msg : BytesConstRef) : Except Exception Bool := do
  let first ← msg.get 0
  if first > 0x7f ∨ msg.count < 2 then .ok false
  else do
    let r ← RLP.ofRef (msg.croppedFrom 1) .veryStrict
    let size ← r.actualSize
    .ok (size + 1 = msg.count)

/-- The handler of the read of a frame, after its tag was found right: what is
left in the buffer, and how much of that is the frame. -/
def onFrame (protocolId : Nat) (data : Bytes) (length : Nat) :
    Except Exception SessionAction := do
  let frame := BytesConstRef.window data 0 length
  let good ← checkPacket frame
  if !good then .ok (.disconnect .badProtocol)
  else do
    let first ← RLP.ofRef (frame.cropped 0 1) .veryStrict
    let packetType ← first.toInt 4 .strict
    let r ← RLP.ofRef (frame.croppedFrom 1) .veryStrict
    .ok (.readPacket protocolId packetType r)

/-- Exactly one item, as its head tells. -/
def IsItem (b : Bytes) : Prop :=
  ∃ isList offset l, Head b isList offset l ∧ b.length = offset + l

/-- A type of one byte with exactly one item after it. -/
def IsPacket (b : Bytes) : Prop :=
  ∃ type rest, b = type :: rest ∧ type ≤ 0x7f ∧ IsItem rest

/-- A frame is taken safely: it is checked within its bounds and for what a
packet is, and then dispatched or answered with a disconnection. -/
structure TakenSafely (protocolId : Nat) (b more : Bytes) : Prop where
  checked : ∃ good, checkPacket (.window (b ++ more) 0 b.length) = .ok good ∧
    (good = true ↔ IsPacket b)
  handled : ∃ action, onFrame protocolId (b ++ more) b.length = .ok action ∧
    (IsPacket b → ∃ type r, action = .readPacket protocolId type r) ∧
    (¬ IsPacket b → action = .disconnect .badProtocol)

section View

variable {b more : Bytes} {x : Byte}

/-- A view at the beginning of a buffer. -/
theorem valid_window (b more : Bytes) :
    (BytesConstRef.window (b ++ more) 0 b.length).Valid := by
  simp [BytesConstRef.window, BytesConstRef.Valid]

theorem toBytes_window (b more : Bytes) :
    (BytesConstRef.window (b ++ more) 0 b.length).toBytes = b := by
  simp [BytesConstRef.window, BytesConstRef.toBytes]

/-- What follows the first byte. -/
theorem croppedFrom_window (x : Byte) (b more : Bytes) :
    (BytesConstRef.window (x :: b ++ more) 0 (x :: b).length).croppedFrom 1 =
      .window (x :: b ++ more) 1 b.length := by
  rw [BytesConstRef.croppedFrom_of_le rfl (by simp [BytesConstRef.window])]
  simp [BytesConstRef.window]

theorem valid_rest (x : Byte) (b more : Bytes) :
    (BytesConstRef.window (x :: b ++ more) 1 b.length).Valid := by
  simp [BytesConstRef.window, BytesConstRef.Valid]
  omega

theorem toBytes_rest (x : Byte) (b more : Bytes) :
    (BytesConstRef.window (x :: b ++ more) 1 b.length).toBytes = b := by
  simp [BytesConstRef.window, BytesConstRef.toBytes]

end View

/-- The very strict constructor takes exactly one item. -/
theorem ofRef_veryStrict_iff {d : BytesConstRef} (hv : d.Valid)
    (hne : d.count ≠ 0) :
    (∃ r, RLP.ofRef d .veryStrict = .ok r) ↔ IsItem d.toBytes := by
  have hlength := BytesConstRef.length_toBytes hv
  constructor
  · rintro ⟨r, hr⟩
    obtain ⟨rfl, hbig, hsmall⟩ := RLP.ofRef_strict rfl hr
    obtain ⟨size, hsize, hle⟩ := hbig rfl
    obtain ⟨size', hsize', hge⟩ := hsmall rfl
    rw [hsize, Except.ok.injEq] at hsize'
    obtain ⟨isList, offset, l, hhead, heq⟩ :=
      RLP.exists_head_of_actualSize hv hne hsize
    exact ⟨isList, offset, l, hhead, by omega⟩
  · rintro ⟨isList, offset, l, hhead, heq⟩
    have hsize := RLP.actualSize_of_head (r := { data := d }) hv hhead
    exact ⟨_, RLP.ofRef_of_size hsize (fun _ => by omega) (fun _ => by omega)⟩

/-- What is read of an item that exactly fills its view. -/
theorem ofRef_of_isItem {d : BytesConstRef} (hv : d.Valid)
    (hitem : IsItem d.toBytes) :
    RLP.ofRef d .veryStrict = .ok { data := d } ∧
      RLP.actualSize { data := d } = .ok d.count := by
  obtain ⟨isList, offset, l, hhead, heq⟩ := hitem
  have hsize := @RLP.actualSize_of_head { data := d } hv _ _ _ hhead
  rw [← heq, BytesConstRef.length_toBytes hv] at hsize
  exact ⟨RLP.ofRef_of_size hsize (fun _ => le_rfl) fun _ => le_rfl, hsize⟩

section Frame

variable {b rest more : Bytes} {x : Byte} {protocolId : Nat}

theorem not_isItem_nil : ¬ IsItem [] := by
  rintro ⟨isList, offset, l, hhead, -⟩
  exact hhead.ne_nil rfl

theorem isPacket_cons : IsPacket (x :: rest) ↔ x ≤ 0x7f ∧ IsItem rest := by
  constructor
  · rintro ⟨type, rest', heq, hle, hitem⟩
    obtain ⟨rfl, rfl⟩ := List.cons.inj heq
    exact ⟨hle, hitem⟩
  · rintro ⟨hle, hitem⟩
    exact ⟨x, rest, rfl, hle, hitem⟩

/-- The first byte of an empty frame is not in it. -/
theorem checkPacket_nil (more : Bytes) :
    checkPacket (.window ([] ++ more) 0 0) = .error .outOfRange := rfl

theorem get_zero (x : Byte) (rest more : Bytes) :
    (BytesConstRef.window (x :: rest ++ more) 0 (x :: rest).length).get 0 =
      .ok x :=
  BytesConstRef.get_eq (valid_window (x :: rest) more)
    (by rw [toBytes_window]; rfl)

/-- A frame whose first byte is too large, or that has no other. -/
theorem checkPacket_short (h : x > 0x7f ∨ rest = []) :
    checkPacket (.window (x :: rest ++ more) 0 (x :: rest).length) =
      .ok false := by
  rw [checkPacket, get_zero, ok_bind, if_pos]
  rcases h with hlarge | rfl
  · exact .inl hlarge
  · exact .inr (by simp [BytesConstRef.window])

/-- Otherwise the rest is what the constructor makes of it. -/
theorem checkPacket_long (hle : x ≤ 0x7f) (hne : rest ≠ []) :
    checkPacket (.window (x :: rest ++ more) 0 (x :: rest).length) = (do
      let r ← RLP.ofRef (.window (x :: rest ++ more) 1 rest.length) .veryStrict
      let size ← r.actualSize
      .ok (size + 1 = (x :: rest).length)) := by
  have hpos := List.length_pos_iff.mpr hne
  rw [checkPacket, get_zero, ok_bind, if_neg, croppedFrom_window]
  · rfl
  · rw [not_or]
    refine ⟨UInt8.not_lt.mpr hle, ?_⟩
    simp only [BytesConstRef.window, List.length_cons]
    omega

theorem checkPacket_item (hle : x ≤ 0x7f) (hitem : IsItem rest) :
    checkPacket (.window (x :: rest ++ more) 0 (x :: rest).length) =
      .ok true := by
  have hne : rest ≠ [] := by
    rintro rfl
    exact not_isItem_nil hitem
  have hrest : IsItem (BytesConstRef.window (x :: rest ++ more) 1
      rest.length).toBytes := by
    rw [toBytes_rest]
    exact hitem
  obtain ⟨hread, hsize⟩ := ofRef_of_isItem (valid_rest x rest more) hrest
  rw [checkPacket_long hle hne, hread, ok_bind, hsize, ok_bind]
  simp [BytesConstRef.window]

/-- The constructor throws on anything else. -/
theorem checkPacket_malformed (hle : x ≤ 0x7f) (hne : rest ≠ [])
    (hitem : ¬ IsItem rest) :
    ∃ e, checkPacket (.window (x :: rest ++ more) 0 (x :: rest).length) =
      .error e := by
  rw [checkPacket_long hle hne]
  cases hread : RLP.ofRef (.window (x :: rest ++ more) 1 rest.length)
      .veryStrict with
  | error e => exact ⟨e, rfl⟩
  | ok r =>
      have hcount : (BytesConstRef.window (x :: rest ++ more) 1
          rest.length).count ≠ 0 := by
        have hpos := List.length_pos_iff.mpr hne
        simp only [BytesConstRef.window]
        omega
      have hitem' := (ofRef_veryStrict_iff (valid_rest x rest more) hcount).mp
        ⟨r, hread⟩
      rw [toBytes_rest] at hitem'
      exact absurd hitem' hitem

/-- The view of the type. -/
theorem cropped_type (x : Byte) (rest more : Bytes) :
    (BytesConstRef.window (x :: rest ++ more) 0 (x :: rest).length).cropped 0 1 =
      .window (x :: rest ++ more) 0 1 := by
  rw [BytesConstRef.cropped_of_le rfl (by simp [BytesConstRef.window])
    (by decide)]
  rfl

theorem valid_type (x : Byte) (rest more : Bytes) :
    (BytesConstRef.window (x :: rest ++ more) 0 1).Valid := by
  simp [BytesConstRef.window, BytesConstRef.Valid]

theorem toBytes_type (x : Byte) (rest more : Bytes) :
    (BytesConstRef.window (x :: rest ++ more) 0 1).toBytes = [x] := by
  simp [BytesConstRef.window, BytesConstRef.toBytes]

/-- The type as a number. -/
theorem toInt_type (hle : x ≤ 0x7f) (hne : x ≠ 0) :
    RLP.toInt { data := .window (x :: rest ++ more) 0 1 } 4 .strict =
      .ok x.toNat := by
  have hlt : x.toNat < 0x80 := Nat.lt_succ_of_le (UInt8.le_iff_toNat_le.mp hle)
  have hzero : x.toNat ≠ 0 := fun h => hne (UInt8.toNat_inj.mp h)
  have hencode : RLPTree.encode (.int x.toNat) = [x] := by
    rw [RLPTree.encode_int_small hzero hlt, UInt8.ofNat_toNat]
  have hfits : (RLPTree.int x.toNat).Fits := by
    rw [RLPTree.Fits, hencode, List.length_singleton]
    decide
  have hrep : RLP.Rep { data := .window (x :: rest ++ more) 0 1 }
      (.int x.toNat) := by
    refine ⟨hfits, x :: rest ++ more, 0, ?_, [], rest ++ more, ?_, rfl⟩
    · rw [hencode]
      rfl
    · rw [hencode]
      rfl
  have hbytes : bytesRequired x.toNat ≤ 1 :=
    (bytesRequired_le_iff x.toNat 1).mpr (by omega)
  exact hrep.toInt (by omega) (by omega) .strict

/-- A byte of zero is no integer. -/
theorem toInt_zero (rest more : Bytes) :
    RLP.toInt { data := .window (0 :: rest ++ more) 0 1 } 4 .strict =
      .error .badCast := by
  have hhead : (BytesConstRef.window (0 :: rest ++ more) 0 1).head? =
      some 0 := rfl
  simp only [RLP.toInt, RLP.requireGood, RLP.isInt, hhead]
  rfl

/-- A frame that is no packet, but is found to be none. -/
theorem onFrame_of_check (h : checkPacket (.window (b ++ more) 0 b.length) =
      .ok false) :
    onFrame protocolId (b ++ more) b.length =
      .ok (.disconnect .badProtocol) := by
  rw [onFrame, h, ok_bind]
  rfl

/-- A frame that is a packet is dispatched, if its type can be read. -/
theorem onFrame_item (hle : x ≤ 0x7f) (hitem : IsItem rest) :
    onFrame protocolId (x :: rest ++ more) (x :: rest).length = (do
      let packetType ←
        RLP.toInt { data := .window (x :: rest ++ more) 0 1 } 4 .strict
      .ok (.readPacket protocolId packetType
        { data := .window (x :: rest ++ more) 1 rest.length })) := by
  have htype : IsItem (BytesConstRef.window (x :: rest ++ more) 0 1).toBytes := by
    rw [toBytes_type]
    exact ⟨false, 0, 1, .byte [] (Nat.lt_succ_of_le
      (UInt8.le_iff_toNat_le.mp hle)), rfl⟩
  have hrest : IsItem (BytesConstRef.window (x :: rest ++ more) 1
      rest.length).toBytes := by
    rw [toBytes_rest]
    exact hitem
  rw [onFrame, checkPacket_item hle hitem, ok_bind, cropped_type,
    croppedFrom_window, (ofRef_of_isItem (valid_type x rest more) htype).1,
    (ofRef_of_isItem (valid_rest x rest more) hrest).1]
  rfl

end Frame

/-- A frame is taken safely exactly if it is not empty and its first byte is
too large for a type, or nothing follows it, or exactly one item does and the
type is not zero. -/
theorem takenSafely_iff (protocolId : Nat) (b more : Bytes) :
    TakenSafely protocolId b more ↔ ∃ type rest, b = type :: rest ∧
      (type > 0x7f ∨ rest = [] ∨ (IsItem rest ∧ type ≠ 0)) := by
  cases b with
  | nil =>
      constructor
      · intro h
        obtain ⟨good, hgood, -⟩ := h.checked
        rw [List.length_nil, checkPacket_nil] at hgood
        cases hgood
      · rintro ⟨type, rest, heq, -⟩
        cases heq
  | cons x rest =>
      by_cases hshort : x > 0x7f ∨ rest = []
      · have hno : ¬ IsPacket (x :: rest) := by
          rw [isPacket_cons]
          rintro ⟨hle, hitem⟩
          rcases hshort with hlarge | rfl
          · exact UInt8.not_le.mpr hlarge hle
          · exact not_isItem_nil hitem
        have hcheck := @checkPacket_short rest more x hshort
        refine ⟨fun _ => ⟨x, rest, rfl, ?_⟩, fun _ => ⟨?_, ?_⟩⟩
        · exact hshort.imp_right .inl
        · exact ⟨false, hcheck, by simp [hno]⟩
        · exact ⟨_, onFrame_of_check hcheck, fun h => absurd h hno,
            fun _ => rfl⟩
      · rw [not_or] at hshort
        obtain ⟨hsmall, hne⟩ := hshort
        have hle : x ≤ 0x7f := UInt8.not_lt.mp hsmall
        by_cases hitem : IsItem rest
        · have hyes : IsPacket (x :: rest) := isPacket_cons.mpr ⟨hle, hitem⟩
          have hframe := @onFrame_item rest more x protocolId hle hitem
          constructor
          · intro h
            obtain ⟨action, haction, -⟩ := h.handled
            refine ⟨x, rest, rfl, .inr (.inr ⟨hitem, ?_⟩)⟩
            rintro rfl
            rw [hframe, toInt_zero] at haction
            cases haction
          · rintro ⟨type, rest', heq, hcases⟩
            obtain ⟨rfl, rfl⟩ := List.cons.inj heq
            have htype : x ≠ 0 := by
              rcases hcases with hlarge | hnil | hgood
              · exact absurd hlarge hsmall
              · exact absurd hnil hne
              · exact hgood.2
            rw [toInt_type hle htype, ok_bind] at hframe
            constructor
            · exact ⟨true, checkPacket_item hle hitem, by simp [hyes]⟩
            · exact ⟨_, hframe, fun _ => ⟨_, _, rfl⟩, fun h => absurd hyes h⟩
        · obtain ⟨e, he⟩ := @checkPacket_malformed rest more x hle hne hitem
          constructor
          · intro h
            obtain ⟨good, hgood, -⟩ := h.checked
            rw [he] at hgood
            cases hgood
          · rintro ⟨type, rest', heq, hcases⟩
            obtain ⟨rfl, rfl⟩ := List.cons.inj heq
            rcases hcases with hlarge | hnil | hgood
            · exact absurd hlarge hsmall
            · exact absurd hnil hne
            · exact absurd hgood.1 hitem

/-- On a type with half of an item after it, the check itself throws. -/
theorem not_takenSafely_truncated :
    checkPacket (.window [0x10, 0x82, 0x05] 0 3) = .error .undersizeRLP ∧
      ¬ TakenSafely 0 [0x10, 0x82, 0x05] [] := by
  have hcheck : checkPacket (.window [0x10, 0x82, 0x05] 0 3) =
      .error .undersizeRLP := rfl
  refine ⟨hcheck, fun h => ?_⟩
  obtain ⟨good, hgood, -⟩ := h.checked
  cases hcheck.symm.trans hgood

end Session

end Web3Core
