/-
`Session::doRead`: a session reads the header of a frame and then the frame,
byte by byte as they come from the socket, and passes on what the header counts
as the frame.  The header counts in three bytes, and nothing in `send` looks at
the size of a message.
-/
import Web3Core.Session
import Web3Core.SessionQueue

namespace Web3Core

/-- A session that reads.  `header` is what the last header told while its
frame is read, `buffer` what the read under way has put into `m_data`, and
`passed` lists the frames that were passed on to `checkPacket`.  No read
follows once the session has `stopped`. -/
structure SessionReader where
  coder : RLPXFrameCoder
  header : Option RLPXFrameInfo := none
  buffer : Bytes := []
  passed : List Bytes := []
  stopped : Bool := false

namespace Session

/-- The size of `m_data`. -/
def dataSize : Nat := 16777232

/-- `send`.  What is no packet is reported and sent all the same, and nothing
is sent on a socket that is closed. -/
def send (isOpen : Bool) (s : WriteQueue) (msg : Bytes) :
    Except Exception WriteQueue := do
  let view := BytesConstRef.ofBytes msg
  let _ ← RLP.ofRef (view.croppedFrom 1) .veryStrict
  let _ ← checkPacket view
  if isOpen then .ok (s.send msg) else .ok s

end Session

namespace SessionReader

open Session (dataSize)

section

variable (crypto : Crypto)

/-- How many bytes the read under way is for; no more than `m_data` takes. -/
def wanted (r : SessionReader) : Nat :=
  match r.header with
  | none => 32
  | some info => min (info.length + info.padding + 16) dataSize

def stop (r : SessionReader) : SessionReader := { r with stopped := true }

/-- The handler of the read of a header. -/
def onHeader (r : SessionReader) : SessionReader :=
  match r.coder.authAndDecryptHeader crypto r.buffer with
  | .error _ => r.stop
  | .ok (false, _, coder) => { r with coder, stopped := true }
  | .ok (true, io, coder) =>
      match RLPXFrameInfo.ofHeader io with
      | .error _ => { r with coder, stopped := true }
      | .ok info => { r with coder, header := some info, buffer := [] }

/-- The handler of the read of a frame.  The packet is dispatched before the
next read. -/
def onFrame (r : SessionReader) (info : RLPXFrameInfo) : SessionReader :=
  if r.buffer.length ≠ info.length + info.padding + 16 then r.stop
  else
    match r.coder.authAndDecryptFrame crypto r.buffer with
    | .error _ => r.stop
    | .ok (false, _, coder) => { r with coder, stopped := true }
    | .ok (true, io, coder) =>
        let r := { r with coder, passed := r.passed ++ [io.take info.length] }
        match Session.onFrame info.protocolId io info.length with
        | .ok (.readPacket _ _ _) => { r with header := none, buffer := [] }
        | .ok (.disconnect _) => r.stop
        | .error _ => r.stop

/-- A byte comes from the socket. -/
def receive (r : SessionReader) (x : Byte) : SessionReader :=
  if r.stopped then r
  else
    let r := { r with buffer := r.buffer ++ [x] }
    if r.buffer.length < r.wanted then r
    else
      match r.header with
      | none => r.onHeader crypto
      | some info => r.onFrame crypto info

def feed (r : SessionReader) (b : Bytes) : SessionReader :=
  b.foldl (receive crypto) r

/-- The frame that is made of a message is passed on to `checkPacket` as that
message, and the coders are in step after it. -/
def Arrives (c c' : RLPXFrameCoder) (msg : Bytes) : Prop :=
  ∃ frame coder, c.writeSingleFramePacket crypto msg = .ok (frame, coder) ∧
    (feed crypto { coder := c' } frame).passed = [msg] ∧
    (feed crypto { coder := c' } frame).coder.ingress = coder.egress

end

variable {crypto : Crypto} {r : SessionReader} {b c : Bytes}
  {info : RLPXFrameInfo}

/-- `send` refuses the message and leaves the queue and its coder as they
were. -/
def Refuses (isOpen : Bool) (s : WriteQueue) (msg : Bytes) : Prop :=
  Session.send isOpen s msg = .ok s ∨ ∃ e, Session.send isOpen s msg = .error e

theorem feed_append :
    r.feed crypto (b ++ c) = (r.feed crypto b).feed crypto c :=
  List.foldl_append

/-- A byte is one more of the read under way. -/
theorem receive_eq (hrun : r.stopped = false) (x : Byte) :
    r.receive crypto x =
      if r.buffer.length + 1 < r.wanted then
        { r with buffer := r.buffer ++ [x] }
      else
        match r.header with
        | none =>
            SessionReader.onHeader crypto { r with buffer := r.buffer ++ [x] }
        | some info =>
            SessionReader.onFrame crypto { r with buffer := r.buffer ++ [x] }
              info := by
  have hlen : (r.buffer ++ [x]).length = r.buffer.length + 1 :=
    List.length_append
  rw [receive, if_neg (by rw [hrun]; exact Bool.false_ne_true)]
  simp only [hlen]
  rfl

/-- Bytes that do not complete the read. -/
theorem feed_of_lt (hrun : r.stopped = false)
    (hlt : r.buffer.length + b.length < r.wanted) :
    r.feed crypto b = { r with buffer := r.buffer ++ b } := by
  induction b generalizing r with
  | nil =>
      rw [List.append_nil]
      rfl
  | cons x b ih =>
      rw [List.length_cons] at hlt
      have hlen : (r.buffer ++ [x]).length = r.buffer.length + 1 :=
        List.length_append
      have hrest := @ih { r with buffer := r.buffer ++ [x] } hrun
        (by rw [hlen]; exact (by omega : r.buffer.length + 1 + b.length < r.wanted))
      rw [List.append_assoc] at hrest
      rw [feed, List.foldl_cons, receive_eq hrun, if_pos (by omega)]
      exact hrest

/-- Bytes that complete it. -/
theorem feed_of_eq (hrun : r.stopped = false) (hne : b ≠ [])
    (heq : r.buffer.length + b.length = r.wanted) :
    r.feed crypto b =
      match r.header with
      | none => SessionReader.onHeader crypto { r with buffer := r.buffer ++ b }
      | some info =>
          SessionReader.onFrame crypto { r with buffer := r.buffer ++ b } info := by
  obtain ⟨init, x, rfl⟩ := (List.eq_nil_or_concat b).resolve_left hne
  rw [List.concat_eq_append, List.length_append, List.length_singleton] at heq
  have hlen : (r.buffer ++ init).length = r.buffer.length + init.length :=
    List.length_append
  have hlast := @receive_eq crypto { r with buffer := r.buffer ++ init } hrun x
  rw [if_neg (by
    rw [hlen]
    exact (by omega : ¬ r.buffer.length + init.length + 1 < r.wanted)),
    List.append_assoc] at hlast
  rw [List.concat_eq_append, feed_append, feed_of_lt hrun (by omega)]
  exact hlast

/-- A header that was sealed in the state the session is in. -/
theorem feed_header {f : RLPXFrame} {d : RLPXFrameCoder}
    (hshort : f.payload.length < 2 ^ 24) :
    feed crypto { coder := d }
        (d.ingress.sealHeader crypto d.macEncKey f.block) =
      { coder := d.setIngress (d.ingress.afterHeader crypto d.macEncKey f.block)
        header := some f.info } := by
  have hlength : (d.ingress.sealHeader crypto d.macEncKey f.block).length = 32 :=
    FrameStream.length_sealHeader f.length_block
  have hseal := @RLPXFrameCoder.authAndDecryptHeader_seal crypto d f.block
    f.length_block
  rw [feed_of_eq rfl (List.ne_nil_of_length_pos (by omega))
    (by rw [hlength]; rfl)]
  simp only [List.nil_append, onHeader, hseal,
    InStep.ofHeader_block f hshort]

/-- A frame that was sealed in the state the session is in. -/
theorem feed_frame {f : RLPXFrame} {d : RLPXFrameCoder} {passed : List Bytes}
    (hshort : f.payload.length < 2 ^ 24) :
    (feed crypto { coder := d, header := some f.info, passed }
        (d.ingress.sealFrame crypto d.macEncKey f.padded)).passed =
      passed ++ [f.payload] ∧
    (feed crypto { coder := d, header := some f.info, passed }
        (d.ingress.sealFrame crypto d.macEncKey f.padded)).coder =
      d.setIngress (d.ingress.afterFrame crypto d.macEncKey f.padded) := by
  have hlength : (d.ingress.sealFrame crypto d.macEncKey f.padded).length =
      f.info.length + f.info.padding + 16 := by
    rw [FrameStream.length_sealFrame, f.length_padded]
  have hroom : f.info.length + f.info.padding + 16 ≤ dataSize := by
    have hpadding : f.info.padding = (16 - f.payload.length % 16) % 16 := rfl
    have hlen : f.info.length = f.payload.length := rfl
    rw [dataSize, hpadding, hlen]
    omega
  have hwanted : (SessionReader.wanted
      { coder := d, header := some f.info, passed }) =
        f.info.length + f.info.padding + 16 := Nat.min_eq_left hroom
  have hseal := @RLPXFrameCoder.authAndDecryptFrame_seal crypto d f.padded
  have htake : ∀ tag : Bytes, (f.padded ++ tag).take f.info.length =
      f.payload := by
    intro tag
    rw [RLPXFrame.padded, RLPXFrameCoder.pad, List.append_assoc]
    exact List.take_left
  rw [feed_of_eq rfl (List.ne_nil_of_length_pos (by omega))
    (by rw [hlength, hwanted]; exact Nat.zero_add _)]
  simp only [List.nil_append, onFrame, hlength, ne_eq, not_true_eq_false,
    ↓reduceIte, hseal, htake]
  split <;> exact ⟨rfl, rfl⟩

/-- A short message arrives. -/
theorem arrives_of_lt {d d' : RLPXFrameCoder} {msg : Bytes}
    (hstep : d'.ingress = d.egress) (hkey : d'.macEncKey = d.macEncKey)
    (hshort : msg.length < 2 ^ 24) : Arrives crypto d d' msg := by
  have hwrite := @RLPXFrame.write_eq_seal crypto (.legacy msg) d
  have hheader := @feed_header crypto (.legacy msg) d' hshort
  have hframe := @feed_frame crypto (.legacy msg)
    (d'.setIngress (d'.ingress.afterHeader crypto d'.macEncKey
      (RLPXFrame.legacy msg).block)) [] hshort
  rw [RLPXFrameCoder.ingress_setIngress, RLPXFrameCoder.macEncKey_setIngress]
    at hframe
  rw [hstep, hkey] at hheader hframe
  refine ⟨_, _, hwrite, ?_, ?_⟩
  · rw [feed_append, hheader]
    exact hframe.1
  · rw [feed_append, hheader, hframe.2]
    rfl

/-- What was passed on was counted by three bytes. -/
structure Counted (r : SessionReader) : Prop where
  header : ∀ info, r.header = some info → info.length < 2 ^ 24
  passed : ∀ frame ∈ r.passed, frame.length < 2 ^ 24

theorem ofHeader_length_lt {b : Bytes}
    (h : RLPXFrameInfo.ofHeader b = .ok info) : info.length < 2 ^ 24 := by
  rw [RLPXFrameInfo.ofHeader] at h
  obtain ⟨high, -, h⟩ := exists_of_bind h
  obtain ⟨middle, -, h⟩ := exists_of_bind h
  obtain ⟨low, -, h⟩ := exists_of_bind h
  obtain ⟨header, -, h⟩ := exists_of_bind h
  obtain ⟨item, -, h⟩ := exists_of_bind h
  obtain ⟨protocolId, -, h⟩ := exists_of_bind h
  obtain ⟨itemCount, -, h⟩ := exists_of_bind h
  have hhigh := high.toNat_lt
  have hmiddle := middle.toNat_lt
  have hlow := low.toNat_lt
  have hcount :
      (high.toNat * 256 + middle.toNat) * 256 + low.toNat < 2 ^ 24 := by
    omega
  dsimp only at h
  split at h
  · obtain ⟨sequenceId, -, h⟩ := exists_of_bind h
    split at h
    · obtain ⟨totalLength, -, h⟩ := exists_of_bind h
      exact Except.ok.inj h ▸ hcount
    · obtain ⟨totalLength, -, h⟩ := exists_of_bind h
      exact Except.ok.inj h ▸ hcount
  · obtain ⟨sequenceId, -, h⟩ := exists_of_bind h
    split at h
    · obtain ⟨totalLength, -, h⟩ := exists_of_bind h
      exact Except.ok.inj h ▸ hcount
    · obtain ⟨totalLength, -, h⟩ := exists_of_bind h
      exact Except.ok.inj h ▸ hcount

theorem Counted.onHeader (h : Counted r) : Counted (r.onHeader crypto) := by
  rw [SessionReader.onHeader]
  split
  · exact ⟨h.header, h.passed⟩
  · exact ⟨h.header, h.passed⟩
  · split
    · exact ⟨h.header, h.passed⟩
    · rename_i info hinfo
      refine ⟨fun info' hinfo' => ?_, h.passed⟩
      obtain rfl := Option.some.inj hinfo'
      exact ofHeader_length_lt hinfo

theorem Counted.onFrame (h : Counted r) (hinfo : info.length < 2 ^ 24) :
    Counted (r.onFrame crypto info) := by
  rw [SessionReader.onFrame]
  split
  · exact ⟨h.header, h.passed⟩
  · split
    · exact ⟨h.header, h.passed⟩
    · exact ⟨h.header, h.passed⟩
    · rename_i io coder _
      have hpassed : ∀ frame ∈ r.passed ++ [io.take info.length],
          frame.length < 2 ^ 24 := by
        intro frame hframe
        rcases List.mem_append.mp hframe with hold | hnew
        · exact h.passed frame hold
        · rw [List.mem_singleton.mp hnew, List.length_take]
          omega
      dsimp only
      split
      · exact ⟨fun info' hinfo' => (by cases hinfo'), hpassed⟩
      · exact ⟨h.header, hpassed⟩
      · exact ⟨h.header, hpassed⟩

theorem Counted.receive (h : Counted r) (x : Byte) :
    Counted (r.receive crypto x) := by
  cases hrun : r.stopped with
  | true =>
      rw [SessionReader.receive, hrun, if_pos rfl]
      exact h
  | false =>
      have hmore : Counted { r with buffer := r.buffer ++ [x] } :=
        ⟨h.header, h.passed⟩
      rw [receive_eq hrun]
      split
      · exact hmore
      · split
        · exact hmore.onHeader
        · rename_i info hinfo
          exact hmore.onFrame (h.header info hinfo)

theorem Counted.feed (h : Counted r) (b : Bytes) :
    Counted (r.feed crypto b) := by
  induction b generalizing r with
  | nil => exact h
  | cons x b ih => exact ih (h.receive x)

/-- A message that three bytes cannot count does not arrive. -/
theorem not_arrives_of_le {d d' : RLPXFrameCoder} {msg : Bytes}
    (hlong : 2 ^ 24 ≤ msg.length) : ¬ Arrives crypto d d' msg := by
  rintro ⟨frame, coder, -, hpassed, -⟩
  have hstart : Counted { coder := d' } :=
    ⟨fun info hinfo => (by cases hinfo), fun _ hframe => (by cases hframe)⟩
  have hlt := (@Counted.feed crypto _ hstart frame).passed msg
    (by rw [hpassed]; exact List.mem_singleton_self msg)
  omega

end SessionReader

namespace Session

variable {msg : Bytes} {isOpen : Bool} {s : WriteQueue}

theorem ofBytes_eq_window (b : Bytes) :
    BytesConstRef.ofBytes b = .window (b ++ []) 0 b.length := by
  rw [List.append_nil]
  rfl

theorem isPacket_of_checkPacket (h : checkPacket (.ofBytes msg) = .ok true) :
    IsPacket msg := by
  rw [ofBytes_eq_window] at h
  cases msg with
  | nil =>
      rw [List.length_nil, checkPacket_nil] at h
      cases h
  | cons x rest =>
      by_cases hshort : x > 0x7f ∨ rest = []
      · rw [checkPacket_short hshort] at h
        cases h
      · obtain ⟨hsmall, hne⟩ := not_or.mp hshort
        have hle : x ≤ 0x7f := UInt8.not_lt.mp hsmall
        refine isPacket_cons.mpr ⟨hle, ?_⟩
        by_contra hitem
        obtain ⟨e, he⟩ := @checkPacket_malformed rest [] x hle hne hitem
        rw [he] at h
        cases h

theorem checkPacket_of_isPacket (h : IsPacket msg) :
    checkPacket (.ofBytes msg) = .ok true := by
  obtain ⟨x, rest, rfl, hle, hitem⟩ := h
  rw [ofBytes_eq_window]
  exact checkPacket_item hle hitem

/-- A packet is pushed if the socket is open. -/
theorem send_eq (h : IsPacket msg) :
    send isOpen s msg = .ok (if isOpen then s.send msg else s) := by
  obtain ⟨x, rest, rfl, hle, hitem⟩ := h
  have hrest : IsItem (BytesConstRef.window (x :: rest ++ []) 1
      rest.length).toBytes := by
    rw [toBytes_rest]
    exact hitem
  rw [send, ofBytes_eq_window, croppedFrom_window,
    (ofRef_of_isItem (valid_rest x rest []) hrest).1, ok_bind,
    checkPacket_item hle hitem, ok_bind]
  cases isOpen <;> rfl

theorem isItem_encode {t : RLPTree} (hfits : t.Fits) : IsItem t.encode := by
  obtain ⟨pre, hpre, hhead⟩ := RLPTree.exists_head hfits []
  rw [List.append_nil] at hhead
  exact ⟨_, _, _, hhead, by rw [hpre, List.length_append]⟩

end Session

namespace SessionReader

variable {crypto : Crypto} {d d' : RLPXFrameCoder} {isOpen : Bool}
  {s : WriteQueue} {msg : Bytes}

theorem refuses_iff (h : Session.IsPacket msg) :
    Refuses isOpen s msg ↔ isOpen = false := by
  rw [Refuses, Session.send_eq h]
  cases isOpen with
  | false => simp
  | true =>
      have hne : s.send msg ≠ s := fun heq =>
        absurd (congrArg WriteQueue.pushed heq) (Nat.succ_ne_self _)
      simp [hne]

/-- Between coders in step a packet arrives, unless it is refused, exactly if
three bytes count it; it is refused exactly if the socket is closed. -/
theorem arrives_iff (hstep : d'.ingress = d.egress)
    (hkey : d'.macEncKey = d.macEncKey)
    (hgood : Session.checkPacket (.ofBytes msg) = .ok true) :
    Refuses isOpen s msg ∨ Arrives crypto d d' msg ↔
      isOpen = false ∨ msg.length < 2 ^ 24 := by
  refine or_congr (refuses_iff (Session.isPacket_of_checkPacket hgood)) ?_
  constructor
  · intro h
    by_contra hlong
    exact not_arrives_of_le (Nat.not_lt.mp hlong) h
  · exact arrives_of_lt hstep hkey

/-- A packet with an empty list. -/
theorem arrives_iff_short :
    Refuses true { coder := plainCoder } [0x10, 0xc0] ∨
      Arrives plainCrypto plainCoder plainCoder [0x10, 0xc0] :=
  (@arrives_iff plainCrypto plainCoder plainCoder true { coder := plainCoder }
    [0x10, 0xc0] rfl rfl (by decide)).mpr (Or.inr (by decide))

/-- A packet with data of the given size. -/
def dataPacket (n : Nat) : Bytes :=
  0x10 :: RLPTree.encode (.data (List.replicate n 0))

theorem isPacket_dataPacket {n : Nat} (hn : n < 2 ^ 63) :
    Session.IsPacket (dataPacket n) := by
  have hlen := @List.length_replicate Byte n 0
  have hfits : (RLPTree.data (List.replicate n 0)).Fits := by
    have := RLPTree.length_encodeData_le (b := List.replicate n 0) (by omega)
    unfold RLPTree.Fits
    omega
  exact Session.isPacket_cons.mpr ⟨by decide, Session.isItem_encode hfits⟩

theorem length_dataPacket {n : Nat} (hn : 56 ≤ n) :
    (dataPacket n).length = 2 + bytesRequired n + n := by
  have hlen := @List.length_replicate Byte n 0
  rw [dataPacket, List.length_cons, RLPTree.encode, RLPTree.encodeData,
    if_neg (by omega), List.length_append, RLPTree.header, if_neg (by omega),
    List.length_cons, length_bigEndian, hlen]
  omega

/-- A packet of 2 ^ 24 bytes is sent and does not arrive. -/
theorem not_arrives_long :
    Session.checkPacket (.ofBytes (dataPacket 16777211)) = .ok true ∧
      plainCoder.ingress = plainCoder.egress ∧
      ¬ (Refuses true { coder := plainCoder } (dataPacket 16777211) ∨
        Arrives plainCrypto plainCoder plainCoder (dataPacket 16777211)) := by
  have hpacket : Session.IsPacket (dataPacket 16777211) :=
    isPacket_dataPacket (by omega)
  have hlong : 2 ^ 24 ≤ (dataPacket 16777211).length := by
    have hbr : ¬ bytesRequired 16777211 ≤ 2 := by
      rw [bytesRequired_le_iff]
      omega
    rw [length_dataPacket (by omega)]
    omega
  refine ⟨Session.checkPacket_of_isPacket hpacket, rfl, ?_⟩
  rw [not_or, refuses_iff hpacket]
  exact ⟨Bool.noConfusion, not_arrives_of_le hlong⟩

end SessionReader

end Web3Core
