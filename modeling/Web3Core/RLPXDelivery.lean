/-
Packets survive framing: what is queued at one end of a connection, with either
priority and between whatever calls of `mux`, is what the other end gives, the
packets of one priority in their order.
-/
import Web3Core.RLPXTransport

namespace Web3Core

open RLPXFrameWriter WriterState

/-- The elements of two lists, each in its order. -/
inductive Merge {α : Type} : List α → List α → List α → Prop where
  | nil : Merge [] [] []
  | left {xs ys zs : List α} (x : α) (h : Merge xs ys zs) :
      Merge (x :: xs) ys (x :: zs)
  | right {xs ys zs : List α} (y : α) (h : Merge xs ys zs) :
      Merge xs (y :: ys) (y :: zs)

namespace Merge

variable {α : Type} {xs ys zs xs' ys' zs' : List α}

theorem onlyLeft : ∀ xs : List α, Merge xs [] xs
  | [] => .nil
  | x :: xs => .left x (onlyLeft xs)

theorem onlyRight : ∀ ys : List α, Merge [] ys ys
  | [] => .nil
  | y :: ys => .right y (onlyRight ys)

theorem append (h : Merge xs ys zs) (h' : Merge xs' ys' zs') :
    Merge (xs ++ xs') (ys ++ ys') (zs ++ zs') := by
  induction h with
  | nil => exact h'
  | left x _ ih => exact .left x ih
  | right y _ ih => exact .right y ih

end Merge

variable {crypto : Crypto} {w : RLPXFrameWriter} {r : RLPXFrameReader}
  {c c' : RLPXFrameCoder} {m m' : Muxed} {swapQueues : Bool} {allot : Nat}

/-- A frame of a round is read as it was meant. -/
theorem Follows.round (h : Follows w r) {frame : RLPXFrame} {ret : Nat}
    {qs : WriterState} {sid : UInt16} {tag : Bytes} (hmin : 16 ≤ allot)
    (hmax : allot < 2 ^ 63)
    (hreadable : RoundStart.readable ⟨w, swapQueues, allot⟩ = true)
    (hnext : NextFrame w.protocolType allot (w.taken swapQueues) w.sequenceId
      frame ret qs sid) (htag : tag.length = 16) :
    ∃ r', r.accept frame.told (frame.padded ++ tag) =
        (.ok ((w.taken swapQueues).q.take ret), r') ∧
      Follows (w.leave swapQueues qs sid) r' ∧
      qs.q = (w.taken swapQueues).q.drop ret := by
  generalize htaken : w.taken swapQueues = taken at hnext
  cases hnext with
  | whole hpos hle hfit =>
      obtain ⟨r', haccept, hfollows⟩ := @Follows.accept_whole w r swapQueues
        w.sequenceId _ ret _ tag h htaken (by omega) htag
      exact ⟨r', haccept, hfollows, rfl⟩
  | first hfit =>
      obtain ⟨r', haccept, hfollows⟩ := @Follows.accept_first w r swapQueues
        allot (w.sequenceId + 1) _ _ _ tag h htaken hmin hfit hreadable htag _ rfl
      exact ⟨r', haccept, hfollows, rfl⟩
  | middle hr =>
      obtain ⟨r', haccept, hfollows⟩ := @Follows.accept_middle w r swapQueues
        allot w.sequenceId _ _ _ _ tag h htaken hmin hr htag _ rfl
      exact ⟨r', haccept, hfollows, rfl⟩
  | last hr =>
      obtain ⟨r', haccept, hfollows⟩ := @Follows.accept_last w r swapQueues
        w.sequenceId _ _ _ _ tag h htaken htag _ rfl
      exact ⟨r', haccept, hfollows, rfl⟩

/-- A frame arrives at a coder in step with the one that wrote it. -/
theorem receive_sealed {f : RLPXFrame} (hstep : c'.ingress = c.egress)
    (hkey : c'.macEncKey = c.macEncKey) :
    ∃ tag c'', tag.length = 16 ∧ c''.ingress = (f.sealed crypto c).2.egress ∧
      c''.macEncKey = (f.sealed crypto c).2.macEncKey ∧
      ∀ packets r', r.accept f.told (f.padded ++ tag) = (.ok packets, r') →
        r.receive crypto c' (f.sealed crypto c).1 = .ok (packets, r', c'') := by
  have hlength : (c.egress.sealHeader crypto c.macEncKey f.block).length = 32 :=
    FrameStream.length_sealHeader f.length_block
  have hheader := @RLPXFrameCoder.authAndDecryptHeader_seal crypto c' f.block
    f.length_block
  rw [hstep, hkey] at hheader
  have hframe := @RLPXFrameCoder.authAndDecryptFrame_seal crypto
    (c'.setIngress (c.egress.afterHeader crypto c.macEncKey f.block)) f.padded
  rw [RLPXFrameCoder.ingress_setIngress, RLPXFrameCoder.macEncKey_setIngress,
    hkey] at hframe
  have htold : ∀ tag : Bytes,
      RLPXFrameInfo.ofHeader (f.block ++ tag) = .ok f.told := by
    intro tag
    rw [RLPXFrame.block, RLPXFrameCoder.headerBlock_eq f.length_header,
      List.append_assoc]
    exact f.ofHeader_eq_mod _
  refine ⟨RLPXFrameCoder.truncatedFinal crypto
      (f.after crypto c.macEncKey c.egress).mac,
    (c'.setIngress (c.egress.afterHeader crypto c.macEncKey f.block)).setIngress
      (f.after crypto c.macEncKey c.egress),
    RLPXFrameCoder.length_truncatedFinal, rfl, hkey,
    fun packets r' haccept => ?_⟩
  rw [RLPXFrameReader.receive, RLPXFrame.sealed, ← hlength, List.take_left,
    List.drop_left, hheader, ok_bind]
  rw [RLPXFrame.after] at haccept ⊢
  simp only [Bool.not_true, Bool.false_eq_true, ↓reduceIte, htold, ok_bind,
    RLPXFrameReader.demux, hframe, haccept]

/-- The reader and its coder have read all that was written. -/
structure Synced (w : RLPXFrameWriter) (c : RLPXFrameCoder)
    (r : RLPXFrameReader) (c' : RLPXFrameCoder) : Prop where
  follows : Follows w r
  ingress : c'.ingress = c.egress
  key : c'.macEncKey = c.macEncKey

/-- The frames that were written between two states give the packets that left
the queues. -/
def Gives (crypto : Crypto) (m m' : Muxed) (r : RLPXFrameReader)
    (c' : RLPXFrameCoder) : Prop :=
  ∃ bs packets r' c'' high low, m'.toWrite = m.toWrite ++ bs ∧
    RLPXFrameReader.receiveAll crypto bs r c' = .ok (packets, r', c'') ∧
    Synced m'.writer m'.coder r' c'' ∧ Merge high low packets ∧
    m.writer.high.q = high ++ m'.writer.high.q ∧
    m.writer.low.q = low ++ m'.writer.low.q

theorem receiveAll_append {bs bs' : List Bytes} {packets : List RLPXPacket}
    {r' : RLPXFrameReader} {c'' : RLPXFrameCoder}
    (h : RLPXFrameReader.receiveAll crypto bs r c = .ok (packets, r', c'')) :
    RLPXFrameReader.receiveAll crypto (bs ++ bs') r c =
      (RLPXFrameReader.receiveAll crypto bs' r' c'').map fun rest =>
        (packets ++ rest.1, rest.2) := by
  induction bs generalizing r c packets with
  | nil =>
      simp only [RLPXFrameReader.receiveAll, Except.ok.injEq,
        Prod.mk.injEq] at h
      obtain ⟨rfl, rfl, rfl⟩ := h
      cases hrest : RLPXFrameReader.receiveAll crypto bs' r c with
      | error e => simp [hrest, Except.map]
      | ok rest => simp [hrest, Except.map]
  | cons b bs ih =>
      rw [RLPXFrameReader.receiveAll] at h
      cases hhead : r.receive crypto c b with
      | error e => simp [hhead] at h
      | ok head =>
          rw [hhead, ok_bind] at h
          cases htail : RLPXFrameReader.receiveAll crypto bs head.2.1 head.2.2 with
          | error e => simp [htail] at h
          | ok tail =>
              obtain ⟨tailPackets, tailReader, tailCoder⟩ := tail
              rw [htail, ok_bind, Except.ok.injEq, Prod.mk.injEq,
                Prod.mk.injEq] at h
              obtain ⟨rfl, rfl, rfl⟩ := h
              rw [List.cons_append, RLPXFrameReader.receiveAll, hhead, ok_bind,
                ih htail]
              cases RLPXFrameReader.receiveAll crypto bs' tailReader tailCoder with
              | error e => rfl
              | ok rest =>
                  simp only [Except.map, ok_bind, List.append_assoc]

theorem Gives.trans {m'' : Muxed} (h : Gives crypto m m' r c')
    (h' : ∀ r' c'', Synced m'.writer m'.coder r' c'' →
      Gives crypto m' m'' r' c'') : Gives crypto m m'' r c' := by
  obtain ⟨bs, packets, r', c'', high, low, hbs, hreceive, hsynced, hmerge,
    hhigh, hlow⟩ := h
  obtain ⟨bs', packets', r'', c''', high', low', hbs', hreceive', hsynced',
    hmerge', hhigh', hlow'⟩ := h' r' c'' hsynced
  refine ⟨bs ++ bs', packets ++ packets', r'', c''', high ++ high',
    low ++ low', ?_, ?_, hsynced', hmerge.append hmerge', ?_, ?_⟩
  · rw [hbs', hbs, List.append_assoc]
  · rw [receiveAll_append hreceive, hreceive']
    rfl
  · rw [hhigh, hhigh', List.append_assoc]
  · rw [hlow, hlow', List.append_assoc]

/-- The frame of a round gives the packets that it completes. -/
theorem Synced.round {frame : RLPXFrame} (h : Synced m.writer m.coder r c')
    (hmin : 16 ≤ allot) (hmax : allot < 2 ^ 63)
    (hreadable : RoundStart.readable ⟨m.writer, swapQueues, allot⟩ = true)
    (hround : Round crypto swapQueues allot m frame m') :
    Gives crypto m m' r c' := by
  cases hround with
  | @intro ret frame qs sid hnext =>
      obtain ⟨tag, c'', htag, hstep, hkey, hreceive⟩ :=
        @receive_sealed crypto r m.coder c' frame h.ingress h.key
      obtain ⟨r', haccept, hfollows, hq⟩ :=
        h.follows.round hmin hmax hreadable hnext htag
      have hall : RLPXFrameReader.receiveAll crypto
          [(frame.sealed crypto m.coder).1] r c' =
            .ok ((m.writer.taken swapQueues).q.take ret, r', c'') := by
        rw [RLPXFrameReader.receiveAll, hreceive _ _ haccept, ok_bind,
          RLPXFrameReader.receiveAll, ok_bind, List.append_nil]
      have hsplit : (m.writer.taken swapQueues).q =
          (m.writer.taken swapQueues).q.take ret ++ qs.q := by
        rw [hq, List.take_append_drop]
      cases htakes : m.writer.takesHigh swapQueues with
      | true =>
          refine ⟨_, _, _, _, (m.writer.taken swapQueues).q.take ret, [], rfl,
            hall, ⟨hfollows, hstep, hkey⟩, .onlyLeft _, ?_, ?_⟩
          · simp only [RLPXFrameWriter.leave, htakes, ↓reduceIte, ← hsplit]
            rw [taken, htakes, if_pos rfl]
          · simp only [RLPXFrameWriter.leave, htakes, ↓reduceIte,
              List.nil_append]
      | false =>
          refine ⟨_, _, _, _, [], (m.writer.taken swapQueues).q.take ret, rfl,
            hall, ⟨hfollows, hstep, hkey⟩, .onlyRight _, ?_, ?_⟩
          · simp only [RLPXFrameWriter.leave, htakes, Bool.false_eq_true,
              ↓reduceIte, List.nil_append]
          · simp only [RLPXFrameWriter.leave, htakes, Bool.false_eq_true,
              ↓reduceIte, ← hsplit]
            rw [taken, htakes, if_neg Bool.false_ne_true]

theorem RLPXFrameWriter.Rounds.protocolType (h : Rounds crypto m m') :
    m'.writer.protocolType = m.writer.protocolType := by
  induction h with
  | refl => rfl
  | tail _ _ _ hround ih =>
      cases hround with
      | intro _ => exact (protocolType_leave _ _ _ _).trans ih

/-- The frames of a call of `mux` give the packets that it completes. -/
theorem Synced.rounds (h : Synced m.writer m.coder r c')
    (hrounds : Rounds crypto m m')
    (hreadable : ∀ s ∈ m'.rounds, s.readable = true) :
    Gives crypto m m' r c' := by
  induction hrounds with
  | refl =>
      exact ⟨[], [], r, c', [], [], (List.append_nil _).symm, rfl, h, .nil, rfl,
        rfl⟩
  | tail hbefore hmin hmax hround ih =>
      have hstart : _ := hround
      cases hround with
      | intro hnext =>
          refine (ih fun s hs => hreadable s (List.mem_append_left _ hs)).trans
            fun r' c'' hsynced => hsynced.round hmin hmax
              (hreadable _ (List.mem_append_right _ List.mem_cons_self)) hstart

/-- What is done to a writer. -/
inductive WriterEvent where
  | enque (type : UInt8) (payload : RLPStream) (priority : Bool)
  | mux (size : UInt32)

namespace RLPXFrameWriter

/-- A call of `enque`, or one of `mux` that adds to what was written. -/
def Muxed.step (crypto : Crypto) (m : Muxed) :
    WriterEvent → Except Exception Muxed
  | .enque type payload priority => do
      let writer ← m.writer.enque type payload priority
      .ok { m with writer }
  | .mux size => do
      let m' ← m.writer.mux crypto m.coder size.toNat
      .ok { m' with ret := m.ret + m'.ret, frames := m.frames ++ m'.frames,
                    toWrite := m.toWrite ++ m'.toWrite,
                    rounds := m.rounds ++ m'.rounds }

def Muxed.run (crypto : Crypto) (m : Muxed) (events : List WriterEvent) :
    Except Exception Muxed :=
  events.foldlM (Muxed.step crypto) m

end RLPXFrameWriter

namespace WriterEvent

/-- A packet has one item for its data, and the size of a call of `mux` is at
least 128. -/
def Proper : WriterEvent → Prop
  | .enque _ payload _ =>
      ∃ data, payload.out = .ok data ∧ data ≠ [] ∧
        RLPXPacket.isWhole data = true
  | .mux size => 128 ≤ size.toNat

/-- The packet that is queued with a priority. -/
def packet? (capId : UInt8) (priority : Bool) :
    WriterEvent → Option RLPXPacket
  | .enque type payload priority' =>
      if priority' = priority then
        payload.out.toOption.map fun data =>
          ⟨capId, RLPTree.encode (.int type.toNat), data⟩
      else none
  | .mux _ => none

/-- The packets that are queued with a priority. -/
def enqueued (capId : UInt8) (priority : Bool) (events : List WriterEvent) :
    List RLPXPacket :=
  events.filterMap (packet? capId priority)

theorem enqueued_append (capId : UInt8) (priority : Bool)
    (events : List WriterEvent) (event : WriterEvent) :
    enqueued capId priority (events ++ [event]) =
      enqueued capId priority events ++
        (event.packet? capId priority).toList := by
  simp [enqueued, List.filterMap_append, List.filterMap_cons]
  cases event.packet? capId priority <;> rfl

end WriterEvent

theorem RLPXPacket.isWhole_encode {t : RLPTree} (hfits : t.Fits) :
    RLPXPacket.isWhole t.encode = true := by
  have hrep : RLP.Rep { data := .ofBytes t.encode } t :=
    .of_holds hfits (.whole _)
  exact RLPXPacket.isWhole_iff.2 ⟨hrep.ofRef _, hrep.actualSize⟩

/-- A packet of a protocol, made from its type and one item. -/
theorem RLPXPacket.carried {capId type : UInt8} {data : Bytes}
    (hne : data ≠ []) (hwhole : RLPXPacket.isWhole data = true) :
    RLPXPacket.Carried capId
      ⟨capId, RLPTree.encode (.int type.toNat), data⟩ := by
  have htype := length_encode_byte type
  have hfits : (RLPTree.int type.toNat).Fits := by
    rw [RLPTree.Fits]
    omega
  refine ⟨⟨?_, htype.1, htype.2⟩, rfl, hne⟩
  exact (RLPXPacket.isValid_iff (List.ne_nil_of_length_pos htype.1)).2
    ⟨RLPXPacket.isWhole_encode hfits, hwhole⟩

/-- A packet is queued behind those of its priority. -/
theorem Follows.enquePacket (h : Follows w r) {p : RLPXPacket}
    (hp : p.Carried w.protocolType.toUInt8) (priority : Bool) :
    Follows (w.enquePacket p priority) r := by
  have hvalid : (!p.isValid) = false := by rw [hp.sendable.valid]; rfl
  have hprotocol : (w.enquePacket p priority).protocolType =
      w.protocolType := by
    rw [RLPXFrameWriter.enquePacket, hvalid]
    cases priority <;> rfl
  have hqueue : ∀ high, (w.enquePacket p priority).queue high =
      if high = priority then
        { w.queue high with q := (w.queue high).q ++ [p] }
      else w.queue high := by
    intro high
    rw [RLPXFrameWriter.enquePacket, hvalid]
    cases high <;> cases priority <;> rfl
  have hpush : ∀ qs : WriterState, qs.Ok →
      { qs with q := qs.q ++ [p] : WriterState }.sent = qs.sent := by
    intro qs hqs
    cases hqs with
    | idle sequence hq => rfl
    | busy sequence hq hpos hlt => rfl
  have hsent : ∀ high,
      ((w.enquePacket p priority).queue high).sent = (w.queue high).sent := by
    intro high
    rw [hqueue]
    split
    · exact hpush _ (h.ok high)
    · rfl
  refine ⟨hprotocol ▸ h.protocolType, fun high => ?_, fun high p' hp' => ?_,
    fun high => ?_, ?_, fun k v => ?_⟩
  · rw [hqueue]
    split
    · exact (h.ok high).push hp.sendable
    · exact h.ok high
  · rw [hprotocol]
    rw [hqueue] at hp'
    split at hp'
    · rcases List.mem_append.1 hp' with hold | hnew
      · exact h.carried high p' hold
      · exact List.mem_singleton.1 hnew ▸ hp
    · exact h.carried high p' hp'
  · rw [hqueue]
    split
    · exact h.bounded high
    · exact h.bounded high
  · intro v v' hv hv'
    exact h.distinct v v' ((hsent true).symm.trans hv)
      ((hsent false).symm.trans hv')
  · simp only [h.incomplete, hsent]

/-- The packets that the other end has given are those that were queued and
have left their queues, each once and in the order of their priority. -/
def Delivered (crypto : Crypto) (protocolType : UInt16) (c' : RLPXFrameCoder)
    (events : List WriterEvent) (m : Muxed) : Prop :=
  m.writer.protocolType = protocolType ∧ ∃ packets r c'' high low,
    RLPXFrameReader.receiveAll crypto m.toWrite { protocolType } c' =
      .ok (packets, r, c'') ∧
    Synced m.writer m.coder r c'' ∧ Merge high low packets ∧
    WriterEvent.enqueued protocolType.toUInt8 true events =
      high ++ m.writer.high.q ∧
    WriterEvent.enqueued protocolType.toUInt8 false events =
      low ++ m.writer.low.q

namespace Delivered

variable {protocolType : UInt16} {events : List WriterEvent}

/-- A packet is queued. -/
theorem enque (h : Delivered crypto protocolType c' events m) {type : UInt8}
    {payload : RLPStream} {priority : Bool}
    (hproper : (WriterEvent.enque type payload priority).Proper) :
    ∃ w', m.writer.enque type payload priority = .ok w' ∧
      Delivered crypto protocolType c'
        (events ++ [.enque type payload priority]) { m with writer := w' } := by
  obtain ⟨hprotocol, packets, r, c'', high, low, hreceive, hsynced, hmerge,
    hhigh, hlow⟩ := h
  obtain ⟨data, hout, hne, hwhole⟩ := hproper
  obtain ⟨p, hp⟩ : ∃ p : RLPXPacket,
      p = ⟨protocolType.toUInt8, RLPTree.encode (.int type.toNat), data⟩ :=
    ⟨_, rfl⟩
  have hcarried : p.Carried protocolType.toUInt8 :=
    hp ▸ RLPXPacket.carried hne hwhole
  have henque : m.writer.enque type payload priority =
      .ok (m.writer.enquePacket p priority) := by
    rw [enque_eq, hout, hprotocol, hp]
    rfl
  have hpacket : ∀ priority', WriterEvent.packet? protocolType.toUInt8 priority'
      (.enque type payload priority) =
        if priority = priority' then some p else none := by
    intro priority'
    rw [WriterEvent.packet?, hout, hp]
    rfl
  have hvalid : (!p.isValid) = false := by
    rw [hcarried.sendable.valid]
    rfl
  have hfollows := hsynced.follows.enquePacket (hprotocol ▸ hcarried) priority
  refine ⟨_, henque, ?_, packets, r, c'', high, low, hreceive,
    ⟨hfollows, hsynced.ingress, hsynced.key⟩, hmerge, ?_, ?_⟩
  · rw [← hprotocol, RLPXFrameWriter.enquePacket, hvalid]
    cases priority <;> rfl
  · rw [WriterEvent.enqueued_append, hpacket, hhigh, List.append_assoc,
      RLPXFrameWriter.enquePacket, hvalid]
    cases priority with
    | true => rfl
    | false =>
        rw [if_neg Bool.false_ne_true]
        exact congrArg (high ++ ·) (List.append_nil _)
  · rw [WriterEvent.enqueued_append, hpacket, hlow, List.append_assoc,
      RLPXFrameWriter.enquePacket, hvalid]
    cases priority with
    | true =>
        rw [if_neg Bool.false_ne_true.symm]
        exact congrArg (low ++ ·) (List.append_nil _)
    | false => rfl

/-- Frames are made. -/
theorem mux (h : Delivered crypto protocolType c' events m) {size : UInt32}
    {m' : Muxed} (hrounds : Rounds crypto { writer := m.writer, coder := m.coder } m')
    (hreadable : ∀ s ∈ m'.rounds, s.readable = true) :
    Delivered crypto protocolType c' (events ++ [.mux size])
      { m' with ret := m.ret + m'.ret, frames := m.frames ++ m'.frames,
                toWrite := m.toWrite ++ m'.toWrite,
                rounds := m.rounds ++ m'.rounds } := by
  obtain ⟨hprotocol, packets, r, c'', high, low, hreceive, hsynced, hmerge,
    hhigh, hlow⟩ := h
  obtain ⟨bs, packets', r', c''', high', low', hbs, hreceive', hsynced',
    hmerge', hhigh', hlow'⟩ := Synced.rounds (m := ⟨m.writer, m.coder, 0, [], [], []⟩)
      hsynced hrounds hreadable
  have hhighAll : m.writer.high.q = high' ++ m'.writer.high.q := hhigh'
  have hlowAll : m.writer.low.q = low' ++ m'.writer.low.q := hlow'
  refine ⟨?_, packets ++ packets', r', c''', high ++ high', low ++ low', ?_,
    hsynced', hmerge.append hmerge', ?_, ?_⟩
  · rw [← hprotocol]
    exact hrounds.protocolType
  · have hbytes : m'.toWrite = bs := hbs.trans (List.nil_append bs)
    rw [receiveAll_append hreceive, hbytes, hreceive']
    rfl
  · simp only [WriterEvent.enqueued_append, WriterEvent.packet?,
      Option.toList_none, List.append_nil, hhigh, hhighAll, List.append_assoc]
  · simp only [WriterEvent.enqueued_append, WriterEvent.packet?,
      Option.toList_none, List.append_nil, hlow, hlowAll, List.append_assoc]

end Delivered

/-- Nothing was written yet. -/
theorem delivered_nil {protocolType : UInt16} (hstep : c'.ingress = c.egress)
    (hkey : c'.macEncKey = c.macEncKey) :
    Delivered crypto protocolType c' []
      { writer := { protocolType }, coder := c } := by
  have hidle : ∀ high, ({ protocolType : RLPXFrameWriter }).queue high =
      idle [] 0xffff := by
    intro high
    cases high <;> rfl
  have hno : ∀ p : RLPXPacket, p ∉ ([] : List RLPXPacket) :=
    fun p => List.not_mem_nil
  refine ⟨rfl, [], { protocolType }, c', [], [], rfl, ⟨?_, hstep, hkey⟩, .nil,
    rfl, rfl⟩
  refine ⟨rfl, fun high => ?_, fun high p hp => ?_, fun high => ?_,
    fun v v' hv => (by cases hv), fun k v => ?_⟩
  · rw [hidle]
    exact .idle _ fun p hp => absurd hp (hno p)
  · rw [hidle] at hp
    exact absurd hp (hno p)
  · rw [hidle]
    exact Nat.two_pow_pos 32
  · simp [hidle]

/-- Every run of a writer goes through; and what is read of its frames is what
was queued, if every frame is read as it was meant. -/
theorem exists_run {protocolType : UInt16} (hstep : c'.ingress = c.egress)
    (hkey : c'.macEncKey = c.macEncKey) {events : List WriterEvent}
    (hproper : ∀ e ∈ events, e.Proper) :
    ∃ m, Muxed.run crypto { writer := { protocolType }, coder := c } events =
        .ok m ∧ m.writer.Ok ∧
      ((∀ s ∈ m.rounds, s.readable = true) →
        Delivered crypto protocolType c' events m) := by
  induction events using List.reverseRecOn with
  | nil =>
      have hok : ({ protocolType : RLPXFrameWriter }).Ok :=
        ⟨.idle _ fun p hp => absurd hp List.not_mem_nil,
          .idle _ fun p hp => absurd hp List.not_mem_nil⟩
      exact ⟨_, rfl, hok, fun _ => delivered_nil hstep hkey⟩
  | append_singleton events event ih =>
      obtain ⟨m, hrun, hok, hdelivered⟩ :=
        ih fun e he => hproper e (List.mem_append_left _ he)
      have hevent := hproper event (List.mem_append_right _ List.mem_cons_self)
      have hsplit : Muxed.run crypto { writer := { protocolType }, coder := c }
          (events ++ [event]) =
            Muxed.run crypto { writer := { protocolType }, coder := c } events >>=
              fun m => m.step crypto event := by
        simp only [Muxed.run, List.foldlM_append, List.foldlM_cons,
          List.foldlM_nil, bind_pure]
      rw [hsplit, hrun, ok_bind]
      cases event with
      | enque type payload priority =>
          obtain ⟨data, hout, -⟩ := hevent
          have henque := m.writer.enque_eq type payload priority
          rw [hout] at henque
          refine ⟨{ m with
            writer := m.writer.enquePacket ⟨m.writer.protocolType.toUInt8,
              RLPTree.encode (.int type.toNat), data⟩ priority }, ?_,
            hok.enquePacket (length_encode_byte type) priority,
            fun hreadable => ?_⟩
          · rw [Muxed.step, henque]
            rfl
          · obtain ⟨w', hw', hdelivered'⟩ := (hdelivered hreadable).enque
              (hproper _ (List.mem_append_right _ List.mem_cons_self))
            rw [henque] at hw'
            cases hw'
            exact hdelivered'
      | mux size =>
          have hlt := size.toNat_lt
          obtain ⟨m', hmux, hrounds⟩ := @exists_mux crypto m.writer m.coder
            size.toNat hok (by omega) (.inr (.inr hevent))
          have hmuxed : m.step crypto (.mux size) =
              .ok { m' with ret := m.ret + m'.ret, frames := m.frames ++ m'.frames,
                            toWrite := m.toWrite ++ m'.toWrite,
                            rounds := m.rounds ++ m'.rounds } := by
            rw [Muxed.step, hmux]
            rfl
          refine ⟨_, hmuxed, hrounds.ok hok, fun hreadable => ?_⟩
          exact (hdelivered fun s hs =>
            hreadable s (List.mem_append_left _ hs)).mux hrounds
              fun s hs => hreadable s (List.mem_append_right _ hs)

end Web3Core
