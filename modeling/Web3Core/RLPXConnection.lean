/-
Two endpoints of an RLPx connection.  Both coders are set up from one key
exchange; each side writes frames and reads those of the other.  A direction
is in step when what is under way was sealed from the state the reader is in
and leads to the state the writer is in; every write and every read keeps it
so.
-/
import Web3Core.RLPXFrames
import Mathlib.Logic.Function.Basic

namespace Web3Core

/-- The two ends of a connection. -/
inductive Side where
  | initiator
  | recipient
deriving DecidableEq

namespace Side

def other : Side → Side
  | .initiator => .recipient
  | .recipient => .initiator

@[simp] theorem other_other (s : Side) : s.other.other = s := by
  cases s <;> rfl

@[simp] theorem other_ne (s : Side) : s.other ≠ s := by
  cases s <;> decide

@[simp] theorem ne_other (s : Side) : s ≠ s.other := (other_ne s).symm

theorem eq_or_eq_other (r s : Side) : r = s ∨ r = s.other := by
  cases r <;> cases s <;> decide

end Side

/-- What the two sides of one handshake know: their ephemeral keys and nonces,
and the two messages that went over the wire. -/
structure KeyExchange where
  ecdhe : Side → ECDHE
  nonce : Side → H256
  authCipher : Bytes
  ackCipher : Bytes

/-- The coder of a side, from its own keys and what it was told. -/
def KeyExchange.setup (crypto : Crypto) (k : KeyExchange) (s : Side) :
    Except Exception RLPXFrameCoder :=
  RLPXFrameCoder.setup crypto (s = .initiator) (k.ecdhe s.other).pub
    (k.nonce s.other) (k.ecdhe s) (k.nonce s) k.ackCipher k.authCipher

/-- A side: its coder, the bytes that have come in, the header of the frame to
be read next once it was read, and the headers and frames read so far. -/
structure Endpoint where
  coder : RLPXFrameCoder
  incoming : Bytes := []
  header : Option RLPXFrameInfo := none
  headers : List RLPXFrameInfo := []
  frames : List Bytes := []

namespace Endpoint

variable (crypto : Crypto)

/-- Read the 32 bytes of a header. -/
def readHeader (e : Endpoint) : Except Exception Endpoint :=
  if e.header.isSome || e.incoming.length < 32 then .error .outOfRange
  else do
    let r ← e.coder.authAndDecryptHeader crypto (e.incoming.take 32)
    if r.1 then do
      let info ← RLPXFrameInfo.ofHeader r.2.1
      .ok { e with coder := r.2.2, incoming := e.incoming.drop 32,
                   header := some info, headers := e.headers ++ [info] }
    else .error .rlpxFrameDecryptFailed

/-- Read the payload with its padding and the tag. -/
def readFrame (e : Endpoint) : Except Exception Endpoint :=
  match e.header with
  | none => .error .outOfRange
  | some info =>
      let size := info.length + info.padding
      if e.incoming.length < size + 16 then .error .outOfRange
      else do
        let r ← e.coder.authAndDecryptFrame crypto
          (e.incoming.take (size + 16))
        if r.1 then
          .ok { e with coder := r.2.2, incoming := e.incoming.drop (size + 16),
                       header := none,
                       frames := e.frames ++ [r.2.1.take size] }
        else .error .rlpxFrameDecryptFailed

end Endpoint

/-- What happens on a connection. -/
inductive ConnectionEvent where
  | write (s : Side) (frame : RLPXFrame)
  | readHeader (s : Side)
  | readFrame (s : Side)
deriving DecidableEq

abbrev Connection := Side → Endpoint

namespace Connection

variable (crypto : Crypto)

def step (conn : Connection) : ConnectionEvent → Except Exception Connection
  | .write s frame => do
      let r ← frame.write crypto (conn s).coder
      let reader := conn s.other
      .ok (Function.update
        (Function.update conn s { conn s with coder := r.2 }) s.other
        { reader with incoming := reader.incoming ++ r.1 })
  | .readHeader s => do
      let e ← (conn s).readHeader crypto
      .ok (Function.update conn s e)
  | .readFrame s => do
      let e ← (conn s).readFrame crypto
      .ok (Function.update conn s e)

/-- Both coders are set up. -/
def start (k : KeyExchange) : Except Exception Connection := do
  let initiator ← k.setup crypto .initiator
  let recipient ← k.setup crypto .recipient
  .ok fun
    | .initiator => { coder := initiator }
    | .recipient => { coder := recipient }

def run (k : KeyExchange) (events : List ConnectionEvent) :
    Except Exception Connection := do
  let conn ← start crypto k
  events.foldlM (step crypto) conn

end Connection

namespace ConnectionEvent

/-- The frame that a side writes. -/
def sent? (s : Side) : ConnectionEvent → Option RLPXFrame
  | .write s' frame => if s' = s then some frame else none
  | .readHeader _ => none
  | .readFrame _ => none

/-- The frames that a side writes. -/
def sent (s : Side) (events : List ConnectionEvent) : List RLPXFrame :=
  events.filterMap (sent? s)

/-- Headers are read of frames that were written, and each frame is read after
its header and before the next one. -/
def InOrder (events : List ConnectionEvent) : Prop :=
  ∀ pre, pre <+: events → ∀ s,
    pre.count (.readFrame s) ≤ pre.count (.readHeader s) ∧
      pre.count (.readHeader s) ≤ pre.count (.readFrame s) + 1 ∧
      pre.count (.readHeader s) ≤ (sent s.other pre).length

variable {events pre : List ConnectionEvent} {event : ConnectionEvent}

theorem InOrder.of_prefix (h : InOrder events) (hpre : pre <+: events) :
    InOrder pre :=
  fun pre' hpre' => h pre' (hpre'.trans hpre)

theorem sent_append (s : Side) :
    sent s (events ++ [event]) =
      sent s events ++ (event.sent? s).toList := by
  simp [sent, List.filterMap_append, List.filterMap_cons]
  cases event.sent? s <;> rfl

end ConnectionEvent

variable {crypto : Crypto}

section Setup

variable {a b c : Bytes}

/-- A copy over the front of a buffer. -/
theorem copyTo_front (h : b.length = a.length) {n : Nat} (hn : b.length ≤ n) :
    copyTo b (a ++ c) 0 n = b ++ c := by
  rw [copyTo, List.take_zero, List.nil_append, List.take_of_length_le hn,
    Nat.zero_add, Nat.min_eq_left hn, h, List.drop_left]

/-- A copy over the back of a buffer. -/
theorem copyTo_back {p : Nat} (hp : a.length = p) (h : b.length = c.length) :
    copyTo b (a ++ c) p b.length = a ++ b := by
  subst hp
  rw [copyTo, List.take_left, List.take_length, Nat.min_self,
    List.drop_eq_nil_of_le (by rw [List.length_append]; omega),
    List.append_nil]

/-- A copy over the middle of a buffer. -/
theorem copyTo_middle {d : Bytes} {p n : Nat} (hp : a.length = p)
    (hb : b.length = n) (hc : c.length = n) :
    copyTo b (a ++ (c ++ d)) p n = a ++ (b ++ d) := by
  subst hp hb
  rw [copyTo, List.take_left, List.take_length, Nat.min_self, ← List.drop_drop,
    List.drop_left, ← hc, List.drop_left, List.append_assoc]

/-- A buffer is cut or lengthened behind its first bytes, and what is behind
them is then copied over. -/
theorem copyTo_resize {p : Nat} (hp : a.length = p) :
    copyTo b (resize (a ++ c) (p + b.length)) p b.length = a ++ b := by
  obtain ⟨d, hd, hlen⟩ : ∃ d, resize (a ++ c) (p + b.length) = a ++ d ∧
      b.length = d.length := by
    subst hp
    refine ⟨c.take b.length ++ List.replicate (b.length - c.length) 0, ?_, ?_⟩
    · rw [resize, List.take_length_add_append, List.length_append,
        List.append_assoc]
      congr 3
      omega
    · rw [List.length_append, List.length_take, List.length_replicate]
      omega
  rw [hd, copyTo_back hp hlen]

theorem length_xorBytes : (xorBytes a b).length = min a.length b.length := by
  rw [xorBytes, List.length_zipWith]

theorem xorBytes_xorBytes (h : a.length ≤ b.length) :
    xorBytes (xorBytes a b) b = a := by
  induction a generalizing b with
  | nil => rfl
  | cons x a ih =>
      cases b with
      | nil => simp at h
      | cons y b =>
          have hx : x ^^^ y ^^^ y = x := by
            rw [UInt8.xor_assoc, UInt8.xor_self, UInt8.xor_zero]
          have hrest := ih (by simpa using h)
          simp only [xorBytes, List.zipWith_cons_cons] at hrest ⊢
          rw [hx, hrest]

/-- The coder that a side gets: `left` and `right` are the nonces in the order
in which they are hashed. -/
def established (crypto : Crypto) (shared left right remote own : H256)
    (egressCipher ingressCipher : Bytes) : RLPXFrameCoder :=
  let nonces := crypto.sha3 (left.data ++ right.data)
  let secret := crypto.sha3 (shared.data ++ nonces.data)
  let aes := crypto.sha3 (shared.data ++ secret.data)
  let mac := crypto.sha3 (shared.data ++ aes.data)
  { frameEnc := ⟨aes.data, 0⟩, frameDec := ⟨aes.data, 0⟩,
    macEncKey := mac.data,
    egressMac := xorBytes mac.data remote.data ++ egressCipher,
    ingressMac := xorBytes mac.data own.data ++ ingressCipher }

/-- The one buffer of `setup` holds what it should at every point. -/
theorem setup_eq {originated : Bool} {remoteEphemeral : H512}
    {remoteNonce nonce : H256} {ecdhe : ECDHE} {ackCipher authCipher : Bytes}
    (hfresh : ecdhe.remoteEphemeral.isSet = false) :
    RLPXFrameCoder.setup crypto originated remoteEphemeral remoteNonce ecdhe
        nonce ackCipher authCipher =
      .ok (established crypto (crypto.agree ecdhe.sec remoteEphemeral)
        (if originated then remoteNonce else nonce)
        (if originated then nonce else remoteNonce) remoteNonce nonce
        (if originated then authCipher else ackCipher)
        (if originated then ackCipher else authCipher)) := by
  have hagree : ecdhe.agree crypto remoteEphemeral =
      .ok (crypto.agree ecdhe.sec remoteEphemeral,
        { ecdhe with remoteEphemeral }) := by
    rw [ECDHE.agree, hfresh]
    rfl
  have hzero : (List.replicate 64 0 : Bytes) =
      List.replicate 32 0 ++ List.replicate 32 0 := rfl
  have hfront : ∀ (x : H256) (c : Bytes),
      copyTo x.data (List.replicate 32 0 ++ c) 0 32 = x.data ++ c :=
    fun x c => copyTo_front (x.size_data.trans List.length_replicate.symm)
      x.size_data.le
  have hback : ∀ (x y : H256) (c : Bytes), c.length = 32 →
      copyTo y.data (x.data ++ c) 32 32 = x.data ++ y.data := by
    intro x y c hc
    have h := copyTo_back (a := x.data) (b := y.data) (c := c) x.size_data
      (y.size_data.trans hc.symm)
    rwa [y.size_data] at h
  have hdrop : ∀ x y : H256, ((x.data ++ y.data).drop 32).take 32 = y.data := by
    intro x y
    have h : (x.data ++ y.data).drop x.data.length = y.data := List.drop_left
    rw [x.size_data] at h
    rw [h, List.take_of_length_le y.size_data.le]
  have hxor : ∀ x y : H256, (xorBytes x.data y.data).length = 32 := by
    intro x y
    rw [length_xorBytes, x.size_data, y.size_data]
    rfl
  have hmask : ∀ (x y : H256) (a c : Bytes), a.length = 32 →
      copyTo (xorBytes x.data y.data) (a ++ c) 0 (a ++ c).length =
        xorBytes x.data y.data ++ c := by
    intro x y a c ha
    exact copyTo_front ((hxor x y).trans ha.symm)
      (by rw [hxor, List.length_append, ha]; omega)
  have hresize : ∀ (x y : H256) (b c : Bytes),
      copyTo b (resize (xorBytes x.data y.data ++ c) (32 + b.length)) 32
          b.length = xorBytes x.data y.data ++ b :=
    fun x y b c => copyTo_resize (hxor x y)
  have htake : ∀ (x y : H256) (c : Bytes),
      (xorBytes x.data y.data ++ c).take 32 = xorBytes x.data y.data := by
    intro x y c
    have h : (xorBytes x.data y.data ++ c).take
        (xorBytes x.data y.data).length = xorBytes x.data y.data :=
      List.take_left
    rwa [hxor] at h
  have hcancel : ∀ x y : H256,
      xorBytes (xorBytes x.data y.data) y.data = x.data := by
    intro x y
    exact xorBytes_xorBytes (by rw [x.size_data, y.size_data])
  simp only [RLPXFrameCoder.setup, hagree, ok_bind, pure_eq_ok, hzero, hfront,
    hback _ _ _ List.length_replicate, hback _ _ _ (FixedHash.size_data _),
    hdrop, hmask _ _ _ _ (FixedHash.size_data _), hmask _ _ _ _ (hxor _ _),
    hresize, htake, hcancel]
  rfl

/-- The coders of the two sides mirror each other. -/
theorem KeyExchange.exists_setup {k : KeyExchange}
    (hfresh : ∀ s, (k.ecdhe s).remoteEphemeral.isSet = false)
    (hagree : crypto.agree (k.ecdhe .initiator).sec (k.ecdhe .recipient).pub =
      crypto.agree (k.ecdhe .recipient).sec (k.ecdhe .initiator).pub) :
    ∃ a b, k.setup crypto .initiator = .ok a ∧
      k.setup crypto .recipient = .ok b ∧ a.macEncKey = b.macEncKey ∧
      a.ingress = b.egress ∧ b.ingress = a.egress := by
  have hinitiator : k.setup crypto .initiator = .ok (established crypto
      (crypto.agree (k.ecdhe .initiator).sec (k.ecdhe .recipient).pub)
      (k.nonce .recipient) (k.nonce .initiator) (k.nonce .recipient)
      (k.nonce .initiator) k.authCipher k.ackCipher) :=
    setup_eq (hfresh .initiator)
  have hrecipient : k.setup crypto .recipient = .ok (established crypto
      (crypto.agree (k.ecdhe .recipient).sec (k.ecdhe .initiator).pub)
      (k.nonce .recipient) (k.nonce .initiator) (k.nonce .initiator)
      (k.nonce .recipient) k.ackCipher k.authCipher) :=
    setup_eq (hfresh .recipient)
  rw [← hagree] at hrecipient
  exact ⟨_, _, hinitiator, hrecipient, rfl, rfl, rfl⟩

end Setup

section Direction

variable {key b b' : Bytes} {d d' : FrameStream} {f : RLPXFrame}
  {fs : List RLPXFrame}

/-- The header of a frame as it goes into the cipher. -/
def RLPXFrame.block (f : RLPXFrame) : Bytes :=
  RLPXFrameCoder.headerBlock f.header

/-- The payload of a frame with its padding. -/
def RLPXFrame.padded (f : RLPXFrame) : Bytes := RLPXFrameCoder.pad f.payload

/-- The direction after a frame. -/
def RLPXFrame.after (crypto : Crypto) (key : Bytes) (d : FrameStream)
    (f : RLPXFrame) : FrameStream :=
  (d.afterHeader crypto key f.block).afterFrame crypto key f.padded

/-- The bytes `b` are the frames `fs`, sealed one after the other from the
state `d` on, up to the state `d'`. -/
inductive Carries (crypto : Crypto) (key : Bytes) :
    FrameStream → Bytes → List RLPXFrame → FrameStream → Prop
  | nil (d : FrameStream) : Carries crypto key d [] [] d
  | cons {d d' : FrameStream} {b : Bytes} (f : RLPXFrame)
      {fs : List RLPXFrame} (h : Carries crypto key (f.after crypto key d) b fs d') :
      Carries crypto key d
        (d.sealHeader crypto key f.block ++
          ((d.afterHeader crypto key f.block).sealFrame crypto key f.padded ++ b))
        (f :: fs) d'

/-- One more frame is sealed. -/
theorem Carries.concat (h : Carries crypto key d b fs d') (f : RLPXFrame) :
    Carries crypto key d
      (b ++ (d'.sealHeader crypto key f.block ++
        (d'.afterHeader crypto key f.block).sealFrame crypto key f.padded))
      (fs ++ [f]) (f.after crypto key d') := by
  induction h with
  | nil d =>
      have hlast := @Carries.cons crypto key d _ _ f _
        (.nil (f.after crypto key d))
      rwa [List.append_nil] at hlast
  | cons f' h ih =>
      rw [List.append_assoc, List.append_assoc]
      exact .cons f' ih

/-- What the calls for writing a frame do. -/
theorem RLPXFrame.write_eq_seal (f : RLPXFrame) (c : RLPXFrameCoder) :
    f.write crypto c =
      .ok (c.egress.sealHeader crypto c.macEncKey f.block ++
          (c.egress.afterHeader crypto c.macEncKey f.block).sealFrame crypto
            c.macEncKey f.padded,
        c.setEgress (f.after crypto c.macEncKey c.egress)) := by
  rw [f.write_eq, RLPXFrameCoder.writeFrameWith_eq f.out_header f.length_header]
  rfl

theorem RLPXFrame.length_block (f : RLPXFrame) : f.block.length = 16 :=
  RLPXFrameCoder.length_headerBlock f.length_header

theorem FrameStream.length_sealHeader (h : b.length = 16) :
    (d.sealHeader crypto key b).length = 32 := by
  rw [FrameStream.sealHeader, List.length_append, CTRMode.length_processData, h,
    RLPXFrameCoder.length_truncatedFinal]

theorem FrameStream.length_sealFrame :
    (d.sealFrame crypto key b).length = b.length + 16 := by
  rw [FrameStream.sealFrame, List.length_append, CTRMode.length_processData,
    RLPXFrameCoder.length_truncatedFinal]

theorem RLPXFrame.length_padded (f : RLPXFrame) :
    f.padded.length = f.info.length + f.info.padding := by
  rw [RLPXFrame.padded, RLPXFrameCoder.pad, List.length_append,
    List.length_replicate]
  rfl

/-- A direction in step: `n` headers and `m` frames of those that were written
have been read. -/
structure InStep (crypto : Crypto) (key : Bytes) (reader writer : Endpoint)
    (fs : List RLPXFrame) (n m : Nat) : Prop where
  readerKey : reader.coder.macEncKey = key
  writerKey : writer.coder.macEncKey = key
  headers : reader.headers = (fs.take n).map RLPXFrame.info
  frames : reader.frames = (fs.take m).map RLPXFrame.padded
  state : (n = m ∧ reader.header = none ∧
      Carries crypto key reader.coder.ingress reader.incoming (fs.drop m)
        writer.coder.egress) ∨
    (n = m + 1 ∧ ∃ f b, fs[m]? = some f ∧ reader.header = some f.info ∧
      reader.incoming =
        reader.coder.ingress.sealFrame crypto key f.padded ++ b ∧
      Carries crypto key (reader.coder.ingress.afterFrame crypto key f.padded) b
        (fs.drop (m + 1)) writer.coder.egress)

namespace InStep

variable {reader writer reader' writer' : Endpoint} {n m : Nat}

/-- What the two ends do in the other direction does not matter. -/
theorem congr (h : InStep crypto key reader writer fs n m)
    (hcoder : reader'.coder.ingress = reader.coder.ingress)
    (hkey : reader'.coder.macEncKey = reader.coder.macEncKey)
    (hincoming : reader'.incoming = reader.incoming)
    (hheader : reader'.header = reader.header)
    (hheaders : reader'.headers = reader.headers)
    (hframes : reader'.frames = reader.frames)
    (hegress : writer'.coder.egress = writer.coder.egress)
    (hkey' : writer'.coder.macEncKey = writer.coder.macEncKey) :
    InStep crypto key reader' writer' fs n m := by
  obtain ⟨hreader, hwriter, hheads, hfs, hstate⟩ := h
  refine ⟨hkey.trans hreader, hkey'.trans hwriter, hheaders.trans hheads,
    hframes.trans hfs, ?_⟩
  rwa [hcoder, hincoming, hheader, hegress]

/-- The writer writes a frame. -/
theorem write (h : InStep crypto key reader writer fs n m)
    (hn : n ≤ fs.length) (hm : m ≤ fs.length) (f : RLPXFrame) :
    ∃ b c, f.write crypto writer.coder = .ok (b, c) ∧
      c.ingress = writer.coder.ingress ∧
      c.macEncKey = writer.coder.macEncKey ∧
      InStep crypto key { reader with incoming := reader.incoming ++ b }
        { writer with coder := c } (fs ++ [f]) n m := by
  have hwrite := @RLPXFrame.write_eq_seal crypto f writer.coder
  rw [h.writerKey] at hwrite
  refine ⟨_, _, hwrite, rfl, rfl, h.readerKey, h.writerKey, ?_, ?_, ?_⟩
  · rw [List.take_append_of_le_length hn]
    exact h.headers
  · rw [List.take_append_of_le_length hm]
    exact h.frames
  · rcases h.state with ⟨hnm, hheader, hcarries⟩ |
      ⟨hnm, f', b, hf', hheader, hincoming, hcarries⟩
    · refine .inl ⟨hnm, hheader, ?_⟩
      rw [List.drop_append_of_le_length hm]
      exact hcarries.concat f
    · have hlt := (List.getElem?_eq_some_iff.1 hf').1
      have hmore := hcarries.concat f
      rw [← List.drop_append_of_le_length hlt] at hmore
      refine .inr ⟨hnm, f', _, ?_, hheader, ?_, hmore⟩
      · rw [List.getElem?_append_left hlt, hf']
      · simp only [hincoming, List.append_assoc]

/-- The header of a frame lies in the first 16 bytes. -/
theorem ofHeader_block (f : RLPXFrame) (hshort : f.payload.length < 2 ^ 24)
    (tag : Bytes) :
    RLPXFrameInfo.ofHeader (f.block ++ tag) = .ok f.info := by
  rw [RLPXFrame.block, RLPXFrameCoder.headerBlock_eq f.length_header,
    List.append_assoc]
  exact f.ofHeader_eq hshort _

/-- The reader reads the header of the next frame. -/
theorem readHeader (h : InStep crypto key reader writer fs n n)
    (hlt : n < fs.length)
    (hshort : ∀ f ∈ fs, f.payload.length < 2 ^ 24) :
    ∃ e, reader.readHeader crypto = .ok e ∧
      e.coder.egress = reader.coder.egress ∧
      e.coder.macEncKey = reader.coder.macEncKey ∧
      InStep crypto key e writer fs (n + 1) n := by
  rcases h.state with ⟨-, hheader, hcarries⟩ | ⟨hnm, -⟩
  · rw [List.drop_eq_getElem_cons hlt] at hcarries
    generalize hincoming : reader.incoming = incoming at hcarries
    generalize hstart : reader.coder.ingress = start at hcarries
    generalize hend : writer.coder.egress = last at hcarries
    generalize hf : fs[n] = f at hcarries
    cases hcarries with
    | @cons _ _ b _ _ hrest =>
        have hmem : f ∈ fs := hf ▸ List.getElem_mem hlt
        have hsize : (start.sealHeader crypto key f.block).length = 32 :=
          FrameStream.length_sealHeader f.length_block
        have hauth := @RLPXFrameCoder.authAndDecryptHeader_seal crypto
          reader.coder f.block f.length_block
        rw [h.readerKey, hstart] at hauth
        have hinfo := ofHeader_block f (hshort f hmem)
        have hlong : ¬ reader.incoming.length < 32 := by
          rw [hincoming, List.length_append, hsize]
          omega
        have hcond : (reader.header.isSome ||
            decide (reader.incoming.length < 32)) = false := by
          rw [hheader, decide_eq_false hlong]
          rfl
        have htake : reader.incoming.take 32 =
            start.sealHeader crypto key f.block := by
          rw [hincoming, ← hsize, List.take_left]
        have hdrop : reader.incoming.drop 32 =
            (start.afterHeader crypto key f.block).sealFrame crypto key
              f.padded ++ b := by
          rw [hincoming, ← hsize, List.drop_left]
        rw [Endpoint.readHeader, hcond, htake, hauth, hdrop]
        simp only [Bool.false_eq_true, ↓reduceIte, ok_bind, hinfo]
        refine ⟨_, rfl, rfl, rfl, h.readerKey, h.writerKey, ?_, h.frames, ?_⟩
        · rw [h.headers, List.take_add_one, List.getElem?_eq_getElem hlt, hf,
            List.map_append]
          rfl
        · refine .inr ⟨rfl, f, b, ?_, rfl, rfl, ?_⟩
          · rw [List.getElem?_eq_getElem hlt, hf]
          · exact hend ▸ hrest
  · omega

/-- The reader reads the frame whose header it has read. -/
theorem readFrame (h : InStep crypto key reader writer fs (m + 1) m) :
    ∃ e, reader.readFrame crypto = .ok e ∧
      e.coder.egress = reader.coder.egress ∧
      e.coder.macEncKey = reader.coder.macEncKey ∧
      InStep crypto key e writer fs (m + 1) (m + 1) := by
  rcases h.state with ⟨hnm, -⟩ |
    ⟨-, f, b, hf, hheader, hincoming, hcarries⟩
  · omega
  · have hauth := @RLPXFrameCoder.authAndDecryptFrame_seal crypto reader.coder
      f.padded
    rw [h.readerKey] at hauth
    have hsize : (reader.coder.ingress.sealFrame crypto key f.padded).length =
        f.info.length + f.info.padding + 16 := by
      rw [FrameStream.length_sealFrame, f.length_padded]
    have hlong : ¬ reader.incoming.length <
        f.info.length + f.info.padding + 16 := by
      rw [hincoming, List.length_append, hsize]
      omega
    have htake : reader.incoming.take (f.info.length + f.info.padding + 16) =
        reader.coder.ingress.sealFrame crypto key f.padded := by
      rw [hincoming, ← hsize, List.take_left]
    have hdrop : reader.incoming.drop (f.info.length + f.info.padding + 16) =
        b := by
      rw [hincoming, ← hsize, List.drop_left]
    have hframe : ∀ tag : Bytes, (f.padded ++ tag).take
        (f.info.length + f.info.padding) = f.padded := by
      intro tag
      rw [← f.length_padded, List.take_left]
    simp only [Endpoint.readFrame, hheader, if_neg hlong, htake, hauth, hdrop,
      ok_bind, ↓reduceIte, hframe]
    refine ⟨_, rfl, rfl, rfl, h.readerKey, h.writerKey, h.headers, ?_, ?_⟩
    · rw [h.frames, List.take_add_one, hf, List.map_append]
      rfl
    · exact .inl ⟨rfl, rfl, hcarries⟩

end InStep

end Direction

open ConnectionEvent

namespace Connection

variable {key : Bytes} {conn : Connection} {events : List ConnectionEvent}

/-- Both directions are in step after the events. -/
def Synchronised (crypto : Crypto) (key : Bytes) (conn : Connection)
    (events : List ConnectionEvent) : Prop :=
  ∀ s, InStep crypto key (conn s) (conn s.other) (sent s.other events)
    (events.count (.readHeader s)) (events.count (.readFrame s))

/-- A side that reads is in step with the other one again, and what it writes
stays as it is. -/
theorem Synchronised.read (h : Synchronised crypto key conn events) {s : Side}
    {event : ConnectionEvent} {e : Endpoint}
    (hsame : ∀ r, sent r (events ++ [event]) = sent r events)
    (hheaders : (events ++ [event]).count (.readHeader s.other) =
      events.count (.readHeader s.other))
    (hframes : (events ++ [event]).count (.readFrame s.other) =
      events.count (.readFrame s.other))
    (hegress : e.coder.egress = (conn s).coder.egress)
    (hkey : e.coder.macEncKey = (conn s).coder.macEncKey)
    (hstep : InStep crypto key e (conn s.other) (sent s.other events)
      ((events ++ [event]).count (.readHeader s))
      ((events ++ [event]).count (.readFrame s))) :
    Synchronised crypto key (Function.update conn s e) (events ++ [event]) := by
  intro r
  rw [hsame]
  rcases Side.eq_or_eq_other r s with rfl | rfl
  · rw [Function.update_self, Function.update_of_ne (Side.other_ne r)]
    exact hstep
  · have hother := h s.other
    rw [Side.other_other] at hother
    rw [Side.other_other, hheaders, hframes, Function.update_self,
      Function.update_of_ne (Side.other_ne s)]
    exact hother.congr rfl rfl rfl rfl rfl rfl hegress hkey

/-- One more event. -/
theorem Synchronised.step (h : Synchronised crypto key conn events)
    {event : ConnectionEvent} (horder : InOrder (events ++ [event]))
    (hshort : ∀ s, ∀ f ∈ sent s (events ++ [event]),
      f.payload.length < 2 ^ 24) :
    ∃ conn', conn.step crypto event = .ok conn' ∧
      Synchronised crypto key conn' (events ++ [event]) := by
  have hread := horder events (List.prefix_append events [event])
  have hnext := horder _ (List.prefix_rfl)
  cases event with
  | write s frame =>
      obtain ⟨hle, -, hsent⟩ := hread s.other
      rw [Side.other_other] at hsent
      have hdir := h s.other
      rw [Side.other_other] at hdir
      obtain ⟨b, c, hwrite, hingress, hkey, hstep⟩ :=
        hdir.write hsent (by omega) frame
      refine ⟨_, by rw [Connection.step, hwrite]; rfl, fun r => ?_⟩
      rcases Side.eq_or_eq_other r s with rfl | rfl
      · have hnone : sent r.other (events ++ [.write r frame]) =
            sent r.other events := by
          simp [sent_append, sent?]
        rw [hnone]
        simp only [List.count_append, List.count_singleton, beq_iff_eq,
          reduceCtorEq, ↓reduceIte, Nat.add_zero, ne_eq, Side.ne_other,
          not_false_eq_true, Function.update_of_ne, Function.update_self]
        exact (h r).congr hingress hkey rfl rfl rfl rfl rfl rfl
      · have hone : sent s (events ++ [.write s frame]) =
            sent s events ++ [frame] := by
          simp [sent_append, sent?]
        rw [Side.other_other, hone]
        simp only [List.count_append, List.count_singleton, beq_iff_eq,
          reduceCtorEq, ↓reduceIte, Nat.add_zero, ne_eq, Side.ne_other,
          not_false_eq_true, Function.update_of_ne, Function.update_self]
        exact hstep
  | readHeader s =>
      have hsame : ∀ r, sent r (events ++ [.readHeader s]) = sent r events := by
        intro r
        simp [sent_append, sent?]
      obtain ⟨hle, -, -⟩ := hread s
      obtain ⟨-, hmost, hsent⟩ := hnext s
      simp only [hsame, List.count_append, List.count_singleton, beq_iff_eq,
        reduceCtorEq, BEq.rfl, ↓reduceIte, Nat.add_zero] at hmost hsent
      have heq : events.count (.readFrame s) = events.count (.readHeader s) := by
        omega
      have hdir := h s
      rw [heq] at hdir
      obtain ⟨e, hreads, hegress, hkey, hstep⟩ := hdir.readHeader (by omega)
        (by rw [← hsame]; exact hshort s.other)
      refine ⟨_, by rw [Connection.step, hreads]; rfl,
        h.read hsame ?_ ?_ hegress hkey ?_⟩
      · simp
      · simp
      · simpa [heq] using hstep
  | readFrame s =>
      have hsame : ∀ r, sent r (events ++ [.readFrame s]) = sent r events := by
        intro r
        simp [sent_append, sent?]
      obtain ⟨-, hmost, -⟩ := hread s
      obtain ⟨hle, -, -⟩ := hnext s
      simp only [List.count_append, List.count_singleton, beq_iff_eq,
        reduceCtorEq, BEq.rfl, ↓reduceIte, Nat.add_zero] at hle
      have heq : events.count (.readHeader s) =
          events.count (.readFrame s) + 1 := by omega
      have hdir := h s
      rw [heq] at hdir
      obtain ⟨e, hreads, hegress, hkey, hstep⟩ := hdir.readFrame
      refine ⟨_, by rw [Connection.step, hreads]; rfl,
        h.read hsame ?_ ?_ hegress hkey ?_⟩
      · simp
      · simp
      · simpa [heq] using hstep

/-- Any run that reads in order keeps both directions in step. -/
theorem exists_run {k : KeyExchange}
    (hfresh : ∀ s, (k.ecdhe s).remoteEphemeral.isSet = false)
    (hagree : crypto.agree (k.ecdhe .initiator).sec (k.ecdhe .recipient).pub =
      crypto.agree (k.ecdhe .recipient).sec (k.ecdhe .initiator).pub)
    (horder : InOrder events)
    (hshort : ∀ s, ∀ f ∈ sent s events, f.payload.length < 2 ^ 24) :
    ∃ key conn, Connection.run crypto k events = .ok conn ∧
      Synchronised crypto key conn events := by
  induction events using List.reverseRecOn with
  | nil =>
      obtain ⟨a, b, ha, hb, hkey, hab, hba⟩ :=
        KeyExchange.exists_setup hfresh hagree
      refine ⟨a.macEncKey, _, by
        rw [Connection.run, Connection.start, ha, hb]
        rfl, fun s => ?_⟩
      cases s with
      | initiator =>
          refine ⟨rfl, hkey.symm, rfl, rfl, .inl ⟨rfl, rfl, ?_⟩⟩
          show Carries crypto _ a.ingress [] [] b.egress
          rw [hab]
          exact .nil _
      | recipient =>
          refine ⟨hkey.symm, rfl, rfl, rfl, .inl ⟨rfl, rfl, ?_⟩⟩
          show Carries crypto _ b.ingress [] [] a.egress
          rw [hba]
          exact .nil _
  | append_singleton events event ih =>
      have hshort' : ∀ s, ∀ f ∈ sent s events, f.payload.length < 2 ^ 24 := by
        intro s f hf
        refine hshort s f ?_
        rw [sent_append]
        exact List.mem_append_left _ hf
      obtain ⟨key, conn, hrun, hsync⟩ :=
        ih (horder.of_prefix (List.prefix_append events [event])) hshort'
      obtain ⟨conn', hstep, hsync'⟩ := hsync.step horder hshort
      refine ⟨key, conn', ?_, hsync'⟩
      have hsplit : Connection.run crypto k (events ++ [event]) =
          Connection.run crypto k events >>= fun c => c.step crypto event := by
        simp only [Connection.run, List.foldlM_append, List.foldlM_cons,
          List.foldlM_nil, bind_assoc, bind_pure]
      rw [hsplit, hrun]
      exact hstep

end Connection

/-- Two endpoints that are set up from one handshake stay in step: whatever
frames the two sides write and however reading them is interleaved, no tag is
refused, every header tells what was written, and every frame is the payload
that was written, padded with zeros. -/
theorem endpoints_in_step {k : KeyExchange}
    (hfresh : ∀ s, (k.ecdhe s).remoteEphemeral.isSet = false)
    (hagree : crypto.agree (k.ecdhe .initiator).sec (k.ecdhe .recipient).pub =
      crypto.agree (k.ecdhe .recipient).sec (k.ecdhe .initiator).pub)
    {events : List ConnectionEvent} (horder : InOrder events)
    (hshort : ∀ s, ∀ f ∈ sent s events, f.payload.length < 2 ^ 24) :
    ∃ conn, Connection.run crypto k events = .ok conn ∧ ∀ s,
      (conn s).headers = ((sent s.other events).take
        (events.count (.readHeader s))).map RLPXFrame.info ∧
      (conn s).frames = ((sent s.other events).take
        (events.count (.readFrame s))).map RLPXFrame.padded := by
  obtain ⟨key, conn, hrun, hsync⟩ :=
    Connection.exists_run hfresh hagree horder hshort
  exact ⟨conn, hrun, fun s => ⟨(hsync s).headers, (hsync s).frames⟩⟩

/-- Functions to compute with, in place of the real ones. -/
def plainCrypto : Crypto where
  sha3 b := RLP.alignRight 32 b
  digest b := RLP.alignRight 32 b.reverse
  agree sec pub := RLP.alignRight 32 (xorBytes sec.data pub.data)
  aesBlock key b := xorBytes key b
  keystream key i := key.headD 0 + UInt8.ofNat i

/-- Keys with which both sides agree on one secret. -/
def plainKeys : KeyExchange where
  ecdhe
    | .initiator =>
        { sec := RLP.alignRight 32 (List.replicate 32 5),
          pub := ⟨List.replicate 64 5, rfl⟩,
          remoteEphemeral := ⟨List.replicate 64 0, rfl⟩ }
    | .recipient =>
        { sec := RLP.alignRight 32 (List.replicate 32 9),
          pub := ⟨List.replicate 64 9, rfl⟩,
          remoteEphemeral := ⟨List.replicate 64 0, rfl⟩ }
  nonce
    | .initiator => RLP.alignRight 32 [1]
    | .recipient => RLP.alignRight 32 [2]
  authCipher := [3, 1, 4]
  ackCipher := [1, 5]

/-- A coder to compute with; what it writes it would accept. -/
def plainCoder : RLPXFrameCoder where
  frameEnc := ⟨[5], 0⟩
  frameDec := ⟨[5], 0⟩
  macEncKey := List.replicate 16 9
  egressMac := [1]
  ingressMac := [1]

/-- Both sides write before either reads, and one writes again between the
header and the frame it reads. -/
theorem endpoints_in_step_crossing :
    ∃ conn, Connection.run plainCrypto plainKeys
        [.write .initiator (.first 7 1 300 [1, 2, 3]),
          .write .recipient (.legacy [4]), .readHeader .recipient,
          .write .recipient (.single 8 []), .readFrame .recipient,
          .readHeader .initiator, .readFrame .initiator] = .ok conn ∧
      (conn .recipient).headers = [⟨3, 13, 7, true, 1, 300⟩] ∧
      (conn .recipient).frames = [[1, 2, 3] ++ List.replicate 13 0] ∧
      (conn .initiator).frames = [[4] ++ List.replicate 15 0] := by
  have hfresh : ∀ s, (plainKeys.ecdhe s).remoteEphemeral.isSet = false := by
    intro s
    cases s <;> rfl
  have horder : InOrder [.write .initiator (.first 7 1 300 [1, 2, 3]),
      .write .recipient (.legacy [4]), .readHeader .recipient,
      .write .recipient (.single 8 []), .readFrame .recipient,
      .readHeader .initiator, .readFrame .initiator] := by
    intro pre hpre s
    rw [← List.mem_inits] at hpre
    revert pre
    cases s <;> decide
  obtain ⟨conn, hrun, hconn⟩ := @endpoints_in_step plainCrypto plainKeys hfresh
    (by decide) _ horder (by
      intro s
      cases s <;> decide)
  exact ⟨conn, hrun, (hconn .recipient).1, (hconn .recipient).2,
    (hconn .initiator).2⟩

end Web3Core
