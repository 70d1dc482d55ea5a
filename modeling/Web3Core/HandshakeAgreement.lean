/-
Two hosts that meet agree: either side that starts a session starts it with the
other one and with what the other one said in its Hello, and the coders that are
handed over belong together.  If nothing goes wrong, both sides start a session.
-/
import Web3Core.HandshakePair

namespace Web3Core

namespace Meeting

variable {crypto : HandshakeCrypto} (m : Meeting crypto)

/-! What goes over the wire. -/

def auth : Bytes :=
  crypto.sign (m.ecdhe true).sec
      ((crypto.agree (m.host true).sec (m.host false).pub).xor (m.nonce true)) ++
    (crypto.sha3 (m.ecdhe true).pub.data).data ++ (m.host true).pub.data ++
      (m.nonce true).data ++ [0]

def authCipher : Bytes := crypto.encryptECIES (m.host false).pub m.auth

def ack : Bytes := (m.ecdhe false).pub.data ++ (m.nonce false).data ++ [0]

def ackCipher : Bytes := crypto.encryptECIES (m.host true).pub m.ack

/-- The Hello as a frame. -/
def frame (s : Bool) : RLPXFrame := .legacy (m.host s).helloPacket

/-- The coder that a side sets up. -/
def coder (s : Bool) : RLPXFrameCoder :=
  established crypto.toCrypto
    (crypto.agree (m.ecdhe s).sec (m.ecdhe !s).pub)
    (if s then m.nonce !s else m.nonce s) (if s then m.nonce s else m.nonce !s)
    (m.nonce !s) (m.nonce s) (if s then m.authCipher else m.ackCipher)
    (if s then m.ackCipher else m.authCipher)

def key : Bytes := (m.coder true).macEncKey

/-- The coder after the own Hello was written. -/
def coderWritten (s : Bool) : RLPXFrameCoder :=
  (m.coder s).setEgress
    ((m.frame s).after crypto.toCrypto m.key (m.coder s).egress)

/-- The coder after the header of the other Hello was read. -/
def coderHeader (s : Bool) : RLPXFrameCoder :=
  (m.coderWritten s).setIngress
    ((m.coder !s).egress.afterHeader crypto.toCrypto m.key (m.frame !s).block)

/-- The coder that is handed over. -/
def coderRead (s : Bool) : RLPXFrameCoder :=
  (m.coderHeader s).setIngress
    ((m.frame !s).after crypto.toCrypto m.key (m.coder !s).egress)

def header (s : Bool) : Bytes :=
  (m.coder s).egress.sealHeader crypto.toCrypto m.key (m.frame s).block

def body (s : Bool) : Bytes :=
  ((m.coder s).egress.afterHeader crypto.toCrypto m.key
    (m.frame s).block).sealFrame crypto.toCrypto m.key (m.frame s).padded

/-- What a side reads and writes. -/
def script (s : Bool) : Script Byte :=
  if s then
    { opening := m.authCipher
      turns := [([], []), (m.ackCipher, m.header true ++ m.body true), ([], []),
        (m.header false, []), (m.body false, [])] }
  else
    { opening := []
      turns := [(m.authCipher, m.ackCipher), ([], m.header false ++ m.body false),
        ([], []), (m.header true, []), (m.body true, [])] }

/-- What `startPeerSession` is called with. -/
def session (s : Bool) : StartedSession where
  remote := (m.host !s).pub
  frame := (m.frame !s).padded ++ RLPXFrameCoder.truncatedFinal crypto.toCrypto
    ((m.frame !s).after crypto.toCrypto m.key (m.coder !s).egress).mac
  coder := m.coderRead s

/-- The handshake of a side once the coder is set up. -/
def keyed (s : Bool) : RLPXHandshake where
  originated := s
  nextState := .readHello
  remote := (m.host !s).pub
  ecdhe := m.ecdhe s
  nonce := m.nonce s
  authCipher := m.authCipher
  ackCipher := m.ackCipher
  handshakeOutBuffer := m.header s ++ m.body s
  remoteEphemeral := (m.ecdhe !s).pub
  remoteNonce := m.nonce !s
  io := some (m.coderWritten s)
  pending := some .writeHello

/-- The handshake of a side after `k` of its turns. -/
def point (s : Bool) : Nat → RLPXHandshake
  | 0 => { m.constructed s with
      nextState := .ackAuth
      authCipher := if s then m.authCipher else []
      pending := some (if s then .writeAuth else .readAuth) }
  | 1 => { m.constructed s with
      nextState := .writeHello
      remote := (m.host !s).pub
      authCipher := m.authCipher
      ackCipher := if s then [] else m.ackCipher
      remoteNonce := if s then RLP.alignRight 32 [] else m.nonce true
      remoteEphemeral := if s then RLP.alignRight 64 [] else (m.ecdhe true).pub
      pending := some (if s then .readAck else .writeAck) }
  | 2 => m.keyed s
  | 3 => { m.keyed s with
      nextState := .startSession
      pending := some .readHeader }
  | 4 => { m.keyed s with
      nextState := .startSession
      io := some (m.coderHeader s)
      pending := some (.readFrame (m.body !s).length) }
  | _ => { m.keyed s with
      nextState := .startSession
      io := none
      pending := none
      sessions := 1 }

/-- A side is at the point `k`.  Which checks were made does not matter, nor
whether it was cancelled since. -/
structure At (s : Bool) (k : Nat) (x : HandshakeSide) : Prop where
  handshake : x.handshake = { m.point s k with
    checks := x.handshake.checks, cancel := x.handshake.cancel }
  started : x.started = if k < 5 then [] else [m.session s]

theorem At.started_eq {m : Meeting crypto} {s : Bool} {k : Nat}
    {x : HandshakeSide} (h : m.At s k x) :
    x.started = [] ∨ x.started = [m.session s] := by
  rw [h.started]
  split
  · exact .inl rfl
  · exact .inr rfl

/-- A side has given up, perhaps while its session was started. -/
structure Gone (s : Bool) (x : HandshakeSide) : Prop where
  pending : x.handshake.pending = none
  started : x.started = [] ∨ x.started = [m.session s]

section Coders

theorem mirror (s : Bool) :
    (m.coder s).macEncKey = m.key ∧ (m.coder s).ingress = (m.coder !s).egress := by
  cases s
  · have hagree := m.agreeEphemeral
    constructor
    · simp only [key, coder, established, Bool.not_true, Bool.not_false,
        Bool.false_eq_true, ↓reduceIte, hagree]
    · simp only [RLPXFrameCoder.ingress, RLPXFrameCoder.egress, coder,
        established, Bool.not_true, Bool.not_false, Bool.false_eq_true,
        ↓reduceIte, hagree]
  · have hagree := m.agreeEphemeral
    refine ⟨rfl, ?_⟩
    simp only [RLPXFrameCoder.ingress, RLPXFrameCoder.egress, coder,
      established, Bool.not_true, Bool.not_false, Bool.false_eq_true,
      ↓reduceIte, hagree]

theorem setup_eq_coder (s : Bool) :
    RLPXFrameCoder.setup crypto.toCrypto s (m.ecdhe !s).pub (m.nonce !s)
      (m.ecdhe s) (m.nonce s) m.ackCipher m.authCipher = .ok (m.coder s) :=
  setup_eq (m.fresh s)

/-- The Hello as it is written. -/
theorem writeSingleFramePacket_eq (s : Bool) :
    (m.coder s).writeSingleFramePacket crypto.toCrypto (m.host s).helloPacket =
      .ok (m.header s ++ m.body s, m.coderWritten s) := by
  have hwrite := @RLPXFrame.write_eq_seal crypto.toCrypto (m.frame s) (m.coder s)
  rw [(m.mirror s).1] at hwrite
  exact hwrite

/-- The header of the other Hello is read. -/
theorem authAndDecryptHeader_eq (s : Bool) :
    (m.coderWritten s).authAndDecryptHeader crypto.toCrypto (m.header !s) =
      .ok (true, (m.frame !s).block ++ RLPXFrameCoder.truncatedFinal
          crypto.toCrypto ((m.coder !s).egress.afterHeader crypto.toCrypto m.key
            (m.frame !s).block).mac, m.coderHeader s) := by
  have hauth := @RLPXFrameCoder.authAndDecryptHeader_seal crypto.toCrypto
    (m.coderWritten s) (m.frame !s).block (m.frame !s).length_block
  have hkey : (m.coderWritten s).macEncKey = m.key := (m.mirror s).1
  have hin : (m.coderWritten s).ingress = (m.coder !s).egress := (m.mirror s).2
  rw [hkey, hin] at hauth
  exact hauth

/-- The other Hello is read. -/
theorem authAndDecryptFrame_eq (s : Bool) :
    (m.coderHeader s).authAndDecryptFrame crypto.toCrypto (m.body !s) =
      .ok (true, (m.session s).frame, m.coderRead s) := by
  have hauth := @RLPXFrameCoder.authAndDecryptFrame_seal crypto.toCrypto
    (m.coderHeader s) (m.frame !s).padded
  have hkey : (m.coderHeader s).macEncKey = m.key := (m.mirror s).1
  rw [hkey] at hauth
  exact hauth

end Coders

section Messages

theorem hashAt_append {N offset : Nat} {before after : Bytes} {x : FixedHash N}
    (h : before.length = offset) : hashAt N offset (before ++ x.data ++ after) = x := by
  subst h
  have htake : (x.data ++ after).take N = x.data := by
    rw [List.take_append_of_le_length x.size_data.ge,
      List.take_of_length_le x.size_data.le]
  rw [hashAt, List.append_assoc, List.drop_left, htake]
  refine FixedHash.ext ?_
  simp [RLP.alignRight, x.size_data]

theorem length_auth : m.auth.length = 194 := by
  simp [auth, m.length_sign, FixedHash.size_data]

theorem length_ack : m.ack.length = 97 := by
  simp [ack, FixedHash.size_data]

theorem length_authCipher : m.authCipher.length = 307 := by
  have hne : m.auth ≠ [] := List.ne_nil_of_length_pos (by rw [m.length_auth]; decide)
  rw [authCipher, m.length_sealed false _ hne, m.length_auth]

theorem length_ackCipher : m.ackCipher.length = 210 := by
  have hne : m.ack ≠ [] := List.ne_nil_of_length_pos (by rw [m.length_ack]; decide)
  rw [ackCipher, m.length_sealed true _ hne, m.length_ack]

theorem decrypt_authCipher :
    crypto.decryptECIES (m.host false).sec m.authCipher = some m.auth :=
  m.unsealed false _ (List.ne_nil_of_length_pos (by rw [m.length_auth]; decide))

theorem decrypt_ackCipher :
    crypto.decryptECIES (m.host true).sec m.ackCipher = some m.ack :=
  m.unsealed true _ (List.ne_nil_of_length_pos (by rw [m.length_ack]; decide))

/-- The auth message names the key of the side that sent it, and its nonce. -/
theorem hashAt_auth :
    hashAt 64 (65 + 32) m.auth = (m.host true).pub ∧
      hashAt 32 (65 + 32 + 64) m.auth = m.nonce true := by
  constructor
  · rw [auth, List.append_assoc _ (m.nonce true).data]
    exact hashAt_append (by simp [m.length_sign, FixedHash.size_data])
  · rw [auth]
    exact hashAt_append (by simp [m.length_sign, FixedHash.size_data])

/-- It was signed with the ephemeral key. -/
theorem recoverEphemeral_auth :
    RLPXHandshake.recoverEphemeral crypto (m.host false) m.auth =
      (m.ecdhe true).pub := by
  obtain ⟨hpub, hnonce⟩ := m.hashAt_auth
  have hsign : m.auth.take 65 = crypto.sign (m.ecdhe true).sec
      ((crypto.agree (m.host true).sec (m.host false).pub).xor
        (m.nonce true)) := by
    simp only [auth, List.append_assoc]
    rw [← m.length_sign, List.take_left]
  rw [RLPXHandshake.recoverEphemeral, hpub, hnonce, hsign, ← m.agree,
    m.recovered]

theorem hashAt_ack :
    hashAt 64 0 m.ack = (m.ecdhe false).pub ∧
      hashAt 32 64 m.ack = m.nonce false := by
  constructor
  · rw [ack, List.append_assoc, ← List.nil_append (m.ecdhe false).pub.data]
    exact hashAt_append rfl
  · rw [ack]
    exact hashAt_append (m.ecdhe false).pub.size_data

end Messages

section Turns

variable (l : List (HandshakeCheck × Bool)) (c throws : Bool)

/-- A step from the point `k` leads to the next one, or the side was cancelled
or refused and gives up. -/
def Turned (s : Bool) (k : Nat) (c throws : Bool)
    (r : Except Exception RLPXHandshake) : Prop :=
  ∃ h, r = .ok h ∧
    ((∃ l, h = { m.point s (k + 1) with checks := l, cancel := c }) ∨
      (c || throws) = true ∧ h.pending = none ∧
        h.sessions = if k < 4 then 0 else 1)

/-- A transition in a handshake that was cancelled. -/
theorem turned_of_cancel {s : Bool} {k : Nat} {h : RLPXHandshake} (hk : k < 4)
    (hcancel : h.cancel = true) (hpending : h.pending = none)
    (hsessions : h.sessions = 0) :
    m.Turned s k true throws (h.transition crypto (m.host s) false) := by
  refine ⟨h.error, ?_, .inr ⟨rfl, hpending, ?_⟩⟩
  · rw [RLPXHandshake.transition, if_pos (.inr (.inr hcancel))]
  · rw [if_pos hk]
    exact hsessions

/-- The coder is set up, and the Hello is on its way. -/
theorem writeHello_eq {s : Bool} {h : RLPXHandshake} (horiginated : h.originated = s)
    (hephemeral : h.remoteEphemeral = (m.ecdhe !s).pub)
    (hnonce : h.remoteNonce = m.nonce !s) (hecdhe : h.ecdhe = m.ecdhe s)
    (hown : h.nonce = m.nonce s) (hack : h.ackCipher = m.ackCipher)
    (hauth : h.authCipher = m.authCipher) :
    h.writeHello crypto (m.host s) = .ok { h with
      io := some (m.coderWritten s), handshakeOutBuffer := m.header s ++ m.body s,
      pending := some .writeHello } := by
  rw [RLPXHandshake.writeHello, horiginated, hephemeral, hnonce, hecdhe, hown,
    hack, hauth, m.setup_eq_coder s, ok_bind, m.writeSingleFramePacket_eq s,
    ok_bind]

theorem turned_writeAuth :
    m.Turned true 0 c throws (RLPXHandshake.step crypto (m.host true)
      { m.point true 0 with checks := l, cancel := c }
      (.complete (some []) throws)) := by
  simp only [RLPXHandshake.step, point, SocketOperation.size, Option.all_some,
    List.length_nil, decide_true, RLPXHandshake.handle, RLPXHandshake.note,
    ↓reduceIte]
  cases c with
  | true => exact m.turned_of_cancel (k := 0) throws (by decide) rfl rfl rfl
  | false => exact ⟨_, rfl, .inl ⟨_, rfl⟩⟩

theorem turned_readAuth :
    m.Turned false 0 c throws (RLPXHandshake.step crypto (m.host false)
      { m.point false 0 with checks := l, cancel := c }
      (.complete (some m.authCipher) throws)) := by
  obtain ⟨hpub, hnonce⟩ := m.hashAt_auth
  have hsize : (some m.authCipher).all (fun b => decide (b.length =
      SocketOperation.readAuth.size)) = true := by
    simp [m.length_authCipher, SocketOperation.size]
  have hlong : ¬ m.auth.length < 65 + 32 + 64 + 32 := by
    rw [m.length_auth]
    decide
  simp only [RLPXHandshake.step, point, hsize, RLPXHandshake.handle,
    RLPXHandshake.onReadAuth, RLPXHandshake.note, m.decrypt_authCipher, hlong,
    hpub, hnonce, m.recoverEphemeral_auth, Bool.false_eq_true, ↓reduceIte]
  cases c with
  | true => exact m.turned_of_cancel (k := 0) throws (by decide) rfl rfl rfl
  | false => exact ⟨_, rfl, .inl ⟨_, rfl⟩⟩

theorem turned_readAck :
    m.Turned true 1 c throws (RLPXHandshake.step crypto (m.host true)
      { m.point true 1 with checks := l, cancel := c }
      (.complete (some m.ackCipher) throws)) := by
  obtain ⟨hpub, hnonce⟩ := m.hashAt_ack
  have hsize : (some m.ackCipher).all (fun b => decide (b.length =
      SocketOperation.readAck.size)) = true := by
    simp [m.length_ackCipher, SocketOperation.size]
  have hlong : ¬ m.ack.length < 64 + 32 := by
    rw [m.length_ack]
    decide
  simp only [RLPXHandshake.step, point, hsize, RLPXHandshake.handle,
    RLPXHandshake.onReadAck, RLPXHandshake.note, m.decrypt_ackCipher, hlong,
    hpub, hnonce, ↓reduceIte]
  cases c with
  | true => exact m.turned_of_cancel (k := 1) throws (by decide) rfl rfl rfl
  | false =>
      refine ⟨_, m.writeHello_eq rfl rfl rfl rfl rfl rfl rfl, .inl ⟨_, rfl⟩⟩

theorem turned_writeAck :
    m.Turned false 1 c throws (RLPXHandshake.step crypto (m.host false)
      { m.point false 1 with checks := l, cancel := c }
      (.complete (some []) throws)) := by
  simp only [RLPXHandshake.step, point, Bool.false_eq_true,
    SocketOperation.size, Option.all_some, List.length_nil, decide_true,
    RLPXHandshake.handle, RLPXHandshake.note, ↓reduceIte]
  cases c with
  | true => exact m.turned_of_cancel (k := 1) throws (by decide) rfl rfl rfl
  | false =>
      refine ⟨_, m.writeHello_eq rfl rfl rfl rfl rfl rfl rfl, .inl ⟨_, rfl⟩⟩

theorem turned_writeHello (s : Bool) :
    m.Turned s 2 c throws (RLPXHandshake.step crypto (m.host s)
      { m.point s 2 with checks := l, cancel := c }
      (.complete (some []) throws)) := by
  simp only [RLPXHandshake.step, point, keyed, SocketOperation.size,
    Option.all_some, List.length_nil, decide_true, RLPXHandshake.handle,
    RLPXHandshake.note, ↓reduceIte]
  cases c with
  | true => exact m.turned_of_cancel (k := 2) throws (by decide) rfl rfl rfl
  | false => exact ⟨_, rfl, .inl ⟨_, rfl⟩⟩

theorem helloPacket_eq (s : Bool) : (m.host s).helloPacket = (m.hello s).wire := by
  have hpacket := m.packet s
  rw [Hello.packet_eq (m.fits s)] at hpacket
  exact (Except.ok.inj hpacket).symm

theorem length_helloPacket (s : Bool) :
    (m.host s).helloPacket.length ≤ 1024 := by
  rw [m.helloPacket_eq]
  exact (m.fits s).size

/-- Of three bytes, the handler of the header makes a number. -/
theorem frameSize_cons (a b c : Byte) (rest : Bytes) :
    RLPXHandshake.frameSize (a :: b :: c :: rest) =
      (a.toNat * 256 + b.toNat) * 256 + c.toNat := by
  have hb : b.toNat < 2 ^ 8 := b.toNat_lt
  have hc : c.toNat < 2 ^ 8 := c.toNat_lt
  have hlow : b.toNat <<< 8 ||| c.toNat = b.toNat * 256 + c.toNat := by
    rw [← Nat.shiftLeft_add_eq_or_of_lt hc, Nat.shiftLeft_eq]
  have hlt : b.toNat * 256 + c.toNat < 2 ^ 16 := by omega
  have hall : a.toNat <<< 16 ||| (b.toNat * 256 + c.toNat) =
      a.toNat * 65536 + (b.toNat * 256 + c.toNat) := by
    rw [← Nat.shiftLeft_add_eq_or_of_lt hlt, Nat.shiftLeft_eq]
  show c.toNat ||| b.toNat <<< 8 ||| a.toNat <<< 16 = _
  rw [Nat.or_comm c.toNat, hlow, Nat.or_comm, hall]
  omega

/-- The header tells the size of the Hello. -/
theorem frameSize_block (s : Bool) (tag : Bytes) :
    RLPXHandshake.frameSize ((m.frame s).block ++ tag) =
      (m.host s).helloPacket.length := by
  have hsize := m.length_helloPacket s
  have hsmall : toUnsigned (m.host s).helloPacket.length =
      (m.host s).helloPacket.length := by
    rw [toUnsigned]
    exact Nat.mod_eq_of_lt (by omega)
  rw [RLPXFrame.block, RLPXFrameCoder.headerBlock_eq (m.frame s).length_header,
    List.append_assoc]
  show RLPXHandshake.frameSize (((RLPXFrameCoder.lengthBytes
    (toUnsigned (m.host s).helloPacket.length)) ++ _) ++ _) = _
  rw [hsmall, RLPXFrameCoder.lengthBytes]
  simp only [List.cons_append, frameSize_cons, RLPXFrame.lengthBytes_toNat]
  exact Nat.mod_eq_of_lt (by omega)

theorem length_header (s : Bool) : (m.header s).length = 32 :=
  FrameStream.length_sealHeader (m.frame s).length_block

theorem length_body (s : Bool) : (m.body s).length =
    (m.host s).helloPacket.length +
      RLPXFrameCoder.paddingOf (m.host s).helloPacket.length + 16 := by
  rw [body, FrameStream.length_sealFrame, RLPXFrame.length_padded]
  rfl

theorem turned_readHeader (s : Bool) :
    m.Turned s 3 c throws (RLPXHandshake.step crypto (m.host s)
      { m.point s 3 with checks := l, cancel := c }
      (.complete (some (m.header !s)) throws)) := by
  have hsize : (some (m.header !s)).all (fun b => decide (b.length =
      SocketOperation.readHeader.size)) = true := by
    simp [m.length_header, SocketOperation.size]
  have hsmall : ¬ (m.host !s).helloPacket.length > 1024 :=
    not_lt.2 (m.length_helloPacket !s)
  simp only [RLPXHandshake.step, point, keyed, hsize, RLPXHandshake.handle,
    RLPXHandshake.onReadHeader, RLPXHandshake.note, m.authAndDecryptHeader_eq,
    ok_bind, m.frameSize_block, hsmall, Bool.not_true, Bool.false_eq_true,
    ↓reduceIte, ← m.length_body]
  exact ⟨_, rfl, .inl ⟨_, rfl⟩⟩

/-- The frame that is handed over begins with the packet. -/
theorem frame_session (s : Bool) :
    ∃ rest, (m.session s).frame = (m.hello !s).wire ++ rest := by
  show ∃ rest, RLPXFrameCoder.pad (m.host !s).helloPacket ++ _ = _
  rw [RLPXFrameCoder.pad, m.helloPacket_eq, List.append_assoc]
  exact ⟨_, rfl⟩

theorem turned_readFrame (s : Bool) :
    m.Turned s 4 c throws (RLPXHandshake.step crypto (m.host s)
      { m.point s 4 with checks := l, cancel := c }
      (.complete (some (m.body !s)) throws)) := by
  have hsize : (some (m.body !s)).all (fun b => decide (b.length =
      (SocketOperation.readFrame (m.body !s).length).size)) = true := by
    simp [SocketOperation.size]
  obtain ⟨rest, hframe⟩ := m.frame_session s
  obtain ⟨r, href, -⟩ := Hello.exists_ofRef (m.fits !s) rest
  have hfirst : ((m.hello !s).wire ++ rest).headD 0 = 0x80 := rfl
  simp only [RLPXHandshake.step, point, keyed, hsize, RLPXHandshake.handle,
    RLPXHandshake.onReadFrame, RLPXHandshake.note, m.authAndDecryptFrame_eq,
    ok_bind, hframe, href, hfirst, Bool.not_true, Bool.false_eq_true,
    ↓reduceIte, ne_eq, not_true_eq_false]
  cases throws with
  | true => exact ⟨_, rfl, .inr ⟨by simp, rfl, rfl⟩⟩
  | false => exact ⟨_, rfl, .inl ⟨_, rfl⟩⟩

theorem eq_of_getElem?_five {α : Type} {a b c d e t : α} {k : Nat}
    (ht : [a, b, c, d, e][k]? = some t) :
    (k = 0 ∧ t = a) ∨ (k = 1 ∧ t = b) ∨ (k = 2 ∧ t = c) ∨ (k = 3 ∧ t = d) ∨
      (k = 4 ∧ t = e) := by
  rcases k with _ | _ | _ | _ | _ | k
  all_goals simp_all

/-- What a side reads at its turn takes it to the next point. -/
theorem turned {s : Bool} {k : Nat} {t : Bytes × Bytes}
    (ht : (m.script s).turns[k]? = some t) :
    m.Turned s k c throws (RLPXHandshake.step crypto (m.host s)
      { m.point s k with checks := l, cancel := c }
      (.complete (some t.1) throws)) := by
  cases s with
  | true =>
      rcases eq_of_getElem?_five ht with ⟨rfl, rfl⟩ | ⟨rfl, rfl⟩ | ⟨rfl, rfl⟩ |
        ⟨rfl, rfl⟩ | ⟨rfl, rfl⟩
      · exact m.turned_writeAuth l c throws
      · exact m.turned_readAck l c throws
      · exact m.turned_writeHello l c throws true
      · exact m.turned_readHeader l c throws true
      · exact m.turned_readFrame l c throws true
  | false =>
      rcases eq_of_getElem?_five ht with ⟨rfl, rfl⟩ | ⟨rfl, rfl⟩ | ⟨rfl, rfl⟩ |
        ⟨rfl, rfl⟩ | ⟨rfl, rfl⟩
      · exact m.turned_readAuth l c throws
      · exact m.turned_writeAck l c throws
      · exact m.turned_writeHello l c throws false
      · exact m.turned_readHeader l c throws false
      · exact m.turned_readFrame l c throws false

/-- What it says then. -/
theorem output_point {s : Bool} {k : Nat} {t : Bytes × Bytes}
    (ht : (m.script s).turns[k]? = some t) :
    HandshakeSide.output (m.point s (k + 1)) = t.2 := by
  cases s with
  | true =>
      rcases eq_of_getElem?_five ht with ⟨rfl, rfl⟩ | ⟨rfl, rfl⟩ | ⟨rfl, rfl⟩ |
        ⟨rfl, rfl⟩ | ⟨rfl, rfl⟩ <;> rfl
  | false =>
      rcases eq_of_getElem?_five ht with ⟨rfl, rfl⟩ | ⟨rfl, rfl⟩ | ⟨rfl, rfl⟩ |
        ⟨rfl, rfl⟩ | ⟨rfl, rfl⟩ <;> rfl

/-- What the pending operation of a side waits for. -/
theorem map_size_point (s : Bool) (k : Nat) :
    (m.point s k).pending.map SocketOperation.size =
      (m.script s).turns[k]?.map fun t => t.1.length := by
  have hauth := m.length_authCipher
  have hack := m.length_ackCipher
  have hheader := m.length_header
  rcases k with _ | _ | _ | _ | _ | k <;>
    cases s <;> simp [point, script, keyed, SocketOperation.size, *]

theorem sessions_point (s : Bool) (k : Nat) :
    (m.point s k).sessions = if k < 5 then 0 else 1 := by
  rcases k with _ | _ | _ | _ | _ | k
  all_goals simp [point, keyed, constructed]

theorem passed_eq {s : Bool} {h : RLPXHandshake}
    (hio : h.io = some (m.coderHeader s)) (hremote : h.remote = (m.host !s).pub) :
    HandshakeSide.passed crypto h (m.body !s) = some (m.session s) := by
  rw [HandshakeSide.passed, hio]
  simp only [m.authAndDecryptFrame_eq, hremote, Except.toOption, Option.bind_eq_bind,
    Option.bind_some]
  rfl

/-- The calls of `startPeerSession` that a turn makes. -/
theorem calls_eq {s : Bool} {k : Nat} {t : Bytes × Bytes}
    (ht : (m.script s).turns[k]? = some t) {h : RLPXHandshake} {n : Nat}
    (hpoint : h = { m.point s k with checks := h.checks, cancel := h.cancel })
    (hn : n = if k < 4 then 0 else 1) :
    (if h.sessions < n then (HandshakeSide.passed crypto h t.1).toList else []) =
      if k < 4 then [] else [m.session s] := by
  have hsessions : h.sessions = if k < 5 then 0 else 1 := by
    rw [hpoint]
    exact m.sessions_point s k
  have hlt : k < 5 := by
    have hlength := (List.getElem?_eq_some_iff.1 ht).1
    cases s <;> exact hlength
  rw [if_pos hlt] at hsessions
  by_cases hk : k < 4
  · rw [hn, if_pos hk, if_pos hk, if_neg (by omega)]
  · have hfour : k = 4 := by omega
    subst hfour
    have hbody : t.1 = m.body !s := by
      cases s
      all_goals
        cases ht
        rfl
    have hpassed : HandshakeSide.passed crypto h (m.body !s) =
        some (m.session s) := by
      refine m.passed_eq ?_ ?_
      all_goals
        rw [hpoint]
        rfl
    rw [hn, if_neg hk, if_neg hk, hsessions, if_pos Nat.zero_lt_one, hbody,
      hpassed]
    rfl

/-- A turn takes a side to its next point; one that was cancelled, or is going
to be refused, may also give up. -/
theorem react_eq {s : Bool} {k : Nat} {x : HandshakeSide} {t : Bytes × Bytes}
    (hat : m.At s k x) (ht : (m.script s).turns[k]? = some t) :
    (∃ y, HandshakeSide.react crypto (m.host s) x t.1 = .ok (y, t.2) ∧
        m.At s (k + 1) y ∧ y.handshake.cancel = x.handshake.cancel ∧
        y.throws = x.throws) ∨
      (x.handshake.cancel || x.throws) = true ∧
        ∃ y, HandshakeSide.react crypto (m.host s) x t.1 = .ok (y, []) ∧
          m.Gone s y := by
  have hlt : k < 5 := by
    have hlength := (List.getElem?_eq_some_iff.1 ht).1
    cases s <;> exact hlength
  have hstarted := hat.started
  rw [if_pos hlt] at hstarted
  have hturned := m.turned x.handshake.checks x.handshake.cancel x.throws ht
  rw [← hat.handshake] at hturned
  obtain ⟨h, hstep, hcase⟩ := hturned
  have hreact : ∀ n, h.sessions = n → (n = if k < 4 then 0 else 1) →
      HandshakeSide.react crypto (m.host s) x t.1 = .ok ({ x with
        handshake := h, started := if k < 4 then [] else [m.session s] },
          HandshakeSide.output h) := by
    intro n hsessions hn
    rw [HandshakeSide.react, hstep, ok_bind,
      m.calls_eq ht hat.handshake (hsessions.trans hn), hstarted]
    rfl
  rcases hcase with ⟨l, hnext⟩ | ⟨hbad, hpending, hsessions⟩
  · have hn : (m.point s (k + 1)).sessions = if k < 4 then 0 else 1 := by
      rw [m.sessions_point]
      exact if_congr (by omega) rfl rfl
    have hout : HandshakeSide.output h = t.2 := by
      rw [hnext]
      exact m.output_point ht
    have hat' : m.At s (k + 1) { x with
        handshake := h, started := if k < 4 then [] else [m.session s] } := by
      refine ⟨?_, if_congr (by omega) rfl rfl⟩
      rw [hnext]
    refine .inl ⟨_, by rw [hreact _ (by rw [hnext]) hn, hout], hat', ?_, rfl⟩
    rw [hnext]
  · have hout : HandshakeSide.output h = [] := by
      rw [HandshakeSide.output, hpending]
    refine .inr ⟨hbad, _, by rw [hreact _ rfl hsessions, hout], hpending, ?_⟩
    show (if k < 4 then [] else [m.session s]) = [] ∨ _
    split
    · exact .inl rfl
    · exact .inr rfl

end Turns

section Runs

/-- A side follows its script, or gives up. -/
theorem follows (s : Bool) :
    FollowsScript (HandshakeSide.talker crypto (m.host s)) (m.script s) (m.At s)
      (m.Gone s) where
  wants k x hat := by
    rw [← m.map_size_point s k]
    show x.handshake.pending.map _ = _
    rw [hat.handshake]
  gone x hgone := by
    show x.handshake.pending.map _ = _
    rw [hgone.pending]
    rfl
  react k x t hat ht := by
    rcases m.react_eq hat ht with ⟨y, hreact, hy, -⟩ | ⟨-, y, hreact, hy⟩
    · exact .inl ⟨y, hreact, hy⟩
    · exact .inr ⟨y, hreact, hy⟩

/-- A side that nothing has happened to. -/
structure AtSteady (s : Bool) (k : Nat) (x : HandshakeSide) : Prop
    extends m.At s k x where
  cancel : x.handshake.cancel = false
  throws : x.throws = false

/-- It follows its script and does not give up. -/
theorem follows_steady (s : Bool) :
    FollowsScript (HandshakeSide.talker crypto (m.host s)) (m.script s)
      (m.AtSteady s) fun _ => False where
  wants k x hat := (m.follows s).wants k x hat.toAt
  gone x hgone := hgone.elim
  react k x t hat ht := by
    rcases m.react_eq hat.toAt ht with ⟨y, hreact, hy, hcancel, hthrows⟩ |
      ⟨hbad, -⟩
    · exact .inl ⟨y, hreact, hy, hcancel.trans hat.cancel,
        hthrows.trans hat.throws⟩
    · rw [hat.cancel, hat.throws] at hbad
      cases hbad

/-- An operation that fails ends the handshake. -/
theorem step_failed (h : RLPXHandshake) (s : Bool) :
    ∃ h', h.step crypto (m.host s) (.complete none false) = .ok h' ∧
      h'.pending = none ∧ (h.pending = none → h' = h) := by
  cases hpending : h.pending with
  | none => exact ⟨h, by rw [RLPXHandshake.step, hpending], hpending, fun _ => rfl⟩
  | some op =>
      refine ⟨_, by
        simp only [RLPXHandshake.step, hpending, Option.all_none,
          RLPXHandshake.handle, RLPXHandshake.transition, true_or, ↓reduceIte]
        rfl, rfl, fun hnone => ?_⟩
      cases hnone

/-- Faults do not take a side off its script. -/
theorem endures (s : Bool) :
    Endures (fun f x => HandshakeSide.disturb crypto
      (m.host x.handshake.originated) f x) (m.At s) (m.Gone s) where
  disturbed f k x hat := by
    cases f with
    | io =>
        obtain ⟨h, hstep, hpending, -⟩ :=
          m.step_failed x.handshake x.handshake.originated
        refine .inr ⟨?_, ?_⟩
        · rw [HandshakeSide.disturb, hstep]
          exact hpending
        · exact hat.started_eq
    | cancel =>
        refine .inl ⟨?_, hat.started⟩
        exact congrArg (fun h : RLPXHandshake => { h with cancel := true })
          hat.handshake
    | throw => exact .inl ⟨hat.handshake, hat.started⟩
  stays f x hgone := by
    cases f with
    | io =>
        obtain ⟨h, hstep, hpending, -⟩ :=
          m.step_failed x.handshake x.handshake.originated
        refine ⟨?_, hgone.started⟩
        rw [HandshakeSide.disturb, hstep]
        exact hpending
    | cancel => exact ⟨hgone.pending, hgone.started⟩
    | throw => exact ⟨hgone.pending, hgone.started⟩

/-- What one side reads is what the other one writes. -/
theorem fit_script : Fit m.script := by
  intro s
  cases s
  all_goals simp [script, Script.consumed, Script.written]

/-- Neither side waits in vain: the recipient needs nothing but the auth message
to write its Hello, and then the originator can go on to the end. -/
theorem live_script : Live m.script := by
  intro k hk
  have hlength : ∀ s, (m.script s).turns.length = 5 := fun s => by
    cases s <;> rfl
  simp only [hlength] at hk ⊢
  have htrue := hk true
  have hfalse := hk false
  by_cases hearly : k false < 3
  · refine .inr ⟨false, canTurn_of_le (n := 3) (l := 0)
      (by rw [hlength]; omega) (by omega) (Nat.zero_le _) ?_⟩
    simp [script, Script.consumed, Script.written]
  · by_cases hmore : k true < 5
    · refine .inr ⟨true, canTurn_of_le (n := 5) (l := 2)
        (by rw [hlength]; omega) (by omega) (by simp only [Bool.not_true]; omega) ?_⟩
      simp [script, Script.consumed, Script.written]
    · by_cases hlast : k false < 5
      · refine .inr ⟨false, canTurn_of_le (n := 5) (l := 5)
          (by rw [hlength]; omega) (by omega)
          (by simp only [Bool.not_false]; omega) ?_⟩
        simp [script, Script.consumed, Script.written]
      · refine .inl fun s => ?_
        cases s <;> omega

/-- Once they are started, both sides are at the beginning of their scripts. -/
theorem begun_eq : m.begun = .ok (Conversation.opened m.script fun s =>
    { handshake := m.point s 0 }) := by
  have horiginator : m.start true = .ok { handshake := m.point true 0 } := rfl
  have hrecipient : m.start false = .ok { handshake := m.point false 0 } := rfl
  rw [begun, horiginator, hrecipient]
  refine congrArg Except.ok (funext fun s => ?_)
  cases s <;> rfl

theorem at_zero (s : Bool) : m.AtSteady s 0 { handshake := m.point s 0 } := by
  refine ⟨⟨?_, rfl⟩, ?_, rfl⟩
  all_goals cases s <;> rfl

end Runs

section Sessions

/-- What the other side said in its Hello arrives. -/
theorem peerInfo_session (s : Bool) :
    (m.session s).peerInfo = .ok (m.hello !s).info := by
  obtain ⟨rest, hframe⟩ := m.frame_session s
  obtain ⟨r, href, hinfo⟩ := Hello.exists_ofRef (m.fits !s) rest
  rw [StartedSession.peerInfo, hframe, href, ok_bind, hinfo]

/-- The coders that are handed over belong together. -/
theorem synchronised_session :
    Connection.Synchronised crypto.toCrypto m.key
      ((m.session true).connection (m.session false)) [] := by
  intro s
  cases s with
  | initiator =>
      exact ⟨(m.mirror true).1, (m.mirror false).1, rfl, rfl,
        .inl ⟨rfl, rfl, .nil _⟩⟩
  | recipient =>
      exact ⟨(m.mirror false).1, (m.mirror true).1, rfl, rfl,
        .inl ⟨rfl, rfl, .nil _⟩⟩

end Sessions

end Meeting

open ConnectionEvent

/-- From two ends in step, any run that reads in order keeps them so. -/
theorem Connection.Synchronised.exists_foldlM {crypto : Crypto} {key : Bytes}
    {conn : Connection} (h : Synchronised crypto key conn [])
    {frames : List ConnectionEvent} (horder : InOrder frames)
    (hshort : ∀ s, ∀ f ∈ sent s frames, f.payload.length < 2 ^ 24) :
    ∃ conn', frames.foldlM (Connection.step crypto) conn = .ok conn' ∧
      Synchronised crypto key conn' frames := by
  induction frames using List.reverseRecOn with
  | nil => exact ⟨conn, rfl, h⟩
  | append_singleton frames event ih =>
      have hshort' : ∀ s, ∀ f ∈ sent s frames, f.payload.length < 2 ^ 24 := by
        intro s f hf
        refine hshort s f ?_
        rw [sent_append]
        exact List.mem_append_left _ hf
      obtain ⟨conn', hrun, hsync⟩ :=
        ih (horder.of_prefix (List.prefix_append frames [event])) hshort'
      obtain ⟨last, hstep, hlast⟩ := hsync.step horder hshort
      refine ⟨last, ?_, hlast⟩
      rw [List.foldlM_append, hrun, ok_bind, List.foldlM_cons, hstep]
      rfl

namespace Meeting

variable {crypto : HandshakeCrypto} (m : Meeting crypto)

/-- Two handshakes of one connection agree.  Whatever order the operations
complete in, and whatever fails on the way, no side starts more than one session,
and it starts it with the key and the Hello of the other side; and when both
have started one, every frame that is written afterwards is read. -/
theorem handshakes_agree (events : List (TalkEvent HandshakeFault)) :
    ∃ c, m.run events = .ok c ∧
      (∀ s, (c s).state.started.length ≤ 1 ∧ ∀ x ∈ (c s).state.started,
        x.remote = (m.host !s).pub ∧ x.peerInfo = .ok (m.hello !s).info) ∧
      ∀ x ∈ (c true).state.started, ∀ y ∈ (c false).state.started,
        ∀ frames, InOrder frames →
        (∀ s, ∀ f ∈ sent s frames, f.payload.length < 2 ^ 24) →
        ∃ conn, frames.foldlM (Connection.step crypto.toCrypto)
            (x.connection y) = .ok conn ∧ ∀ s,
          (conn s).headers = ((sent s.other frames).take
            (frames.count (.readHeader s))).map RLPXFrame.info ∧
          (conn s).frames = ((sent s.other frames).take
            (frames.count (.readFrame s))).map RLPXFrame.padded := by
  obtain ⟨c, k, hrun, hlast⟩ := Conversation.exists_run_onScript m.fit_script
    m.follows m.endures
    (Conversation.onScript_opened fun s => (m.at_zero s).toAt) events
  have hstarted : ∀ s, (c s).state.started = [] ∨
      (c s).state.started = [m.session s] := by
    intro s
    rcases hlast.state s with ⟨hat, -⟩ | hgone
    · exact hat.started_eq
    · exact hgone.started
  have honly : ∀ s, ∀ x ∈ (c s).state.started, x = m.session s := by
    intro s x hx
    rcases hstarted s with hnone | hone
    · rw [hnone] at hx
      cases hx
    · rw [hone] at hx
      exact List.mem_singleton.1 hx
  refine ⟨c, by rw [run, begun_eq]; exact hrun, fun s => ⟨?_, ?_⟩, ?_⟩
  · rcases hstarted s with hnone | hone
    · rw [hnone]
      exact Nat.zero_le _
    · rw [hone]
      exact le_rfl
  · intro x hx
    rw [honly s x hx]
    exact ⟨rfl, m.peerInfo_session s⟩
  · intro x hx y hy frames horder hshort
    rw [honly true x hx, honly false y hy]
    obtain ⟨conn, hframes, hsync⟩ :=
      m.synchronised_session.exists_foldlM horder hshort
    exact ⟨conn, hframes, fun s => ⟨(hsync s).headers, (hsync s).frames⟩⟩

/-- Ten rounds in which either side gets its chance bring both to the end of
their scripts. -/
theorem exists_run_turns {rounds : List (List Bool)}
    (hboth : ∀ turns ∈ rounds, ∀ s, s ∈ turns) (henough : 10 ≤ rounds.length) :
    ∃ c, m.run (rounds.flatten.map .turn) = .ok c ∧
      ∀ s, (c s).state.started = [m.session s] := by
  obtain ⟨c, hrun, hlast⟩ : ∃ c, m.run (rounds.flatten.map .turn) = .ok c ∧
      ∀ s, m.AtSteady s (m.script s).turns.length (c s).state := by
    rw [run, begun_eq]
    exact Conversation.exists_run_rounds m.fit_script m.live_script
      m.follows_steady m.at_zero hboth henough
  refine ⟨c, hrun, fun s => ?_⟩
  have hstarted := (hlast s).started
  have hlength : (m.script s).turns.length = 5 := by
    cases s <;> rfl
  rw [hstarted, hlength]
  rfl

/-- If nothing fails, both sides start a session, in whatever order the
operations complete: ten rounds in which either side gets its chance are
enough. -/
theorem handshakes_complete {rounds : List (List Bool)}
    (hboth : ∀ turns ∈ rounds, ∀ s, s ∈ turns) (henough : 10 ≤ rounds.length) :
    ∃ c, m.run (rounds.flatten.map .turn) = .ok c ∧ ∀ s, ∃ x,
      (c s).state.started = [x] ∧ x.remote = (m.host !s).pub ∧
        x.peerInfo = .ok (m.hello !s).info := by
  obtain ⟨c, hrun, hstarted⟩ := m.exists_run_turns hboth henough
  exact ⟨c, hrun, fun s =>
    ⟨m.session s, hstarted s, rfl, m.peerInfo_session s⟩⟩

/-- Functions to compute with: a sealed message begins with bytes that are
dropped, and a signature with the secret key, which here tells the public
one. -/
def sealingCrypto : HandshakeCrypto where
  toCrypto := plainCrypto
  encryptECIES _ b := List.replicate 113 0 ++ b
  decryptECIES _ b := some (b.drop 113)
  sign sec _ := sec.data ++ List.replicate 33 0
  recover b _ := RLP.alignRight 64 (b.take 32 ++ b.take 32)

def sealingHello : Hello where
  protocolVersion := 4
  clientVersion := [0x65]
  caps := [⟨[0x65], 61⟩, ⟨[0x73], 2⟩]
  listenPort := 30303
  id := RLP.alignRight 64 [7]

theorem fits_sealingHello : sealingHello.Fits :=
  ⟨by decide, by decide +kernel⟩

theorem length_encryptECIES (pub : H512) (b : Bytes) :
    (sealingCrypto.encryptECIES pub b).length = b.length + 113 := by
  show (List.replicate 113 0 ++ b).length = _
  rw [List.length_append, List.length_replicate, Nat.add_comm]

theorem decryptECIES_encryptECIES (sec : H256) (pub : H512) (b : Bytes) :
    sealingCrypto.decryptECIES sec (sealingCrypto.encryptECIES pub b) =
      some b := by
  show some ((List.replicate 113 0 ++ b).drop 113) = some b
  rw [List.drop_left' List.length_replicate]

theorem length_sealingSign (sec hash : H256) :
    (sealingCrypto.sign sec hash).length = 65 := by
  show (sec.data ++ List.replicate 33 0).length = 65
  rw [List.length_append, sec.size_data, List.length_replicate]

/-- The static keys of a side are those that the other one has for this
connection. -/
def sealingHost (s : Bool) : HandshakeHost :=
  let own := plainKeys.ecdhe (if s then .recipient else .initiator)
  { sec := own.sec, pub := own.pub, helloPacket := sealingHello.wire }

/-- Two hosts that meet. -/
def sealingMeeting : Meeting sealingCrypto where
  host := sealingHost
  hello _ := sealingHello
  ecdhe s := plainKeys.ecdhe (if s then .initiator else .recipient)
  nonce s := plainKeys.nonce (if s then .initiator else .recipient)
  unknown := RLP.alignRight 64 []
  packet _ := Hello.packet_eq fits_sealingHello
  fits _ := fits_sealingHello
  fresh s := by cases s <;> rfl
  length_sealed s b _ := length_encryptECIES (sealingHost s).pub b
  unsealed s b _ :=
    decryptECIES_encryptECIES (sealingHost s).sec (sealingHost s).pub b
  length_sign hash := length_sealingSign (plainKeys.ecdhe .initiator).sec hash
  recovered _ := rfl
  agree := by decide
  agreeEphemeral := by decide

/-- Both sides take turns. -/
theorem handshakes_complete_sealing :
    ∃ c, sealingMeeting.run
        ((List.replicate 10 [true, false]).flatten.map .turn) = .ok c ∧
      ∀ s, ∃ x, (c s).state.started = [x] ∧
        x.remote = (sealingMeeting.host !s).pub ∧
        x.peerInfo = .ok sealingHello.info :=
  @handshakes_complete sealingCrypto sealingMeeting
    (List.replicate 10 [true, false]) (by decide) (by decide)

/-- Once both have started a session, a packet in a first frame goes each way,
and both are read. -/
def sealingFrames : List ConnectionEvent :=
  [.write .initiator (.first 7 1 300 [1, 2, 3]), .write .recipient (.first 7 1 2 [4, 5]),
    .readHeader .recipient, .readFrame .recipient,
    .readHeader .initiator, .readFrame .initiator]

theorem inOrder_sealingFrames : InOrder sealingFrames := by
  intro pre hpre s
  rw [← List.mem_inits] at hpre
  revert pre
  cases s <;> decide

/-- The handshake is completed, and what is written to either coder is read by
the other one. -/
theorem handshakes_agree_exchanged :
    ∃ c x y conn, sealingMeeting.run
        ((List.replicate 10 [true, false]).flatten.map .turn) = .ok c ∧
      (c true).state.started = [x] ∧ (c false).state.started = [y] ∧
      x.peerInfo = .ok sealingHello.info ∧ y.peerInfo = .ok sealingHello.info ∧
      sealingFrames.foldlM (Connection.step plainCrypto) (x.connection y) =
        .ok conn ∧
      (conn .recipient).frames = [RLPXFrame.padded (.first 7 1 300 [1, 2, 3])] ∧
      (conn .initiator).frames = [RLPXFrame.padded (.first 7 1 2 [4, 5])] := by
  obtain ⟨c, hrun, hsessions⟩ := @exists_run_turns sealingCrypto sealingMeeting
    (List.replicate 10 [true, false]) (by decide) (by decide)
  obtain ⟨c', hrun', hstarted, hframes⟩ := sealingMeeting.handshakes_agree
    ((List.replicate 10 [true, false]).flatten.map .turn)
  obtain rfl := Except.ok.inj (hrun'.symm.trans hrun)
  have hmem : ∀ s, sealingMeeting.session s ∈ (c' s).state.started := by
    intro s
    rw [hsessions s]
    exact List.mem_singleton_self _
  obtain ⟨conn, hconn, hread⟩ := hframes _ (hmem true) _ (hmem false) sealingFrames
    inOrder_sealingFrames (by intro s; cases s <;> decide)
  exact ⟨c', _, _, conn, hrun, hsessions true, hsessions false,
    ((hstarted true).2 _ (hmem true)).2, ((hstarted false).2 _ (hmem false)).2,
    hconn, (hread .recipient).2, (hread .initiator).2⟩

end Meeting

end Web3Core
