/-
ECIES decryption undoes encryption: where the five fields of a message lie, what
decryption makes of a message with these fields, and why both sides take the
same keys from derivations of different lengths.  The sizes that the handshake
reads are those that it writes.
-/
import Web3Core.CryptoPP
import Web3Core.HandshakeChecks

namespace Web3Core

section Buffers

variable {before part after b : Bytes} {start len n : Nat}

theorem croppedBytes_append (hstart : before.length = start)
    (hlen : part.length = len) :
    croppedBytes (before ++ part ++ after) start len = part := by
  subst hstart hlen
  have hbounds : before.length + part.length ≤
      (before ++ part ++ after).length := by simp
  rw [croppedBytes, if_pos hbounds, List.append_assoc, List.drop_left,
    List.take_left]

theorem copyAt_append (hstart : before.length = start)
    (hlen : part.length = b.length) :
    copyAt (before ++ part ++ after) start b = before ++ b ++ after := by
  subst hstart
  have htail : (before ++ part ++ after).drop (before.length + b.length) =
      after := by
    rw [← hlen, ← List.length_append, List.drop_left]
  rw [copyAt, htail, List.append_assoc before part, List.take_left]

end Buffers

/-! The key derivation at the two lengths. -/

section Derivation

variable (sha256 : Bytes → H256) (z : H256)

theorem eciesKDF_32 :
    eciesKDF sha256 z [] 32 = (sha256 ([0, 0, 0, 1] ++ z.data)).data := by
  have hreps : toUnsigned (toUnsigned (32 + 7 : Nat) * 8 : Nat) / (64 * 8) =
      0 := by decide
  rw [eciesKDF, hreps]
  simp [kdfLoop, resized, (sha256 _).size_data, List.take_of_length_le]

theorem eciesKDF_64 :
    eciesKDF sha256 z [] 64 = (sha256 ([0, 0, 0, 1] ++ z.data)).data ++
      (sha256 ([0, 0, 0, 2] ++ z.data)).data := by
  have hreps : toUnsigned (toUnsigned (64 + 7 : Nat) * 8 : Nat) / (64 * 8) =
      1 := by decide
  have hnext : nextCounter [0, 0, 0, 1] = [0, 0, 0, 2] := by decide
  rw [eciesKDF, hreps]
  simp [kdfLoop, hnext, resized, (sha256 _).size_data, List.take_of_length_le]

/-- The keys are taken from the first hash. -/
theorem croppedBytes_kdf {start len : Nat} (h : start + len ≤ 32) :
    croppedBytes (eciesKDF sha256 z [] 64) start len =
      croppedBytes (eciesKDF sha256 z [] 32) start len := by
  have hsize := (sha256 ([0, 0, 0, 1] ++ z.data)).size_data
  rw [eciesKDF_32, eciesKDF_64, croppedBytes, croppedBytes,
    if_pos (by rw [List.length_append]; omega), if_pos (by omega),
    List.drop_append_of_le_length (by omega),
    List.take_append_of_le_length (by rw [List.length_drop]; omega)]

end Derivation

namespace ECIESCrypto

variable {crypto : ECIESCrypto} {first : Byte} {pub : H512} {iv : H128}
  {cipher : Bytes} {tag : H256} {k z : H256}

/-- A message of five fields: a byte for the kind of the key, the ephemeral
public key, the IV, the encrypted text and the tag. -/
def sealed (first : Byte) (pub : H512) (iv : H128) (cipher : Bytes)
    (tag : H256) : Bytes :=
  [first] ++ pub.data ++ (iv.data ++ cipher) ++ tag.data

theorem length_sealed :
    (sealed first pub iv cipher tag).length = cipher.length + 113 := by
  simp only [sealed, List.length_append, List.length_singleton, pub.size_data,
    iv.size_data, tag.size_data]
  omega

theorem encryptionKey_kdf :
    encryptionKey (eciesKDF crypto.sha256 z [] 64) =
      encryptionKey (eciesKDF crypto.sha256 z [] 32) := by
  rw [encryptionKey, encryptionKey, croppedBytes_kdf _ _ (by decide)]

theorem macKey_kdf :
    crypto.macKey (eciesKDF crypto.sha256 z [] 64) =
      crypto.macKey (eciesKDF crypto.sha256 z [] 32) := by
  rw [macKey, macKey, croppedBytes_kdf _ _ (by decide)]

/-- The buffer is filled with the five fields. -/
theorem encryptECIES_eq {r : KeyPair crypto.toPublic} {io : Bytes}
    (hcipher : crypto.aes.encryptSymNoAuth
      (encryptionKey (eciesKDF crypto.sha256 (crypto.agree r.secret pub) [] 32))
      (FixedHash.zero 16) io = cipher) (hne : cipher ≠ []) :
    crypto.encryptECIES r pub io = sealed 0x04 r.pub (FixedHash.zero 16) cipher
      (crypto.hmac (crypto.macKey (eciesKDF crypto.sha256
        (crypto.agree r.secret pub) [] 32))
        ((FixedHash.zero 16).data ++ cipher)) := by
  generalize hkey : eciesKDF crypto.sha256 (crypto.agree r.secret pub) [] 32 =
    key at hcipher ⊢
  have hzeros : (List.replicate (1 + 64 + 16 + cipher.length + 32) 0).set 0
      0x04 = [(0x04 : Byte)] ++ List.replicate 64 0 ++
        ((FixedHash.zero 16).data ++ List.replicate cipher.length 0 ++
          List.replicate 32 0) := by
    simp only [FixedHash.zero, List.replicate_append_replicate,
      List.append_assoc]
    rw [show 1 + 64 + 16 + cipher.length + 32 =
      64 + (16 + (cipher.length + 32)) + 1 by omega, List.replicate_succ]
    simp [Nat.add_assoc]
  have hpub : copyAt ([(0x04 : Byte)] ++ List.replicate 64 0 ++
      ((FixedHash.zero 16).data ++ List.replicate cipher.length 0 ++
        List.replicate 32 0)) 1 r.pub.data =
      [0x04] ++ r.pub.data ++ (FixedHash.zero 16).data ++
        List.replicate cipher.length 0 ++ List.replicate 32 0 := by
    rw [copyAt_append (show [(0x04 : Byte)].length = 1 from rfl)
      (List.length_replicate.trans r.pub.size_data.symm)]
    simp only [List.append_assoc]
  have htext : copyAt ([0x04] ++ r.pub.data ++ (FixedHash.zero 16).data ++
      List.replicate cipher.length 0 ++ List.replicate 32 0) (1 + 64 + 16)
        cipher = [0x04] ++ r.pub.data ++ ((FixedHash.zero 16).data ++ cipher) ++
          List.replicate 32 0 := by
    rw [copyAt_append (by simp [r.pub.size_data, (FixedHash.zero 16).size_data])
      List.length_replicate]
    simp only [List.append_assoc]
  have hsigned : croppedBytes ([0x04] ++ r.pub.data ++
      ((FixedHash.zero 16).data ++ cipher) ++ List.replicate 32 0) (1 + 64)
        (16 + cipher.length) = (FixedHash.zero 16).data ++ cipher :=
    croppedBytes_append (by simp [r.pub.size_data])
      (by rw [List.length_append, (FixedHash.zero 16).size_data])
  simp only [encryptECIES, hkey, hcipher, if_neg hne, hzeros, hpub, htext,
    hsigned]
  rw [← List.append_nil (_ ++ List.replicate 32 0),
    copyAt_append _ (by rw [FixedHash.size_data, List.length_replicate]),
    List.append_nil, sealed]
  simp only [List.length_append, List.length_singleton, r.pub.size_data]

/-- The loop over the bytes of the tag compares them all. -/
theorem any_bne_iff {a b : Bytes} (ha : a.length = 32) (hb : b.length = 32) :
    ((List.range 32).any fun i => a.getD i 0 != b.getD i 0) = true ↔ a ≠ b := by
  rw [List.any_eq_true]
  constructor
  · rintro ⟨i, -, hi⟩ rfl
    simp at hi
  · intro hne
    by_contra hall
    refine hne (List.ext_getElem (ha.trans hb.symm) fun i hi hi' => ?_)
    by_contra hdiffer
    refine hall ⟨i, List.mem_range.2 (ha ▸ hi), ?_⟩
    simpa [hi, hi'] using hdiffer

/-- The tag that decryption expects. -/
def expectedTag (crypto : ECIESCrypto) (k : H256) (pub : H512) (iv : H128)
    (cipher : Bytes) : H256 :=
  let key := eciesKDF crypto.sha256 (crypto.agree k pub) [] 64
  crypto.hmac (crypto.macKey key) (iv.data ++ cipher)

/-- What decryption makes of the five fields. -/
theorem decryptECIES_sealed (hfirst : 2 ≤ first ∧ first ≤ 4)
    (hne : cipher ≠ []) :
    crypto.decryptECIES k (sealed first pub iv cipher tag) =
      if crypto.expectedTag k pub iv cipher = tag then
        (true, crypto.aes.decryptSymNoAuth (encryptionKey
          (eciesKDF crypto.sha256 (crypto.agree k pub) [] 64)) iv cipher)
      else (false, sealed first pub iv cipher tag) := by
  have hpos := List.length_pos_iff.2 hne
  have hlen : (sealed first pub iv cipher tag).length - 1 - 64 - 16 - 32 =
      cipher.length := by
    rw [length_sealed]
    omega
  have hhead : ¬ (sealed first pub iv cipher tag = [] ∨
      (sealed first pub iv cipher tag).headD 0 < 2 ∨
        (sealed first pub iv cipher tag).headD 0 > 4) := by
    have hshape : sealed first pub iv cipher tag =
        first :: (pub.data ++ (iv.data ++ cipher) ++ tag.data) := by
      simp [sealed]
    rw [hshape]
    simpa using hfirst
  have hlong : ¬ (sealed first pub iv cipher tag).length <
      1 + 64 + 16 + 1 + 32 := by
    rw [length_sealed]
    omega
  have hpub : croppedBytes (sealed first pub iv cipher tag) 1 64 =
      pub.data := by
    rw [sealed, List.append_assoc]
    exact croppedBytes_append rfl pub.size_data
  have hsigned : croppedBytes (sealed first pub iv cipher tag) (1 + 64)
      (16 + cipher.length) = iv.data ++ cipher :=
    croppedBytes_append (by simp [pub.size_data])
      (by rw [List.length_append, iv.size_data])
  have hiv : croppedBytes (iv.data ++ cipher) 0 16 = iv.data :=
    croppedBytes_append (show ([] : Bytes).length = 0 from rfl) iv.size_data
  have htext : croppedBytes (iv.data ++ cipher) 16 cipher.length = cipher := by
    rw [← List.append_nil (iv.data ++ cipher)]
    exact croppedBytes_append iv.size_data rfl
  have htag : croppedBytes (sealed first pub iv cipher tag)
      (1 + 64 + 16 + cipher.length) 32 = tag.data := by
    rw [sealed, ← List.append_nil (_ ++ tag.data)]
    refine croppedBytes_append ?_ tag.size_data
    simp [pub.size_data, iv.size_data]
    omega
  have hpublic : FixedHash.fromBytes 64 pub.data .failIfDifferent = pub := by
    rw [FixedHash.fromBytes, FixedHash.construct, dif_pos pub.size_data]
  have hzero : FixedHash.fromBytes 16 iv.data .failIfDifferent = iv := by
    rw [FixedHash.fromBytes, FixedHash.construct, dif_pos iv.size_data]
  rw [decryptECIES, if_neg hhead, if_neg hlong]
  simp only [hlen, hpub, hpublic, hsigned, hiv, hzero, htext, htag]
  rw [← expectedTag]
  generalize crypto.expectedTag k pub iv cipher = mac
  by_cases hmac : mac = tag
  · have hsame : ¬ ((List.range 32).any fun i =>
        mac.data.getD i 0 != tag.data.getD i 0) = true := by
      rw [any_bne_iff mac.size_data tag.size_data]
      exact not_not.2 (congrArg FixedHash.data hmac)
    rw [if_neg hsame, if_pos hmac]
  · have hother : ((List.range 32).any fun i =>
        mac.data.getD i 0 != tag.data.getD i 0) = true := by
      rw [any_bne_iff mac.size_data tag.size_data]
      exact fun h => hmac (FixedHash.ext h)
    rw [if_pos hother, if_neg hmac]

/-- A message with another tag is refused and left as it is. -/
theorem decryptECIES_of_ne (h : crypto.expectedTag k pub iv cipher ≠ tag) :
    crypto.decryptECIES k (sealed first pub iv cipher tag) =
      (false, sealed first pub iv cipher tag) := by
  by_cases hfirst : 2 ≤ first ∧ first ≤ 4
  · by_cases hne : cipher = []
    · have hshort : (sealed first pub iv cipher tag).length <
          1 + 64 + 16 + 1 + 32 := by
        rw [length_sealed, hne]
        decide
      rw [decryptECIES, if_pos hshort, ite_self]
    · rw [decryptECIES_sealed hfirst hne, if_neg h]
  · have hhead : sealed first pub iv cipher tag = [] ∨
        (sealed first pub iv cipher tag).headD 0 < 2 ∨
          (sealed first pub iv cipher tag).headD 0 > 4 := by
      rw [not_and_or, not_le, not_le] at hfirst
      exact .inr hfirst
    rw [decryptECIES, if_pos hhead]

variable {r p : KeyPair crypto.toPublic} {m : Bytes}

/-- Matching key pairs: both agree on one secret. -/
def Agrees (crypto : ECIESCrypto) (r p : KeyPair crypto.toPublic) : Prop :=
  crypto.agree r.secret p.pub = crypto.agree p.secret r.pub

theorem length_encryptECIES (haes : crypto.aes.Involutive) (hne : m ≠ []) :
    (crypto.encryptECIES r pub m).length = m.length + 113 := by
  obtain ⟨hlength, -⟩ := haes.exists_encrypt (encryptionKey
    (eciesKDF crypto.sha256 (crypto.agree r.secret pub) [] 32))
    (FixedHash.zero 16) hne
  have hcipher := List.ne_nil_of_length_pos
    (hlength.symm ▸ List.length_pos_iff.2 hne)
  rw [encryptECIES_eq rfl hcipher, length_sealed, hlength]

theorem decryptECIES_encryptECIES (haes : crypto.aes.Involutive)
    (hagree : crypto.Agrees r p) (hne : m ≠ []) :
    crypto.decryptECIES p.secret (crypto.encryptECIES r p.pub m) =
      (true, m) := by
  obtain ⟨hlength, hplain⟩ := haes.exists_encrypt (encryptionKey
    (eciesKDF crypto.sha256 (crypto.agree r.secret p.pub) [] 32))
    (FixedHash.zero 16) hne
  have hcipher := List.ne_nil_of_length_pos
    (hlength.symm ▸ List.length_pos_iff.2 hne)
  rw [encryptECIES_eq rfl hcipher, decryptECIES_sealed (by decide) hcipher,
    expectedTag, ← hagree, macKey_kdf, if_pos rfl, encryptionKey_kdf, hplain]

/-- The library of the handshake with this encryption, for which a key pair is
created every time. -/
def handshake (crypto : ECIESCrypto) (base : HandshakeCrypto)
    (create : H512 → Bytes → KeyPair crypto.toPublic) : HandshakeCrypto :=
  { base with
    encryptECIES := fun k plain => crypto.encryptECIES (create k plain) k plain
    decryptECIES := fun k cipher =>
      let r := crypto.decryptECIES k cipher
      if r.1 then some r.2 else none }

/-- A message of `size` bytes is sent encrypted, with as many bytes as the
other side reads. -/
def Sends (library : HandshakeCrypto) (remote : H512) (size sealedSize : Nat)
    (read : SocketOperation) (sent : Bytes) : Prop :=
  (∃ message : Bytes, message.length = size ∧
    sent = library.encryptECIES remote message) ∧
  sent.length = sealedSize ∧ read.size = sealedSize

variable {base : HandshakeCrypto}
  {create : H512 → Bytes → KeyPair crypto.toPublic}

theorem sends_of_length (haes : crypto.aes.Involutive) {remote : H512}
    {size : Nat} {read : SocketOperation} {message : Bytes}
    (hsize : message.length = size) (hpos : 0 < size)
    (hread : read.size = size + 113) :
    Sends (crypto.handshake base create) remote size (size + 113) read
      ((crypto.handshake base create).encryptECIES remote message) := by
  have hne : message ≠ [] := List.ne_nil_of_length_pos (hsize ▸ hpos)
  refine ⟨⟨message, hsize, rfl⟩, ?_, hread⟩
  rw [← hsize]
  exact length_encryptECIES haes hne

theorem sends_auth (haes : crypto.aes.Involutive)
    (hsign : ∀ sec hash, (base.sign sec hash).length = 65)
    (host : HandshakeHost) (h : RLPXHandshake) :
    Sends (crypto.handshake base create) h.remote 194 307 .readAuth
      (h.writeAuth (crypto.handshake base create) host).authCipher := by
  refine sends_of_length haes ?_ (by decide) rfl
  simp only [handshake, List.length_append, hsign, FixedHash.size_data,
    List.length_singleton]

theorem sends_ack (haes : crypto.aes.Involutive) (h : RLPXHandshake) :
    Sends (crypto.handshake base create) h.remote 97 210 .readAck
      (h.writeAck (crypto.handshake base create)).ackCipher := by
  refine sends_of_length haes ?_ (by decide) rfl
  simp only [List.length_append, FixedHash.size_data, List.length_singleton]

/-- **ECIES.**  A text that is not empty is encrypted to 113 bytes more, and
decrypted with the matching secret; so the auth and the ack message have the
sizes that are read; and where the HMAC of the key, the IV and the encrypted
text is not the tag, decryption fails and leaves its argument. -/
theorem ecies_roundTrip (haes : crypto.aes.Involutive) :
    (∀ (r p : KeyPair crypto.toPublic) (m : Bytes), crypto.Agrees r p →
      m ≠ [] → (crypto.encryptECIES r p.pub m).length = m.length + 113 ∧
        crypto.decryptECIES p.secret (crypto.encryptECIES r p.pub m) =
          (true, m)) ∧
    (∀ base create, (∀ sec hash, (base.sign sec hash).length = 65) →
      ∀ (host : HandshakeHost) (h : RLPXHandshake),
        Sends (crypto.handshake base create) h.remote 194 307 .readAuth
          (h.writeAuth (crypto.handshake base create) host).authCipher ∧
        Sends (crypto.handshake base create) h.remote 97 210 .readAck
          (h.writeAck (crypto.handshake base create)).ackCipher) ∧
    ∀ k first pub iv cipher tag, crypto.expectedTag k pub iv cipher ≠ tag →
      crypto.decryptECIES k (sealed first pub iv cipher tag) =
        (false, sealed first pub iv cipher tag) := by
  refine ⟨?_, ?_, ?_⟩
  · intro r p m hagree hne
    exact ⟨length_encryptECIES haes hne,
      decryptECIES_encryptECIES haes hagree hne⟩
  · intro base create hsign host h
    exact ⟨sends_auth haes hsign host h, sends_ack haes h⟩
  · intro k first pub iv cipher tag h
    exact decryptECIES_of_ne h

/-- Functions to compute with. -/
def plainECIES : ECIESCrypto where
  toPublic k := RLP.alignRight 64 k.data
  agree sec pub := RLP.alignRight 32 (xorBytes sec.data (pub.data.drop 32))
  sha256 b := RLP.alignRight 32 b.reverse
  hmac k b := RLP.alignRight 32 (xorBytes k b)
  aes := AESCounter.plain

theorem ecies_roundTrip_plain :
    let r : KeyPair plainECIES.toPublic := .ofSecret (RLP.alignRight 32 [1, 2])
    let p : KeyPair plainECIES.toPublic := .ofSecret (RLP.alignRight 32 [3])
    plainECIES.decryptECIES p.secret (plainECIES.encryptECIES r p.pub [7, 8]) =
        (true, [7, 8]) ∧
      ((RLPXHandshake.setup true p.pub (plainKeys.ecdhe .initiator)
        (RLP.alignRight 32 [5])).writeAuth
          (plainECIES.handshake RLPXHandshake.plainHandshake fun _ _ => r)
          RLPXHandshake.plainHost).authCipher.length = 307 ∧
      plainECIES.decryptECIES p.secret
          (sealed 4 r.pub (FixedHash.zero 16) [1] (FixedHash.zero 32)) =
        (false,
          sealed 4 r.pub (FixedHash.zero 16) [1] (FixedHash.zero 32)) := by
  intro r p
  obtain ⟨hround, hhandshake, htampered⟩ :=
    @ecies_roundTrip plainECIES AESCounter.involutive_plain
  have hagree : plainECIES.Agrees r p := by
    unfold Agrees
    decide +kernel
  refine ⟨(hround r p [7, 8] hagree (by decide)).2, ?_, ?_⟩
  · have hsends := hhandshake RLPXHandshake.plainHandshake (fun _ _ => r)
      (fun _ _ => List.length_replicate) RLPXHandshake.plainHost
      (RLPXHandshake.setup true p.pub (plainKeys.ecdhe .initiator)
        (RLP.alignRight 32 [5]))
    exact hsends.1.2.1
  · exact htampered _ 4 r.pub _ [1] _ (by decide +kernel)

end ECIESCrypto

end Web3Core
