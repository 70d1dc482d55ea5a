/-
`CryptoPP.h` and `CryptoPP.cpp`, and what `Common.h` and `Common.cpp` make of
them: key pairs, symmetric encryption with AES in counter mode, and ECIES.  The
functions of the crypto library are parameters.
-/
import Web3Core.SecureFixedHash

namespace Web3Core

abbrev H128 := FixedHash 16

/-- `KeyPair`, populated from the secret. -/
structure KeyPair (toPublic : H256 → H512) where
  secret : H256
  pub : H512
  populated : pub = toPublic secret

def KeyPair.ofSecret {toPublic : H256 → H512} (k : H256) : KeyPair toPublic :=
  ⟨k, toPublic k, rfl⟩

/-- `ProcessData` of AES in counter mode with a key and an IV, or `none` where
the library throws. -/
abbrev AESCounter := Bytes → H128 → Bytes → Option Bytes

namespace AESCounter

variable (aes : AESCounter)

/-- `encryptAES128CTR`, which takes keys of three sizes and returns nothing
where it does not encrypt. -/
def encryptAES128CTR (k : Bytes) (iv : H128) (plain : Bytes) : Bytes :=
  if k.length ≠ 16 ∧ k.length ≠ 24 ∧ k.length ≠ 32 then []
  else (aes k iv plain).getD []

/-- `decryptAES128CTR`. -/
def decryptAES128CTR (k : Bytes) (iv : H128) (cipher : Bytes) : Bytes :=
  if k.length ≠ 16 ∧ k.length ≠ 24 ∧ k.length ≠ 32 then []
  else (aes k iv cipher).getD []

def encryptSymNoAuth {N : Nat} (k : SecureFixedHash N) (iv : H128)
    (plain : Bytes) : Bytes :=
  encryptAES128CTR aes k.base.data iv plain

def decryptSymNoAuth {N : Nat} (k : SecureFixedHash N) (iv : H128)
    (cipher : Bytes) : Bytes :=
  decryptAES128CTR aes k.base.data iv cipher

/-- With a key of 16 bytes and an IV, what is not empty is encrypted to as many
bytes, and encrypting them once more gives it back. -/
def Involutive : Prop :=
  ∀ k iv b, k.length = 16 → b ≠ [] →
    ∃ b', aes k iv b = some b' ∧ b'.length = b.length ∧ aes k iv b' = some b

variable {aes}

theorem Involutive.exists_encrypt (h : aes.Involutive) (k : SecureFixedHash 16)
    (iv : H128) {plain : Bytes} (hne : plain ≠ []) :
    (encryptSymNoAuth aes k iv plain).length = plain.length ∧
      decryptSymNoAuth aes k iv (encryptSymNoAuth aes k iv plain) = plain := by
  obtain ⟨cipher, hcipher, hlength, hplain⟩ :=
    h k.base.data iv plain k.base.size_data hne
  have hsize : ¬ (k.base.data.length ≠ 16 ∧ k.base.data.length ≠ 24 ∧
      k.base.data.length ≠ 32) := fun hsizes => hsizes.1 k.base.size_data
  have hencrypt : encryptSymNoAuth aes k iv plain = cipher := by
    rw [encryptSymNoAuth, encryptAES128CTR, if_neg hsize, hcipher,
      Option.getD_some]
  rw [hencrypt, decryptSymNoAuth, decryptAES128CTR, if_neg hsize, hplain,
    Option.getD_some]
  exact ⟨hlength, rfl⟩

/-- A cipher to compute with: the bytes are combined with the first one of
the IV. -/
def plain : AESCounter :=
  fun _ iv b => if b = [] then none else some (b.map (· ^^^ iv.data.headD 0))

theorem involutive_plain : plain.Involutive := by
  intro k iv b _ hne
  have hne' : b.map (· ^^^ iv.data.headD 0) ≠ [] := by simpa using hne
  have hcancel : (fun x => x ^^^ iv.data.headD 0) ∘ (· ^^^ iv.data.headD 0) =
      (id : Byte → Byte) := by
    funext x
    rw [Function.comp_apply, UInt8.xor_assoc, UInt8.xor_self, UInt8.xor_zero,
      id_eq]
  refine ⟨_, if_neg hne, List.length_map _, ?_⟩
  rw [plain, if_neg hne', List.map_map, hcancel, List.map_id]

end AESCounter

/-! Parts of a buffer. -/

/-- `cropped(start, len)`: nothing where it goes out of bounds. -/
def croppedBytes (b : Bytes) (start len : Nat) : Bytes :=
  if start + len ≤ b.length then (b.drop start).take len else []

/-- `copyTo` a part of the buffer that starts at `offset`. -/
def copyAt (buffer : Bytes) (offset : Nat) (b : Bytes) : Bytes :=
  buffer.take offset ++ b ++ buffer.drop (offset + b.length)

/-! The key derivation. -/

/-- `++ctr[3] || ++ctr[2] || ++ctr[1] || ++ctr[0]`. -/
def nextCounter : Bytes → Bytes
  | [a, b, c, d] =>
      if d + 1 ≠ 0 then [a, b, c, d + 1]
      else if c + 1 ≠ 0 then [a, b, c + 1, d + 1]
      else if b + 1 ≠ 0 then [a, b + 1, c + 1, d + 1]
      else [a + 1, b + 1, c + 1, d + 1]
  | ctr => ctr

/-- The loop of `eciesKDF`, which appends a hash in every round. -/
def kdfLoop (sha256 : Bytes → H256) (z : H256) (s1 : Bytes) :
    Nat → Bytes → Bytes → Bytes
  | 0, _, k => k
  | rounds + 1, ctr, k =>
      let digest := sha256 (ctr ++ z.data ++ s1)
      kdfLoop sha256 z s1 rounds (nextCounter ctr) (k ++ digest.data)

/-- `eciesKDF`.  The number of rounds is computed with `unsigned` numbers. -/
def eciesKDF (sha256 : Bytes → H256) (z : H256) (s1 : Bytes)
    (kdByteLen : Nat) : Bytes :=
  let reps := toUnsigned (toUnsigned (kdByteLen + 7 : Nat) * 8 : Nat) / (64 * 8)
  resized (kdfLoop sha256 z s1 (reps + 1) [0, 0, 0, 1] []) kdByteLen

/-! ECIES. -/

/-- What ECIES takes from the crypto library. -/
structure ECIESCrypto where
  toPublic : H256 → H512
  agree : H256 → H512 → H256
  sha256 : Bytes → H256
  hmac : Bytes → Bytes → H256
  aes : AESCounter

namespace ECIESCrypto

variable (crypto : ECIESCrypto)

/-- `eKey`. -/
def encryptionKey (key : Bytes) : SecureFixedHash 16 :=
  SecureFixedHash.fromBytes 16 (croppedBytes key 0 16) .failIfDifferent

/-- `mKey`. -/
def macKey (key : Bytes) : Bytes :=
  (crypto.sha256 (croppedBytes key 16 16)).data

/-- `Secp256k1PP::encryptECIES` with the key pair `r` that is created; what it
leaves in its argument. -/
def encryptECIES (r : KeyPair crypto.toPublic) (k : H512) (io : Bytes) :
    Bytes :=
  let z := crypto.agree r.secret k
  let key := eciesKDF crypto.sha256 z [] 32
  let mKey := crypto.macKey key
  let cipherText := crypto.aes.encryptSymNoAuth (encryptionKey key)
    (FixedHash.zero 16) io
  if cipherText = [] then io
  else
    let msg := List.replicate (1 + 64 + 16 + cipherText.length + 32) 0
    let msg := msg.set 0 0x04
    let msg := copyAt msg 1 r.pub.data
    let msg := copyAt msg (1 + 64 + 16) cipherText
    let cipherWithIV := croppedBytes msg (1 + 64) (16 + cipherText.length)
    copyAt msg (1 + 64 + cipherWithIV.length)
      (crypto.hmac mKey cipherWithIV).data

/-- `Secp256k1PP::decryptECIES`, and what it leaves in its argument. -/
def decryptECIES (k : H256) (io : Bytes) : Bool × Bytes :=
  if io = [] ∨ io.headD 0 < 2 ∨ io.headD 0 > 4 then (false, io)
  else if io.length < 1 + 64 + 16 + 1 + 32 then (false, io)
  else
    let z := crypto.agree k
      (FixedHash.fromBytes 64 (croppedBytes io 1 64) .failIfDifferent)
    let key := eciesKDF crypto.sha256 z [] 64
    let mKey := crypto.macKey key
    let cipherLen := io.length - 1 - 64 - 16 - 32
    let cipherWithIV := croppedBytes io (1 + 64) (16 + cipherLen)
    let cipherIV := croppedBytes cipherWithIV 0 16
    let cipherNoIV := croppedBytes cipherWithIV 16 cipherLen
    let msgMac := croppedBytes io (1 + 64 + 16 + cipherLen) 32
    let iv := FixedHash.fromBytes 16 cipherIV .failIfDifferent
    let mac := crypto.hmac mKey cipherWithIV
    if (List.range 32).any fun i => mac.data.getD i 0 != msgMac.getD i 0 then
      (false, io)
    else (true, crypto.aes.decryptSymNoAuth (encryptionKey key) iv cipherNoIV)

end ECIESCrypto

end Web3Core
