/-
`SecretStore` gives back what it encrypted: the object that is written for a
secret, what decryption makes of it with the same and with another password, and
what changing the password leaves in the store.
-/
import Mathlib.Logic.Equiv.List
import Mathlib.Tactic.DeriveEncodable
import Web3Core.SecretStore

namespace Web3Core

namespace StoreLibrary

variable {lib : StoreLibrary} {s pass other : Bytes} {kdf : KDF} {salt : H256}
  {iv : H128}

/-- What is relied on: the derivations have the length that is asked for, AES
in counter mode undoes itself and makes nothing of nothing, and reading a JSON
text undoes writing it. -/
structure Lawful (lib : StoreLibrary) : Prop where
  length_pbkdf2 : ∀ pass salt iterations dkLen,
    (lib.pbkdf2 pass salt iterations dkLen).length = dkLen
  length_scrypt : ∀ pass salt n r p dkLen,
    (lib.scrypt pass salt n r p dkLen).length = dkLen
  aes : lib.aes.Involutive
  aes_nil : ∀ k iv, (lib.aes k iv []).getD [] = []
  read_write : ∀ v pretty, lib.readString (lib.writeString v pretty) = some v

/-- The key that is derived from a password. -/
def derivedKey (lib : StoreLibrary) (pass : Bytes) (kdf : KDF) (salt : H256) :
    Bytes :=
  (lib.deriveNewKey pass kdf salt .nil).1

/-- The bytes of that key that the MAC is made with. -/
def macPart (lib : StoreLibrary) (pass : Bytes) (kdf : KDF) (salt : H256) :
    Bytes :=
  croppedBytes (lib.derivedKey pass kdf salt) 16 16

/-- The object that is written for an encrypted secret. -/
def keyObject (derived : JSObject) (iv : H128) (cipherText : Bytes)
    (mac : H256) : JSObject :=
  derived.set "cipher" (.str (ascii "aes-128-ctr"))
    |>.set "cipherparams"
      (.obj (JSObject.nil.set "iv" (.str (toHex iv.data 2 false))))
    |>.set "ciphertext" (.str (toHex cipherText 2 false))
    |>.set "mac" (.str (toHex mac.data 2 false))

theorem Lawful.length_derivedKey (hlib : lib.Lawful) (pass : Bytes) (kdf : KDF)
    (salt : H256) : (lib.derivedKey pass kdf salt).length = 32 := by
  cases kdf with
  | pbkdf2SHA256 => exact hlib.length_pbkdf2 _ _ _ _
  | scrypt => exact hlib.length_scrypt _ _ _ _ _ _

/-- The encrypted secret. -/
def cipherText (lib : StoreLibrary) (s pass : Bytes) (kdf : KDF) (salt : H256)
    (iv : H128) : Bytes :=
  lib.aes.encryptSymNoAuth
    (SecureFixedHash.fromSec 16 (lib.derivedKey pass kdf salt) .left) iv s

/-- What the MAC is made of, with the key that is derived from `other`. -/
def macInput (lib : StoreLibrary) (s pass : Bytes) (kdf : KDF) (salt : H256)
    (iv : H128) (other : Bytes) : Bytes :=
  lib.macPart other kdf salt ++ lib.cipherText s pass kdf salt iv

theorem Lawful.length_cipherText (hlib : lib.Lawful) (hne : s ≠ []) :
    (lib.cipherText s pass kdf salt iv).length = s.length :=
  (hlib.aes.exists_encrypt _ iv hne).1

/-- The text that is written. -/
theorem Lawful.encrypt_eq (hlib : lib.Lawful) (hne : s ≠ []) :
    lib.encrypt s pass kdf salt iv = .ok (lib.writeString (.obj (keyObject
      (lib.deriveNewKey pass kdf salt .nil).2 iv
      (lib.cipherText s pass kdf salt iv)
      (lib.sha3 (lib.macInput s pass kdf salt iv pass)))) true) := by
  have hderived : lib.derivedKey pass kdf salt ≠ [] := by
    intro hnil
    have h := hlib.length_derivedKey pass kdf salt
    rw [hnil] at h
    exact absurd h (by decide)
  have hcipher : lib.cipherText s pass kdf salt iv ≠ [] :=
    List.ne_nil_of_length_pos
      (hlib.length_cipherText hne ▸ List.length_pos_iff.2 hne)
  rw [encrypt]
  exact (if_neg hderived).trans (if_neg hcipher)

/-- The derivation is repeated with the salt that was written. -/
theorem deriveKey_keyObject (cipherText : Bytes) (mac : H256) :
    lib.deriveKey (keyObject (lib.deriveNewKey pass kdf salt .nil).2 iv
      cipherText mac) other = .ok (some (lib.derivedKey other kdf salt)) := by
  have hsalt : fromHex (toHex salt.data 2 false) false = .ok salt.data :=
    fromHex_toHex (by rw [salt.size_data]; decide) false
  cases kdf with
  | pbkdf2SHA256 =>
      show (fromHex (toHex salt.data 2 false) false >>= fun b =>
        .ok (some (lib.pbkdf2 other b _ _))) = _
      rw [hsalt]
      rfl
  | scrypt =>
      show (fromHex (toHex salt.data 2 false) false >>= fun b =>
        .ok (some (lib.scrypt other b _ _ _ _))) = _
      rw [hsalt]
      rfl

theorem fromString_toHex {N : Nat} (hN : N < 2 ^ 31) (h : FixedHash N) :
    FixedHash.fromString N (toHex h.data 2 false) .failIfDifferent = .ok h := by
  rw [FixedHash.fromString, fromHex_toHex (by rwa [h.size_data]), ok_bind,
    FixedHash.fromBytes, FixedHash.construct, dif_pos h.size_data]

/-- What decryption makes of the object. -/
theorem Lawful.decrypt_keyObject (hlib : lib.Lawful) (cipherText : Bytes)
    (mac : H256) :
    lib.decrypt (lib.writeString (.obj (keyObject
        (lib.deriveNewKey pass kdf salt .nil).2 iv cipherText mac)) true)
      other =
      (fromHex (toHex cipherText 2 false) false >>= fun b =>
        if mac = lib.sha3 (lib.macPart other kdf salt ++ b) then
          .ok (lib.aes.decryptSymNoAuth (SecureFixedHash.fromSec 16
            (lib.derivedKey other kdf salt) .left) iv b)
        else .ok []) := by
  have hmac := fromString_toHex (by decide) mac
  have hiv := fromString_toHex (by decide) iv
  have hlong : ¬ (lib.derivedKey other kdf salt).length < 32 := by
    rw [hlib.length_derivedKey]
    decide
  generalize ho : keyObject (lib.deriveNewKey pass kdf salt .nil).2 iv
    cipherText mac = o
  have hderive : lib.deriveKey (keyObject
      (lib.deriveNewKey pass kdf salt .nil).2 iv cipherText mac) other =
        .ok (some (lib.derivedKey other kdf salt)) :=
    deriveKey_keyObject cipherText mac
  have hcompat : isCompat o = .ok false := by
    subst ho
    cases kdf <;> rfl
  have htext : (o.get "ciphertext").getStr =
      .ok (toHex cipherText 2 false) := by
    subst ho
    cases kdf <;> rfl
  have hcipher : (o.get "cipher").getStr = .ok (ascii "aes-128-ctr") := by
    subst ho
    cases kdf <;> rfl
  have hparams : (o.get "cipherparams").getObj =
      .ok (JSObject.nil.set "iv" (.str (toHex iv.data 2 false))) := by
    subst ho
    cases kdf <;> rfl
  have hhas : o.has "mac" = true := by
    subst ho
    cases kdf <;> rfl
  have hmacText : (o.get "mac").getStr = .ok (toHex mac.data 2 false) := by
    subst ho
    cases kdf <;> rfl
  have hivText : ((JSObject.nil.set "iv" (.str (toHex iv.data 2 false))).get
      "iv").getStr = .ok (toHex iv.data 2 false) := rfl
  rw [ho] at hderive
  have hcheck : ∀ b, lib.checkMAC o (lib.derivedKey other kdf salt) b =
      .ok (mac = lib.sha3 (lib.macPart other kdf salt ++ b)) := by
    intro b
    rw [checkMAC, if_pos hhas, hmacText, ok_bind, hmac, ok_bind, hcompat]
    rfl
  rw [decrypt, read, hlib.read_write, Option.getD_some, JSValue.getObj, ok_bind,
    hderive, ok_bind]
  simp only [if_neg hlong, ok_bind, Bool.false_eq_true, ↓reduceIte, htext]
  refine bind_congr fun b => ?_
  rw [hcheck, ok_bind]
  by_cases h : mac = lib.sha3 (lib.macPart other kdf salt ++ b)
  · simp only [h, decide_true, Bool.not_true, Bool.false_eq_true, ↓reduceIte,
      hcipher, hparams, ok_bind, hivText, hiv, hcompat]
  · simp only [h, decide_false, Bool.not_false, ↓reduceIte]

end StoreLibrary

/-! What the operations do to the store. -/

namespace SecretStore

variable {lib : StoreLibrary} {st st' : SecretStore} {uuid v : H128}
  {pass s : Bytes} {useCache : Bool}

/-- The encrypted key with an id. -/
def encryptedKey? (st : SecretStore) (uuid : H128) : Option Bytes :=
  (st.keys.lookup uuid).map EncryptedKey.encryptedKey

/-- The stores have the same plaintexts and the same encrypted keys. -/
def Same (st st' : SecretStore) : Prop :=
  st'.cached = st.cached ∧ ∀ v, st'.encryptedKey? v = st.encryptedKey? v

theorem Same.refl (st : SecretStore) : Same st st := ⟨rfl, fun _ => rfl⟩

theorem Same.trans {st'' : SecretStore} (h : Same st st') (h' : Same st' st'') :
    Same st st'' :=
  ⟨h'.1.trans h.1, fun v => (h'.2 v).trans (h.2 v)⟩

theorem encryptedKey?_insert (st : SecretStore) (uuid : H128)
    (key : EncryptedKey) (v : H128) :
    ({ st with keys := st.keys.insert uuid key } :
      SecretStore).encryptedKey? v =
      if v = uuid then some key.encryptedKey else st.encryptedKey? v := by
  by_cases h : v = uuid
  · subst h
    simp [encryptedKey?]
  · simp [encryptedKey?, h, AList.lookup_insert_ne]

/-- A round of `save` changes the name of a file. -/
theorem same_saveKey (p : Bytes) (st : SecretStore) (uuid : H128) :
    Same st (saveKey lib p st uuid) := by
  rw [saveKey]
  cases hkey : st.keys.lookup uuid with
  | none => exact .refl st
  | some key =>
      have hsame : ∀ filename v, ({ st with
          keys := st.keys.insert uuid { key with filename } } :
            SecretStore).encryptedKey? v = st.encryptedKey? v := by
        intro filename v
        rw [encryptedKey?_insert]
        split
        · rename_i heq
          rw [heq, encryptedKey?, hkey]
          rfl
        · rfl
      show Same st (if _ then _ else _)
      split <;> exact ⟨rfl, fun v => hsame _ v⟩

theorem same_foldl_saveKey (p : Bytes) (us : List H128) (st : SecretStore) :
    Same st (us.foldl (saveKey lib p) st) := by
  induction us generalizing st with
  | nil => exact .refl st
  | cons u us ih => exact (same_saveKey p st u).trans (ih _)

/-- The store after `save`. -/
def saved (lib : StoreLibrary) (p : Bytes) (st : SecretStore) : SecretStore :=
  st.keys.keys.foldl (saveKey lib p) (st.onDisk (.createDirectories p))

theorem same_saved (p : Bytes) (st : SecretStore) : Same st (saved lib p st) :=
  have hfirst : Same st (st.onDisk (.createDirectories p)) :=
    ⟨rfl, fun _ => rfl⟩
  hfirst.trans (same_foldl_saveKey p _ _)

theorem get_run (st : SecretStore) :
    (get : StoreProgram SecretStore) st = (.ok st, st) := rfl

/-- `secret` from the cache. -/
theorem secret_run_cached (h : st.cached.lookup uuid = some s) :
    secret lib uuid pass true st = (.ok s, st) := by
  rw [secret, Stateful.bind_of_ok (get_run st), if_pos rfl, h]
  rfl

theorem secretOfKey_run (lib : StoreLibrary) (uuid : H128) (pass : Bytes)
    (st : SecretStore) :
    secretOfKey lib uuid pass st =
      match st.keys.lookup uuid with
      | none => (.ok [], st)
      | some key =>
          match lib.decrypt key.encryptedKey pass with
          | .error e => (.error e, st)
          | .ok s => (.ok s, st.caching uuid s) := by
  show (match st.keys.lookup uuid with
    | none => (pure [] : StoreProgram Bytes)
    | some key => Stateful.ofResult (lib.decrypt key.encryptedKey pass) >>=
        fun s => modify (fun st : SecretStore => st.caching uuid s) >>= fun _ =>
          pure s)
      st = _
  cases st.keys.lookup uuid with
  | none => rfl
  | some key =>
      show (Stateful.ofResult (lib.decrypt key.encryptedKey pass) >>= _) st =
        match lib.decrypt key.encryptedKey pass with
        | .error e => (.error e, st)
        | .ok s => (.ok s, st.caching uuid s)
      cases lib.decrypt key.encryptedKey pass <;> rfl

/-- `secret` from the encrypted key. -/
theorem secret_run (h : useCache = true → st.cached.lookup uuid = none) :
    secret lib uuid pass useCache st = secretOfKey lib uuid pass st := by
  have hnone : (if useCache then st.cached.lookup uuid else none) = none := by
    split
    · exact h ‹_›
    · rfl
  rw [secret, Stateful.bind_of_ok (get_run st), hnone]

/-- The store with another encrypted key, and without the plaintext. -/
def rekeyed (st : SecretStore) (uuid : H128) (encryptedKey : Bytes) :
    SecretStore :=
  { st with
    cached := st.cached.erase uuid
    keys := st.keys.insert uuid ⟨encryptedKey, match st.keys.lookup uuid with
      | some key => key.filename
      | none => []⟩ }

theorem encryptedKey?_rekeyed (st : SecretStore) (uuid : H128)
    (encryptedKey : Bytes) (v : H128) :
    (st.rekeyed uuid encryptedKey).encryptedKey? v =
      if v = uuid then some encryptedKey else st.encryptedKey? v :=
  encryptedKey?_insert st uuid _ v

theorem recode_run {newPass content : Bytes} {kdf : KDF} {salt : H256}
    {iv : H128} (hsecret : secret lib uuid pass true st = (.ok s, st'))
    (hne : s ≠ [])
    (hencrypt : lib.encrypt s newPass kdf salt iv = .ok content) :
    recode lib uuid newPass pass kdf salt iv st =
      (.ok true, saved lib st'.path (st'.rekeyed uuid content)) := by
  rw [recode, Stateful.bind_of_ok hsecret, if_neg hne]
  show (Stateful.ofResult (lib.encrypt s newPass kdf salt iv) >>= _) _ = _
  rw [hencrypt]
  rfl

/-- Whatever is in the store, `secret` leaves the encrypted keys. -/
theorem keys_secret (lib : StoreLibrary) (uuid : H128) (pass : Bytes)
    (useCache : Bool) (st : SecretStore) :
    (secret lib uuid pass useCache st).2.keys = st.keys := by
  by_cases h : useCache = true → st.cached.lookup uuid = none
  · rw [secret_run h, secretOfKey_run]
    split
    · rfl
    · split
      · rfl
      · rename_i s _
        show (st.caching uuid s).keys = st.keys
        rw [caching]
        split <;> rfl
  · rw [Classical.not_imp] at h
    obtain ⟨rfl, hcached⟩ := h
    obtain ⟨s, hs⟩ := Option.ne_none_iff_exists'.1 hcached
    rw [secret_run_cached hs]

end SecretStore

/-! Giving back what was encrypted. -/

namespace StoreLibrary

variable {lib : StoreLibrary} {s pass : Bytes} {kdf : KDF} {salt : H256}
  {iv : H128}

/-- Of the two inputs of the hash that are compared, neither is mistaken for the
other. -/
def Distinguishes (lib : StoreLibrary) (s pass : Bytes) (kdf : KDF)
    (salt : H256) (iv : H128) (other : Bytes) : Prop :=
  lib.sha3 (lib.macInput s pass kdf salt iv pass) =
      lib.sha3 (lib.macInput s pass kdf salt iv other) →
    lib.macInput s pass kdf salt iv pass =
      lib.macInput s pass kdf salt iv other

/-- The encrypted secret is decrypted with its password, and not with one whose
derived key has another part for the MAC. -/
def DecryptsTo (lib : StoreLibrary) (s : Bytes) : Prop :=
  ∀ pass kdf salt iv, ∃ content,
    lib.encrypt s pass kdf salt iv = .ok content ∧
      lib.decrypt content pass = .ok s ∧
      ∀ other, lib.macPart other kdf salt ≠ lib.macPart pass kdf salt →
        lib.Distinguishes s pass kdf salt iv other →
        lib.decrypt content other = .ok []

/-- Where the store has the secret, its password can be changed. -/
def Recodes (lib : StoreLibrary) (s : Bytes) : Prop :=
  ∀ (st : SecretStore) uuid pass,
    (SecretStore.secret lib uuid pass true st).1 = .ok s →
    ∀ newPass kdf salt iv,
      let r := SecretStore.recode lib uuid newPass pass kdf salt iv st
      r.1 = .ok true ∧
        (∃ content, r.2.encryptedKey? uuid = some content ∧
          lib.decrypt content newPass = .ok s) ∧
        ∀ v, v ≠ uuid → r.2.encryptedKey? v = st.encryptedKey? v

/-- What decryption makes of the text that was written. -/
theorem Lawful.decrypt_written (hlib : lib.Lawful) (hne : s ≠ [])
    (hlt : s.length < 2 ^ 31) {content : Bytes}
    (hcontent : lib.encrypt s pass kdf salt iv = .ok content) (other : Bytes) :
    lib.decrypt content other =
      if lib.sha3 (lib.macInput s pass kdf salt iv pass) =
          lib.sha3 (lib.macInput s pass kdf salt iv other) then
        .ok (lib.aes.decryptSymNoAuth (SecureFixedHash.fromSec 16
          (lib.derivedKey other kdf salt) .left) iv
          (lib.cipherText s pass kdf salt iv))
      else .ok [] := by
  rw [hlib.encrypt_eq hne] at hcontent
  obtain rfl := Except.ok.inj hcontent
  rw [hlib.decrypt_keyObject, fromHex_toHex
    (by rwa [hlib.length_cipherText hne]), ok_bind]
  rfl

theorem Lawful.decrypt_encrypt (hlib : lib.Lawful) (hne : s ≠ [])
    (hlt : s.length < 2 ^ 31) {content : Bytes}
    (hcontent : lib.encrypt s pass kdf salt iv = .ok content) :
    lib.decrypt content pass = .ok s := by
  rw [hlib.decrypt_written hne hlt hcontent, if_pos rfl]
  exact congrArg Except.ok (hlib.aes.exists_encrypt _ iv hne).2

/-- A secret of so many bytes is not decrypted. -/
theorem Lawful.decrypt_long (hlib : lib.Lawful) (hne : s ≠ [])
    (hlong : 2 ^ 31 ≤ s.length) {content : Bytes}
    (hcontent : lib.encrypt s pass kdf salt iv = .ok content) (other : Bytes) :
    lib.decrypt content other = .error .outOfFuel := by
  rw [hlib.encrypt_eq hne] at hcontent
  obtain rfl := Except.ok.inj hcontent
  rw [hlib.decrypt_keyObject, fromHex_toHex_endless
    (by rwa [hlib.length_cipherText hne])]
  rfl

theorem Lawful.decryptsTo (hlib : lib.Lawful) (hne : s ≠ [])
    (hlt : s.length < 2 ^ 31) : lib.DecryptsTo s := by
  intro pass kdf salt iv
  obtain ⟨content, hcontent⟩ : ∃ content,
      lib.encrypt s pass kdf salt iv = .ok content := ⟨_, hlib.encrypt_eq hne⟩
  refine ⟨content, hcontent, hlib.decrypt_encrypt hne hlt hcontent, ?_⟩
  intro other hother hdistinguishes
  rw [hlib.decrypt_written hne hlt hcontent, if_neg]
  intro hsame
  have hinputs := hdistinguishes hsame
  have hlengths : (lib.macPart pass kdf salt).length =
      (lib.macPart other kdf salt).length := by
    have h := congrArg List.length hinputs
    simp only [macInput, List.length_append] at h
    omega
  exact hother (List.append_inj_left hinputs hlengths).symm

theorem Lawful.recodes (hlib : lib.Lawful) (hne : s ≠ [])
    (hlt : s.length < 2 ^ 31) : lib.Recodes s := by
  intro st uuid pass hsecret newPass kdf salt iv
  obtain ⟨content, hcontent⟩ : ∃ content,
      lib.encrypt s newPass kdf salt iv = .ok content :=
    ⟨_, hlib.encrypt_eq hne⟩
  have hkeys := SecretStore.keys_secret lib uuid pass true st
  match hrun : SecretStore.secret lib uuid pass true st with
  | (result, st') =>
      rw [hrun] at hsecret hkeys
      obtain rfl : result = .ok s := hsecret
      have hsame := @SecretStore.same_saved lib st'.path
        (st'.rekeyed uuid content)
      have hold : ∀ v, st'.encryptedKey? v = st.encryptedKey? v := by
        intro v
        rw [SecretStore.encryptedKey?, hkeys]
        rfl
      simp only [SecretStore.recode_run hrun hne hcontent, hsame.2,
        SecretStore.encryptedKey?_rekeyed]
      refine ⟨trivial, ⟨content, if_pos trivial,
        hlib.decrypt_encrypt hne hlt hcontent⟩, ?_⟩
      intro v hv
      rw [if_neg hv, hold]

/-- The claims of the store about a secret. -/
def GivesBack (lib : StoreLibrary) (s : Bytes) : Prop :=
  lib.DecryptsTo s ∧ lib.Recodes s

/-- **Encrypted secrets.**  A secret that is not empty is given back, and its
password can be changed, if and only if it has less than 2^31 bytes: the text
of a longer one is not read to its end. -/
theorem givesBack_iff (hlib : lib.Lawful) (hne : s ≠ []) :
    lib.GivesBack s ↔ s.length < 2 ^ 31 := by
  constructor
  · rintro ⟨hdecrypts, -⟩
    by_contra hlong
    obtain ⟨content, hcontent, hsame, -⟩ :=
      hdecrypts [] .scrypt (FixedHash.zero 32) (FixedHash.zero 16)
    rw [hlib.decrypt_long hne (not_lt.1 hlong) hcontent] at hsame
    cases hsame
  · intro hlt
    exact ⟨hlib.decryptsTo hne hlt, hlib.recodes hne hlt⟩

end StoreLibrary

/-! A library to compute with. -/

instance : Encodable Byte :=
  .ofLeftInverse UInt8.toNat UInt8.ofNat fun _ => UInt8.ofNat_toNat

deriving instance Encodable for JSValue

deriving instance Encodable for JSObject

/-- The text of a JSON value is as long as the number of the value. -/
def plainStore : StoreLibrary where
  sha3 b := FixedHash.fromBytes 32 b .left
  pbkdf2 pass salt _ dkLen := resized (pass ++ salt) dkLen
  scrypt pass salt _ _ _ dkLen := resized (pass ++ salt) dkLen
  aes := AESCounter.plain
  readString b := Encodable.decode b.length
  writeString v _ := List.replicate (Encodable.encode v) 0
  equivalent a b := a = b

theorem lawful_plainStore : plainStore.Lawful where
  length_pbkdf2 _ _ _ _ := length_resized _ _
  length_scrypt _ _ _ _ _ _ := length_resized _ _
  aes := AESCounter.involutive_plain
  aes_nil _ _ := rfl
  read_write v _ := by
    show Encodable.decode (List.replicate _ 0).length = _
    rw [List.length_replicate, Encodable.encodek]

namespace StoreLibrary

theorem givesBack_iff_short :
    plainStore.GivesBack [1, 2, 3] ↔ ([1, 2, 3] : Bytes).length < 2 ^ 31 :=
  givesBack_iff lawful_plainStore (by decide)

/-- A secret of 2^31 bytes is lost. -/
theorem not_givesBack :
    plainStore.Lawful ∧ List.replicate (2 ^ 31) (1 : Byte) ≠ [] ∧
      ¬ plainStore.GivesBack (List.replicate (2 ^ 31) 1) := by
  have hlength : (List.replicate (2 ^ 31) (1 : Byte)).length = 2 ^ 31 :=
    List.length_replicate
  have hne : List.replicate (2 ^ 31) (1 : Byte) ≠ [] := by
    intro hnil
    rw [hnil] at hlength
    exact absurd hlength (by decide)
  refine ⟨lawful_plainStore, hne, ?_⟩
  generalize List.replicate (2 ^ 31) (1 : Byte) = s at hlength hne
  rintro ⟨hdecrypts, -⟩
  obtain ⟨content, hcontent, hsame, -⟩ :=
    hdecrypts [] .scrypt (FixedHash.zero 32) (FixedHash.zero 16)
  rw [lawful_plainStore.decrypt_long hne hlength.ge hcontent] at hsame
  cases hsame

end StoreLibrary

end Web3Core
