/-
`SecretStore.h` and `SecretStore.cpp`: keys that are kept encrypted in files of
a JSON format, and a cache of the plaintexts.  The key derivations, the cipher
and the JSON library are parameters.  What the store does to the disk is
recorded; what it reads from there is given to it.
-/
import Mathlib.Data.List.AList
import Web3Core.CryptoPP
import Web3Core.Decimal
import Web3Core.Program

namespace Web3Core

/-! The values of the JSON library. -/

mutual

/-- `mValue`.  Of the types that the store does not ask for, which are arrays,
truth values and numbers that are not integers, there is only the text. -/
inductive JSValue where
  | null
  | int (n : Int)
  | str (s : Bytes)
  | other (text : Bytes)
  | obj (members : JSObject)

/-- `mObject`: the members in the order of their names. -/
inductive JSObject where
  | nil
  | cons (name : Bytes) (value : JSValue) (rest : JSObject)

end

namespace JSObject

/-- `find`. -/
def find (name : Bytes) : JSObject → Option JSValue
  | nil => none
  | cons n value rest => if name = n then some value else rest.find name

/-- `operator[]`; a member that is missing is null. -/
def get (o : JSObject) (name : String) : JSValue :=
  (o.find (ascii name)).getD .null

/-- `count`. -/
def has (o : JSObject) (name : String) : Bool := (o.find (ascii name)).isSome

def insertMember (name : Bytes) (value : JSValue) : JSObject → JSObject
  | nil => cons name value nil
  | cons n v rest =>
      if name < n then cons name value (cons n v rest)
      else if name = n then cons name value rest
      else cons n v (insertMember name value rest)

/-- `o[name] = value`. -/
def set (o : JSObject) (name : String) (value : JSValue) : JSObject :=
  o.insertMember (ascii name) value

/-- A loop over the members. -/
def foldl {α : Type} (f : α → Bytes → JSValue → α) : α → JSObject → α
  | acc, nil => acc
  | acc, cons name value rest => foldl f (f acc name value) rest

end JSObject

namespace JSValue

/-- `get_obj`. -/
def getObj : JSValue → Except Exception JSObject
  | obj members => .ok members
  | _ => .error .jsonValueType

/-- `get_str`. -/
def getStr : JSValue → Except Exception Bytes
  | str s => .ok s
  | _ => .error .jsonValueType

/-- `get_int`. -/
def getInt : JSValue → Except Exception Int
  | int n => .ok (toInt n)
  | _ => .error .jsonValueType

end JSValue

/-- What the store takes from other libraries: the hash, the key derivations
with the length that is asked for, the cipher, JSON texts, which are written
in two layouts, and whether two paths name one file. -/
structure StoreLibrary where
  sha3 : Bytes → H256
  pbkdf2 : Bytes → Bytes → Nat → Nat → Bytes
  scrypt : Bytes → Bytes → Nat → Nat → Nat → Nat → Bytes
  aes : AESCounter
  readString : Bytes → Option JSValue
  writeString : JSValue → Bool → Bytes
  equivalent : Bytes → Bytes → Bool

/-- `KDF`. -/
inductive KDF where
  | pbkdf2SHA256
  | scrypt
deriving DecidableEq

/-! The format of the keys. -/

/-- `to_lower_copy`. -/
def toLowerCopy (s : Bytes) : Bytes :=
  s.map fun c => if 0x41 ≤ c ∧ c ≤ 0x5a then c + 0x20 else c

namespace StoreLibrary

variable (lib : StoreLibrary)

/-- The value of a JSON text; it stays null where the text cannot be read. -/
def read (s : Bytes) : JSValue := (lib.readString s).getD .null

/-- The upgrade of the object `old`, with the text `s`, to version 2. -/
def upgradedFirst (s : Bytes) (old : JSObject) : Except Exception JSObject := do
  let crypto ← (old.get "Crypto").getObj
  let keyHeader ← (crypto.get "KeyHeader").getObj
  let kdfParams ← (keyHeader.get "KdfParams").getObj
  let cp := JSObject.nil.set "iv" (crypto.get "IV")
  let kp := kdfParams.foldl
    (fun kp name value =>
      if name ≠ ascii "SaltLen" then kp.insertMember (toLowerCopy name) value
      else kp)
    (JSObject.nil.set "salt" (crypto.get "Salt"))
  let c := JSObject.nil.set "ciphertext" (crypto.get "CipherText")
    |>.set "cipher" (.str (ascii "aes-128-cbc"))
    |>.set "cipherparams" (.obj cp)
    |>.set "kdf" (keyHeader.get "Kdf")
    |>.set "kdfparams" (.obj kp)
    |>.set "sillymac" (crypto.get "MAC")
    |>.set "sillymacjson" (.str s)
  .ok ((JSObject.nil.set "id" (old.get "Id")).set "crypto" (.obj c))

/-- The upgrade to version 3. -/
def upgradedSecond (ret : JSObject) : Except Exception JSObject := do
  let c ← (ret.get "crypto").getObj
  .ok (ret.set "crypto" (.obj (c.set "cipher" (.str (ascii "aes-128-ctr"))
    |>.set "compat" (.str (ascii "2")))))

/-- The version of a key file. -/
def version (ret : JSObject) : Except Exception Nat :=
  if ret.has "Version" then do
    let s ← (ret.get "Version").getStr
    let n ← stoi s
    .ok (toUnsigned n)
  else if ret.has "version" then do
    let n ← (ret.get "version").getInt
    .ok (toUnsigned n)
  else .ok 0

/-- `upgraded`: the object in the current version, if it is one. -/
def upgraded (s : Bytes) : Except Exception (Option JSObject) :=
  match lib.read s with
  | .obj ret => do
      let n ← version ret
      if n = 1 then do
        let second ← upgradedFirst s ret
        let third ← upgradedSecond second
        .ok (some third)
      else if n = 2 then do
        let third ← upgradedSecond ret
        .ok (some third)
      else .ok (if n = 3 then some ret else none)
  | _ => .ok none

/-- `deriveNewKey`, with the salt that is drawn; what it writes into the
object. -/
def deriveNewKey (pass : Bytes) (kdf : KDF) (salt : H256) (ret : JSObject) :
    Bytes × JSObject :=
  let dklen := 32
  let iterations := 1 <<< 18
  match kdf with
  | .scrypt =>
      let params := JSObject.nil.set "n" (.int iterations)
        |>.set "r" (.int 8)
        |>.set "p" (.int 1)
        |>.set "dklen" (.int dklen)
        |>.set "salt" (.str (toHex salt.data 2 false))
      (lib.scrypt pass salt.data iterations 8 1 dklen,
        (ret.set "kdf" (.str (ascii "scrypt"))).set "kdfparams" (.obj params))
  | .pbkdf2SHA256 =>
      let params := JSObject.nil.set "prf" (.str (ascii "hmac-sha256"))
        |>.set "c" (.int iterations)
        |>.set "salt" (.str (toHex salt.data 2 false))
        |>.set "dklen" (.int dklen)
      (lib.pbkdf2 pass salt.data iterations dklen,
        (ret.set "kdf" (.str (ascii "pbkdf2"))).set "kdfparams" (.obj params))

/-- `encrypt`, with the salt and the IV that are drawn. -/
def encrypt (v pass : Bytes) (kdf : KDF) (salt : H256) (iv : H128) :
    Except Exception Bytes :=
  let derived := lib.deriveNewKey pass kdf salt .nil
  let derivedKey := derived.1
  if derivedKey = [] then
    .error (.cryptoException "Key derivation failed.")
  else
    let ret := derived.2.set "cipher" (.str (ascii "aes-128-ctr"))
    let key := SecureFixedHash.fromSec 16 derivedKey .left
    let params := JSObject.nil.set "iv" (.str (toHex iv.data 2 false))
    let ret := ret.set "cipherparams" (.obj params)
    let cipherText := lib.aes.encryptSymNoAuth key iv v
    if cipherText = [] then
      .error (.cryptoException "Key encryption failed.")
    else
      let ret := ret.set "ciphertext" (.str (toHex cipherText 2 false))
      let mac := lib.sha3 (croppedBytes derivedKey 16 16 ++ cipherText)
      let ret := ret.set "mac" (.str (toHex mac.data 2 false))
      .ok (lib.writeString (.obj ret) true)

/-- The derivation of the key in `decrypt`, or `none` for one that is not
supported. -/
def deriveKey (o : JSObject) (pass : Bytes) :
    Except Exception (Option Bytes) := do
  let kdf ← (o.get "kdf").getStr
  if kdf = ascii "pbkdf2" then do
    let params ← (o.get "kdfparams").getObj
    let prf ← (params.get "prf").getStr
    if prf ≠ ascii "hmac-sha256" then .ok none
    else do
      let iterations ← (params.get "c").getInt
      let text ← (params.get "salt").getStr
      let salt ← fromHex text false
      let dklen ← (params.get "dklen").getInt
      .ok (some (lib.pbkdf2 pass salt (toUnsigned iterations)
        (toUnsigned dklen)))
  else if kdf = ascii "scrypt" then do
    let p ← (o.get "kdfparams").getObj
    let text ← (p.get "salt").getStr
    let salt ← fromHex text false
    let n ← (p.get "n").getInt
    let r ← (p.get "r").getInt
    let parallel ← (p.get "p").getInt
    let dklen ← (p.get "dklen").getInt
    .ok (some (lib.scrypt pass salt (n % 2 ^ 64).toNat (toUnsigned r)
      (toUnsigned parallel) (toUnsigned dklen)))
  else .ok none

/-- `o.count("compat") && o["compat"].get_str() == "2"`. -/
def isCompat (o : JSObject) : Except Exception Bool :=
  if o.has "compat" then do
    let s ← (o.get "compat").getStr
    .ok (s = ascii "2")
  else .ok false

/-- `cropped(size() - 16)`, which is nothing if there are less bytes. -/
def lastSixteen (derivedKey : Bytes) : Bytes :=
  if 16 ≤ derivedKey.length then derivedKey.drop (derivedKey.length - 16)
  else []

/-- The check of the MAC; without one there is nothing to check. -/
def checkMAC (o : JSObject) (derivedKey cipherText : Bytes) :
    Except Exception Bool :=
  if o.has "mac" then do
    let text ← (o.get "mac").getStr
    let mac ← FixedHash.fromString 32 text .failIfDifferent
    let compat ← isCompat o
    let macExp := lib.sha3 ((if compat then lastSixteen derivedKey
      else croppedBytes derivedKey 16 16) ++ cipherText)
    .ok (mac = macExp)
  else if o.has "sillymac" then do
    let text ← (o.get "sillymac").getStr
    let mac ← FixedHash.fromString 32 text .failIfDifferent
    let json ← (o.get "sillymacjson").getStr
    let macExp := lib.sha3 (json ++ lastSixteen derivedKey ++ cipherText)
    .ok (mac = macExp)
  else .ok true

/-- `decrypt`; what cannot be decrypted is empty. -/
def decrypt (v pass : Bytes) : Except Exception Bytes := do
  let o ← (lib.read v).getObj
  let derived ← lib.deriveKey o pass
  match derived with
  | none => .ok []
  | some derivedKey => do
      let short ← if derivedKey.length < 32 then do
          let compat ← isCompat o
          .ok (!compat)
        else .ok false
      if short then .ok []
      else do
        let text ← (o.get "ciphertext").getStr
        let cipherText ← fromHex text false
        let matching ← lib.checkMAC o derivedKey cipherText
        if !matching then .ok []
        else do
          let cipher ← (o.get "cipher").getStr
          if cipher = ascii "aes-128-ctr" then do
            let params ← (o.get "cipherparams").getObj
            let ivText ← (params.get "iv").getStr
            let iv ← FixedHash.fromString 16 ivText .failIfDifferent
            let compat ← isCompat o
            let key := if compat then
                SecureFixedHash.fromHash 16
                  (lib.sha3 (lastSixteen derivedKey)) .right
              else SecureFixedHash.fromSec 16 derivedKey .left
            .ok (lib.aes.decryptSymNoAuth key iv cipherText)
          else .ok []

/-- The id of a key file and the encrypted key in it. -/
def contentKey (content : Bytes) :
    Except Exception (Option (H128 × Bytes)) := do
  let u ← lib.upgraded content
  match u with
  | none => .ok none
  | some o => do
      let id ← (o.get "id").getStr
      let uuid ← fromUUID id
      .ok (some (uuid, lib.writeString (o.get "crypto") false))

end StoreLibrary

/-! The store. -/

/-- `EncryptedKey`. -/
structure EncryptedKey where
  encryptedKey : Bytes
  filename : Bytes
deriving DecidableEq

inductive DiskOperation where
  | createDirectories (path : Bytes)
  | writeFile (path content : Bytes)
  | remove (path : Bytes)
deriving DecidableEq

structure SecretStore where
  cached : AList (fun _ : H128 => Bytes) := ∅
  keys : AList (fun _ : H128 => EncryptedKey) := ∅
  path : Bytes
  disk : List DiskOperation := []

abbrev StoreProgram (α : Type) := Stateful Exception SecretStore α

namespace SecretStore

variable (lib : StoreLibrary)

/-- Record an operation on the disk. -/
def onDisk (op : DiskOperation) (st : SecretStore) : SecretStore :=
  { st with disk := st.disk ++ [op] }

/-- `p / name`. -/
def joinPath (p name : Bytes) : Bytes :=
  if p = [] ∨ p.getLast? = some 0x2f then p ++ name
  else p ++ ascii "/" ++ name

/-- A round of `save`. -/
def saveKey (p : Bytes) (st : SecretStore) (uuid : H128) : SecretStore :=
  match st.keys.lookup uuid with
  | none => st
  | some key =>
      let id := toUUID uuid
      let filename := joinPath p id ++ ascii ".json"
      let v := JSObject.nil.set "crypto" (lib.read key.encryptedKey)
        |>.set "id" (.str id)
        |>.set "version" (.int 3)
      let st := st.onDisk (.writeFile filename (lib.writeString (.obj v) true))
      let st := { st with keys := st.keys.insert uuid { key with filename } }
      if key.filename ≠ [] ∧ ¬ lib.equivalent key.filename filename then
        st.onDisk (.remove key.filename)
      else st

/-- `save`. -/
def save (p : Bytes) : StoreProgram Unit :=
  modify fun st =>
    (st.keys.keys).foldl (saveKey lib p) (st.onDisk (.createDirectories p))

/-- `if (!key.empty()) m_cached[_uuid] = key`. -/
def caching (st : SecretStore) (uuid : H128) (s : Bytes) : SecretStore :=
  if s = [] then st else { st with cached := st.cached.insert uuid s }

/-- `secret` of a key that is not taken from the cache. -/
def secretOfKey (uuid : H128) (pass : Bytes) : StoreProgram Bytes := do
  let st ← get
  match st.keys.lookup uuid with
  | none => pure []
  | some key => do
      let s ← Stateful.ofResult (lib.decrypt key.encryptedKey pass)
      modify fun st => st.caching uuid s
      pure s

/-- `secret`.  The password is asked for only if it is needed. -/
def secret (uuid : H128) (pass : Bytes) (useCache : Bool) :
    StoreProgram Bytes := do
  let st ← get
  match if useCache then st.cached.lookup uuid else none with
  | some s => pure s
  | none => secretOfKey lib uuid pass

/-- `importSecret`, with the id that is drawn and the randomness of
`encrypt`. -/
def importSecret (s pass : Bytes) (r : H128) (salt : H256) (iv : H128) :
    StoreProgram H128 := do
  let encryptedKey ← Stateful.ofResult (lib.encrypt s pass .scrypt salt iv)
  modify fun st => { st with cached := st.cached.insert r s }
  modify fun st => { st with keys := st.keys.insert r ⟨encryptedKey, []⟩ }
  let st ← get
  save lib st.path
  pure r

/-- `kill`. -/
def kill (uuid : H128) : StoreProgram Unit :=
  modify fun st =>
    let st := { st with cached := st.cached.erase uuid }
    match st.keys.lookup uuid with
    | none => st
    | some key =>
        { st.onDisk (.remove key.filename) with keys := st.keys.erase uuid }

def clearCache : StoreProgram Unit := modify fun st => { st with cached := ∅ }

/-- `readKeyContent`. -/
def readKeyContent (content file : Bytes) : StoreProgram H128 := do
  let key ← Stateful.ofResult (lib.contentKey content)
  match key with
  | none => pure (FixedHash.zero 16)
  | some (uuid, encryptedKey) => do
      modify fun st =>
        { st with keys := st.keys.insert uuid ⟨encryptedKey, file⟩ }
      pure uuid

/-- `readKey` of a file with the given content. -/
def readKey (file content : Bytes) (takeFileOwnership : Bool) :
    StoreProgram H128 :=
  readKeyContent lib content (if takeFileOwnership then file else [])

/-- The save at the end of both imports. -/
def saveIfRead (ret : H128) : StoreProgram H128 := do
  let st ← get
  if ret ≠ FixedHash.zero 16 then save lib st.path
  pure ret

def importKey (file content : Bytes) : StoreProgram H128 := do
  let ret ← readKey lib file content false
  saveIfRead lib ret

def importKeyContent (content : Bytes) : StoreProgram H128 := do
  let ret ← readKeyContent lib content []
  saveIfRead lib ret

/-- `load` of a directory with the given files.  An exception ends it, and it
is caught; a computation that does not end does not let `load` end either. -/
def load : List (Bytes × Bytes) → StoreProgram Unit
  | [] => pure ()
  | file :: files => fun st =>
      match readKey lib file.1 file.2 true st with
      | (.ok _, st') => load files st'
      | (.error .outOfFuel, st') => (.error .outOfFuel, st')
      | (.error _, st') => (.ok (), st')

/-- `recode`, with the randomness of `encrypt`. -/
def recode (uuid : H128) (newPass pass : Bytes) (kdf : KDF) (salt : H256)
    (iv : H128) : StoreProgram Bool := do
  let s ← secret lib uuid pass true
  if s = [] then pure false
  else do
    modify fun st => { st with cached := st.cached.erase uuid }
    let encryptedKey ← Stateful.ofResult (lib.encrypt s newPass kdf salt iv)
    modify fun st =>
      let filename := match st.keys.lookup uuid with
        | some key => key.filename
        | none => []
      { st with keys := st.keys.insert uuid ⟨encryptedKey, filename⟩ }
    let st ← get
    save lib st.path
    pure true

end SecretStore

end Web3Core
