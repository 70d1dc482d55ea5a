/-
`sign`, `recover` and `verify` of `Secp256k1PP`, and what `Common.cpp` makes of
them.  The points of the curve are a group with coordinates; which arithmetic
the crypto library has on them is a parameter.
-/
import Web3Core.ECDSA
import Web3Core.FixedHashImage

namespace Web3Core

open FixedHash (value)

/-- `SignatureStruct` and `Signature`: r, s and v. -/
structure SignatureStruct where
  r : H256
  s : H256
  v : Byte
deriving DecidableEq

/-- `crypto::kdf`, with the random secret. -/
def kdf (sha3 : Bytes → H256) (random priv hash : H256) : Except Exception H256 :=
  let s := sha3 (random.data ++ priv.data)
  let s := s.xorWith hash
  let s := sha3 s.data
  if !s.isSet || !hash.isSet || !priv.isSet then .error .invalidState else .ok s

/-- The members of the class. `coordinates` are those of a point other than the
identity, and `decodePoint` is the point that `DecodePoint` has decoded from its
type byte and its bytes, if `VerifyPoint` accepts it. -/
structure Secp256k1PP (E : Type) where
  subgroupGenerator : E
  q : Nat
  qs : Nat
  coordinates : E → Option (Nat × Nat)
  decodePoint : Byte → H256 → Option E

namespace Secp256k1PP

variable {E : Type} [AddCommGroup E] (c : Secp256k1PP E)

/-- `exportPublicKey`: the point as `EncodePoint` writes it, without its type
byte. -/
def exportPublicKey (p : E) : H512 :=
  match c.coordinates p with
  | none => FixedHash.zero 64
  | some (x, y) =>
      ⟨(FixedHash.ofArith 32 x).data ++ (FixedHash.ofArith 32 y).data, by
        rw [List.length_append, FixedHash.size_data, FixedHash.size_data]⟩

/-- `exponentToPublic` of the secret. -/
def toPublic (s : H256) : H512 :=
  c.exportPublicKey (value s • c.subgroupGenerator)

/-- The first coordinate, which is the integer of a point. -/
def convertElementToInteger (p : E) : Nat := ((c.coordinates p).getD (0, 0)).1

def sign (sha3 : Bytes → H256) (random key hash : H256) :
    Except Exception SignatureStruct := do
  let k := value (← kdf sha3 random key hash)
  if k = 0 then .error .invalidState
  else
    let k := 1 + k % (c.qs - 1)
    let rp := k • c.subgroupGenerator
    let r := c.convertElementToInteger rp
    let kInv := ECDSA.inverseMod k c.q
    let z := value hash
    let s := kInv * (value key * r + z) % c.q
    if r = 0 ∨ s = 0 then .error .invalidState
    else
      .ok {
        r := FixedHash.ofArith 32 r
        s := FixedHash.ofArith 32 s
        v := if ((c.coordinates rp).getD (0, 0)).2 % 2 = 1 then 1 else 0 }

def recover (sig : SignatureStruct) (message : H256) : H512 :=
  let r := value sig.r
  let s := value sig.s
  match c.decodePoint (sig.v ||| 2) sig.r with
  | none => FixedHash.zero 64
  | some x =>
      let z := value message
      let rn := ECDSA.inverseMod r c.q
      let u1 := c.q - rn * z % c.q
      let u2 := rn * s % c.q
      let p := u2 • x + u1 • c.subgroupGenerator
      if (c.coordinates p).isNone then FixedHash.zero 64 else c.exportPublicKey p

/-- `verify` of a hash. -/
def verify (p : H512) (sig : SignatureStruct) (message : H256) : Bool :=
  decide (p = c.recover sig message)

/-- The constant of `Common.cpp`: its 20 bytes are no public key, which leaves
it zero. -/
def c_zeroKey : H512 :=
  FixedHash.fromBytes 64 [0x3f, 0x17, 0xf1, 0x96, 0x2b, 0x36, 0xe4, 0x91, 0xb3,
    0x0a, 0x40, 0xb2, 0x40, 0x58, 0x49, 0xe5, 0x97, 0xba, 0x5f, 0xb5]
    .failIfDifferent

/-- `dev::recover`. -/
def recoverKey (sig : SignatureStruct) (message : H256) : H512 :=
  let ret := c.recover sig message
  if ret = c_zeroKey then FixedHash.zero 64 else ret

/-- `dev::verify`. -/
def verifyKey (p : H512) (sig : SignatureStruct) (hash : H256) : Bool :=
  if !p.isSet then false else c.verify p sig hash

/-- What is relied on of the curve: its points are a group of prime order with
a generator, a point is known by its coordinates, and what is decoded from a
first coordinate and the parity of the second is the point that has them. -/
structure Lawful : Prop where
  prime : c.q.Prime
  qs_eq : c.qs = c.q
  q_le : c.q ≤ 256 ^ 32
  torsion : ∀ p : E, c.q • p = 0
  generator_ne : c.subgroupGenerator ≠ 0
  coordinates_eq_none : ∀ p : E, c.coordinates p = none ↔ p = 0
  coordinates_inj : ∀ p p' : E, c.coordinates p = c.coordinates p' → p = p'
  coordinates_lt : ∀ (p : E) (x y : Nat), c.coordinates p = some (x, y) →
    x < 256 ^ 32 ∧ y < 256 ^ 32 ∧ (x, y) ≠ (0, 0)
  decodePoint_eq : ∀ (v : Byte) (x : H256) (p : E), v ≤ 1 →
    (c.decodePoint (v ||| 2) x = some p ↔
      ∃ y, c.coordinates p = some (value x, y) ∧ y % 2 = v.toNat)

end Secp256k1PP

end Web3Core
