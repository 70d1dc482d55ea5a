/-
What is signed is recovered.  The point that `recover` computes solves the
equation of the signature, whatever the signature is, so comparing it with a
public key is verification.
-/
import Mathlib.GroupTheory.OrderOfElement
import Web3Core.Secp256k1PP

namespace Web3Core

open FixedHash (value)

namespace FixedHash

variable {N : Nat}

theorem isSet_iff (h : FixedHash N) :
    h.isSet = true ↔ h ≠ zero N := by
  constructor
  · rintro hset rfl
    obtain ⟨x, hx, hne⟩ := List.any_eq_true.1 hset
    exact bne_iff_ne.1 hne (List.eq_of_mem_replicate hx)
  · intro hne
    by_contra hset
    refine hne (FixedHash.ext (List.eq_replicate_iff.2 ⟨h.size_data, ?_⟩))
    intro x hx
    by_contra hx0
    exact hset (List.any_eq_true.2 ⟨x, hx, bne_iff_ne.2 hx0⟩)

end FixedHash

namespace Secp256k1PP

variable {E : Type} [AddCommGroup E] {c : Secp256k1PP E}

section Laws

variable (hc : c.Lawful)
include hc

theorem Lawful.exists_coordinates {p : E} (hp : p ≠ 0) :
    ∃ x y, c.coordinates p = some (x, y) := by
  rcases hcoordinates : c.coordinates p with _ | ⟨x, y⟩
  · exact absurd ((hc.coordinates_eq_none p).1 hcoordinates) hp
  · exact ⟨x, y, rfl⟩

omit [AddCommGroup E] hc in
theorem data_exportPublicKey {p : E} {x y : Nat}
    (h : c.coordinates p = some (x, y)) :
    (c.exportPublicKey p).data =
      (FixedHash.ofArith 32 x).data ++ (FixedHash.ofArith 32 y).data := by
  unfold exportPublicKey
  split
  · rename_i hnone
    rw [hnone] at h
    cases h
  · rename_i x' y' hsome
    rw [hsome] at h
    cases h
    rfl

theorem Lawful.exportPublicKey_zero :
    c.exportPublicKey 0 = FixedHash.zero 64 := by
  rw [exportPublicKey, (hc.coordinates_eq_none 0).2 rfl]

/-- The coordinates are read from the exported bytes. -/
theorem Lawful.coordinates_exportPublicKey {p : E} {x y : Nat}
    (h : c.coordinates p = some (x, y)) :
    fromBigEndian ((c.exportPublicKey p).data.take 32) = x ∧
      fromBigEndian ((c.exportPublicKey p).data.drop 32) = y := by
  obtain ⟨hx, hy, -⟩ := hc.coordinates_lt p x y h
  have hxdata : fromBigEndian (FixedHash.ofArith 32 x).data = x :=
    (FixedHash.value_ofArith 32 x).trans (Nat.mod_eq_of_lt hx)
  have hydata : fromBigEndian (FixedHash.ofArith 32 y).data = y :=
    (FixedHash.value_ofArith 32 y).trans (Nat.mod_eq_of_lt hy)
  have hlength := (FixedHash.ofArith 32 x).size_data
  rw [data_exportPublicKey h, List.take_left' hlength, List.drop_left' hlength]
  exact ⟨hxdata, hydata⟩

theorem Lawful.exportPublicKey_ne {p : E} (hp : p ≠ 0) :
    c.exportPublicKey p ≠ FixedHash.zero 64 := by
  intro hzero
  obtain ⟨x, y, h⟩ := hc.exists_coordinates hp
  obtain ⟨hx, hy⟩ := hc.coordinates_exportPublicKey h
  obtain ⟨-, -, hne⟩ := hc.coordinates_lt p x y h
  rw [hzero] at hx hy
  have hxzero : x = 0 := hx.symm.trans (by decide)
  have hyzero : y = 0 := hy.symm.trans (by decide)
  exact hne (by rw [hxzero, hyzero])

theorem Lawful.smul_ne_zero {n : Nat} (hn : ¬c.q ∣ n) :
    n • c.subgroupGenerator ≠ 0 := by
  intro hzero
  have hcoprime : n.Coprime c.q :=
    (Nat.coprime_comm.1 ((Nat.Prime.coprime_iff_not_dvd hc.prime).2 hn))
  have horder : addOrderOf c.subgroupGenerator ∣ n.gcd c.q :=
    Nat.dvd_gcd (addOrderOf_dvd_of_nsmul_eq_zero hzero)
      (addOrderOf_dvd_of_nsmul_eq_zero (hc.torsion _))
  rw [hcoprime, Nat.dvd_one, AddMonoid.addOrderOf_eq_one_iff] at horder
  exact hc.generator_ne horder

end Laws

/-- The point that the equation of a signature gives for the signer. -/
def signer (c : Secp256k1PP E) (r s z : Nat) (x : E) : E :=
  (ECDSA.inverseMod r c.q * s % c.q) • x +
    (c.q - ECDSA.inverseMod r c.q * z % c.q) • c.subgroupGenerator

section Recovery

variable {sig : SignatureStruct} {message : H256}

theorem recover_none (h : c.decodePoint (sig.v ||| 2) sig.r = none) :
    c.recover sig message = FixedHash.zero 64 := by
  unfold recover
  rw [h]

/-- `recover` gives the signer's point. -/
theorem recover_some (hc : c.Lawful) {x : E}
    (h : c.decodePoint (sig.v ||| 2) sig.r = some x) :
    c.recover sig message =
      c.exportPublicKey
        (c.signer (value sig.r) (value sig.s) (value message) x) := by
  unfold recover
  rw [h]
  dsimp only
  split
  · rename_i hnone
    rw [Option.isNone_iff_eq_none, hc.coordinates_eq_none] at hnone
    rw [signer, hnone, hc.exportPublicKey_zero]
  · rfl

end Recovery

/-- The constant is zero, so comparing with it does not change anything. -/
theorem recoverKey_eq (c : Secp256k1PP E) (sig : SignatureStruct)
    (message : H256) :
    c.recoverKey sig message = c.recover sig message := by
  have hzero : c_zeroKey = FixedHash.zero 64 := by decide
  have hkeep : c.recoverKey sig message =
      if c.recover sig message = c_zeroKey then FixedHash.zero 64
      else c.recover sig message := rfl
  rw [hkeep, hzero]
  split
  · rename_i h
    exact h.symm
  · rfl

/-- A key accepts what it is recovered from. -/
theorem verifyKey_eq_true (c : Secp256k1PP E) (p : H512) (sig : SignatureStruct)
    (hash : H256) :
    c.verifyKey p sig hash = true ↔
      p = c.recover sig hash ∧ p ≠ FixedHash.zero 64 := by
  unfold verifyKey verify
  rw [← FixedHash.isSet_iff]
  cases p.isSet <;> simp

section Signing

variable {sha3 : Bytes → H256} {random key hash : H256} {sig : SignatureStruct}

/-- What `sign` has made: a point that is a multiple of the generator, and the
number that solves the equation for it. -/
theorem sign_eq_ok (hc : c.Lawful)
    (h : c.sign sha3 random key hash = .ok sig) :
    ∃ k x y, ¬c.q ∣ k ∧
      c.coordinates (k • c.subgroupGenerator) = some (x, y) ∧
      value sig.r = x ∧ sig.v = (if y % 2 = 1 then 1 else 0) ∧
      value sig.s = ECDSA.inverseMod k c.q * (value key * x + value hash) % c.q ∧
      value sig.r ≠ 0 ∧ value sig.s ≠ 0 := by
  unfold sign at h
  rcases hkdf : kdf sha3 random key hash with e | n
  · rw [hkdf] at h
    cases h
  · rw [hkdf] at h
    simp only [bind, Except.bind] at h
    split at h
    · cases h
    · split at h
      · cases h
      · rename_i hne
        have htwo := hc.prime.two_le
        have hlt : value n % (c.qs - 1) < c.q - 1 := by
          rw [hc.qs_eq]
          exact Nat.mod_lt _ (by omega)
        generalize value n % (c.qs - 1) = m at h hne hlt
        have hk : ¬c.q ∣ 1 + m := Nat.not_dvd_of_pos_of_lt (by omega) (by omega)
        obtain ⟨x, y, hxy⟩ := hc.exists_coordinates (hc.smul_ne_zero hk)
        obtain ⟨hx, hy, -⟩ := hc.coordinates_lt _ x y hxy
        have hr :
            c.convertElementToInteger ((1 + m) • c.subgroupGenerator) = x := by
          rw [convertElementToInteger, hxy]
          rfl
        simp only [hr, hxy, not_or] at h hne
        have h := Except.ok.inj h
        subst h
        have hs :
            ECDSA.inverseMod (1 + m) c.q * (value key * x + value hash) % c.q <
              256 ^ 32 :=
          (Nat.mod_lt _ hc.prime.pos).trans_le hc.q_le
        have hvalue : value (FixedHash.ofArith 32 x) = x := by
          rw [FixedHash.value_ofArith, Nat.mod_eq_of_lt hx]
        have hsvalue := (FixedHash.value_ofArith 32 _).trans (Nat.mod_eq_of_lt hs)
        refine ⟨1 + m, x, y, hk, hxy, hvalue, rfl, hsvalue, ?_, ?_⟩
        · rw [hvalue]
          exact hne.1
        · rw [hsvalue]
          exact hne.2

/-- What is signed is recovered: a signature that is made gives back the public
key of its secret, which accepts it, unless the first coordinate of its point
is a multiple of the order; nothing is recovered from it then. -/
theorem sign_recovers (hc : c.Lawful)
    (h : c.sign sha3 random key hash = .ok sig) :
    sig.v ≤ 1 ∧ 0 < value sig.r ∧ 0 < value sig.s ∧ value sig.s < c.q ∧
      (¬c.q ∣ value sig.r →
        c.recoverKey sig hash = c.toPublic key ∧
        ∀ p, c.verifyKey p sig hash = true ↔
          p = c.toPublic key ∧ p ≠ FixedHash.zero 64) ∧
      (c.q ∣ value sig.r →
        c.recoverKey sig hash = FixedHash.zero 64 ∧
        ∀ p, c.verifyKey p sig hash = false) := by
  obtain ⟨k, x, y, hk, hxy, hr, hv, hs, hrne, hsne⟩ := sign_eq_ok hc h
  have hvle : sig.v ≤ 1 := by
    rw [hv]
    split <;> decide
  have hparity : y % 2 = sig.v.toNat := by
    rw [hv]
    split
    · assumption
    · have := Nat.mod_two_eq_zero_or_one y
      rw [UInt8.toNat_zero]
      omega
  have hdecode :
      c.decodePoint (sig.v ||| 2) sig.r = some (k • c.subgroupGenerator) :=
    (hc.decodePoint_eq sig.v sig.r _ hvle).2 ⟨y, by rw [hr, hxy], hparity⟩
  have hsigned := ECDSA.signed (z := value hash) (r := x) hc.prime hc.torsion
    (g := c.subgroupGenerator) (d := value key) hk
  rw [← hs, ← hr] at hsigned
  have hlt : value sig.s < c.q := hs ▸ Nat.mod_lt _ hc.prime.pos
  have hrecover : c.recover sig hash = _ := recover_some hc hdecode
  refine ⟨hvle, Nat.pos_of_ne_zero hrne, Nat.pos_of_ne_zero hsne, hlt, ?_, ?_⟩
  · intro hndvd
    have hpoint : c.signer (value sig.r) (value sig.s) (value hash)
        (k • c.subgroupGenerator) = value key • c.subgroupGenerator :=
      (ECDSA.recovered_iff hc.prime hc.torsion hndvd).2 hsigned
    rw [hpoint] at hrecover
    refine ⟨(recoverKey_eq c sig hash).trans hrecover, fun p => ?_⟩
    rw [verifyKey_eq_true, hrecover, toPublic]
  · intro hdvd
    have hpoint : c.signer (value sig.r) (value sig.s) (value hash)
        (k • c.subgroupGenerator) = 0 :=
      ECDSA.recovered_of_dvd hc.prime hc.torsion hdvd
    rw [hpoint, hc.exportPublicKey_zero] at hrecover
    refine ⟨(recoverKey_eq c sig hash).trans hrecover, fun p => ?_⟩
    rw [Bool.eq_false_iff, Ne, verifyKey_eq_true, hrecover]
    exact fun hp => hp.2 hp.1

end Signing

/-- Verification by recovery is verification: a public key accepts a signature
exactly when it is that of a point with which the equation of the signature
gives the signature's point. -/
theorem verifyKey_iff (hc : c.Lawful) (p : H512) (sig : SignatureStruct)
    (hash : H256) (hv : sig.v ≤ 1) (hr : ¬c.q ∣ value sig.r)
    (hs : ¬c.q ∣ value sig.s) :
    c.verifyKey p sig hash = true ↔
      ∃ Q y, Q ≠ 0 ∧ p = c.exportPublicKey Q ∧
        c.coordinates
          ((ECDSA.inverseMod (value sig.s) c.q * value hash) •
              c.subgroupGenerator +
            (ECDSA.inverseMod (value sig.s) c.q * value sig.r) • Q) =
          some (value sig.r, y) ∧
        y % 2 = sig.v.toNat := by
  rw [verifyKey_eq_true]
  constructor
  · rintro ⟨hp, hne⟩
    rcases hdecode : c.decodePoint (sig.v ||| 2) sig.r with _ | x
    · exact absurd (hp.trans (recover_none hdecode)) hne
    · rw [recover_some hc hdecode] at hp
      obtain ⟨y, hxy, hparity⟩ := (hc.decodePoint_eq sig.v sig.r x hv).1 hdecode
      refine ⟨_, y, ?_, hp, ?_, hparity⟩
      · intro hzero
        rw [hzero, hc.exportPublicKey_zero] at hp
        exact hne hp
      · have hequation := (ECDSA.recovered_iff (s := value sig.s)
          (z := value hash) (R := x) (g := c.subgroupGenerator) hc.prime
          hc.torsion hr).1 rfl
        rw [← hxy]
        exact congrArg c.coordinates
          ((ECDSA.smul_eq_iff hc.prime hc.torsion hs).1 hequation).symm
  · rintro ⟨Q, y, hQ, rfl, hxy, hparity⟩
    have hdecode := (hc.decodePoint_eq sig.v sig.r _ hv).2 ⟨y, hxy, hparity⟩
    have hequation := (ECDSA.smul_eq_iff hc.prime hc.torsion hs
      (r := value sig.r) (z := value hash) (g := c.subgroupGenerator)
      (Q := Q)).2 rfl
    have hsigner := (ECDSA.recovered_iff hc.prime hc.torsion hr).2 hequation
    rw [recover_some hc hdecode]
    exact ⟨congrArg c.exportPublicKey hsigner.symm, hc.exportPublicKey_ne hQ⟩

section Seven

/-- The points of the curve with the same equation over the numbers modulo 13,
as multiples of the first one. -/
def sevenPoints : List (Nat × Nat) :=
  [(7, 5), (8, 5), (11, 8), (11, 5), (8, 8), (7, 8)]

def sevenCoordinates (p : ZMod 7) : Option (Nat × Nat) :=
  (none :: sevenPoints.map some).getD p.val none

def sevenDecode (v : Byte) (x : Nat) : Option (ZMod 7) :=
  match x with
  | 7 => some (if v &&& 1 = 1 then 1 else 6)
  | 8 => some (if v &&& 1 = 1 then 2 else 5)
  | 11 => some (if v &&& 1 = 1 then 4 else 3)
  | _ => none

/-- The group of seven points. -/
def seven : Secp256k1PP (ZMod 7) where
  subgroupGenerator := 1
  q := 7
  qs := 7
  coordinates := sevenCoordinates
  decodePoint v x := sevenDecode v (value x)

theorem mem_sevenCoordinates :
    ∀ p : ZMod 7, ∀ xy ∈ sevenCoordinates p, xy ∈ sevenPoints := by
  decide

theorem sevenDecode_eq {v : Byte} (hv : v ≤ 1) (x : Nat) (p : ZMod 7) :
    sevenDecode (v ||| 2) x = some p ↔
      (sevenCoordinates p).any (fun xy => xy.1 == x && xy.2 % 2 == v.toNat) =
        true := by
  have hbit : v = 0 ∨ v = 1 := by
    have hle := UInt8.le_iff_toNat_le.1 hv
    rcases Nat.le_one_iff_eq_zero_or_eq_one.1 hle with h | h
    · exact .inl (UInt8.toNat_inj.1 h)
    · exact .inr (UInt8.toNat_inj.1 h)
  unfold sevenDecode
  split
  · rcases hbit with rfl | rfl <;> revert p <;> decide
  · rcases hbit with rfl | rfl <;> revert p <;> decide
  · rcases hbit with rfl | rfl <;> revert p <;> decide
  · rename_i h7 h8 h11
    refine iff_of_false (by simp) fun hany => ?_
    obtain ⟨xy, hxy, h⟩ := (Option.any_eq_true _ _).1 hany
    have hmem := mem_sevenCoordinates p xy hxy
    rw [Bool.and_eq_true, beq_iff_eq] at h
    simp only [sevenPoints, List.mem_cons, List.not_mem_nil, or_false] at hmem
    rcases hmem with rfl | rfl | rfl | rfl | rfl | rfl
    · exact h7 h.1.symm
    · exact h8 h.1.symm
    · exact h11 h.1.symm
    · exact h11 h.1.symm
    · exact h8 h.1.symm
    · exact h7 h.1.symm

theorem seven_lawful : seven.Lawful where
  prime := by decide
  qs_eq := rfl
  q_le := by decide
  torsion := by decide
  generator_ne := by decide
  coordinates_eq_none := by decide
  coordinates_inj := by decide
  coordinates_lt p x y h := by
    have hall : ∀ xy ∈ sevenPoints,
        xy.1 < 256 ^ 32 ∧ xy.2 < 256 ^ 32 ∧ xy ≠ (0, 0) := by
      decide
    exact hall (x, y) (mem_sevenCoordinates p (x, y) h)
  decodePoint_eq v x p hv := by
    refine (sevenDecode_eq hv (value x) p).trans ?_
    rcases h : sevenCoordinates p with _ | ⟨x', y'⟩
    · simp [seven, h]
    · simp [seven, h, and_assoc]

/-- A nonce for the tests. -/
def constantHash (_ : Bytes) : H256 := FixedHash.ofArith 32 1

/-- The signature of the number 2 by the secret 1. -/
def sevenSignature : SignatureStruct :=
  ⟨FixedHash.ofArith 32 8, FixedHash.ofArith 32 5, 1⟩

theorem sign_recovers_seven : ∃ sig,
    seven.sign constantHash (FixedHash.zero 32) (FixedHash.ofArith 32 1)
      (FixedHash.ofArith 32 2) = .ok sig ∧
    seven.recoverKey sig (FixedHash.ofArith 32 2) =
      seven.toPublic (FixedHash.ofArith 32 1) := by
  have hsign : seven.sign constantHash (FixedHash.zero 32)
      (FixedHash.ofArith 32 1) (FixedHash.ofArith 32 2) = .ok sevenSignature := by
    decide +kernel
  have hndvd : ¬seven.q ∣ value sevenSignature.r := by decide +kernel
  exact ⟨_, hsign, ((sign_recovers seven_lawful hsign).2.2.2.2.1 hndvd).1⟩

theorem verifyKey_iff_seven :
    seven.verifyKey (seven.toPublic (FixedHash.ofArith 32 1)) sevenSignature
      (FixedHash.ofArith 32 2) = true :=
  (verifyKey_iff seven_lawful _ _ _ (by decide) (by decide +kernel)
    (by decide +kernel)).2
    ⟨1, 5, by decide, by decide +kernel, by decide +kernel, by decide⟩

end Seven

end Secp256k1PP

end Web3Core
