/-
Signatures over a group of prime order.  A signature of a number is a point and
a number that solves an equation with the signer's point; the equation can be
solved for the point of the signature and for that of the signer, which is how
it is verified and how the signer is recovered.
-/
import Mathlib.Algebra.Field.ZMod
import Mathlib.Algebra.Module.ZMod
import Mathlib.Data.Int.GCD
import Mathlib.Tactic.LinearCombination

namespace Web3Core

namespace ECDSA

/-- The inverse modulo `q`, and zero where there is none. -/
def inverseMod (a q : Nat) : Nat :=
  if a.gcd q = 1 then (Nat.gcdA a q % q).toNat else 0

section Scalars

variable {q : Nat}

theorem natCast_inverseMod [Fact q.Prime] (a : Nat) :
    (inverseMod a q : ZMod q) = (a : ZMod q)⁻¹ := by
  have hq : q.Prime := Fact.out
  by_cases hgcd : a.gcd q = 1
  · have hpos : (0 : Int) < q := by exact_mod_cast hq.pos
    have hcast : ((Nat.gcdA a q % q).toNat : ZMod q) = (Nat.gcdA a q : ZMod q) := by
      have hint : (((Nat.gcdA a q % q).toNat : Int) : ZMod q) =
          ((Nat.gcdA a q % q : Int) : ZMod q) := by
        rw [Int.toNat_of_nonneg (Int.emod_nonneg _ hpos.ne')]
      rw [Int.cast_natCast] at hint
      rw [hint, ZMod.intCast_mod]
    have hbezout := congrArg (fun n : Int => (n : ZMod q)) (Nat.gcd_eq_gcd_ab a q)
    simp only [hgcd, Int.cast_add, Int.cast_mul, Int.cast_natCast, Nat.cast_one,
      Int.cast_one, CharP.cast_eq_zero, zero_mul, add_zero] at hbezout
    rw [inverseMod, if_pos hgcd, hcast]
    exact eq_inv_of_mul_eq_one_right hbezout.symm
  · have hdvd : q ∣ a := by
      by_contra hne
      exact hgcd ((Nat.coprime_comm.1 ((Nat.Prime.coprime_iff_not_dvd hq).2 hne)))
    rw [inverseMod, if_neg hgcd, (ZMod.natCast_eq_zero_iff a q).2 hdvd, inv_zero,
      Nat.cast_zero]

end Scalars

section Points

variable {E : Type} [AddCommGroup E] {q : Nat} {r s z : Nat} {R g Q : E}

/-- The scalars of a group in which `q` times every point is zero. -/
theorem smul_eq_iff (hq : q.Prime) (htorsion : ∀ X : E, q • X = 0)
    (hs : ¬q ∣ s) :
    s • R = z • g + r • Q ↔
      R = (inverseMod s q * z) • g + (inverseMod s q * r) • Q := by
  have : Fact q.Prime := ⟨hq⟩
  let _ : Module (ZMod q) E := AddCommGroup.zmodModule htorsion
  have hne : (s : ZMod q) ≠ 0 := fun h => hs ((ZMod.natCast_eq_zero_iff s q).1 h)
  simp only [← Nat.cast_smul_eq_nsmul (ZMod q), Nat.cast_mul, natCast_inverseMod,
    mul_smul, ← smul_add]
  rw [eq_inv_smul_iff₀ hne]

/-- The point of the signer solves the equation. -/
theorem recovered_iff (hq : q.Prime) (htorsion : ∀ X : E, q • X = 0)
    (hr : ¬q ∣ r) :
    (inverseMod r q * s % q) • R + (q - inverseMod r q * z % q) • g = Q ↔
      s • R = z • g + r • Q := by
  have : Fact q.Prime := ⟨hq⟩
  let _ : Module (ZMod q) E := AddCommGroup.zmodModule htorsion
  have hne : (r : ZMod q) ≠ 0 := fun h => hr ((ZMod.natCast_eq_zero_iff r q).1 h)
  have hle : inverseMod r q * z % q ≤ q := (Nat.mod_lt _ hq.pos).le
  simp only [← Nat.cast_smul_eq_nsmul (ZMod q), Nat.cast_sub hle, ZMod.natCast_mod,
    Nat.cast_mul, natCast_inverseMod, CharP.cast_eq_zero, zero_sub, mul_smul,
    neg_smul, ← smul_neg, ← smul_add]
  rw [inv_smul_eq_iff₀ hne, smul_neg, ← sub_eq_add_neg, sub_eq_iff_eq_add,
    add_comm]

/-- Nothing is recovered with a multiple of the order. -/
theorem recovered_of_dvd (hq : q.Prime) (htorsion : ∀ X : E, q • X = 0)
    (hr : q ∣ r) :
    (inverseMod r q * s % q) • R + (q - inverseMod r q * z % q) • g = 0 := by
  have hgcd : r.gcd q ≠ 1 := by
    rw [Nat.gcd_eq_right hr]
    exact hq.one_lt.ne'
  rw [inverseMod, if_neg hgcd, Nat.zero_mul, Nat.zero_mul, Nat.zero_mod,
    Nat.sub_zero, htorsion, zero_smul, add_zero]

/-- A signature with the nonce `k` by the secret `d` solves the equation. -/
theorem signed (hq : q.Prime) (htorsion : ∀ X : E, q • X = 0) {k d : Nat}
    (hk : ¬q ∣ k) :
    (inverseMod k q * (d * r + z) % q) • (k • g) = z • g + r • (d • g) := by
  have : Fact q.Prime := ⟨hq⟩
  let _ : Module (ZMod q) E := AddCommGroup.zmodModule htorsion
  have hne : (k : ZMod q) ≠ 0 := fun h => hk ((ZMod.natCast_eq_zero_iff k q).1 h)
  simp only [← Nat.cast_smul_eq_nsmul (ZMod q), ZMod.natCast_mod, Nat.cast_mul,
    Nat.cast_add, natCast_inverseMod, ← mul_smul, ← add_smul]
  congr 1
  field_simp
  ring

end Points

end ECDSA

end Web3Core
