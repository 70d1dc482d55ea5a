/-
The permutation of `SHA3.cpp` is Keccak's: each of its loops over the two arrays
is a step mapping on the lanes, and its tables are those of the walk and of the
shift register.
-/
import Mathlib.Tactic.FinCases
import Web3Core.ArrayLoops
import Web3Core.KeccakSponge
import Web3Core.SHA3

namespace Web3Core

namespace SHA3

theorem rol_eq (x : UInt64) {n : Nat} (hpos : 0 < n) (hlt : n < 64) :
    rol x (UInt64.ofNat n) = Keccak.rotated n x := by
  have hn : (UInt64.ofNat n).toNat = n := by
    rw [UInt64.toNat_ofNat', Nat.mod_eq_of_lt (by omega)]
  have hright : (64 - UInt64.ofNat n).toNat = 64 - n := by
    rw [UInt64.toNat_sub_of_le _ _ (by
      rw [UInt64.le_iff_toNat_le, hn]; exact Nat.le_of_lt hlt), hn]
    rfl
  apply UInt64.toBitVec_inj.1
  rw [rol, Keccak.rotated, BitVec.rotateLeft_def, Nat.mod_eq_of_lt hlt]
  simp only [UInt64.toBitVec_or, UInt64.toBitVec_shiftRight,
    UInt64.toBitVec_shiftLeft, BitVec.ushiftRight_eq', BitVec.shiftLeft_eq',
    BitVec.toNat_umod, UInt64.toNat_toBitVec, hn, hright]
  rw [show (64 : BitVec 64).toNat = 64 from rfl, Nat.mod_eq_of_lt hlt,
    Nat.mod_eq_of_lt (show 64 - n < 64 by omega)]

/-- An array holds the lanes of a state. -/
structure Holds (a : List UInt64) (A : Keccak.Lanes) : Prop where
  length_eq : a.length = 25
  getD_eq : ∀ x y : Fin 5, a.getD (5 * y + x) 0 = A x y

section Theta

variable {a b : List UInt64} {A : Keccak.Lanes}

/-- The places that the nested loops go through. -/
def places : List (Nat × Nat) :=
  [0, 1, 2, 3, 4].flatMap fun x => [0, 5, 10, 15, 20].map fun y => (x, y)

theorem for5_one {σ : Type} (e : σ → Nat → σ) (state : σ) :
    for5 1 e state = [0, 1, 2, 3, 4].foldl e state := rfl

theorem for5_five {σ : Type} (e : σ → Nat → σ) (state : σ) :
    for5 5 e state = [0, 5, 10, 15, 20].foldl e state := rfl

theorem foldl_places {σ : Type} (f : σ → Nat → Nat → σ) (s : σ) :
    for5 1 (fun s x => for5 5 (fun s y => f s x y) s) s =
      places.foldl (fun s p => f s p.1 p.2) s := rfl

/-- The first loop sums up the columns. -/
theorem thetaSums_spec (h : Holds a A) (hb : b.length = 5) :
    (thetaSums a b).length = 5 ∧
      ∀ x : Fin 5, (thetaSums a b).getD x 0 = Keccak.parity A x := by
  have hwritten : Written id
      (fun x _ => [0, 5, 10, 15, 20].foldl
        (fun c y => c ^^^ a.getD (x + y) 0) 0) 0 5 [0, 1, 2, 3, 4] b
      (thetaSums a b) := by
    rw [thetaSums, for5_one]
    simp only [for5_five]
    refine foldl_written hb ?_ (by decide) (by decide)
    intro b x hb hx
    have hlt : x < b.length := by
      have hall : ∀ x ∈ [0, 1, 2, 3, 4], x < 5 := by decide
      rw [hb]
      exact hall x hx
    have hone := @foldl_set_one _ _ 0 (b.set x 0) x (by rwa [List.length_set])
      (fun c y => c ^^^ a.getD (x + y) 0) [0, 5, 10, 15, 20]
    rw [getD_set_self hlt, List.set_set] at hone
    exact hone
  refine ⟨hwritten.length_eq, ?_⟩
  intro x
  have hx := hwritten.written x (by fin_cases x <;> decide)
  have hlane (y : Fin 5) : a.getD (x + 5 * y) 0 = A x y := by
    rw [Nat.add_comm, h.getD_eq]
  rw [show (id x.val) = x.val from rfl] at hx
  rw [hx, Keccak.parity, show List.finRange 5 = [0, 1, 2, 3, 4] from rfl]
  simp only [List.foldl_cons, List.foldl_nil, ← hlane]
  rfl

/-- The second loop adds them to the lanes. -/
theorem holds_thetaLanes (h : Holds a A) (hb : ∀ x : Fin 5,
    b.getD x 0 = Keccak.parity A x) : Holds (thetaLanes a b) (Keccak.theta A) := by
  have hwritten : Written (fun p : Nat × Nat => p.2 + p.1)
      (fun p w => w ^^^ (b.getD ((p.1 + 4) % 5) 0 ^^^
        rol (b.getD ((p.1 + 1) % 5) 0) 1)) 0 25 places a (thetaLanes a b) := by
    rw [thetaLanes, foldl_places fun (a : List UInt64) x y => a.set (y + x)
      (a.getD (y + x) 0 ^^^
        (b.getD ((x + 4) % 5) 0 ^^^ rol (b.getD ((x + 1) % 5) 0) 1))]
    exact foldl_written h.length_eq (fun _ _ _ _ => rfl) (by decide) (by decide)
  have hrol (w : UInt64) : rol w 1 = Keccak.rotated 1 w :=
    @rol_eq w 1 (by decide) (by decide)
  refine ⟨hwritten.length_eq, ?_⟩
  intro x y
  have hmem : (x.val, 5 * y.val) ∈ places := by
    have hall : ∀ x y : Fin 5, (x.val, 5 * y.val) ∈ places := by decide
    exact hall x y
  have hlane := hwritten.written _ hmem
  have hleft : (x.val + 4) % 5 = (x + 4 : Fin 5).val := by
    rw [Fin.val_add]
    rfl
  have hright : (x.val + 1) % 5 = (x + 1 : Fin 5).val := by
    rw [Fin.val_add]
    rfl
  simp only [h.getD_eq, hrol, hleft, hright, hb] at hlane
  exact hlane

end Theta

section RhoPi

variable {a : List UInt64} {A : Keccak.Lanes}

/-- Every lane but the first comes from the one before it in the table. -/
theorem rhoPi_table (x y : Fin 5) (hxy : ¬(x = 0 ∧ y = 0)) :
    ∃ k < 24, pi.getD k 0 = 5 * y + x ∧
      (if k = 0 then 1 else pi.getD (k - 1) 0) = 5 * x + (x + 3 * y : Fin 5) ∧
      rho.getD k 0 = UInt64.ofNat (Keccak.offset (x + 3 * y) x) ∧
      0 < Keccak.offset (x + 3 * y) x ∧ Keccak.offset (x + 3 * y) x < 64 := by
  have hall : ∀ x y : Fin 5, ¬(x = 0 ∧ y = 0) →
      ∃ k < 24, pi.getD k 0 = 5 * y + x ∧
        (if k = 0 then 1 else pi.getD (k - 1) 0) = 5 * x + (x + 3 * y : Fin 5) ∧
        rho.getD k 0 = UInt64.ofNat (Keccak.offset (x + 3 * y) x) ∧
        0 < Keccak.offset (x + 3 * y) x ∧ Keccak.offset (x + 3 * y) x < 64 := by
    decide +kernel
  exact hall x y hxy

theorem holds_rhoPi (h : Holds a A) (b : List UInt64) :
    Holds (rhoPi a b).1 (Keccak.pi (Keccak.rho A)) ∧
      (rhoPi a b).2.length = b.length := by
  have hcarried : Carried (fun x => pi.getD x 0)
      (fun x t => rol t (rho.getD x 0)) 0 (a.getD 1 0) 24 a
      ((List.range 24).foldl rhoPiStep (a, b.getD 0 0, a.getD 1 0)) := by
    refine foldl_carried ?_ (by decide)
    rw [h.length_eq]
    decide
  rw [rhoPi]
  generalize (List.range 24).foldl rhoPiStep (a, b.getD 0 0, a.getD 1 0) = state
    at hcarried
  refine ⟨⟨by rw [hcarried.length_eq, h.length_eq], ?_⟩, by rw [List.length_set]⟩
  intro x y
  rw [Keccak.pi, Keccak.rho]
  by_cases hxy : x = 0 ∧ y = 0
  · obtain ⟨rfl, rfl⟩ := hxy
    have hzero : Keccak.rotated 0 (A 0 0) = A 0 0 := by
      apply UInt64.toBitVec_inj.1
      apply BitVec.eq_of_getLsbD_eq
      intro i hi
      simp [Keccak.rotated, hi]
    rw [hcarried.kept _ (by decide), h.getD_eq]
    exact hzero.symm
  · obtain ⟨k, hk, hplace, hbefore, hrho, hpos, hlt⟩ := rhoPi_table x y hxy
    have hlane := hcarried.carried k hk
    have hold : (if k = 0 then a.getD 1 0 else a.getD (pi.getD (k - 1) 0) 0) =
        A (x + 3 * y) x := by
      rw [← h.getD_eq, ← hbefore]
      split <;> rfl
    simp only [hplace, hold, hrho] at hlane
    rw [hlane, rol_eq _ hpos hlt]

end RhoPi

section Chi

variable {a b : List UInt64} {A B : Keccak.Lanes}
  {state : List UInt64 × List UInt64} {k : Nat}

/-- A row is changed and the others are kept. -/
theorem holds_chiRow (h : Holds state.1 B) (hb : state.2.length = 5) (r : Fin 5)
    {y : Nat} (hy : y = 5 * r) :
    Holds (chiRow state y).1
        (fun x y => if y = r then Keccak.chi B x y else B x y) ∧
      (chiRow state y).2.length = 5 := by
  have hsmall : ∀ x ∈ [0, 1, 2, 3, 4], x < 5 := by decide
  have hmem (x : Fin 5) : x.val ∈ [0, 1, 2, 3, 4] := by
    revert x
    decide
  have hscratch : Written id (fun x _ => state.1.getD (y + x) 0) 0 5
      [0, 1, 2, 3, 4] state.2 (chiRow state y).2 := by
    rw [chiRow, for5_one]
    exact foldl_written hb (fun _ _ _ _ => rfl) (by decide) (by decide)
  have hrow : Written (fun x => y + x)
      (fun x _ => (chiRow state y).2.getD x 0 ^^^
        (~~~((chiRow state y).2.getD ((x + 1) % 5) 0) &&&
          (chiRow state y).2.getD ((x + 2) % 5) 0)) 0 25
      [0, 1, 2, 3, 4] state.1 (chiRow state y).1 := by
    have hnodup : ∀ r : Fin 5, ([0, 1, 2, 3, 4].map fun x => 5 * r.val + x).Nodup := by
      decide
    rw [chiRow, for5_one, for5_one]
    refine foldl_written h.length_eq (fun _ _ _ _ => rfl) ?_ ?_
    · intro x hx
      have := hsmall x hx
      omega
    · rw [hy]
      exact hnodup r
  generalize chiRow state y = next at hscratch hrow
  have hscratchAt (x : Fin 5) : next.2.getD x 0 = B x r := by
    have hx := hscratch.written x (hmem x)
    rwa [show (id x.val) = x.val from rfl, hy, h.getD_eq] at hx
  refine ⟨⟨hrow.length_eq, ?_⟩, hscratch.length_eq⟩
  intro x z
  by_cases hz : z = r
  · have hx := hrow.written x (hmem x)
    have hnext : (x.val + 1) % 5 = (x + 1 : Fin 5).val := by
      rw [Fin.val_add]
      rfl
    have hafter : (x.val + 2) % 5 = (x + 2 : Fin 5).val := by
      rw [Fin.val_add]
      rfl
    simp only [hnext, hafter, hscratchAt] at hx
    rw [hz, ← hy, hx, if_pos rfl, Keccak.chi]
  · rw [if_neg hz, ← h.getD_eq, hrow.kept]
    intro w hw heq
    have hlt := hsmall w hw
    have hval : z.val ≠ r.val := fun heq => hz (Fin.ext heq)
    omega

/-- The first rows are changed. -/
def rowsChanged (A : Keccak.Lanes) (k : Nat) : Keccak.Lanes := fun x y =>
  if y.val < k then Keccak.chi A x y else A x y

theorem holds_rowsChanged (h : Holds state.1 (rowsChanged A k))
    (hb : state.2.length = 5) (hk : k < 5) :
    Holds (chiRow state (5 * k)).1 (rowsChanged A (k + 1)) ∧
      (chiRow state (5 * k)).2.length = 5 := by
  obtain ⟨hrow, hscratch⟩ := holds_chiRow h hb ⟨k, hk⟩ rfl
  refine ⟨⟨hrow.length_eq, ?_⟩, hscratch⟩
  intro x y
  rw [hrow.getD_eq]
  by_cases hy : y = ⟨k, hk⟩
  · subst hy
    simp only [rowsChanged, Keccak.chi, if_pos, lt_self_iff_false, if_false,
      Nat.lt_succ_self]
  · have hne : y.val ≠ k := fun heq => hy (Fin.ext heq)
    rw [if_neg hy, rowsChanged, rowsChanged]
    exact if_congr (by omega) rfl rfl

theorem holds_chi (h : Holds state.1 A) (hb : state.2.length = 5) :
    Holds (for5 5 chiRow state).1 (Keccak.chi A) ∧
      (for5 5 chiRow state).2.length = 5 := by
  have hstart : Holds state.1 (rowsChanged A 0) := h
  have h₁ := holds_rowsChanged hstart hb (by decide)
  have h₂ := holds_rowsChanged h₁.1 h₁.2 (by decide)
  have h₃ := holds_rowsChanged h₂.1 h₂.2 (by decide)
  have h₄ := holds_rowsChanged h₃.1 h₃.2 (by decide)
  have h₅ := holds_rowsChanged h₄.1 h₄.2 (by decide)
  refine ⟨⟨h₅.1.length_eq, ?_⟩, h₅.2⟩
  intro x y
  have hlane := h₅.1.getD_eq x y
  rw [rowsChanged, if_pos (by omega)] at hlane
  exact hlane

end Chi

section Rounds

variable {a b : List UInt64} {A : Keccak.Lanes}

theorem RC_eq {i : Nat} (hi : i < 24) : RC.getD i 0 = Keccak.roundConstant i := by
  have hall : ∀ i < 24, RC.getD i 0 = Keccak.roundConstant i := by decide +kernel
  exact hall i hi

theorem holds_round (h : Holds a A) (hb : b.length = 5) {i : Nat} (hi : i < 24) :
    Holds (round (a, b) i).1 (Keccak.round A i) ∧ (round (a, b) i).2.length = 5 := by
  obtain ⟨hlength, hsums⟩ := thetaSums_spec h hb
  have htheta := holds_thetaLanes h hsums
  obtain ⟨hpi, hscratch⟩ := holds_rhoPi htheta (thetaSums a b)
  obtain ⟨hchi, hend⟩ := holds_chi hpi (hscratch.trans hlength)
  rw [round]
  generalize for5 5 chiRow (rhoPi (thetaLanes (a, b).1 (thetaSums (a, b).1 (a, b).2))
    (thetaSums (a, b).1 (a, b).2)) = state at hchi hend
  refine ⟨⟨by rw [List.length_set, hchi.length_eq], ?_⟩, hend⟩
  · intro x y
    rw [Keccak.round, Keccak.iota]
    by_cases hxy : x = 0 ∧ y = 0
    · obtain ⟨rfl, rfl⟩ := hxy
      have hlt : 0 < state.1.length := by
        rw [hchi.length_eq]
        decide
      have hzero := hchi.getD_eq 0 0
      simp only [Fin.val_zero, Nat.mul_zero, Nat.add_zero] at hzero
      rw [if_pos ⟨rfl, rfl⟩, ← hzero, ← RC_eq hi]
      exact getD_set_self hlt _
    · rw [if_neg hxy, ← hchi.getD_eq]
      apply getD_set_ne
      have hne : x.val ≠ 0 ∨ y.val ≠ 0 := by
        rw [← not_and_or]
        rintro ⟨hx, hy⟩
        exact hxy ⟨Fin.ext hx, Fin.ext hy⟩
      omega

theorem holds_rounds (h : Holds a A) (hb : b.length = 5) {n : Nat} (hn : n ≤ 24) :
    Holds ((List.range n).foldl round (a, b)).1
        ((List.range n).foldl Keccak.round A) ∧
      ((List.range n).foldl round (a, b)).2.length = 5 := by
  induction n with
  | zero => exact ⟨h, hb⟩
  | succ n ih =>
      obtain ⟨hbefore, hscratch⟩ := ih (by omega)
      rw [List.range_succ, List.foldl_append, List.foldl_append]
      exact holds_round hbefore hscratch (by omega)

theorem holds_wordsOf (s : Bytes) : Holds (wordsOf s) (Keccak.lanes s) := by
  refine ⟨by simp [wordsOf], ?_⟩
  intro x y
  rw [wordsOf, List.getD_eq_getElem _ _ (by simp; omega), List.getElem_map,
    List.getElem_range]
  rfl

theorem Holds.eq_toList (h : Holds a A) : a = A.toList := by
  apply ext_getD (d := 0) (by rw [h.length_eq]; rfl)
  intro j hj
  rw [h.length_eq] at hj
  have hlist (x y : Fin 5) : A.toList.getD (5 * y + x) 0 = A x y := by
    fin_cases x <;> fin_cases y <;> rfl
  have hplace : j = 5 * (j / 5) + j % 5 := (Nat.div_add_mod j 5).symm
  have hx : j % 5 < 5 := Nat.mod_lt _ (by decide)
  have hy : j / 5 < 5 := by omega
  rw [hplace]
  exact (h.getD_eq ⟨j % 5, hx⟩ ⟨j / 5, hy⟩).trans (hlist ⟨j % 5, hx⟩ ⟨j / 5, hy⟩).symm

/-- The unrolled loops permute the states as the step mappings do. -/
theorem keccakf_permutes (state : Bytes) :
    keccakf state = Keccak.permute state := by
  have h := (@holds_rounds _ [0, 0, 0, 0, 0] _ (holds_wordsOf state) rfl 24
    (le_refl 24)).1
  rw [keccakf, h.eq_toList]
  rfl

end Rounds

end SHA3

end Web3Core
