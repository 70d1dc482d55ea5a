/-
Loops with fuel.  What a loop does from a point on is a function of the fuel it
has left; getting on from there to another point takes some of the fuel.  A
loop that returns in the middle of its work and is called again where it
returned visits one point after the other.
-/
import Mathlib.Data.List.Basic

namespace Web3Core

variable {X Y : Type}

/-- From `f` the loop gets on to `g`. -/
def Leads (f g : Nat → Y) : Prop := ∃ n, ∀ fuel, f (n + fuel) = g fuel

namespace Leads

variable {f g h : Nat → Y}

theorem refl (f : Nat → Y) : Leads f f :=
  ⟨0, fun fuel => by rw [Nat.zero_add]⟩

theorem trans (hfirst : Leads f g) (hsecond : Leads g h) : Leads f h := by
  obtain ⟨n, hn⟩ := hfirst
  obtain ⟨m, hm⟩ := hsecond
  refine ⟨n + m, ?_⟩
  intro fuel
  rw [Nat.add_assoc, hn, hm]

/-- One round of the loop. -/
theorem round (h : ∀ fuel, f (fuel + 1) = g fuel) : Leads f g := by
  refine ⟨1, ?_⟩
  intro fuel
  rw [Nat.add_comm, h]

/-- A loop that gets to an outcome has it with any fuel from some point on. -/
theorem exists_forall {outcome : Y} (h : Leads f fun _ => outcome) :
    ∃ enough, ∀ fuel ≥ enough, f fuel = outcome := by
  obtain ⟨n, hn⟩ := h
  refine ⟨n, ?_⟩
  intro fuel hfuel
  obtain ⟨rest, rfl⟩ := Nat.exists_eq_add_of_le hfuel
  exact hn rest

end Leads

section Visits

variable (run : X → Nat → Y) (returned : X → Y)

/-- From `f` the loop returns at the first of the points; called again there,
it returns at the second one, and so on; after the last one it gets on
to `g`. -/
def Visits : (Nat → Y) → List X → (Nat → Y) → Prop
  | f, [], g => Leads f g
  | f, x :: xs, g => Leads f (fun _ => returned x) ∧ Visits (run x) xs g

variable {run returned} {f g h : Nat → Y} {xs ys : List X}

theorem Leads.visits (hleads : Leads f g) (hrest : Visits run returned g xs h) :
    Visits run returned f xs h := by
  cases xs with
  | nil => exact hleads.trans hrest
  | cons x xs => exact ⟨hleads.trans hrest.1, hrest.2⟩

theorem Visits.append (hfirst : Visits run returned f xs g)
    (hsecond : Visits run returned g ys h) :
    Visits run returned f (xs ++ ys) h := by
  induction xs generalizing f with
  | nil => exact Leads.visits hfirst hsecond
  | cons x xs ih => exact ⟨hfirst.1, ih hfirst.2⟩

end Visits

end Web3Core
