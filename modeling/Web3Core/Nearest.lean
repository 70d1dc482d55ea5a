/-
The nearest elements of a list: as many as there is room for, in the order of
their distances, and none that is left out is nearer than one of them.  Which
they are depends on all elements; from some of them they are found exactly if
enough of these are at least as near as any of the others.
-/
import Mathlib.Data.List.Perm.Subperm
import Mathlib.Data.List.Nodup
import Mathlib.Order.Lattice

namespace Web3Core

variable {α δ : Type} [LinearOrder δ] {d : α → δ} {k : Nat} {l v ret : List α}

/-- The `k` nearest elements of a list. -/
structure Nearest (d : α → δ) (k : Nat) (l ret : List α) : Prop where
  length : ret.length = min k l.length
  nodup : ret.Nodup
  subset : ∀ x ∈ ret, x ∈ l
  sorted : ret.Pairwise fun x y => d x ≤ d y
  closest : ∀ x ∈ l, x ∉ ret → ∀ y ∈ ret, d y ≤ d x

/-- What is at the front of a sorted list is no farther than what is behind. -/
theorem le_of_mem_take (hsorted : v.Pairwise fun x y => d x ≤ d y) {x y : α}
    (hx : x ∈ v) (hnot : x ∉ v.take k) (hy : y ∈ v.take k) : d y ≤ d x := by
  rw [← List.take_append_drop k v, List.mem_append] at hx
  have hdrop := hx.resolve_left hnot
  rw [← List.take_append_drop k v] at hsorted
  exact (List.pairwise_append.mp hsorted).2.2 y hy x hdrop

/-- The first elements of a sorted list of some elements are the nearest of all
exactly if each of the others has enough of the sorted ones that are no farther
than it is. -/
theorem nearest_take_iff (seen : α → Bool) (hl : l.Nodup)
    (hv : v.Perm (l.filter seen)) (hsorted : v.Pairwise fun x y => d x ≤ d y) :
    Nearest d k l (v.take k) ↔ ∀ x ∈ l, seen x = false →
      k ≤ (l.filter fun y => seen y && decide (d y ≤ d x)).length := by
  have hnodup : v.Nodup := hv.nodup_iff.mpr (hl.filter seen)
  have hmem : ∀ x, x ∈ v ↔ x ∈ l ∧ seen x = true := fun x =>
    hv.mem_iff.trans List.mem_filter
  have hlength : v.length = (l.filter seen).length := hv.length_eq
  constructor
  · intro h x hx hseen
    have hmore : v.length < l.length := by
      rw [hlength]
      refine lt_of_le_of_ne (List.length_filter_le seen l) fun heq => ?_
      have hall := List.length_filter_eq_length_iff.mp heq x hx
      rw [hseen] at hall
      cases hall
    have hcount := h.length
    rw [List.length_take] at hcount
    have hk : k ≤ v.length := by omega
    have htake : (v.take k).length = k := by
      rw [List.length_take, Nat.min_eq_left hk]
    have hnot : x ∉ v.take k := by
      intro hin
      have hx' := ((hmem x).mp (List.mem_of_mem_take hin)).2
      rw [hseen] at hx'
      cases hx'
    rw [← htake]
    refine ((hnodup.sublist (List.take_sublist k v)).subperm fun y hy => ?_).length_le
    obtain ⟨hyl, hyseen⟩ := (hmem y).mp (List.mem_of_mem_take hy)
    have hle := h.closest x hx hnot y hy
    exact List.mem_filter.mpr ⟨hyl, by simp [hyseen, hle]⟩
  · intro h
    refine ⟨?_, hnodup.sublist (List.take_sublist k v), fun x hx => ?_,
      hsorted.sublist (List.take_sublist k v), fun x hx hnot y hy => ?_⟩
    · rw [List.length_take, hlength]
      by_cases hall : ∀ x ∈ l, seen x = true
      · rw [List.filter_eq_self.mpr hall]
      · obtain ⟨x, hx⟩ := not_forall.mp hall
        obtain ⟨hxl, hseen⟩ := Classical.not_imp.mp hx
        have hk := h x hxl (Bool.eq_false_of_not_eq_true hseen)
        have hfewer : (l.filter fun y => seen y && decide (d y ≤ d x)).length ≤
            (l.filter seen).length := by
          refine (List.monotone_filter_right l fun y hy => ?_).length_le
          rw [Bool.and_eq_true] at hy
          exact hy.1
        have hle := List.length_filter_le seen l
        omega
    · exact ((hmem x).mp (List.mem_of_mem_take hx)).1
    · by_cases hseen : seen x = true
      · exact le_of_mem_take hsorted ((hmem x).mpr ⟨hx, hseen⟩) hnot hy
      · -- All that is no farther than `x` would be in front of a farther `y`.
        by_contra hfar
        have hk := h x hx (Bool.eq_false_of_not_eq_true hseen)
        have hfront : (y :: l.filter fun z =>
            seen z && decide (d z ≤ d x)).Subperm (v.take k) := by
          refine List.Nodup.subperm (List.nodup_cons.mpr ⟨fun hin => ?_,
            hl.filter _⟩) fun z hz => ?_
          · have hle := (List.mem_filter.mp hin).2
            rw [Bool.and_eq_true, decide_eq_true_eq] at hle
            exact hfar hle.2
          · rcases List.mem_cons.mp hz with rfl | hz
            · exact hy
            · obtain ⟨hzl, hz'⟩ := List.mem_filter.mp hz
              rw [Bool.and_eq_true, decide_eq_true_eq] at hz'
              by_contra hout
              have hle := le_of_mem_take hsorted ((hmem z).mpr ⟨hzl, hz'.1⟩)
                hout hy
              exact hfar (hle.trans hz'.2)
        have hcount := hfront.length_le
        rw [List.length_cons, List.length_take] at hcount
        omega

section Sorting

variable {f : α → Nat} {n : Nat}

/-- The elements that have a number, for one number after the other. -/
def byNumber (f : α → Nat) (n : Nat) (l : List α) : List α :=
  (List.range n).flatMap fun i => l.filter fun x => f x == i

theorem pairwise_byNumber (f : α → Nat) (n : Nat) (l : List α) :
    (byNumber f n l).Pairwise fun x y => f x ≤ f y := by
  have hnumber : ∀ {i : Nat} {x : α}, x ∈ l.filter (fun x => f x == i) →
      f x = i := fun hx => by simpa using (List.mem_filter.mp hx).2
  rw [byNumber, List.pairwise_flatMap]
  refine ⟨fun i _ => ?_, List.pairwise_lt_range.imp fun {i j} hij x hx y hy => ?_⟩
  · refine List.Pairwise.imp_of_mem (fun {x y} hx hy _ => ?_)
      (List.pairwise_of_forall (R := fun _ _ => True) fun _ _ => trivial)
    rw [hnumber hx, hnumber hy]
  · rw [hnumber hx, hnumber hy]
    exact hij.le

theorem perm_byNumber (hl : l.Nodup) (h : ∀ x ∈ l, f x < n) :
    (byNumber f n l).Perm l := by
  refine (List.perm_ext_iff_of_nodup ?_ hl).mpr fun x => ?_
  · rw [byNumber, List.nodup_flatMap]
    refine ⟨fun i _ => hl.filter _, List.pairwise_lt_range.imp
      fun {i j} hij x hx hx' => ?_⟩
    have hi := (List.mem_filter.mp hx).2
    have hj := (List.mem_filter.mp hx').2
    rw [beq_iff_eq] at hi hj
    omega
  · rw [byNumber, List.mem_flatMap]
    constructor
    · rintro ⟨i, -, hx⟩
      exact List.mem_of_mem_filter hx
    · intro hx
      exact ⟨f x, List.mem_range.mpr (h x hx),
        List.mem_filter.mpr ⟨hx, beq_self_eq_true _⟩⟩

end Sorting

end Web3Core
