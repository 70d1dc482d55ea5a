/-
Loops over an array.  A loop that writes each of its places once, from what was
there before, has the written values at its places and leaves the others alone;
a loop that carries the old value of one place to the next moves the values
along; a loop that works on one place is a fold.
-/
import Mathlib.Data.List.GetD
import Mathlib.Data.List.Nodup

namespace Web3Core

section ArrayLoops

variable {α ι : Type} {d : α}

theorem getD_set_self {a : List α} {i : Nat} (hi : i < a.length) (x : α) :
    (a.set i x).getD i d = x := by
  rw [List.getD_eq_getElem?_getD, List.getElem?_set_self hi, Option.getD_some]

theorem getD_set_ne {a : List α} {i j : Nat} (hij : i ≠ j) (x : α) :
    (a.set i x).getD j d = a.getD j d := by
  rw [List.getD_eq_getElem?_getD, List.getElem?_set_ne hij,
    ← List.getD_eq_getElem?_getD]

theorem getD_take_of_lt {a : List α} {i n : Nat} (h : i < n) :
    (a.take n).getD i d = a.getD i d := by
  rw [List.getD_eq_getElem?_getD, List.getElem?_take_of_lt h,
    ← List.getD_eq_getElem?_getD]

theorem getD_drop (a : List α) (n i : Nat) :
    (a.drop n).getD i d = a.getD (n + i) d := by
  rw [List.getD_eq_getElem?_getD, List.getElem?_drop, ← List.getD_eq_getElem?_getD]

/-- Arrays of one length with the same entries. -/
theorem ext_getD {a b : List α} (hlength : a.length = b.length)
    (h : ∀ j < a.length, a.getD j d = b.getD j d) : a = b := by
  apply List.ext_getElem hlength
  intro j ha hb
  have hj := h j ha
  rwa [List.getD_eq_getElem _ _ ha, List.getD_eq_getElem _ _ hb] at hj

/-- A loop that works on one place. -/
theorem foldl_set_one {a : List α} {i : Nat} (hi : i < a.length)
    (f : α → ι → α) (l : List ι) :
    l.foldl (fun a y => a.set i (f (a.getD i d) y)) a =
      a.set i (l.foldl f (a.getD i d)) := by
  induction l generalizing a with
  | nil =>
      apply ext_getD (d := d) (by rw [List.foldl_nil, List.length_set])
      intro j _
      rw [List.foldl_nil, List.foldl_nil]
      by_cases hij : i = j
      · rw [← hij, getD_set_self hi]
      · rw [getD_set_ne hij]
  | cons y l ih =>
      rw [List.foldl_cons, List.foldl_cons, ih (by rwa [List.length_set]),
        getD_set_self hi, List.set_set]

variable {g : ι → Nat} {v : ι → α → α} {n : Nat} {f : List α → ι → List α}

/-- What a loop has done that writes each of its places once. -/
structure Written (g : ι → Nat) (v : ι → α → α) (d : α) (n : Nat) (l : List ι)
    (a b : List α) : Prop where
  length_eq : b.length = n
  written : ∀ x ∈ l, b.getD (g x) d = v x (a.getD (g x) d)
  kept : ∀ j, (∀ x ∈ l, g x ≠ j) → b.getD j d = a.getD j d

theorem foldl_written {a : List α} (ha : a.length = n) {l : List ι}
    (hbody : ∀ a x, a.length = n → x ∈ l →
      f a x = a.set (g x) (v x (a.getD (g x) d)))
    (hlt : ∀ x ∈ l, g x < n) (hnodup : (l.map g).Nodup) :
    Written g v d n l a (l.foldl f a) := by
  induction l generalizing a with
  | nil => exact ⟨ha, by simp, fun _ _ => rfl⟩
  | cons x l ih =>
      rw [List.map_cons, List.nodup_cons] at hnodup
      have hx : g x < a.length := by
        rw [ha]
        exact hlt x List.mem_cons_self
      have hother : ∀ y ∈ l, g y ≠ g x := by
        intro y hy heq
        exact hnodup.1 (heq ▸ List.mem_map_of_mem hy)
      have hstep : f a x = a.set (g x) (v x (a.getD (g x) d)) :=
        hbody a x ha List.mem_cons_self
      have h := ih (a := f a x) (by rw [hstep, List.length_set, ha])
        (fun a y ha hy => hbody a y ha (List.mem_cons_of_mem _ hy))
        (fun y hy => hlt y (List.mem_cons_of_mem _ hy)) hnodup.2
      rw [List.foldl_cons]
      refine ⟨h.length_eq, ?_, ?_⟩
      · intro y hy
        rcases List.mem_cons.1 hy with rfl | hy
        · rw [h.kept _ hother, hstep, getD_set_self hx]
        · rw [h.written y hy, hstep, getD_set_ne (hother y hy).symm]
      · intro j hj
        rw [h.kept j fun y hy => hj y (List.mem_cons_of_mem _ hy), hstep,
          getD_set_ne (hj x List.mem_cons_self)]

/-- A step of a loop that carries values along: the value it carries is written,
changed, and the old one is carried on. -/
def carryStep (p : Nat → Nat) (r : Nat → α → α) (d : α) (state : List α × α × α)
    (x : Nat) : List α × α × α :=
  (state.1.set (p x) (r x state.2.2), state.1.getD (p x) d, state.1.getD (p x) d)

/-- The first `n` places have the values of those before them. -/
structure Carried (p : Nat → Nat) (r : Nat → α → α) (d t : α) (n : Nat)
    (a : List α) (state : List α × α × α) : Prop where
  length_eq : state.1.length = a.length
  carried : ∀ x < n, state.1.getD (p x) d =
    r x (if x = 0 then t else a.getD (p (x - 1)) d)
  kept : ∀ j, (∀ x < n, p x ≠ j) → state.1.getD j d = a.getD j d
  last : state.2.2 = if n = 0 then t else a.getD (p (n - 1)) d

theorem foldl_carried {p : Nat → Nat} {r : Nat → α → α} {a : List α} {u t : α}
    {n : Nat} (hlt : ∀ x < n, p x < a.length)
    (hdistinct : ∀ x < n, ∀ y < x, p y ≠ p x) :
    Carried p r d t n a ((List.range n).foldl (carryStep p r d) (a, u, t)) := by
  induction n with
  | zero =>
      exact ⟨rfl, fun x hx => absurd hx x.not_lt_zero, fun _ _ => rfl, rfl⟩
  | succ n ih =>
      have h := ih (fun x hx => hlt x (by omega)) fun x hx => hdistinct x (by omega)
      rw [List.range_succ, List.foldl_append, List.foldl_cons, List.foldl_nil]
      generalize (List.range n).foldl (carryStep p r d) (a, u, t) = state at h
      have hn : p n < state.1.length := by
        rw [h.length_eq]
        exact hlt n (by omega)
      have hold : state.1.getD (p n) d = a.getD (p n) d :=
        h.kept _ (hdistinct n (by omega))
      refine ⟨by rw [carryStep, List.length_set, h.length_eq], ?_, ?_, ?_⟩
      · intro x hx
        rcases Nat.lt_or_eq_of_le (Nat.le_of_lt_succ hx) with hx | rfl
        · rw [carryStep, getD_set_ne (hdistinct n (by omega) x hx).symm,
            h.carried x hx]
        · rw [carryStep, getD_set_self hn, h.last]
      · intro j hj
        rw [carryStep, getD_set_ne (hj n (by omega)),
          h.kept j fun x hx => hj x (by omega)]
      · rw [carryStep, hold, if_neg (by omega), Nat.add_sub_cancel]

end ArrayLoops

end Web3Core
