/-
Progress under any fair schedule.  Parties take steps of a system in any order.
A rank never grows, and as long as it is not zero there is one party whose next
step makes it smaller, and which stays the one until it does.  Then each round
in which everybody takes a step makes the rank smaller.
-/
import Mathlib.Data.List.Basic
import Mathlib.Order.Nat

namespace Web3Core

/-- A rank that helpful steps make smaller. -/
structure Helpful {σ α ι : Type} (step : σ → α → σ) (party : α → ι)
    (Inv : σ → Prop) (rank : σ → Nat) (helper : σ → ι) : Prop where
  inv : ∀ s a, Inv s → Inv (step s a)
  le : ∀ s a, Inv s → rank (step s a) ≤ rank s
  lt : ∀ s a, Inv s → 0 < rank s → party a = helper s →
    rank (step s a) < rank s
  keep : ∀ s a, Inv s → rank (step s a) = rank s →
    helper (step s a) = helper s

namespace Helpful

variable {σ α ι : Type} {step : σ → α → σ} {party : α → ι} {Inv : σ → Prop}
  {rank : σ → Nat} {helper : σ → ι} {s : σ}

theorem foldl_inv (h : Helpful step party Inv rank helper) (hs : Inv s)
    (l : List α) : Inv (l.foldl step s) := by
  induction l generalizing s with
  | nil => exact hs
  | cons a l ih => exact ih (h.inv s a hs)

theorem foldl_le (h : Helpful step party Inv rank helper) (hs : Inv s)
    (l : List α) : rank (l.foldl step s) ≤ rank s := by
  induction l generalizing s with
  | nil => exact le_rfl
  | cons a l ih => exact (ih (h.inv s a hs)).trans (h.le s a hs)

/-- A round with a step of the helpful party. -/
theorem foldl_lt (h : Helpful step party Inv rank helper) (hs : Inv s)
    (hpos : 0 < rank s) {l : List α} (hmem : ∃ a ∈ l, party a = helper s) :
    rank (l.foldl step s) < rank s := by
  induction l generalizing s with
  | nil =>
      obtain ⟨a, ha, -⟩ := hmem
      cases ha
  | cons a l ih =>
      have hnext := h.inv s a hs
      have hrest : rank (l.foldl step (step s a)) ≤ rank (step s a) :=
        h.foldl_le hnext l
      rw [List.foldl_cons]
      by_cases hhelps : party a = helper s
      · exact hrest.trans_lt (h.lt s a hs hpos hhelps)
      · rcases (h.le s a hs).lt_or_eq with hlt | heq
        · exact hrest.trans_lt hlt
        · rw [← heq]
          refine ih hnext (heq ▸ hpos) ?_
          obtain ⟨b, hb, hparty⟩ := hmem
          rcases List.mem_cons.1 hb with rfl | hb
          · exact absurd hparty hhelps
          · exact ⟨b, hb, by rw [h.keep s a hs heq, hparty]⟩

/-- After as many rounds as the rank tells, it is zero. -/
theorem rank_rounds (h : Helpful step party Inv rank helper) (hs : Inv s)
    {rounds : List (List α)}
    (hall : ∀ round ∈ rounds, ∀ i, ∃ a ∈ round, party a = i) :
    rank (rounds.flatten.foldl step s) ≤ rank s - rounds.length := by
  induction rounds generalizing s with
  | nil => exact le_rfl
  | cons round rounds ih =>
      have hround := hall round List.mem_cons_self
      have hrest := ih (h.foldl_inv hs round) fun r hr =>
        hall r (List.mem_cons_of_mem round hr)
      rw [List.flatten_cons, List.foldl_append, List.length_cons]
      by_cases hpos : 0 < rank s
      · have hlt := h.foldl_lt hs hpos (hround (helper s))
        omega
      · have hle := h.foldl_le hs round
        omega

end Helpful

end Web3Core
