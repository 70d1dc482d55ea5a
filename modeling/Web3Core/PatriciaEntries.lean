/-
The entries of a Patricia trie over an ordered alphabet, in the order of a
traversal that takes the value of a branch first and then its slots one after
the other.  This is the lexicographic order of the keys.
-/
import Mathlib.Data.List.FinRange
import Mathlib.Data.List.Lex
import Web3Core.Patricia

namespace Web3Core

section Words

variable {ι : Type} [LinearOrder ι] {v w : List ι}

theorem append_lt_append_left_iff (u : List ι) : u ++ v < u ++ w ↔ v < w := by
  induction u with
  | nil => exact Iff.rfl
  | cons i u ih => simp [ih]

/-- A word that is smaller than another one is smaller than what goes on from
it. -/
theorem lt_append_of_lt (h : v < w) (u : List ι) : v < w ++ u := by
  induction w generalizing v with
  | nil => exact absurd h (List.not_lt_nil v)
  | cons j w ih =>
      cases v with
      | nil => exact List.nil_lt_cons j (w ++ u)
      | cons i v =>
          rw [List.cons_lt_cons_iff] at h
          rw [List.cons_append, List.cons_lt_cons_iff]
          exact h.imp_right fun hrest => ⟨hrest.1, ih hrest.2⟩

/-- What goes on from a word that is smaller than another one, but no prefix of
it, is smaller as well. -/
theorem append_lt_of_not_prefix (h : w < v) (hnot : ¬ w <+: v)
    (u : List ι) : w ++ u < v := by
  induction w generalizing v with
  | nil => exact absurd List.nil_prefix hnot
  | cons j w ih =>
      cases v with
      | nil => exact absurd h (List.not_lt_nil _)
      | cons i v =>
          rw [List.cons_lt_cons_iff] at h
          rw [List.cons_append, List.cons_lt_cons_iff]
          rcases h with hlt | ⟨rfl, hlt⟩
          · exact .inl hlt
          · have hrest : ¬ w <+: v := fun hpre =>
              hnot (List.cons_prefix_cons.2 ⟨rfl, hpre⟩)
            exact .inr ⟨rfl, ih hlt hrest⟩

end Words

namespace Patricia

variable {n : Nat} {α : Type}

/-- The entries under a word that leads to them. -/
def prepend (key : List (Fin n)) (entries : List (List (Fin n) × α)) :
    List (List (Fin n) × α) :=
  entries.map fun e => (key ++ e.1, e.2)

/-- The keys of a trie with their values, in order. -/
def entries : Patricia (Fin n) α → List (List (Fin n) × α)
  | .empty => []
  | .leaf key value => [(key, value)]
  | .ext key child => prepend key (entries child)
  | .branch slots value =>
      value.toList.map (fun x => ([], x)) ++
        (List.finRange n).flatMap fun i => prepend [i] (entries (slots i))

theorem mem_prepend {key k : List (Fin n)} {x : α}
    {entries : List (List (Fin n) × α)} :
    (k, x) ∈ prepend key entries ↔ ∃ q, k = key ++ q ∧ (q, x) ∈ entries := by
  simp only [prepend, List.mem_map, Prod.mk.injEq, Prod.exists]
  constructor
  · rintro ⟨q, y, hmem, rfl, rfl⟩
    exact ⟨q, rfl, hmem⟩
  · rintro ⟨q, rfl, hmem⟩
    exact ⟨q, x, hmem, rfl, rfl⟩

theorem mem_entries (t : Patricia (Fin n) α) {k : List (Fin n)} {x : α} :
    (k, x) ∈ entries t ↔ lookup t k = some x := by
  induction t generalizing k with
  | empty => simp [entries]
  | leaf key value =>
      by_cases hk : k = key
      · simp [entries, hk, eq_comm]
      · simp [entries, hk]
  | ext key child ih =>
      simp only [entries, mem_prepend, ih]
      constructor
      · rintro ⟨q, rfl, hq⟩
        rw [lookup_ext_append, hq]
      · intro hk
        have hne : lookup (.ext key child) k ≠ none := by simp [hk]
        obtain ⟨q, rfl⟩ := prefix_of_lookup_ext hne
        rw [lookup_ext_append] at hk
        exact ⟨q, rfl, hk⟩
  | branch slots value ih =>
      simp only [entries, List.mem_append, List.mem_flatMap, mem_prepend, ih]
      cases k with
      | nil => simp [Option.mem_toList]
      | cons i k => simp

theorem ordered_prepend {key : List (Fin n)}
    {entries : List (List (Fin n) × α)}
    (h : entries.Pairwise fun a b => a.1 < b.1) :
    (prepend key entries).Pairwise fun a b => a.1 < b.1 := by
  rw [prepend, List.pairwise_map]
  exact h.imp fun hlt => (append_lt_append_left_iff key).2 hlt

/-- The entries come in the order of their keys. -/
theorem ordered_entries (t : Patricia (Fin n) α) :
    (entries t).Pairwise fun a b => a.1 < b.1 := by
  induction t with
  | empty => exact .nil
  | leaf key value => exact List.pairwise_singleton _ _
  | ext key child ih => exact ordered_prepend ih
  | branch slots value ih =>
      rw [entries, List.pairwise_append, List.pairwise_flatMap]
      refine ⟨?_, ⟨fun i _ => ordered_prepend (ih i), ?_⟩, ?_⟩
      · cases value <;> simp
      · refine (List.pairwise_lt_finRange n).imp ?_
        rintro i j hij ⟨k, x⟩ hk ⟨k', x'⟩ hk'
        obtain ⟨q, rfl, -⟩ := mem_prepend.1 hk
        obtain ⟨q', rfl, -⟩ := mem_prepend.1 hk'
        exact List.cons_lt_cons_iff.2 (.inl hij)
      · rintro ⟨k, x⟩ hk ⟨k', x'⟩ hk'
        obtain ⟨y, -, heq⟩ := List.mem_map.1 hk
        obtain ⟨i, -, hi⟩ := List.mem_flatMap.1 hk'
        obtain ⟨q, rfl, -⟩ := mem_prepend.1 hi
        cases heq
        exact List.nil_lt_cons i q

end Patricia

end Web3Core
