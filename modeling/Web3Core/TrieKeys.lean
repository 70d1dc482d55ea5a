/-
What the conditions on a key mean for the map that a canonical trie denotes.
-/
import Web3Core.TrieInsert
import Web3Core.TrieRemove

namespace Web3Core

namespace Trie

variable {t : Trie} {ns : List Nibble}

/-- The trie holds the key. -/
def Has (t : Trie) (ns : List Nibble) : Prop := Patricia.lookup t ns ≠ none

theorem has_ext_append {key : List Nibble} {child : Trie} :
    Has (.ext key child) (key ++ ns) ↔ Has child ns := by
  rw [Has, Patricia.lookup_ext_append, Has]

theorem Has.prefix_of_ext {key : List Nibble} {child : Trie}
    (h : Has (.ext key child) ns) : key <+: ns :=
  Patricia.prefix_of_lookup_ext h

theorem has_leaf {key : List Nibble} {value : Bytes} :
    Has (.leaf key value) ns ↔ ns = key := by
  by_cases h : ns = key <;> simp [Has, h]

theorem exists_has (ht : t.Canonical) (hne : t ≠ .empty) : ∃ k, Has t k := by
  obtain ⟨k, x, hk⟩ := ht.exists_lookup hne
  exact ⟨k, by rw [Has, hk]; simp⟩

/-- A key that no other key of the trie goes on from does not end inside the
key of a node. -/
theorem noStop_of_forall (ht : t.Canonical)
    (h : ∀ q, Has t q → ns <+: q → q = ns) : NoStop t ns := by
  induction t generalizing ns with
  | empty => trivial
  | leaf key value => exact fun hns => (h key (has_leaf.2 rfl) hns).symm
  | ext key child ih =>
      obtain ⟨-, hbranch, hchild⟩ := ht
      rw [NoStop]
      split
      · rename_i hkey
        obtain ⟨r, rfl⟩ := hkey
        rw [List.drop_left]
        refine ih hchild fun q hq hrq => ?_
        exact List.append_cancel_left (h (key ++ q) (has_ext_append.2 hq)
          ((List.prefix_append_right_inj key).2 hrq))
      · rename_i hkey
        intro hns
        have hne : child ≠ .empty := by
          rintro rfl
          exact hbranch
        obtain ⟨k, hk⟩ := exists_has hchild hne
        have heq := h (key ++ k) (has_ext_append.2 hk)
          (hns.trans (List.prefix_append key k))
        exact hkey (heq ▸ List.prefix_append key k)
  | branch slots value ih =>
      cases ns with
      | nil => trivial
      | cons i ns =>
          refine ih i (ht.1 i) fun q hq hnq => ?_
          have heq := h (i :: q) hq (List.cons_prefix_cons.2 ⟨rfl, hnq⟩)
          exact (List.cons.inj heq).2

/-- A stored key is reached. -/
theorem reaches_of_has (h : Has t ns) : Reaches t ns := by
  induction t generalizing ns with
  | empty => trivial
  | leaf key value => exact fun _ => has_leaf.1 h
  | ext key child ih =>
      obtain ⟨r, rfl⟩ := h.prefix_of_ext
      intro _
      rw [List.drop_left]
      exact ih (has_ext_append.1 h)
  | branch slots value ih =>
      cases ns with
      | nil => exact h
      | cons i ns => exact ih i h

/-- Two stored keys go on from the key with different nibbles, one of them
possibly by ending. -/
def Forks (t : Trie) (ns : List Nibble) : Prop :=
  ∃ x y, Has t (ns ++ x) ∧ Has t (ns ++ y) ∧ x.head? ≠ y.head?

/-- Some stored key is a prefix of the key, and no other stored key goes on
from it. -/
def Overruns (t : Trie) (ns : List Nibble) : Prop :=
  ∃ p, Has t p ∧ p <+: ns ∧ ∀ q, Has t q → p <+: q → q = p

theorem forks_ext_append {key : List Nibble} {child : Trie} :
    Forks (.ext key child) (key ++ ns) ↔ Forks child ns := by
  simp only [Forks, List.append_assoc, has_ext_append]

theorem overruns_ext_append {key : List Nibble} {child : Trie} :
    Overruns (.ext key child) (key ++ ns) ↔ Overruns child ns := by
  constructor
  · rintro ⟨p, hp, hpre, honly⟩
    obtain ⟨p, rfl⟩ := hp.prefix_of_ext
    refine ⟨p, has_ext_append.1 hp, (List.prefix_append_right_inj key).1 hpre,
      fun q hq hpq => ?_⟩
    exact List.append_cancel_left (honly (key ++ q) (has_ext_append.2 hq)
      ((List.prefix_append_right_inj key).2 hpq))
  · rintro ⟨p, hp, hpre, honly⟩
    refine ⟨key ++ p, has_ext_append.2 hp,
      (List.prefix_append_right_inj key).2 hpre, fun q hq hpq => ?_⟩
    obtain ⟨q, rfl⟩ := hq.prefix_of_ext
    rw [honly q (has_ext_append.1 hq)
      ((List.prefix_append_right_inj key).1 hpq)]

theorem forks_branch_cons {slots : Nibble → Trie} {value : Option Bytes}
    {i : Nibble} :
    Forks (.branch slots value) (i :: ns) ↔ Forks (slots i) ns := Iff.rfl

/-- The value of a canonical branch is not the only thing below it. -/
theorem exists_has_cons {slots : Nibble → Trie} {value : Option Bytes}
    (ht : (Patricia.branch slots value).Canonical) :
    ∃ i q, Has (.branch slots value) (i :: q) := by
  obtain ⟨i, hi⟩ := ht.exists_slot
  obtain ⟨q, hq⟩ := exists_has (ht.1 i) hi
  exact ⟨i, q, hq⟩

theorem overruns_branch_cons {slots : Nibble → Trie} {value : Option Bytes}
    (ht : (Patricia.branch slots value).Canonical) {i : Nibble} :
    Overruns (.branch slots value) (i :: ns) ↔ Overruns (slots i) ns := by
  constructor
  · rintro ⟨p, hp, hpre, honly⟩
    cases p with
    | nil =>
        obtain ⟨j, q, hq⟩ := exists_has_cons ht
        cases honly _ hq List.nil_prefix
    | cons j p =>
        obtain ⟨rfl, hpre'⟩ := List.cons_prefix_cons.1 hpre
        refine ⟨p, hp, hpre', fun q hq hpq => ?_⟩
        exact (List.cons.inj (honly (j :: q) hq
          (List.cons_prefix_cons.2 ⟨rfl, hpq⟩))).2
  · rintro ⟨p, hp, hpre, honly⟩
    refine ⟨i :: p, hp, List.cons_prefix_cons.2 ⟨rfl, hpre⟩,
      fun q hq hpq => ?_⟩
    cases q with
    | nil => cases List.prefix_nil.1 hpq
    | cons j q =>
        obtain ⟨rfl, hpq'⟩ := List.cons_prefix_cons.1 hpq
        rw [honly q hq hpq']

/-- Keys that go on from a word inside the key of an extension go on alike. -/
theorem not_forks_of_leaves_ext {key : List Nibble} {child : Trie}
    (hkey : ¬ key <+: ns) : ¬ Forks (.ext key child) ns := by
  rintro ⟨x, y, hx, hy, hne⟩
  have hx' := hx.prefix_of_ext
  have hy' := hy.prefix_of_ext
  obtain ⟨l, rfl⟩ := (List.prefix_or_prefix_of_prefix hx'
    (List.prefix_append ns x)).resolve_left hkey
  obtain ⟨a, rfl⟩ := (List.prefix_append_right_inj ns).1 hx'
  obtain ⟨b, rfl⟩ := (List.prefix_append_right_inj ns).1 hy'
  cases l with
  | nil => exact hkey (by simp)
  | cons i l => exact hne rfl

/-- For a key that is not stored, what the code needs to miss it cleanly. -/
theorem reaches_iff (ht : t.Canonical) (hnone : ¬ Has t ns) :
    Reaches t ns ↔ ¬ Forks t ns ∧ ¬ Overruns t ns := by
  induction t generalizing ns with
  | empty =>
      refine ⟨fun _ => ⟨?_, ?_⟩, fun _ => trivial⟩
      · rintro ⟨x, -, hx, -⟩
        exact hx rfl
      · rintro ⟨p, hp, -⟩
        exact hp rfl
  | leaf key value =>
      rw [has_leaf] at hnone
      constructor
      · intro hreaches
        refine ⟨?_, ?_⟩
        · rintro ⟨x, y, hx, hy, hne⟩
          have heq := (has_leaf.1 hx).trans (has_leaf.1 hy).symm
          exact hne (by rw [List.append_cancel_left heq])
        · rintro ⟨p, hp, hpre, -⟩
          rw [has_leaf.1 hp] at hpre
          exact hnone (hreaches hpre)
      · rintro ⟨-, hover⟩ hpre
        exact absurd ⟨key, has_leaf.2 rfl, hpre,
          fun q hq _ => has_leaf.1 hq⟩ hover
  | ext key child ih =>
      by_cases hkey : key <+: ns
      · obtain ⟨r, rfl⟩ := hkey
        rw [forks_ext_append, overruns_ext_append,
          ← ih ht.2.2 (fun h => hnone (has_ext_append.2 h))]
        simp [Reaches]
      · refine ⟨fun _ => ⟨not_forks_of_leaves_ext hkey, ?_⟩,
          fun _ h => absurd h hkey⟩
        rintro ⟨p, hp, hpre, -⟩
        exact hkey (hp.prefix_of_ext.trans hpre)
  | branch slots value ih =>
      cases ns with
      | nil =>
          refine ⟨fun h => absurd h hnone, fun h => ?_⟩
          obtain ⟨x, y, hx, hy, hne⟩ := ht.splits_branch
          exact absurd ⟨x, y, hx, hy, hne⟩ h.1
      | cons i ns =>
          rw [forks_branch_cons, overruns_branch_cons ht]
          exact ih i (ht.1 i) hnone

/-- The stored key is the only one, besides the shorter key of the value `x`,
that goes on from this shorter key. -/
def Bereaves (t : Trie) (ns : List Nibble) (x : Bytes) : Prop :=
  ∃ p, Patricia.lookup t p = some x ∧ p <+: ns ∧ p ≠ ns ∧
    ∀ q, Has t q → p <+: q → q = p ∨ q = ns

/-- A branch whose value is the only one beside the key `i :: ns`. -/
theorem alone_iff {slots : Nibble → Trie} {value : Option Bytes} {i : Nibble}
    (ht : ∀ j, (slots j).Canonical) (hns : Has (slots i) ns) :
    Alone slots i ns ↔
      ∀ q, Has (.branch slots value) q → q = [] ∨ q = i :: ns := by
  constructor
  · rintro ⟨⟨y, hy⟩, hothers⟩ q hq
    cases q with
    | nil => exact .inl rfl
    | cons j q =>
        by_cases hji : j = i
        · subst hji
          have hq' : Has (slots j) q := hq
          rw [hy, has_leaf] at hq'
          exact .inr (by rw [hq'])
        · have hq' : Has (slots j) q := hq
          rw [hothers j hji] at hq'
          exact absurd rfl hq'
  · intro honly
    have hslot : ∀ j q, Has (slots j) q → j = i ∧ q = ns := by
      intro j q hq
      rcases honly (j :: q) hq with h | h
      · cases h
      · exact List.cons.inj h
    obtain ⟨y, hy⟩ := Option.ne_none_iff_exists'.1 hns
    refine ⟨⟨y, (ht i).ext_lookup trivial fun k => ?_⟩, fun j hji => ?_⟩
    · rw [Patricia.lookup_leaf]
      by_cases hk : k = ns
      · rw [hk, if_pos rfl, hy]
      · rw [if_neg hk]
        by_contra hne
        exact hk (hslot i k hne).2
    · by_contra hne
      obtain ⟨q, hq⟩ := exists_has (ht j) hne
      exact hji (hslot j q hq).1

theorem bereaves_branch_cons {slots : Nibble → Trie} {value : Option Bytes}
    {i : Nibble} {x : Bytes} :
    Bereaves (.branch slots value) (i :: ns) x ↔ Bereaves (slots i) ns x ∨
      (value = some x ∧
        ∀ q, Has (.branch slots value) q → q = [] ∨ q = i :: ns) := by
  constructor
  · rintro ⟨p, hp, hpre, hne, honly⟩
    cases p with
    | nil => exact .inr ⟨hp, fun q hq => honly q hq List.nil_prefix⟩
    | cons j p =>
        obtain ⟨rfl, hpre'⟩ := List.cons_prefix_cons.1 hpre
        refine .inl ⟨p, hp, hpre', by simpa using hne, fun q hq hpq => ?_⟩
        simpa using honly (j :: q) hq (List.cons_prefix_cons.2 ⟨rfl, hpq⟩)
  · rintro (⟨p, hp, hpre, hne, honly⟩ | ⟨hvalue, honly⟩)
    · refine ⟨i :: p, hp, List.cons_prefix_cons.2 ⟨rfl, hpre⟩,
        by simpa using hne, fun q hq hpq => ?_⟩
      cases q with
      | nil => cases List.prefix_nil.1 hpq
      | cons j q =>
          obtain ⟨rfl, hpq'⟩ := List.cons_prefix_cons.1 hpq
          simpa using honly q hq hpq'
    · exact ⟨[], hvalue, List.nil_prefix, by simp,
        fun q hq _ => honly q hq⟩

theorem has_of_strands {x : Bytes} (h : Strands t ns x) : Has t ns := by
  induction t generalizing ns with
  | empty | leaf => exact h.elim
  | ext key child ih =>
      obtain ⟨hpre, hchild⟩ := h
      obtain ⟨r, rfl⟩ := hpre
      rw [List.drop_left] at hchild
      exact has_ext_append.2 (ih hchild)
  | branch slots value ih =>
      cases ns with
      | nil => exact h.elim
      | cons i ns =>
          rcases h with h | ⟨-, ⟨y, hy⟩, -⟩
          · exact ih i h
          · show Patricia.lookup (slots i) ns ≠ none
            rw [hy]
            simp

theorem strands_iff (ht : t.Canonical) (hns : Has t ns) (x : Bytes) :
    Strands t ns x ↔ Bereaves t ns x := by
  induction t generalizing ns with
  | empty => exact absurd rfl hns
  | leaf key value =>
      refine ⟨fun h => h.elim, ?_⟩
      rintro ⟨p, hp, -, hne, -⟩
      have hp' : Has (.leaf key value) p := by rw [Has, hp]; simp
      exact hne ((has_leaf.1 hp').trans (has_leaf.1 hns).symm)
  | ext key child ih =>
      obtain ⟨r, rfl⟩ := hns.prefix_of_ext
      rw [strands_ext_append, ih ht.2.2 (has_ext_append.1 hns)]
      constructor
      · rintro ⟨p, hp, hpre, hne, honly⟩
        refine ⟨key ++ p, by rw [Patricia.lookup_ext_append, hp],
          (List.prefix_append_right_inj key).2 hpre, by simpa using hne,
          fun q hq hpq => ?_⟩
        obtain ⟨q, rfl⟩ := hq.prefix_of_ext
        simpa using honly q (has_ext_append.1 hq)
          ((List.prefix_append_right_inj key).1 hpq)
      · rintro ⟨p, hp, hpre, hne, honly⟩
        have hp' : Has (.ext key child) p := by rw [Has, hp]; simp
        obtain ⟨p, rfl⟩ := hp'.prefix_of_ext
        rw [Patricia.lookup_ext_append] at hp
        refine ⟨p, hp, (List.prefix_append_right_inj key).1 hpre,
          by simpa using hne, fun q hq hpq => ?_⟩
        simpa using honly (key ++ q) (has_ext_append.2 hq)
          ((List.prefix_append_right_inj key).2 hpq)
  | branch slots value ih =>
      cases ns with
      | nil =>
          refine ⟨fun h => h.elim, ?_⟩
          rintro ⟨p, -, hpre, hne, -⟩
          exact hne (List.prefix_nil.1 hpre)
      | cons i ns =>
          rw [bereaves_branch_cons, ← ih i (ht.1 i) hns,
            ← alone_iff ht.1 hns]
          rfl

end Trie

end Web3Core
