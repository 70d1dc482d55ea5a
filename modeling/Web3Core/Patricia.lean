/-
Patricia tries over an arbitrary alphabet.  A trie denotes the partial map
`lookup`; a canonical trie is determined by the map it denotes, so two
algorithms that keep the canonical shape and agree on the map build the same
trie.  Nothing here knows how a trie is stored.
-/
import Mathlib.Data.List.Basic
import Mathlib.Data.List.Infix
import Mathlib.Logic.Function.Basic

namespace Web3Core

/-- A trie whose edges carry words over `ι` and whose values are in `α`. -/
inductive Patricia (ι α : Type) where
  | empty
  | leaf (key : List ι) (value : α)
  | ext (key : List ι) (child : Patricia ι α)
  | branch (slots : ι → Patricia ι α) (value : Option α)

namespace Patricia

variable {ι α : Type} [DecidableEq ι]

/-- The value a trie holds for a key. -/
def lookup : Patricia ι α → List ι → Option α
  | .empty, _ => none
  | .leaf key value, k => if k = key then some value else none
  | .ext key child, k =>
      if key <+: k then lookup child (k.drop key.length) else none
  | .branch _ value, [] => value
  | .branch slots _, i :: k => lookup (slots i) k

def IsBranch : Patricia ι α → Prop
  | .branch _ _ => True
  | _ => False

/-- A slot of a branch that holds something; `none` is the slot of the value. -/
def Used (slots : ι → Patricia ι α) (value : Option α) : Option ι → Prop
  | none => value ≠ none
  | some i => slots i ≠ .empty

/-- No extension is empty or stands over a two-item node, and no branch has
fewer than two slots in use. -/
def Canonical : Patricia ι α → Prop
  | .empty => True
  | .leaf _ _ => True
  | .ext key child => key ≠ [] ∧ child.IsBranch ∧ child.Canonical
  | .branch slots value =>
      (∀ i, (slots i).Canonical) ∧
        ∃ a b, a ≠ b ∧ Used slots value a ∧ Used slots value b

@[simp] theorem lookup_empty (k : List ι) :
    lookup (.empty : Patricia ι α) k = none := rfl

@[simp] theorem lookup_leaf (key k : List ι) (value : α) :
    lookup (.leaf key value) k = if k = key then some value else none := rfl

@[simp] theorem lookup_ext (key k : List ι) (child : Patricia ι α) :
    lookup (.ext key child) k =
      if key <+: k then lookup child (k.drop key.length) else none := rfl

@[simp] theorem lookup_branch_nil (slots : ι → Patricia ι α)
    (value : Option α) : lookup (.branch slots value) [] = value := rfl

@[simp] theorem lookup_branch_cons (slots : ι → Patricia ι α)
    (value : Option α) (i : ι) (k : List ι) :
    lookup (.branch slots value) (i :: k) = lookup (slots i) k := rfl

theorem lookup_ext_append (key k : List ι) (child : Patricia ι α) :
    lookup (.ext key child) (key ++ k) = lookup child k := by
  simp

omit [DecidableEq ι] in
theorem IsBranch.exists_eq {t : Patricia ι α} (h : t.IsBranch) :
    ∃ slots value, t = .branch slots value := by
  cases t with
  | branch slots value => exact ⟨slots, value, rfl⟩
  | empty | leaf | ext => exact h.elim

/-- A canonical trie other than the empty one holds a value. -/
theorem Canonical.exists_lookup {t : Patricia ι α} (ht : t.Canonical)
    (hne : t ≠ .empty) : ∃ k value, t.lookup k = some value := by
  induction t with
  | empty => exact absurd rfl hne
  | leaf key value => exact ⟨key, value, by simp⟩
  | ext key child ih =>
      obtain ⟨-, hbranch, hchild⟩ := ht
      obtain ⟨slots, value, rfl⟩ := hbranch.exists_eq
      obtain ⟨k, x, hk⟩ := ih hchild (by simp)
      exact ⟨key ++ k, x, by rw [lookup_ext_append, hk]⟩
  | branch slots value ih =>
      obtain ⟨hslots, a, -, -, ha, -⟩ := ht
      cases a with
      | none =>
          obtain ⟨x, hx⟩ := Option.ne_none_iff_exists'.1 ha
          exact ⟨[], x, hx⟩
      | some i =>
          obtain ⟨k, x, hk⟩ := ih i (hslots i) ha
          exact ⟨i :: k, x, hk⟩

/-- Two keys of the trie part at their first letter, one of them possibly by
being empty. -/
def Splits (t : Patricia ι α) : Prop :=
  ∃ x y, t.lookup x ≠ none ∧ t.lookup y ≠ none ∧ x.head? ≠ y.head?

theorem Canonical.exists_head {slots : ι → Patricia ι α} {value : Option α}
    (hslots : ∀ i, (slots i).Canonical) {a : Option ι}
    (ha : Used slots value a) :
    ∃ x, lookup (.branch slots value) x ≠ none ∧ x.head? = a := by
  cases a with
  | none => exact ⟨[], ha, rfl⟩
  | some i =>
      obtain ⟨k, v, hk⟩ := (hslots i).exists_lookup ha
      exact ⟨i :: k, by simp [hk], rfl⟩

theorem Canonical.splits_branch {slots : ι → Patricia ι α} {value : Option α}
    (ht : (branch slots value).Canonical) : Splits (.branch slots value) := by
  obtain ⟨hslots, a, b, hab, ha, hb⟩ := ht
  obtain ⟨x, hx, rfl⟩ := exists_head hslots ha
  obtain ⟨y, hy, rfl⟩ := exists_head hslots hb
  exact ⟨x, y, hx, hy, hab⟩

theorem Canonical.splits {t : Patricia ι α} (ht : t.Canonical)
    (hbranch : t.IsBranch) : t.Splits := by
  obtain ⟨slots, value, rfl⟩ := hbranch.exists_eq
  exact ht.splits_branch

theorem not_splits_leaf (key : List ι) (value : α) :
    ¬ Splits (.leaf key value) := by
  rintro ⟨x, y, hx, hy, hne⟩
  have hx' : x = key := by by_contra h; simp [h] at hx
  have hy' : y = key := by by_contra h; simp [h] at hy
  exact hne (by rw [hx', hy'])

theorem prefix_of_lookup_ext {key k : List ι} {child : Patricia ι α}
    (h : lookup (.ext key child) k ≠ none) : key <+: k := by
  by_contra hk
  simp [hk] at h

theorem not_splits_ext {key : List ι} (hkey : key ≠ [])
    (child : Patricia ι α) : ¬ Splits (.ext key child) := by
  rintro ⟨x, y, hx, hy, hne⟩
  obtain ⟨x', rfl⟩ := prefix_of_lookup_ext hx
  obtain ⟨y', rfl⟩ := prefix_of_lookup_ext hy
  cases key with
  | nil => exact hkey rfl
  | cons i key => exact hne rfl

/-- A canonical trie with keys that part at their first letter is a branch. -/
theorem Canonical.isBranch_of_splits {t : Patricia ι α} (ht : t.Canonical)
    (h : t.Splits) : t.IsBranch := by
  cases t with
  | empty =>
      obtain ⟨x, -, hx, -⟩ := h
      exact absurd rfl hx
  | leaf key value => exact absurd h (not_splits_leaf key value)
  | ext key child => exact absurd h (not_splits_ext ht.1 child)
  | branch slots value => trivial

/-- The key of an extension is a prefix of every word that all keys of the
trie start with, so it is their longest common prefix. -/
theorem Splits.prefix_of_forall {child : Patricia ι α} (hsplit : child.Splits)
    {key l : List ι}
    (hl : ∀ k, lookup (.ext key child) k ≠ none → l <+: k) : l <+: key := by
  obtain ⟨x, y, hx, hy, hne⟩ := hsplit
  have hlx : l <+: key ++ x := hl _ (by rwa [lookup_ext_append])
  have hly : l <+: key ++ y := hl _ (by rwa [lookup_ext_append])
  rcases List.prefix_or_prefix_of_prefix hlx (List.prefix_append key x) with
    h | ⟨r, rfl⟩
  · exact h
  · rw [List.prefix_append_right_inj] at hlx hly
    cases r with
    | nil => simp
    | cons i r =>
        obtain ⟨x', rfl⟩ := hlx
        obtain ⟨y', rfl⟩ := hly
        exact absurd rfl hne

/-- A leaf has one key, an extension of keys that part has more. -/
theorem Splits.lookup_ext_ne_leaf {child : Patricia ι α} (hsplit : child.Splits)
    (key key' : List ι) (value : α) :
    ¬ ∀ k, lookup (.ext key child) k = lookup (.leaf key' value) k := by
  intro h
  obtain ⟨x, y, hx, hy, hne⟩ := hsplit
  have hkey : ∀ w, child.lookup w ≠ none → key ++ w = key' := by
    intro w hw
    by_contra hc
    have hleaf := h (key ++ w)
    rw [lookup_ext_append, lookup_leaf, if_neg hc] at hleaf
    exact hw hleaf
  have hword : key ++ x = key ++ y := (hkey x hx).trans (hkey y hy).symm
  exact hne (congrArg List.head? (List.append_cancel_left hword))

/-- A canonical trie is determined by the map it denotes. -/
theorem Canonical.ext_lookup {t u : Patricia ι α} (ht : t.Canonical)
    (hu : u.Canonical) (h : ∀ k, t.lookup k = u.lookup k) : t = u := by
  have splits_iff : t.Splits ↔ u.Splits := by simp only [Splits, h]
  induction t generalizing u with
  | empty =>
      by_contra hne
      obtain ⟨k, x, hk⟩ := hu.exists_lookup (Ne.symm hne)
      simp [← h, lookup] at hk
  | leaf key value =>
      cases u with
      | empty => simpa using h key
      | leaf key' value' =>
          have hkey := h key
          simp only [lookup_leaf, ↓reduceIte] at hkey
          by_cases heq : key = key'
          · subst heq
            simpa using hkey
          · simp [heq] at hkey
      | ext key' child =>
          obtain ⟨-, hbranch, hchild⟩ := hu
          exact absurd (fun k => (h k).symm)
            ((hchild.splits hbranch).lookup_ext_ne_leaf key' key value)
      | branch slots value' =>
          exact absurd (splits_iff.2 hu.splits_branch)
            (not_splits_leaf key value)
  | ext key child ih =>
      obtain ⟨hkey, hbranch, hchild⟩ := ht
      cases u with
      | empty =>
          obtain ⟨x, -, hx, -⟩ := hchild.splits hbranch
          have hx' := h (key ++ x)
          rw [lookup_ext_append] at hx'
          exact absurd hx' hx
      | leaf key' value' =>
          exact absurd h
            ((hchild.splits hbranch).lookup_ext_ne_leaf key key' value')
      | ext key' child' =>
          obtain ⟨hkey', hbranch', hchild'⟩ := hu
          have hle : key' <+: key := (hchild.splits hbranch).prefix_of_forall
            fun k hk => prefix_of_lookup_ext (h k ▸ hk)
          have hge : key <+: key' := (hchild'.splits hbranch').prefix_of_forall
            fun k hk => prefix_of_lookup_ext ((h k).symm ▸ hk)
          obtain rfl : key = key' := hge.eq_of_length_le hle.length_le
          have hchildren : ∀ k, child.lookup k = child'.lookup k := by
            intro k
            have := h (key ++ k)
            rwa [lookup_ext_append, lookup_ext_append] at this
          rw [ih hchild hchild' hchildren (by simp only [Splits, hchildren])]
      | branch slots value' =>
          exact absurd (splits_iff.2 hu.splits_branch)
            (not_splits_ext hkey child)
  | branch slots value ih =>
      cases u with
      | empty =>
          obtain ⟨x, -, hx, -⟩ := ht.splits_branch
          exact absurd (h x) hx
      | leaf key' value' =>
          exact absurd (splits_iff.1 ht.splits_branch)
            (not_splits_leaf key' value')
      | ext key' child' =>
          exact absurd (splits_iff.1 ht.splits_branch)
            (not_splits_ext hu.1 child')
      | branch slots' value' =>
          obtain rfl : value = value' := h []
          have hslots : slots = slots' := by
            funext i
            have hi : ∀ k, (slots i).lookup k = (slots' i).lookup k :=
              fun k => h (i :: k)
            exact ih i (ht.1 i) (hu.1 i) hi (by simp only [Splits, hi])
          rw [hslots]

end Patricia

end Web3Core
