/-
Insertion into a Patricia trie.  A two-item node that disagrees with the new
key is cut at the disagreement and turned into a branch; everything else
follows the key down.
-/
import Web3Core.Patricia

namespace Web3Core

/-- The number of letters two words share at their beginning. -/
def sharedLength {ι : Type} [DecidableEq ι] : List ι → List ι → Nat
  | i :: k, j :: l => if i = j then sharedLength k l + 1 else 0
  | _, _ => 0

section SharedLength

variable {ι : Type} [DecidableEq ι]

@[simp] theorem sharedLength_nil_left (l : List ι) : sharedLength [] l = 0 := by
  cases l <;> rfl

@[simp] theorem sharedLength_nil_right (k : List ι) :
    sharedLength k [] = 0 := by
  cases k <;> rfl

@[simp] theorem sharedLength_cons_self (i : ι) (k l : List ι) :
    sharedLength (i :: k) (i :: l) = sharedLength k l + 1 := by
  simp [sharedLength]

/-- Two words split into what they share and two rests with nothing shared. -/
theorem exists_shared (k l : List ι) :
    ∃ p k' l', k = p ++ k' ∧ l = p ++ l' ∧ sharedLength k l = p.length ∧
      sharedLength k' l' = 0 := by
  induction k generalizing l with
  | nil => exact ⟨[], [], l, rfl, rfl, by simp, by simp⟩
  | cons i k ih =>
      cases l with
      | nil => exact ⟨[], i :: k, [], rfl, rfl, rfl, rfl⟩
      | cons j l =>
          by_cases hij : i = j
          · subst hij
            obtain ⟨p, k', l', rfl, rfl, hp, hzero⟩ := ih l
            exact ⟨i :: p, k', l', rfl, rfl, by simp [hp], hzero⟩
          · have hzero : sharedLength (i :: k) (j :: l) = 0 := by
              simp [sharedLength, hij]
            exact ⟨[], i :: k, j :: l, rfl, rfl, hzero, hzero⟩

theorem ne_of_sharedLength_cons {i j : ι} {k l : List ι}
    (h : sharedLength (i :: k) (j :: l) = 0) : i ≠ j := by
  rintro rfl
  simp at h

theorem sharedLength_append (p k l : List ι) :
    sharedLength (p ++ k) (p ++ l) = p.length + sharedLength k l := by
  induction p with
  | nil => simp
  | cons i p ih => simp [ih]; omega

theorem sharedLength_le_left (k l : List ι) : sharedLength k l ≤ k.length := by
  obtain ⟨p, k', l', rfl, rfl, hp, -⟩ := exists_shared k l
  simp [hp]

theorem sharedLength_le_right (k l : List ι) :
    sharedLength k l ≤ l.length := by
  obtain ⟨p, k', l', rfl, rfl, hp, -⟩ := exists_shared k l
  simp [hp]

/-- A word is a prefix of another exactly if they share all of it. -/
theorem sharedLength_eq_length_iff (k l : List ι) :
    sharedLength k l = l.length ↔ l <+: k := by
  constructor
  · intro h
    obtain ⟨p, k', l', rfl, rfl, hp, -⟩ := exists_shared k l
    rw [hp, List.length_append] at h
    obtain rfl : l' = [] := List.eq_nil_of_length_eq_zero (by omega)
    simp
  · rintro ⟨r, rfl⟩
    simpa using sharedLength_append l r []

end SharedLength

namespace Patricia

variable {ι α : Type} [DecidableEq ι]

/-- Put a word in front of a trie that is no two-item node. -/
def extend (key : List ι) (t : Patricia ι α) : Patricia ι α :=
  if key = [] then t else .ext key t

/-- The slots of a branch with one child. -/
def only (i : ι) (t : Patricia ι α) : ι → Patricia ι α :=
  Function.update (fun _ => .empty) i t

/-- A branch that holds what a leaf held for the rest of its key. -/
def forkLeaf (value : α) : List ι → Patricia ι α
  | [] => .branch (fun _ => .empty) (some value)
  | i :: key => .branch (only i (.leaf key value)) none

/-- A branch that holds what an extension held under the rest of its key. -/
def forkExt (child : Patricia ι α) : List ι → Patricia ι α
  | [] => child
  | i :: key => .branch (only i (extend key child)) none

/-- Store a value for the key `k` in a branch whose slot on the way is free. -/
def put (t : Patricia ι α) (k : List ι) (value : α) : Patricia ι α :=
  match t, k with
  | .branch slots _, [] => .branch slots (some value)
  | .branch slots v, i :: k =>
      .branch (Function.update slots i (.leaf k value)) v
  | t, _ => t

def insert : Patricia ι α → List ι → α → Patricia ι α
  | .empty, k, value => .leaf k value
  | .leaf key v, k, value =>
      if k = key then .leaf key value
      else
        let n := sharedLength k key
        extend (key.take n) (put (forkLeaf v (key.drop n)) (k.drop n) value)
  | .ext key child, k, value =>
      if key <+: k then .ext key (insert child (k.drop key.length) value)
      else
        let n := sharedLength k key
        extend (key.take n) (put (forkExt child (key.drop n)) (k.drop n) value)
  | .branch slots _, [], value => .branch slots (some value)
  | .branch slots v, i :: k, value =>
      .branch (Function.update slots i (insert (slots i) k value)) v

@[simp] theorem lookup_extend (key : List ι) (t : Patricia ι α) (k : List ι) :
    lookup (extend key t) k =
      if key <+: k then lookup t (k.drop key.length) else none := by
  by_cases hkey : key = []
  · subst hkey
    simp [extend]
  · simp [extend, hkey]

theorem lookup_only (i j : ι) (t : Patricia ι α) (k : List ι) :
    lookup (only i t j) k = if j = i then lookup t k else none := by
  by_cases hji : j = i
  · subst hji
    simp [only]
  · simp [only, hji]

theorem lookup_forkLeaf (value : α) (key k : List ι) :
    lookup (forkLeaf value key) k = lookup (.leaf key value) k := by
  cases key with
  | nil => cases k <;> simp [forkLeaf]
  | cons i key =>
      cases k with
      | nil => simp [forkLeaf]
      | cons j k =>
          by_cases hji : j = i
          · subst hji
            simp [forkLeaf, lookup_only]
          · simp [forkLeaf, lookup_only, hji]

theorem lookup_forkExt (child : Patricia ι α) (key k : List ι) :
    lookup (forkExt child key) k = lookup (.ext key child) k := by
  cases key with
  | nil => simp [forkExt]
  | cons i key =>
      cases k with
      | nil => simp [forkExt]
      | cons j k =>
          by_cases hji : j = i
          · subst hji
            simp [forkExt, lookup_only]
          · have hij : i ≠ j := Ne.symm hji
            simp [forkExt, lookup_only, hji, hij]

/-- Storing through a free slot changes the map at one key. -/
theorem lookup_put {slots : ι → Patricia ι α} {v : Option α} {k : List ι}
    (hfree : ∀ i, k.head? = some i → slots i = .empty) (value : α)
    (k' : List ι) :
    lookup (put (.branch slots v) k value) k' =
      if k' = k then some value else lookup (.branch slots v) k' := by
  cases k with
  | nil => cases k' <;> simp [put]
  | cons i k =>
      cases k' with
      | nil => simp [put]
      | cons j k' =>
          by_cases hji : j = i
          · subst hji
            simp [put, hfree j rfl]
          · simp [put, hji]

/-- The slot of `forkLeaf` and `forkExt` for a word that shares nothing with
the key is free. -/
theorem only_free {i : ι} {key k : List ι}
    (hzero : sharedLength k (i :: key) = 0) (t : Patricia ι α) :
    ∀ j, k.head? = some j → only i t j = .empty := by
  intro j hj
  cases k with
  | nil => cases hj
  | cons j' k =>
      cases hj
      simp [only, ne_of_sharedLength_cons hzero]

theorem lookup_put_forkLeaf {key k : List ι} (hzero : sharedLength k key = 0)
    (v value : α) (k' : List ι) :
    lookup (put (forkLeaf v key) k value) k' =
      if k' = k then some value else lookup (.leaf key v) k' := by
  rw [← lookup_forkLeaf]
  cases key with
  | nil => exact lookup_put (fun _ _ => rfl) value k'
  | cons i key => exact lookup_put (only_free hzero _) value k'

theorem lookup_put_forkExt {i : ι} {key k : List ι}
    (hzero : sharedLength k (i :: key) = 0) (child : Patricia ι α) (value : α)
    (k' : List ι) :
    lookup (put (forkExt child (i :: key)) k value) k' =
      if k' = k then some value else lookup (.ext (i :: key) child) k' := by
  rw [← lookup_forkExt]
  exact lookup_put (only_free hzero _) value k'

/-- Cutting a two-item node in front of a rest changes no lookup. -/
theorem lookup_ext_append_prefix (p key k : List ι) (t : Patricia ι α) :
    lookup (.ext (p ++ key) t) k =
      if p <+: k then lookup (.ext key t) (k.drop p.length) else none := by
  by_cases hp : p <+: k
  · obtain ⟨r, rfl⟩ := hp
    simp [← List.drop_drop]
  · have : ¬ p ++ key <+: k := fun h => hp ((List.prefix_append p key).trans h)
    simp [hp, this]

theorem lookup_leaf_append_prefix (p key k : List ι) (v : α) :
    lookup (.leaf (p ++ key) v) k =
      if p <+: k then lookup (.leaf key v) (k.drop p.length) else none := by
  by_cases hp : p <+: k
  · obtain ⟨r, rfl⟩ := hp
    simp
  · have : k ≠ p ++ key := by rintro rfl; exact hp (List.prefix_append p key)
    simp [hp, this]

omit [DecidableEq ι] in
theorem not_prefix_cases {p k' l' : List ι} (h : ¬ p ++ l' <+: p ++ k') :
    ∃ i l, l' = i :: l := by
  cases l' with
  | nil => simp at h
  | cons i l => exact ⟨i, l, rfl⟩

omit [DecidableEq ι] in
theorem ne_append_of_not_prefix {p k' r : List ι} (h : ¬ p <+: k') :
    k' ≠ p ++ r := by
  rintro rfl
  exact h (List.prefix_append p r)

/-- Insertion into a canonical trie sets the map at one key. -/
theorem lookup_insert {t : Patricia ι α} (ht : t.Canonical) (k : List ι)
    (value : α) (k' : List ι) :
    lookup (insert t k value) k' =
      if k' = k then some value else lookup t k' := by
  induction t generalizing k k' with
  | empty => simp [insert]
  | leaf key v =>
      by_cases hk : k = key
      · subst hk
        by_cases hk' : k' = k <;> simp [insert, hk']
      · obtain ⟨p, r, l, rfl, rfl, hp, hzero⟩ := exists_shared k key
        simp only [insert, hk, ↓reduceIte, hp, List.take_left, List.drop_left,
          lookup_extend, lookup_put_forkLeaf hzero, lookup_leaf_append_prefix]
        by_cases hpk : p <+: k'
        · obtain ⟨r', rfl⟩ := hpk
          simp
        · simp [hpk, ne_append_of_not_prefix hpk]
  | ext key child ih =>
      obtain ⟨hkey, hbranch, hchild⟩ := ht
      by_cases hk : key <+: k
      · obtain ⟨r, rfl⟩ := hk
        by_cases hk' : key <+: k'
        · obtain ⟨r', rfl⟩ := hk'
          simp [insert, ih hchild]
        · simp [insert, hk', ne_append_of_not_prefix hk']
      · obtain ⟨p, r, l, rfl, rfl, hp, hzero⟩ := exists_shared k key
        obtain ⟨i, l, rfl⟩ := not_prefix_cases hk
        simp only [insert, hk, ↓reduceIte, hp, List.take_left, List.drop_left,
          lookup_extend, lookup_put_forkExt hzero, lookup_ext_append_prefix]
        by_cases hpk : p <+: k'
        · obtain ⟨r', rfl⟩ := hpk
          simp
        · simp [hpk, ne_append_of_not_prefix hpk]
  | branch slots v ih =>
      cases k with
      | nil => cases k' <;> simp [insert]
      | cons i k =>
          cases k' with
          | nil => simp [insert]
          | cons j k' =>
              by_cases hji : j = i
              · subst hji
                simp [insert, ih j (ht.1 j)]
              · simp [insert, hji]

theorem insert_ne_empty (t : Patricia ι α) (k : List ι) (value : α) :
    insert t k value ≠ .empty := by
  cases t with
  | empty => simp [insert]
  | leaf key v =>
      by_cases hk : k = key
      · simp [insert, hk]
      · simp only [insert, hk, ↓reduceIte, extend]
        split
        · cases key.drop (sharedLength k key) <;>
            cases k.drop (sharedLength k key) <;> simp [forkLeaf, put]
        · simp
  | ext key child =>
      simp only [insert, extend]
      split
      · simp
      · rename_i hk
        split
        · obtain ⟨p, r, l, rfl, rfl, hp, -⟩ := exists_shared k key
          obtain ⟨i, l, rfl⟩ := not_prefix_cases hk
          simp only [hp, List.drop_left]
          cases r <;> simp [forkExt, put]
        · simp
  | branch slots v => cases k <;> simp [insert]

omit [DecidableEq ι] in
theorem Used.mono {slots slots' : ι → Patricia ι α} {v v' : Option α}
    (hslots : ∀ i, slots i ≠ .empty → slots' i ≠ .empty)
    (hv : v ≠ none → v' ≠ none) {a : Option ι} (ha : Used slots v a) :
    Used slots' v' a := by
  cases a with
  | none => exact hv ha
  | some i => exact hslots i ha

theorem isBranch_insert {t : Patricia ι α} (h : t.IsBranch) (k : List ι)
    (value : α) : (insert t k value).IsBranch := by
  obtain ⟨slots, v, rfl⟩ := h.exists_eq
  cases k <;> trivial

omit [DecidableEq ι] in
theorem canonical_extend {key : List ι} {t : Patricia ι α} (ht : t.Canonical)
    (hbranch : t.IsBranch) : (extend key t).Canonical := by
  by_cases hkey : key = []
  · simpa [extend, hkey] using ht
  · simpa [extend, hkey] using ⟨hkey, hbranch, ht⟩

/-- A free slot next to one in use makes a canonical branch. -/
theorem canonical_put {slots : ι → Patricia ι α} {v : Option α} {k : List ι}
    (hslots : ∀ i, (slots i).Canonical) {a : Option ι}
    (ha : Used slots v a) (hne : a ≠ k.head?) (value : α) :
    (put (.branch slots v) k value).Canonical := by
  cases k with
  | nil =>
      refine ⟨hslots, a, none, hne, ?_, by simp [Used]⟩
      exact ha.mono (fun _ h => h) (by simp)
  | cons i k =>
      refine ⟨fun j => ?_, a, some i, hne, ?_, by simp [Used]⟩
      · by_cases hji : j = i
        · subst hji
          simp [Canonical]
        · simpa [hji] using hslots j
      · refine ha.mono (fun j hj => ?_) (fun h => h)
        by_cases hji : j = i
        · subst hji
          simp
        · simpa [hji] using hj

theorem canonical_only {i : ι} {t : Patricia ι α} (ht : t.Canonical) (j : ι) :
    (only i t j).Canonical := by
  by_cases hji : j = i
  · subst hji
    simpa [only] using ht
  · simp [only, hji, Canonical]

theorem some_ne_head_of_sharedLength {i : ι} {key k : List ι}
    (hzero : sharedLength k (i :: key) = 0) : some i ≠ k.head? := by
  cases k with
  | nil => simp
  | cons j k =>
      simpa using (ne_of_sharedLength_cons hzero).symm

theorem canonical_put_forkLeaf {key k : List ι} (hne : k ≠ key)
    (hzero : sharedLength k key = 0) (v value : α) :
    (put (forkLeaf v key) k value).Canonical := by
  cases key with
  | nil =>
      obtain ⟨i, k, rfl⟩ := List.exists_cons_of_ne_nil hne
      exact canonical_put (a := none) (show ∀ _ : ι, Canonical .empty from
        fun _ => trivial) (by simp [Used]) (by simp) value
  | cons i key =>
      exact canonical_put (a := some i)
        (canonical_only (t := .leaf key v) trivial) (by simp [Used, only])
        (some_ne_head_of_sharedLength hzero) value

theorem canonical_put_forkExt {i : ι} {key k : List ι} {child : Patricia ι α}
    (hchild : child.Canonical) (hbranch : child.IsBranch)
    (hzero : sharedLength k (i :: key) = 0) (value : α) :
    (put (forkExt child (i :: key)) k value).Canonical := by
  have hne : extend key child ≠ .empty := by
    obtain ⟨slots, v, rfl⟩ := hbranch.exists_eq
    by_cases hkey : key = [] <;> simp [extend, hkey]
  exact canonical_put (a := some i)
    (canonical_only (canonical_extend hchild hbranch))
    (by simpa [Used, only] using hne) (some_ne_head_of_sharedLength hzero) value

theorem isBranch_put_forkLeaf (v value : α) (key k : List ι) :
    (put (forkLeaf v key) k value).IsBranch := by
  cases key <;> cases k <;> trivial

theorem isBranch_put_forkExt (child : Patricia ι α) (value : α) (i : ι)
    (key k : List ι) : (put (forkExt child (i :: key)) k value).IsBranch := by
  cases k <;> trivial

/-- Insertion keeps the canonical shape. -/
theorem canonical_insert {t : Patricia ι α} (ht : t.Canonical) (k : List ι)
    (value : α) : (insert t k value).Canonical := by
  induction t generalizing k with
  | empty => trivial
  | leaf key v =>
      by_cases hk : k = key
      · simp [insert, hk, Canonical]
      · obtain ⟨p, r, l, rfl, rfl, hp, hzero⟩ := exists_shared k key
        simp only [insert, hk, ↓reduceIte, hp, List.take_left, List.drop_left]
        exact canonical_extend
          (canonical_put_forkLeaf (fun h => hk (by rw [h])) hzero v value)
          (isBranch_put_forkLeaf v value l r)
  | ext key child ih =>
      obtain ⟨hkey, hbranch, hchild⟩ := ht
      by_cases hk : key <+: k
      · simp only [insert, hk, ↓reduceIte]
        exact ⟨hkey, isBranch_insert hbranch _ _, ih hchild _⟩
      · obtain ⟨p, r, l, rfl, rfl, hp, hzero⟩ := exists_shared k key
        obtain ⟨i, l, rfl⟩ := not_prefix_cases hk
        simp only [insert, hk, ↓reduceIte, hp, List.take_left, List.drop_left]
        exact canonical_extend
          (canonical_put_forkExt hchild hbranch hzero value)
          (isBranch_put_forkExt child value i l r)
  | branch slots v ih =>
      obtain ⟨hslots, a, b, hab, ha, hb⟩ := ht
      cases k with
      | nil =>
          exact ⟨hslots, a, b, hab, ha.mono (fun _ h => h) (by simp),
            hb.mono (fun _ h => h) (by simp)⟩
      | cons i k =>
          have hkeep : ∀ j, slots j ≠ .empty →
              Function.update slots i (insert (slots i) k value) j ≠ .empty := by
            intro j hj
            by_cases hji : j = i
            · subst hji
              simpa using insert_ne_empty (slots j) k value
            · simpa [hji] using hj
          refine ⟨fun j => ?_, a, b, hab, ha.mono hkeep fun h => h,
            hb.mono hkeep fun h => h⟩
          by_cases hji : j = i
          · subst hji
            simpa using ih j (hslots j) k
          · simpa [hji] using hslots j

end Patricia

end Web3Core
