/-
Removal from a Patricia trie.  A branch that keeps a single slot is rewritten
as a two-item node and joined with what is below it.  The trie that takes the
place of a branch which keeps only its own value is a parameter, `lone`; with
`leaf []` for it removal deletes one key of the map and nothing else.
-/
import Web3Core.PatriciaInsert

namespace Web3Core

namespace Patricia

variable {ι α : Type} [DecidableEq ι]

/-- Put a word in front of a trie, joining it with a two-item node. -/
def graft (key : List ι) : Patricia ι α → Patricia ι α
  | .empty => .empty
  | .leaf key' value => .leaf (key ++ key') value
  | .ext key' child => .ext (key ++ key') child
  | .branch slots value => .ext key (.branch slots value)

/-- The only slot of a branch that holds a child, the value slot being free. -/
def OnlySlot (slots : ι → Patricia ι α) (value : Option α) (i : ι) : Prop :=
  value = none ∧ slots i ≠ .empty ∧ ∀ j, slots j ≠ .empty → j = i

open Classical in
/-- A branch after one of its slots may have been emptied. -/
noncomputable def collapse (lone : α → Patricia ι α)
    (slots : ι → Patricia ι α) (value : Option α) : Patricia ι α :=
  if h : ∃ i, OnlySlot slots value i then graft [h.choose] (slots h.choose)
  else
    match value with
    | some x =>
        if ∀ i, slots i = .empty then lone x else .branch slots value
    | none => .branch slots value

/-- Remove a key; `none` if the trie does not hold it. -/
noncomputable def remove (lone : α → Patricia ι α) :
    Patricia ι α → List ι → Option (Patricia ι α)
  | .empty, _ => none
  | .leaf key _, k => if k = key then some .empty else none
  | .ext key child, k =>
      if key <+: k then
        (remove lone child (k.drop key.length)).map (graft key)
      else none
  | .branch slots value, [] =>
      match value with
      | some _ => some (collapse lone slots none)
      | none => none
  | .branch slots value, i :: k =>
      (remove lone (slots i) k).map fun t =>
        collapse lone (Function.update slots i t) value

@[simp] theorem lookup_graft (key : List ι) (t : Patricia ι α) (k : List ι) :
    lookup (graft key t) k =
      if key <+: k then lookup t (k.drop key.length) else none := by
  cases t with
  | empty => simp [graft]
  | leaf key' value => simp only [graft, lookup_leaf_append_prefix]
  | ext key' child => simp only [graft, lookup_ext_append_prefix]
  | branch slots value => simp [graft]

omit [DecidableEq ι] in
theorem graft_ne_empty {t : Patricia ι α} (ht : t ≠ .empty) (key : List ι) :
    graft key t ≠ .empty := by
  cases t <;> simp_all [graft]

omit [DecidableEq ι] in
theorem canonical_graft {key : List ι} (hkey : key ≠ []) {t : Patricia ι α}
    (ht : t.Canonical) : (graft key t).Canonical := by
  cases t with
  | empty => trivial
  | leaf key' value => trivial
  | ext key' child => exact ⟨by simp [hkey], ht.2⟩
  | branch slots value => exact ⟨hkey, trivial, ht⟩

section Collapse

variable {lone : α → Patricia ι α} {slots : ι → Patricia ι α}
  {value : Option α}

omit [DecidableEq ι] in
theorem collapse_of_onlySlot {i : ι} (h : OnlySlot slots value i) :
    collapse lone slots value = graft [i] (slots i) := by
  have hex : ∃ i, OnlySlot slots value i := ⟨i, h⟩
  have hi : hex.choose = i := h.2.2 _ hex.choose_spec.2.1
  rw [collapse, dif_pos hex, hi]

omit [DecidableEq ι] in
theorem collapse_of_value (h : ∀ i, slots i = .empty) (x : α) :
    collapse lone slots (some x) = lone x := by
  have hno : ¬ ∃ i, OnlySlot slots (some x) i := by
    rintro ⟨_, hv, -⟩
    cases hv
  simp [collapse, hno, h]

omit [DecidableEq ι] in
theorem collapse_of_two {a b : Option ι} (hab : a ≠ b)
    (ha : Used slots value a) (hb : Used slots value b) :
    collapse lone slots value = .branch slots value := by
  have hno : ¬ ∃ i, OnlySlot slots value i := by
    rintro ⟨i, hv, -, huniq⟩
    have heq : ∀ c, Used slots value c → c = some i := by
      intro c hc
      cases c with
      | none => exact absurd hv hc
      | some j => rw [huniq j hc]
    exact hab ((heq a ha).trans (heq b hb).symm)
  rw [collapse, dif_neg hno]
  cases value with
  | none => rfl
  | some x =>
      have hsome : ¬ ∀ i, slots i = .empty := by
        intro hall
        have heq : ∀ c, Used slots (some x) c → c = none := by
          intro c hc
          cases c with
          | none => rfl
          | some j => exact absurd (hall j) hc
        exact hab ((heq a ha).trans (heq b hb).symm)
      simp [hsome]

omit [DecidableEq ι] in
/-- What a branch can look like once a slot has been emptied. -/
theorem used_cases (slots : ι → Patricia ι α) (value : Option α) :
    (value = none ∧ ∀ i, slots i = .empty) ∨
      (∃ i, OnlySlot slots value i) ∨
      (∃ x, value = some x ∧ ∀ i, slots i = .empty) ∨
      ∃ a b, a ≠ b ∧ Used slots value a ∧ Used slots value b := by
  by_cases hall : ∀ i, slots i = .empty
  · cases value with
    | none => exact Or.inl ⟨rfl, hall⟩
    | some x => exact Or.inr (Or.inr (Or.inl ⟨x, rfl, hall⟩))
  · obtain ⟨i, hi⟩ := not_forall.1 hall
    by_cases htwo : ∃ a, a ≠ some i ∧ Used slots value a
    · obtain ⟨a, ha, hused⟩ := htwo
      exact Or.inr (Or.inr (Or.inr ⟨a, some i, ha, hused, hi⟩))
    · refine Or.inr (Or.inl ⟨i, ?_, hi, fun j hj => ?_⟩)
      · by_contra hv
        exact htwo ⟨none, by simp, hv⟩
      · by_contra hji
        exact htwo ⟨some j, by simpa using hji, hj⟩

omit [DecidableEq ι] in
/-- What takes the place of a branch matters only where the branch keeps just
its value. -/
theorem collapse_congr {lone' : α → Patricia ι α}
    (h : ∀ x, value = some x → (∀ i, slots i = .empty) → lone x = lone' x) :
    collapse lone slots value = collapse lone' slots value := by
  rcases used_cases slots value with
    ⟨rfl, -⟩ | ⟨i, honly⟩ | ⟨x, rfl, hall⟩ | ⟨a, b, hab, ha, hb⟩
  · rfl
  · rw [collapse_of_onlySlot honly, collapse_of_onlySlot honly]
  · rw [collapse_of_value hall, collapse_of_value hall, h x rfl hall]
  · rw [collapse_of_two hab ha hb, collapse_of_two hab ha hb]

/-- Rewriting a branch with one slot left changes no lookup. -/
theorem lookup_collapse (slots : ι → Patricia ι α) (value : Option α)
    (k : List ι) :
    lookup (collapse (.leaf []) slots value) k =
      lookup (.branch slots value) k := by
  rcases used_cases slots value with
    ⟨rfl, hall⟩ | ⟨i, honly⟩ | ⟨x, rfl, hall⟩ | ⟨a, b, hab, ha, hb⟩
  · have hno : ¬ ∃ i, OnlySlot slots none i := by
      rintro ⟨i, -, hi, -⟩
      exact hi (hall i)
    simp [collapse, hno]
  · rw [collapse_of_onlySlot honly, lookup_graft]
    obtain ⟨rfl, -, huniq⟩ := honly
    cases k with
    | nil => simp
    | cons j k =>
        by_cases hji : i = j
        · subst hji
          simp
        · have hempty : slots j = .empty := by
            by_contra hj
            exact hji (huniq j hj).symm
          simp [hji, hempty]
  · rw [collapse_of_value hall]
    cases k with
    | nil => simp
    | cons j k => simp [hall j]
  · rw [collapse_of_two hab ha hb]

omit [DecidableEq ι] in
theorem canonical_collapse (hslots : ∀ i, (slots i).Canonical)
    {a : Option ι} (ha : Used slots value a) :
    (collapse (.leaf []) slots value).Canonical := by
  rcases used_cases slots value with
    ⟨rfl, hall⟩ | ⟨i, honly⟩ | ⟨x, rfl, hall⟩ | ⟨b, c, hbc, hb, hc⟩
  · cases a with
    | none => exact absurd rfl ha
    | some i => exact absurd (hall i) ha
  · rw [collapse_of_onlySlot honly]
    exact canonical_graft (by simp) (hslots i)
  · rw [collapse_of_value hall]
    trivial
  · rw [collapse_of_two hbc hb hc]
    exact ⟨hslots, b, c, hbc, hb, hc⟩

omit [DecidableEq ι] in
theorem collapse_ne_empty {a : Option ι} (ha : Used slots value a)
    (hlone : ∀ x, lone x ≠ .empty) : collapse lone slots value ≠ .empty := by
  rcases used_cases slots value with
    ⟨rfl, hall⟩ | ⟨i, honly⟩ | ⟨x, rfl, hall⟩ | ⟨b, c, hbc, hb, hc⟩
  · cases a with
    | none => exact absurd rfl ha
    | some i => exact absurd (hall i) ha
  · rw [collapse_of_onlySlot honly]
    exact graft_ne_empty honly.2.1 _
  · rw [collapse_of_value hall]
    exact hlone x
  · rw [collapse_of_two hbc hb hc]
    simp

end Collapse

/-- A branch keeps a slot in use when one of its slots changes. -/
theorem Canonical.exists_used_update {slots : ι → Patricia ι α}
    {value : Option α} (ht : (branch slots value).Canonical) (i : ι)
    (t : Patricia ι α) : ∃ a, Used (Function.update slots i t) value a := by
  obtain ⟨-, a, b, hab, ha, hb⟩ := ht
  have keep : ∀ c, c ≠ some i → Used slots value c →
      Used (Function.update slots i t) value c := by
    intro c hc hused
    cases c with
    | none => exact hused
    | some j =>
        have hji : j ≠ i := fun h => hc (by rw [h])
        simpa [Used, hji] using hused
  by_cases hai : a = some i
  · exact ⟨b, keep b (fun hbi => hab (hai.trans hbi.symm)) hb⟩
  · exact ⟨a, keep a hai ha⟩

omit [DecidableEq ι] in
theorem Canonical.exists_slot {slots : ι → Patricia ι α} {value : Option α}
    (ht : (branch slots value).Canonical) : ∃ i, slots i ≠ .empty := by
  obtain ⟨-, a, b, hab, ha, hb⟩ := ht
  cases a with
  | some i => exact ⟨i, ha⟩
  | none =>
      cases b with
      | some i => exact ⟨i, hb⟩
      | none => exact absurd rfl hab

/-- Removal finds exactly the keys of the trie. -/
theorem remove_eq_none_iff (lone : α → Patricia ι α) (t : Patricia ι α)
    (k : List ι) : remove lone t k = none ↔ lookup t k = none := by
  induction t generalizing k with
  | empty => simp [remove]
  | leaf key value => by_cases hk : k = key <;> simp [remove, hk]
  | ext key child ih => by_cases hk : key <+: k <;> simp [remove, hk, ih]
  | branch slots value ih =>
      cases k with
      | nil => cases value <;> simp [remove]
      | cons i k => simp [remove, ih]

theorem exists_remove {t : Patricia ι α} {k : List ι} {x : α}
    (h : lookup t k = some x) (lone : α → Patricia ι α) :
    ∃ t', remove lone t k = some t' := by
  refine Option.ne_none_iff_exists'.1 fun hnone => ?_
  rw [(remove_eq_none_iff lone t k).1 hnone] at h
  cases h

/-- Removal deletes one key of the map. -/
theorem lookup_remove {t t' : Patricia ι α} {k : List ι}
    (h : remove (.leaf []) t k = some t') (k' : List ι) :
    lookup t' k' = if k' = k then none else lookup t k' := by
  induction t generalizing t' k k' with
  | empty => cases h
  | leaf key value =>
      by_cases hk : k = key
      · subst hk
        obtain rfl : .empty = t' := by simpa [remove] using h
        by_cases hk' : k' = k <;> simp [hk']
      · simp [remove, hk] at h
  | ext key child ih =>
      by_cases hk : key <+: k
      · obtain ⟨r, rfl⟩ := hk
        simp only [remove, List.prefix_append, ↓reduceIte, List.drop_left,
          Option.map_eq_some_iff] at h
        obtain ⟨u, hu, rfl⟩ := h
        by_cases hk' : key <+: k'
        · obtain ⟨r', rfl⟩ := hk'
          simp [ih hu]
        · have : k' ≠ key ++ r := by
            rintro rfl
            exact hk' (List.prefix_append key r)
          simp [hk', this]
      · simp [remove, hk] at h
  | branch slots value ih =>
      cases k with
      | nil =>
          cases value with
          | none => cases h
          | some x =>
              obtain rfl : collapse (.leaf []) slots none = t' := by
                simpa [remove] using h
              rw [lookup_collapse]
              cases k' <;> simp
      | cons i k =>
          simp only [remove, Option.map_eq_some_iff] at h
          obtain ⟨u, hu, rfl⟩ := h
          rw [lookup_collapse]
          cases k' with
          | nil => simp
          | cons j k' =>
              by_cases hji : j = i
              · subst hji
                simp [ih j hu]
              · simp [hji]

/-- Below the root a removal leaves a node behind, except that of a leaf. -/
theorem remove_ne_empty {lone : α → Patricia ι α}
    (hlone : ∀ x, lone x ≠ .empty) {t t' : Patricia ι α} (ht : t.Canonical)
    (hbranch : t.IsBranch) {k : List ι} (h : remove lone t k = some t') :
    t' ≠ .empty := by
  obtain ⟨slots, value, rfl⟩ := hbranch.exists_eq
  cases k with
  | nil =>
      cases value with
      | none => cases h
      | some x =>
          obtain rfl : collapse lone slots none = t' := by
            simpa [remove] using h
          obtain ⟨i, hi⟩ := ht.exists_slot
          exact collapse_ne_empty (a := some i) hi hlone
  | cons i k =>
      simp only [remove, Option.map_eq_some_iff] at h
      obtain ⟨u, -, rfl⟩ := h
      obtain ⟨a, ha⟩ := ht.exists_used_update i u
      exact collapse_ne_empty ha hlone

/-- Only a leaf leaves nothing behind. -/
theorem eq_leaf_of_remove {lone : α → Patricia ι α}
    (hlone : ∀ x, lone x ≠ .empty) {t : Patricia ι α} (ht : t.Canonical)
    {k : List ι} (h : remove lone t k = some .empty) :
    ∃ x, t = .leaf k x := by
  cases t with
  | empty => cases h
  | leaf key value =>
      by_cases hk : k = key
      · exact ⟨value, by rw [hk]⟩
      · simp [remove, hk] at h
  | ext key child =>
      by_cases hk : key <+: k
      · simp only [remove, hk, ↓reduceIte, Option.map_eq_some_iff] at h
        obtain ⟨u, hu, hnil⟩ := h
        exact absurd hnil
          (graft_ne_empty (remove_ne_empty hlone ht.2.2 ht.2.1 hu) key)
      · simp [remove, hk] at h
  | branch slots value => exact absurd rfl (remove_ne_empty hlone ht trivial h)

/-- Removal keeps the canonical shape. -/
theorem canonical_remove {t t' : Patricia ι α} (ht : t.Canonical)
    {k : List ι} (h : remove (.leaf []) t k = some t') : t'.Canonical := by
  induction t generalizing t' k with
  | empty => cases h
  | leaf key value =>
      by_cases hk : k = key
      · obtain rfl : .empty = t' := by simpa [remove, hk] using h
        trivial
      · simp [remove, hk] at h
  | ext key child ih =>
      obtain ⟨hkey, -, hchild⟩ := ht
      by_cases hk : key <+: k
      · simp only [remove, hk, ↓reduceIte, Option.map_eq_some_iff] at h
        obtain ⟨u, hu, rfl⟩ := h
        exact canonical_graft hkey (ih hchild hu)
      · simp [remove, hk] at h
  | branch slots value ih =>
      cases k with
      | nil =>
          cases value with
          | none => cases h
          | some x =>
              obtain rfl : collapse (.leaf []) slots none = t' := by
                simpa [remove] using h
              obtain ⟨i, hi⟩ := ht.exists_slot
              exact canonical_collapse ht.1 (a := some i) hi
      | cons i k =>
          simp only [remove, Option.map_eq_some_iff] at h
          obtain ⟨u, hu, rfl⟩ := h
          obtain ⟨a, ha⟩ := ht.exists_used_update i u
          refine canonical_collapse (fun j => ?_) ha
          by_cases hji : j = i
          · subst hji
            simpa using ih j (ht.1 j) hu
          · simpa [hji] using ht.1 j

end Patricia

end Web3Core
