/-
The tries that an insertion passes through: a two-item node cut in front of
the disagreement with the new key, and a two-item node rewritten as a branch.
Inserting into them is inserting into the node they were made of, and the
bound on keys stays.
-/
import Web3Core.TrieNode

namespace Web3Core

namespace Trie

/-- A two-item node rewritten as a branch. -/
def forked : Trie → Trie
  | .leaf key value => Patricia.forkLeaf value key
  | .ext key child => Patricia.forkExt child key
  | t => t

/-- A key with the nibbles `ns` goes on below the top node. -/
def Passes : Trie → List Nibble → Prop
  | .ext key _, ns => key <+: ns
  | .branch _ _, ns => ns ≠ []
  | _, _ => False

/-- A key does not end inside the key of a two-item node. -/
def NoStop : Trie → List Nibble → Prop
  | .empty, _ => True
  | .leaf key _, ns => ns <+: key → ns = key
  | .ext key child, ns =>
      if key <+: ns then NoStop child (ns.drop key.length) else ¬ ns <+: key
  | .branch _ _, [] => True
  | .branch slots _, i :: ns => NoStop (slots i) ns

section Cut

theorem insert_cleved_leaf {p r l : List Nibble} {value v : Bytes}
    (hp : p ≠ []) (hrl : r ≠ l) (hzero : sharedLength r l = 0) :
    Patricia.insert (.ext p (.leaf l value)) (p ++ r) v =
      Patricia.insert (.leaf (p ++ l) value) (p ++ r) v := by
  simp [Patricia.insert, sharedLength_append, hzero, hrl, Patricia.extend, hp]

theorem insert_cleved_ext {p r l : List Nibble} {child : Trie} {v : Bytes}
    (hp : p ≠ []) (hlr : ¬ l <+: r) (hzero : sharedLength r l = 0) :
    Patricia.insert (.ext p (.ext l child)) (p ++ r) v =
      Patricia.insert (.ext (p ++ l) child) (p ++ r) v := by
  simp [Patricia.insert, sharedLength_append, hzero, hlr, Patricia.extend, hp]

/-- Inserting next to a key that shares nothing with the new one. -/
theorem insert_eq_put {slots : Nibble → Trie} {value : Option Bytes}
    {ns : List Nibble} (hfree : ∀ i, ns.head? = some i → slots i = .empty)
    (v : Bytes) :
    Patricia.insert (.branch slots value) ns v =
      Patricia.put (.branch slots value) ns v := by
  cases ns with
  | nil => rfl
  | cons i ns => simp [Patricia.insert, Patricia.put, hfree i rfl]

theorem insert_forked_leaf {key ns : List Nibble} {value v : Bytes}
    (hne : ns ≠ key) (hzero : sharedLength ns key = 0) :
    Patricia.insert (forked (.leaf key value)) ns v =
      Patricia.insert (.leaf key value) ns v := by
  have hput : Patricia.insert (forked (.leaf key value)) ns v =
      Patricia.put (Patricia.forkLeaf value key) ns v := by
    cases key with
    | nil => exact insert_eq_put (fun _ _ => rfl) v
    | cons i key => exact insert_eq_put (Patricia.only_free hzero _) v
  rw [hput]
  simp [Patricia.insert, hne, hzero, Patricia.extend]

theorem insert_forked_ext {key ns : List Nibble} {child : Trie} {v : Bytes}
    (hkey : ¬ key <+: ns) (hzero : sharedLength ns key = 0) :
    Patricia.insert (forked (.ext key child)) ns v =
      Patricia.insert (.ext key child) ns v := by
  cases key with
  | nil => exact absurd List.nil_prefix hkey
  | cons i key =>
      have hput : Patricia.insert (forked (.ext (i :: key) child)) ns v =
          Patricia.put (Patricia.forkExt child (i :: key)) ns v :=
        insert_eq_put (Patricia.only_free hzero _) v
      rw [hput]
      simp [Patricia.insert, hkey, hzero, Patricia.extend]

theorem noStop_cleved_leaf {p r l : List Nibble} {value : Bytes}
    (h : NoStop (.leaf (p ++ l) value) (p ++ r)) :
    NoStop (.ext p (.leaf l value)) (p ++ r) := by
  simp only [NoStop, List.prefix_append, ↓reduceIte, List.drop_left]
  intro hrl
  exact List.append_cancel_left (h ((List.prefix_append_right_inj p).2 hrl))

theorem noStop_cleved_ext {p r l : List Nibble} {child : Trie}
    (hlr : ¬ l <+: r) (h : NoStop (.ext (p ++ l) child) (p ++ r)) :
    NoStop (.ext p (.ext l child)) (p ++ r) := by
  have hkey : ¬ p ++ l <+: p ++ r := by
    rwa [List.prefix_append_right_inj]
  simp only [NoStop, hkey, ↓reduceIte] at h
  simp only [NoStop, List.prefix_append, ↓reduceIte, List.drop_left, hlr]
  rwa [List.prefix_append_right_inj] at h

/-- A key that does not end in a two-item node goes on through a free slot of
the branch made of it. -/
theorem noStop_of_free {slots : Nibble → Trie} {value : Option Bytes}
    {ns : List Nibble} (hne : ns ≠ [])
    (hfree : ∀ i, ns.head? = some i → slots i = .empty) :
    NoStop (.branch slots value) ns ∧ Passes (.branch slots value) ns := by
  obtain ⟨i, ns, rfl⟩ := List.exists_cons_of_ne_nil hne
  refine ⟨?_, hne⟩
  rw [NoStop, hfree i rfl]
  trivial

theorem noStop_forked_leaf {key ns : List Nibble} {value : Bytes}
    (hne : ns ≠ key) (hzero : sharedLength ns key = 0)
    (h : NoStop (.leaf key value) ns) :
    NoStop (forked (.leaf key value)) ns ∧
      Passes (forked (.leaf key value)) ns := by
  have hnil : ns ≠ [] := by
    rintro rfl
    exact hne (h List.nil_prefix)
  cases key with
  | nil => exact noStop_of_free hnil fun _ _ => rfl
  | cons i key => exact noStop_of_free hnil (Patricia.only_free hzero _)

theorem noStop_forked_ext {i : Nibble} {key ns : List Nibble} {child : Trie}
    (hkey : ¬ i :: key <+: ns) (hzero : sharedLength ns (i :: key) = 0)
    (h : NoStop (.ext (i :: key) child) ns) :
    NoStop (forked (.ext (i :: key) child)) ns ∧
      Passes (forked (.ext (i :: key) child)) ns := by
  simp only [NoStop, hkey, ↓reduceIte] at h
  have hnil : ns ≠ [] := by
    rintro rfl
    exact h List.nil_prefix
  exact noStop_of_free hnil (Patricia.only_free hzero _)

end Cut

section Bounds

variable {B d : Nat}

theorem within_cleved_leaf {p l : List Nibble} {value : Bytes} (hp : p ≠ [])
    (ht : Within B d (.leaf (p ++ l) value)) :
    Within B d (.ext p (.leaf l value)) := by
  have hlt := ht.2
  rw [List.length_append] at hlt
  exact ⟨hp, by simp, by omega, ht.1, by omega⟩

theorem within_cleved_ext {p l : List Nibble} {child : Trie} (hp : p ≠ [])
    (hl : l ≠ []) (ht : Within B d (.ext (p ++ l) child)) :
    Within B d (.ext p (.ext l child)) := by
  obtain ⟨-, hne, hlt, hchild⟩ := ht
  rw [List.length_append] at hlt hchild
  rw [← Nat.add_assoc] at hlt hchild
  exact ⟨hp, by simp, by omega, hl, hne, hlt, hchild⟩

theorem within_extend {p : List Nibble} {t : Trie} (hp : d + p.length < B)
    (hne : t ≠ .empty) (ht : Within B (d + p.length) t) : Within B d (Patricia.extend p t) := by
  unfold Patricia.extend
  split
  · rename_i hnil
    subst hnil
    exact ht
  · rename_i hkey
    exact ⟨hkey, hne, hp, ht⟩

theorem within_only {i : Nibble} {t : Trie} (ht : Within B (d + 1) t)
    (hd : d < B) : Within B d (.branch (Patricia.only i t) none) := by
  refine ⟨hd, fun j => ?_, fun x hx => by cases hx⟩
  by_cases hji : j = i
  · subst hji
    simpa [Patricia.only] using ht
  · simp [Patricia.only, hji, Within]

theorem within_forked {t : Trie} (ht : Within B d t) : Within B d (forked t) := by
  cases t with
  | empty => trivial
  | leaf key value =>
      have hlt := ht.2
      cases key with
      | nil =>
          refine ⟨by omega, fun _ => trivial, fun x hx => ?_⟩
          obtain rfl : value = x := by simpa using hx
          exact ht.1
      | cons i key =>
          refine within_only ⟨ht.1, ?_⟩ (by omega)
          rw [List.length_cons] at hlt
          omega
  | ext key child =>
      obtain ⟨hkey, hne, hlt, hchild⟩ := ht
      cases key with
      | nil => exact absurd rfl hkey
      | cons i key =>
          have hsum : d + 1 + key.length = d + (i :: key).length := by
            rw [List.length_cons]
            omega
          rw [← hsum] at hlt hchild
          exact within_only (within_extend hlt hne hchild) (by omega)
  | branch slots value => exact ht

theorem within_put {slots : Nibble → Trie} {value : Option Bytes}
    {ns : List Nibble} {v : Bytes} (h : Within B d (.branch slots value))
    (hv : Storable v) (hlt : d + ns.length < B) :
    Within B d (Patricia.put (.branch slots value) ns v) := by
  cases ns with
  | nil =>
      refine ⟨h.1, h.2.1, fun x hx => ?_⟩
      obtain rfl : v = x := by simpa using hx
      exact hv
  | cons i ns =>
      refine within_update h ⟨hv, ?_⟩ h.2.2
      rw [List.length_cons] at hlt
      omega

theorem exists_forked_leaf (key : List Nibble) (value : Bytes) :
    ∃ slots value', forked (.leaf key value) = .branch slots value' := by
  cases key with
  | nil => exact ⟨_, _, rfl⟩
  | cons i key => exact ⟨_, _, rfl⟩

theorem within_extend_put {t : Trie} {p ns : List Nibble} {v : Bytes}
    (ht : Within B (d + p.length) t) (hv : Storable v)
    (hlt : d + (p ++ ns).length < B)
    (hbranch : ∃ slots value, forked t = .branch slots value) :
    Within B d (Patricia.extend p (Patricia.put (forked t) ns v)) := by
  rw [List.length_append] at hlt
  obtain ⟨slots, value, hslots⟩ := hbranch
  have hforked := within_forked ht
  rw [hslots] at hforked ⊢
  refine within_extend (by omega) ?_ (within_put hforked hv (by omega))
  cases ns <;> simp [Patricia.put]

/-- Insertion keeps the bound. -/
theorem within_insert {t : Trie} (ht : Within B d t) {ns : List Nibble}
    {v : Bytes} (hv : Storable v) (hlt : d + ns.length < B) :
    Within B d (Patricia.insert t ns v) := by
  induction t generalizing d ns with
  | empty => exact ⟨hv, hlt⟩
  | leaf key value =>
      by_cases hk : ns = key
      · simpa [Patricia.insert, hk] using ⟨hv, hk ▸ hlt⟩
      · obtain ⟨p, r, l, rfl, rfl, hp, -⟩ := exists_shared ns key
        have hval := ht.2
        rw [List.length_append] at hval
        simp only [Patricia.insert, hk, ↓reduceIte, hp, List.take_left,
          List.drop_left]
        exact within_extend_put (t := .leaf l value) ⟨ht.1, by omega⟩ hv hlt
          (exists_forked_leaf l value)
  | ext key child ih =>
      by_cases hk : key <+: ns
      · obtain ⟨r, rfl⟩ := hk
        rw [List.length_append] at hlt
        simp only [Patricia.insert, List.prefix_append, ↓reduceIte,
          List.drop_left]
        obtain ⟨hkey, -, hle, hchild⟩ := ht
        exact ⟨hkey, Patricia.insert_ne_empty child r v, hle,
          ih hchild (by omega)⟩
      · obtain ⟨p, r, l, rfl, rfl, hp, -⟩ := exists_shared ns key
        obtain ⟨i, l, rfl⟩ := Patricia.not_prefix_cases hk
        obtain ⟨-, hne, hkey, hchild⟩ := ht
        rw [List.length_append] at hkey hchild
        rw [← Nat.add_assoc] at hchild
        simp only [Patricia.insert, hk, ↓reduceIte, hp, List.take_left,
          List.drop_left]
        exact within_extend_put (t := .ext (i :: l) child)
          ⟨by simp, hne, by omega, hchild⟩ hv hlt ⟨_, _, rfl⟩
  | branch slots value ih =>
      cases ns with
      | nil =>
          refine ⟨ht.1, ht.2.1, fun x hx => ?_⟩
          obtain rfl : v = x := by simpa using hx
          exact hv
      | cons i ns =>
          rw [List.length_cons] at hlt
          exact within_update ht (ih i (ht.2.1 i) (by omega)) ht.2.2

end Bounds

end Trie

end Web3Core
