/-
Finite maps as lists of entries in strictly increasing order of their keys.
The order is a field of the map, so a map is determined by its lookups, and
going through its entries visits the keys in order, each once.
-/
import Mathlib.Data.List.Lex
import Mathlib.Order.Lattice

namespace Web3Core

/-- A map from `α` to `β`; its entries are ordered. -/
structure OrderedMap (α β : Type) [LinearOrder α] where
  entries : List (α × β)
  ordered : entries.Pairwise fun a b => a.1 < b.1

namespace OrderedMap

variable {α β : Type} [LinearOrder α]

instance : EmptyCollection (OrderedMap α β) := ⟨⟨[], .nil⟩⟩

/-- Put an entry in its place, over an entry with the same key. -/
def insertEntry (key : α) (value : β) : List (α × β) → List (α × β)
  | [] => [(key, value)]
  | (key', value') :: entries =>
      if key < key' then (key, value) :: (key', value') :: entries
      else if key = key' then (key, value) :: entries
      else (key', value') :: insertEntry key value entries

variable {key : α} {value : β} {entries : List (α × β)}

theorem mem_insertEntry {entry : α × β}
    (h : entry ∈ insertEntry key value entries) :
    entry = (key, value) ∨ entry ∈ entries := by
  induction entries with
  | nil => simpa [insertEntry] using h
  | cons e entries ih =>
      obtain ⟨key', value'⟩ := e
      rw [insertEntry] at h
      split at h
      · simpa using h
      · split at h
        · rcases List.mem_cons.1 h with h | h
          · exact .inl h
          · exact .inr (List.mem_cons_of_mem _ h)
        · rcases List.mem_cons.1 h with rfl | h
          · exact .inr List.mem_cons_self
          · exact (ih h).imp_right (List.mem_cons_of_mem _)

theorem ordered_insertEntry
    (h : entries.Pairwise fun a b => a.1 < b.1) :
    (insertEntry key value entries).Pairwise fun a b => a.1 < b.1 := by
  induction entries with
  | nil => simp [insertEntry]
  | cons e entries ih =>
      obtain ⟨key', value'⟩ := e
      obtain ⟨hhead, htail⟩ := List.pairwise_cons.1 h
      rw [insertEntry]
      split
      · rename_i hlt
        refine List.pairwise_cons.2 ⟨fun e he => ?_, h⟩
        rcases List.mem_cons.1 he with rfl | he
        · exact hlt
        · exact hlt.trans (hhead e he)
      · rename_i hlt
        split
        · rename_i heq
          subst heq
          exact List.pairwise_cons.2 ⟨hhead, htail⟩
        · rename_i hne
          refine List.pairwise_cons.2 ⟨fun e he => ?_, ih htail⟩
          rcases mem_insertEntry he with rfl | he
          · exact lt_of_le_of_ne (not_lt.1 hlt) (Ne.symm hne)
          · exact hhead e he

theorem lookup_cons (key : α) (e : α × β) (entries : List (α × β)) :
    (e :: entries).lookup key =
      if key = e.1 then some e.2 else entries.lookup key := by
  obtain ⟨k, v⟩ := e
  by_cases h : key = k
  · simp [h]
  · have hne : (key == k) = false := by simpa using h
    rw [List.lookup_cons, hne, if_neg h]

theorem lookup_insertEntry (key' : α) :
    (insertEntry key value entries).lookup key' =
      if key' = key then some value else entries.lookup key' := by
  induction entries with
  | nil => rw [insertEntry, lookup_cons]
  | cons e entries ih =>
      obtain ⟨k, v⟩ := e
      rw [insertEntry]
      split
      · rw [lookup_cons]
      · split
        · rename_i heq
          subst heq
          rw [lookup_cons, lookup_cons]
          split <;> rfl
        · rename_i hne
          rw [lookup_cons, ih, lookup_cons]
          by_cases hk : key' = k
          · subst hk
            simp [Ne.symm hne]
          · simp [hk]

def lookup (m : OrderedMap α β) (key : α) : Option β := m.entries.lookup key

/-- `m[key] = value`. -/
def insert (m : OrderedMap α β) (key : α) (value : β) : OrderedMap α β :=
  ⟨insertEntry key value m.entries, ordered_insertEntry m.ordered⟩

def erase (m : OrderedMap α β) (key : α) : OrderedMap α β :=
  ⟨m.entries.filter fun e => e.1 ≠ key,
    m.ordered.sublist List.filter_sublist⟩

variable {m m' : OrderedMap α β}

@[simp] theorem entries_empty : ({} : OrderedMap α β).entries = [] := rfl

@[simp] theorem lookup_empty (key : α) :
    ({} : OrderedMap α β).lookup key = none := rfl

theorem lookup_insert (m : OrderedMap α β) (key : α) (value : β) (key' : α) :
    (m.insert key value).lookup key' =
      if key' = key then some value else m.lookup key' :=
  lookup_insertEntry key'

theorem lookup_eq_some_iff :
    m.lookup key = some value ↔ (key, value) ∈ m.entries := by
  obtain ⟨entries, hordered⟩ := m
  show entries.lookup key = some value ↔ (key, value) ∈ entries
  induction entries with
  | nil => simp
  | cons e entries ih =>
      obtain ⟨k, v⟩ := e
      obtain ⟨hhead, htail⟩ := List.pairwise_cons.1 hordered
      rw [lookup_cons, List.mem_cons]
      by_cases hk : key = k
      · subst hk
        have hno : (key, value) ∉ entries := fun hmem =>
          lt_irrefl key (hhead _ hmem)
        simp [hno, eq_comm]
      · simp [hk, ih htail]

theorem lookup_erase (m : OrderedMap α β) (key key' : α) :
    (m.erase key).lookup key' = if key' = key then none else m.lookup key' := by
  ext value
  rw [lookup_eq_some_iff]
  by_cases h : key' = key
  · simp [erase, h]
  · simp [erase, h, lookup_eq_some_iff]

/-- A map is what it looks up. -/
theorem ext_lookup (h : ∀ key, m.lookup key = m'.lookup key) : m = m' := by
  have hperm : m.entries.Perm m'.entries := by
    have hnodup : ∀ m : OrderedMap α β, m.entries.Nodup := by
      intro m
      refine m.ordered.imp fun {a b} hlt heq => ?_
      exact hlt.ne (congrArg Prod.fst heq)
    refine (List.perm_ext_iff_of_nodup (hnodup m) (hnodup m')).2 fun e => ?_
    rw [← lookup_eq_some_iff, h, lookup_eq_some_iff]
  have heq : m.entries = m'.entries :=
    hperm.eq_of_pairwise (fun a b _ _ hab hba => absurd hab hba.not_gt)
      m.ordered m'.ordered
  cases m
  cases m'
  cases heq
  rfl

/-- A map all of whose entries are the same has one. -/
theorem entries_eq_singleton {e : α × β} (hmem : e ∈ m.entries)
    (hall : ∀ e' ∈ m.entries, e' = e) : m.entries = [e] := by
  have hordered := m.ordered
  generalize m.entries = entries at hmem hall hordered
  cases entries with
  | nil => cases hmem
  | cons first rest =>
      have hfirst := hall first List.mem_cons_self
      cases rest with
      | nil => rw [hfirst]
      | cons next rest =>
          have hlt := (List.pairwise_cons.mp hordered).1 next List.mem_cons_self
          rw [hfirst, hall next (by simp)] at hlt
          exact absurd hlt (lt_irrefl _)

theorem insert_comm (m : OrderedMap α β) {key key' : α} (hne : key ≠ key')
    (value value' : β) :
    (m.insert key value).insert key' value' =
      (m.insert key' value').insert key value := by
  refine ext_lookup fun k => ?_
  simp only [lookup_insert]
  by_cases hk : k = key
  · subst hk
    rw [if_neg hne, if_pos rfl, if_pos rfl]
  · rw [if_neg hk, if_neg hk]

/-- `upper_bound`: the first entry with a larger key. -/
def upperBound (m : OrderedMap α β) (key : α) : Option (α × β) :=
  m.entries.find? fun e => decide (key < e.1)

/-- The entry before `upper_bound`: the last one with no larger key. -/
def beforeUpperBound (m : OrderedMap α β) (key : α) : Option (α × β) :=
  m.entries.reverse.find? fun e => decide (e.1 ≤ key)

theorem upperBound_eq_none (h : m.upperBound key = none) {key' : α}
    (hkey : m.lookup key' = some value) : key' ≤ key := by
  rw [upperBound, List.find?_eq_none] at h
  have hle := h _ (lookup_eq_some_iff.mp hkey)
  simpa using hle

theorem upperBound_eq_some {e : α × β} (h : m.upperBound key = some e) :
    m.lookup e.1 = some e.2 ∧ key < e.1 ∧
      ∀ {key' : α} {value : β}, m.lookup key' = some value → key < key' →
        e.1 ≤ key' := by
  have hmem := List.mem_of_find?_eq_some h
  have hlt := List.find?_some h
  refine ⟨lookup_eq_some_iff.mpr hmem, by simpa using hlt, ?_⟩
  intro key' value hkey hlarger
  obtain ⟨-, before, after, hsplit, hbefore⟩ :=
    List.find?_eq_some_iff_append.mp h
  have hmem' := lookup_eq_some_iff.mp hkey
  have hordered := m.ordered
  rw [hsplit] at hmem' hordered
  rcases List.mem_append.mp hmem' with hfront | hback
  · have hnot := hbefore _ hfront
    simp [hlarger] at hnot
  · rcases List.mem_cons.mp hback with rfl | hback
    · exact le_rfl
    · have htail := (List.pairwise_append.mp hordered).2.1
      exact ((List.pairwise_cons.mp htail).1 _ hback).le

theorem beforeUpperBound_eq_none (h : m.beforeUpperBound key = none)
    {key' : α} (hkey : m.lookup key' = some value) : key < key' := by
  rw [beforeUpperBound, List.find?_eq_none] at h
  have hlt := h _ (List.mem_reverse.mpr (lookup_eq_some_iff.mp hkey))
  simpa using hlt

theorem beforeUpperBound_eq_some {e : α × β}
    (h : m.beforeUpperBound key = some e) :
    m.lookup e.1 = some e.2 ∧ e.1 ≤ key ∧
      ∀ {key' : α} {value : β}, m.lookup key' = some value → key' ≤ key →
        key' ≤ e.1 := by
  have hmem := List.mem_reverse.mp (List.mem_of_find?_eq_some h)
  have hle := List.find?_some h
  refine ⟨lookup_eq_some_iff.mpr hmem, by simpa using hle, ?_⟩
  intro key' value hkey hsmaller
  obtain ⟨-, before, after, hsplit, hbefore⟩ :=
    List.find?_eq_some_iff_append.mp h
  have hmem' := List.mem_reverse.mpr (lookup_eq_some_iff.mp hkey)
  have hordered := List.pairwise_reverse.mpr m.ordered
  rw [hsplit] at hmem' hordered
  rcases List.mem_append.mp hmem' with hfront | hback
  · have hnot := hbefore _ hfront
    simp [hsmaller] at hnot
  · rcases List.mem_cons.mp hback with rfl | hback
    · exact le_rfl
    · have htail := (List.pairwise_append.mp hordered).2.1
      exact ((List.pairwise_cons.mp htail).1 _ hback).le

end OrderedMap

end Web3Core
