/-
Maps of byte strings as canonical tries.  A map has exactly one canonical trie,
whatever the history of the trie; changes of the one are changes of the other.
-/
import Web3Core.TrieHash
import Web3Core.TrieKeys

namespace Web3Core

namespace BytesMap

variable {m m' : BytesMap} {t u : Trie} {k : Bytes}

/-- `t` is the canonical trie of the map `m`. -/
structure Denotes (m : BytesMap) (t : Trie) : Prop where
  canonical : t.Canonical
  holds : ∀ ns x, Patricia.lookup t ns = some x ↔
    ∃ k, nibbles k = ns ∧ m.lookup k = some x

theorem Denotes.lookup (h : Denotes m t) (k : Bytes) :
    Patricia.lookup t (nibbles k) = m.lookup k := by
  ext x
  rw [h.holds]
  constructor
  · rintro ⟨k', hk', hx⟩
    rwa [nibbles_inj.1 hk'] at hx
  · exact fun hx => ⟨k, rfl, hx⟩

theorem Denotes.has_iff (h : Denotes m t) (ns : List Nibble) :
    Trie.Has t ns ↔ ∃ k, nibbles k = ns ∧ m.lookup k ≠ none := by
  simp only [Trie.Has, Option.ne_none_iff_exists', h.holds]
  constructor
  · rintro ⟨x, k, hk, hx⟩
    exact ⟨k, hk, x, hx⟩
  · rintro ⟨k, hk, x, hx⟩
    exact ⟨x, k, hk, hx⟩

theorem Denotes.has_nibbles_iff (h : Denotes m t) (k : Bytes) :
    Trie.Has t (nibbles k) ↔ m.lookup k ≠ none := by
  rw [Trie.Has, h.lookup]

theorem denotes_empty : Denotes {} .empty :=
  ⟨trivial, fun ns x => by simp⟩

/-- A map has one canonical trie. -/
theorem Denotes.trie_unique (h : Denotes m t) (h' : Denotes m u) : t = u := by
  refine h.canonical.ext_lookup h'.canonical fun ns => ?_
  ext x
  rw [h.holds, h'.holds]

/-- A trie is that of one map. -/
theorem Denotes.map_unique (h : Denotes m t) (h' : Denotes m' t) : m = m' :=
  OrderedMap.ext_lookup fun k => by rw [← h.lookup, h'.lookup]

theorem Denotes.insert (h : Denotes m t) (k x : Bytes) :
    Denotes (m.insert k x) (Patricia.insert t (nibbles k) x) := by
  refine ⟨Patricia.canonical_insert h.canonical _ _, fun ns y => ?_⟩
  rw [Patricia.lookup_insert h.canonical]
  by_cases hns : ns = nibbles k
  · subst hns
    rw [if_pos rfl]
    constructor
    · intro hy
      exact ⟨k, rfl, by rw [OrderedMap.lookup_insert, if_pos rfl, hy]⟩
    · rintro ⟨k', hk', hy⟩
      rwa [nibbles_inj.1 hk', OrderedMap.lookup_insert, if_pos rfl] at hy
  · rw [if_neg hns, h.holds]
    refine exists_congr fun k' => and_congr_right fun hk' => ?_
    rw [OrderedMap.lookup_insert, if_neg (by rintro rfl; exact hns hk'.symm)]

theorem Denotes.erase (h : Denotes m t)
    (hleft : Patricia.remove (.leaf []) t (nibbles k) = some u) :
    Denotes (m.erase k) u := by
  refine ⟨Patricia.canonical_remove h.canonical hleft, fun ns y => ?_⟩
  rw [Patricia.lookup_remove hleft]
  by_cases hns : ns = nibbles k
  · subst hns
    rw [if_pos rfl]
    constructor
    · intro hy
      cases hy
    · rintro ⟨k', hk', hy⟩
      rw [nibbles_inj.1 hk', OrderedMap.lookup_erase, if_pos rfl] at hy
      cases hy
  · rw [if_neg hns, h.holds]
    refine exists_congr fun k' => and_congr_right fun hk' => ?_
    rw [OrderedMap.lookup_erase, if_neg (by rintro rfl; exact hns hk'.symm)]

theorem erase_of_lookup_eq_none (h : m.lookup k = none) : m.erase k = m := by
  refine OrderedMap.ext_lookup fun k' => ?_
  rw [OrderedMap.lookup_erase]
  by_cases hk : k' = k
  · rw [if_pos hk, hk, h]
  · rw [if_neg hk]

/-! Maps with keys of one length. -/

/-- All keys have `n` bytes. -/
def Uniform (n : Nat) (m : BytesMap) : Prop :=
  ∀ k, m.lookup k ≠ none → k.length = n

variable {n : Nat}

theorem uniform_empty : Uniform n {} := fun _ hk => absurd rfl hk

theorem Uniform.insert (h : Uniform n m) (hk : k.length = n) (x : Bytes) :
    Uniform n (m.insert k x) := by
  intro k' hk'
  rw [OrderedMap.lookup_insert] at hk'
  by_cases heq : k' = k
  · rw [heq, hk]
  · rw [if_neg heq] at hk'
    exact h k' hk'

theorem Uniform.erase (h : Uniform n m) (k : Bytes) : Uniform n (m.erase k) := by
  intro k' hk'
  rw [OrderedMap.lookup_erase] at hk'
  by_cases heq : k' = k
  · simp [heq] at hk'
  · rw [if_neg heq] at hk'
    exact h k' hk'

/-- All words of the trie are as long as the key. -/
theorem Denotes.length_eq (h : Denotes m t) (hm : Uniform n m)
    (hk : k.length = n) {ns : List Nibble} (hns : Trie.Has t ns) :
    ns.length = (nibbles k).length := by
  obtain ⟨k', rfl, hk'⟩ := (h.has_iff ns).1 hns
  rw [length_nibbles, length_nibbles, hm k' hk', hk]

theorem Denotes.noStop (h : Denotes m t) (hm : Uniform n m)
    (hk : k.length = n) : Trie.NoStop t (nibbles k) :=
  Trie.noStop_of_forall h.canonical fun _ hq hpre =>
    (hpre.eq_of_length (h.length_eq hm hk hq).symm).symm

theorem Denotes.reaches (h : Denotes m t) (hm : Uniform n m)
    (hk : k.length = n) : Trie.Reaches t (nibbles k) := by
  by_cases hhas : Trie.Has t (nibbles k)
  · exact Trie.reaches_of_has hhas
  · refine (Trie.reaches_iff h.canonical hhas).2 ⟨?_, ?_⟩
    · rintro ⟨x, y, hx, hy, hne⟩
      have hxlen := h.length_eq hm hk hx
      have hylen := h.length_eq hm hk hy
      rw [List.length_append] at hxlen hylen
      have hx0 : x = [] := List.eq_nil_of_length_eq_zero (by omega)
      have hy0 : y = [] := List.eq_nil_of_length_eq_zero (by omega)
      exact hne (by rw [hx0, hy0])
    · rintro ⟨p, hp, hpre, -⟩
      exact hhas (hpre.eq_of_length (h.length_eq hm hk hp) ▸ hp)

theorem Denotes.not_strands (h : Denotes m t) (hm : Uniform n m)
    (hk : k.length = n) (x : Bytes) : ¬ Trie.Strands t (nibbles k) x := by
  intro hstrands
  obtain ⟨p, hp, hpre, hne, -⟩ :=
    (Trie.strands_iff h.canonical (Trie.has_of_strands hstrands) x).1 hstrands
  have hp' : Trie.Has t p := by
    rw [Trie.Has, hp]
    simp
  exact hne (hpre.eq_of_length (h.length_eq hm hk hp'))

end BytesMap

end Web3Core
