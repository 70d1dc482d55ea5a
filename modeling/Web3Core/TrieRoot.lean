/-
The root of a map, built in one go, is the hash of its canonical trie.
-/
import Web3Core.TrieBulk
import Web3Core.TrieMap

namespace Web3Core

open Nibble (toByte)

theorem asNibbles_eq (k : Bytes) : asNibbles k = (nibbles k).map toByte := by
  have hhigh : ∀ x : Byte, x / 16 = (Nibble.high x).toByte := by
    intro x
    apply UInt8.toNat_inj.1
    rw [Nibble.toNat_toByte, UInt8.toNat_div]
    rfl
  have hlow : ∀ x : Byte, x % 16 = (Nibble.low x).toByte := by
    intro x
    apply UInt8.toNat_inj.1
    rw [Nibble.toNat_toByte, UInt8.toNat_mod]
    rfl
  induction k with
  | nil => rfl
  | cons x k ih =>
      rw [asNibbles, List.flatMap_cons, ← asNibbles, ih, nibbles, hhigh, hlow]
      rfl

theorem asNibbles_inj {k k' : Bytes} : asNibbles k = asNibbles k' ↔ k = k' := by
  have hinj : Function.Injective toByte := fun _ _ => Nibble.toByte_inj.1
  rw [asNibbles_eq, asNibbles_eq, (List.map_injective_iff.2 hinj).eq_iff,
    nibbles_inj]

theorem lookup_hexMapFold {entries : List (Bytes × Bytes)}
    (hordered : entries.Pairwise fun a b => a.1 < b.1) (key x : Bytes) :
    (entries.foldr (fun i hexMap => OrderedMap.insert hexMap (asNibbles i.1) i.2)
        {}).lookup key = some x ↔
      ∃ k, asNibbles k = key ∧ (k, x) ∈ entries := by
  induction entries with
  | nil => simp
  | cons e entries ih =>
      obtain ⟨k, y⟩ := e
      obtain ⟨hhead, htail⟩ := List.pairwise_cons.1 hordered
      rw [List.foldr_cons, OrderedMap.lookup_insert]
      by_cases hkey : key = asNibbles k
      · subst hkey
        rw [if_pos rfl]
        constructor
        · rintro heq
          cases heq
          exact ⟨k, rfl, List.mem_cons_self⟩
        · rintro ⟨k', hk', hmem⟩
          obtain rfl := asNibbles_inj.1 hk'
          rcases List.mem_cons.1 hmem with heq | hmem
          · cases heq
            rfl
          · exact absurd (hhead _ hmem) (lt_irrefl _)
      · rw [if_neg hkey, ih htail]
        refine exists_congr fun k' => and_congr_right fun hk' => ?_
        rw [List.mem_cons]
        refine ⟨.inr, fun h => h.resolve_left ?_⟩
        intro heq
        cases heq
        exact hkey hk'.symm

theorem lookup_hexMapOf (s : BytesMap) (key x : Bytes) :
    (hexMapOf s).lookup key = some x ↔
      ∃ k, asNibbles k = key ∧ s.lookup k = some x := by
  simp only [OrderedMap.lookup_eq_some_iff (m := s)]
  rw [← lookup_hexMapFold s.ordered, hexMapOf, List.foldl_reverse]

/-- The entries of the map by the words of their keys, in order. -/
def hexEntries (s : BytesMap) : HexEntries :=
  (hexMapOf s).entries.map fun e => (e.1.map Nibble.low, e.2)

theorem map_low_asNibbles (k : Bytes) :
    (asNibbles k).map Nibble.low = nibbles k := by
  have hround : ∀ n : Nibble, Nibble.low n.toByte = n := by decide
  rw [asNibbles_eq, List.map_map]
  conv_rhs => rw [← List.map_id (nibbles k)]
  exact List.map_congr_left fun n _ => hround n

theorem hexRange_hexEntries (s : BytesMap) :
    hexRange (hexEntries s) = (hexMapOf s).entries := by
  rw [hexRange, hexEntries, List.map_map]
  conv_rhs => rw [← List.map_id (hexMapOf s).entries]
  refine List.map_congr_left fun e he => ?_
  obtain ⟨key, x⟩ := e
  obtain ⟨k, rfl, -⟩ :=
    (lookup_hexMapOf s key x).1 (OrderedMap.lookup_eq_some_iff.2 he)
  show ((asNibbles k).map Nibble.low |>.map toByte, x) = (asNibbles k, x)
  rw [map_low_asNibbles, asNibbles_eq]

theorem mem_hexEntries (s : BytesMap) (ns : List Nibble) (x : Bytes) :
    (ns, x) ∈ hexEntries s ↔ ∃ k, nibbles k = ns ∧ s.lookup k = some x := by
  rw [hexEntries, List.mem_map]
  constructor
  · rintro ⟨⟨key, y⟩, he, heq⟩
    obtain ⟨rfl, rfl⟩ := Prod.mk.inj heq
    obtain ⟨k, rfl, hk⟩ :=
      (lookup_hexMapOf s key y).1 (OrderedMap.lookup_eq_some_iff.2 he)
    exact ⟨k, (map_low_asNibbles k).symm, hk⟩
  · rintro ⟨k, rfl, hk⟩
    exact ⟨(asNibbles k, x), OrderedMap.lookup_eq_some_iff.1
      ((lookup_hexMapOf s _ x).2 ⟨k, rfl, hk⟩),
      by rw [map_low_asNibbles]⟩

theorem lt_hexFuel {s : BytesMap} {e : Bytes × Bytes} (he : e ∈ s.entries) :
    e.1.length * 2 < hexFuel s := by
  have hall : ∀ entries : List (Bytes × Bytes), e ∈ entries →
      e.1.length * 2 + 2 ≤
        entries.foldr (fun e n => max (e.1.length * 2 + 2) n) 0 := by
    intro entries
    induction entries with
    | nil => exact fun h => absurd h List.not_mem_nil
    | cons a entries ih =>
        intro h
        rw [List.foldr_cons]
        rcases List.mem_cons.1 h with rfl | h
        · omega
        · have := ih h
          omega
  have := hall s.entries he
  rw [hexFuel]
  omega

namespace BytesMap

/-- What a map may hold: values that can be stored, under keys with fewer
nibbles than the counters of the code can count. -/
structure Fits (s : BytesMap) : Prop where
  storable : ∀ k x, s.lookup k = some x → Trie.Storable x
  short : ∀ k, s.lookup k ≠ none → k.length < 2 ^ 30

theorem fits_empty : Fits {} where
  storable _ _ h := by cases h
  short _ h := absurd rfl h

theorem Fits.insert {s : BytesMap} (h : s.Fits) {k x : Bytes}
    (hk : k.length < 2 ^ 30) (hx : Trie.Storable x) : Fits (s.insert k x) := by
  refine ⟨fun k' y hy => ?_, fun k' hk' => ?_⟩
  · rw [OrderedMap.lookup_insert] at hy
    split at hy
    · cases hy
      exact hx
    · exact h.storable k' y hy
  · rw [OrderedMap.lookup_insert] at hk'
    split at hk'
    · rename_i heq
      rwa [heq]
    · exact h.short k' hk'

theorem Fits.erase {s : BytesMap} (h : s.Fits) (k : Bytes) :
    Fits (s.erase k) := by
  refine ⟨fun k' y hy => ?_, fun k' hk' => ?_⟩
  · rw [OrderedMap.lookup_erase] at hy
    split at hy
    · cases hy
    · exact h.storable k' y hy
  · rw [OrderedMap.lookup_erase] at hk'
    split at hk'
    · exact absurd rfl hk'
    · exact h.short k' hk'

end BytesMap

theorem bulk_hexEntries {s : BytesMap} (h : s.Fits) :
    Bulk (hexFuel s) [] (hexEntries s) := by
  have hfind : ∀ e ∈ hexEntries s, ∃ k, nibbles k = e.1 ∧ s.lookup k = some e.2 :=
    fun e he => (mem_hexEntries s e.1 e.2).1 he
  refine ⟨?_, fun e _ => List.nil_prefix, fun e he => ?_, fun e he => ?_,
    fun e he => ?_⟩
  · have hordered := (hexMapOf s).ordered
    rw [← hexRange_hexEntries, hexRange, List.pairwise_map] at hordered
    exact hordered
  · obtain ⟨k, -, hk⟩ := hfind e he
    exact h.storable k e.2 hk
  · obtain ⟨k, hk, hx⟩ := hfind e he
    have := h.short k (by rw [hx]; simp)
    rw [← hk, length_nibbles]
    omega
  · obtain ⟨k, hk, hx⟩ := hfind e he
    have hlt : k.length * 2 < hexFuel s :=
      lt_hexFuel (OrderedMap.lookup_eq_some_iff.1 hx)
    rw [← hk, length_nibbles, List.length_nil]
    omega

variable {sha3 : Bytes → H256} {s : BytesMap} {t : Trie}

/-- A map within the bounds has a canonical trie, which is what the bulk
builder writes. -/
theorem exists_rlp256 (sha3 : Bytes → H256) (h : s.Fits) :
    ∃ t, s.Denotes t ∧ Trie.Within (2 ^ 31 - 1) 0 t ∧
      rlp256 sha3 s = .ok (Trie.enc sha3 t) := by
  by_cases hnil : s.entries = []
  · refine ⟨.empty, ?_, trivial, ?_⟩
    · have hs : s = {} := by
        cases s
        cases hnil
        rfl
      rw [hs]
      exact BytesMap.denotes_empty
    · rw [rlp256, if_pos hnil, Trie.enc_empty]
      rfl
  · have hne : hexEntries s ≠ [] := by
      obtain ⟨e, es, he⟩ := List.exists_cons_of_ne_nil hnil
      have hmem : s.lookup e.1 = some e.2 := by
        rw [OrderedMap.lookup_eq_some_iff, he]
        exact List.mem_cons_self
      exact List.ne_nil_of_mem ((mem_hexEntries s _ e.2).2 ⟨e.1, rfl, hmem⟩)
    obtain ⟨t, ht, -, stream, hstream, hout⟩ :=
      builds (hexFuel s) (bulk_hexEntries h) hne
    rw [hexRange_hexEntries] at hstream
    refine ⟨t, ⟨ht.canonical, fun ns x => ?_⟩, ht.within, ?_⟩
    · rw [ht.lookup, List.nil_append, mem_hexEntries]
    · rw [List.length_nil] at hstream
      rw [rlp256, if_neg hnil, hstream, ok_bind, hout]

/-- `hash256` is the hash of the map's canonical trie. -/
theorem BytesMap.Denotes.hash256_eq (sha3 : Bytes → H256) (h : s.Denotes t)
    (hfits : s.Fits) : hash256 sha3 s = .ok (Trie.hash sha3 t) := by
  obtain ⟨u, hu, -, hrlp⟩ := exists_rlp256 sha3 hfits
  rw [hash256, hrlp, ok_bind, h.trie_unique hu]
  rfl

end Web3Core
