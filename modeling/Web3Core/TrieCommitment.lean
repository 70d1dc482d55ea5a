/-
The root commits to the whole map.  As long as the hash is injective on the
nodes that are hashed, equal roots are the roots of equal tries, and a trie
holds one map.
-/
import Web3Core.RLPInt
import Web3Core.RLPRoundTrip
import Web3Core.TrieContents

namespace Web3Core

namespace Trie

variable {sha3 : Bytes → H256} {t u : Trie} {d d' : Nat}

/-- The encodings of a trie's nodes that are referred to by their hash. -/
def hashedIn (sha3 : Bytes → H256) : Trie → Set Bytes
  | .empty => ∅
  | .leaf _ _ => ∅
  | .ext _ child =>
      { b | Big sha3 child ∧ b = enc sha3 child } ∪ hashedIn sha3 child
  | .branch slots _ =>
      ⋃ i, { b | Big sha3 (slots i) ∧ b = enc sha3 (slots i) } ∪
        hashedIn sha3 (slots i)

/-- What is hashed to get the root of a trie. -/
def hashed (sha3 : Bytes → H256) (t : Trie) : Set Bytes :=
  insert (enc sha3 t) (hashedIn sha3 t)

/-- The same strings as a list. -/
def hashedNodes (sha3 : Bytes → H256) : Trie → List Bytes
  | .empty => []
  | .leaf _ _ => []
  | .ext _ child =>
      (if Big sha3 child then [enc sha3 child] else []) ++ hashedNodes sha3 child
  | .branch slots _ => (List.ofFn fun i =>
      (if Big sha3 (slots i) then [enc sha3 (slots i)] else []) ++
        hashedNodes sha3 (slots i)).flatten

theorem mem_hashedNodes_iff {sha3 : Bytes → H256} {t : Trie} {b : Bytes} :
    b ∈ hashedNodes sha3 t ↔ b ∈ hashedIn sha3 t := by
  -- What a child adds to the list is what it adds to the set.
  have hchild : ∀ c : Trie, (b ∈ hashedNodes sha3 c ↔ b ∈ hashedIn sha3 c) →
      (b ∈ (if Big sha3 c then [enc sha3 c] else []) ++ hashedNodes sha3 c ↔
        b ∈ { b | Big sha3 c ∧ b = enc sha3 c } ∪ hashedIn sha3 c) := by
    intro c ih
    rw [List.mem_append, Set.mem_union, ih]
    refine or_congr_left ?_
    split
    · next hbig => simp [hbig]
    · next hsmall => simp [hsmall]
  induction t with
  | empty => simp [hashedNodes, hashedIn]
  | leaf key value => simp [hashedNodes, hashedIn]
  | ext key child ih => exact hchild child ih
  | branch slots value ih =>
      rw [hashedNodes, hashedIn, List.mem_flatten, Set.mem_iUnion]
      simp only [List.mem_ofFn, exists_exists_eq_and]
      exact exists_congr fun i => hchild (slots i) (ih i)

/-- Whether the nodes of two tries have different hashes can be decided. -/
theorem injOn_hashed {sha3 : Bytes → H256} {t t' : Trie}
    (h : ∀ v ∈ enc sha3 t :: hashedNodes sha3 t ++
        enc sha3 t' :: hashedNodes sha3 t',
      ∀ w ∈ enc sha3 t :: hashedNodes sha3 t ++
        enc sha3 t' :: hashedNodes sha3 t', sha3 v = sha3 w → v = w) :
    Set.InjOn sha3 (hashed sha3 t ∪ hashed sha3 t') := by
  have hmem : ∀ v ∈ hashed sha3 t ∪ hashed sha3 t',
      v ∈ enc sha3 t :: hashedNodes sha3 t ++
        enc sha3 t' :: hashedNodes sha3 t' := by
    intro v hv
    simp only [hashed, Set.mem_union, Set.mem_insert_iff,
      ← mem_hashedNodes_iff] at hv
    simp only [List.cons_append, List.mem_cons, List.mem_append]
    tauto
  exact fun v hv w hw => h v (hmem v hv) w (hmem w hw)

/-- The items of a branch tell what it holds for its children and its value,
where no value is the same as an empty one. -/
theorem branchItems_inj {slots slots' : Nibble → RLPTree}
    {value value' : Option Bytes}
    (h : branchItems slots value = branchItems slots' value') :
    (∀ i, slots i = slots' i) ∧ value.getD [] = value'.getD [] := by
  constructor
  · intro i
    have hitem := branchItems_slot slots value i
    rw [h, branchItems_slot, Option.some.injEq] at hitem
    exact hitem.symm
  · have hitem := branchItems_value slots value
    rw [h, branchItems_value, Option.some.injEq, RLPTree.data.injEq] at hitem
    exact hitem.symm

/-- A node of two items is no branch. -/
theorem pair_ne_branchItems {a b : RLPTree} {slots : Nibble → RLPTree}
    {value : Option Bytes} :
    RLPTree.list [a, b] ≠ .list (branchItems slots value) := by
  intro h
  rw [RLPTree.list.injEq] at h
  have hlength := congrArg List.length h
  rw [length_branchItems] at hlength
  cases hlength

/-- A node of two items tells its mark, its key and its second item. -/
theorem pair_inj {leaf leaf' : Bool} {key key' : List Nibble} {a b : RLPTree}
    (h : RLPTree.list [.data (hexPrefix leaf key), a] =
      .list [.data (hexPrefix leaf' key'), b]) :
    leaf = leaf' ∧ key = key' ∧ a = b := by
  rw [RLPTree.list.injEq, List.cons.injEq, List.cons.injEq,
    RLPTree.data.injEq] at h
  obtain ⟨hkey, hitem, -⟩ := h
  obtain ⟨hleaf, hkey⟩ := hexPrefix_inj hkey
  exact ⟨hleaf, hkey, hitem⟩

/-- Values that can be stored are not taken for no value. -/
theorem value_eq_of_getD_eq {value value' : Option Bytes}
    (hvalue : ∀ x, value = some x → Storable x)
    (hvalue' : ∀ x, value' = some x → Storable x)
    (h : value.getD [] = value'.getD []) : value = value' := by
  cases value with
  | none =>
      cases value' with
      | none => rfl
      | some y => exact absurd h.symm (hvalue' y rfl).1
  | some x =>
      cases value' with
      | none => exact absurd h (hvalue x rfl).1
      | some y => rw [show x = y from h]

/-- What a node holds for a child tells the child's node. -/
theorem node_eq_of_ref_eq (hinj : Big sha3 t → Big sha3 u →
      hash sha3 t = hash sha3 u → enc sha3 t = enc sha3 u)
    (ht : Within (2 ^ 31 - 1) d t) (hu : Within (2 ^ 31 - 1) d' u)
    (h : ref sha3 t = ref sha3 u) : node sha3 t = node sha3 u := by
  have hshort : ∀ {v w : Trie}, Big sha3 v → ¬ Big sha3 w →
      ref sha3 v ≠ ref sha3 w := by
    intro v w hv hw heq
    rw [ref_of_big hv, ref_of_not_big hw] at heq
    have hw' : w = .empty := by
      by_contra hne
      have hlist := @node_isList sha3 w hne
      rw [← heq] at hlist
      cases hlist
    subst hw'
    have hlen := congrArg RLPTree.payload heq
    have hsize := (hash sha3 v).size_data
    rw [RLPTree.payload] at hlen
    rw [hlen] at hsize
    cases hsize
  by_cases hbig : Big sha3 t
  · by_cases hbig' : Big sha3 u
    · rw [ref_of_big hbig, ref_of_big hbig', RLPTree.data.injEq] at h
      exact RLPTree.encode_inj (ht.fits sha3 le_rfl) (hu.fits sha3 le_rfl)
        (hinj hbig hbig' (FixedHash.ext h))
    · exact absurd h (hshort hbig hbig')
  · by_cases hbig' : Big sha3 u
    · exact absurd h.symm (hshort hbig' hbig)
    · rwa [ref_of_not_big hbig, ref_of_not_big hbig'] at h

/-- A trie can be told from its top node. -/
theorem eq_of_node_eq (hinj : Set.InjOn sha3 (hashedIn sha3 t ∪ hashedIn sha3 u))
    (ht : Within (2 ^ 31 - 1) d t) (hu : Within (2 ^ 31 - 1) d' u)
    (h : node sha3 t = node sha3 u) : t = u := by
  induction t generalizing u d d' with
  | empty =>
      cases u with
      | empty => rfl
      | leaf | ext | branch => cases h
  | leaf key value =>
      cases u with
      | empty => cases h
      | leaf key' value' =>
          obtain ⟨-, rfl, hvalue⟩ := pair_inj h
          rw [RLPTree.data.injEq] at hvalue
          rw [hvalue]
      | ext key' child' => cases (pair_inj h).1
      | branch slots' value' => exact absurd h pair_ne_branchItems
  | ext key child ih =>
      cases u with
      | empty => cases h
      | leaf key' value' => cases (pair_inj h).1
      | ext key' child' =>
          obtain ⟨-, rfl, hchild⟩ := pair_inj h
          have hnode := node_eq_of_ref_eq (fun hbig hbig' heq =>
            hinj (.inl (.inl ⟨hbig, rfl⟩)) (.inr (.inl ⟨hbig', rfl⟩)) heq)
            ht.2.2.2 hu.2.2.2 hchild
          rw [ih (hinj.mono (Set.union_subset_union Set.subset_union_right
            Set.subset_union_right)) ht.2.2.2 hu.2.2.2 hnode]
      | branch slots' value' => exact absurd h pair_ne_branchItems
  | branch slots value ih =>
      cases u with
      | empty => cases h
      | leaf key' value' => exact absurd h.symm pair_ne_branchItems
      | ext key' child' => exact absurd h.symm pair_ne_branchItems
      | branch slots' value' =>
          rw [node_branch, node_branch, RLPTree.list.injEq] at h
          obtain ⟨hrefs, hvalue⟩ := branchItems_inj h
          have hslot : ∀ {slots : Nibble → Trie} {value : Option Bytes} {i b},
              (Big sha3 (slots i) ∧ b = enc sha3 (slots i)) ∨
                b ∈ hashedIn sha3 (slots i) →
              b ∈ hashedIn sha3 (.branch slots value) :=
            fun hb => Set.mem_iUnion.2 ⟨_, hb⟩
          have hslots : ∀ i, slots i = slots' i := by
            intro i
            have hnode := node_eq_of_ref_eq (fun hbig hbig' heq =>
              hinj (.inl (hslot (.inl ⟨hbig, rfl⟩)))
                (.inr (hslot (.inl ⟨hbig', rfl⟩))) heq)
              (ht.2.1 i) (hu.2.1 i) (hrefs i)
            exact ih i (hinj.mono (Set.union_subset_union
              (fun b hb => hslot (.inr hb)) fun b hb => hslot (.inr hb)))
              (ht.2.1 i) (hu.2.1 i) hnode
          rw [funext hslots, value_eq_of_getD_eq ht.2.2 hu.2.2 hvalue]

/-- A trie can be told from its root. -/
theorem eq_of_hash_eq (hinj : Set.InjOn sha3 (hashed sha3 t ∪ hashed sha3 u))
    (ht : Within (2 ^ 31 - 1) d t) (hu : Within (2 ^ 31 - 1) d' u)
    (h : hash sha3 t = hash sha3 u) : t = u := by
  have henc : enc sha3 t = enc sha3 u :=
    hinj (.inl (Set.mem_insert _ _)) (.inr (Set.mem_insert _ _)) h
  refine eq_of_node_eq (hinj.mono (Set.union_subset_union
    (Set.subset_insert _ _) (Set.subset_insert _ _))) ht hu ?_
  exact RLPTree.encode_inj (ht.fits sha3 le_rfl) (hu.fits sha3 le_rfl) henc

end Trie

section Maps

variable {sha3 : Bytes → H256} {m m' : BytesMap}

/-- What is hashed to get the root of a map. -/
def BytesMap.hashed (sha3 : Bytes → H256) (m : BytesMap) : Set Bytes :=
  { b | ∃ t, m.Denotes t ∧ b ∈ Trie.hashed sha3 t }

theorem BytesMap.eq_of_hash256_eq (hm : m.Fits) (hm' : m'.Fits)
    (hinj : Set.InjOn sha3 (m.hashed sha3 ∪ m'.hashed sha3))
    (h : hash256 sha3 m = hash256 sha3 m') : m = m' := by
  obtain ⟨t, ht, hwithin, -⟩ := exists_rlp256 sha3 hm
  obtain ⟨u, hu, hwithin', -⟩ := exists_rlp256 sha3 hm'
  rw [ht.hash256_eq sha3 hm, hu.hash256_eq sha3 hm', Except.ok.injEq] at h
  have hsub : Trie.hashed sha3 t ⊆ m.hashed sha3 := fun b hb => ⟨t, ht, hb⟩
  have hsub' : Trie.hashed sha3 u ⊆ m'.hashed sha3 := fun b hb => ⟨u, hu, hb⟩
  have heq : t = u := Trie.eq_of_hash_eq
    (hinj.mono (Set.union_subset_union hsub hsub')) hwithin hwithin' h
  subst heq
  exact ht.map_unique hu

/-! Lists, as maps from the encodings of their indices. -/

/-- The key of the item with the index `n`. -/
def indexKey (n : Nat) : Bytes := RLPTree.encode (.data (bigEndian n))

theorem bytesRequired_le_four {n : Nat} (hn : n < 2 ^ 32) :
    bytesRequired n ≤ 4 :=
  (bytesRequired_le_iff n 4).2 (by omega)

theorem rlpUnsigned_eq {n : Nat} (hn : n < 2 ^ 32) :
    rlpUnsigned n = .ok (indexKey n) := by
  have hbr := bytesRequired_le_four hn
  have hlen := RLPTree.length_encodeData_le (b := bigEndian n)
    (by rw [length_bigEndian]; omega)
  rw [length_bigEndian] at hlen
  rw [rlpUnsigned, RLPTree.appendInt_eq_write _ (by omega)]
  exact RLPTree.out_write (.int n) (by rw [RLPTree.int]; omega)

theorem indexKey_inj {n n' : Nat} (hn : n < 2 ^ 32) (hn' : n' < 2 ^ 32)
    (h : indexKey n = indexKey n') : n = n' := by
  have hfits : ∀ {n : Nat}, n < 2 ^ 32 → (RLPTree.data (bigEndian n)).Fits := by
    intro n hn
    have hbr := bytesRequired_le_four hn
    have hlen := RLPTree.length_encodeData_le (b := bigEndian n)
      (by rw [length_bigEndian]; omega)
    rw [length_bigEndian] at hlen
    rw [RLPTree.Fits]
    omega
  have hdata := RLPTree.encode_inj (hfits hn) (hfits hn') h
  rw [RLPTree.data.injEq] at hdata
  rw [← fromBigEndian_bigEndian n, hdata, fromBigEndian_bigEndian]

/-- The items of a list by the keys of their indices. -/
def indexMap (data : List Bytes) : BytesMap :=
  data.zipIdx.foldl (fun m e => m.insert (indexKey e.2) e.1) {}

theorem indexMap_append (data : List Bytes) (x : Bytes) :
    indexMap (data ++ [x]) = (indexMap data).insert (indexKey data.length) x := by
  simp [indexMap, List.zipIdx_append]

theorem lookup_indexMap {data : List Bytes} (hlen : data.length ≤ 2 ^ 32)
    (key x : Bytes) :
    (indexMap data).lookup key = some x ↔
      ∃ n, indexKey n = key ∧ data[n]? = some x := by
  induction data using List.reverseRecOn with
  | nil => simp [indexMap]
  | append_singleton data y ih =>
      rw [List.length_append, List.length_singleton] at hlen
      have hget : ∀ n, (data ++ [y])[n]? = some x ↔
          data[n]? = some x ∨ (n = data.length ∧ y = x) := by
        intro n
        rcases Nat.lt_trichotomy n data.length with hlt | rfl | hgt
        · rw [List.getElem?_append_left hlt]
          simp [hlt.ne]
        · simp
        · have hnone : data[n]? = none := List.getElem?_eq_none hgt.le
          rw [List.getElem?_append_right hgt.le, List.getElem?_eq_none (by simp; omega),
            hnone]
          simp [hgt.ne']
      have hlt : ∀ {n}, data[n]? = some x → n < data.length := fun h =>
        (List.getElem?_eq_some_iff.1 h).1
      rw [indexMap_append, OrderedMap.lookup_insert]
      simp only [hget]
      by_cases hkey : key = indexKey data.length
      · subst hkey
        rw [if_pos rfl]
        constructor
        · intro heq
          exact ⟨data.length, rfl, .inr ⟨rfl, Option.some.inj heq⟩⟩
        · rintro ⟨n, hn, hx | ⟨-, rfl⟩⟩
          · have hne := indexKey_inj (by have := hlt hx; omega) (by omega) hn
            exact absurd (hlt hx) (by omega)
          · rfl
      · rw [if_neg hkey, ih (by omega)]
        refine exists_congr fun n => and_congr_right fun hn => ?_
        refine ⟨.inl, fun h => h.resolve_right ?_⟩
        rintro ⟨rfl, -⟩
        exact hkey hn.symm

theorem orderedTrieRoot_fold {data : List Bytes} (hlen : data.length ≤ 2 ^ 32) :
    data.foldlM (fun (r : BytesMap × Nat) i => do
      let key ← rlpUnsigned r.2
      .ok (r.1.insert key i, toUnsigned (r.2 + 1))) ({}, 0) =
      (.ok (indexMap data, toUnsigned data.length) :
        Except Exception (BytesMap × Nat)) := by
  induction data using List.reverseRecOn with
  | nil => rfl
  | append_singleton data x ih =>
      rw [List.length_append, List.length_singleton] at hlen
      have hlt : data.length < 2 ^ 32 := by omega
      rw [List.foldlM_append, ih (by omega), ok_bind, List.foldlM_cons,
        toUnsigned_of_lt hlt, rlpUnsigned_eq hlt, indexMap_append,
        List.length_append, List.length_singleton, Nat.cast_add]
      rfl

theorem orderedTrieRoot_eq {data : List Bytes} (hlen : data.length ≤ 2 ^ 32) :
    orderedTrieRoot sha3 data = hash256 sha3 (indexMap data) := by
  rw [orderedTrieRoot, orderedTrieRoot_fold hlen, ok_bind]

theorem fits_indexMap {data : List Bytes} (hlen : data.length ≤ 2 ^ 32)
    (hdata : ∀ x ∈ data, Trie.Storable x) : (indexMap data).Fits := by
  refine ⟨fun k x hx => ?_, fun k hk => ?_⟩
  · obtain ⟨n, -, hn⟩ := (lookup_indexMap hlen k x).1 hx
    exact hdata x (List.mem_of_getElem? hn)
  · obtain ⟨x, hx⟩ := Option.ne_none_iff_exists'.1 hk
    obtain ⟨n, rfl, hn⟩ := (lookup_indexMap hlen k x).1 hx
    have hlt := (List.getElem?_eq_some_iff.1 hn).1
    have hbr := bytesRequired_le_four (show n < 2 ^ 32 by omega)
    have hkey := RLPTree.length_encodeData_le (b := bigEndian n)
      (by rw [length_bigEndian]; omega)
    rw [length_bigEndian] at hkey
    show (RLPTree.encode (.data (bigEndian n))).length < 2 ^ 30
    omega

theorem indexMap_inj {data data' : List Bytes} (hlen : data.length ≤ 2 ^ 32)
    (hlen' : data'.length ≤ 2 ^ 32) (h : indexMap data = indexMap data') :
    data = data' := by
  have hsub : ∀ {data data' : List Bytes}, data.length ≤ 2 ^ 32 →
      data'.length ≤ 2 ^ 32 → indexMap data = indexMap data' →
      ∀ (n : Nat) (x : Bytes), data[n]? = some x → data'[n]? = some x := by
    intro data data' hlen hlen' h n x hx
    have hlookup := (lookup_indexMap hlen (indexKey n) x).2 ⟨n, rfl, hx⟩
    rw [h] at hlookup
    obtain ⟨n', hkey, hx'⟩ := (lookup_indexMap hlen' (indexKey n) x).1 hlookup
    have hn := (List.getElem?_eq_some_iff.1 hx).1
    have hn' := (List.getElem?_eq_some_iff.1 hx').1
    rwa [indexKey_inj (by omega) (by omega) hkey] at hx'
  refine List.ext_getElem? fun n => ?_
  ext x
  exact ⟨hsub hlen hlen' h n x, hsub hlen' hlen h.symm n x⟩

/-- Equal roots are the roots of equal maps, and of equal lists. -/
theorem roots_commit :
    (∀ m m' : BytesMap, m.Fits → m'.Fits →
      Set.InjOn sha3 (m.hashed sha3 ∪ m'.hashed sha3) →
      hash256 sha3 m = hash256 sha3 m' → m = m') ∧
    ∀ data data' : List Bytes, (∀ x ∈ data, Trie.Storable x) →
      (∀ x ∈ data', Trie.Storable x) → data.length ≤ 2 ^ 32 →
      data'.length ≤ 2 ^ 32 →
      Set.InjOn sha3
        ((indexMap data).hashed sha3 ∪ (indexMap data').hashed sha3) →
      orderedTrieRoot sha3 data = orderedTrieRoot sha3 data' →
        data = data' := by
  refine ⟨fun m m' hm hm' => BytesMap.eq_of_hash256_eq hm hm', ?_⟩
  intro data data' hdata hdata' hlen hlen' hinj h
  rw [orderedTrieRoot_eq hlen, orderedTrieRoot_eq hlen'] at h
  exact indexMap_inj hlen hlen' (BytesMap.eq_of_hash256_eq
    (fits_indexMap hlen hdata) (fits_indexMap hlen' hdata') hinj h)

theorem BytesMap.Denotes.hashed_eq {t : Trie} (h : m.Denotes t) :
    m.hashed sha3 = Trie.hashed sha3 t := by
  ext b
  constructor
  · rintro ⟨u, hu, hb⟩
    rwa [hu.trie_unique h] at hb
  · exact fun hb => ⟨t, h, hb⟩

/-- A value that is too long for the node above its own. -/
def longValue (x : Byte) : Bytes := x :: List.replicate 39 0

/-- Two keys that part in their second nibble. -/
def forkedMap (x : Byte) : BytesMap :=
  (OrderedMap.insert {} [0x12] (longValue x)).insert [0x13] (longValue 3)

/-- Two maps with one different value, whose tries are an extension over a branch
with two hashed leaves, and two lists with one different item, whose tries are
branches below a branch. -/
theorem roots_commit_forked :
    hash256 frontHash (forkedMap 1) ≠ hash256 frontHash (forkedMap 2) ∧
      orderedTrieRoot frontHash [[1], [2], [3]] ≠
        orderedTrieRoot frontHash [[1], [4], [3]] := by
  have hfits : ∀ x, (forkedMap x).Fits := fun x =>
    (BytesMap.fits_empty.insert (by decide) (by simp [Trie.Storable, longValue])).insert
      (by decide) (by simp [Trie.Storable, longValue])
  have hmap : ∀ x, (forkedMap x).Denotes _ := fun x =>
    (BytesMap.denotes_empty.insert [0x12] (longValue x)).insert [0x13] (longValue 3)
  have hlist : ∀ x, (indexMap [[1], [x], [3]]).Denotes _ := fun x =>
    ((BytesMap.denotes_empty.insert (indexKey 0) [1]).insert (indexKey 1) [x]).insert
      (indexKey 2) [3]
  constructor
  · intro h
    have heq := roots_commit.1 _ _ (hfits 1) (hfits 2) (by
      rw [(hmap 1).hashed_eq, (hmap 2).hashed_eq]
      exact Trie.injOn_hashed (by decide +kernel)) h
    have hvalue := congrArg (fun m => OrderedMap.lookup m [0x12]) heq
    exact absurd hvalue (by decide)
  · intro h
    have heq := roots_commit.2 [[1], [2], [3]] [[1], [4], [3]]
      (by simp [Trie.Storable]) (by simp [Trie.Storable]) (by simp) (by simp) (by
        rw [(hlist 2).hashed_eq, (hlist 4).hashed_eq]
        exact Trie.injOn_hashed (by decide +kernel)) h
    cases heq

/-- A list with one item more than indices: the last item takes the place of
the first. -/
theorem orderedTrieRoot_wraps {n : Nat} (hn : n = 2 ^ 32) (x y z : Bytes) :
    orderedTrieRoot sha3 (x :: List.replicate n z) =
      orderedTrieRoot sha3 (y :: List.replicate n z) := by
  obtain ⟨k, rfl⟩ : ∃ k, n = k + 1 := ⟨n - 1, by omega⟩
  have hlen : ∀ x : Bytes, (x :: List.replicate k z).length = 2 ^ 32 := by
    intro x
    rw [List.length_cons, List.length_replicate, hn]
  have hzero : toUnsigned ((2 ^ 32 : Nat) : Int) = 0 := by decide
  have hkey : rlpUnsigned 0 = .ok (indexKey 0) := by decide
  have hfold : ∀ x : Bytes, orderedTrieRoot sha3 (x :: List.replicate (k + 1) z) =
      hash256 sha3 ((indexMap (x :: List.replicate k z)).insert
        (indexKey 0) z) := by
    intro x
    rw [orderedTrieRoot, List.replicate_succ', ← List.cons_append,
      List.foldlM_append, orderedTrieRoot_fold (hlen x).le, ok_bind,
      List.foldlM_cons, hlen, hzero, hkey, ok_bind]
    rfl
  have hmap : (indexMap (x :: List.replicate k z)).insert (indexKey 0) z =
      (indexMap (y :: List.replicate k z)).insert (indexKey 0) z := by
    refine OrderedMap.ext_lookup fun key => ?_
    rw [OrderedMap.lookup_insert, OrderedMap.lookup_insert]
    by_cases hkey : key = indexKey 0
    · rw [if_pos hkey, if_pos hkey]
    · rw [if_neg hkey, if_neg hkey]
      ext b
      rw [lookup_indexMap (hlen x).le, lookup_indexMap (hlen y).le]
      refine exists_congr fun n => and_congr_right fun hn => ?_
      cases n with
      | zero => exact absurd hn.symm hkey
      | succ n => rw [List.getElem?_cons_succ, List.getElem?_cons_succ]
  rw [hfold, hfold, hmap]

/-- The root of a single entry whose key is taken for the empty one. -/
theorem Wraps.hash256_insert {k : Bytes} (hk : Wraps k) :
    hash256 sha3 (OrderedMap.insert {} k [1]) = .ok (sha3 [0xc2, 0x20, 1]) := by
  have hmod : k.length % 2 ^ 31 = 0 := hk
  have hlen : (asNibbles k).length = k.length * 2 := by
    rw [asNibbles_eq, List.length_map, length_nibbles]
  have hkey : hexPrefixEncode (asNibbles k) true (toInt (0 : Nat)) =
      .ok [0x20] := by
    have hfirst : toUnsigned (toInt ((0 : Nat) : Int)) = 0 := by decide
    have hlast : toUnsigned ((asNibbles k).length + 1 + -1) = 0 := by
      rw [hlen, toUnsigned]
      omega
    have hneg : (-1 : Int) < 0 := by decide
    simp only [hexPrefixEncode, hfirst, hneg, ↓reduceIte, hlast]
    rfl
  have hentries : (hexMapOf (OrderedMap.insert {} k [1])).entries =
      [(asNibbles k, [1])] := rfl
  have hfuel : hexFuel (OrderedMap.insert {} k [1]) = k.length * 2 + 1 + 1 := rfl
  have hsome : (OrderedMap.insert {} k [1] : BytesMap).entries ≠ [] := by
    show [(k, ([1] : Bytes))] ≠ []
    simp
  have happend : RLPStream.appendList {} 2 =
      .ok (RLPTree.partialList [.data [0x20], .data [1]] 0) :=
    appendList_pair (.data [0x20]) (.data [1])
  rw [hash256, rlp256, if_neg hsome, hfuel, hentries, hash256rlp, happend,
    ok_bind, hkey, ok_bind]
  rfl

/-- A key of 2^31 bytes and the empty key get one root, and so do two lists of
2^32 + 1 items with different first items, whatever the hash. -/
theorem not_roots_commit :
    (∀ sha3, hash256 sha3 (OrderedMap.insert {} (longKey 0) [1]) =
      hash256 sha3 (OrderedMap.insert {} [] [1])) ∧
    (OrderedMap.insert {} (longKey 0) [1] : BytesMap) ≠
      OrderedMap.insert {} [] [1] ∧
    (∀ sha3, orderedTrieRoot sha3 ([1] :: List.replicate (2 ^ 32) [3]) =
      orderedTrieRoot sha3 ([2] :: List.replicate (2 ^ 32) [3])) ∧
    ([1] : Bytes) :: List.replicate (2 ^ 32) [3] ≠
      [2] :: List.replicate (2 ^ 32) [3] := by
  have hnil : longKey 0 ≠ [] := by
    intro heq
    have hlen := congrArg List.length heq
    rw [List.length_nil, longKey, List.length_replicate] at hlen
    omega
  refine ⟨fun sha3 => ?_, fun heq => ?_,
    fun sha3 => orderedTrieRoot_wraps rfl [1] [2] [3], fun heq => ?_⟩
  · rw [(wraps_longKey 0).hash256_insert, wraps_nil.hash256_insert]
  · have hlookup := congrArg (OrderedMap.lookup · []) heq
    simp only [OrderedMap.lookup_insert, if_neg hnil.symm, ↓reduceIte,
      OrderedMap.lookup_empty] at hlookup
    cases hlookup
  · cases List.head_eq_of_cons_eq heq

end Maps

end Web3Core
