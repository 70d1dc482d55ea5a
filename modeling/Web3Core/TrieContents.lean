/-
What a trie holds after a session: the map that the changes leave, looked up
key by key and committed to by the root.  Keys have fewer than 2^30 bytes; of
longer keys the code does not count all nibbles.
-/
import Web3Core.TrieWrap

namespace Web3Core

open Program Trie

/-- A hash that can be run: the length and the first bytes. -/
def frontHash (b : Bytes) : H256 :=
  ⟨UInt8.ofNat b.length :: (b.take 31 ++ List.replicate (31 - b.length) 0), by
    simp
    omega⟩

section Contents

variable {sha3 : Bytes → H256} {σ : Type} [LawfulDB σ] {db : σ}
  {ops : List TrieOp} {n : Nat}

/-- With keys of one length a trie on a fresh `MemoryDB` looks up what a map
would, and a removal of a key that is not there changes nothing at all. -/
theorem session_refines_map (hn : n < 2 ^ 30) (hops : TrieOp.Uniform n ops)
    (hclash : NoClash sha3 (session sha3 ops) ({} : MemoryDB)) :
    ∃ g db, run DB.handler (session sha3 ops) ({} : MemoryDB) = (.ok g, db) ∧
      (∀ k, k.length = n → run DB.handler (g.lookup k) db =
        (.ok (((contents ops).lookup k).getD []), db)) ∧
      ∀ pre k, pre ++ [.remove k] <+: ops → (contents pre).lookup k = none →
        run DB.handler (session sha3 (pre ++ [.remove k])) ({} : MemoryDB) =
          run DB.handler (session sha3 pre) {} := by
  obtain ⟨g, db, t, hrun, hrep, -⟩ :=
    exists_session fresh_memoryDB hn hops hclash
  refine ⟨g, db, hrun, fun k hk => hrep.run_lookup rfl (by omega), ?_⟩
  intro pre k hpre hnone
  exact run_session_absent fresh_memoryDB hn (hops.of_prefix hpre)
    (hclash.of_prefix hpre) hnone

theorem session_refines_map_pair :
    ∃ g db, run DB.handler (session frontHash
        [.insert [0x12] [1], .remove [0x13], .insert [0x13] [2],
          .remove [0x12]]) ({} : MemoryDB) = (.ok g, db) ∧
      run DB.handler (g.lookup [0x13]) db = (.ok [2], db) ∧
      run DB.handler (g.lookup [0x12]) db = (.ok [], db) := by
  have huniform : TrieOp.Uniform 1 [.insert [0x12] [1], .remove [0x13],
      .insert [0x13] [2], .remove [0x12]] := by
    simp [TrieOp.Uniform, TrieOp.key, TrieOp.Storable, Trie.Storable]
  have hclash : NoClash frontHash (session frontHash [.insert [0x12] [1],
      .remove [0x13], .insert [0x13] [2], .remove [0x12]])
      ({} : MemoryDB) := by
    decide +kernel
  obtain ⟨g, db, hrun, hlookup, -⟩ := session_refines_map
    (by decide : 1 < 2 ^ 30) huniform hclash
  refine ⟨g, db, hrun, ?_, ?_⟩
  · exact hlookup [0x13] rfl
  · exact hlookup [0x12] rfl

/-- Two keys of 2^31 bytes are one key to the trie. -/
theorem not_session_refines_map :
    NoClash frontHash (session frontHash [.insert (longKey 0) [1]])
        ({} : MemoryDB) ∧
      (longKey 0).length = 2 ^ 31 ∧ (longKey 1).length = 2 ^ 31 ∧
      ∃ g db, run DB.handler (session frontHash [.insert (longKey 0) [1]])
          ({} : MemoryDB) = (.ok g, db) ∧
        run DB.handler (g.lookup (longKey 1)) db = (.ok [1], db) ∧
        (contents [.insert (longKey 0) [1]]).lookup (longKey 1) = none := by
  have hwrapping : TrieOp.Wrapping [.insert (longKey 0) [1]] :=
    wrapping_longKey 0 (by simp [Trie.Storable])
  have hclash : NoClash frontHash (session frontHash [.insert [] [1]])
      ({} : MemoryDB) := by decide +kernel
  obtain ⟨hclash', g, db, t, hrun, hrep⟩ :=
    hwrapping.exists_session fresh_memoryDB hclash
  refine ⟨hclash', List.length_replicate, List.length_replicate, g, db, hrun,
    ?_, ?_⟩
  · exact (wraps_longKey 1).run_lookup hrep hwrapping.onlyEmptyKey
  · have hne : longKey 1 ≠ longKey 0 := mt longKey_inj.1 (by decide)
    show (OrderedMap.insert {} (longKey 0) [1]).lookup (longKey 1) = none
    rw [OrderedMap.lookup_insert, if_neg hne, OrderedMap.lookup_empty]

/-- The root after a session is that of the map built in one go, so sessions
that leave one map leave one root. -/
theorem root_of_contents (hdb : Fresh db) (hn : n < 2 ^ 30)
    (hops : TrieOp.Uniform n ops) (hclash : NoClash sha3 (session sha3 ops) db) :
    ∃ g db', run DB.handler (session sha3 ops) db = (.ok g, db') ∧
      run DB.handler g.getRoot db' = (.ok g.root, db') ∧
      hash256 sha3 (contents ops) = .ok g.root ∧
      ∀ n' < 2 ^ 30, ∀ ops', TrieOp.Uniform n' ops' →
        NoClash sha3 (session sha3 ops') db → contents ops' = contents ops →
          ∃ db'', run DB.handler (session sha3 ops') db = (.ok g, db'') := by
  obtain ⟨g, db', t, hrun, hrep, -⟩ := exists_session hdb hn hops hclash
  refine ⟨g, db', hrun, hrep.run_getRoot, hrep.hash256_eq, ?_⟩
  intro n' hn' ops' hops' hclash' hsame
  obtain ⟨g', db'', t', hrun', hrep', -⟩ := exists_session hdb hn' hops' hclash'
  have hroot := hrep'.hash256_eq
  rw [hsame, hrep.hash256_eq] at hroot
  have hg : g = g' := by
    cases g
    cases g'
    cases hroot
    rfl
  exact ⟨db'', hg ▸ hrun'⟩

theorem root_of_contents_detour :
    ∃ g db db', run DB.handler (session frontHash [.insert [0x12] [1]])
        ({} : MemoryDB) = (.ok g, db) ∧
      run DB.handler (session frontHash [.insert [0x13] [2],
        .insert [0x12] [1], .remove [0x13]]) ({} : MemoryDB) = (.ok g, db') ∧
      hash256 frontHash (contents [.insert [0x12] [1]]) = .ok g.root := by
  have hops : TrieOp.Uniform 1 [.insert [0x12] [1]] := by
    simp [TrieOp.Uniform, TrieOp.key, TrieOp.Storable, Trie.Storable]
  have hops' : TrieOp.Uniform 1 [.insert [0x13] [2], .insert [0x12] [1],
      .remove [0x13]] := by
    simp [TrieOp.Uniform, TrieOp.key, TrieOp.Storable, Trie.Storable]
  have hclash : NoClash frontHash (session frontHash [.insert [0x12] [1]])
      ({} : MemoryDB) := by
    decide +kernel
  have hclash' : NoClash frontHash (session frontHash [.insert [0x13] [2],
      .insert [0x12] [1], .remove [0x13]]) ({} : MemoryDB) := by
    decide +kernel
  obtain ⟨g, db, hrun, -, hroot, hsame⟩ := root_of_contents
    fresh_memoryDB (by decide : 1 < 2 ^ 30) hops hclash
  obtain ⟨db', hrun'⟩ := hsame 1 (by decide) _ hops' hclash' rfl
  exact ⟨g, db, db', hrun, hrun', hroot⟩

/-- The order in which two keys of 2^31 bytes were inserted shows in the
root. -/
theorem not_root_of_contents :
    contents [.insert (longKey 0) [1], .insert (longKey 1) [2]] =
        contents [.insert (longKey 1) [2], .insert (longKey 0) [1]] ∧
      NoClash frontHash (session frontHash [.insert (longKey 0) [1],
        .insert (longKey 1) [2]]) ({} : MemoryDB) ∧
      NoClash frontHash (session frontHash [.insert (longKey 1) [2],
        .insert (longKey 0) [1]]) ({} : MemoryDB) ∧
      ∃ g g' db db', run DB.handler (session frontHash
          [.insert (longKey 0) [1], .insert (longKey 1) [2]])
          ({} : MemoryDB) = (.ok g, db) ∧
        run DB.handler (session frontHash
          [.insert (longKey 1) [2], .insert (longKey 0) [1]])
          ({} : MemoryDB) = (.ok g', db') ∧ g.root ≠ g'.root := by
  have hwrapping : ∀ x y : Byte, TrieOp.Wrapping
      [.insert (longKey x) [x + 1], .insert (longKey y) [y + 1]] := by
    intro x y op hop
    rcases List.mem_cons.1 hop with rfl | hop
    · exact ⟨_, _, rfl, wraps_longKey x, by simp [Trie.Storable]⟩
    · obtain rfl := List.mem_singleton.1 hop
      exact ⟨_, _, rfl, wraps_longKey y, by simp [Trie.Storable]⟩
  have hclash : NoClash frontHash (session frontHash
      [.insert [] [1], .insert [] [2]]) ({} : MemoryDB) := by decide +kernel
  have hclash' : NoClash frontHash (session frontHash
      [.insert [] [2], .insert [] [1]]) ({} : MemoryDB) := by decide +kernel
  obtain ⟨hrun, hwritten⟩ := (hwrapping 0 1).session_cut fresh_memoryDB hclash
  obtain ⟨hrun', hwritten'⟩ :=
    (hwrapping 1 0).session_cut fresh_memoryDB hclash'
  have hne : longKey 0 ≠ longKey 1 := mt longKey_inj.1 (by decide)
  refine ⟨OrderedMap.insert_comm {} hne [1] [2], ?_, ?_, ?_⟩
  · intro v hv w hw
    exact hclash v (hwritten ▸ hv) w (hwritten ▸ hw)
  · intro v hv w hw
    exact hclash' v (hwritten' ▸ hv) w (hwritten' ▸ hw)
  · have hroots : (run DB.handler (session frontHash
        [.insert [] [1], .insert [] [2]]) ({} : MemoryDB)).1 ≠
        (run DB.handler (session frontHash
          [.insert [] [2], .insert [] [1]]) ({} : MemoryDB)).1 := by
      decide +kernel
    obtain ⟨g, db, t, hcut, -⟩ := exists_session_inserts fresh_memoryDB
      (hwrapping 0 1).inserts_cut hclash
    obtain ⟨g', db', t', hcut', -⟩ := exists_session_inserts fresh_memoryDB
      (hwrapping 1 0).inserts_cut hclash'
    refine ⟨g, g', db, db', hrun.trans hcut, hrun'.trans hcut', ?_⟩
    rintro heq
    have hg : g = g' := by
      cases g
      cases g'
      cases heq
      rfl
    have hcut₁ : run DB.handler (session frontHash
        [.insert [] [1], .insert [] [2]]) ({} : MemoryDB) = (.ok g, db) := hcut
    have hcut₂ : run DB.handler (session frontHash
        [.insert [] [2], .insert [] [1]]) ({} : MemoryDB) = (.ok g', db') := hcut'
    rw [hcut₁, hcut₂, hg] at hroots
    exact hroots rfl

/-- Insertions under keys of any lengths are found again, whatever their order,
and nothing else is; the root is that of the map built in one go. -/
theorem inserts_refine_map (hdb : Fresh db) (hops : TrieOp.Inserts ops)
    (hclash : NoClash sha3 (session sha3 ops) db) :
    ∃ g db', run DB.handler (session sha3 ops) db = (.ok g, db') ∧
      (∀ k, k.length < 2 ^ 30 → run DB.handler (g.lookup k) db' =
        (.ok (((contents ops).lookup k).getD []), db')) ∧
      run DB.handler g.getRoot db' = (.ok g.root, db') ∧
      hash256 sha3 (contents ops) = .ok g.root := by
  obtain ⟨g, db', t, hrun, hrep⟩ := exists_session_inserts hdb hops hclash
  exact ⟨g, db', hrun, fun k hk => hrep.run_lookup rfl hk, hrep.run_getRoot,
    hrep.hash256_eq⟩

/-- Three keys of which the shorter ones are the beginnings of the longest. -/
theorem inserts_prefixes :
    TrieOp.Inserts [.insert [0x12, 0x34] [1], .insert [] [2],
        .insert [0x12] [3]] ∧
      NoClash frontHash (session frontHash [.insert [0x12, 0x34] [1],
        .insert [] [2], .insert [0x12] [3]]) ({} : MemoryDB) :=
  ⟨by simp [TrieOp.Inserts, Trie.Storable], by decide +kernel⟩

theorem inserts_refine_map_prefixes :
    ∃ g db, run DB.handler (session frontHash [.insert [0x12, 0x34] [1],
        .insert [] [2], .insert [0x12] [3]]) ({} : MemoryDB) = (.ok g, db) ∧
      run DB.handler (g.lookup [0x12]) db = (.ok [3], db) ∧
      run DB.handler (g.lookup [0x13]) db = (.ok [], db) := by
  obtain ⟨hops, hclash⟩ := inserts_prefixes
  obtain ⟨g, db, hrun, hlookup, -⟩ := inserts_refine_map
    fresh_memoryDB hops hclash
  refine ⟨g, db, hrun, ?_, ?_⟩
  · exact hlookup [0x12] (by decide)
  · exact hlookup [0x13] (by decide)

/-- A key of 2^31 bytes is found under another one. -/
theorem not_inserts_refine_map :
    NoClash frontHash (session frontHash [.insert (longKey 1) [2]])
        ({} : MemoryDB) ∧
      ∃ g db, run DB.handler (session frontHash [.insert (longKey 1) [2]])
          ({} : MemoryDB) = (.ok g, db) ∧
        run DB.handler (g.lookup []) db = (.ok [2], db) ∧
        (contents [.insert (longKey 1) [2]]).lookup [] = none := by
  have hwrapping : TrieOp.Wrapping [.insert (longKey 1) [2]] :=
    wrapping_longKey 1 (by simp [Trie.Storable])
  have hclash : NoClash frontHash (session frontHash [.insert [] [2]])
      ({} : MemoryDB) := by decide +kernel
  obtain ⟨hclash', g, db, t, hrun, hrep⟩ :=
    hwrapping.exists_session fresh_memoryDB hclash
  refine ⟨hclash', g, db, hrun, ?_, ?_⟩
  · exact wraps_nil.run_lookup hrep hwrapping.onlyEmptyKey
  · have hne : [] ≠ longKey 1 := by
      intro heq
      have hlen := congrArg List.length heq
      rw [List.length_nil, longKey, List.length_replicate] at hlen
      omega
    show (OrderedMap.insert {} (longKey 1) [2]).lookup [] = none
    rw [OrderedMap.lookup_insert, if_neg hne, OrderedMap.lookup_empty]

end Contents

end Web3Core
