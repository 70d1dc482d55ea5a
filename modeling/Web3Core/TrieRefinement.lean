/-
The database trie refines a finite map: after any session it looks up what the
changes left, and its root is the one the map has when it is built in one go.
-/
import Web3Core.TrieSession

namespace Web3Core

open Program Trie

section Runs

variable {sha3 : Bytes → H256} {σ : Type} [LawfulDB σ] {db : σ}
  {ops pre : List TrieOp} {n : Nat}

/-- `at` answers from the map. -/
theorem Trie.Represents.run_lookup {S : Scope sha3} {g : GenericTrieDB}
    {m : BytesMap} {t : Trie} (h : Represents S db g m t)
    (hbound : S.bound = 2 ^ 31 - 1) {k : Bytes} (hk : k.length < 2 ^ 30) :
    run DB.handler (g.lookup k) db = (.ok ((m.lookup k).getD []), db) := by
  obtain ⟨b, db', hrun, rfl, rfl⟩ := exists_run_of_wp_true
    (wp_lookup h.opened (by omega : k.length * 2 < S.bound))
  rw [hrun, h.denotes.lookup]

/-- `root()` is the root of the map built in one go. -/
theorem Trie.Represents.run_getRoot {S : Scope sha3} {g : GenericTrieDB}
    {m : BytesMap} {t : Trie} (h : Represents S db g m t) :
    run DB.handler g.getRoot db = (.ok g.root, db) := by
  have hne : enc sha3 t ≠ [] := enc_ne_nil t
  have htop : DB.lookup db g.root = enc sha3 t := by
    rw [h.opened.root, h.opened.top]
  show run DB.handler (if DB.lookup db g.root = [] then .throw Exception.badRoot
    else pure g.root) db = _
  rw [htop, if_neg hne]
  rfl

theorem Trie.Represents.hash256_eq {S : Scope sha3} {g : GenericTrieDB}
    {m : BytesMap} {t : Trie} (h : Represents S db g m t) :
    hash256 sha3 m = .ok g.root := by
  rw [h.denotes.hash256_eq sha3 h.fits, h.opened.root]

/-- A session with keys of one length ends in a trie that holds the map. -/
theorem exists_session (hdb : Fresh db) (hn : n < 2 ^ 30)
    (hops : TrieOp.Uniform n ops) (hclash : NoClash sha3 (session sha3 ops) db) :
    ∃ g db' t, run DB.handler (session sha3 ops) db = (.ok g, db') ∧
      Represents hclash.scope db' g (contents ops) t ∧
        DB.Moves db db' 0 (total sha3 t) := by
  obtain ⟨g, db', hrun, t, hrep, hmoves⟩ := exists_run_of_written
    (S := hclash.scope) (fun _ hv => hv) (wp_session hdb rfl hn hops)
  exact ⟨g, db', t, hrun, hrep, hmoves⟩

/-- A session of insertions ends in a trie that holds the map. -/
theorem exists_session_inserts (hdb : Fresh db) (hops : TrieOp.Inserts ops)
    (hclash : NoClash sha3 (session sha3 ops) db) :
    ∃ g db' t, run DB.handler (session sha3 ops) db = (.ok g, db') ∧
      Represents hclash.scope db' g (contents ops) t := by
  obtain ⟨g, db', hrun, t, hrep⟩ := exists_run_of_written
    (S := hclash.scope) (fun _ hv => hv) (wp_session_inserts hdb rfl hops)
  exact ⟨g, db', t, hrun, hrep⟩

/-- Removing a key that is not there leaves the trie object and the whole
database alone. -/
theorem run_session_absent (hdb : Fresh db) (hn : n < 2 ^ 30) {k : Bytes}
    (hops : TrieOp.Uniform n (pre ++ [.remove k]))
    (hclash : NoClash sha3 (session sha3 (pre ++ [.remove k])) db)
    (hnone : (contents pre).lookup k = none) :
    run DB.handler (session sha3 (pre ++ [.remove k])) db =
      run DB.handler (session sha3 pre) db := by
  have hpre := hops.of_prefix (List.prefix_append pre [.remove k])
  have hk : k.length = n := (hops (.remove k) (by simp)).1
  obtain ⟨g, db', hrun, t, hrep, -⟩ := exists_run_of_written
    (S := hclash.scope) (written_prefix_subset (List.prefix_append pre [.remove k]))
    (wp_session hdb rfl hn hpre)
  have hwritten := written_bind hrun fun g => g.remove sha3 k
  have hinside : ∀ v ∈ written (g.remove sha3 k) db',
      v ∈ hclash.scope.strings := by
    intro v hv
    show v ∈ written (session sha3 (pre ++ [.remove k])) db
    rw [session_append]
    exact hwritten ▸ List.mem_append_right _ hv
  obtain ⟨g', db'', hremove, rfl, rfl⟩ := exists_run_of_written hinside
    (hrep.wp_remove_absent hpre.contents rfl hk hn hnone)
  rw [session_append, run_bind, hrun]
  exact hremove

end Runs

end Web3Core
