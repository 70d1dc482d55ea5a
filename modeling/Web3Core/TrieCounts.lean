/-
No node leaks and none is killed too early: after a session on a fresh
`MemoryDB`, in which no count wraps, the reference count of a hash is the number
of places in the trie that refer to it.
-/
import Web3Core.TrieCheck
import Web3Core.TrieOverflow

namespace Web3Core

open Program GenericTrieDB Trie

namespace Trie

variable {sha3 : Bytes → H256} {t : Trie}

/-- Only the nodes that a trie refers to matter. -/
theorem Stored.of_refs {lookup lookup' : H256 → Bytes}
    (h : Stored sha3 lookup t)
    (hsame : ∀ x, refsIn sha3 t x ≠ 0 → lookup' x = lookup x) :
    Stored sha3 lookup' t := by
  have hown : ∀ {u : Trie}, Big sha3 u → refs sha3 u (hash sha3 u) ≠ 0 := by
    intro u hbig
    rw [refs, own_of_big hbig]
    simp
  have hin : ∀ {u : Trie} {x : H256}, refsIn sha3 u x ≠ 0 →
      refs sha3 u x ≠ 0 := by
    intro u x hx
    rw [refs, Pi.add_apply]
    omega
  induction t with
  | empty => trivial
  | leaf key value => trivial
  | ext key child ih =>
      refine ⟨fun hbig => ?_, ih h.2 fun x hx => hsame x (hin hx)⟩
      rw [hsame _ (hown hbig), h.1 hbig]
  | branch slots value ih =>
      intro i
      have hslot : ∀ x, refs sha3 (slots i) x ≠ 0 → lookup' x = lookup x := by
        intro x hx
        refine hsame x ?_
        rw [refsIn_eq_slot slots value i, Pi.add_apply]
        omega
      refine ⟨fun hbig => ?_, ih i (h i).2 fun x hx => hslot x (hin hx)⟩
      rw [hslot _ (hown hbig), (h i).1 hbig]

end Trie

namespace MemoryDB

variable {m : MemoryDB} {h : H256}

/-- A referenced entry is found with the counts enforced. -/
theorem lookup_enforcing (hcount : m.count h ≠ 0) (r : Bool) :
    (m.enforcing r).lookup h = m.lookup h := by
  unfold count at hcount
  unfold lookup enforcing
  cases hm : m.main.lookup h with
  | none => rfl
  | some i =>
      have hpos : i.2 > 0 := by
        rw [hm] at hcount
        exact UInt32.pos_iff_ne_zero.2 (mt toNat_eq_zero_iff.2 hcount)
      simp [hpos]

/-- A referenced entry survives a purge. -/
theorem lookup_purge (hcount : m.count h ≠ 0) :
    m.purge.lookup h = m.lookup h := by
  have hmain := lookup_main_purge m h
  unfold count at hcount
  unfold lookup
  cases hm : m.main.lookup h with
  | none =>
      rw [hm] at hmain
      rw [hmain]
      rfl
  | some i =>
      rw [hm] at hmain hcount
      have hkept : (some i).filter (fun i => i.2 ≠ 0) = some i := by
        simpa [toNat_eq_zero_iff] using hcount
      rw [hmain, hkept]
      rfl

/-- No count wraps before 2^32 strings are written. -/
theorem wrapped_run {α : Type} {p : DBProgram α} {n : Nat}
    (hwrapped : m.wrapped = false) (hcount : ∀ x, m.count x ≤ n)
    (hwritten : n + (written p m).length < 2 ^ 32) :
    (run DB.handler p m).2.wrapped = false := by
  induction p generalizing m n with
  | done value => exact hwrapped
  | throw error => exact hwrapped
  | call command next ih =>
      cases command with
      | lookup x => exact ih _ hwrapped hcount hwritten
      | «exists» x => exact ih _ hwrapped hcount hwritten
      | keys => exact ih _ hwrapped hcount hwritten
      | insert x v =>
          have hlength : n + 1 + (written (next ()) (m.insert x v)).length <
              2 ^ 32 := by
            rw [Nat.add_right_comm]
            exact hwritten
          have hx := hcount x
          have hnext : (m.insert x v).wrapped = false :=
            (wrapped_insert_of_count (by omega) v).trans hwrapped
          refine ih () hnext (n := n + 1) (fun y => ?_) hlength
          show (m.insert x v).count y ≤ n + 1
          have hy := hcount y
          rw [count_insert m x v hnext]
          split <;> omega
      | kill x =>
          refine ih () ((wrapped_kill m x).trans hwrapped) (fun y => ?_) hwritten
          show (m.kill x).count y ≤ n
          have hy := hcount y
          rw [count_kill]
          split <;> omega

end MemoryDB

section Session

variable {sha3 : Bytes → H256} {ops : List TrieOp} {n : Nat}

/-- The first node that a session writes. -/
theorem rlpNull_mem_written {σ : Type} [LawfulDB σ] (db : σ) :
    rlpNull ∈ written (session sha3 ops) db :=
  List.mem_cons_self

/-- As long as no count has wrapped, the counts of the database are the
references of the trie; a check finds nothing left over, and neither enforcing
the counts nor a purge changes what is looked up. -/
theorem nodes_counted (hn : n < 2 ^ 30) (hops : TrieOp.Uniform n ops)
    (hclash : NoClash sha3 (session sha3 ops) ({} : MemoryDB))
    (hwrapped : (run DB.handler (session sha3 ops)
      ({} : MemoryDB)).2.wrapped = false) :
    ∃ g db t, run DB.handler (session sha3 ops) ({} : MemoryDB) = (.ok g, db) ∧
      (contents ops).Denotes t ∧ g.root = hash sha3 t ∧
      (∀ h, db.count h = total sha3 t h) ∧
      (∀ fuel ≥ 2 ^ 31 - 1,
        run DB.handler (checkTrie sha3 fuel g true) db = (.ok true, db)) ∧
      ∀ k, k.length < 2 ^ 30 → ∃ b,
        run DB.handler (g.lookup k) db = (.ok b, db) ∧
        run DB.handler (g.lookup k) (db.enforcing true) =
          (.ok b, db.enforcing true) ∧
        run DB.handler (g.lookup k) db.purge = (.ok b, db.purge) := by
  obtain ⟨g, db, t, hrun, hrep, hmoves⟩ :=
    exists_session fresh_memoryDB hn hops hclash
  have hopened := hrep.opened
  rw [hrun] at hwrapped
  have hcount : ∀ h, db.count h = total sha3 t h :=
    fun h => hmoves.moved (Bool.eq_false_iff.1 hwrapped) h 0 rfl
  have hroot : db.count g.root ≠ 0 := by
    rw [hcount, hopened.root, total]
    simp
  have hrefs : ∀ x, refsIn sha3 t x ≠ 0 → db.count x ≠ 0 := by
    intro x hx
    rw [hcount, total, Pi.add_apply]
    omega
  have htop : DB.lookup db g.root = enc sha3 t := by
    rw [hopened.root, hopened.top]
  -- A database that agrees on the referenced entries answers alike.
  have hlookup : ∀ db' : MemoryDB,
      (∀ x, db.count x ≠ 0 → db'.lookup x = db.lookup x) →
      ∀ k, k.length < 2 ^ 30 → run DB.handler (g.lookup k) db' =
        (.ok (((contents ops).lookup k).getD []), db') := by
    intro db' hsame k hk
    have hstored : Stored sha3 (DB.lookup db') t :=
      hopened.stored.of_refs fun x hx => hsame x (hrefs x hx)
    have htop' : DB.lookup db' g.root = enc sha3 t :=
      (hsame g.root hroot).trans htop
    obtain ⟨b, db'', hrun', rfl, rfl⟩ := exists_run_of_wp_true
      (wp_lookup_of hstored hopened.within htop'
        (show k.length * 2 < 2 ^ 31 - 1 by omega))
    rw [hrun', hrep.denotes.lookup]
  refine ⟨g, db, t, hrun, hrep.denotes, hopened.root, hcount, ?_, ?_⟩
  · intro fuel hfuel
    obtain ⟨b, db', hcheck, rfl, rfl⟩ := exists_run_of_wp_true
      (wp_checkTrie hopened hrep.denotes.canonical (rlpNull_mem_written _)
        (fun x hx => hcount x ▸ (MemoryDB.mem_keys_iff db x).1 hx)
        (show 2 ^ 31 - 1 ≤ fuel from hfuel) true)
    exact hcheck
  · intro k hk
    exact ⟨_, hlookup db (fun _ _ => rfl) k hk,
      hlookup _ (fun x hx => MemoryDB.lookup_enforcing hx true) k hk,
      hlookup _ (fun x hx => MemoryDB.lookup_purge hx) k hk⟩

theorem nodes_counted_pair :
    ∃ g db t, run DB.handler (session frontHash
        [.insert [0x12] [1], .insert [0x13] [2], .remove [0x12]])
        ({} : MemoryDB) = (.ok g, db) ∧
      g.root = hash frontHash t ∧ (∀ h, db.count h = total frontHash t h) ∧
      run DB.handler (checkTrie frontHash (2 ^ 31 - 1) g true) db =
        (.ok true, db) := by
  have hops : TrieOp.Uniform 1 [.insert [0x12] [1], .insert [0x13] [2],
      .remove [0x12]] := by
    simp [TrieOp.Uniform, TrieOp.key, TrieOp.Storable, Trie.Storable]
  have hclash : NoClash frontHash (session frontHash [.insert [0x12] [1],
      .insert [0x13] [2], .remove [0x12]]) ({} : MemoryDB) := by
    decide +kernel
  obtain ⟨g, db, t, hrun, -, hroot, hcount, hcheck, -⟩ :=
    nodes_counted (by decide : 1 < 2 ^ 30) hops hclash
      (MemoryDB.wrapped_run rfl (fun _ => le_rfl) (by decide +kernel))
  exact ⟨g, db, t, hrun, hroot, hcount, hcheck _ le_rfl⟩

/-- With keys of 2^30 bytes an insertion computes past the largest `int`. -/
theorem not_nodes_counted :
    (hugeKey 0).length = 2 ^ 30 ∧ (hugeKey 0x10).length = 2 ^ 30 ∧
      NoClash nullHash (session nullHash [.insert (hugeKey 0) [1],
        .insert (hugeKey 0x10) [1]]) ({} : MemoryDB) ∧
      (run DB.handler (session nullHash [.insert (hugeKey 0) [1],
        .insert (hugeKey 0x10) [1]]) ({} : MemoryDB)).1 =
          .error .intOverflow := by
  obtain ⟨ns, hns⟩ := nibbles_hugeKey 0
  obtain ⟨ns', hns'⟩ := nibbles_hugeKey 0x10
  obtain ⟨hrun, hwritten⟩ := @run_session_long nullHash _ _ [1] [1]
    (length_hugeKey 0) (length_hugeKey 0x10) ns ns' hns hns' (by decide)
    (by decide +kernel)
  refine ⟨length_hugeKey 0, length_hugeKey 0x10, ?_, hrun⟩
  intro v hv w hw heq
  have hnull : ∀ b c : Bytes, nullHash b = nullHash c → b = rlpNull →
      c = rlpNull := by
    intro b c hbc hb
    by_contra hc
    have hdata := congrArg FixedHash.data hbc
    simp [nullHash, hb, hc] at hdata
  rw [hwritten] at hv hw
  have htwo : ∀ b ∈ [rlpNull, RLPTree.encode (longLeaf (hugeKey 0) [1])],
      b ≠ rlpNull → b = RLPTree.encode (longLeaf (hugeKey 0) [1]) := by
    intro b hb hne
    rcases List.mem_cons.1 hb with hb | hb
    · exact absurd hb hne
    · exact List.mem_singleton.1 hb
  by_cases hvn : v = rlpNull
  · rw [hvn, hnull v w heq hvn]
  · have hwn : w ≠ rlpNull := fun hwn => hvn (hnull w v heq.symm hwn)
    rw [htwo v hv hvn, htwo w hw hwn]

end Session

end Web3Core
