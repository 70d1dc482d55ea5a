/-
Keys of 2^31 bytes.  The number of their nibbles is 2^32, which the counters of
the code take for zero, so such a key is as good as the empty one.
-/
import Web3Core.TrieRefinement

namespace Web3Core

open Program Trie

/-- The number of the key's nibbles is counted as zero. -/
def Wraps (k : Bytes) : Prop := k.length % 2 ^ 31 = 0

theorem wraps_nil : Wraps [] := rfl

namespace Wraps

variable {k : Bytes} (hk : Wraps k)

include hk

theorem size : NibbleSlice.size ⟨k, 0⟩ = 0 := by
  have hmod : k.length % 2 ^ 31 = 0 := hk
  show toUnsigned ((k.length : Int) * 2 - ((0 : Nat) : Int)) = 0
  rw [toUnsigned]
  omega

theorem hexPrefixEncodeSlice (leaf : Bool) :
    hexPrefixEncodeSlice ⟨k, 0⟩ leaf = .ok (hexPrefix leaf []) := by
  have hmod : k.length % 2 ^ 31 = 0 := hk
  have hint : toInt ((k.length : Int) * 2 - ((0 : Nat) : Int)) = 0 := by
    rw [toInt, Int.bmod_def]
    omega
  have hone : addInt 0 1 = .ok 1 := by decide
  have hzero : addInt 1 (-1) = .ok 0 := by decide
  have hbegin : toUnsigned (0 + ((0 : Nat) : Int)) = 0 := by decide
  rw [Web3Core.hexPrefixEncodeSlice, hexPrefixEncodeRange]
  simp only [hint, hone, ok_bind, hzero, hbegin]
  cases leaf <;> rfl

end Wraps

/-- A node that tells no wrapping key from the empty one: nothing, or a leaf
with the empty key. -/
def Blind (r : RLP) : Prop :=
  r.isEmpty = true ∨ ∃ item k c₀ c, IsPair r true [] item k c₀ c

namespace Wraps

variable {k : Bytes} (hk : Wraps k) {r : RLP}

include hk

/-- A value goes into the node itself. -/
theorem mergeAt_eq (sha3 : Bytes → H256) (hr : Blind r) (fuel : Nat) (h : H256)
    (v : Bytes) (inLine : Bool) :
    GenericTrieDB.mergeAt sha3 (fuel + 1) r h ⟨k, 0⟩ v inLine =
      GenericTrieDB.place sha3 r ⟨[], 0⟩ v := by
  have hplace : GenericTrieDB.place sha3 r ⟨k, 0⟩ v =
      GenericTrieDB.place sha3 r ⟨[], 0⟩ v := by
    simp only [GenericTrieDB.place, hk.hexPrefixEncodeSlice,
      wraps_nil.hexPrefixEncodeSlice]
  rcases hr with hempty | ⟨item, k', c₀, c, hpair⟩
  · simp only [GenericTrieDB.mergeAt, hempty, ↓reduceIte, hplace]
  · have hsize : k'.size = 0 := hpair.shows.size
    have hequals : k'.equals ⟨k, 0⟩ = .ok true := by
      rw [NibbleSlice.equals, NibbleSlice.shared_of_size hsize, hsize, hk.size]
      rfl
    simp only [GenericTrieDB.mergeAt, hpair.isEmpty, Bool.false_eq_true,
      ↓reduceIte, hpair.itemCount, hpair.isList, beq_self_eq_true,
      Bool.true_or, Bool.and_self, check_true, liftM_ok_bind, hpair.keyOf,
      hequals, hpair.isLeaf, andThen, hplace]

theorem atAux_leaf {x : Bytes} {k' : NibbleSlice} {c₀ c : RLP}
    (hpair : IsPair r true [] (.data x) k' c₀ c) (hnull : r.isNull = false)
    (fuel : Nat) :
    GenericTrieDB.atAux (fuel + 1) r ⟨k, 0⟩ = pure x := by
  have hsize : k'.size = 0 := hpair.shows.size
  have hequals : NibbleSlice.equals ⟨k, 0⟩ k' = .ok true := by
    rw [NibbleSlice.equals, NibbleSlice.shared_of_size hk.size, hsize, hk.size]
    rfl
  simp only [GenericTrieDB.atAux, hpair.isEmpty, hnull, Bool.or_self,
    Bool.false_eq_true, ↓reduceIte, hpair.itemCount, hpair.isList,
    beq_self_eq_true, Bool.true_or, Bool.and_self, check_true, liftM_ok_bind,
    hpair.keyOf, hequals, hpair.isLeaf, andThen, hpair.second,
    hpair.rep_second.toString]
  rfl

end Wraps

/-- The same change under the empty key. -/
def TrieOp.cut : TrieOp → TrieOp
  | .insert _ value => .insert [] value
  | .remove _ => .remove []

/-- The changes are insertions under keys of 2^31 bytes, or none, of values
that can be stored. -/
def TrieOp.Wrapping (ops : List TrieOp) : Prop :=
  ∀ op ∈ ops, ∃ k v, op = .insert k v ∧ Wraps k ∧ Trie.Storable v

section Session

variable {sha3 : Bytes → H256} {σ : Type} [LawfulDB σ] {S : Scope sha3}
  {db : σ} {ops : List TrieOp} {g : GenericTrieDB} {m : BytesMap} {t : Trie}
  {k : Bytes}

/-- A map with no other key than the empty one. -/
def OnlyEmptyKey (m : BytesMap) : Prop := ∀ k, m.lookup k ≠ none → k = []

/-- The trie of such a map. -/
theorem BytesMap.Denotes.of_onlyEmptyKey (h : m.Denotes t)
    (hm : OnlyEmptyKey m) :
    (t = .empty ∧ m.lookup [] = none) ∨
      ∃ x, t = .leaf [] x ∧ m.lookup [] = some x := by
  have hlookup : ∀ ns, Patricia.lookup t ns =
      if ns = [] then m.lookup [] else none := by
    intro ns
    by_cases hns : ns = []
    · rw [if_pos hns, hns]
      exact h.lookup []
    · rw [if_neg hns]
      by_contra hne
      obtain ⟨k, rfl, hk⟩ := (h.has_iff ns).1 hne
      rw [hm k hk] at hns
      exact hns rfl
  cases hx : m.lookup [] with
  | none =>
      refine .inl ⟨h.canonical.ext_lookup trivial fun ns => ?_, rfl⟩
      rw [hlookup, hx, ite_self, Patricia.lookup_empty]
  | some x =>
      refine .inr ⟨x, h.canonical.ext_lookup trivial fun ns => ?_, rfl⟩
      rw [hlookup, hx, Patricia.lookup_leaf]

/-- The node at the root, as it is read. -/
theorem Trie.Opened.exists_top (h : Opened S db g t) :
    ∃ r, DB.lookup db g.root ≠ [] ∧ RLP.ofBytes (DB.lookup db g.root) = .ok r ∧
      r.Rep (Trie.node sha3 t) := by
  obtain ⟨r, hr, hrep⟩ := RLP.Rep.ofBytes (h.within.fits sha3 S.bound_le)
  have htop : DB.lookup db g.root = enc sha3 t := by
    rw [h.root, h.top]
  exact ⟨r, by rw [htop]; exact enc_ne_nil t, by rw [htop]; exact hr, hrep⟩

/-- Lookup takes the key for the empty one. -/
theorem Wraps.run_lookup (hk : Wraps k) (h : Represents S db g m t)
    (hm : OnlyEmptyKey m) :
    run DB.handler (g.lookup k) db = (.ok ((m.lookup []).getD []), db) := by
  obtain ⟨r, -, hr, hrep⟩ := h.opened.exists_top
  have hstep : run DB.handler (g.lookup k) db =
      run DB.handler (liftM (RLP.ofBytes (DB.lookup db g.root)) >>= fun r =>
        GenericTrieDB.atAux (k.length * 2 + 2) r ⟨k, 0⟩) db := rfl
  rw [hstep, hr, liftM_ok_bind]
  rcases h.denotes.of_onlyEmptyKey hm with ⟨rfl, hx⟩ | ⟨x, rfl, hx⟩
  · have hempty : r.isEmpty = true := hrep.isEmpty
    simp only [GenericTrieDB.atAux, hempty, Bool.true_or, ↓reduceIte, hx]
    rfl
  · obtain ⟨k', c₀, c, hpair⟩ := exists_isPair hrep (by decide)
    rw [hk.atAux_leaf hpair hrep.isNull, hx]
    rfl

/-- The rest of an insertion, once the root is read as the string `s` and the
item `r`. -/
def insertRead (sha3 : Bytes → H256) (g : GenericTrieDB) (k v s : Bytes)
    (r : RLP) : DBProgram GenericTrieDB := do
  let b ← GenericTrieDB.mergeAt sha3 (k.length * 4 + 3) r g.root ⟨k, 0⟩ v false
  onlyIf (s.length < 32) (GenericTrieDB.forceKillNode g.root)
  let root ← GenericTrieDB.forceInsertNode sha3 b
  pure ⟨root⟩

theorem insert_eq_insertRead {s : Bytes} {r : RLP}
    (hs : DB.lookup db g.root = s) (hne : s ≠ []) (hr : RLP.ofBytes s = .ok r)
    (k v : Bytes) :
    run DB.handler (g.insert sha3 k v) db =
        run DB.handler (insertRead sha3 g k v s r) db ∧
      written (g.insert sha3 k v) db = written (insertRead sha3 g k v s r) db := by
  have hrest : (do
      check (DB.lookup db g.root ≠ [])
      let r ← RLP.ofBytes (DB.lookup db g.root)
      let b ← GenericTrieDB.mergeAt sha3 (k.length * 4 + 3) r g.root ⟨k, 0⟩ v
        false
      onlyIf ((DB.lookup db g.root).length < 32)
        (GenericTrieDB.forceKillNode g.root)
      let root ← GenericTrieDB.forceInsertNode sha3 b
      pure ⟨root⟩ : DBProgram GenericTrieDB) = insertRead sha3 g k v s r := by
    simp only [hs, hne, ne_eq, not_false_eq_true, decide_true, check_true,
      liftM_ok_bind, hr]
    rfl
  rw [← hrest]
  exact ⟨rfl, rfl⟩

/-- Insertion takes the key for the empty one. -/
theorem Wraps.insert_eq (hk : Wraps k) (h : Represents S db g m t)
    (hm : OnlyEmptyKey m) (v : Bytes) :
    run DB.handler (g.insert sha3 k v) db =
        run DB.handler (g.insert sha3 [] v) db ∧
      written (g.insert sha3 k v) db = written (g.insert sha3 [] v) db := by
  obtain ⟨r, hne, hr, hrep⟩ := h.opened.exists_top
  have hblind : Blind r := by
    rcases h.denotes.of_onlyEmptyKey hm with ⟨rfl, -⟩ | ⟨x, rfl, -⟩
    · exact .inl hrep.isEmpty
    · obtain ⟨k', c₀, c, hpair⟩ := exists_isPair hrep (by decide)
      exact .inr ⟨_, k', c₀, c, hpair⟩
  have hread : insertRead sha3 g k v (DB.lookup db g.root) r =
      insertRead sha3 g [] v (DB.lookup db g.root) r := by
    rw [insertRead, insertRead, hk.mergeAt_eq sha3 hblind,
      wraps_nil.mergeAt_eq sha3 hblind]
  have hlong := @insert_eq_insertRead sha3 σ _ db g _ r rfl hne hr k v
  have hnil := @insert_eq_insertRead sha3 σ _ db g _ r rfl hne hr [] v
  rw [hread] at hlong
  exact ⟨hlong.1.trans hnil.1.symm, hlong.2.trans hnil.2.symm⟩

theorem TrieOp.Wrapping.inserts_cut (h : TrieOp.Wrapping ops) :
    TrieOp.Inserts (ops.map TrieOp.cut) := by
  intro op hop
  obtain ⟨op', hop', rfl⟩ := List.mem_map.1 hop
  obtain ⟨k, v, rfl, -, hv⟩ := h op' hop'
  exact ⟨[], v, rfl, by simp, hv⟩

theorem TrieOp.Wrapping.onlyEmptyKey (h : TrieOp.Wrapping ops) :
    OnlyEmptyKey (contents (ops.map TrieOp.cut)) := by
  induction ops using List.reverseRecOn with
  | nil => exact fun k hk => absurd rfl hk
  | append_singleton ops op ih =>
      obtain ⟨k, v, rfl, -, -⟩ := h op (by simp)
      have hpre := ih fun op hop => h op (by simp [hop])
      intro k' hk'
      rw [List.map_append, List.map_singleton, contents_append, TrieOp.cut,
        TrieOp.change, OrderedMap.lookup_insert] at hk'
      by_cases heq : k' = []
      · exact heq
      · rw [if_neg heq] at hk'
        exact hpre k' hk'

/-- A session under such keys is the session under the empty key. -/
theorem TrieOp.Wrapping.session_cut (h : TrieOp.Wrapping ops) (hdb : Fresh db)
    (hclash : NoClash sha3 (session sha3 (ops.map TrieOp.cut)) db) :
    run DB.handler (session sha3 ops) db =
        run DB.handler (session sha3 (ops.map TrieOp.cut)) db ∧
      written (session sha3 ops) db =
        written (session sha3 (ops.map TrieOp.cut)) db := by
  induction ops using List.reverseRecOn with
  | nil => exact ⟨rfl, rfl⟩
  | append_singleton ops op ih =>
      obtain ⟨k, v, rfl, hk, hv⟩ := h op (by simp)
      have hpre : TrieOp.Wrapping ops := fun op hop => h op (by simp [hop])
      have hcut : (ops ++ [TrieOp.insert k v]).map TrieOp.cut =
          ops.map TrieOp.cut ++ [.insert [] v] := by
        simp [TrieOp.cut]
      rw [hcut] at hclash ⊢
      have hclash' := hclash.of_prefix
        (List.prefix_append (ops.map TrieOp.cut) [.insert [] v])
      obtain ⟨hrun, hwritten⟩ := ih hpre hclash'
      obtain ⟨g, db', t, hcutRun, hrep⟩ :=
        exists_session_inserts hdb hpre.inserts_cut hclash'
      obtain ⟨hinsert, hinserted⟩ := hk.insert_eq hrep hpre.onlyEmptyKey v
      rw [hcutRun] at hrun
      constructor
      · rw [session_append, session_append, run_bind, run_bind, hrun, hcutRun]
        exact hinsert
      · rw [session_append, session_append, written_bind hrun,
          written_bind hcutRun, hwritten]
        exact congrArg _ hinserted

/-- Such a session writes what the one under the empty key writes, and leaves
the trie of its map. -/
theorem TrieOp.Wrapping.exists_session (h : TrieOp.Wrapping ops)
    (hdb : Fresh db)
    (hclash : NoClash sha3 (session sha3 (ops.map TrieOp.cut)) db) :
    NoClash sha3 (session sha3 ops) db ∧
      ∃ g db' t, run DB.handler (session sha3 ops) db = (.ok g, db') ∧
        Represents hclash.scope db' g (contents (ops.map TrieOp.cut)) t := by
  obtain ⟨hrun, hwritten⟩ := h.session_cut hdb hclash
  obtain ⟨g, db', t, hcut, hrep⟩ :=
    exists_session_inserts hdb h.inserts_cut hclash
  refine ⟨?_, g, db', t, hrun.trans hcut, hrep⟩
  rw [NoClash, hwritten]
  exact hclash

/-- The key that is taken for the empty one. -/
def longKey (x : Byte) : Bytes := List.replicate (2 ^ 31) x

theorem wraps_longKey (x : Byte) : Wraps (longKey x) := by
  rw [Wraps, longKey, List.length_replicate]
  exact Nat.mod_self _

theorem wrapping_longKey (x : Byte) {v : Bytes} (hv : Trie.Storable v) :
    TrieOp.Wrapping [.insert (longKey x) v] := by
  intro op hop
  obtain rfl := List.mem_singleton.1 hop
  exact ⟨longKey x, v, rfl, wraps_longKey x, hv⟩

theorem longKey_inj {x y : Byte} : longKey x = longKey y ↔ x = y := by
  rw [longKey, longKey, List.replicate_inj]
  simp

end Session

end Web3Core
