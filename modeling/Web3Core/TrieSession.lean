/-
Sessions: a trie is opened on a fresh database and changed any number of times.
What the trie is after a session is told by the map that the changes leave.
-/
import Web3Core.MemoryDB
import Web3Core.TrieLookup
import Web3Core.TrieRoot

namespace Web3Core

/-- A change of the trie. -/
inductive TrieOp where
  | insert (key value : Bytes)
  | remove (key : Bytes)

namespace TrieOp

def key : TrieOp → Bytes
  | .insert key _ => key
  | .remove key => key

/-- What the change does to a map. -/
def change (m : BytesMap) : TrieOp → BytesMap
  | .insert key value => m.insert key value
  | .remove key => m.erase key

/-- The values that are inserted can be stored. -/
def Storable : TrieOp → Prop
  | .insert _ value => Trie.Storable value
  | .remove _ => True

def apply (sha3 : Bytes → H256) (g : GenericTrieDB) :
    TrieOp → DBProgram GenericTrieDB
  | .insert key value => g.insert sha3 key value
  | .remove key => g.remove sha3 key

end TrieOp

/-- `init` and then the changes. -/
def session (sha3 : Bytes → H256) (ops : List TrieOp) :
    DBProgram GenericTrieDB := do
  let g ← GenericTrieDB.init sha3
  ops.foldlM (TrieOp.apply sha3) g

/-- The map the changes leave behind. -/
def contents (ops : List TrieOp) : BytesMap := ops.foldl TrieOp.change {}

@[simp] theorem contents_append (ops : List TrieOp) (op : TrieOp) :
    contents (ops ++ [op]) = op.change (contents ops) := by
  simp [contents]

theorem session_append (sha3 : Bytes → H256) (ops : List TrieOp)
    (op : TrieOp) :
    session sha3 (ops ++ [op]) =
      session sha3 ops >>= fun g => op.apply sha3 g := by
  simp [session, List.foldlM_append]

/-- What a command writes. -/
def DBCommand.written? : DBCommand → Option Bytes
  | .insert _ v => some v
  | _ => none

/-- The byte strings that a run writes under their hashes. -/
def written {σ α : Type} [DB σ] (p : DBProgram α) (db : σ) : List Bytes :=
  (Program.commands DB.handler p db).filterMap DBCommand.written?

/-- No two nodes that a run writes have one hash. -/
def NoClash {σ α : Type} [DB σ] (sha3 : Bytes → H256) (p : DBProgram α)
    (db : σ) : Prop :=
  ∀ v ∈ written p db, ∀ w ∈ written p db, sha3 v = sha3 w → v = w

instance {σ α : Type} [DB σ] (sha3 : Bytes → H256) (p : DBProgram α) (db : σ) :
    Decidable (NoClash sha3 p db) :=
  inferInstanceAs (Decidable (∀ v ∈ written p db, ∀ w ∈ written p db,
    sha3 v = sha3 w → v = w))

/-- A database without contents. -/
structure Fresh {σ : Type} [LawfulDB σ] (db : σ) : Prop where
  lax : LawfulDB.Lax db
  lookup : ∀ h, DB.lookup db h = []

theorem fresh_memoryDB : Fresh ({} : MemoryDB) := ⟨rfl, fun _ => rfl⟩

/-- The scope of a run without clashes. -/
def NoClash.scope {σ α : Type} [DB σ] {sha3 : Bytes → H256} {p : DBProgram α}
    {db : σ} (h : NoClash sha3 p db) : Scope sha3 :=
  ⟨{ v | v ∈ written p db }, fun v hv w hw => h v hv w hw, 2 ^ 31 - 1, le_rfl⟩

/-- The same with nodes whose keys end at a lesser depth. -/
def Scope.below {sha3 : Bytes → H256} (S : Scope sha3) (B : Nat)
    (hB : B ≤ 2 ^ 31 - 1) : Scope sha3 :=
  ⟨S.strings, S.inj, B, hB⟩

/-- The scope of strings with different hashes. -/
def Scope.ofStrings {sha3 : Bytes → H256} (strings : Set Bytes)
    (inj : Set.InjOn sha3 strings) : Scope sha3 :=
  ⟨strings, inj, 2 ^ 31 - 1, le_rfl⟩

namespace Trie

open Program GenericTrieDB

variable {sha3 : Bytes → H256} {σ : Type} [LawfulDB σ] {S : Scope sha3}
  {db : σ} {g : GenericTrieDB} {m : BytesMap} {t : Trie} {n : Nat}

/-- What is proved of a program in a scope holds of its runs that write within
the scope. -/
theorem exists_run_of_written {α : Type} {p : DBProgram α}
    (h : ∀ v ∈ written p db, v ∈ S.strings) {Q : α → σ → Prop}
    (hp : wp DB.handler (Writes S) p db Q) :
    ∃ value db', run DB.handler p db = (.ok value, db') ∧ Q value db' := by
  refine exists_run_of_wp hp fun command hmem => ?_
  rcases command with x | x | ⟨x, v⟩ | x | _
  case insert => exact h v (List.mem_filterMap.2 ⟨_, hmem, rfl⟩)
  all_goals trivial

/-- What is proved of a program without assumptions holds of its runs. -/
theorem exists_run_of_wp_true {α : Type} {p : DBProgram α}
    {Q : α → σ → Prop} (hp : wp DB.handler (fun _ => True) p db Q) :
    ∃ value db', run DB.handler p db = (.ok value, db') ∧ Q value db' :=
  exists_run_of_wp hp fun _ _ => trivial

/-- The trie object `g` over `db` holds the map `m`, as the trie `t`. -/
structure Represents (S : Scope sha3) (db : σ) (g : GenericTrieDB)
    (m : BytesMap) (t : Trie) : Prop where
  opened : Opened S db g t
  denotes : m.Denotes t
  fits : m.Fits

/-- Only what is looked up matters. -/
theorem Represents.of_lookup {τ : Type} [LawfulDB τ] {db' : τ}
    (h : Represents S db g m t) (hlax : LawfulDB.Lax db')
    (hlookup : DB.lookup db' = DB.lookup db) : Represents S db' g m t := by
  obtain ⟨⟨⟨-, hknown⟩, hwithin, hstored, hroot, htop⟩, hdenotes, hfits⟩ := h
  rw [← hlookup] at hknown hstored htop
  exact ⟨⟨⟨hlax, hknown⟩, hwithin, hstored, hroot, htop⟩, hdenotes, hfits⟩

theorem wp_dbExists_bind {α : Type} (h : H256) (f : Bool → DBProgram α)
    {Q : α → σ → Prop} :
    wp DB.handler (Writes S) (dbExists h >>= f) db Q ↔
      wp DB.handler (Writes S) (f (DB.holds db h)) db Q :=
  forall_prop_of_true trivial

theorem wp_init (hdb : Fresh db) :
    wp DB.handler (Writes S) (GenericTrieDB.init sha3) db fun g db' =>
      Represents S db' g {} .empty ∧
        DB.Moves db db' 0 (total sha3 .empty) := by
  have hcons : Consistent S db :=
    ⟨hdb.lax, fun h hne => absurd (hdb.lookup h) hne⟩
  have hwithin : Within S.bound 0 .empty := trivial
  have hstored : Stored sha3 (DB.lookup db) .empty := trivial
  have hinsert := wp_forceInsertNode hcons hwithin hstored
  rw [enc_empty] at hinsert
  simp only [GenericTrieDB.init, initLoop, bind_assoc]
  refine wp_bind_of hinsert ?_
  rintro h db' ⟨rfl, hfollows, htop, hmoves⟩
  have htop' : DB.lookup db' (shaNull sha3) = rlpNull := htop
  have hne : rlpNull ≠ [] := by decide
  have hholds : DB.holds db' (shaNull sha3) = true :=
    LawfulDB.holds_of_lookup db' _ hfollows.consistent.lax
      (by rwa [htop'])
  have hroot : hash sha3 .empty = shaNull sha3 := rfl
  simp only [setRootWith, hroot, ↓reduceIte, bind_assoc, wp_dbExists_bind,
    hholds, Bool.not_true, Bool.false_eq_true, pure_bind, wp_node_bind, htop',
    hne, ne_eq, not_false_eq_true, decide_true, check_true, wp_ok_bind]
  exact ⟨⟨⟨hfollows.consistent, trivial, trivial, rfl, htop⟩,
    BytesMap.denotes_empty, BytesMap.fits_empty⟩, hmoves⟩

/-- An insertion, whatever the keys. -/
theorem Represents.wp_insert (h : Represents S db g m t) {k v : Bytes}
    (hshort : k.length * 2 < S.bound) (hv : Storable v) :
    wp DB.handler (Writes S) (g.insert sha3 k v) db fun g' db' =>
      Represents S db' g' (m.insert k v) (Patricia.insert t (nibbles k) v) ∧
        DB.Extends db db' ∧ (NoStop t (nibbles k) →
          DB.Moves db db' (total sha3 t)
            (total sha3 (Patricia.insert t (nibbles k) v))) := by
  have hbound := S.bound_le
  have hk : k.length < 2 ^ 30 := by omega
  refine wp_mono (Trie.wp_insert h.opened hv hshort) ?_
  rintro g' db' ⟨hopened, hextends, hmoves⟩
  exact ⟨⟨hopened, h.denotes.insert k v, h.fits.insert hk hv⟩, hextends,
    hmoves⟩

/-- A key as long as all others can be removed, whatever takes the place of a
branch left with its value. -/
theorem Represents.gives (h : Represents S db g m t) (hm : m.Uniform n)
    {k : Bytes} (hk : k.length = n) :
    Gives S db (.leaf []) t (nibbles k) where
  consistent := h.opened.consistent
  canonical := h.denotes.canonical
  stored := h.opened.stored
  within := h.opened.within
  reaches := h.denotes.reaches hm hk
  short x hx := absurd hx (h.denotes.not_strands hm hk x)
  replaces x hx := absurd hx (h.denotes.not_strands hm hk x)
  nonempty x := by simp
  bounded x d hx hd hlt := ⟨hx, hlt⟩

/-- Removing a key that is not there, where all keys have one length. -/
theorem Represents.wp_remove_absent (h : Represents S db g m t)
    (hm : m.Uniform n) (hbound : S.bound = 2 ^ 31 - 1) {k : Bytes}
    (hk : k.length = n) (hn : n < 2 ^ 30) (hnone : m.lookup k = none) :
    wp DB.handler (Writes S) (g.remove sha3 k) db fun g' db' =>
      g' = g ∧ db' = db :=
  wp_remove_none h.opened (h.gives hm hk) (by omega)
    (by rw [h.denotes.lookup, hnone])

/-- A change under a key as long as all others. -/
theorem Represents.wp_apply (h : Represents S db g m t) (hm : m.Uniform n)
    (hbound : S.bound = 2 ^ 31 - 1) (hn : n < 2 ^ 30) {op : TrieOp}
    (hkey : op.key.length = n) (hvalue : op.Storable) :
    wp DB.handler (Writes S) (op.apply sha3 g) db fun g' db' =>
      ∃ t', Represents S db' g' (op.change m) t' ∧ DB.Extends db db' ∧
        DB.Moves db db' (total sha3 t) (total sha3 t') := by
  cases op with
  | insert k v =>
      have hk : k.length = n := hkey
      refine wp_mono (h.wp_insert (by omega) hvalue) ?_
      rintro g' db' ⟨hrep, hextends, hmoves⟩
      exact ⟨_, hrep, hextends, hmoves (h.denotes.noStop hm hk)⟩
  | remove k =>
      have hk : k.length = n := hkey
      cases hlookup : m.lookup k with
      | none =>
          refine wp_mono (h.wp_remove_absent hm hbound hk hn hlookup) ?_
          rintro g' db' ⟨rfl, rfl⟩
          refine ⟨t, ?_, .refl db', .refl db' _⟩
          rw [TrieOp.change, BytesMap.erase_of_lookup_eq_none hlookup]
          exact h
      | some x =>
          have hx : Patricia.lookup t (nibbles k) = some x := by
            rw [h.denotes.lookup, hlookup]
          obtain ⟨t', hleft⟩ := Patricia.exists_remove hx (.leaf [])
          refine wp_mono (wp_remove_some h.opened (h.gives hm hk) (by omega)
            hleft) ?_
          rintro g' db' ⟨hopened, hextends, hmoves⟩
          exact ⟨t', ⟨hopened, h.denotes.erase hleft, h.fits.erase k⟩, hextends,
            hmoves (h.denotes.not_strands hm hk)⟩

end Trie

namespace TrieOp

variable {ops : List TrieOp} {op : TrieOp} {n : Nat}

/-- The keys of the changes have `n` bytes, and the values can be stored. -/
def Uniform (n : Nat) (ops : List TrieOp) : Prop :=
  ∀ op ∈ ops, op.key.length = n ∧ op.Storable

theorem Uniform.of_prefix {ops' : List TrieOp} (h : Uniform n ops')
    (hpre : ops <+: ops') : Uniform n ops :=
  fun op hop => h op (hpre.subset hop)

theorem Uniform.contents (h : Uniform n ops) : (contents ops).Uniform n := by
  induction ops using List.reverseRecOn with
  | nil => exact BytesMap.uniform_empty
  | append_singleton ops op ih =>
      have hmap := ih (h.of_prefix (List.prefix_append ops [op]))
      obtain ⟨hkey, -⟩ := h op (by simp)
      rw [contents_append]
      cases op with
      | insert k v => exact hmap.insert hkey v
      | remove k => exact hmap.erase k

end TrieOp

section Session

open Program Trie

variable {sha3 : Bytes → H256} {σ : Type} [LawfulDB σ] {S : Scope sha3}
  {db : σ} {ops pre : List TrieOp} {n : Nat}

/-- A session with keys of one length, on a fresh database. -/
theorem wp_session (hdb : Fresh db) (hbound : S.bound = 2 ^ 31 - 1)
    (hn : n < 2 ^ 30) (hops : TrieOp.Uniform n ops) :
    wp DB.handler (Writes S) (session sha3 ops) db fun g db' =>
      ∃ t, Represents S db' g (contents ops) t ∧
        DB.Moves db db' 0 (total sha3 t) := by
  induction ops using List.reverseRecOn with
  | nil =>
      refine wp_bind_of (wp_init hdb) ?_
      rintro g db' ⟨hrep, hmoves⟩
      exact ⟨.empty, hrep, hmoves⟩
  | append_singleton ops op ih =>
      have hpre := hops.of_prefix (List.prefix_append ops [op])
      obtain ⟨hkey, hvalue⟩ := hops op (by simp)
      rw [session_append, contents_append]
      refine wp_bind_of (ih hpre) ?_
      rintro g db' ⟨t, hrep, hmoves⟩
      refine wp_mono (hrep.wp_apply hpre.contents hbound hn hkey hvalue) ?_
      rintro g' db'' ⟨t', hrep', -, hmoves'⟩
      exact ⟨t', hrep', hmoves.trans hmoves'⟩

/-- The changes are insertions under short keys of values that can be
stored. -/
def TrieOp.Inserts (ops : List TrieOp) : Prop :=
  ∀ op ∈ ops, ∃ k v, op = .insert k v ∧ k.length < 2 ^ 30 ∧ Trie.Storable v

theorem TrieOp.Inserts.of_prefix (h : TrieOp.Inserts ops)
    (hpre : pre <+: ops) : TrieOp.Inserts pre :=
  fun op hop => h op (hpre.subset hop)

theorem TrieOp.Inserts.short (h : TrieOp.Inserts ops) :
    ∀ op ∈ ops, op.key.length * 2 < 2 ^ 31 - 1 := by
  intro op hop
  obtain ⟨k, v, rfl, hk, -⟩ := h op hop
  have hkey : (TrieOp.insert k v).key = k := rfl
  rw [hkey]
  omega

/-- A stored key was inserted. -/
theorem exists_key_of_contents {k : Bytes}
    (h : (contents ops).lookup k ≠ none) : ∃ op ∈ ops, op.key = k := by
  induction ops using List.reverseRecOn with
  | nil => exact absurd rfl h
  | append_singleton ops op ih =>
      by_cases hkey : op.key = k
      · exact ⟨op, by simp, hkey⟩
      · have hbefore : (contents ops).lookup k ≠ none := by
          rw [contents_append] at h
          cases op with
          | insert k' v =>
              have hne : ¬ k = k' := fun heq => hkey heq.symm
              rwa [TrieOp.change, OrderedMap.lookup_insert, if_neg hne] at h
          | remove k' =>
              have hne : ¬ k = k' := fun heq => hkey heq.symm
              rwa [TrieOp.change, OrderedMap.lookup_erase, if_neg hne] at h
        obtain ⟨op', hop', hkey'⟩ := ih hbefore
        exact ⟨op', by simp [hop'], hkey'⟩

/-- A session of insertions under keys of any lengths that the scope has room
for. -/
theorem wp_session_inserts_of (hdb : Fresh db) (hops : TrieOp.Inserts ops)
    (hshort : ∀ op ∈ ops, op.key.length * 2 < S.bound) :
    wp DB.handler (Writes S) (session sha3 ops) db fun g db' =>
      ∃ t, Represents S db' g (contents ops) t := by
  induction ops using List.reverseRecOn with
  | nil =>
      refine wp_bind_of (wp_init hdb) ?_
      rintro g db' ⟨hrep, -⟩
      exact ⟨.empty, hrep⟩
  | append_singleton ops op ih =>
      have hkey := hshort op (by simp)
      obtain ⟨k, v, rfl, -, hv⟩ := hops op (by simp)
      rw [session_append, contents_append]
      refine wp_bind_of (ih (hops.of_prefix (List.prefix_append ops _))
        fun op hop => hshort op (by simp [hop])) ?_
      rintro g db' ⟨t, hrep⟩
      refine wp_mono (hrep.wp_insert hkey hv) ?_
      rintro g' db'' ⟨hrep', -, -⟩
      exact ⟨_, hrep'⟩

/-- A session of insertions under keys of any lengths. -/
theorem wp_session_inserts (hdb : Fresh db) (hbound : S.bound = 2 ^ 31 - 1)
    (hops : TrieOp.Inserts ops) :
    wp DB.handler (Writes S) (session sha3 ops) db fun g db' =>
      ∃ t, Represents S db' g (contents ops) t := by
  refine wp_session_inserts_of hdb hops ?_
  rw [hbound]
  exact hops.short

theorem written_bind {α β : Type} {p : DBProgram α} {db' : σ} {value : α}
    (h : run DB.handler p db = (.ok value, db')) (f : α → DBProgram β) :
    written (p >>= f) db = written p db ++ written (f value) db' := by
  rw [written, commands_bind, h, List.filterMap_append]
  rfl

theorem written_bind_left {α β : Type} (p : DBProgram α) (f : α → DBProgram β)
    (db : σ) : written p db ⊆ written (p >>= f) db := by
  rw [written, written, commands_bind, List.filterMap_append]
  exact List.subset_append_left _ _

/-- A session writes what its beginning writes. -/
theorem written_prefix_subset (hpre : pre <+: ops) :
    written (session sha3 pre) db ⊆ written (session sha3 ops) db := by
  obtain ⟨rest, rfl⟩ := hpre
  induction rest using List.reverseRecOn with
  | nil =>
      rw [List.append_nil]
      exact List.Subset.refl _
  | append_singleton rest op ih =>
      rw [← List.append_assoc, session_append]
      exact List.Subset.trans ih (written_bind_left _ _ db)

theorem NoClash.of_prefix (h : NoClash sha3 (session sha3 ops) db)
    (hpre : pre <+: ops) : NoClash sha3 (session sha3 pre) db :=
  fun v hv w hw => h v (written_prefix_subset hpre hv) w (written_prefix_subset hpre hw)

end Session

end Web3Core
