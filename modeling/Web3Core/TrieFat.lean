/-
`FatGenericTrieDB`: a trie under the hashes of its keys that can be listed by
the keys, because the database keeps them in its auxiliary table.  The trie and
the table are in one database, so the operations are computations over it.
-/
import Web3Core.FixedHash
import Web3Core.TrieIteration

namespace Web3Core

open Program Trie

/-- A computation over a `MemoryDB`. -/
abbrev MemoryProgram (α : Type) := Stateful Exception MemoryDB α

/-- What a trie does. -/
def onTrie {α : Type} (p : DBProgram α) : MemoryProgram α :=
  fun db => run DB.handler p db

open Stateful

namespace FatGenericTrieDB

variable (sha3 : Bytes → H256)

/-- `at`. -/
def lookup (g : GenericTrieDB) (key : Bytes) : MemoryProgram Bytes :=
  onTrie (g.lookup (sha3 key).data)

/-- `insert`. -/
def insert (g : GenericTrieDB) (key value : Bytes) :
    MemoryProgram GenericTrieDB := do
  let hash := sha3 key
  let g' ← onTrie (g.insert sha3 hash.data value)
  modify fun db => db.insertAux hash key
  pure g'

/-- `remove`. -/
def remove (g : GenericTrieDB) (key : Bytes) : MemoryProgram GenericTrieDB :=
  onTrie (g.remove sha3 (sha3 key).data)

def apply (g : GenericTrieDB) : TrieOp → MemoryProgram GenericTrieDB
  | .insert key value => insert sha3 g key value
  | .remove key => remove sha3 g key

/-- `init` and then the changes. -/
def session (ops : List TrieOp) : MemoryProgram GenericTrieDB := do
  let g ← onTrie (GenericTrieDB.init sha3)
  ops.foldlM (apply sha3) g

open GenericTrieDB (Iterator)

/-- The constructor `iterator(_trie)`. -/
def iteratorOf (g : GenericTrieDB) (fuel : Nat) : MemoryProgram Iterator :=
  onTrie (g.begin fuel)

/-- `begin()`, which calls the other constructor. -/
def begin (_ : GenericTrieDB) (_ : Nat) : MemoryProgram Iterator := pure {}

/-- `end()`. -/
def finish : Iterator := {}

/-- `iterator::at`. -/
def entry (it : Iterator) : MemoryProgram (Bytes × Bytes) := do
  let hashed ← ofResult it.entry
  match it.that with
  | none => throw .nullPointer
  | some _ => do
      let db ← get
      let hash := FixedHash.fromRef 32 (.ofBytes hashed.1) .failIfDifferent
      pure (db.lookupAux hash, hashed.2)

/-- `for (; it != end(); ++it)`, with all entries on the way. -/
def collect (fuel : Nat) :
    Nat → Iterator → MemoryProgram (List (Bytes × Bytes))
  | 0, _ => throw .outOfFuel
  | rounds + 1, it =>
      if it.equals finish then pure []
      else do
        let e ← entry it
        let it' ← onTrie (it.next fuel)
        let rest ← collect fuel rounds it'
        pure (e :: rest)

end FatGenericTrieDB

/-! The changes, told by what they do to the trie under the hashes. -/

section Hashed

variable {sha3 : Bytes → H256} {ops : List TrieOp} {op : TrieOp}
  {db : MemoryDB} {k : Bytes}

/-- The change under the hash of its key. -/
def TrieOp.hashed (sha3 : Bytes → H256) : TrieOp → TrieOp
  | .insert key value => .insert (sha3 key).data value
  | .remove key => .remove (sha3 key).data

theorem TrieOp.key_hashed (op : TrieOp) :
    (op.hashed sha3).key = (sha3 op.key).data := by
  cases op <;> rfl

theorem TrieOp.Storable.hashed (h : op.Storable) :
    (op.hashed sha3).Storable := by
  cases op <;> exact h

/-- What the change leaves under its key. -/
def TrieOp.value? : TrieOp → Option Bytes
  | .insert _ value => some value
  | .remove _ => none

theorem TrieOp.value?_hashed (op : TrieOp) :
    (op.hashed sha3).value? = op.value? := by
  cases op <;> rfl

theorem TrieOp.lookup_change (op : TrieOp) (m : BytesMap) (k : Bytes) :
    (op.change m).lookup k = if k = op.key then op.value? else m.lookup k := by
  cases op with
  | insert key value =>
      by_cases hk : k = key <;>
        simp [change, OrderedMap.lookup_insert, value?, TrieOp.key, hk]
  | remove key =>
      by_cases hk : k = key <;>
        simp [change, OrderedMap.lookup_erase, value?, TrieOp.key, hk]

/-- The auxiliary table. -/
abbrev AuxTable := AList (fun _ : H256 => Bytes × Bool)

/-- What a change writes into the auxiliary table. -/
def TrieOp.keep (sha3 : Bytes → H256) (aux : AuxTable) : TrieOp → AuxTable
  | .insert key _ => aux.insert (sha3 key) (key, true)
  | .remove _ => aux

def kept (sha3 : Bytes → H256) (ops : List TrieOp) : AuxTable :=
  ops.foldl (TrieOp.keep sha3) ∅

@[simp] theorem kept_append (sha3 : Bytes → H256) (ops : List TrieOp)
    (op : TrieOp) : kept sha3 (ops ++ [op]) = op.keep sha3 (kept sha3 ops) := by
  simp [kept]

/-- The database with another auxiliary table. -/
def MemoryDB.withAux (db : MemoryDB) (aux : AuxTable) : MemoryDB :=
  { db with aux }

theorem insert_withAux (db : MemoryDB) (aux : AuxTable) (h : H256) (v : Bytes) :
    (db.withAux aux).insert h v = (db.insert h v).withAux aux := by
  cases hm : db.main.lookup h <;>
    simp [MemoryDB.insert, MemoryDB.withAux, hm]

theorem kill_withAux (db : MemoryDB) (aux : AuxTable) (h : H256) :
    (db.withAux aux).kill h = (db.kill h).withAux aux := by
  cases hm : db.main.lookup h with
  | none => simp [MemoryDB.kill, MemoryDB.killCounted, MemoryDB.withAux, hm]
  | some e =>
      obtain ⟨v, refs⟩ := e
      by_cases hrefs : 0 < refs <;>
        simp [MemoryDB.kill, MemoryDB.killCounted, MemoryDB.withAux, hm, hrefs]

/-- A trie leaves the auxiliary table alone. -/
theorem run_withAux {α : Type} (p : DBProgram α) (db : MemoryDB)
    (aux : AuxTable) :
    run DB.handler p (db.withAux aux) =
      ((run DB.handler p db).1, (run DB.handler p db).2.withAux aux) := by
  induction p generalizing db with
  | done value => rfl
  | throw error => rfl
  | call command next ih =>
      cases command with
      | lookup h => exact ih _ db
      | «exists» h => exact ih _ db
      | keys => exact ih _ db
      | insert h v =>
          show run DB.handler (next ()) ((db.withAux aux).insert h v) = _
          rw [insert_withAux]
          exact ih () (db.insert h v)
      | kill h =>
          show run DB.handler (next ()) ((db.withAux aux).kill h) = _
          rw [kill_withAux]
          exact ih () (db.kill h)

theorem onTrie_withAux {α : Type} {p : DBProgram α} {db db' : MemoryDB}
    {value : α} (h : run DB.handler p db = (.ok value, db')) (aux : AuxTable) :
    onTrie p (db.withAux aux) = (.ok value, db'.withAux aux) := by
  rw [onTrie, run_withAux, h]

theorem apply_hashed {g g' : GenericTrieDB} {db' : MemoryDB} (aux : AuxTable)
    (h : run DB.handler ((op.hashed sha3).apply sha3 g) db = (.ok g', db')) :
    FatGenericTrieDB.apply sha3 g op (db.withAux aux) =
      (.ok g', db'.withAux (op.keep sha3 aux)) := by
  cases op with
  | insert key value =>
      have hrun : onTrie (g.insert sha3 (sha3 key).data value)
          (db.withAux aux) = (.ok g', db'.withAux aux) := onTrie_withAux h aux
      show FatGenericTrieDB.insert sha3 g key value (db.withAux aux) = _
      rw [FatGenericTrieDB.insert, bind_of_ok hrun]
      rfl
  | remove key => exact onTrie_withAux h aux

/-- The changes are those of the trie under the hashes, and what they write
into the auxiliary table. -/
theorem session_hashed {g : GenericTrieDB} {db : MemoryDB}
    (h : run DB.handler (session sha3 (ops.map (TrieOp.hashed sha3)))
      ({} : MemoryDB) = (.ok g, db)) :
    FatGenericTrieDB.session sha3 ops {} =
      (.ok g, db.withAux (kept sha3 ops)) := by
  induction ops using List.reverseRecOn generalizing g db with
  | nil =>
      have hrun : run DB.handler (GenericTrieDB.init sha3) ({} : MemoryDB) =
          (.ok g, db) := by rwa [← bind_pure (GenericTrieDB.init sha3)]
      have hinit : onTrie (GenericTrieDB.init sha3)
          (({} : MemoryDB).withAux ∅) = (.ok g, db.withAux ∅) :=
        onTrie_withAux hrun ∅
      show FatGenericTrieDB.session sha3 [] (({} : MemoryDB).withAux ∅) = _
      rw [FatGenericTrieDB.session, bind_of_ok hinit]
      rfl
  | append_singleton ops op ih =>
      rw [List.map_append, List.map_singleton, session_append, run_bind] at h
      match hfirst : run DB.handler
          (session sha3 (ops.map (TrieOp.hashed sha3))) ({} : MemoryDB) with
      | (.error e, db₁) =>
          rw [hfirst] at h
          cases h
      | (.ok g₁, db₁) =>
          rw [hfirst] at h
          have hbefore := ih hfirst
          have happend : FatGenericTrieDB.session sha3 (ops ++ [op]) =
              FatGenericTrieDB.session sha3 ops >>= fun g =>
                FatGenericTrieDB.apply sha3 g op := by
            simp [FatGenericTrieDB.session, List.foldlM_append]
          rw [happend, bind_of_ok hbefore, kept_append]
          exact apply_hashed _ h

end Hashed

/-! What occurs in a session has different hashes, so the hashes of the keys
stand for the keys. -/

section Distinct

variable {sha3 : Bytes → H256} {ops pre : List TrieOp} {op : TrieOp}
  {k v : Bytes}

/-- The keys and the nodes that occur in a session. -/
def occurring (sha3 : Bytes → H256) (ops : List TrieOp) : List Bytes :=
  ops.map TrieOp.key ++
    written (session sha3 (ops.map (TrieOp.hashed sha3))) ({} : MemoryDB)

/-- No two of them have one hash. -/
def Distinct (sha3 : Bytes → H256) (ops : List TrieOp) : Prop :=
  ∀ x ∈ occurring sha3 ops, ∀ y ∈ occurring sha3 ops, sha3 x = sha3 y → x = y

instance (sha3 : Bytes → H256) (ops : List TrieOp) :
    Decidable (Distinct sha3 ops) :=
  inferInstanceAs (Decidable (∀ x ∈ occurring sha3 ops,
    ∀ y ∈ occurring sha3 ops, sha3 x = sha3 y → x = y))

theorem Distinct.noClash (h : Distinct sha3 ops) :
    NoClash sha3 (session sha3 (ops.map (TrieOp.hashed sha3)))
      ({} : MemoryDB) :=
  fun x hx y hy => h x (List.mem_append_right _ hx) y
    (List.mem_append_right _ hy)

/-- The keys of the changes have different hashes. -/
def KeysDistinct (sha3 : Bytes → H256) (ops : List TrieOp) : Prop :=
  ∀ x ∈ ops, ∀ y ∈ ops, sha3 x.key = sha3 y.key → x.key = y.key

theorem Distinct.keys (h : Distinct sha3 ops) : KeysDistinct sha3 ops :=
  fun x hx y hy => h x.key (List.mem_append_left _ (List.mem_map_of_mem hx))
    y.key (List.mem_append_left _ (List.mem_map_of_mem hy))

theorem KeysDistinct.of_prefix (h : KeysDistinct sha3 ops)
    (hpre : pre <+: ops) : KeysDistinct sha3 pre :=
  fun x hx y hy => h x (hpre.subset hx) y (hpre.subset hy)

/-- The auxiliary table has every stored key under its hash. -/
theorem KeysDistinct.lookup_kept (h : KeysDistinct sha3 ops)
    (hk : (contents ops).lookup k ≠ none) :
    (kept sha3 ops).lookup (sha3 k) = some (k, true) := by
  induction ops using List.reverseRecOn with
  | nil => exact absurd rfl hk
  | append_singleton ops op ih =>
      have hpre := h.of_prefix (List.prefix_append ops [op])
      obtain ⟨op', hop', rfl⟩ := exists_key_of_contents hk
      rw [contents_append, TrieOp.lookup_change] at hk
      rw [kept_append]
      cases op with
      | insert k' v =>
          rw [TrieOp.keep]
          by_cases heq : op'.key = k'
          · rw [heq, AList.lookup_insert]
          · have hne : sha3 op'.key ≠ sha3 k' := fun hsame =>
              heq (h op' hop' (.insert k' v) (by simp) hsame)
            rw [AList.lookup_insert_ne hne]
            exact ih hpre (by rwa [TrieOp.key, if_neg heq] at hk)
      | remove k' =>
          refine ih hpre ?_
          split at hk
          · exact absurd rfl hk
          · exact hk

/-- The trie under the hashes has the values of the stored keys. -/
theorem KeysDistinct.lookup_hashed (h : KeysDistinct sha3 ops) (x v : Bytes) :
    (contents (ops.map (TrieOp.hashed sha3))).lookup x = some v ↔
      ∃ k, x = (sha3 k).data ∧ (contents ops).lookup k = some v := by
  induction ops using List.reverseRecOn with
  | nil => simp [contents]
  | append_singleton ops op ih =>
      have hpre := ih (h.of_prefix (List.prefix_append ops [op]))
      have hkey : ∀ k, (contents ops).lookup k ≠ none →
          sha3 k = sha3 op.key → k = op.key := by
        intro k hk hsame
        obtain ⟨op', hop', rfl⟩ := exists_key_of_contents hk
        exact h op' (by simp [hop']) op (by simp) hsame
      rw [List.map_append, List.map_singleton, contents_append, contents_append]
      simp only [TrieOp.lookup_change, TrieOp.key_hashed, TrieOp.value?_hashed]
      constructor
      · intro hx
        split at hx
        · rename_i heq
          exact ⟨op.key, heq, by rwa [if_pos rfl]⟩
        · rename_i hne
          obtain ⟨k, rfl, hk⟩ := hpre.1 hx
          refine ⟨k, rfl, ?_⟩
          rwa [if_neg]
          rintro rfl
          exact hne rfl
      · rintro ⟨k, rfl, hk⟩
        split at hk
        · rename_i heq
          rwa [heq, if_pos rfl]
        · rename_i hne
          have hstored : (contents ops).lookup k ≠ none := by
            rw [hk]
            exact Option.some_ne_none v
          rw [if_neg fun hsame => hne (hkey k hstored (FixedHash.ext hsame))]
          exact hpre.2 ⟨k, rfl, hk⟩

end Distinct

/-! Iteration. -/

section Listing

variable {sha3 : Bytes → H256} {S : Scope sha3} {db : MemoryDB}
  {g : GenericTrieDB} {m : BytesMap} {t : Trie} {ops : List TrieOp}
  {ss : List Stop} {es : List (Bytes × Bytes)}
  {p : Nat → MemoryProgram GenericTrieDB.Iterator}

/-- The entry with the key in place of its hash. -/
def preimage (db : MemoryDB) (e : Bytes × Bytes) : Bytes × Bytes :=
  (db.lookupAux (FixedHash.fromRef 32 (.ofBytes e.1) .failIfDifferent), e.2)

theorem entry_at {s : Stop} {e : Bytes × Bytes} (h : s.At g e) :
    FatGenericTrieDB.entry ⟨s.trail, some g⟩ db =
      (.ok (preimage db e), db) := by
  have hentry : ofResult (GenericTrieDB.Iterator.entry ⟨s.trail, some g⟩) db =
      (.ok e, db) := by rw [ofResult, h.entry]
  rw [FatGenericTrieDB.entry, bind_of_ok hentry]
  rfl

/-- Going through all entries from where a computation leaves the iterator. -/
theorem exists_collect_preimages (hat : List.Forall₂ (Stop.At g) ss es)
    (hvisits : Visits (nextRun g db) (returned g db) (fun fuel => p fuel db)
      (ss.map Stop.trail) (nextRun g db [])) :
    ∃ enough, ∀ fuel ≥ enough, ∀ rounds > ss.length,
      (p fuel >>= fun it => FatGenericTrieDB.collect fuel rounds it) db =
        (.ok (es.map (preimage db)), db) := by
  induction hat generalizing p with
  | nil =>
      obtain ⟨enough, h⟩ := (Leads.trans hvisits nextRun_nil).exists_forall
      refine ⟨enough, fun fuel hfuel rounds hrounds => ?_⟩
      obtain ⟨rounds, rfl⟩ := Nat.exists_eq_succ_of_ne_zero hrounds.ne'
      rw [bind_of_ok (h fuel hfuel)]
      rfl
  | @cons s e ss es hs _ ih =>
      obtain ⟨enough, h⟩ := hvisits.1.exists_forall
      obtain ⟨enough', h'⟩ := ih (p := fun fuel =>
        onTrie (GenericTrieDB.nextLoop (some g) fuel s.trail)) hvisits.2
      refine ⟨max enough enough', fun fuel hfuel rounds hrounds => ?_⟩
      obtain ⟨rounds, rfl⟩ := Nat.exists_eq_succ_of_ne_zero
        (Nat.ne_of_gt (Nat.zero_lt_of_lt hrounds))
      have hrest := h' fuel (le_trans (le_max_right _ _) hfuel) rounds
        (Nat.lt_of_succ_lt_succ hrounds)
      have hpast : GenericTrieDB.Iterator.equals ⟨s.trail, some g⟩
          FatGenericTrieDB.finish = false := hs.not_past
      rw [bind_of_ok (h fuel (le_trans (le_max_left _ _) hfuel)),
        FatGenericTrieDB.collect, if_neg (by simp [hpast]),
        bind_of_ok (entry_at hs), ← bind_assoc, GenericTrieDB.Iterator.next,
        bind_of_ok hrest]
      rfl

/-- From the iterator at the first entry all entries are gone through, each
with the key that was kept for its hash. -/
theorem Trie.Represents.exists_collect_preimages
    (hrep : Represents S db g m t) :
    ∃ enough, ∀ fuel ≥ enough,
      (FatGenericTrieDB.iteratorOf g fuel >>= fun it =>
        FatGenericTrieDB.collect fuel fuel it) db =
          (.ok (m.entries.map (preimage db)), db) := by
  have hat : List.Forall₂ (Stop.At g) (stops sha3 t [] []) m.entries :=
    stops_at hrep.denotes hrep.opened.within
  obtain ⟨enough, h⟩ := Web3Core.exists_collect_preimages hat
    (visits_begin hrep.opened)
  refine ⟨max enough ((stops sha3 t [] []).length + 1), fun fuel hfuel => ?_⟩
  exact h fuel (le_trans (le_max_left _ _) hfuel) fuel
    (lt_of_lt_of_le (Nat.lt_succ_self _) (le_trans (le_max_right _ _) hfuel))

/-- The auxiliary table says nothing of the trie. -/
theorem Trie.Represents.withAux (h : Represents S db g m t) (aux : AuxTable) :
    Represents S (db.withAux aux) g m t :=
  h.of_lookup h.opened.consistent.lax rfl

/-- What a session leaves: the trie under the hashes, and the keys in the
auxiliary table. -/
theorem exists_fat_session (hops : ∀ op ∈ ops, op.Storable)
    (hdistinct : Distinct sha3 ops) :
    ∃ g db t, FatGenericTrieDB.session sha3 ops {} = (.ok g, db) ∧
      Represents hdistinct.noClash.scope db g
        (contents (ops.map (TrieOp.hashed sha3))) t ∧
      db.aux = kept sha3 ops := by
  have huniform : TrieOp.Uniform 32 (ops.map (TrieOp.hashed sha3)) := by
    intro op' hop'
    obtain ⟨op, hop, rfl⟩ := List.mem_map.1 hop'
    refine ⟨?_, (hops op hop).hashed⟩
    rw [TrieOp.key_hashed, (sha3 op.key).size_data]
  obtain ⟨g, db, hrun, t, hrep, -⟩ := exists_run_of_written
    (S := hdistinct.noClash.scope) (fun v hv => hv)
    (wp_session fresh_memoryDB rfl (by decide) huniform)
  exact ⟨g, db.withAux (kept sha3 ops), t, session_hashed hrun,
    hrep.withAux _, rfl⟩

end Listing

/-! Listing by the original keys. -/

section Lists

variable {sha3 : Bytes → H256} {ops : List TrieOp}

/-- Where an iteration starts. -/
abbrev Start := GenericTrieDB → Nat → MemoryProgram GenericTrieDB.Iterator

/-- After the changes, iterating from `start` to `end()` yields the stored keys
with their values, each once. -/
def Lists (start : Start) (sha3 : Bytes → H256) (ops : List TrieOp) : Prop :=
  ∃ g db es enough, FatGenericTrieDB.session sha3 ops {} = (.ok g, db) ∧
    (∀ fuel ≥ enough, (start g fuel >>= fun it =>
      FatGenericTrieDB.collect fuel fuel it) db = (.ok es, db)) ∧
    es.Perm (contents ops).entries ∧
    ∀ e ∈ es, FatGenericTrieDB.lookup sha3 g e.1 db = (.ok e.2, db)

theorem nodup_entries (m : BytesMap) : m.entries.Nodup :=
  m.ordered.imp fun {_ _} hlt heq => hlt.ne (congrArg Prod.fst heq)

theorem preimage_hash {db : MemoryDB} (hlax : db.enforceRefs = false)
    {k : Bytes} (hk : db.aux.lookup (sha3 k) = some (k, true)) (v : Bytes) :
    preimage db ((sha3 k).data, v) = (k, v) := by
  have hhash : FixedHash.fromRef 32 (.ofBytes (sha3 k).data) .failIfDifferent =
      sha3 k := by
    rw [FixedHash.fromRef, BytesConstRef.toBytes_ofBytes, FixedHash.construct,
      dif_pos (sha3 k).size_data]
  rw [preimage, hhash, MemoryDB.lookupAux, hk]
  simp [hlax]

/-- Of the entries under the hashes the table makes those of the changes. -/
theorem KeysDistinct.perm_preimages (h : KeysDistinct sha3 ops) {db : MemoryDB}
    (hlax : db.enforceRefs = false) (haux : db.aux = kept sha3 ops) :
    ((contents (ops.map (TrieOp.hashed sha3))).entries.map (preimage db)).Perm
      (contents ops).entries := by
  have hpreimage : ∀ k v, (contents ops).lookup k = some v →
      preimage db ((sha3 k).data, v) = (k, v) := by
    intro k v hk
    refine preimage_hash hlax ?_ v
    rw [haux]
    exact h.lookup_kept (by rw [hk]; exact Option.some_ne_none v)
  have hmem : ∀ e ∈ (contents (ops.map (TrieOp.hashed sha3))).entries,
      ∃ k, e.1 = (sha3 k).data ∧ (contents ops).lookup k = some e.2 ∧
        preimage db e = (k, e.2) := by
    rintro ⟨x, v⟩ he
    obtain ⟨k, rfl, hk⟩ :=
      (h.lookup_hashed x v).1 (OrderedMap.lookup_eq_some_iff.2 he)
    exact ⟨k, rfl, hk, hpreimage k v hk⟩
  refine (List.perm_ext_iff_of_nodup (List.Nodup.map_on ?_ (nodup_entries _))
    (nodup_entries _)).2 ?_
  · intro e he e' he' heq
    obtain ⟨k, hkey, -, hpre⟩ := hmem e he
    obtain ⟨k', hkey', -, hpre'⟩ := hmem e' he'
    rw [hpre, hpre'] at heq
    obtain ⟨rfl, hvalue⟩ := Prod.mk.inj heq
    exact Prod.ext (hkey.trans hkey'.symm) hvalue
  · rintro ⟨k, v⟩
    rw [List.mem_map, ← OrderedMap.lookup_eq_some_iff]
    constructor
    · rintro ⟨e, he, heq⟩
      obtain ⟨k', -, hk', hpre⟩ := hmem e he
      obtain ⟨rfl, rfl⟩ := Prod.mk.inj (hpre.symm.trans heq)
      exact hk'
    · intro hk
      exact ⟨((sha3 k).data, v), OrderedMap.lookup_eq_some_iff.1
        ((h.lookup_hashed _ v).2 ⟨k, rfl, hk⟩), hpreimage k v hk⟩

/-- The constructor that `begin()` does not call makes an iterator that lists
the trie by its keys. -/
theorem lists_iteratorOf (hops : ∀ op ∈ ops, op.Storable)
    (hdistinct : Distinct sha3 ops) :
    Lists FatGenericTrieDB.iteratorOf sha3 ops := by
  obtain ⟨g, db, t, hrun, hrep, haux⟩ := exists_fat_session hops hdistinct
  obtain ⟨enough, h⟩ := hrep.exists_collect_preimages
  have hlax : db.enforceRefs = false := hrep.opened.consistent.lax
  have hperm := hdistinct.keys.perm_preimages hlax haux
  refine ⟨g, db, _, enough, hrun, h, hperm, ?_⟩
  rintro ⟨k, v⟩ he
  have hk := OrderedMap.lookup_eq_some_iff.2 (hperm.subset he)
  have hat := hrep.run_lookup rfl (k := (sha3 k).data)
    (by rw [(sha3 k).size_data]; decide)
  rwa [(hdistinct.keys.lookup_hashed _ v).2 ⟨k, rfl, hk⟩] at hat

theorem collect_begin_nil (g : GenericTrieDB) (db : MemoryDB) (fuel : Nat) :
    (FatGenericTrieDB.begin g (fuel + 1) >>= fun it =>
      FatGenericTrieDB.collect (fuel + 1) (fuel + 1) it) db = (.ok [], db) :=
  rfl

/-- **Listing a fat trie.**  Iterating from `begin()` to `end()` yields the
stored keys with their values if and only if no key is stored: `begin()` is the
iterator without a trie, which `end()` is as well. -/
theorem lists_begin_iff (hops : ∀ op ∈ ops, op.Storable)
    (hdistinct : Distinct sha3 ops) :
    Lists FatGenericTrieDB.begin sha3 ops ↔ (contents ops).entries = [] := by
  constructor
  · rintro ⟨g, db, es, enough, -, hlist, hperm, -⟩
    have h := hlist (enough + 1) (Nat.le_succ enough)
    rw [collect_begin_nil] at h
    cases h
    exact hperm.symm.eq_nil
  · intro hnone
    obtain ⟨g, db, es, enough, hrun, -⟩ := lists_iteratorOf hops hdistinct
    refine ⟨g, db, [], 1, hrun, ?_, by rw [hnone], by simp⟩
    intro fuel hfuel
    obtain ⟨fuel, rfl⟩ := Nat.exists_eq_add_of_le' hfuel
    exact collect_begin_nil g db fuel

/-- A key that is inserted and removed again. -/
theorem lists_begin_iff_removed :
    Lists FatGenericTrieDB.begin frontHash
        [.insert [1] [2], .remove [1]] ↔
      (contents [.insert [1] [2], .remove [1]]).entries = [] :=
  lists_begin_iff (by simp [TrieOp.Storable, Trie.Storable]) (by decide +kernel)

/-- A stored key is not listed. -/
theorem not_lists_begin :
    Distinct frontHash [.insert [1] [2]] ∧
      (contents [.insert [1] [2]]).entries = [([1], [2])] ∧
      ¬ Lists FatGenericTrieDB.begin frontHash [.insert [1] [2]] := by
  refine ⟨by decide +kernel, rfl, ?_⟩
  rintro ⟨g, db, es, enough, -, hlist, hperm, -⟩
  have h := hlist (enough + 1) (Nat.le_succ enough)
  rw [collect_begin_nil] at h
  cases h
  have hlength := hperm.length_eq
  simp [contents, TrieOp.change] at hlength
  exact absurd hlength (by decide)

end Lists

end Web3Core
