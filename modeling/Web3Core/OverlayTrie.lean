/-
A trie over an overlay: what is asked of the overlay are the commands of the
trie, commits and rollbacks.  A commit writes to disk what is referenced in
memory; every string goes there under its hash.
-/
import Mathlib.Algebra.BigOperators.Pi
import Web3Core.OverlayRollback
import Web3Core.TrieCounts
import Web3Core.TrieWrites

namespace Web3Core

open Program GenericTrieDB

/-- What is asked of an overlay that keeps a trie. -/
inductive OverlayCommand where
  | node (command : DBCommand)
  | commit
  | rollback

abbrev OverlayAnswer : OverlayCommand → Type
  | .node command => DBAnswer command
  | .commit => Unit
  | .rollback => Unit

/-- A computation over an overlay. -/
abbrev OverlayProgram (α : Type) :=
  Program OverlayCommand OverlayAnswer Exception α

namespace OverlayDB

/-- How an overlay answers. -/
def handler : Program.Handler OverlayCommand OverlayAnswer OverlayDB
  | .node command, o => DB.handler command o
  | .commit, o => ((), o.commit)
  | .rollback, o => ((), o.rollback)

/-- A computation of the trie. -/
def onTrie {α : Type} : DBProgram α → OverlayProgram α
  | .done value => .done value
  | .throw error => .throw error
  | .call command next =>
      .call (.node command) fun answer => onTrie (next answer)

end OverlayDB

/-- A trie over an overlay, and the root that was committed last. -/
structure CommittedTrie where
  trie : GenericTrieDB
  last : Option H256 := none

/-- A step of a run.  A rollback goes back to the root that was committed last,
or to that of the empty trie if there is none. -/
inductive CommitOp where
  | change (op : TrieOp)
  | commit
  | rollback

namespace CommitOp

def apply (sha3 : Bytes → H256) (c : CommittedTrie) :
    CommitOp → OverlayProgram CommittedTrie
  | .change op => do
      let g ← OverlayDB.onTrie (op.apply sha3 c.trie)
      pure { c with trie := g }
  | .commit => .call .commit fun _ =>
      pure { c with last := some c.trie.root }
  | .rollback => .call .rollback fun _ => do
      let g ← OverlayDB.onTrie (setRoot sha3 (c.last.getD (shaNull sha3)))
      pure { c with trie := g }

/-- The keys of the changes have `n` bytes, and the values can be stored. -/
def Uniform (n : Nat) (ops : List CommitOp) : Prop :=
  ∀ op, .change op ∈ ops → op.key.length = n ∧ op.Storable

end CommitOp

/-- `init` and then the steps. -/
def commitSession (sha3 : Bytes → H256) (ops : List CommitOp) :
    OverlayProgram CommittedTrie := do
  let g ← OverlayDB.onTrie (GenericTrieDB.init sha3)
  ops.foldlM (CommitOp.apply sha3) ⟨g, none⟩

/-- `setRoot` and then `at`. -/
def reopen (sha3 : Bytes → H256) (root : H256) (key : Bytes) :
    DBProgram Bytes := do
  let g ← setRoot sha3 root
  g.lookup key

/-- The map that is held, and the one that was held at the last commit. -/
structure CommittedMap where
  current : BytesMap := {}
  last : BytesMap := {}

/-- What a step does to the maps. -/
def CommitOp.track (m : CommittedMap) : CommitOp → CommittedMap
  | .change op => { m with current := op.change m.current }
  | .commit => { m with last := m.current }
  | .rollback => { m with current := m.last }

def tracked (ops : List CommitOp) : CommittedMap :=
  ops.foldl CommitOp.track {}

/-- What a command writes. -/
def OverlayCommand.written? : OverlayCommand → Option Bytes
  | .node command => command.written?
  | _ => none

/-- The strings that a run writes under their hashes. -/
def writtenOver {α : Type} (p : OverlayProgram α) (o : OverlayDB) :
    List Bytes :=
  (Program.commands OverlayDB.handler p o).filterMap OverlayCommand.written?

/-- A LevelDB without contents. -/
def LevelDB.empty : LevelDB := fun _ => none

/-- No two nodes that a run on an empty LevelDB writes have one hash. -/
def CommitsDistinct (sha3 : Bytes → H256) (ops : List CommitOp) : Prop :=
  let nodes := writtenOver (commitSession sha3 ops)
    (OverlayDB.ofLevelDB LevelDB.empty)
  ∀ v ∈ nodes, ∀ w ∈ nodes, sha3 v = sha3 w → v = w

instance (sha3 : Bytes → H256) (ops : List CommitOp) :
    Decidable (CommitsDistinct sha3 ops) :=
  inferInstanceAs (Decidable (∀ v ∈ writtenOver (commitSession sha3 ops)
    (OverlayDB.ofLevelDB LevelDB.empty), ∀ w ∈ writtenOver
      (commitSession sha3 ops) (OverlayDB.ofLevelDB LevelDB.empty),
        sha3 v = sha3 w → v = w))

namespace LevelDB

variable {db : LevelDB} {batch : List (Bytes × Bytes)} {k v : Bytes}

theorem write_of_not_mem (h : ∀ v, (k, v) ∉ batch) :
    db.write batch k = db k := by
  induction batch using List.reverseRecOn with
  | nil => rfl
  | append_singleton batch i ih =>
      have hi : k ≠ i.1 := by
        rintro rfl
        exact h i.2 (by simp)
      rw [write, List.foldl_append, List.foldl_cons, List.foldl_nil,
        Function.update_of_ne hi]
      exact ih fun v hv => h v (List.mem_append_left _ hv)

theorem write_of_mem (h : (k, v) ∈ batch)
    (hunique : ∀ w, (k, w) ∈ batch → w = v) : db.write batch k = some v := by
  induction batch using List.reverseRecOn with
  | nil => exact absurd h List.not_mem_nil
  | append_singleton batch i ih =>
      rw [write, List.foldl_append, List.foldl_cons, List.foldl_nil]
      by_cases hi : k = i.1
      · subst hi
        rw [Function.update_self, hunique i.2 (by simp)]
      · rw [Function.update_of_ne hi]
        have hmem : (k, v) ∈ batch := by
          rcases List.mem_append.1 h with h | h
          · exact h
          · exact absurd (congrArg Prod.fst (List.mem_singleton.1 h)) hi
        exact ih hmem fun w hw => hunique w (List.mem_append_left _ hw)

end LevelDB

namespace OverlayDB

variable {o : OverlayDB} {db : LevelDB}

theorem mem_batch_iff {m : MemoryDB} (haux : m.aux = ∅) (h : H256) (v : Bytes) :
    (h.data, v) ∈ batch m ↔
      ∃ refs, m.main.lookup h = some (v, refs) ∧ refs ≠ 0 := by
  have hentries : m.aux.entries = [] := by
    rw [haux]
    rfl
  rw [batch, hentries, List.filter_nil, List.map_nil, List.append_nil,
    List.mem_map]
  constructor
  · rintro ⟨⟨h', v', refs⟩, hmem, heq⟩
    obtain ⟨hdata, rfl⟩ := Prod.mk.inj heq
    obtain rfl := FixedHash.ext hdata
    obtain ⟨hmem, hrefs⟩ := List.mem_filter.1 hmem
    exact ⟨refs, AList.mem_lookup_iff.2 hmem, of_decide_eq_true hrefs⟩
  · rintro ⟨refs, hlookup, hrefs⟩
    exact ⟨⟨h, v, refs⟩, List.mem_filter.2
      ⟨AList.mem_lookup_iff.1 hlookup, decide_eq_true hrefs⟩, rfl⟩

/-- What is on disk after a commit without auxiliary contents. -/
theorem get_commit (hdb : o.db = some db) (haux : o.memory.aux = ∅)
    (h : H256) :
    o.commit.get h.data =
      match o.memory.main.lookup h with
      | some (v, refs) => if refs ≠ 0 then v else o.get h.data
      | none => o.get h.data := by
  have hget : ∀ key, o.commit.get key =
      ((LevelDB.write db (batch o.memory)) key).getD [] := by
    intro key
    rw [get, commit, hdb]
  have hbefore : o.get h.data = (db h.data).getD [] := by
    rw [get, hdb]
  have hkept : (∀ v, (h.data, v) ∉ batch o.memory) →
      o.commit.get h.data = o.get h.data := by
    intro hnone
    rw [hget, LevelDB.write_of_not_mem hnone, hbefore]
  cases hlookup : o.memory.main.lookup h with
  | none =>
      refine hkept fun v hv => ?_
      obtain ⟨refs, hsome, -⟩ := (mem_batch_iff haux h v).1 hv
      rw [hlookup] at hsome
      cases hsome
  | some i =>
      obtain ⟨v, refs⟩ := i
      show _ = if refs ≠ 0 then v else o.get h.data
      by_cases hrefs : refs = 0
      · rw [if_neg (not_not.2 hrefs)]
        refine hkept fun w hw => ?_
        obtain ⟨refs', hsome, hne⟩ := (mem_batch_iff haux h w).1 hw
        rw [hlookup] at hsome
        exact hne ((Prod.mk.inj (Option.some.inj hsome)).2 ▸ hrefs)
      · rw [if_pos hrefs, hget, LevelDB.write_of_mem
          ((mem_batch_iff haux h v).2 ⟨refs, hlookup, hrefs⟩), Option.getD_some]
        intro w hw
        obtain ⟨refs', hsome, -⟩ := (mem_batch_iff haux h w).1 hw
        rw [hlookup] at hsome
        exact (Prod.mk.inj (Option.some.inj hsome)).1.symm

end OverlayDB

namespace OverlayDB

variable {sha3 : Bytes → H256} {S : Scope sha3} {disk : LevelDB}
  {o : OverlayDB}

/-- The assumption on a run that the strings it writes are in the scope. -/
def OverlayWrites (S : Scope sha3) : OverlayCommand → Prop
  | .node command => Writes S command
  | _ => True

theorem wp_onTrie {α : Type} {p : DBProgram α} {Q : α → OverlayDB → Prop} :
    wp handler (OverlayWrites S) (onTrie p) o Q ↔
      wp DB.handler (Writes S) p o Q := by
  induction p generalizing o with
  | done value => exact Iff.rfl
  | throw error => exact Iff.rfl
  | call command next ih => exact imp_congr_right fun _ => ih _

theorem run_onTrie {α : Type} (p : DBProgram α) (o : OverlayDB) :
    run handler (onTrie p) o = run DB.handler p o := by
  induction p generalizing o with
  | done value => rfl
  | throw error => rfl
  | call command next ih => exact ih _ _

theorem onTrie_bind {α β : Type} (p : DBProgram α) (f : α → DBProgram β) :
    onTrie (p >>= f) = onTrie p >>= fun value => onTrie (f value) := by
  induction p with
  | done value => rfl
  | throw error => rfl
  | call command next ih =>
      exact congrArg (Program.call (OverlayCommand.node command)) (funext ih)

theorem commands_onTrie {α : Type} (p : DBProgram α) (o : OverlayDB) :
    commands handler (onTrie p) o =
      (commands DB.handler p o).map OverlayCommand.node := by
  induction p generalizing o with
  | done value => rfl
  | throw error => rfl
  | call command next ih => exact congrArg (List.cons _) (ih _ _)

/-- What has wrapped is recorded for good. -/
theorem wrapped_handler (command : OverlayCommand) (o : OverlayDB)
    (hwrapped : o.memory.wrapped = true) :
    (handler command o).2.memory.wrapped = true := by
  cases command with
  | node command =>
      cases command with
      | insert x v => exact MemoryDB.wrapped_insert hwrapped x v
      | kill x => exact (MemoryDB.wrapped_kill o.memory x).trans hwrapped
      | lookup | «exists» | keys => exact hwrapped
  | commit =>
      show o.commit.memory.wrapped = true
      unfold commit
      split <;> exact hwrapped
  | rollback => exact hwrapped

theorem wrapped_of_run {α : Type} {p : OverlayProgram α}
    (hwrapped : (run handler p o).2.memory.wrapped = false) :
    o.memory.wrapped = false := by
  by_contra hbefore
  have hafter := run_keeps (I := fun o : OverlayDB => o.memory.wrapped = true)
    wrapped_handler p (Bool.eq_true_of_not_eq_false hbefore)
  rw [hwrapped] at hafter
  cases hafter

/-- If nothing has wrapped at the end, nothing had on the way. -/
theorem wrapped_of_bind {α β : Type} {p : OverlayProgram α}
    {f : α → OverlayProgram β}
    (hwrapped : (run handler (p >>= f) o).2.memory.wrapped = false) :
    (run handler p o).2.memory.wrapped = false := by
  rw [run_bind] at hwrapped
  cases hp : run handler p o with
  | mk value o' =>
      rw [hp] at hwrapped
      cases value with
      | error error => exact hwrapped
      | ok a => exact wrapped_of_run hwrapped

/-- The overlay is over the given disk, and in memory are strings of the scope
under their hashes. -/
structure Over (S : Scope sha3) (disk : LevelDB) (o : OverlayDB) : Prop where
  db : o.db = some disk
  aux : o.memory.aux = ∅
  lax : o.memory.enforceRefs = false
  hashed : ∀ h v refs, o.memory.main.lookup h = some (v, refs) →
    v ∈ S.strings ∧ sha3 v = h

/-- A fresh overlay over the disk. -/
theorem over_ofLevelDB : Over S disk (ofLevelDB disk) :=
  ⟨rfl, rfl, rfl, fun _ _ _ h => by cases h⟩

theorem Over.insert (h : Over S disk o) {v : Bytes} (hv : v ∈ S.strings) :
    Over S disk (o.insert (sha3 v) v) := by
  have hmain : ∃ refs wrapped, (o.memory.insert (sha3 v) v) =
      { o.memory with main := o.memory.main.insert (sha3 v) (v, refs),
                      wrapped } := by
    rw [MemoryDB.insert]
    split
    · exact ⟨_, _, rfl⟩
    · exact ⟨_, _, rfl⟩
  obtain ⟨refs, wrapped, hmain⟩ := hmain
  rw [OverlayDB.insert, hmain]
  refine ⟨h.db, h.aux, h.lax, fun h' w refs' hw => ?_⟩
  by_cases heq : h' = sha3 v
  · subst heq
    rw [AList.lookup_insert] at hw
    obtain ⟨rfl, -⟩ := Prod.mk.inj (Option.some.inj hw)
    exact ⟨hv, rfl⟩
  · rw [AList.lookup_insert_ne heq] at hw
    exact h.hashed h' w refs' hw

theorem Over.kill (h : Over S disk o) (x : H256) :
    Over S disk (o.kill x) := by
  rw [OverlayDB.kill, MemoryDB.kill, MemoryDB.killCounted]
  split
  · rename_i v refs hlookup
    split
    · refine ⟨h.db, h.aux, h.lax, fun h' w refs' hw => ?_⟩
      by_cases heq : h' = x
      · subst heq
        rw [AList.lookup_insert] at hw
        obtain ⟨rfl, -⟩ := Prod.mk.inj (Option.some.inj hw)
        exact h.hashed h' v refs hlookup
      · rw [AList.lookup_insert_ne heq] at hw
        exact h.hashed h' w refs' hw
    · exact h
  · exact h

theorem Over.step {command : DBCommand} (h : Over S disk o)
    (hwrites : Writes S command) (hhash : UnderHash sha3 command) :
    Over S disk (DB.handler command o).2 := by
  cases command with
  | insert x v =>
      obtain rfl : sha3 v = x := hhash
      exact h.insert hwrites
  | kill x => exact h.kill x
  | lookup | «exists» | keys => exact h

/-- What is proved of a trie operation holds beside the overlay staying over its
disk. -/
theorem Over.wp {α : Type} {p : DBProgram α} {Q : α → OverlayDB → Prop}
    (h : Over S disk o) (hp : Issues (UnderHash sha3) p)
    (hwp : Program.wp DB.handler (Writes S) p o Q) :
    Program.wp handler (OverlayWrites S) (onTrie p) o fun value o' =>
      Q value o' ∧ Over S disk o' :=
  wp_onTrie.2 (wp_keeps hwp hp
    (fun _ _ hwrites hhash hover => hover.step hwrites hhash) h)

end OverlayDB

end Web3Core
