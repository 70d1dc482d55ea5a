/-
What a rollback of an overlay undoes.  The nodes written since the last commit
are gone, the auxiliary contents stay: `commit` clears both tables, `rollback`
only that of the nodes.
-/
import Web3Core.OverlayDB

namespace Web3Core

/-- The calls that change an overlay between two commits. -/
inductive OverlayOp where
  | insert (h : H256) (v : Bytes)
  | kill (h : H256)
  | insertAux (h : H256) (v : Bytes)
  | removeAux (h : H256)

namespace OverlayOp

def apply (o : OverlayDB) : OverlayOp → OverlayDB
  | .insert h v => o.insert h v
  | .kill h => o.kill h
  | .insertAux h v => o.insertAux h v
  | .removeAux h => o.removeAux h

/-- Whether a call about the auxiliary contents of `h` leaves them marked as
kept. -/
def marksAux (h : H256) : OverlayOp → Option Bool
  | .insertAux h' _ => if h' = h then some true else none
  | .removeAux h' => if h' = h then some false else none
  | _ => none

/-- The auxiliary contents a call gives to `h`. -/
def givesAux (h : H256) : OverlayOp → Option Bytes
  | .insertAux h' v => if h' = h then some v else none
  | _ => none

/-- The last mark a sequence of calls puts on the auxiliary contents. -/
def lastMark (h : H256) (ops : List OverlayOp) : Option Bool :=
  (ops.filterMap (marksAux h)).getLast?

def lastGiven (h : H256) (ops : List OverlayOp) : Option Bytes :=
  (ops.filterMap (givesAux h)).getLast?

theorem lastMark_append (h : H256) (ops : List OverlayOp) (op : OverlayOp) :
    lastMark h (ops ++ [op]) = (op.marksAux h).or (lastMark h ops) := by
  rw [lastMark, List.filterMap_append, lastMark]
  cases hmark : op.marksAux h <;> simp [hmark]

theorem lastGiven_append (h : H256) (ops : List OverlayOp) (op : OverlayOp) :
    lastGiven h (ops ++ [op]) = (op.givesAux h).or (lastGiven h ops) := by
  rw [lastGiven, List.filterMap_append, lastGiven]
  cases hgiven : op.givesAux h <;> simp [hgiven]

end OverlayOp

namespace OverlayDB

variable {o : OverlayDB} {ops : List OverlayOp}

/-- The state after some calls. -/
def after (o : OverlayDB) (ops : List OverlayOp) : OverlayDB :=
  ops.foldl OverlayOp.apply o

/-- After the commit, the calls and a rollback, every question is answered as
right after the commit, and there is nothing left for another commit. -/
def Undoes (o : OverlayDB) (ops : List OverlayOp) : Prop :=
  (∀ h, (o.commit.after ops).rollback.lookup h = o.commit.lookup h ∧
    (o.commit.after ops).rollback.holds h = o.commit.holds h ∧
    (o.commit.after ops).rollback.lookupAux h = o.commit.lookupAux h) ∧
  batch (o.commit.after ops).rollback.memory = []

/-- No auxiliary contents were given last to a hash, and what was given to it
at all is empty or on disk, unless removed contents are hidden. -/
def LeavesAux (o : OverlayDB) (ops : List OverlayOp) : Prop :=
  ∀ h, OverlayOp.lastMark h ops ≠ some true ∧
    (o.memory.enforceRefs = true ∨ ∀ v, OverlayOp.lastGiven h ops = some v →
      v = [] ∨ v = o.commit.get (h.data ++ [255]))

theorem db_after (o : OverlayDB) (ops : List OverlayOp) :
    (o.after ops).db = o.db := by
  induction ops generalizing o with
  | nil => rfl
  | cons op ops ih =>
      rw [after, List.foldl_cons, ← after, ih]
      cases op <;> rfl

theorem enforceRefs_apply (o : OverlayDB) (op : OverlayOp) :
    (op.apply o).memory.enforceRefs = o.memory.enforceRefs := by
  cases op with
  | insert h v =>
      show (o.memory.insert h v).enforceRefs = o.memory.enforceRefs
      unfold MemoryDB.insert
      split <;> rfl
  | kill h =>
      show (o.memory.killCounted h).2.enforceRefs = o.memory.enforceRefs
      unfold MemoryDB.killCounted
      split
      · split <;> rfl
      · rfl
  | insertAux h v => rfl
  | removeAux h =>
      show (o.memory.removeAux h).enforceRefs = o.memory.enforceRefs
      unfold MemoryDB.removeAux
      split <;> rfl

theorem enforceRefs_after (o : OverlayDB) (ops : List OverlayOp) :
    (o.after ops).memory.enforceRefs = o.memory.enforceRefs := by
  induction ops generalizing o with
  | nil => rfl
  | cons op ops ih =>
      rw [after, List.foldl_cons, ← after, ih, enforceRefs_apply]

/-- What one call does to the auxiliary entry of a hash. -/
theorem aux_apply (o : OverlayDB) (op : OverlayOp) (h : H256) :
    (op.apply o).memory.aux.lookup h =
      match op.marksAux h with
      | none => o.memory.aux.lookup h
      | some kept => some ((op.givesAux h).getD
          (((o.memory.aux.lookup h).map Prod.fst).getD []), kept) := by
  cases op with
  | insert h' v =>
      show (o.memory.insert h' v).aux.lookup h = _
      unfold MemoryDB.insert
      split <;> rfl
  | kill h' =>
      show (o.memory.killCounted h').2.aux.lookup h = _
      unfold MemoryDB.killCounted
      split
      · split <;> rfl
      · rfl
  | insertAux h' v =>
      show (o.memory.insertAux h' v).aux.lookup h = _
      unfold MemoryDB.insertAux OverlayOp.marksAux OverlayOp.givesAux
      by_cases heq : h' = h
      · subst heq
        simp
      · simp [heq, AList.lookup_insert_ne (Ne.symm heq)]
  | removeAux h' =>
      show (o.memory.removeAux h').aux.lookup h = _
      unfold MemoryDB.removeAux OverlayOp.marksAux OverlayOp.givesAux
      by_cases heq : h' = h
      · subst heq
        cases hm : o.memory.aux.lookup h' <;> simp
      · cases hm : o.memory.aux.lookup h' <;>
          simp [heq, AList.lookup_insert_ne (Ne.symm heq)]

/-- Contents are only given along with a mark. -/
theorem lastGiven_of_lastMark {h : H256} {ops : List OverlayOp}
    (hmark : OverlayOp.lastMark h ops = none) :
    OverlayOp.lastGiven h ops = none := by
  rw [OverlayOp.lastMark, List.getLast?_eq_none_iff,
    List.filterMap_eq_nil_iff] at hmark
  rw [OverlayOp.lastGiven, List.getLast?_eq_none_iff,
    List.filterMap_eq_nil_iff]
  intro op hop
  have hnone := hmark op hop
  cases op with
  | insertAux h' v =>
      by_cases heq : h' = h
      · simp [OverlayOp.marksAux, heq] at hnone
      · simp [OverlayOp.givesAux, heq]
  | insert | kill | removeAux => rfl

/-- What a sequence of calls leaves in the auxiliary table of an overlay that
was just committed. -/
theorem aux_after (haux : o.memory.aux = ∅) (ops : List OverlayOp)
    (h : H256) :
    (o.after ops).memory.aux.lookup h =
      (OverlayOp.lastMark h ops).map fun kept =>
        ((OverlayOp.lastGiven h ops).getD [], kept) := by
  induction ops using List.reverseRecOn with
  | nil =>
      rw [after, List.foldl_nil, haux]
      rfl
  | append_singleton ops op ih =>
      have hstep : (o.after (ops ++ [op])) = op.apply (o.after ops) := by
        simp [after]
      rw [hstep, aux_apply, ih, OverlayOp.lastMark_append,
        OverlayOp.lastGiven_append]
      cases op with
      | insert h' v => simp [OverlayOp.marksAux, OverlayOp.givesAux]
      | kill h' => simp [OverlayOp.marksAux, OverlayOp.givesAux]
      | insertAux h' v =>
          by_cases heq : h' = h <;>
            simp [OverlayOp.marksAux, OverlayOp.givesAux, heq]
      | removeAux h' =>
          by_cases heq : h' = h
          · subst heq
            cases hmark : OverlayOp.lastMark h' ops with
            | none =>
                simp [OverlayOp.marksAux, OverlayOp.givesAux,
                  lastGiven_of_lastMark hmark]
            | some kept => simp [OverlayOp.marksAux, OverlayOp.givesAux]
          · simp [OverlayOp.marksAux, OverlayOp.givesAux, heq]

theorem batch_eq_nil_iff {m : MemoryDB} (hmain : m.main = ∅) :
    batch m = [] ↔ ∀ h v, m.aux.lookup h ≠ some (v, true) := by
  have hentries : m.main.entries = [] := by
    rw [hmain]
    rfl
  rw [batch, hentries, List.filter_nil, List.map_nil, List.nil_append,
    List.map_eq_nil_iff, List.filter_eq_nil_iff]
  constructor
  · intro hnone h v hlookup
    exact hnone ⟨h, v, true⟩ (AList.mem_lookup_iff.1 hlookup) rfl
  · rintro hnone ⟨h, v, kept⟩ hmem hkept
    have hkept' : kept = true := hkept
    subst hkept'
    exact hnone h v (AList.mem_lookup_iff.2 hmem)

section Committed

variable {db : LevelDB}

theorem main_commit (hdb : o.db = some db) : o.commit.memory.main = ∅ := by
  rw [commit, hdb]

theorem aux_commit (hdb : o.db = some db) : o.commit.memory.aux = ∅ := by
  rw [commit, hdb]

theorem enforceRefs_commit (hdb : o.db = some db) :
    o.commit.memory.enforceRefs = o.memory.enforceRefs := by
  rw [commit, hdb]

/-- Nodes are looked up on disk only, after a commit and after a rollback. -/
theorem lookup_of_main {o : OverlayDB} (hmain : o.memory.main = ∅) (h : H256) :
    o.lookup h = o.get h.data := by
  have hnil : o.memory.lookup h = [] := by
    rw [MemoryDB.lookup, hmain]
    rfl
  rw [lookup, if_pos hnil]

theorem holds_of_main {o : OverlayDB} (hmain : o.memory.main = ∅) (h : H256) :
    o.holds h = decide (o.get h.data ≠ []) := by
  have hfalse : o.memory.holds h = false := by
    rw [MemoryDB.holds, hmain]
    rfl
  rw [holds, hfalse, Bool.false_or]

theorem get_after_rollback (key : Bytes) :
    (o.commit.after ops).rollback.get key = o.commit.get key := by
  have hdb : (o.commit.after ops).rollback.db = o.commit.db := db_after _ _
  rw [get, hdb, get]

/-- The nodes written since the commit are undone. -/
theorem lookup_after_rollback (hdb : o.db = some db) (h : H256) :
    (o.commit.after ops).rollback.lookup h = o.commit.lookup h ∧
      (o.commit.after ops).rollback.holds h = o.commit.holds h := by
  have hmain : (o.commit.after ops).rollback.memory.main = ∅ := rfl
  rw [lookup_of_main hmain, lookup_of_main (main_commit hdb),
    holds_of_main hmain, holds_of_main (main_commit hdb),
    get_after_rollback]
  exact ⟨rfl, rfl⟩

/-- Auxiliary contents after the rollback, by the last calls about them. -/
theorem lookupAux_memory_after (hdb : o.db = some db) (h : H256) :
    (o.commit.after ops).rollback.memory.lookupAux h =
      match OverlayOp.lastMark h ops with
      | some kept =>
          if !o.memory.enforceRefs || kept then
            (OverlayOp.lastGiven h ops).getD []
          else []
      | none => [] := by
  have haux : (o.commit.after ops).rollback.memory.aux.lookup h =
      (OverlayOp.lastMark h ops).map fun kept =>
        ((OverlayOp.lastGiven h ops).getD [], kept) :=
    aux_after (aux_commit hdb) ops h
  have hrefs : (o.commit.after ops).rollback.memory.enforceRefs =
      o.memory.enforceRefs := by
    show (o.commit.after ops).memory.enforceRefs = o.memory.enforceRefs
    rw [enforceRefs_after, enforceRefs_commit hdb]
  rw [MemoryDB.lookupAux, haux, hrefs]
  cases OverlayOp.lastMark h ops <;> rfl

theorem lookupAux_commit (hdb : o.db = some db) (h : H256) :
    o.commit.lookupAux h = o.commit.get (h.data ++ [255]) := by
  have hnil : o.commit.memory.lookupAux h = [] := by
    rw [MemoryDB.lookupAux, aux_commit hdb]
    rfl
  rw [lookupAux, if_pos hnil]

theorem batch_after_rollback (hdb : o.db = some db) :
    batch (o.commit.after ops).rollback.memory = [] ↔
      ∀ h, OverlayOp.lastMark h ops ≠ some true := by
  rw [batch_eq_nil_iff rfl]
  refine forall_congr' fun h => ?_
  have haux : (o.commit.after ops).rollback.memory.aux.lookup h =
      (OverlayOp.lastMark h ops).map fun kept =>
        ((OverlayOp.lastGiven h ops).getD [], kept) :=
    aux_after (aux_commit hdb) ops h
  rw [haux]
  cases OverlayOp.lastMark h ops with
  | none => simp
  | some kept => simp

/-- Where nothing is marked as kept, the auxiliary contents are as before
unless they are still seen and differ. -/
theorem lookupAux_after_rollback (hdb : o.db = some db) {h : H256}
    (hmark : OverlayOp.lastMark h ops ≠ some true) :
    (o.commit.after ops).rollback.lookupAux h = o.commit.lookupAux h ↔
      (o.memory.enforceRefs = true ∨ ∀ v, OverlayOp.lastGiven h ops = some v →
        v = [] ∨ v = o.commit.get (h.data ++ [255])) := by
  rw [lookupAux, lookupAux_memory_after hdb, lookupAux_commit hdb,
    get_after_rollback]
  cases hlast : OverlayOp.lastMark h ops with
  | none => simp [lastGiven_of_lastMark hlast]
  | some kept =>
      have hkept : kept = false := by
        cases kept with
        | false => rfl
        | true => exact absurd hlast hmark
      subst hkept
      cases o.memory.enforceRefs with
      | true => simp
      | false =>
          cases OverlayOp.lastGiven h ops with
          | none => simp
          | some v => by_cases hv : v = [] <;> simp [hv]

end Committed

/-- A rollback undoes everything since the last commit exactly if no auxiliary
contents were left behind. -/
theorem undoes_iff (o : OverlayDB) (ops : List OverlayOp)
    (hdb : o.db ≠ none) : Undoes o ops ↔ LeavesAux o ops := by
  obtain ⟨db, hdb⟩ := Option.ne_none_iff_exists'.1 hdb
  constructor
  · rintro ⟨hsame, hbatch⟩ h
    have hmark := (batch_after_rollback hdb).1 hbatch h
    exact ⟨hmark, (lookupAux_after_rollback hdb hmark).1 (hsame h).2.2⟩
  · intro hleaves
    refine ⟨fun h => ?_, (batch_after_rollback hdb).2 fun h => (hleaves h).1⟩
    obtain ⟨hmark, hgiven⟩ := hleaves h
    have hmain : _ ∧ (o.commit.after ops).rollback.holds h = _ :=
      lookup_after_rollback hdb h
    exact ⟨hmain.1, hmain.2, (lookupAux_after_rollback hdb hmark).2 hgiven⟩

/-- Nodes are inserted and killed between a commit and a rollback. -/
theorem undoes_iff_nodes :
    (ofLevelDB fun _ => none).db ≠ none ∧
      (Undoes (ofLevelDB fun _ => none)
          [.insert ⟨.replicate 32 5, rfl⟩ [1], .kill ⟨.replicate 32 5, rfl⟩] ↔
        LeavesAux (ofLevelDB fun _ => none)
          [.insert ⟨.replicate 32 5, rfl⟩ [1],
            .kill ⟨.replicate 32 5, rfl⟩]) :=
  ⟨by simp [ofLevelDB], undoes_iff _ _ (by simp [ofLevelDB])⟩

/-- Auxiliary contents survive the rollback. -/
theorem not_undoes_insertAux :
    ¬ ∀ (o : OverlayDB) (ops : List OverlayOp), o.db ≠ none → Undoes o ops := by
  intro hall
  have h := hall (ofLevelDB fun _ => none)
    [.insertAux ⟨.replicate 32 5, rfl⟩ [1]] (by simp [ofLevelDB])
  have haux := (h.1 ⟨.replicate 32 5, rfl⟩).2.2
  revert haux
  decide

end OverlayDB

end Web3Core
