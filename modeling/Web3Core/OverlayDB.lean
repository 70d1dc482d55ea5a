/-
`OverlayDB.h` and `OverlayDB.cpp`: a memory database over a LevelDB.  What is
not found in memory is looked for on disk; a commit writes the referenced
entries in one batch, a rollback forgets what was not committed.  The LevelDB
is a reliable map with atomic batches.
-/
import Web3Core.MemoryDB

namespace Web3Core

/-- The contents of a LevelDB. -/
abbrev LevelDB := Bytes → Option Bytes

/-- Apply a batch of `Put`s. -/
def LevelDB.write (db : LevelDB) (batch : List (Bytes × Bytes)) : LevelDB :=
  batch.foldl (fun db i => Function.update db i.1 (some i.2)) db

structure OverlayDB where
  memory : MemoryDB := {}
  db : Option LevelDB := none

namespace OverlayDB

/-- A new overlay over a LevelDB. -/
def ofLevelDB (db : LevelDB) : OverlayDB := { db := some db }

/-- `m_db->Get`, leaving an empty string if there is no entry. -/
def get (o : OverlayDB) (key : Bytes) : Bytes :=
  match o.db with
  | some db => (db key).getD []
  | none => []

/-- The batch of a commit: contents under their hash, and auxiliary contents
under the hash with a byte 255 behind it. -/
def batch (m : MemoryDB) : List (Bytes × Bytes) :=
  (m.main.entries.filter fun i => i.2.2 ≠ 0).map (fun i => (i.1.data, i.2.1)) ++
    (m.aux.entries.filter fun i => i.2.2).map fun i => (i.1.data ++ [255], i.2.1)

def commit (o : OverlayDB) : OverlayDB :=
  match o.db with
  | some db =>
      { memory := { o.memory with main := ∅, aux := ∅ },
        db := some (LevelDB.write db (batch o.memory)) }
  | none => o

def rollback (o : OverlayDB) : OverlayDB :=
  { o with memory := { o.memory with main := ∅ } }

def lookup (o : OverlayDB) (h : H256) : Bytes :=
  if o.memory.lookup h = [] then o.get h.data else o.memory.lookup h

/-- Auxiliary contents are on disk under the hash with a byte 255 behind it. -/
def lookupAux (o : OverlayDB) (h : H256) : Bytes :=
  if o.memory.lookupAux h = [] then o.get (h.data ++ [255])
  else o.memory.lookupAux h

/-- `exists`. -/
def holds (o : OverlayDB) (h : H256) : Bool :=
  o.memory.holds h || o.get h.data ≠ []

def insert (o : OverlayDB) (h : H256) (v : Bytes) : OverlayDB :=
  { o with memory := o.memory.insert h v }

def kill (o : OverlayDB) (h : H256) : OverlayDB :=
  { o with memory := o.memory.kill h }

def insertAux (o : OverlayDB) (h : H256) (v : Bytes) : OverlayDB :=
  { o with memory := o.memory.insertAux h v }

def removeAux (o : OverlayDB) (h : H256) : OverlayDB :=
  { o with memory := o.memory.removeAux h }

def keys (o : OverlayDB) : List H256 := o.memory.keys

instance : DB OverlayDB := ⟨lookup, holds, insert, kill, keys⟩

instance : LawfulDB OverlayDB where
  Lax o := o.memory.enforceRefs = false
  count o := o.memory.count
  Wrapped o := o.memory.wrapped = true
  lax_insert o h v := LawfulDB.lax_insert o.memory h v
  lax_kill o h := LawfulDB.lax_kill o.memory h
  lookup_insert o h v hlax hv h' := by
    show (o.insert h v).lookup h' = if h' = h then v else o.lookup h'
    have hmem := MemoryDB.lookup_insert hlax h v h'
    have hget : (o.insert h v).get h'.data = o.get h'.data := rfl
    by_cases heq : h' = h
    · rw [if_pos heq] at hmem ⊢
      simp [lookup, insert, hmem, hv]
    · rw [if_neg heq] at hmem ⊢
      simp only [lookup, hget]
      simp only [insert, hmem]
  lookup_kill o h hlax h' := by
    show (o.kill h).lookup h' = o.lookup h'
    have hmem := MemoryDB.lookup_kill hlax h h'
    have hget : (o.kill h).get h'.data = o.get h'.data := rfl
    simp only [lookup, hget]
    simp only [kill, hmem]
  holds_of_lookup o h hlax hne := by
    show o.holds h = true
    have hne' : o.lookup h ≠ [] := hne
    unfold lookup at hne'
    unfold holds
    by_cases hmem : o.memory.lookup h = []
    · simp_all
    · have hholds : o.memory.holds h = true :=
        LawfulDB.holds_of_lookup o.memory h hlax hmem
      simp [hholds]
  wrapped_insert o h v := LawfulDB.wrapped_insert o.memory h v
  wrapped_kill o h := LawfulDB.wrapped_kill o.memory h
  count_insert o h v := LawfulDB.count_insert o.memory h v
  count_kill o h h' := MemoryDB.count_kill o.memory h h'

end OverlayDB

end Web3Core
