/-
`MemoryDB.h` and `MemoryDB.cpp`: a hash table of contents with reference
counts, which are `unsigned` and wrap.  A killed entry keeps its contents until a
purge.
-/
import Mathlib.Data.List.AList
import Web3Core.DB

namespace Web3Core

/-- `MemoryDB`.  Whether a count has ever wrapped is recorded. -/
structure MemoryDB where
  main : AList (fun _ : H256 => Bytes × UInt32) := ∅
  aux : AList (fun _ : H256 => Bytes × Bool) := ∅
  enforceRefs : Bool := false
  wrapped : Bool := false

namespace MemoryDB

def lookup (m : MemoryDB) (h : H256) : Bytes :=
  match m.main.lookup h with
  | some (v, refs) => if !m.enforceRefs || refs > 0 then v else []
  | none => []

/-- `exists`. -/
def holds (m : MemoryDB) (h : H256) : Bool :=
  match m.main.lookup h with
  | some (_, refs) => !m.enforceRefs || refs > 0
  | none => false

def insert (m : MemoryDB) (h : H256) (v : Bytes) : MemoryDB :=
  match m.main.lookup h with
  | some (_, refs) =>
      { m with main := m.main.insert h (v, refs + 1),
               wrapped := m.wrapped || refs + 1 = 0 }
  | none => { m with main := m.main.insert h (v, 1) }

/-- The outcome of `kill` and the database after it. -/
def killCounted (m : MemoryDB) (h : H256) : Bool × MemoryDB :=
  match m.main.lookup h with
  | some (v, refs) =>
      if refs > 0 then (true, { m with main := m.main.insert h (v, refs - 1) })
      else (false, m)
  | none => (false, m)

def kill (m : MemoryDB) (h : H256) : MemoryDB := (m.killCounted h).2

def lookupAux (m : MemoryDB) (h : H256) : Bytes :=
  match m.aux.lookup h with
  | some (v, kept) => if !m.enforceRefs || kept then v else []
  | none => []

/-- The entry is made if there is none. -/
def removeAux (m : MemoryDB) (h : H256) : MemoryDB :=
  match m.aux.lookup h with
  | some (v, _) => { m with aux := m.aux.insert h (v, false) }
  | none => { m with aux := m.aux.insert h ([], false) }

def insertAux (m : MemoryDB) (h : H256) (v : Bytes) : MemoryDB :=
  { m with aux := m.aux.insert h (v, true) }

/-- Erase the entries without references. -/
def purge (m : MemoryDB) : MemoryDB :=
  { m with main := ⟨m.main.entries.filter fun i => i.2.2 ≠ 0,
      m.main.nodupKeys.sublist List.filter_sublist⟩ }

def keys (m : MemoryDB) : List H256 :=
  (m.main.entries.filter fun i => i.2.2 ≠ 0).map Sigma.fst

/-- The database in the scope of an `EnforceRefs`. -/
def enforcing (m : MemoryDB) (r : Bool) : MemoryDB := { m with enforceRefs := r }

/-- The reference count of a hash. -/
def count (m : MemoryDB) (h : H256) : Nat :=
  match m.main.lookup h with
  | some (_, refs) => refs.toNat
  | none => 0

theorem lookup_insert {m : MemoryDB} (hlax : m.enforceRefs = false) (h : H256)
    (v : Bytes) (h' : H256) :
    (m.insert h v).lookup h' = if h' = h then v else m.lookup h' := by
  by_cases heq : h' = h
  · subst heq
    unfold insert lookup
    cases hm : m.main.lookup h' <;> simp [hlax]
  · unfold insert lookup
    cases hm : m.main.lookup h <;> simp [hlax, heq, AList.lookup_insert_ne heq]

theorem lookup_kill {m : MemoryDB} (hlax : m.enforceRefs = false)
    (h h' : H256) : (m.kill h).lookup h' = m.lookup h' := by
  unfold kill killCounted
  split
  · rename_i v refs hm
    split
    · by_cases heq : h' = h
      · subst heq
        simp [lookup, hm, hlax]
      · simp [lookup, AList.lookup_insert_ne heq]
    · rfl
  · rfl

theorem wrapped_insert {m : MemoryDB} (hwrapped : m.wrapped = true) (h : H256)
    (v : Bytes) : (m.insert h v).wrapped = true := by
  unfold insert
  split
  · simp [hwrapped]
  · exact hwrapped

theorem wrapped_kill (m : MemoryDB) (h : H256) :
    (m.kill h).wrapped = m.wrapped := by
  unfold kill killCounted
  split
  · split <;> rfl
  · rfl

section Counters

variable {refs : UInt32}

theorem toNat_eq_zero_iff : refs.toNat = 0 ↔ refs = 0 :=
  UInt32.toNat_inj (b := 0)

theorem toNat_add_one (h : refs + 1 ≠ 0) :
    (refs + 1).toNat = refs.toNat + 1 := by
  have hlt := refs.toNat_lt
  have hone : (1 : UInt32).toNat = 1 := rfl
  have hne : (refs + 1).toNat ≠ 0 := mt toNat_eq_zero_iff.1 h
  rw [UInt32.toNat_add] at hne ⊢
  omega

theorem toNat_sub_one (h : refs > 0) : (refs - 1).toNat = refs.toNat - 1 :=
  UInt32.toNat_sub_of_le _ _ (UInt32.le_iff_toNat_le.2
    (UInt32.lt_iff_toNat_lt.1 h))

end Counters

/-- Only the count of the hash is increased, unless it wraps. -/
theorem count_insert (m : MemoryDB) (h : H256) (v : Bytes)
    (hwrapped : (m.insert h v).wrapped = false) (h' : H256) :
    (m.insert h v).count h' = if h' = h then m.count h' + 1 else m.count h' := by
  by_cases heq : h' = h
  · subst heq
    unfold insert at hwrapped
    unfold insert count
    cases hm : m.main.lookup h' with
    | none => simp
    | some i =>
        obtain ⟨w, refs⟩ := i
        have hnext : refs + 1 ≠ 0 := by
          simp only [hm, Bool.or_eq_false_iff, decide_eq_false_iff_not]
            at hwrapped
          exact hwrapped.2
        simp [toNat_add_one hnext]
  · unfold insert count
    cases hm : m.main.lookup h <;> simp [heq, AList.lookup_insert_ne heq]

/-- The largest count is the only one that wraps. -/
theorem wrapped_insert_of_count {m : MemoryDB} {h : H256}
    (hroom : m.count h + 1 < 2 ^ 32) (v : Bytes) :
    (m.insert h v).wrapped = m.wrapped := by
  unfold insert
  cases hm : m.main.lookup h with
  | none => rfl
  | some i =>
      have hone : (1 : UInt32).toNat = 1 := rfl
      have hnext : i.2 + 1 ≠ 0 := by
        rw [count, hm] at hroom
        refine mt toNat_eq_zero_iff.2 ?_
        rw [UInt32.toNat_add]
        dsimp only at hroom
        omega
      simp [hnext]

theorem count_kill (m : MemoryDB) (h h' : H256) :
    (m.kill h).count h' = if h' = h then m.count h' - 1 else m.count h' := by
  unfold kill killCounted
  split
  · rename_i v refs hm
    split
    · rename_i hpos
      by_cases heq : h' = h
      · subst heq
        simp [count, hm, toNat_sub_one hpos]
      · simp [count, heq, AList.lookup_insert_ne heq]
    · rename_i hnot
      have hzero : refs = 0 := by simpa using hnot
      by_cases heq : h' = h
      · subst heq
        simp [count, hm, hzero]
      · simp [heq]
  · rename_i hm
    by_cases heq : h' = h
    · subst heq
      simp [count, hm]
    · simp [heq]

instance : DB MemoryDB := ⟨lookup, holds, insert, kill, keys⟩

instance : LawfulDB MemoryDB where
  Lax m := m.enforceRefs = false
  count := count
  Wrapped m := m.wrapped = true
  lax_insert m h v hlax := by
    show (m.insert h v).enforceRefs = false
    unfold insert
    split <;> exact hlax
  lax_kill m h hlax := by
    show (m.kill h).enforceRefs = false
    unfold kill killCounted
    split
    · split <;> exact hlax
    · exact hlax
  lookup_insert _ h v hlax _ h' := lookup_insert hlax h v h'
  lookup_kill _ h hlax h' := lookup_kill hlax h h'
  holds_of_lookup m h hlax hne := by
    show m.holds h = true
    have hne' : m.lookup h ≠ [] := hne
    unfold lookup at hne'
    unfold holds
    split <;> simp_all
  wrapped_insert _ h v hwrapped := wrapped_insert hwrapped h v
  wrapped_kill m h hwrapped := (wrapped_kill m h).trans hwrapped
  count_insert m h v hwrapped := count_insert m h v (Bool.eq_false_of_not_eq_true hwrapped)
  count_kill := count_kill

/-- What a purge keeps. -/
theorem lookup_main_purge (m : MemoryDB) (h : H256) :
    m.purge.main.lookup h =
      (m.main.lookup h).filter fun i => i.2 ≠ 0 := by
  apply Option.ext
  intro i
  rw [Option.mem_def.symm, AList.mem_lookup_iff, Option.mem_def.symm,
    Option.mem_filter_iff, AList.mem_lookup_iff]
  simp [purge]

theorem mem_keys_iff (m : MemoryDB) (h : H256) :
    h ∈ m.keys ↔ m.count h ≠ 0 := by
  have hlookup : ∀ i, i ∈ m.main.lookup h ↔ Sigma.mk h i ∈ m.main.entries :=
    fun i => AList.mem_lookup_iff
  unfold keys count
  rw [List.mem_map]
  constructor
  · rintro ⟨⟨h', v, refs⟩, hmem, rfl⟩
    rw [List.mem_filter] at hmem
    have := (hlookup (v, refs)).2 hmem.1
    rw [Option.mem_def] at this
    rw [this]
    simpa [toNat_eq_zero_iff] using hmem.2
  · intro hcount
    cases hm : m.main.lookup h with
    | none => simp [hm] at hcount
    | some i =>
        refine ⟨⟨h, i⟩, List.mem_filter.2 ⟨(hlookup i).1 hm, ?_⟩, rfl⟩
        simpa [hm, toNat_eq_zero_iff] using hcount

end MemoryDB

end Web3Core
