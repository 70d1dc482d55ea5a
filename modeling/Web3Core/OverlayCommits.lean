/-
Roots that were committed can be read from disk ever after, as long as no count
wraps.  The counts in memory only know of the references since the last commit;
what they miss is on disk, and nothing is ever removed from there.
-/
import Web3Core.OverlayTrie
import Web3Core.TrieContents

namespace Web3Core

open Program GenericTrieDB

namespace Trie

variable {sha3 : Bytes → H256} {σ : Type} [LawfulDB σ] {S : Scope sha3}
  {db : σ} {t : Trie} {lookup : H256 → Bytes}

/-- What a trie refers to is a trie whose references are among its own. -/
theorem Stored.exists_node {B : Nat} (h : Stored sha3 lookup t)
    (hwithin : Within B 0 t) {x : H256} (hx : refsIn sha3 t x ≠ 0) :
    ∃ u, hash sha3 u = x ∧ lookup x = enc sha3 u ∧ Stored sha3 lookup u ∧
      Within B 0 u ∧ ∀ y, refsIn sha3 u y ≠ 0 → refsIn sha3 t y ≠ 0 := by
  -- A child with a reference to `x` is that trie or has it below.
  have hchild : ∀ {c : Trie}, Held sha3 lookup c → Within B 0 c →
      refs sha3 c x ≠ 0 → (refsIn sha3 c x ≠ 0 → ∃ u, hash sha3 u = x ∧
        lookup x = enc sha3 u ∧ Stored sha3 lookup u ∧ Within B 0 u ∧
          ∀ y, refsIn sha3 u y ≠ 0 → refsIn sha3 c y ≠ 0) →
      ∃ u, hash sha3 u = x ∧ lookup x = enc sha3 u ∧ Stored sha3 lookup u ∧
        Within B 0 u ∧ ∀ y, refsIn sha3 u y ≠ 0 → refs sha3 c y ≠ 0 := by
    intro c hheld hc hrefs ih
    have hin : ∀ y, refsIn sha3 c y ≠ 0 → refs sha3 c y ≠ 0 := by
      intro y hy
      rw [refs, Pi.add_apply]
      omega
    by_cases hown : Big sha3 c ∧ hash sha3 c = x
    · obtain ⟨hbig, rfl⟩ := hown
      exact ⟨c, rfl, hheld.1 hbig, hheld.2, hc, hin⟩
    · have hzero : own sha3 c x = 0 := if_neg hown
      have hbelow : refsIn sha3 c x ≠ 0 := by
        rw [refs, Pi.add_apply, hzero, zero_add] at hrefs
        exact hrefs
      obtain ⟨u, hhash, hlookup, hstored, hu, hamong⟩ := ih hbelow
      exact ⟨u, hhash, hlookup, hstored, hu, fun y hy => hin y (hamong y hy)⟩
  induction t with
  | empty => exact absurd rfl hx
  | leaf key value => exact absurd rfl hx
  | ext key child ih =>
      exact hchild h hwithin.child hx (ih h.2 hwithin.child)
  | branch slots value ih =>
      rw [refsIn_branch, Finset.sum_apply] at hx
      obtain ⟨i, -, hi⟩ := Finset.exists_ne_zero_of_sum_ne_zero hx
      obtain ⟨u, hhash, hlookup, hstored, hu, hamong⟩ :=
        hchild (h i) (hwithin.slot i) hi (ih i (h i).2 (hwithin.slot i))
      refine ⟨u, hhash, hlookup, hstored, hu, fun y hy => ?_⟩
      have hslot := hamong y hy
      rw [refsIn_eq_slot slots value i, Pi.add_apply]
      omega

/-- The same with the trie itself, which is kept by its root. -/
theorem Opened.exists_node {g : GenericTrieDB} (h : Opened S db g t) {x : H256}
    (hx : total sha3 t x ≠ 0) :
    ∃ u, hash sha3 u = x ∧ DB.lookup db x = enc sha3 u ∧
      Stored sha3 (DB.lookup db) u ∧ Within S.bound 0 u ∧
        ∀ y, refsIn sha3 u y ≠ 0 → total sha3 t y ≠ 0 := by
  have hin : ∀ y, refsIn sha3 t y ≠ 0 → total sha3 t y ≠ 0 := by
    intro y hy
    rw [total, Pi.add_apply]
    omega
  by_cases hroot : x = hash sha3 t
  · subst hroot
    exact ⟨t, rfl, h.top, h.stored, h.within, hin⟩
  · have hbelow : refsIn sha3 t x ≠ 0 := by
      rwa [total, Pi.add_apply, Pi.single_eq_of_ne hroot, zero_add] at hx
    obtain ⟨u, hhash, hlookup, hstored, hu, hamong⟩ :=
      h.stored.exists_node h.within hbelow
    exact ⟨u, hhash, hlookup, hstored, hu, fun y hy => hin y (hamong y hy)⟩

/-- An existing root is opened without a change. -/
theorem wp_setRoot {A : DBCommand → Prop} {root : H256}
    (hlax : LawfulDB.Lax db) (hne : DB.lookup db root ≠ []) :
    wp DB.handler A (setRoot sha3 root) db fun g db' =>
      g = ⟨root⟩ ∧ db' = db := by
  have hholds : DB.holds db root = true :=
    LawfulDB.holds_of_lookup db root hlax hne
  have hfound : wp DB.handler A (if root = shaNull sha3 then do
      let found ← dbExists root
      if !found then initLoop sha3 2 else pure root
      else pure root) db fun root' db' => root' = root ∧ db' = db := by
    split
    · intro _
      show wp DB.handler A (if !DB.holds db root then _ else _) db _
      rw [hholds]
      exact ⟨rfl, rfl⟩
    · exact ⟨rfl, rfl⟩
  have hroot : wp DB.handler A (setRootWith sha3 (initLoop sha3 2) root) db
      fun root' db' => root' = root ∧ db' = db := by
    refine wp_bind_of hfound ?_
    rintro root' db' ⟨rfl, rfl⟩ _
    show wp DB.handler A (if DB.lookup db' root' = [] then _ else _) db' _
    rw [if_neg hne]
    exact ⟨rfl, rfl⟩
  refine wp_bind_of hroot ?_
  rintro root' db' ⟨rfl, rfl⟩
  exact ⟨rfl, rfl⟩

/-- On a database without contents the empty trie is made. -/
theorem wp_setRoot_fresh (hdb : Fresh db)
    (hnot : DB.holds db (shaNull sha3) = false) :
    wp DB.handler (Writes S) (setRoot sha3 (shaNull sha3)) db fun g db' =>
      Represents S db' g {} .empty ∧
        DB.Moves db db' 0 (total sha3 .empty) := by
  have hinit : wp DB.handler (Writes S) (initLoop sha3 2) db fun root db' =>
      Represents S db' ⟨root⟩ {} .empty ∧
        DB.Moves db db' 0 (total sha3 .empty) :=
    (wp_bind _ _).1 (wp_init hdb)
  have hmade : wp DB.handler (Writes S) (setRootWith sha3 (initLoop sha3 2)
      (shaNull sha3)) db fun root db' => Represents S db' ⟨root⟩ {} .empty ∧
        DB.Moves db db' 0 (total sha3 .empty) := by
    rw [setRootWith, if_pos rfl, bind_assoc, wp_dbExists_bind, hnot]
    refine wp_bind_of hinit ?_
    rintro root db' h
    have htop : DB.lookup db' root = enc sha3 .empty :=
      (congrArg (DB.lookup db') h.1.opened.root).trans h.1.opened.top
    rw [wp_node_bind, htop, if_neg (enc_ne_nil _)]
    exact h
  refine wp_bind_of hmade ?_
  exact fun root db' h => h

end Trie

namespace OverlayDB

open Trie

variable {sha3 : Bytes → H256} {S : Scope sha3} {disk : LevelDB}
  {o : OverlayDB} {g : GenericTrieDB} {t : Trie} {m : BytesMap}

theorem lookup_ofLevelDB (disk : LevelDB) (x : H256) :
    DB.lookup (ofLevelDB disk) x = (ofLevelDB disk).get x.data :=
  lookup_of_main rfl x

theorem Over.get (h : Over S disk o) (x : H256) :
    o.get x.data = DB.lookup (ofLevelDB disk) x := by
  rw [lookup_ofLevelDB, OverlayDB.get, h.db]
  rfl

/-- An entry in memory hides no other contents on disk. -/
theorem Over.eq_disk (h : Over S disk o)
    (hdisk : Consistent S (ofLevelDB disk)) {x : H256} {v : Bytes} {refs : UInt32}
    (hentry : o.memory.main.lookup x = some (v, refs))
    (hne : DB.lookup (ofLevelDB disk) x ≠ []) :
    v = DB.lookup (ofLevelDB disk) x := by
  obtain ⟨hv, hhash⟩ := h.hashed x v refs hentry
  obtain ⟨u, -, -, hlookup, hu, hmem⟩ := hdisk.known x hne
  rw [hlookup]
  exact S.inj hv hmem (hhash.trans hu.symm)

/-- What is looked up in the overlay, by the entry in memory. -/
theorem Over.lookup_of_none (h : Over S disk o) {x : H256}
    (hentry : o.memory.main.lookup x = none) :
    DB.lookup o x = DB.lookup (ofLevelDB disk) x := by
  have hnil : o.memory.lookup x = [] := by
    rw [MemoryDB.lookup, hentry]
  show o.lookup x = _
  rw [lookup, if_pos hnil, h.get]

theorem Over.lookup_of_some (h : Over S disk o) {x : H256} {v : Bytes}
    {refs : UInt32} (hentry : o.memory.main.lookup x = some (v, refs)) :
    DB.lookup o x = if v = [] then DB.lookup (ofLevelDB disk) x else v := by
  have hmem : o.memory.lookup x = v := by
    rw [MemoryDB.lookup, hentry, h.lax]
    rfl
  show o.lookup x = _
  rw [lookup, hmem, h.get]

/-- What is on disk is found through the overlay. -/
theorem Over.extends (h : Over S disk o)
    (hdisk : Consistent S (ofLevelDB disk)) :
    ∀ x, DB.lookup (ofLevelDB disk) x ≠ [] →
      DB.lookup o x = DB.lookup (ofLevelDB disk) x := by
  intro x hne
  cases hentry : o.memory.main.lookup x with
  | none => exact h.lookup_of_none hentry
  | some i =>
      rw [h.lookup_of_some hentry, h.eq_disk hdisk hentry hne, ite_self]

/-- The trie is the only one with references in memory: a string that is not on
disk is counted as often as the trie refers to it. -/
def Counted (sha3 : Bytes → H256) (disk : LevelDB) (o : OverlayDB) (t : Trie) :
    Prop :=
  ∀ x, DB.lookup (ofLevelDB disk) x = [] →
    o.memory.count x = total sha3 t x

theorem count_of_some {x : H256} {v : Bytes} {refs : UInt32}
    (hentry : o.memory.main.lookup x = some (v, refs)) :
    o.memory.count x = refs.toNat := by
  rw [MemoryDB.count, hentry]

/-- A commit writes what the trie refers to, and nothing else that is not on
disk already. -/
theorem Over.lookup_commit (h : Over S disk o)
    (hdisk : Consistent S (ofLevelDB disk)) (hcount : Counted sha3 disk o t)
    (x : H256) :
    o.commit.get x.data =
      if DB.lookup (ofLevelDB disk) x ≠ [] ∨ total sha3 t x ≠ 0
      then DB.lookup o x else [] := by
  have hget := get_commit h.db h.aux x
  rw [h.get] at hget
  by_cases hon : DB.lookup (ofLevelDB disk) x = []
  · have hrefs := hcount x hon
    cases hentry : o.memory.main.lookup x with
    | none =>
        rw [hentry] at hget
        have hget : o.commit.get x.data = [] := hget.trans hon
        rw [h.lookup_of_none hentry, hon, ite_self, hget]
    | some i =>
        obtain ⟨v, refs⟩ := i
        rw [hentry] at hget
        have hget : o.commit.get x.data = if refs ≠ 0 then v else [] := by
          rw [hget, hon]
        rw [hget, h.lookup_of_some hentry, hon, ← hrefs, count_of_some hentry]
        by_cases hzero : refs = 0
        · simp [hzero]
        · simp only [ne_eq, hzero, MemoryDB.toNat_eq_zero_iff,
            not_false_eq_true, if_true, or_true]
          by_cases hv : v = []
          · rw [if_pos hv, hv]
          · rw [if_neg hv]
  · rw [if_pos (Or.inl hon), h.extends hdisk x hon]
    cases hentry : o.memory.main.lookup x with
    | none =>
        rw [hentry] at hget
        exact hget
    | some i =>
        obtain ⟨v, refs⟩ := i
        rw [hentry] at hget
        have hget : o.commit.get x.data =
            if refs ≠ 0 then v else DB.lookup (ofLevelDB disk) x := hget
        rw [hget, h.eq_disk hdisk hentry hon, ite_self]

/-- The trie is on disk after a commit, with all that was there before. -/
theorem Over.opened_commit (h : Over S disk o)
    (hdisk : Consistent S (ofLevelDB disk)) (hcount : Counted sha3 disk o t)
    (hopened : Opened S o g t) :
    ∃ disk', o.commit.db = some disk' ∧ Opened S (ofLevelDB disk') g t ∧
      DB.Extends (ofLevelDB disk) (ofLevelDB disk') := by
  obtain ⟨disk', hdb⟩ : ∃ disk', o.commit.db = some disk' := by
    rw [commit, h.db]
    exact ⟨_, rfl⟩
  have hlookup : ∀ x, DB.lookup (ofLevelDB disk') x =
      if DB.lookup (ofLevelDB disk) x ≠ [] ∨ total sha3 t x ≠ 0
      then DB.lookup o x else [] := by
    intro x
    rw [← h.lookup_commit hdisk hcount x, lookup_ofLevelDB, OverlayDB.get,
      OverlayDB.get, hdb]
    rfl
  have hextends : DB.Extends (ofLevelDB disk) (ofLevelDB disk') := by
    intro x hne
    rw [hlookup, if_pos (Or.inl hne), h.extends hdisk x hne]
  have hkept : ∀ x, total sha3 t x ≠ 0 →
      DB.lookup (ofLevelDB disk') x = DB.lookup o x := by
    intro x hx
    rw [hlookup, if_pos (Or.inr hx)]
  have hroot : total sha3 t (hash sha3 t) ≠ 0 := by
    simp [total]
  have hbelow : ∀ x, refsIn sha3 t x ≠ 0 → total sha3 t x ≠ 0 := by
    intro x hx
    rw [total, Pi.add_apply]
    omega
  have hconsistent : Consistent S (ofLevelDB disk') := by
    refine ⟨rfl, fun x hx => ?_⟩
    by_cases hon : DB.lookup (ofLevelDB disk) x = []
    · have htotal : total sha3 t x ≠ 0 := by
        intro hzero
        rw [hlookup, if_neg (by simp [hon, hzero])] at hx
        exact hx rfl
      obtain ⟨u, hhash, hu, hstored, hwithin, hamong⟩ :=
        hopened.exists_node htotal
      obtain ⟨u', -, -, hu', -, hmem⟩ := hopened.consistent.known x
        (by rw [hu]; exact enc_ne_nil u)
      exact ⟨u, hwithin,
        hstored.of_refs fun y hy => hkept y (hamong y hy),
        (hkept x htotal).trans hu, hhash, by rwa [← hu, hu']⟩
    · obtain ⟨u, hwithin, hstored, hu, hhash, hmem⟩ := hdisk.known x hon
      exact ⟨u, hwithin, hstored.mono hextends, (hextends x hon).trans hu,
        hhash, hmem⟩
  refine ⟨disk', hdb, ⟨hconsistent, hopened.within, ?_, hopened.root, ?_⟩,
    hextends⟩
  · exact hopened.stored.of_refs fun x hx => hkept x (hbelow x hx)
  · rw [hkept _ hroot, hopened.top]

/-- Without nodes in memory the overlay is as good as a fresh one. -/
theorem Over.represents (h : Over S disk o) (hmain : o.memory.main = ∅)
    (hrep : Represents S (ofLevelDB disk) g m t) : Represents S o g m t := by
  have hlookup : DB.lookup o = DB.lookup (ofLevelDB disk) := by
    funext x
    refine h.lookup_of_none ?_
    rw [hmain]
    rfl
  exact hrep.of_lookup h.lax hlookup

end OverlayDB

section Runs

open Trie OverlayDB

variable {sha3 : Bytes → H256} {S : Scope sha3} {disk disk' : LevelDB}
  {o : OverlayDB} {c : CommittedTrie} {m : CommittedMap} {n : Nat}

/-- The root can be opened over the disk, where it is the map. -/
def Readable (S : Scope sha3) (disk : LevelDB) (root : H256) (m : BytesMap) :
    Prop :=
  ∃ t, Represents S (ofLevelDB disk) ⟨root⟩ m t

theorem Readable.mono {root : H256} {m : BytesMap}
    (h : Readable S disk root m)
    (hextends : DB.Extends (ofLevelDB disk) (ofLevelDB disk'))
    (hdisk : Consistent S (ofLevelDB disk')) : Readable S disk' root m := by
  obtain ⟨t, hrep⟩ := h
  have htop := hrep.opened.top
  refine ⟨t, ⟨⟨hdisk, hrep.opened.within, hrep.opened.stored.mono hextends,
    hrep.opened.root, ?_⟩, hrep.denotes, hrep.fits⟩⟩
  rw [hextends _ (by rw [htop]; exact enc_ne_nil t), htop]

/-- A root on disk is opened. -/
theorem Readable.run_setRoot {root : H256} {m : BytesMap}
    (h : Readable S disk root m) :
    run DB.handler (setRoot sha3 root) (ofLevelDB disk) =
      (.ok ⟨root⟩, ofLevelDB disk) := by
  obtain ⟨t, hrep⟩ := h
  have htop := hrep.opened.top
  rw [← hrep.opened.root] at htop
  have hne : DB.lookup (ofLevelDB disk) root ≠ [] := by
    rw [htop]
    exact enc_ne_nil t
  obtain ⟨g, db', hrun, rfl, rfl⟩ := exists_run_of_wp_true (wp_setRoot rfl hne)
  exact hrun

/-- Then `at` gives what the map holds. -/
theorem Readable.run_reopen {root : H256} {m : BytesMap}
    (h : Readable S disk root m) (hbound : S.bound = 2 ^ 31 - 1) {k : Bytes}
    (hk : k.length < 2 ^ 30) :
    run DB.handler (reopen sha3 root k) (ofLevelDB disk) =
      (.ok ((m.lookup k).getD []), ofLevelDB disk) := by
  have hopen := h.run_setRoot
  obtain ⟨t, hrep⟩ := h
  obtain ⟨b, db', hrun, rfl, rfl⟩ := exists_run_of_wp_true
    (wp_lookup hrep.opened (show k.length * 2 < S.bound by omega))
  rw [reopen, run_bind, hopen, ← hrep.denotes.lookup]
  exact hrun

/-- What holds at any time of a run: the trie holds the current map, its nodes
are on disk or counted in memory, and the root that was committed last can be
read from disk.  Before the first commit there is nothing on disk. -/
structure Durable (S : Scope sha3) (n : Nat) (disk : LevelDB) (o : OverlayDB)
    (c : CommittedTrie) (m : CommittedMap) : Prop where
  overDisk : Over S disk o
  closed : Consistent S (ofLevelDB disk)
  current : ∃ t, Represents S o c.trie m.current t ∧ Counted sha3 disk o t
  uniform : m.current.Uniform n
  uniform_last : m.last.Uniform n
  last : match c.last with
    | some root => Readable S disk root m.last
    | none => m.last = {} ∧ ∀ x, DB.lookup (ofLevelDB disk) x = []

theorem Durable.wp_change (h : Durable S n disk o c m)
    (hbound : S.bound = 2 ^ 31 - 1) (hn : n < 2 ^ 30) {op : TrieOp}
    (hkey : op.key.length = n) (hvalue : op.Storable) :
    wp handler (OverlayWrites S) (CommitOp.apply sha3 c (.change op)) o
      fun c' o' => o'.memory.wrapped = false →
        Durable S n disk o' c' (CommitOp.track m (.change op)) := by
  obtain ⟨t, hrep, hcount⟩ := h.current
  have hissues : Issues (UnderHash sha3) (op.apply sha3 c.trie) := by
    cases op with
    | insert k v => exact issues_insert sha3 c.trie k v
    | remove k => exact issues_remove sha3 c.trie k
  have huniform : (op.change m.current).Uniform n := by
    cases op with
    | insert k v => exact h.uniform.insert hkey v
    | remove k => exact h.uniform.erase k
  refine wp_bind_of (h.overDisk.wp hissues
    (hrep.wp_apply h.uniform hbound hn hkey hvalue)) ?_
  rintro g o' ⟨⟨t', hrep', -, hmoves⟩, hover⟩ hwrapped
  exact ⟨hover, h.closed, ⟨t', hrep', fun x hx =>
    hmoves.moved (Bool.eq_false_iff.1 hwrapped) x 0 (hcount x hx)⟩,
    huniform, h.uniform_last, h.last⟩

/-- A trie that is on disk, over an overlay that has no nodes in memory. -/
theorem Readable.exists_counted {root : H256} {m : BytesMap}
    (h : Readable S disk root m) (hover : Over S disk o)
    (hmain : o.memory.main = ∅) :
    ∃ t, Represents S o ⟨root⟩ m t ∧ Counted sha3 disk o t := by
  obtain ⟨t, hrep⟩ := h
  refine ⟨t, hover.represents hmain hrep, fun x hx => ?_⟩
  have hzero : total sha3 t x = 0 := by
    by_contra hne
    obtain ⟨u, -, hu, -⟩ := hrep.opened.exists_node hne
    rw [hx] at hu
    exact enc_ne_nil u hu.symm
  rw [hzero, MemoryDB.count, hmain]
  rfl

theorem Durable.wp_commit (h : Durable S n disk o c m) :
    wp handler (OverlayWrites S) (CommitOp.apply sha3 c .commit) o
      fun c' o' => ∃ disk', Durable S n disk' o' c' (CommitOp.track m .commit) ∧
        Readable S disk' c.trie.root m.current ∧
          DB.Extends (ofLevelDB disk) (ofLevelDB disk') := by
  obtain ⟨t, hrep, hcount⟩ := h.current
  obtain ⟨disk', hdb, hopened, hextends⟩ :=
    h.overDisk.opened_commit h.closed hcount hrep.opened
  have hmain : o.commit.memory.main = ∅ := main_commit h.overDisk.db
  have hover : Over S disk' o.commit := by
    refine ⟨hdb, aux_commit h.overDisk.db, ?_, ?_⟩
    · exact (enforceRefs_commit h.overDisk.db).trans h.overDisk.lax
    · intro x v refs hentry
      rw [hmain] at hentry
      cases hentry
  have hreadable : Readable S disk' c.trie.root m.current :=
    ⟨t, hopened, hrep.denotes, hrep.fits⟩
  intro _
  exact ⟨disk', ⟨hover, hopened.consistent,
    hreadable.exists_counted hover hmain, h.uniform, h.uniform, hreadable⟩,
    hreadable, hextends⟩

theorem OverlayDB.Over.rollback (h : Over S disk o) : Over S disk o.rollback :=
  ⟨h.db, h.aux, h.lax, fun _ _ _ hentry => by cases hentry⟩

theorem Durable.wp_rollback (h : Durable S n disk o c m) :
    wp handler (OverlayWrites S) (CommitOp.apply sha3 c .rollback) o
      fun c' o' => o'.memory.wrapped = false →
        Durable S n disk o' c' (CommitOp.track m .rollback) := by
  have hover := h.overDisk.rollback
  have hmain : o.rollback.memory.main = ∅ := rfl
  intro _
  obtain ⟨g, last⟩ := c
  cases last with
  | none =>
      obtain ⟨hlast, hfresh⟩ := h.last
      have hnil : ∀ x, DB.lookup o.rollback x = [] := by
        intro x
        rw [hover.lookup_of_none rfl, hfresh x]
      have hnot : DB.holds o.rollback (shaNull sha3) = false := by
        show o.rollback.holds (shaNull sha3) = false
        rw [holds_of_main hmain, hover.get, hfresh]
        rfl
      refine wp_bind_of (hover.wp (issues_setRoot sha3 _)
        (wp_setRoot_fresh ⟨h.overDisk.lax, hnil⟩ hnot)) ?_
      rintro g' o' ⟨⟨hrep, hmoves⟩, hover'⟩ hwrapped
      refine ⟨hover', h.closed, ⟨.empty, ?_, fun x _ =>
        hmoves.moved (Bool.eq_false_iff.1 hwrapped) x 0 rfl⟩,
        h.uniform_last, h.uniform_last, h.last⟩
      rw [CommitOp.track, hlast]
      exact hrep
  | some root =>
      have hreadable : Readable S disk root m.last := h.last
      obtain ⟨t, hrep, hcount⟩ := hreadable.exists_counted hover hmain
      have hne : DB.lookup o.rollback root ≠ [] := by
        have htop := hrep.opened.top
        rw [← hrep.opened.root] at htop
        rw [htop]
        exact enc_ne_nil t
      refine wp_bind_of (hover.wp (issues_setRoot sha3 _)
        (wp_setRoot hover.lax hne)) ?_
      rintro g' o' ⟨⟨rfl, rfl⟩, -⟩ -
      exact ⟨hover, h.closed, ⟨t, hrep, hcount⟩, h.uniform_last,
        h.uniform_last, h.last⟩

/-- One step, in which no count wraps; what is on disk stays there. -/
theorem Durable.wp_step (h : Durable S n disk o c m)
    (hbound : S.bound = 2 ^ 31 - 1) (hn : n < 2 ^ 30) {op : CommitOp}
    (hop : CommitOp.Uniform n [op]) :
    wp handler (OverlayWrites S) (op.apply sha3 c) o fun c' o' =>
      o'.memory.wrapped = false →
        ∃ disk', Durable S n disk' o' c' (op.track m) ∧
          DB.Extends (ofLevelDB disk) (ofLevelDB disk') := by
  cases op with
  | change op =>
      obtain ⟨hkey, hvalue⟩ := hop op List.mem_cons_self
      exact wp_mono (h.wp_change hbound hn hkey hvalue)
        fun c' o' h' hwrapped => ⟨disk, h' hwrapped, .refl _⟩
  | commit =>
      refine wp_mono h.wp_commit ?_
      rintro c' o' ⟨disk', h', -, hextends⟩ -
      exact ⟨disk', h', hextends⟩
  | rollback =>
      exact wp_mono h.wp_rollback
        fun c' o' h' hwrapped => ⟨disk, h' hwrapped, .refl _⟩

/-- Any number of steps.  What was committed after a count had wrapped would not
tell how the run goes on. -/
theorem Durable.exists_run (h : Durable S n disk o c m)
    (hbound : S.bound = 2 ^ 31 - 1) (hn : n < 2 ^ 30) {ops : List CommitOp}
    (hops : CommitOp.Uniform n ops)
    (hwrites : ∀ command ∈ commands handler
      (ops.foldlM (CommitOp.apply sha3) c) o, OverlayWrites S command)
    (hwrapped : (run handler (ops.foldlM (CommitOp.apply sha3) c)
      o).2.memory.wrapped = false) :
    ∃ c' o' disk', run handler (ops.foldlM (CommitOp.apply sha3) c) o =
        (.ok c', o') ∧
      Durable S n disk' o' c' (ops.foldl CommitOp.track m) ∧
      DB.Extends (ofLevelDB disk) (ofLevelDB disk') := by
  induction ops generalizing disk o c m with
  | nil => exact ⟨c, o, disk, rfl, h, .refl _⟩
  | cons op ops ih =>
      have hop : CommitOp.Uniform n [op] := by
        intro op' hop'
        obtain rfl := List.mem_singleton.1 hop'
        exact hops op' List.mem_cons_self
      rw [List.foldlM_cons] at hwrites hwrapped ⊢
      obtain ⟨c', o', -, hstep, hrun, hwrites'⟩ :=
        exists_run_bind (h.wp_step hbound hn hop) hwrites
      rw [hrun] at hwrapped ⊢
      obtain ⟨disk', h', hextends⟩ := hstep (wrapped_of_run hwrapped)
      obtain ⟨c'', o'', disk'', hrest, h'', hextends'⟩ := ih h'
        (fun op hop => hops op (List.mem_cons_of_mem _ hop)) hwrites' hwrapped
      exact ⟨c'', o'', disk'', hrest, h'', hextends.trans hextends'⟩

/-- The beginning of a run on an empty LevelDB. -/
theorem wp_start (n : Nat) :
    wp handler (OverlayWrites S) (OverlayDB.onTrie (GenericTrieDB.init sha3))
      (ofLevelDB LevelDB.empty) fun g o => o.memory.wrapped = false →
        Durable S n LevelDB.empty o ⟨g, none⟩ {} := by
  have hnil : ∀ x, DB.lookup (ofLevelDB LevelDB.empty) x = [] := fun _ => rfl
  refine wp_mono (over_ofLevelDB.wp (issues_init sha3) (wp_init ⟨rfl, hnil⟩)) ?_
  rintro g o ⟨⟨hrep, hmoves⟩, hover⟩ hwrapped
  exact ⟨hover, ⟨rfl, fun x hx => absurd (hnil x) hx⟩,
    ⟨.empty, hrep, fun x _ =>
      hmoves.moved (Bool.eq_false_iff.1 hwrapped) x 0 rfl⟩,
    BytesMap.uniform_empty, BytesMap.uniform_empty, rfl, hnil⟩

/-- A run on an empty LevelDB in which no count wraps. -/
theorem exists_run_commitSession (hbound : S.bound = 2 ^ 31 - 1)
    (hn : n < 2 ^ 30) {ops : List CommitOp} (hops : CommitOp.Uniform n ops)
    (hwrites : ∀ command ∈ commands handler (commitSession sha3 ops)
      (ofLevelDB LevelDB.empty), OverlayWrites S command)
    (hwrapped : (run handler (commitSession sha3 ops)
      (ofLevelDB LevelDB.empty)).2.memory.wrapped = false) :
    ∃ c o disk, run handler (commitSession sha3 ops)
        (ofLevelDB LevelDB.empty) = (.ok c, o) ∧
      Durable S n disk o c (tracked ops) := by
  obtain ⟨g, o, -, hstart, hrun, hwrites'⟩ := exists_run_bind (wp_start n) hwrites
  have hrun : run handler (commitSession sha3 ops) (ofLevelDB LevelDB.empty) =
      run handler (ops.foldlM (CommitOp.apply sha3) ⟨g, none⟩) o := hrun
  rw [hrun] at hwrapped ⊢
  obtain ⟨c', o', disk, hrest, h, -⟩ := (hstart (wrapped_of_run hwrapped)).exists_run
    hbound hn hops hwrites' hwrapped
  exact ⟨c', o', disk, hrest, h⟩

/-- The scope of a run without clashes. -/
def CommitsDistinct.scope {ops : List CommitOp}
    (h : CommitsDistinct sha3 ops) : Scope sha3 :=
  .ofStrings { v | v ∈ writtenOver (commitSession sha3 ops)
    (ofLevelDB LevelDB.empty) } fun v hv w hw => h v hv w hw

/-- The commands of a run write within its scope. -/
theorem overlayWrites_of_written {α : Type} {p : OverlayProgram α}
    (h : ∀ v ∈ writtenOver p o, v ∈ S.strings) :
    ∀ command ∈ commands handler p o, OverlayWrites S command := by
  intro command hmem
  rcases command with (x | x | ⟨x, v⟩ | x | _) | _ | _
  case node.insert => exact h v (List.mem_filterMap.2 ⟨_, hmem, rfl⟩)
  all_goals trivial

theorem commitSession_split (sha3 : Bytes → H256) (pre ops : List CommitOp) :
    commitSession sha3 (pre ++ ops) =
      commitSession sha3 pre >>= fun c =>
        ops.foldlM (CommitOp.apply sha3) c := by
  simp [commitSession, List.foldlM_append]

/-- A root that is current at a commit is on disk at any later time. -/
theorem exists_readable {pre post : List CommitOp} (hn : n < 2 ^ 30)
    (hops : CommitOp.Uniform n (pre ++ .commit :: post))
    (hclash : CommitsDistinct sha3 (pre ++ .commit :: post))
    (hwrapped : (run handler (commitSession sha3 (pre ++ .commit :: post))
      (ofLevelDB LevelDB.empty)).2.memory.wrapped = false) :
    ∃ c o c' o' disk,
      run handler (commitSession sha3 pre) (ofLevelDB LevelDB.empty) =
        (.ok c, o) ∧
      run handler (commitSession sha3 (pre ++ .commit :: post))
        (ofLevelDB LevelDB.empty) = (.ok c', o') ∧
      o'.db = some disk ∧
      Readable hclash.scope disk c.trie.root (tracked pre).current := by
  have hwrites := overlayWrites_of_written (S := hclash.scope) fun v hv => hv
  rw [commitSession_split] at hwrites hwrapped ⊢
  -- Up to the commit.
  have hbefore : (run handler (commitSession sha3 pre)
      (ofLevelDB LevelDB.empty)).2.memory.wrapped = false :=
    wrapped_of_bind hwrapped
  have hwrites₀ : ∀ command ∈ commands handler (commitSession sha3 pre)
      (ofLevelDB LevelDB.empty), OverlayWrites hclash.scope command := by
    rw [commands_bind] at hwrites
    exact fun command hmem => hwrites command (List.mem_append_left _ hmem)
  obtain ⟨c, o, disk, hrun, hdurable⟩ := exists_run_commitSession rfl hn
    (fun op hop => hops op (List.mem_append_left _ hop)) hwrites₀ hbefore
  rw [commands_bind, hrun] at hwrites
  rw [run_bind, hrun] at hwrapped
  -- The commit and what follows.
  have hwrites₁ : ∀ command ∈ commands handler
      ((.commit :: post).foldlM (CommitOp.apply sha3) c) o,
        OverlayWrites hclash.scope command :=
    fun command hmem => hwrites command (List.mem_append_right _ hmem)
  have hwrapped₁ : (run handler
      ((.commit :: post).foldlM (CommitOp.apply sha3) c)
        o).2.memory.wrapped = false := hwrapped
  rw [List.foldlM_cons] at hwrites₁ hwrapped₁
  obtain ⟨c₁, o₁, -, ⟨disk₁, hdurable₁, hreadable, -⟩, hrun₁, hwrites₂⟩ :=
    exists_run_bind hdurable.wp_commit hwrites₁
  rw [hrun₁] at hwrapped₁
  obtain ⟨c', o', disk', hrun', hdurable', hextends⟩ := hdurable₁.exists_run rfl
    hn (fun op hop => hops op (by simp [hop])) hwrites₂ hwrapped₁
  refine ⟨c, o, c', o', disk', hrun, ?_, hdurable'.overDisk.db,
    hreadable.mono hextends hdurable'.closed⟩
  rw [run_bind, hrun]
  show run handler ((.commit :: post).foldlM (CommitOp.apply sha3) c) o = _
  rw [List.foldlM_cons, hrun₁, hrun']

/-- A root that is current at a commit can be opened over the disk at any later
time, as long as no count has wrapped, and `at` gives the values of the map that
was held at the commit. -/
theorem committed_roots_stay {pre post : List CommitOp} (hn : n < 2 ^ 30)
    (hops : CommitOp.Uniform n (pre ++ .commit :: post))
    (hclash : CommitsDistinct sha3 (pre ++ .commit :: post))
    (hwrapped : (run handler (commitSession sha3 (pre ++ .commit :: post))
      (ofLevelDB LevelDB.empty)).2.memory.wrapped = false) :
    ∃ c o c' o' disk,
      run handler (commitSession sha3 pre) (ofLevelDB LevelDB.empty) =
        (.ok c, o) ∧
      run handler (commitSession sha3 (pre ++ .commit :: post))
        (ofLevelDB LevelDB.empty) = (.ok c', o') ∧
      o'.db = some disk ∧
      ∀ k, k.length < 2 ^ 30 →
        run DB.handler (reopen sha3 c.trie.root k) (ofLevelDB disk) =
          (.ok (((tracked pre).current.lookup k).getD []), ofLevelDB disk) := by
  obtain ⟨c, o, c', o', disk, hrun, hrun', hdb, hreadable⟩ :=
    exists_readable hn hops hclash hwrapped
  exact ⟨c, o, c', o', disk, hrun, hrun', hdb, fun k hk =>
    hreadable.run_reopen rfl hk⟩

/-- A root is committed, its trie is changed and the change is rolled back; then
the key is removed for good. -/
theorem committed_roots_stay_removed :
    ∃ c o c' o' disk,
      run handler (commitSession frontHash [.change (.insert [0x12] [1])])
        (ofLevelDB LevelDB.empty) = (.ok c, o) ∧
      run handler (commitSession frontHash
          ([.change (.insert [0x12] [1])] ++ .commit ::
            [.change (.insert [0x12] [2]), .rollback,
              .change (.remove [0x12]), .commit]))
        (ofLevelDB LevelDB.empty) = (.ok c', o') ∧
      o'.db = some disk ∧
      ∀ k, k.length < 2 ^ 30 →
        run DB.handler (reopen frontHash c.trie.root k) (ofLevelDB disk) =
          (.ok (((tracked [.change (.insert [0x12] [1])]).current.lookup
            k).getD []), ofLevelDB disk) := by
  refine committed_roots_stay (n := 1) (by decide) ?_ (by decide +kernel)
    (by decide +kernel)
  intro op hop
  simp only [List.cons_append, List.nil_append, List.mem_cons,
    CommitOp.change.injEq, reduceCtorEq, List.not_mem_nil, or_false,
    false_or] at hop
  rcases hop with rfl | rfl | rfl <;>
    simp [TrieOp.key, TrieOp.Storable, Trie.Storable]

theorem commitSession_change (sha3 : Bytes → H256) (op : TrieOp)
    (ops : List CommitOp) :
    commitSession sha3 (.change op :: ops) =
      OverlayDB.onTrie (session sha3 [op]) >>= fun g =>
        ops.foldlM (CommitOp.apply sha3) ⟨g, none⟩ := by
  simp only [commitSession, session, List.foldlM_cons, List.foldlM_nil,
    bind_pure, CommitOp.apply, onTrie_bind, bind_assoc, pure_bind]

/-- A change that the trie takes for another one may stand in its place. -/
theorem run_commitSession_change {op op' : TrieOp}
    (hrun : run DB.handler (session sha3 [op]) o =
      run DB.handler (session sha3 [op']) o)
    (hwritten : written (session sha3 [op]) o = written (session sha3 [op']) o)
    (ops : List CommitOp) :
    run handler (commitSession sha3 (.change op :: ops)) o =
        run handler (commitSession sha3 (.change op' :: ops)) o ∧
      writtenOver (commitSession sha3 (.change op :: ops)) o =
        writtenOver (commitSession sha3 (.change op' :: ops)) o := by
  have hnodes : ∀ op,
      (commands handler (OverlayDB.onTrie (session sha3 [op])) o).filterMap
        OverlayCommand.written? = written (session sha3 [op]) o := by
    intro op
    rw [commands_onTrie, List.filterMap_map]
    rfl
  rw [commitSession_change, commitSession_change, run_bind, run_bind,
    writtenOver, writtenOver, commands_bind, commands_bind,
    List.filterMap_append, List.filterMap_append, hnodes, hnodes, run_onTrie,
    run_onTrie, hrun, hwritten]
  exact ⟨rfl, rfl⟩

/-- Two keys of 2^31 bytes are one key to the trie that is reopened. -/
theorem not_committed_roots_stay :
    (longKey 0).length = 2 ^ 31 ∧ (longKey 1).length = 2 ^ 31 ∧
    CommitsDistinct frontHash
      ([.change (.insert (longKey 0) [1])] ++ .commit :: []) ∧
    ∃ c o c' o' disk,
      run handler (commitSession frontHash
          [.change (.insert (longKey 0) [1])])
        (ofLevelDB LevelDB.empty) = (.ok c, o) ∧
      run handler (commitSession frontHash
          ([.change (.insert (longKey 0) [1])] ++ .commit :: []))
        (ofLevelDB LevelDB.empty) = (.ok c', o') ∧
      o'.db = some disk ∧
      run DB.handler (reopen frontHash c.trie.root (longKey 1))
        (ofLevelDB disk) = (.ok [1], ofLevelDB disk) ∧
      (tracked [.change (.insert (longKey 0) [1])]).current.lookup
        (longKey 1) = none := by
  have hwrapping : TrieOp.Wrapping [.insert (longKey 0) [1]] :=
    wrapping_longKey 0 (by simp [Trie.Storable])
  have hfresh : Fresh (ofLevelDB LevelDB.empty) := ⟨rfl, fun _ => rfl⟩
  have hclash : NoClash frontHash (session frontHash [.insert [] [1]])
      (ofLevelDB LevelDB.empty) := by decide +kernel
  obtain ⟨hrun, hwritten⟩ := hwrapping.session_cut hfresh hclash
  have hpre := run_commitSession_change hrun hwritten []
  have hall := run_commitSession_change hrun hwritten [.commit]
  have hdistinct : CommitsDistinct frontHash
      ([.change (.insert [] [1])] ++ .commit :: []) := by decide +kernel
  have huniform : CommitOp.Uniform 0
      ([.change (.insert [] [1])] ++ .commit :: []) := by
    intro op hop
    simp only [List.cons_append, List.nil_append, List.mem_cons,
      CommitOp.change.injEq, reduceCtorEq, List.not_mem_nil, or_false] at hop
    rw [hop]
    simp [TrieOp.key, TrieOp.Storable, Trie.Storable]
  obtain ⟨c, o, c', o', disk, hcut, hcut', hdb, hreadable⟩ :=
    exists_readable (by decide) huniform hdistinct (by decide +kernel)
  refine ⟨List.length_replicate, List.length_replicate, ?_, c, o, c', o', disk,
    hpre.1.trans hcut, hall.1.trans hcut', hdb, ?_, ?_⟩
  · show ∀ v ∈ writtenOver _ _, ∀ w ∈ writtenOver _ _, _
    rw [List.singleton_append, hall.2]
    exact hdistinct
  · have hopen := hreadable.run_setRoot
    obtain ⟨t, hrep⟩ := hreadable
    rw [reopen, run_bind, hopen]
    exact (wraps_longKey 1).run_lookup hrep hwrapping.onlyEmptyKey
  · have hne : longKey 1 ≠ longKey 0 := mt longKey_inj.1 (by decide)
    show (OrderedMap.insert {} (longKey 0) [1]).lookup (longKey 1) = none
    rw [OrderedMap.lookup_insert, if_neg hne, OrderedMap.lookup_empty]

end Runs

end Web3Core
