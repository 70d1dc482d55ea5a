/-
Removal of a key that is not stored.  It changes nothing at all, unless the key
leads the code astray: at a branch without a value, which has no nibble to go
on with, or behind a leaf, whose value is then taken for a hash.
-/
import Web3Core.TrieContents
import Web3Core.TrieFailures

namespace Web3Core

open Program GenericTrieDB

open RLPTree (encode encodeItems partialList)

namespace Trie

/-- The key runs through the whole key of the leaf with the value `x` and
on. -/
def Outruns : Trie → List Nibble → Bytes → Prop
  | .leaf key value, ns, x => key <+: ns ∧ value = x
  | .ext key child, ns, x => key <+: ns ∧ Outruns child (ns.drop key.length) x
  | .branch slots _, i :: ns, x => Outruns (slots i) ns x
  | _, _, _ => False

variable {sha3 : Bytes → H256} {σ : Type} [LawfulDB σ] {S : Scope sha3}
  {db : σ} {t : Trie} {ns : List Nibble} {x : Bytes} {orig : RLP}

theorem outruns_ext_append {key : List Nibble} {child : Trie} :
    Outruns (.ext key child) (key ++ ns) x ↔ Outruns child ns x := by
  simp [Outruns]

/-- The leaf that is run through is that of a stored key which no other one
goes on from. -/
theorem exists_of_outruns (ht : t.Canonical) (h : Outruns t ns x) :
    ∃ p, Patricia.lookup t p = some x ∧ p <+: ns ∧
      ∀ q, Has t q → p <+: q → q = p := by
  induction t generalizing ns with
  | empty => exact h.elim
  | leaf key value =>
      obtain ⟨hpre, rfl⟩ := h
      exact ⟨key, by simp, hpre, fun q hq _ => has_leaf.1 hq⟩
  | ext key child ih =>
      obtain ⟨⟨r, rfl⟩, hchild⟩ := h
      rw [List.drop_left] at hchild
      obtain ⟨p, hp, hpre, honly⟩ := ih ht.2.2 hchild
      refine ⟨key ++ p, by rw [Patricia.lookup_ext_append, hp],
        (List.prefix_append_right_inj key).2 hpre, fun q hq hpq => ?_⟩
      obtain ⟨q, rfl⟩ := hq.prefix_of_ext
      rw [honly q (has_ext_append.1 hq)
        ((List.prefix_append_right_inj key).1 hpq)]
  | branch slots value ih =>
      cases ns with
      | nil => exact h.elim
      | cons i ns =>
          obtain ⟨p, hp, hpre, honly⟩ := ih i (ht.1 i) h
          refine ⟨i :: p, hp, List.cons_prefix_cons.2 ⟨rfl, hpre⟩,
            fun q hq hpq => ?_⟩
          cases q with
          | nil => cases List.prefix_nil.1 hpq
          | cons j q =>
              obtain ⟨rfl, hpq'⟩ := List.cons_prefix_cons.1 hpq
              rw [honly q hq hpq']

/-- A value that, read as a hash, finds nothing. -/
def Unnamed (db : σ) (x : Bytes) : Prop :=
  x.length ≤ 32 → DB.lookup db (RLP.alignRight 32 x) = []

/-- There is no removing from an entry that is not there. -/
theorem fails_deleteAt_nil (fuel : Nat) (k : NibbleSlice) :
    fails DB.handler (Writes S) (do
      let r ← RLP.ofBytes []
      GenericTrieDB.deleteAt sha3 fuel r k : DBProgram Bytes) db := by
  cases fuel with
  | zero => trivial
  | succ fuel => trivial

/-- The value of a leaf is taken for a hash. -/
theorem fails_deleteAtAux_value (hr : orig.Rep (.data x)) (hne : x ≠ [])
    (hx : Unnamed db x) (fuel : Nat) (out : RLPStream) (k : NibbleSlice) :
    fails DB.handler (Writes S)
      (deleteAtAux sha3 (GenericTrieDB.deleteAt sha3 fuel) out orig k) db := by
  have hempty : orig.isEmpty = false := by
    rw [hr.isEmpty, List.isEmpty_eq_false_iff]
    exact hne
  have hlist : orig.isList = false := hr.isList
  rw [deleteAtAux]
  refine fails_bind_left ?_ _
  simp only [hempty, Bool.false_eq_true, ↓reduceIte, hlist]
  by_cases hlong : 32 < x.length
  · rw [hr.toHash_of_lt hlong]
    trivial
  · have hshort : x.length ≤ 32 := Nat.not_lt.1 hlong
    rw [hr.toHash hshort, fails_ok_bind, fails_node_bind, hx hshort]
    exact fails_deleteAt_nil fuel k

/-- A key that is not there and leads the code astray. -/
structure Strays (S : Scope sha3) (db : σ) (t : Trie) (ns : List Nibble) :
    Prop where
  canonical : t.Canonical
  stored : Stored sha3 (DB.lookup db) t
  within : Within S.bound 0 t
  absent : ¬ Has t ns
  stops : ¬ Reaches t ns
  unnamed : ∀ x, Outruns t ns x → Unnamed db x

theorem Strays.child {key : List Nibble} {child : Trie}
    (h : Strays S db (.ext key child) (key ++ ns)) : Strays S db child ns where
  canonical := h.canonical.2.2
  stored := h.stored.2
  within := h.within.child
  absent hhas := h.absent (has_ext_append.2 hhas)
  stops hreaches := h.stops fun _ => by rwa [List.drop_left]
  unnamed x hx := h.unnamed x (outruns_ext_append.2 hx)

theorem Strays.slot {slots : Nibble → Trie} {value : Option Bytes} {i : Nibble}
    (h : Strays S db (.branch slots value) (i :: ns)) :
    Strays S db (slots i) ns where
  canonical := h.canonical.1 i
  stored := (h.stored i).2
  within := h.within.slot i
  absent := h.absent
  stops := h.stops
  unnamed := h.unnamed

theorem failsAt_leaf {key : List Nibble}
    (h : Strays S db (.leaf key x) ns) (fuel : Nat) :
    FailsAt S db (GenericTrieDB.deleteAt sha3 (fuel + 1)) (.leaf key x) ns := by
  intro orig k hr hk
  have hpre : key <+: ns := by
    by_contra hno
    exact h.stops fun hpre => absurd hpre hno
  have hkey : ¬ key = ns := fun heq => h.absent (has_leaf.2 heq.symm)
  obtain ⟨k', c₀, c, hpair⟩ := exists_isPair hr h.within.leaf_short
  have hfits : (RLPTree.list [.data (hexPrefix true key), .data x]).Fits :=
    h.within.fits sha3 S.bound_le
  have hfirst := appendItem_partialList hfits hpair.rep_first (k := 0) rfl
  simp only [GenericTrieDB.deleteAt, hpair.isEmpty, Bool.false_eq_true,
    ↓reduceIte, hpair.isNode, hpair.itemCount, check_true, fails_ok_bind,
    hpair.keyOf, hpair.isLeaf, hpair.shows.equals hk, hk.contains hpair.shows,
    andThen, hkey, hpre, decide_false, decide_true, hpair.first, hpair.second,
    ofList_two (.data (hexPrefix true key)) (.data x), hfirst]
  exact fails_bind_left (fails_deleteAtAux_value hpair.rep_second
    h.within.1.1 (h.unnamed x ⟨hpre, rfl⟩) fuel _ _) _

/-- The key ends at a branch without a value: the code reads the nibble behind
its end. -/
theorem failsAt_branch_nil {slots : Nibble → Trie} (fuel : Nat) :
    FailsAt S db (GenericTrieDB.deleteAt sha3 (fuel + 1)) (.branch slots none)
      [] := by
  intro orig k hr hk
  obtain ⟨c, hbranch⟩ := exists_branch hr
  have hsize : k.size = 0 := hk.size
  have hitem : (c 16).isEmpty = true := hbranch.rep_value.isEmpty
  simp only [GenericTrieDB.deleteAt, hbranch.isEmpty, Bool.false_eq_true,
    ↓reduceIte, hbranch.isNode, hbranch.itemCount, check_true, fails_ok_bind,
    Nat.reduceEqDiff, hsize, beq_self_eq_true, andThen,
    hbranch.get 16 (by decide), ok_bind, hitem, Bool.not_true, hk.get_nil,
    ofList_branch (fun j => ref sha3 (slots j)) none]
  trivial

/-- Where the key leads the code astray, removal ends in an exception. -/
theorem Strays.failsAt (h : Strays S db t ns) (fuel : Nat) :
    FailsAt S db (GenericTrieDB.deleteAt sha3 fuel) t ns := by
  induction fuel generalizing t ns with
  | zero => exact fun _ _ _ _ => trivial
  | succ fuel ih =>
      cases t with
      | empty => exact absurd trivial h.stops
      | leaf key x => exact failsAt_leaf h fuel
      | ext key child =>
          have hpre : key <+: ns := by
            by_contra hno
            exact h.stops fun hpre => absurd hpre hno
          obtain ⟨r, rfl⟩ := hpre
          exact failsAt_ext h.within h.stored (ih h.child)
      | branch slots value =>
          cases ns with
          | nil =>
              obtain rfl : value = none := by
                by_contra hvalue
                exact h.stops hvalue
              exact failsAt_branch_nil fuel
          | cons i ns =>
              have hne : slots i ≠ .empty := by
                intro hempty
                refine h.slot.stops ?_
                rw [hempty]
                trivial
              exact failsAt_branch_cons hne h.within h.stored (ih h.slot)

end Trie

open Trie

namespace BytesMap

variable {m : BytesMap} {t : Trie} {k : Bytes} {x : Bytes}

/-- Two stored keys go on from the key with different nibbles, one of them
possibly by ending. -/
def Forks (m : BytesMap) (k : Bytes) : Prop :=
  ∃ a b, m.lookup (k ++ a) ≠ none ∧ m.lookup (k ++ b) ≠ none ∧
    (nibbles a).head? ≠ (nibbles b).head?

/-- The key begins with a stored one that has the value `x` and that no other
stored key goes on from. -/
def Overruns (m : BytesMap) (k x : Bytes) : Prop :=
  ∃ p, m.lookup p = some x ∧ p <+: k ∧
    ∀ q, m.lookup q ≠ none → p <+: q → q = p

theorem Denotes.exists_append (h : Denotes m t) {ns : List Nibble}
    (hhas : Has t (nibbles k ++ ns)) :
    ∃ a, nibbles a = ns ∧ m.lookup (k ++ a) ≠ none := by
  obtain ⟨q, hq, hstored⟩ := (h.has_iff _).1 hhas
  obtain ⟨a, rfl⟩ : k <+: q :=
    nibbles_prefix_iff.1 (hq ▸ List.prefix_append (nibbles k) ns)
  rw [nibbles_append] at hq
  exact ⟨a, List.append_cancel_left hq, hstored⟩

theorem Denotes.forks_iff (h : Denotes m t) :
    Trie.Forks t (nibbles k) ↔ m.Forks k := by
  constructor
  · rintro ⟨x, y, hx, hy, hne⟩
    obtain ⟨a, rfl, ha⟩ := h.exists_append hx
    obtain ⟨b, rfl, hb⟩ := h.exists_append hy
    exact ⟨a, b, ha, hb, hne⟩
  · rintro ⟨a, b, ha, hb, hne⟩
    refine ⟨nibbles a, nibbles b, ?_, ?_, hne⟩
    · rw [← nibbles_append]
      exact (h.has_nibbles_iff _).2 ha
    · rw [← nibbles_append]
      exact (h.has_nibbles_iff _).2 hb

/-- The stored key that is run through, in the trie and in the map. -/
theorem Denotes.overruns_iff (h : Denotes m t) :
    (∃ p, Patricia.lookup t p = some x ∧ p <+: nibbles k ∧
        ∀ q, Has t q → p <+: q → q = p) ↔ m.Overruns k x := by
  constructor
  · rintro ⟨p, hp, hpre, honly⟩
    obtain ⟨p, rfl, hx⟩ := (h.holds p x).1 hp
    refine ⟨p, hx, nibbles_prefix_iff.1 hpre, fun q hq hpq => ?_⟩
    exact nibbles_inj.1 (honly _ ((h.has_nibbles_iff q).2 hq)
      (nibbles_prefix_iff.2 hpq))
  · rintro ⟨p, hx, hpre, honly⟩
    refine ⟨nibbles p, by rw [h.lookup, hx], nibbles_prefix_iff.2 hpre,
      fun q hq hpq => ?_⟩
    obtain ⟨q, rfl, hstored⟩ := (h.has_iff q).1 hq
    rw [honly q hstored (nibbles_prefix_iff.1 hpq)]

theorem Overruns.unique {y : Bytes} (h : m.Overruns k x)
    (h' : m.Overruns k y) : x = y := by
  obtain ⟨p, hp, hpre, honly⟩ := h
  obtain ⟨q, hq, hpre', honly'⟩ := h'
  have hsame : p = q := by
    rcases List.prefix_or_prefix_of_prefix hpre hpre' with hpq | hqp
    · exact (honly q (by simp [hq]) hpq).symm
    · exact honly' p (by simp [hp]) hqp
  subst hsame
  rw [hp] at hq
  exact Option.some.inj hq

theorem Forks.not_overruns (h : m.Forks k) (hnone : m.lookup k = none) :
    ¬ m.Overruns k x := by
  rintro ⟨p, hp, hpre, honly⟩
  obtain ⟨a, b, ha, -, -⟩ := h
  have heq := honly (k ++ a) ha (hpre.trans (List.prefix_append k a))
  have hkey : p = k := hpre.eq_of_length_le (by
    rw [← heq, List.length_append]
    omega)
  rw [← hkey, hp] at hnone
  cases hnone

/-- For a key that is not stored, what the code needs to miss it cleanly. -/
theorem Denotes.reaches_iff (h : Denotes m t) (hnone : m.lookup k = none) :
    Reaches t (nibbles k) ↔ ¬ m.Forks k ∧ ∀ x, ¬ m.Overruns k x := by
  have hhas : ¬ Has t (nibbles k) := fun hhas =>
    (h.has_nibbles_iff k).1 hhas hnone
  rw [Trie.reaches_iff h.canonical hhas, h.forks_iff]
  refine and_congr_right fun _ => ⟨?_, ?_⟩
  · rintro hno x hover
    obtain ⟨p, hp, hpre, honly⟩ := h.overruns_iff.2 hover
    exact hno ⟨p, by simp [Has, hp], hpre, honly⟩
  · rintro hno ⟨p, hp, hpre, honly⟩
    obtain ⟨x, hx⟩ := Option.ne_none_iff_exists'.1 hp
    exact hno x (h.overruns_iff.1 ⟨p, hx, hpre, honly⟩)

end BytesMap

section Removal

variable {sha3 : Bytes → H256} {σ : Type} [LawfulDB σ] {S : Scope sha3}
  {db : σ} {g : GenericTrieDB} {m : BytesMap} {t : Trie} {k : Bytes}
  {ops : List TrieOp}

/-- A key that is not there and does not lead the code astray. -/
theorem Trie.Represents.gives_absent (h : Represents S db g m t)
    (hnone : m.lookup k = none) (hforks : ¬ m.Forks k)
    (hover : ∀ x, ¬ m.Overruns k x) :
    Gives S db (.leaf []) t (nibbles k) where
  consistent := h.opened.consistent
  canonical := h.denotes.canonical
  stored := h.opened.stored
  within := h.opened.within
  reaches := (h.denotes.reaches_iff hnone).2 ⟨hforks, hover⟩
  short x hx := absurd hnone
    ((h.denotes.has_nibbles_iff k).1 (has_of_strands hx))
  replaces x hx := absurd hnone
    ((h.denotes.has_nibbles_iff k).1 (has_of_strands hx))
  nonempty x := by simp
  bounded x d hx hd hlt := ⟨hx, hlt⟩

/-- A key that is not there and leads the code astray: it ends where stored
keys go different ways, or runs through a stored key whose value names no
entry. -/
theorem Trie.Represents.strays (h : Represents S db g m t)
    (hnone : m.lookup k = none)
    (hastray : m.Forks k ∨ ∃ x, m.Overruns k x ∧ Unnamed db x) :
    Strays S db t (nibbles k) where
  canonical := h.denotes.canonical
  stored := h.opened.stored
  within := h.opened.within
  absent hhas := (h.denotes.has_nibbles_iff k).1 hhas hnone
  stops hreaches := by
    obtain ⟨hforks, hover⟩ := (h.denotes.reaches_iff hnone).1 hreaches
    rcases hastray with hf | ⟨x, hx, -⟩
    · exact hforks hf
    · exact hover x hx
  unnamed x hx := by
    have hover : m.Overruns k x :=
      h.denotes.overruns_iff.1 (exists_of_outruns h.denotes.canonical hx)
    rcases hastray with hf | ⟨y, hy, hunnamed⟩
    · exact absurd hover (hf.not_overruns hnone)
    · rwa [hover.unique hy]

/-- A removal after a session: what it writes is among what is written in
all. -/
theorem exists_session_removal {B : Nat} (hB : B ≤ 2 ^ 31 - 1)
    (hdb : Fresh db) (hops : TrieOp.Inserts ops)
    (hshort : ∀ op ∈ ops, op.key.length * 2 < B)
    (hclash : NoClash sha3 (session sha3 (ops ++ [.remove k])) db) :
    ∃ g db' t, run DB.handler (session sha3 ops) db = (.ok g, db') ∧
      Represents (hclash.scope.below B hB) db' g (contents ops) t ∧
        ∀ v ∈ written (g.remove sha3 k) db', v ∈ hclash.scope.strings := by
  obtain ⟨g, db', hrun, t, hrep⟩ := exists_run_of_written
    (S := hclash.scope.below B hB)
    (written_prefix_subset (List.prefix_append ops [.remove k]))
    (wp_session_inserts_of hdb hops hshort)
  refine ⟨g, db', t, hrun, hrep, fun v hv => ?_⟩
  show v ∈ written (session sha3 (ops ++ [.remove k])) db
  rw [session_append]
  exact written_bind hrun (fun g => g.remove sha3 k) ▸
    List.mem_append_right _ hv

/-- Removing a key that is not stored is a clean no-op unless the key ends
where stored keys go different ways or goes on from a stored key that no other
one goes on from.  Where it is no error nevertheless, the value of that key,
read as a hash, names an entry of the database. -/
theorem remove_absent (hdb : Fresh db) (hops : TrieOp.Inserts ops)
    (hk : k.length < 2 ^ 30) (hnone : (contents ops).lookup k = none)
    (hclash : NoClash sha3 (session sha3 (ops ++ [.remove k])) db) :
    ∃ g db', run DB.handler (session sha3 ops) db = (.ok g, db') ∧
      (¬ (contents ops).Forks k → (∀ x, ¬ (contents ops).Overruns k x) →
        run DB.handler (g.remove sha3 k) db' = (.ok g, db')) ∧
      ((∃ g' db'', run DB.handler (g.remove sha3 k) db' = (.ok g', db'')) →
        ¬ (contents ops).Forks k ∧ ∀ x, (contents ops).Overruns k x →
          x.length ≤ 32 ∧ DB.lookup db' (RLP.alignRight 32 x) ≠ []) := by
  obtain ⟨g, db', t, hrun, hrep, hinside⟩ :=
    exists_session_removal le_rfl hdb hops hops.short hclash
  have hshort : k.length * 2 < 2 ^ 31 - 1 := by omega
  refine ⟨g, db', hrun, fun hforks hover => ?_, ?_⟩
  · obtain ⟨g', db'', hremove, rfl, rfl⟩ := exists_run_of_written hinside
      (wp_remove_none hrep.opened (hrep.gives_absent hnone hforks hover) hshort
        (by rw [hrep.denotes.lookup, hnone]))
    exact hremove
  · rintro ⟨g', db'', hremove⟩
    have hnot : ¬ ((contents ops).Forks k ∨
        ∃ x, (contents ops).Overruns k x ∧ Unnamed db' x) := by
      intro hastray
      obtain ⟨error, db₃, herror⟩ := exists_error_of_written hinside
        (fails_remove hrep.opened hshort
          ((hrep.strays hnone hastray).failsAt _))
      rw [hremove] at herror
      cases herror
    rw [not_or] at hnot
    refine ⟨hnot.1, fun x hx => ?_⟩
    by_contra hbad
    refine hnot.2 ⟨x, hx, fun hle => ?_⟩
    by_contra hne
    exact hbad ⟨hle, hne⟩

theorem remove_absent_beside :
    ∃ g db, run DB.handler (session frontHash [.insert [0x12] [1]])
        ({} : MemoryDB) = (.ok g, db) ∧
      run DB.handler (g.remove frontHash [0x13]) db = (.ok g, db) := by
  have hops : TrieOp.Inserts [.insert [0x12] [1]] := by
    simp [TrieOp.Inserts, Trie.Storable]
  have hclash : NoClash frontHash (session frontHash
      ([.insert [0x12] [1]] ++ [.remove [0x13]])) ({} : MemoryDB) := by
    decide +kernel
  have honly : ∀ q, (contents [.insert [0x12] [1]]).lookup q ≠ none →
      q = [0x12] := by
    intro q hq
    by_contra hne
    refine hq ?_
    show (OrderedMap.insert {} [0x12] [1]).lookup q = none
    rw [OrderedMap.lookup_insert, if_neg hne, OrderedMap.lookup_empty]
  obtain ⟨g, db, hrun, hclean, -⟩ := remove_absent (k := [0x13])
    fresh_memoryDB hops (by decide) rfl hclash
  refine ⟨g, db, hrun, hclean ?_ ?_⟩
  · rintro ⟨a, b, ha, -, -⟩
    cases honly _ ha
  · rintro x ⟨p, hp, hpre, -⟩
    rw [honly p (by simp [hp])] at hpre
    exact absurd hpre (by decide)

/-- A key at which two stored keys part, and a key that goes on from the only
stored one. -/
theorem not_remove_absent :
    (contents [.insert [0x12, 0x34] [1], .insert [0x12, 0x56] [2]]).lookup
        [0x12] = none ∧
      NoClash frontHash (session frontHash [.insert [0x12, 0x34] [1],
        .insert [0x12, 0x56] [2], .remove [0x12]]) ({} : MemoryDB) ∧
      (run DB.handler (session frontHash [.insert [0x12, 0x34] [1],
        .insert [0x12, 0x56] [2], .remove [0x12]]) ({} : MemoryDB)).1 =
          .error .outOfRange ∧
      (contents [.insert [0x12] [1]]).lookup [0x12, 0x34] = none ∧
      NoClash frontHash (session frontHash [.insert [0x12] [1],
        .remove [0x12, 0x34]]) ({} : MemoryDB) ∧
      (run DB.handler (session frontHash [.insert [0x12] [1],
        .remove [0x12, 0x34]]) ({} : MemoryDB)).1 = .error .assertion := by
  refine ⟨rfl, ?_, ?_, rfl, ?_, ?_⟩ <;> decide +kernel

end Removal

end Web3Core
