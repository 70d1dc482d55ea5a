/-
Where `operator++` stops.  The trails of an iterator at the entries of a trie,
one after the other in the order of the keys, are told by recursion over the
trie; the loop of `next()` visits these and no others.
-/
import Web3Core.Loops
import Web3Core.PatriciaEntries
import Web3Core.TrieChildren

namespace Web3Core

open Program GenericTrieDB

/-- A place where an iterator stops, and the entry it is at there. -/
structure Stop where
  trail : List GenericTrieDB.Node
  key : List Nibble
  value : Bytes

namespace Trie

/-- The slots of a branch from the `i`-th on, one after the other. -/
def fromSlot {α : Type} (f : Nibble → List α) (i : Nat) : List α :=
  ((List.finRange 16).drop i).flatMap f

theorem fromSlot_nibble {α : Type} (f : Nibble → List α) (i : Nibble) :
    fromSlot f i = f i ++ fromSlot f (i + 1) := by
  have hlt : i.val < (List.finRange 16).length := by simp
  rw [fromSlot, List.drop_eq_getElem_cons hlt, List.flatMap_cons,
    List.getElem_finRange]
  rfl

theorem fromSlot_end {α : Type} (f : Nibble → List α) : fromSlot f 16 = [] := rfl

section Stops

variable (sha3 : Bytes → H256)

/-- A branch on the trail. -/
def branchOn (slots : Nibble → Trie) (value : Option Bytes)
    (path : List Nibble) (child : Byte) : GenericTrieDB.Node :=
  ⟨enc sha3 (.branch slots value), hexPrefix false path, child⟩

/-- The stops in a trie that is entered with `below` on the trail and `path`
as its way from the root. -/
def stops : Trie → List Nibble → List GenericTrieDB.Node → List Stop
  | .empty, _, _ => []
  | .leaf key value, path, below =>
      [⟨⟨enc sha3 (.leaf key value), hexPrefix false (path ++ key), 0⟩ :: below,
        path ++ key, value⟩]
  | .ext key child, path, below => stops child (path ++ key) below
  | .branch slots value, path, below =>
      value.toList.map (fun x =>
          ⟨branchOn sha3 slots value path 16 :: below, path, x⟩) ++
        fromSlot (fun i => stops (slots i) (path ++ [i])
          (branchOn sha3 slots value path (childByte i) :: below)) 0

theorem prepend_append (path key : List Nibble)
    (entries : List (List Nibble × Bytes)) :
    Patricia.prepend (path ++ key) entries =
      Patricia.prepend path (Patricia.prepend key entries) := by
  simp [Patricia.prepend]

/-- The stops are at the entries of the trie. -/
theorem stops_entries (t : Trie) (path : List Nibble)
    (below : List GenericTrieDB.Node) :
    (stops sha3 t path below).map (fun s => (s.key, s.value)) =
      Patricia.prepend path (Patricia.entries t) := by
  induction t generalizing path below with
  | empty => rfl
  | leaf key value => rfl
  | ext key child ih => rw [stops, ih, prepend_append, Patricia.entries]
  | branch slots value ih =>
      have hvalue : (value.toList.map fun x => (⟨branchOn sha3 slots value path
          16 :: below, path, x⟩ : Stop)).map (fun s => (s.key, s.value)) =
          Patricia.prepend path (value.toList.map fun x => ([], x)) := by
        simp [Patricia.prepend]
      rw [stops, Patricia.entries, List.map_append, hvalue, fromSlot,
        List.drop_zero, List.map_flatMap]
      simp only [ih, prepend_append]
      simp only [Patricia.prepend, List.map_append, List.map_flatMap]

end Stops

section Visits

variable {sha3 : Bytes → H256} {σ : Type} [LawfulDB σ] {S : Scope sha3}
  {db : σ} {g : GenericTrieDB} {t : Trie}

/-- The outcomes of `next()` from a trail. -/
def nextRun (g : GenericTrieDB) (db : σ) (trail : List GenericTrieDB.Node)
    (fuel : Nat) : Except Exception Iterator × σ :=
  run DB.handler (nextLoop (some g) fuel trail) db

/-- The outcome of returning with a trail. -/
def returned (g : GenericTrieDB) (db : σ) (trail : List GenericTrieDB.Node) :
    Except Exception Iterator × σ :=
  (.ok ⟨trail, some g⟩, db)

/-- The loop over the children of a branch and what follows it. -/
def childrenRun (g : GenericTrieDB) (db : σ) (r : RLP)
    (b : GenericTrieDB.Node) (below : List GenericTrieDB.Node) (fuel : Nat) :
    Except Exception Iterator × σ :=
  run DB.handler (children (some g) r b below ⟨[], 0⟩ fun trail _ =>
    nextLoop (some g) fuel trail) db

variable (sha3) in
/-- A node is read from the trail. -/
theorem exists_read {d : Nat} (hwithin : Within S.bound d t) :
    ∃ r, RLP.ofBytes (enc sha3 t) = .ok r ∧ r.Rep (node sha3 t) :=
  RLP.Rep.ofBytes (hwithin.fits sha3 S.bound_le)

variable {path : List Nibble} {below : List GenericTrieDB.Node}

theorem nextRun_empty :
    Leads (nextRun g db (⟨enc sha3 .empty, hexPrefix false path, 255⟩ :: below))
      (nextRun g db below) := by
  have hfits : (node sha3 .empty).Fits := (by decide : (RLPTree.data []).Fits)
  obtain ⟨r, hr', hrep⟩ := RLP.Rep.ofBytes hfits
  have hr : RLP.ofBytes (enc sha3 .empty) = .ok r := hr'
  refine Leads.round fun fuel => ?_
  have hempty : r.isEmpty = true := hrep.isEmpty
  simp only [nextRun, nextLoop, hr, liftM_ok_bind, ↓reduceIte, hempty]

/-- Entering a leaf stops there. -/
theorem nextRun_leaf {key : List Nibble} {value : Bytes}
    (hwithin : Within S.bound path.length (.leaf key value)) :
    Leads
      (nextRun g db
        (⟨enc sha3 (.leaf key value), hexPrefix false path, 255⟩ :: below))
      fun _ => returned g db (⟨enc sha3 (.leaf key value),
        hexPrefix false (path ++ key), 0⟩ :: below) := by
  have hbound := S.bound_le
  have hlt := hwithin.2
  obtain ⟨r, hr, hrep⟩ := exists_read sha3 hwithin
  obtain ⟨k', c₀, c, hpair⟩ := exists_isPair hrep (by omega)
  have hjoin := hpair.shows.join_path (show path.length < 2 ^ 31 - 1 by omega)
  refine Leads.round fun fuel => ?_
  simp only [nextRun, nextLoop, hr, liftM_ok_bind, ↓reduceIte, hpair.isEmpty,
    Bool.false_eq_true, hpair.isNode, Bool.not_true, hpair.itemCount,
    hpair.keyOf, hjoin, hpair.isLeaf]
  rfl

/-- Leaving a leaf. -/
theorem nextRun_leave {key : List Nibble} {value : Bytes}
    (hwithin : Within S.bound path.length (.leaf key value)) (k : Bytes) :
    Leads (nextRun g db (⟨enc sha3 (.leaf key value), k, 0⟩ :: below))
      (nextRun g db below) := by
  have hbound := S.bound_le
  have hlt := hwithin.2
  obtain ⟨r, hr, hrep⟩ := exists_read sha3 hwithin
  obtain ⟨k', c₀, c, hpair⟩ := exists_isPair hrep (by omega)
  have hne : (0 : Byte) ≠ 255 := by decide
  refine Leads.round fun fuel => ?_
  simp only [nextRun, nextLoop, hr, liftM_ok_bind, hne, ↓reduceIte,
    hpair.itemCount, hpair.isList, Bool.true_and]
  rfl

/-- The child of an extension takes its place. -/
theorem nextRun_ext {key : List Nibble} {child : Trie}
    (hwithin : Within S.bound path.length (.ext key child))
    (hheld : Held sha3 (DB.lookup db) child) :
    Leads
      (nextRun g db
        (⟨enc sha3 (.ext key child), hexPrefix false path, 255⟩ :: below))
      (nextRun g db
        (⟨enc sha3 child, hexPrefix false (path ++ key), 255⟩ :: below)) := by
  obtain ⟨-, hne, hlt, hchild⟩ := id hwithin
  have hbound := S.bound_le
  obtain ⟨r, hr, hrep⟩ := exists_read sha3 hwithin
  obtain ⟨k', c₀, c, hpair⟩ := exists_isPair hrep (by omega)
  have hjoin := hpair.shows.join_path (show path.length < 2 ^ 31 - 1 by omega)
  refine Leads.round fun fuel => ?_
  simp only [nextRun, nextLoop, hr, liftM_ok_bind, ↓reduceIte, hpair.isEmpty,
    Bool.false_eq_true, hpair.isNode, Bool.not_true, hpair.itemCount,
    hpair.keyOf, hjoin, hpair.isLeaf, hpair.second]
  have hbelow : Within S.bound 0 child := hchild.mono (by omega)
  exact run_derefIn_bind hne hheld hbelow hpair.rep_second _

section Branch

variable {slots : Nibble → Trie} {value : Option Bytes} {r : RLP}
  {c : Nat → RLP} (hr : RLP.ofBytes (enc sha3 (.branch slots value)) = .ok r)
  (h : IsBranchNode r (fun i => ref sha3 (slots i)) value c)

include hr h

theorem nextRun_branch :
    Leads (nextRun g db (branchOn sha3 slots value path 255 :: below))
      (childrenRun g db r (branchOn sha3 slots value path 16) below) := by
  refine Leads.round fun fuel => ?_
  simp only [nextRun, nextLoop, branchOn, hr, liftM_ok_bind, ↓reduceIte,
    h.isEmpty, Bool.false_eq_true, h.isNode, Bool.not_true, h.itemCount]
  rfl

/-- From a branch that was left at a child or its value, the loop goes on with
the next child. -/
theorem nextRun_continue {child : Byte} (hchild : child ≠ 255) :
    Leads (nextRun g db (branchOn sha3 slots value path child :: below))
      (childrenRun g db r (branchOn sha3 slots value path (childAfter child))
        below) := by
  refine Leads.round fun fuel => ?_
  simp only [nextRun, nextLoop, branchOn, hr, liftM_ok_bind, hchild,
    ↓reduceIte, h.itemCount, h.isList, beq_self_eq_true, Bool.and_self,
    Bool.not_true, Bool.false_eq_true]
  rfl

/-- The slots of a branch are visited one after the other, given that each of
them is. -/
theorem visits_fromSlot {stopsOf : Nibble → List Stop}
    (hwithin : Within S.bound path.length (.branch slots value))
    (hstored : Stored sha3 (DB.lookup db) (.branch slots value))
    (hempty : ∀ i, slots i = .empty → stopsOf i = [])
    (hvisits : ∀ i, Visits (nextRun g db) (returned g db)
      (nextRun g db (⟨enc sha3 (slots i), hexPrefix false (path ++ [i]), 255⟩ ::
        branchOn sha3 slots value path (childByte i) :: below))
      ((stopsOf i).map Stop.trail)
      (nextRun g db (branchOn sha3 slots value path (childByte i) :: below)))
    {i : Nat} (hi : i ≤ 16) :
    Visits (nextRun g db) (returned g db)
      (childrenRun g db r (branchOn sha3 slots value path (childByte i)) below)
      ((fromSlot stopsOf i).map Stop.trail) (nextRun g db below) := by
  induction hi using Nat.decreasingInduction with
  | self =>
      rw [fromSlot_end]
      refine ⟨0, fun fuel => ?_⟩
      have hexit := children_exit h (some g)
        (branchOn sha3 slots value path 16) below ⟨[], 0⟩
        fun trail _ => nextLoop (some g) fuel trail
      rw [Nat.zero_add]
      exact congrArg (fun p => run DB.handler p db) hexit
  | of_succ i hlt ih =>
      have hnibble := fromSlot_nibble stopsOf ⟨i, hlt⟩
      rw [hnibble, List.map_append]
      by_cases hslot : slots ⟨i, hlt⟩ = .empty
      · rw [hempty _ hslot]
        refine Leads.visits ⟨0, fun fuel => ?_⟩ ih
        have hpass := children_empty h (some g)
          (branchOn sha3 slots value path 16) below ⟨[], 0⟩
          (fun trail _ => nextLoop (some g) fuel trail) hslot
        rw [Nat.zero_add]
        exact congrArg (fun p => run DB.handler p db) hpass
      · have hbound := S.bound_le
        have hbelow := hwithin.2.1 ⟨i, hlt⟩
        have hdepth := hbelow.lt hslot
        have hflat : Within S.bound 0 (slots ⟨i, hlt⟩) :=
          hbelow.mono (by omega)
        refine Visits.append (g := nextRun g db
          (branchOn sha3 slots value path (childByte i) :: below))
          (Leads.visits ⟨0, fun fuel => ?_⟩ (hvisits ⟨i, hlt⟩))
          (Leads.visits ?_ ih)
        · rw [Nat.zero_add]
          exact run_children_used h (branchOn sha3 slots value path 16) below
            ⟨[], 0⟩ (fun trail _ => nextLoop (some g) fuel trail) hslot
            (hstored ⟨i, hlt⟩) hflat rfl (by omega)
        · rw [← childAfter_childByte hlt]
          exact nextRun_continue hr h (childByte_ne_enter ⟨i, hlt⟩)

end Branch

/-- Entering a trie, the loop of `next()` visits its stops. -/
theorem visits_stops (t : Trie) (path : List Nibble)
    (below : List GenericTrieDB.Node)
    (hwithin : Within S.bound path.length t)
    (hstored : Stored sha3 (DB.lookup db) t) :
    Visits (nextRun g db) (returned g db)
      (nextRun g db (⟨enc sha3 t, hexPrefix false path, 255⟩ :: below))
      ((stops sha3 t path below).map Stop.trail) (nextRun g db below) := by
  induction t generalizing path below with
  | empty => exact nextRun_empty
  | leaf key value =>
      exact ⟨nextRun_leaf hwithin, nextRun_leave hwithin _⟩
  | ext key child ih =>
      have hchild := hwithin.2.2.2
      rw [← List.length_append] at hchild
      exact (nextRun_ext hwithin hstored).visits
        (ih (path ++ key) below hchild hstored.2)
  | branch slots value ih =>
      obtain ⟨r, hr, hrep⟩ := exists_read sha3 hwithin
      obtain ⟨c, h⟩ := exists_branch hrep
      have hslot : ∀ i, Visits (nextRun g db) (returned g db)
          (nextRun g db
            (⟨enc sha3 (slots i), hexPrefix false (path ++ [i]), 255⟩ ::
              branchOn sha3 slots value path (childByte i) :: below))
          ((stops sha3 (slots i) (path ++ [i]) (branchOn sha3 slots value path
            (childByte i) :: below)).map Stop.trail)
          (nextRun g db
            (branchOn sha3 slots value path (childByte i) :: below)) := by
        intro i
        have hbelow := hwithin.2.1 i
        rw [show path.length + 1 = (path ++ [i]).length by simp] at hbelow
        exact ih i (path ++ [i]) _ hbelow (hstored i).2
      have hslots := visits_fromSlot hr h hwithin hstored
        (fun i hi => by rw [hi]; rfl) hslot (Nat.zero_le 16)
      rw [stops, List.map_append]
      refine Leads.visits (nextRun_branch hr h) ?_
      cases hvalue : value with
      | none =>
          subst hvalue
          refine Leads.visits ⟨0, fun fuel => ?_⟩ hslots
          rw [Nat.zero_add]
          exact congrArg (fun p => run DB.handler p db)
            (children_noValue h (some g) (branchOn sha3 slots none path 16)
              below ⟨[], 0⟩ (fun trail _ => nextLoop (some g) fuel trail) rfl)
      | some x =>
          subst hvalue
          refine ⟨⟨0, fun fuel => ?_⟩,
            Leads.visits (nextRun_continue hr h (by decide)) hslots⟩
          rw [Nat.zero_add]
          exact congrArg (fun p => run DB.handler p db)
            (children_value h (some g) (branchOn sha3 slots (some x) path 16)
              below ⟨[], 0⟩ (fun trail _ => nextLoop (some g) fuel trail) rfl
              (hwithin.2.2 x rfl).1)

/-- The stops in a slot of a branch. -/
abbrev slotStops (sha3 : Bytes → H256) (slots : Nibble → Trie)
    (value : Option Bytes) (path : List Nibble)
    (below : List GenericTrieDB.Node) (i : Nibble) : List Stop :=
  stops sha3 (slots i) (path ++ [i])
    (branchOn sha3 slots value path (childByte i) :: below)

/-- From a child of a branch on, the loop visits the stops in the slots that
are left. -/
theorem visits_slotStops {slots : Nibble → Trie} {value : Option Bytes}
    (hwithin : Within S.bound path.length (.branch slots value))
    (hstored : Stored sha3 (DB.lookup db) (.branch slots value)) {r : RLP}
    {c : Nat → RLP} (hr : RLP.ofBytes (enc sha3 (.branch slots value)) = .ok r)
    (h : IsBranchNode r (fun i => ref sha3 (slots i)) value c) {i : Nat}
    (hi : i ≤ 16) :
    Visits (nextRun g db) (returned g db)
      (childrenRun g db r (branchOn sha3 slots value path (childByte i)) below)
      ((fromSlot (slotStops sha3 slots value path below) i).map Stop.trail)
      (nextRun g db below) := by
  refine visits_fromSlot hr h hwithin hstored ?_ ?_ hi
  · intro i hempty
    rw [slotStops, hempty]
    rfl
  · intro i
    have hbelow := hwithin.2.1 i
    rw [show path.length + 1 = (path ++ [i]).length by simp] at hbelow
    exact visits_stops (slots i) (path ++ [i]) _ hbelow (hstored i).2

end Visits

end Trie

end Web3Core
