/-
Where the seek of `lower_bound` stops.  It follows the search key for as long
as the key shows the way; where it leaves the way, the subtree lies before the
key or behind it as a whole, and with nothing left of the key the seek is
`operator++`.
-/
import Web3Core.TrieStops

namespace Web3Core

open Program GenericTrieDB

namespace Trie

/-! With nothing left of the search key. -/

section Spent

variable {that : Option GenericTrieDB}

theorem children_of_size {k : NibbleSlice} (hk : k.size = 0) (r : RLP)
    (b : GenericTrieDB.Node) (below : List GenericTrieDB.Node)
    {seek : List GenericTrieDB.Node → NibbleSlice → DBProgram Iterator}
    {next : List GenericTrieDB.Node → DBProgram Iterator}
    (h : ∀ trail (k : NibbleSlice), k.size = 0 → seek trail k = next trail) :
    children that r b below k seek =
      children that r b below ⟨[], 0⟩ fun trail _ => next trail := by
  refine bind_congr fun itemCount => bind_congr fun _ =>
    bind_congr fun child => ?_
  by_cases hexit : child = 17
  · rw [if_pos hexit, if_pos hexit]
    exact h _ _ (NibbleSlice.size_clear k)
  · rw [if_neg hexit, if_neg hexit]
    by_cases hvalue : child = 16
    · rw [if_pos hvalue, if_pos hvalue]
    · rw [if_neg hvalue, if_neg hvalue]
      refine bind_congr fun r' => bind_congr fun s => bind_congr fun key => ?_
      refine h _ _ ?_
      split
      · exact hk
      · exact NibbleSlice.size_clear k

/-- A two-item node is not skipped, and still nothing of the key is left. -/
theorem exists_passKey_of_size {k : NibbleSlice} (hk : k.size = 0)
    (keyOfRLP : NibbleSlice) :
    ∃ k' : NibbleSlice, k'.size = 0 ∧ passKey k keyOfRLP = .ok (some k') := by
  rw [passKey, NibbleSlice.contains_of_size hk,
    NibbleSlice.isEarlierThan_of_size hk]
  by_cases hsize : keyOfRLP.size = 0
  · refine ⟨k.mid 0, NibbleSlice.size_mid_zero hk, ?_⟩
    simp [hsize, andThen]
  · refine ⟨k.clear.mid 0, NibbleSlice.size_mid_zero rfl, ?_⟩
    simp [hsize, andThen, NibbleSlice.size_clear]

/-- The seek with a search key that counts no nibbles is `next()`. -/
theorem seekLoop_of_size (fuel : Nat) (trail : List GenericTrieDB.Node)
    {k : NibbleSlice} (hk : k.size = 0) :
    seekLoop that fuel trail k = nextLoop that fuel trail := by
  induction fuel generalizing trail k with
  | zero => rfl
  | succ fuel ih =>
      have hcleared : ∀ trail, seekLoop that fuel trail k.clear =
          nextLoop that fuel trail := fun trail =>
        ih trail (NibbleSlice.size_clear k)
      have hchildren : ∀ r b below, children that r b below k
          (seekLoop that fuel) = children that r b below ⟨[], 0⟩ fun trail _ =>
            nextLoop that fuel trail := fun r b below =>
        children_of_size hk r b below fun trail k hk => ih trail hk
      cases trail with
      | nil => rfl
      | cons b below =>
          refine bind_congr fun r => ?_
          by_cases henter : b.child = 255
          · rw [if_pos henter, if_pos henter]
            by_cases hempty : r.isEmpty = true
            · rw [if_pos hempty, if_pos hempty, hcleared]
            · rw [if_neg hempty, if_neg hempty]
              refine bind_congr fun ok => ?_
              cases ok with
              | false => rfl
              | true =>
                  refine bind_congr fun itemCount => ?_
                  by_cases htwo : itemCount = 2
                  · rw [if_pos htwo, if_pos htwo]
                    refine bind_congr fun keyOfRLP => ?_
                    obtain ⟨k', hk', hpass⟩ :=
                      exists_passKey_of_size hk keyOfRLP
                    rw [hpass, liftM_ok_bind]
                    refine bind_congr fun key => bind_congr fun leaf => ?_
                    cases leaf with
                    | false =>
                        exact bind_congr fun r' => bind_congr fun s => ih _ hk'
                    | true =>
                        exact if_pos hk'
                  · rw [if_neg htwo, if_neg htwo, if_neg (by simp [hk]),
                      hchildren]
          · rw [if_neg henter, if_neg henter]
            refine bind_congr fun itemCount => ?_
            by_cases hbranch : (!(r.isList && itemCount == 17)) = true
            · rw [if_pos hbranch, if_pos hbranch, hcleared]
            · rw [if_neg hbranch, if_neg hbranch, hchildren]

end Spent

/-! Along the search key. -/

section PassKey

variable {k keyOfRLP : NibbleSlice} {v w : List Nibble} (h : k.Shows v)
  (h' : keyOfRLP.Shows w)

include h h'

theorem exists_passKey_of_prefix (hpre : w <+: v) :
    ∃ k' : NibbleSlice, k'.Shows (v.drop w.length) ∧
      passKey k keyOfRLP = .ok (some k') := by
  have hle := hpre.length_le
  have hmid : (k.mid (min k.size keyOfRLP.size)).Shows (v.drop w.length) := by
    rw [h.size, h'.size, Nat.min_eq_right hle]
    exact h.mid hle
  refine ⟨_, hmid, ?_⟩
  simp [passKey, h.contains h', hpre, andThen]

theorem exists_passKey_of_lt (hpre : ¬ w <+: v) (hlt : v < w) :
    ∃ k' : NibbleSlice, k'.size = 0 ∧ passKey k keyOfRLP = .ok (some k') := by
  refine ⟨k.clear.mid 0, NibbleSlice.size_mid_zero rfl, ?_⟩
  simp [passKey, h.contains h', h.isEarlierThan h', hpre, hlt, andThen,
    NibbleSlice.size_clear]

theorem passKey_of_not_lt (hpre : ¬ w <+: v) (hlt : ¬ v < w) :
    passKey k keyOfRLP = .ok none := by
  simp [passKey, h.contains h', h.isEarlierThan h', hpre, hlt, andThen]

end PassKey

/-- The first stop whose key is not smaller than the given one. -/
def firstFrom (ss : List Stop) (key : List Nibble) : Option Stop :=
  ss.find? fun s => decide (¬ s.key < key)

section Stops

variable {ss : List Stop} {key : List Nibble}

theorem firstFrom_of_forall (h : ∀ s ∈ ss, ¬ s.key < key) :
    firstFrom ss key = ss.head? := by
  cases ss with
  | nil => rfl
  | cons s ss =>
      have hle := not_lt.1 (h s List.mem_cons_self)
      simp [firstFrom, hle]

theorem firstFrom_eq_none (h : ∀ s ∈ ss, s.key < key) :
    firstFrom ss key = none := by
  rw [firstFrom, List.find?_eq_none]
  intro s hs
  simp [h s hs]

theorem firstFrom_append (ss ss' : List Stop) (key : List Nibble) :
    firstFrom (ss ++ ss') key = (firstFrom ss key).or (firstFrom ss' key) :=
  List.find?_append

variable {sha3 : Bytes → H256} {t : Trie} {path : List Nibble}
  {below : List GenericTrieDB.Node}

theorem exists_key_eq {s : Stop} (hs : s ∈ stops sha3 t path below) :
    ∃ q, s.key = path ++ q := by
  have hmem := List.mem_map_of_mem (f := fun s : Stop => (s.key, s.value)) hs
  rw [stops_entries] at hmem
  obtain ⟨q, hq, -⟩ := Patricia.mem_prepend.1 hmem
  exact ⟨q, hq⟩

theorem mem_fromSlot {f : Nibble → List Stop} {i : Nat} {s : Stop}
    (hs : s ∈ fromSlot f i) : ∃ j : Nibble, i ≤ j.val ∧ s ∈ f j := by
  obtain ⟨j, hj, hmem⟩ := List.mem_flatMap.1 hs
  obtain ⟨n, hn, heq⟩ := List.mem_iff_getElem.1 hj
  refine ⟨j, ?_, hmem⟩
  rw [List.getElem_drop, List.getElem_finRange] at heq
  rw [← heq]
  exact Nat.le_add_right i n

/-- The stops in the slots before the `i`-th. -/
theorem exists_fromSlot_zero (f : Nibble → List Stop) (i : Nat) :
    ∃ before, fromSlot f 0 = before ++ fromSlot f i ∧
      ∀ s ∈ before, ∃ j : Nibble, j.val < i ∧ s ∈ f j := by
  refine ⟨((List.finRange 16).take i).flatMap f, ?_, ?_⟩
  · rw [fromSlot, fromSlot, List.drop_zero, ← List.flatMap_append,
      List.take_append_drop]
  · intro s hs
    obtain ⟨j, hj, hmem⟩ := List.mem_flatMap.1 hs
    obtain ⟨n, hn, heq⟩ := List.mem_iff_getElem.1 hj
    refine ⟨j, ?_, hmem⟩
    rw [List.getElem_take, List.getElem_finRange] at heq
    rw [List.length_take] at hn
    rw [← heq]
    exact lt_of_lt_of_le hn (Nat.min_le_left _ _)

end Stops

section Seek

variable {sha3 : Bytes → H256} {σ : Type} [LawfulDB σ] {S : Scope sha3}
  {db : σ} {g : GenericTrieDB} {t : Trie} {path ks : List Nibble}
  {below : List GenericTrieDB.Node} {k : NibbleSlice}

/-- The outcomes of `next(_key)` from a trail. -/
def seekRun (g : GenericTrieDB) (db : σ) (trail : List GenericTrieDB.Node)
    (k : NibbleSlice) (fuel : Nat) : Except Exception Iterator × σ :=
  run DB.handler (seekLoop (some g) fuel trail k) db

/-- Returning at a stop, or going on where there is none. -/
def stoppedAt (g : GenericTrieDB) (db : σ) (s : Option Stop)
    (onwards : Nat → Except Exception Iterator × σ) :
    Nat → Except Exception Iterator × σ :=
  match s with
  | some s => fun _ => returned g db s.trail
  | none => onwards

theorem leads_head {f h : Nat → Except Exception Iterator × σ}
    {ss : List Stop}
    (hvisits : Visits (nextRun g db) (returned g db) f (ss.map Stop.trail) h) :
    Leads f (stoppedAt g db ss.head? h) := by
  cases ss with
  | nil => exact hvisits
  | cons s ss => exact hvisits.1

theorem seekRun_of_size (hk : k.size = 0) (trail : List GenericTrieDB.Node) :
    seekRun g db trail k = nextRun g db trail := by
  funext fuel
  rw [seekRun, seekLoop_of_size fuel trail hk]
  rfl

/-- With nothing left of the key the seek stops at the first stop. -/
theorem leads_seek_of_size (hwithin : Within S.bound path.length t)
    (hstored : Stored sha3 (DB.lookup db) t) (hk : k.size = 0)
    {target : List Nibble}
    (hkey : ∀ s ∈ stops sha3 t path below, ¬ s.key < target) :
    Leads
      (seekRun g db (⟨enc sha3 t, hexPrefix false path, 255⟩ :: below) k)
      (stoppedAt g db (firstFrom (stops sha3 t path below) target)
        (nextRun g db below)) := by
  rw [seekRun_of_size hk, firstFrom_of_forall hkey]
  exact leads_head (visits_stops t path below hwithin hstored)

/-- What the seek does for the key `ks` in a trie it enters. -/
def Seeks (sha3 : Bytes → H256) (g : GenericTrieDB) (db : σ) (t : Trie)
    (path ks : List Nibble) (below : List GenericTrieDB.Node) : Prop :=
  ∀ ⦃k : NibbleSlice⦄, k.Shows ks →
    Leads
      (seekRun g db (⟨enc sha3 t, hexPrefix false path, 255⟩ :: below) k)
      (stoppedAt g db (firstFrom (stops sha3 t path below) (path ++ ks))
        (nextRun g db below))

theorem seeks_empty : Seeks sha3 g db .empty path ks below := by
  intro k hk
  have hfits : (node sha3 .empty).Fits := (by decide : (RLPTree.data []).Fits)
  obtain ⟨r, hr', hrep⟩ := RLP.Rep.ofBytes hfits
  have hr : RLP.ofBytes (enc sha3 .empty) = .ok r := hr'
  have hempty : r.isEmpty = true := hrep.isEmpty
  refine Leads.round fun fuel => ?_
  simp only [seekRun, seekLoop, hr, liftM_ok_bind, ↓reduceIte, hempty]
  rw [seekLoop_of_size fuel below (NibbleSlice.size_clear k)]
  rfl

/-- A round of the seek at a leaf. -/
theorem leads_seek_leaf {key : List Nibble} {value : Bytes}
    (hwithin : Within S.bound path.length (.leaf key value)) :
    ∃ k' : NibbleSlice, k'.Shows key ∧ ∀ rest, passKey k k' = .ok rest →
      Leads
        (seekRun g db
          (⟨enc sha3 (.leaf key value), hexPrefix false path, 255⟩ :: below) k)
        (match rest.filter fun k'' => k''.size = 0 with
          | some _ => fun _ => returned g db (⟨enc sha3 (.leaf key value),
              hexPrefix false (path ++ key), 0⟩ :: below)
          | none => nextRun g db below) := by
  have hbound := S.bound_le
  have hlt := hwithin.2
  obtain ⟨r, hr, hrep⟩ := exists_read sha3 hwithin
  obtain ⟨k', c₀, c, hpair⟩ := exists_isPair hrep (by omega)
  have hjoin := hpair.shows.join_path (show path.length < 2 ^ 31 - 1 by omega)
  refine ⟨k', hpair.shows, fun rest hpass => Leads.round fun fuel => ?_⟩
  simp only [seekRun, seekLoop, hr, liftM_ok_bind, ↓reduceIte, hpair.isEmpty,
    Bool.false_eq_true, hpair.isNode, Bool.not_true, hpair.itemCount,
    hpair.keyOf, hpass]
  cases rest with
  | none =>
      rw [seekLoop_of_size fuel below (NibbleSlice.size_clear k)]
      rfl
  | some k'' =>
      simp only [hjoin, liftM_ok_bind, hpair.isLeaf, ↓reduceIte]
      by_cases hsize : k''.size = 0
      · simp only [hsize, ↓reduceIte, Option.filter_some, decide_true]
        rfl
      · simp only [hsize, ↓reduceIte, Option.filter_some, decide_false,
          Bool.false_eq_true]
        rw [seekLoop_of_size fuel below (NibbleSlice.size_clear k'')]
        rfl

theorem seeks_leaf {key : List Nibble} {value : Bytes}
    (hwithin : Within S.bound path.length (.leaf key value)) :
    Seeks sha3 g db (.leaf key value) path ks below := by
  intro k hk
  obtain ⟨k', hk', hround⟩ :=
    @leads_seek_leaf sha3 σ _ S db g path below k key value hwithin
  have hstop : ∀ {k'' : NibbleSlice}, k''.size = 0 → ¬ key < ks →
      passKey k k' = .ok (some k'') → Leads
        (seekRun g db
          (⟨enc sha3 (.leaf key value), hexPrefix false path, 255⟩ :: below) k)
        (stoppedAt g db (firstFrom (stops sha3 (.leaf key value) path below)
          (path ++ ks)) (nextRun g db below)) := by
    intro k'' hsize hlt hpass
    have h := hround _ hpass
    rw [Option.filter_some, if_pos (by simpa using hsize)] at h
    rw [firstFrom_of_forall]
    · exact h
    · intro s hs
      obtain rfl := List.mem_singleton.1 hs
      rwa [append_lt_append_left_iff]
  have hskip : ∀ {rest : Option NibbleSlice},
      rest.filter (fun k'' => k''.size = 0) = none → key < ks →
      passKey k k' = .ok rest → Leads
        (seekRun g db
          (⟨enc sha3 (.leaf key value), hexPrefix false path, 255⟩ :: below) k)
        (stoppedAt g db (firstFrom (stops sha3 (.leaf key value) path below)
          (path ++ ks)) (nextRun g db below)) := by
    intro rest hrest hlt hpass
    have h := hround _ hpass
    rw [hrest] at h
    rw [firstFrom_eq_none]
    · exact h
    · intro s hs
      obtain rfl := List.mem_singleton.1 hs
      rwa [append_lt_append_left_iff]
  by_cases hpre : key <+: ks
  · obtain ⟨k'', hk'', hpass⟩ := exists_passKey_of_prefix hk hk' hpre
    obtain ⟨rest, rfl⟩ := hpre
    rw [List.drop_left] at hk''
    cases rest with
    | nil =>
        rw [List.append_nil] at hstop ⊢
        exact hstop hk''.size (lt_irrefl key) hpass
    | cons i rest =>
        -- the search key goes on where the leaf ends
        have hlt : key ++ [] < key ++ i :: rest :=
          (append_lt_append_left_iff key).2 (List.nil_lt_cons i rest)
        rw [List.append_nil] at hlt
        have hsize : k''.size ≠ 0 := by simp [hk''.size]
        exact hskip (by simp [hsize]) hlt hpass
  · by_cases hlt : ks < key
    · obtain ⟨k'', hsize, hpass⟩ := exists_passKey_of_lt hk hk' hpre hlt
      exact hstop hsize hlt.not_gt hpass
    · have hne : ks ≠ key := by
        rintro rfl
        exact hpre List.prefix_rfl
      have hgt : key < ks := lt_of_le_of_ne (not_lt.1 hlt) hne.symm
      exact hskip rfl hgt (passKey_of_not_lt hk hk' hpre hlt)

/-- A round of the seek at an extension. -/
theorem leads_seek_ext {key : List Nibble} {child : Trie}
    (hwithin : Within S.bound path.length (.ext key child))
    (hheld : Held sha3 (DB.lookup db) child) :
    ∃ k' : NibbleSlice, k'.Shows key ∧ ∀ rest, passKey k k' = .ok rest →
      Leads
        (seekRun g db
          (⟨enc sha3 (.ext key child), hexPrefix false path, 255⟩ :: below) k)
        (match rest with
          | some k'' => seekRun g db (⟨enc sha3 child,
              hexPrefix false (path ++ key), 255⟩ :: below) k''
          | none => nextRun g db below) := by
  obtain ⟨-, hne, hlt, hchild⟩ := id hwithin
  have hbound := S.bound_le
  obtain ⟨r, hr, hrep⟩ := exists_read sha3 hwithin
  obtain ⟨k', c₀, c, hpair⟩ := exists_isPair hrep (by omega)
  have hjoin := hpair.shows.join_path (show path.length < 2 ^ 31 - 1 by omega)
  have hbelow : Within S.bound 0 child := hchild.mono (by omega)
  refine ⟨k', hpair.shows, fun rest hpass => Leads.round fun fuel => ?_⟩
  simp only [seekRun, seekLoop, hr, liftM_ok_bind, ↓reduceIte, hpair.isEmpty,
    Bool.false_eq_true, hpair.isNode, Bool.not_true, hpair.itemCount,
    hpair.keyOf, hpass]
  cases rest with
  | none =>
      rw [seekLoop_of_size fuel below (NibbleSlice.size_clear k)]
      rfl
  | some k'' =>
      simp only [hjoin, liftM_ok_bind, hpair.isLeaf, Bool.false_eq_true,
        ↓reduceIte, hpair.second]
      exact run_derefIn_bind hne hheld hbelow hpair.rep_second _

theorem seeks_ext {key : List Nibble} {child : Trie}
    (hwithin : Within S.bound path.length (.ext key child))
    (hheld : Held sha3 (DB.lookup db) child)
    (hseeks : Seeks sha3 g db child (path ++ key) (ks.drop key.length) below) :
    Seeks sha3 g db (.ext key child) path ks below := by
  intro k hk
  obtain ⟨k', hk', hround⟩ :=
    @leads_seek_ext sha3 σ _ S db g path below k key child hwithin hheld
  have hkeys : ∀ s ∈ stops sha3 child (path ++ key) below,
      ∃ q, s.key = path ++ (key ++ q) := by
    intro s hs
    obtain ⟨q, hq⟩ := exists_key_eq hs
    exact ⟨q, by rw [hq, List.append_assoc]⟩
  have hchild := hwithin.2.2.2
  rw [← List.length_append] at hchild
  rw [stops]
  by_cases hpre : key <+: ks
  · obtain ⟨k'', hk'', hpass⟩ := exists_passKey_of_prefix hk hk' hpre
    have h := hseeks hk''
    obtain ⟨rest, rfl⟩ := hpre
    rw [List.drop_left, List.append_assoc] at h
    exact (hround _ hpass).trans h
  · by_cases hlt : ks < key
    · obtain ⟨k'', hsize, hpass⟩ := exists_passKey_of_lt hk hk' hpre hlt
      refine (hround _ hpass).trans
        (leads_seek_of_size hchild hheld.2 hsize fun s hs => ?_)
      obtain ⟨q, hq⟩ := hkeys s hs
      rw [hq, append_lt_append_left_iff]
      exact (lt_append_of_lt hlt q).not_gt
    · have hne : ks ≠ key := by
        rintro rfl
        exact hpre List.prefix_rfl
      have hgt : key < ks := lt_of_le_of_ne (not_lt.1 hlt) hne.symm
      have hall : ∀ s ∈ stops sha3 child (path ++ key) below,
          s.key < path ++ ks := by
        intro s hs
        obtain ⟨q, hq⟩ := hkeys s hs
        rw [hq, append_lt_append_left_iff]
        exact append_lt_of_not_prefix hgt hpre q
      rw [firstFrom_eq_none hall]
      exact hround _ (passKey_of_not_lt hk hk' hpre hlt)

section Branch

variable {slots : Nibble → Trie} {value : Option Bytes}

/-- The stops of a branch for a key that leads into the slot `i`: those before
are passed over. -/
theorem firstFrom_branch (slots : Nibble → Trie) (value : Option Bytes)
    (path : List Nibble) (below : List GenericTrieDB.Node) (i : Nibble)
    (ks : List Nibble) :
    firstFrom (stops sha3 (.branch slots value) path below) (path ++ i :: ks) =
      (firstFrom (slotStops sha3 slots value path below i)
        ((path ++ [i]) ++ ks)).or
        (fromSlot (slotStops sha3 slots value path below) (i + 1)).head? := by
  have hkeys : ∀ {j : Nibble} {s : Stop},
      s ∈ slotStops sha3 slots value path below j →
      ∃ q, s.key = path ++ j :: q := by
    intro j s hs
    obtain ⟨q, hq⟩ := exists_key_eq hs
    exact ⟨q, by simpa using hq⟩
  obtain ⟨before, hsplit, hbefore⟩ :=
    exists_fromSlot_zero (slotStops sha3 slots value path below) i
  have hvalue : ∀ s ∈ value.toList.map (fun x =>
      (⟨branchOn sha3 slots value path 16 :: below, path, x⟩ : Stop)),
      s.key < path ++ i :: ks := by
    intro s hs
    obtain ⟨x, -, rfl⟩ := List.mem_map.1 hs
    have hlt : path ++ [] < path ++ i :: ks :=
      (append_lt_append_left_iff path).2 (List.nil_lt_cons i ks)
    rwa [List.append_nil] at hlt
  have hskipped : ∀ s ∈ before, s.key < path ++ i :: ks := by
    intro s hs
    obtain ⟨j, hj, hmem⟩ := hbefore s hs
    obtain ⟨q, hq⟩ := hkeys hmem
    rw [hq, append_lt_append_left_iff]
    exact List.cons_lt_cons_iff.2 (.inl hj)
  have hlater : ∀ s ∈ fromSlot (slotStops sha3 slots value path below) (i + 1),
      ¬ s.key < path ++ i :: ks := by
    intro s hs
    obtain ⟨j, hj, hmem⟩ := mem_fromSlot hs
    obtain ⟨q, hq⟩ := hkeys hmem
    have hij : i < j := hj
    rw [hq, append_lt_append_left_iff, List.cons_lt_cons_iff]
    rintro (hlt | ⟨rfl, -⟩)
    · exact absurd hlt hij.not_gt
    · exact lt_irrefl _ hij
  have happend : path ++ i :: ks = (path ++ [i]) ++ ks := by simp
  calc firstFrom (stops sha3 (.branch slots value) path below) (path ++ i :: ks)
      = firstFrom (fromSlot (slotStops sha3 slots value path below) i)
          (path ++ i :: ks) := by
        rw [stops, firstFrom_append, firstFrom_eq_none hvalue, Option.none_or]
        show firstFrom (fromSlot (slotStops sha3 slots value path below) 0) _ = _
        rw [hsplit, firstFrom_append, firstFrom_eq_none hskipped,
          Option.none_or]
    _ = _ := by
        rw [fromSlot_nibble, firstFrom_append, firstFrom_of_forall hlater,
          happend]

theorem seeks_branch_nil
    (hwithin : Within S.bound path.length (.branch slots value))
    (hstored : Stored sha3 (DB.lookup db) (.branch slots value)) :
    Seeks sha3 g db (.branch slots value) path [] below := by
  intro k hk
  refine leads_seek_of_size hwithin hstored hk.size fun s hs => ?_
  obtain ⟨q, hq⟩ := exists_key_eq hs
  rw [hq, append_lt_append_left_iff]
  exact List.not_lt_nil q

theorem seeks_branch_cons {i : Nibble}
    (hwithin : Within S.bound path.length (.branch slots value))
    (hstored : Stored sha3 (DB.lookup db) (.branch slots value))
    (hseeks : Seeks sha3 g db (slots i) (path ++ [i]) ks
      (branchOn sha3 slots value path (childByte i) :: below)) :
    Seeks sha3 g db (.branch slots value) path (i :: ks) below := by
  intro k hk
  obtain ⟨r, hr, hrep⟩ := exists_read sha3 hwithin
  obtain ⟨c, h⟩ := exists_branch hrep
  have hsize : k.size ≠ 0 := by simp [hk.size]
  have hget : k.get 0 = .ok (childByte i) := by
    rw [childByte_nibble]
    exact hk.get rfl
  have hrest : (k.mid 1).Shows ks := hk.mid (n := 1) (by simp)
  have hround : ∀ fuel, seekRun g db
      (⟨enc sha3 (.branch slots value), hexPrefix false path, 255⟩ :: below) k
      (fuel + 1) = run DB.handler (children (some g) r
        (branchOn sha3 slots value path (childByte i)) below (k.mid 1)
        (seekLoop (some g) fuel)) db := by
    intro fuel
    simp only [seekRun, seekLoop, hr, liftM_ok_bind, ↓reduceIte, h.isEmpty,
      Bool.false_eq_true, h.isNode, Bool.not_true, h.itemCount, ne_eq, hsize,
      not_false_eq_true, hget]
    rfl
  have hlater : Leads (childrenRun g db r (branchOn sha3 slots value path
      (childByte (i + 1))) below) (stoppedAt g db
        (fromSlot (slotStops sha3 slots value path below) (i + 1)).head?
        (nextRun g db below)) :=
    leads_head (visits_slotStops hwithin hstored hr h i.isLt)
  rw [firstFrom_branch]
  by_cases hslot : slots i = .empty
  · have hnone : slotStops sha3 slots value path below i = [] := by
      rw [slotStops, hslot]
      rfl
    rw [hnone]
    refine Leads.trans (Leads.round fun fuel => ?_) hlater
    rw [hround, childrenRun]
    refine congrArg (fun p => run DB.handler p db) ?_
    exact (children_empty h (some g) (branchOn sha3 slots value path 16) below
      (k.mid 1) (seekLoop (some g) fuel) hslot).trans
      (children_of_size (NibbleSlice.size_clear _) r _ below
        fun trail _ hk' => seekLoop_of_size fuel trail hk')
  · have hbound := S.bound_le
    have hbelow := hwithin.2.1 i
    have hdepth := hbelow.lt hslot
    have hflat : Within S.bound 0 (slots i) := hbelow.mono (by omega)
    have henter : Leads
        (seekRun g db (⟨enc sha3 (.branch slots value), hexPrefix false path,
          255⟩ :: below) k)
        (seekRun g db (⟨enc sha3 (slots i), hexPrefix false (path ++ [i]),
          255⟩ :: branchOn sha3 slots value path (childByte i) :: below)
            (k.mid 1)) := by
      refine Leads.round fun fuel => ?_
      rw [hround]
      exact run_children_used h (branchOn sha3 slots value path 16) below
        (k.mid 1) (seekLoop (some g) fuel) hslot (hstored i) hflat rfl (by omega)
    refine henter.trans ((hseeks hrest).trans ?_)
    cases hfirst : firstFrom (slotStops sha3 slots value path below i)
        ((path ++ [i]) ++ ks) with
    | some s => exact Leads.refl _
    | none =>
        rw [Option.none_or]
        refine Leads.trans ?_ hlater
        rw [← childAfter_childByte i.isLt]
        exact nextRun_continue hr h (childByte_ne_enter i)

end Branch

/-- The seek stops where the keys begin that are not smaller. -/
theorem seeks (t : Trie) (path ks : List Nibble)
    (below : List GenericTrieDB.Node)
    (hwithin : Within S.bound path.length t)
    (hstored : Stored sha3 (DB.lookup db) t) :
    Seeks sha3 g db t path ks below := by
  induction t generalizing path ks below with
  | empty => exact seeks_empty
  | leaf key value => exact seeks_leaf hwithin
  | ext key child ih =>
      have hchild := hwithin.2.2.2
      rw [← List.length_append] at hchild
      exact seeks_ext hwithin hstored
        (ih (path ++ key) (ks.drop key.length) below hchild hstored.2)
  | branch slots value ih =>
      cases ks with
      | nil => exact seeks_branch_nil hwithin hstored
      | cons i ks =>
          have hslot := hwithin.2.1 i
          rw [show path.length + 1 = (path ++ [i]).length by simp] at hslot
          exact seeks_branch_cons hwithin hstored
            (ih i (path ++ [i]) ks _ hslot (hstored i).2)

end Seek

end Trie

end Web3Core
