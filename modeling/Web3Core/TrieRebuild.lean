/-
The node functions of an insertion: a value is placed in a node, a two-item
node is cut in two or becomes a branch.  Each yields the top node of the trie
it stands for and gives up the reference to the node it replaces.
-/
import Web3Core.TrieAccess
import Web3Core.TrieCut

namespace Web3Core

open Program GenericTrieDB

open LawfulDB (Lax count)

open RLPTree (encode encodeItems partialList)

namespace Trie

variable {sha3 : Bytes → H256} {σ : Type} [LawfulDB σ] {S : Scope sha3}
  {db : σ} {orig : RLP} {k : NibbleSlice} {ns : List Nibble} {v : Bytes}

section Place

/-- Placing into an empty slot. -/
theorem wp_place_empty (hdb : Consistent S db)
    (hr : orig.Rep (Trie.node sha3 .empty)) (hk : k.Shows ns)
    (hwithin : Within S.bound 0 (.leaf ns v)) :
    wp DB.handler (Writes S) (place sha3 orig k v) db
      (Made S db (.leaf ns v) True (refs sha3 .empty)) := by
  have hempty : orig.isEmpty = true := hr.isEmpty
  have hfits : (RLPTree.list [.data (hexPrefix true ns), .data v]).Fits :=
    hwithin.fits sha3 S.bound_le
  rw [place]
  refine wp_bind_of (wp_killNode hdb hr) ?_
  rintro _ db' ⟨hfollows, -, hmoves⟩
  simp only [hempty, ↓reduceIte, hk.encode, wp_ok_bind,
    rlpPair_eq hfits, wp_ok]
  exact ⟨rfl, hfollows, trivial, fun _ => hmoves _⟩

/-- Replacing the value of a leaf. -/
theorem wp_place_leaf (hdb : Consistent S db) {key : List Nibble}
    {value : Bytes} (hr : orig.Rep (Trie.node sha3 (.leaf key value)))
    (hwithin : Within S.bound 0 (.leaf key v)) :
    wp DB.handler (Writes S) (place sha3 orig k v) db
      (Made S db (.leaf key v) True (refs sha3 (.leaf key value))) := by
  obtain ⟨k', c₀, c, hpair⟩ := exists_isPair hr hwithin.leaf_short
  have hfits : (RLPTree.list [.data (hexPrefix true key), .data v]).Fits :=
    hwithin.fits sha3 S.bound_le
  have hfirst := appendItem_partialList hfits (k := 0) hpair.rep_first rfl
  have hsecond := RLPTree.append_partialList hfits (k := 1) (b := v) rfl
  have hlist : rlpList (fun out => out.appendItem c₀) (fun out => out.append v) =
      .ok (encode (.list [.data (hexPrefix true key), .data v])) :=
    rlpList_eq hfirst hsecond
  rw [place]
  refine wp_bind_of (wp_killNode hdb hr) ?_
  rintro _ db' ⟨hfollows, -, hmoves⟩
  simp only [hpair.isEmpty, Bool.false_eq_true, ↓reduceIte, hpair.isNode,
    hpair.itemCount, hpair.first, check_true, wp_ok_bind, hlist, wp_ok]
  exact ⟨rfl, hfollows, trivial, fun _ => hmoves _⟩

/-- Placing the value of a branch. -/
theorem wp_place_branch (hdb : Consistent S db) {slots : Nibble → Trie}
    {value : Option Bytes}
    (hr : orig.Rep (Trie.node sha3 (.branch slots value)))
    (hstored : Stored sha3 (DB.lookup db) (.branch slots value))
    (hwithin : Within S.bound 0 (.branch slots (some v))) :
    wp DB.handler (Writes S) (place sha3 orig k v) db
      (Made S db (.branch slots (some v)) True
        (refs sha3 (.branch slots value))) := by
  obtain ⟨c, hbranch⟩ := exists_branch hr
  have hfits : (RLPTree.list (branchItems (fun i => ref sha3 (slots i))
      (some v))).Fits := hwithin.fits sha3 S.bound_le
  have hcopy := appendItems_eq hbranch (fun _ => rfl) hfits
  have hvalue := append_value hfits
  rw [Option.getD_some] at hvalue
  rw [place]
  refine wp_bind_of (wp_killNode hdb hr) ?_
  rintro _ db' ⟨hfollows, -, hmoves⟩
  simp only [hbranch.isEmpty, Bool.false_eq_true, ↓reduceIte, hbranch.isNode,
    hbranch.itemCount, check_true, wp_ok_bind, Nat.reduceEqDiff,
    ofList_branch (fun i => ref sha3 (slots i)) (some v), hcopy, hvalue,
    out_branch, wp_ok]
  exact ⟨rfl, hfollows, hstored.mono hfollows.keeps, fun _ => hmoves _⟩

end Place

section Cut

/-- A two-item node is cut; `t` is the node and `u` the part behind the
cut. -/
theorem wp_cleve (hdb : Consistent S db)
    {t u : Trie} {leaf : Bool} {p l : List Nibble} {item : RLPTree}
    (ht : Trie.node sha3 t = .list [.data (hexPrefix leaf (p ++ l)), item])
    (hu : Trie.node sha3 u = .list [.data (hexPrefix leaf l), item])
    (hrefs : refsIn sha3 u = refsIn sha3 t)
    (hstored : Stored sha3 (DB.lookup db) u)
    (hshort : (p ++ l).length < 2 ^ 31 - 1)
    (hwithin : Within S.bound 0 (.ext p u))
    (hr : orig.Rep (Trie.node sha3 t)) :
    wp DB.handler (Writes S) (cleve sha3 orig p.length) db
      (Made S db (.ext p u) True (refs sha3 t)) := by
  have hr' := hr
  rw [ht] at hr'
  obtain ⟨k', c₀, c, hpair⟩ := exists_isPair hr' hshort
  have hle : p.length ≤ (p ++ l).length := by
    rw [List.length_append]
    omega
  have hsize : p.length ≤ k'.size := by rwa [hpair.shows.size]
  have hcheck : (decide (p.length ≠ 0) && decide (p.length ≤ k'.size)) =
      true := by
    simp [hwithin.1, hsize]
  have hbelow : Within S.bound 0 u := hwithin.child
  have hbottomFits := hbelow.fits sha3 S.bound_le
  rw [hu] at hbottomFits
  have hbottom := rlpList_append_item hpair.rep_second hbottomFits
  have htopFits : (RLPTree.list [.data (hexPrefix false p), ref sha3 u]).Fits :=
    hwithin.fits sha3 S.bound_le
  have happend := RLPTree.append_partialList htopFits (k := 0) rfl
  have hstream := RLPTree.appendRaw_partialList htopFits (k := 1) rfl
  rw [← hu] at hbottom
  rw [cleve]
  refine wp_bind_of (wp_killNode hdb hr) ?_
  rintro _ db' ⟨hfollows, -, hmoves⟩
  simp only [hpair.itemCount, hpair.isList, hpair.keyOf, hpair.isLeaf,
    hpair.second, hcheck, beq_self_eq_true, Bool.and_self, check_true,
    wp_ok_bind, hpair.shows.encode_drop leaf hle,
    hpair.shows.encode_take false hle, List.take_left, List.drop_left, hbottom,
    ofList_two (.data (hexPrefix false p)) (ref sha3 u), happend]
  have hkeep := hstored.mono hfollows.keeps
  refine wp_bind_of (wp_streamNode hfollows.consistent hbelow hkeep
    hstream) ?_
  rintro s db'' ⟨rfl, hfollows', hheld, hmoves'⟩
  have hout : (partialList [.data (hexPrefix false p), ref sha3 u] 2).out =
      .ok (enc sha3 (.ext p u)) :=
    RLPTree.out_partialList [.data (hexPrefix false p), ref sha3 u]
  rw [hout]
  refine ⟨rfl, hfollows.trans hfollows', hheld, fun _ => ?_⟩
  rw [refsIn_ext]
  exact (hmoves _).trans (hrefs ▸ hmoves')

end Cut

section Fork

/-- A leaf without a key becomes a branch with a value. -/
theorem wp_branch_nil (hdb : Consistent S db) {value : Bytes}
    (hr : orig.Rep (Trie.node sha3 (.leaf [] value)))
    (hwithin : Within S.bound 0 (forked (.leaf [] value))) :
    wp DB.handler (Writes S) (branch sha3 orig) db
      (Made S db (forked (.leaf [] value)) True
        (refs sha3 (.leaf [] value))) := by
  obtain ⟨k', c₀, c, hpair⟩ := exists_isPair hr (by simp)
  have hsize : k'.size = 0 := hpair.shows.size
  have hfits : (RLPTree.list (branchItems (fun _ => ref sha3 .empty)
      (some value))).Fits := hwithin.fits sha3 S.bound_le
  have hloop : (List.range 16).foldlM (fun r _ => r.append [])
      (partialList (branchItems (fun _ => ref sha3 .empty) (some value)) 0) =
      .ok (partialList (branchItems (fun _ => ref sha3 .empty)
        (some value)) 16) := by
    refine RLPTree.foldlM_partialList fun i hi => ?_
    have hitem := branchItems_slot (fun _ => ref sha3 .empty) (some value)
      ⟨i, hi⟩
    rw [ref_empty] at hitem ⊢
    exact RLPTree.append_partialList (by rwa [ref_empty] at hfits) hitem
  have hvalue := appendItem_partialList hfits hpair.rep_second
    (branchItems_value (fun _ => ref sha3 .empty) (some value))
  rw [branch]
  simp only [hpair.itemCount, hpair.isList, beq_self_eq_true, Bool.and_self,
    check_true, wp_ok_bind]
  refine wp_bind_of (wp_killNode hdb hr) ?_
  rintro _ db' ⟨hfollows, -, hmoves⟩
  simp only [hpair.keyOf, hpair.isLeaf, hpair.second, hsize, ↓reduceIte,
    check_true, wp_ok_bind, ofList_branch (fun _ => ref sha3 .empty)
    (some value), hloop, hvalue, Nat.reduceAdd, out_branch, wp_ok]
  refine ⟨rfl, hfollows, fun _ => held_empty _, fun _ => (hmoves _).congr rfl ?_⟩
  simp [forked, Patricia.forkLeaf, refsIn_branch, refsIn]

/-- In the slot of its first nibble, a two-item node leaves a two-item node for
the rest of its key, or the child of an extension by one nibble. -/
theorem wp_branch_slot (hdb : Consistent S db)
    {t u : Trie} {leaf : Bool} {i : Nibble} {key : List Nibble}
    {item : RLPTree} {k' : NibbleSlice} {c₀ c : RLP} {all : List RLPTree}
    (hpair : IsPair orig leaf (i :: key) item k' c₀ c)
    (hnew : leaf = true ∨ key ≠ [] →
      Trie.node sha3 u = .list [.data (hexPrefix leaf key), item] ∧
        refsIn sha3 u = refsIn sha3 t ∧ Stored sha3 (DB.lookup db) u ∧
          Within S.bound 0 u)
    (hold : ¬ (leaf = true ∨ key ≠ []) → item = ref sha3 u ∧
      refs sha3 u = refsIn sha3 t ∧ Held sha3 (DB.lookup db) u)
    (hfits : (RLPTree.list all).Fits)
    (hitem : all[i.val]? = some (ref sha3 u)) :
    wp DB.handler (Writes S) (do
        let isLeaf ← isLeaf orig
        let value ← orig.get 1
        if isLeaf || k'.size > 1 then do
          let key ← hexPrefixEncodeSlice (k'.mid 1) isLeaf
          let child ← rlpList (fun out => out.append key) fun out =>
            out.appendItem value
          streamNode sha3 (partialList all i) child
        else (partialList all i).appendItem value : DBProgram RLPStream) db
      fun out db' => out = partialList all (i + 1) ∧ Follows S db db' ∧
        Held sha3 (DB.lookup db') u ∧
          DB.Moves db db' (refsIn sha3 t) (refs sha3 u) := by
  have hsize : k'.size = key.length + 1 := hpair.shows.size
  have hcond : (leaf || decide (k'.size > 1)) = true ↔
      leaf = true ∨ key ≠ [] := by
    have hlen : key.length + 1 > 1 ↔ 0 < key.length := by omega
    rw [hsize, Bool.or_eq_true, decide_eq_true_iff, hlen, List.length_pos_iff]
  simp only [hpair.isLeaf, hpair.second, wp_ok_bind]
  by_cases hc : leaf = true ∨ key ≠ []
  · obtain ⟨hu, hrefs, hstored, hu'⟩ := hnew hc
    have hrest : (k'.mid 1).Shows key := hpair.shows.mid (n := 1) (by simp)
    have huFits := hu'.fits sha3 S.bound_le
    rw [hu] at huFits
    have hchild := rlpList_append_item hpair.rep_second huFits
    rw [← hu] at hchild
    rw [if_pos (hcond.2 hc), hrest.encode]
    simp only [wp_ok_bind, hchild]
    refine wp_mono (wp_streamNode hdb hu' hstored
      (RLPTree.appendRaw_partialList hfits hitem)) ?_
    rintro out db' ⟨rfl, hfollows, hheld, hmoves⟩
    exact ⟨rfl, hfollows, hheld, hrefs ▸ hmoves⟩
  · obtain ⟨hu, hrefs, hheld⟩ := hold hc
    rw [if_neg (fun h => hc (hcond.1 h)), appendItem_partialList hfits
      hpair.rep_second (by rw [hitem, hu])]
    exact ⟨rfl, .refl hdb, hheld, hrefs ▸ .refl db _⟩

/-- A two-item node `t` with the key `i :: key` becomes a branch with the
trie `u` in the slot `i`: a two-item node for the rest of the key, or the child
of an extension by one nibble. -/
theorem wp_branch_cons (hdb : Consistent S db)
    {t u : Trie} {leaf : Bool} {i : Nibble} {key : List Nibble}
    {item : RLPTree}
    (ht : Trie.node sha3 t = .list [.data (hexPrefix leaf (i :: key)), item])
    (hnew : leaf = true ∨ key ≠ [] →
      Trie.node sha3 u = .list [.data (hexPrefix leaf key), item] ∧
        refsIn sha3 u = refsIn sha3 t ∧ Stored sha3 (DB.lookup db) u ∧
          Within S.bound 0 u)
    (hold : ¬ (leaf = true ∨ key ≠ []) → item = ref sha3 u ∧
      refs sha3 u = refsIn sha3 t ∧ Held sha3 (DB.lookup db) u)
    (hshort : (i :: key).length < 2 ^ 31 - 1)
    (hwithin : Within S.bound 0 (.branch (Patricia.only i u) none))
    (hr : orig.Rep (Trie.node sha3 t)) :
    wp DB.handler (Writes S) (branch sha3 orig) db
      (Made S db (.branch (Patricia.only i u) none) True
        (refs sha3 t)) := by
  have hr' := hr
  rw [ht] at hr'
  obtain ⟨k', c₀, c, hpair⟩ := exists_isPair hr' hshort
  have hsize : k'.size = key.length + 1 := hpair.shows.size
  have hpos : ¬ k'.size = 0 := by omega
  have hget : k'.get 0 = .ok i.toByte := hpair.shows.get rfl
  have hfits := hwithin.fits sha3 S.bound_le
  rw [node_branch] at hfits
  rw [branch]
  simp only [hpair.itemCount, hpair.isList, beq_self_eq_true, Bool.and_self,
    check_true, wp_ok_bind]
  refine wp_bind_of (wp_killNode hdb hr) ?_
  rintro _ db' ⟨hfollows, -, hmoves⟩
  simp only [hpair.keyOf, hpos, ↓reduceIte, hget, wp_ok_bind,
    ofList_branch (fun j => ref sha3 (Patricia.only i u j)) none]
  refine wp_bind_of (wp_slots (i := i) (by omega) ?_
    (Q := fun db'' => Follows S db' db'' ∧ Held sha3 (DB.lookup db'') u ∧
      DB.Moves db' db'' (refsIn sha3 t) (refs sha3 u)) ?_) ?_
  · intro j hj hji db₁
    have hne : (⟨j, hj⟩ : Nibble) ≠ i := fun h => hji (congrArg Fin.val h)
    have hitem := branchItems_slot
      (fun j => ref sha3 (Patricia.only i u j)) none ⟨j, hj⟩
    simp only [Patricia.only, Function.update_of_ne hne, ref_empty] at hitem
    have happend := RLPTree.append_partialList hfits hitem
    simp only [Nibble.toNat_toByte, if_neg hji, Patricia.only] at happend ⊢
    rw [happend]
    exact ⟨rfl, rfl⟩
  · have hitem := branchItems_slot
      (fun j => ref sha3 (Patricia.only i u j)) none i
    have hself : Patricia.only i u i = u := Function.update_self ..
    rw [hself] at hitem
    simp only [Nibble.toNat_toByte, ↓reduceIte]
    refine wp_branch_slot hfollows.consistent hpair (fun hc => ?_)
      (fun hc => ?_) hfits hitem
    · obtain ⟨hu, hrefs, hstored, hu'⟩ := hnew hc
      exact ⟨hu, hrefs, hstored.mono hfollows.keeps, hu'⟩
    · obtain ⟨hu, hrefs, hheld⟩ := hold hc
      exact ⟨hu, hrefs, hheld.mono hfollows.keeps⟩
  · rintro out db'' ⟨rfl, hfollows', hheld, hmoves'⟩
    have hvalue := append_value hfits
    rw [Option.getD_none] at hvalue
    simp only [hvalue, wp_ok_bind, out_branch, wp_ok]
    refine ⟨rfl, hfollows.trans hfollows', ?_, fun _ => ?_⟩
    · have hnone : Stored sha3 (DB.lookup db'')
          (.branch (fun _ => .empty) none) := fun _ => held_empty _
      exact stored_update hnone hheld
    · refine (hmoves _).trans (hmoves'.congr rfl ?_)
      rw [Patricia.only, refsIn_update]
      simp

/-- A leaf becomes a branch. -/
theorem wp_branch_leaf (hdb : Consistent S db)
    {key : List Nibble} {value : Bytes}
    (hr : orig.Rep (Trie.node sha3 (.leaf key value)))
    (hwithin : Within S.bound 0 (.leaf key value)) :
    wp DB.handler (Writes S) (branch sha3 orig) db
      (Made S db (forked (.leaf key value)) True
        (refs sha3 (.leaf key value))) := by
  have hforked := within_forked hwithin
  cases key with
  | nil => exact wp_branch_nil hdb hr hforked
  | cons i key =>
      have hlt := hwithin.2
      rw [List.length_cons] at hlt
      exact wp_branch_cons hdb (u := .leaf key value) rfl
        (fun _ => ⟨rfl, rfl, trivial, hwithin.1, by omega⟩)
        (fun h => absurd (Or.inl rfl) h) hwithin.leaf_short hforked hr

/-- An extension becomes a branch. -/
theorem wp_branch_ext (hdb : Consistent S db)
    {i : Nibble} {key : List Nibble} {child : Trie}
    (hr : orig.Rep (Trie.node sha3 (.ext (i :: key) child)))
    (hheld : Held sha3 (DB.lookup db) child)
    (hwithin : Within S.bound 0 (.ext (i :: key) child)) :
    wp DB.handler (Writes S) (branch sha3 orig) db
      (Made S db (forked (.ext (i :: key) child)) True
        (refs sha3 (.ext (i :: key) child))) := by
  have hforked := within_forked hwithin
  have hshort := hwithin.ext_short
  obtain ⟨-, hne, hlt, hchild⟩ := hwithin
  rw [List.length_cons] at hlt hchild
  refine wp_branch_cons hdb (u := Patricia.extend key child) rfl ?_ ?_ hshort
    hforked hr
  · intro h
    have hkey : key ≠ [] := h.resolve_left Bool.false_ne_true
    rw [Patricia.extend, if_neg hkey]
    exact ⟨rfl, rfl, hheld, hkey, hne, by omega, hchild.mono (by omega)⟩
  · intro h
    obtain rfl : key = [] := by
      by_contra hkey
      exact h (Or.inr hkey)
    exact ⟨rfl, rfl, hheld⟩

end Fork

end Trie

end Web3Core
