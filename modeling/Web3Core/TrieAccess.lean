/-
Reading and writing nodes: what the accessors see in a two-item node or a
branch, how a list is written item by item, and what a function that rebuilds
a node promises.
-/
import Web3Core.TrieStore

namespace Web3Core

open RLPTree (encode encodeItems partialList)

open Trie (ref refs refsIn enc hash branchItems)

theorem appendItem_partialList {all : List RLPTree}
    (hfits : (RLPTree.list all).Fits) {r : RLP} {t : RLPTree} (hr : r.Rep t)
    {k : Nat} (ht : all[k]? = some t) :
    (partialList all k).appendItem r = .ok (partialList all (k + 1)) := by
  rw [RLPStream.appendItem, hr.data_toBytes]
  exact RLPTree.appendRaw_partialList hfits ht

theorem ofList_two (a b : RLPTree) :
    RLPStream.ofList 2 = .ok (partialList [a, b] 0) := by
  have hne : [a, b] ≠ [] := by simp
  exact RLPTree.ofList_eq hne

/-- A list of two items, written by any means. -/
theorem rlpList_eq {a b : RLPTree}
    {first second : RLPStream → Except Exception RLPStream}
    (hfirst : first (partialList [a, b] 0) = .ok (partialList [a, b] 1))
    (hsecond : second (partialList [a, b] 1) = .ok (partialList [a, b] 2)) :
    rlpList first second = .ok (encode (.list [a, b])) := by
  have hout : (partialList [a, b] 2).out = .ok (encode (.list [a, b])) :=
    RLPTree.out_partialList [a, b]
  simp only [rlpList, ofList_two a b, hfirst, hsecond, hout, ok_bind]

theorem rlpPair_eq {key value : Bytes}
    (hfits : (RLPTree.list [.data key, .data value]).Fits) :
    rlpPair key value = .ok (encode (.list [.data key, .data value])) :=
  rlpList_eq (RLPTree.append_partialList hfits rfl)
    (RLPTree.append_partialList hfits rfl)

/-- A key and an item taken from another node. -/
theorem rlpList_append_item {key : Bytes} {r : RLP} {t : RLPTree}
    (hr : r.Rep t) (hfits : (RLPTree.list [.data key, t]).Fits) :
    rlpList (fun out => out.append key) (fun out => out.appendItem r) =
      .ok (encode (.list [.data key, t])) :=
  rlpList_eq (RLPTree.append_partialList hfits rfl)
    (appendItem_partialList hfits hr rfl)

theorem ofList_branch (slots : Nibble → RLPTree) (value : Option Bytes) :
    RLPStream.ofList 17 = .ok (partialList (branchItems slots value) 0) := by
  have hne : branchItems slots value ≠ [] := by
    intro hnil
    have := Trie.length_branchItems slots value
    rw [hnil] at this
    cases this
  rw [← RLPTree.ofList_eq hne, Trie.length_branchItems]

theorem append_value {slots : Nibble → RLPTree} {value : Option Bytes}
    (hfits : (RLPTree.list (branchItems slots value)).Fits) :
    (partialList (branchItems slots value) 16).append (value.getD []) =
      .ok (partialList (branchItems slots value) 17) :=
  RLPTree.append_partialList hfits (Trie.branchItems_value slots value)

theorem out_branch (slots : Nibble → RLPTree) (value : Option Bytes) :
    (partialList (branchItems slots value) 17).out =
      .ok (encode (.list (branchItems slots value))) := by
  have h := RLPTree.out_partialList (branchItems slots value)
  rwa [Trie.length_branchItems] at h

/-- What the accessors see in a two-item node. -/
structure IsPair (r : RLP) (leaf : Bool) (ns : List Nibble) (item : RLPTree)
    (k : NibbleSlice) (c₀ c : RLP) : Prop where
  itemCount : r.itemCount = .ok 2
  isList : r.isList = true
  isEmpty : r.isEmpty = false
  isNode : GenericTrieDB.isNode r = .ok true
  keyOf : keyOf r = .ok k
  shows : k.Shows ns
  isLeaf : isLeaf r = .ok leaf
  first : r.get 0 = .ok c₀
  rep_first : c₀.Rep (.data (hexPrefix leaf ns))
  second : r.get 1 = .ok c
  rep_second : c.Rep item

theorem exists_isPair {r : RLP} {leaf : Bool} {ns : List Nibble}
    {item : RLPTree} (h : r.Rep (.list [.data (hexPrefix leaf ns), item]))
    (hshort : ns.length < 2 ^ 31 - 1) :
    ∃ k c₀ c, IsPair r leaf ns item k c₀ c := by
  obtain ⟨k, hk, hshows⟩ := keyOf_eq h hshort
  obtain ⟨c₀, hc₀, hrep₀⟩ := h.get (i := 0) rfl
  obtain ⟨c, hc, hrep⟩ := h.get (i := 1) rfl
  have hcount : r.itemCount = .ok 2 := h.itemCount
  have hlist : r.isList = true := h.isList
  refine ⟨k, c₀, c, hcount, hlist, ?_, ?_, hk, hshows, isLeaf_eq h, hc₀, hrep₀,
    hc, hrep⟩
  · rw [h.isEmpty, RLPTree.payload, RLPTree.encodeItems]
    simp [RLPTree.encode_ne_nil]
  · simp [GenericTrieDB.isNode, hcount, hlist]

/-- What the accessors see in a branch. -/
structure IsBranchNode (r : RLP) (slots : Nibble → RLPTree)
    (value : Option Bytes) (c : Nat → RLP) : Prop where
  itemCount : r.itemCount = .ok 17
  isList : r.isList = true
  isEmpty : r.isEmpty = false
  isNode : GenericTrieDB.isNode r = .ok true
  get : ∀ i < 17, r.get i = .ok (c i)
  rep_slot : ∀ i : Nibble, (c i).Rep (slots i)
  rep_value : (c 16).Rep (.data (value.getD []))

theorem exists_isBranchNode {r : RLP} {slots : Nibble → RLPTree}
    {value : Option Bytes} (h : r.Rep (.list (branchItems slots value))) :
    ∃ c, IsBranchNode r slots value c := by
  have hget : ∀ i, ∃ c, i < 17 → r.get i = .ok c ∧
      ∀ t, (branchItems slots value)[i]? = some t → c.Rep t := by
    intro i
    by_cases hi : i < 17
    · have hlt : i < (branchItems slots value).length := by simpa using hi
      have hsome : (branchItems slots value)[i]? =
          some (branchItems slots value)[i] := List.getElem?_eq_getElem hlt
      obtain ⟨c, hc, hrep⟩ := h.get hsome
      refine ⟨c, fun _ => ⟨hc, fun t ht => ?_⟩⟩
      rw [hsome] at ht
      exact Option.some.inj ht ▸ hrep
    · exact ⟨.null, fun hlt => absurd hlt hi⟩
  choose c hc using hget
  have hcount : r.itemCount = .ok 17 := by
    rw [h.itemCount, Trie.length_branchItems]
  have hlist : r.isList = true := h.isList
  refine ⟨c, hcount, hlist, ?_, ?_, fun i hi => (hc i hi).1, fun i => ?_, ?_⟩
  · rw [h.isEmpty, RLPTree.payload, List.isEmpty_eq_false_iff]
    intro hnil
    have hcons : ∃ t ts, branchItems slots value = t :: ts := by
      rw [branchItems, List.ofFn_succ]
      exact ⟨_, _, rfl⟩
    obtain ⟨t, ts, hts⟩ := hcons
    rw [hts, RLPTree.encodeItems, List.append_eq_nil_iff] at hnil
    exact RLPTree.encode_ne_nil t hnil.1
  · simp [GenericTrieDB.isNode, hcount, hlist]
  · exact (hc i (by omega)).2 _ (Trie.branchItems_slot slots value i)
  · exact (hc 16 (by omega)).2 _ (Trie.branchItems_value slots value)

/-- The loop that copies the slots of a branch. -/
theorem appendItems_eq {orig : RLP} {slots slots' : Nibble → RLPTree}
    {value value' : Option Bytes} {c : Nat → RLP}
    (h : IsBranchNode orig slots value c)
    (hslots : ∀ i, slots' i = slots i)
    (hfits : (RLPTree.list (branchItems slots' value')).Fits) :
    GenericTrieDB.appendItems (partialList (branchItems slots' value') 0) orig
        (List.range 16) =
      .ok (partialList (branchItems slots' value') 16) := by
  refine RLPTree.foldlM_partialList fun i hi => ?_
  rw [h.get i (by omega), ok_bind]
  have hrep := h.rep_slot ⟨i, hi⟩
  rw [← hslots] at hrep
  exact appendItem_partialList hfits hrep
    (Trie.branchItems_slot slots' value' ⟨i, hi⟩)

section Slots

open Program

variable {E : Type} {R : E → Type} {ε σ : Type} {H : Handler E R σ}
  {A : E → Prop}

/-- A loop that writes a list and does something else at one item only. -/
theorem wp_slots {all : List RLPTree}
    {f : RLPStream → Nat → Program E R ε RLPStream} {n i : Nat} (hi : i < n)
    (hother : ∀ j < n, j ≠ i → ∀ s, wp H A (f (partialList all j) j) s
      fun out s' => out = partialList all (j + 1) ∧ s' = s)
    {s : σ} {Q : σ → Prop}
    (hslot : wp H A (f (partialList all i) i) s
      fun out s' => out = partialList all (i + 1) ∧ Q s') :
    wp H A ((List.range n).foldlM f (partialList all 0)) s
      fun out s' => out = partialList all n ∧ Q s' := by
  refine wp_mono (wp_range (I := fun j out s' => out = partialList all j ∧
    if i < j then Q s' else s' = s) ?_ ⟨rfl, by simp⟩) ?_
  · rintro j hj out s' ⟨rfl, hs'⟩
    rcases Nat.lt_trichotomy j i with hlt | rfl | hgt
    · rw [if_neg (by omega)] at hs'
      subst hs'
      refine wp_mono (hother j hj (by omega) s') ?_
      rintro out' s'' ⟨rfl, rfl⟩
      exact ⟨rfl, by rw [if_neg (by omega)]⟩
    · rw [if_neg (by omega)] at hs'
      subst hs'
      refine wp_mono hslot ?_
      rintro out' s'' ⟨rfl, hQ⟩
      exact ⟨rfl, by rwa [if_pos (by omega)]⟩
    · rw [if_pos hgt] at hs'
      refine wp_mono (hother j hj (by omega) s') ?_
      rintro out' s'' ⟨rfl, rfl⟩
      exact ⟨rfl, by rwa [if_pos (by omega)]⟩
  · rintro out s' ⟨rfl, hs'⟩
    rw [if_pos hi] at hs'
    exact ⟨rfl, hs'⟩

end Slots

theorem Scope.shows_key {sha3 : Bytes → H256} (S : Scope sha3) {key : Bytes}
    (h : key.length * 2 < S.bound) : NibbleSlice.Shows ⟨key, 0⟩ (nibbles key) :=
  NibbleSlice.shows_key (by have := S.bound_le; omega)

namespace Trie

variable {sha3 : Bytes → H256} {σ : Type} [LawfulDB σ]

/-- A node was rebuilt: `b` is the top node of `t`, whose other nodes are in
the database, and where `counted` holds the references `a` became those
in `t`. -/
structure Made (S : Scope sha3) (db : σ) (t : Trie) (counted : Prop)
    (a : H256 → Nat) (b : Bytes) (db' : σ) : Prop where
  bytes : b = enc sha3 t
  follows : Follows S db db'
  stored : Stored sha3 (DB.lookup db') t
  moves : counted → DB.Moves db db' a (refsIn sha3 t)

variable {S : Scope sha3} {db db' db'' : σ} {t : Trie}
  {counted : Prop} {a a' : H256 → Nat} {b : Bytes}

theorem Within.leaf_short {key : List Nibble} {value : Bytes}
    (h : Within S.bound 0 (.leaf key value)) : key.length < 2 ^ 31 - 1 := by
  have hlt := h.2
  have hbound := S.bound_le
  omega

theorem Within.ext_short {key : List Nibble} {child : Trie}
    (h : Within S.bound 0 (.ext key child)) : key.length < 2 ^ 31 - 1 := by
  have hlt := h.2.2.1
  have hbound := S.bound_le
  omega

theorem exists_branch {r : RLP} {slots : Nibble → Trie} {value : Option Bytes}
    (h : r.Rep (node sha3 (.branch slots value))) :
    ∃ c, IsBranchNode r (fun i => ref sha3 (slots i)) value c :=
  exists_isBranchNode h

/-- Copying an item that stays when the slot `i` changes. -/
theorem appendItem_update {r : RLP} {slots : Nibble → Trie}
    {value : Option Bytes} {c : Nat → RLP} {i : Nibble}
    (h : IsBranchNode r (fun j => ref sha3 (slots j)) value c)
    (hfits : (RLPTree.list (branchItems
      (fun j => ref sha3 (Function.update slots i t j)) value)).Fits)
    {j : Nat} (hj : j < 17) (hji : j ≠ i) :
    (partialList (branchItems
        (fun j => ref sha3 (Function.update slots i t j)) value) j).appendItem
        (c j) =
      .ok (partialList (branchItems
        (fun j => ref sha3 (Function.update slots i t j)) value) (j + 1)) := by
  by_cases hvalue : j = 16
  · subst hvalue
    exact appendItem_partialList hfits h.rep_value (branchItems_value _ value)
  · have hslot : j < 16 := by omega
    have hne : (⟨j, hslot⟩ : Nibble) ≠ i := fun heq =>
      hji (congrArg Fin.val heq)
    refine appendItem_partialList hfits (h.rep_slot ⟨j, hslot⟩) ?_
    have hitem := branchItems_slot
      (fun j => ref sha3 (Function.update slots i t j)) value ⟨j, hslot⟩
    rwa [Function.update_of_ne hne] at hitem

/-- What the accessors see in an item `r` that refers to a trie by its hash;
`n` is the trie's top node as read from the database. -/
structure IsHashOf (sha3 : Bytes → H256) (r : RLP) (t : Trie) (n : RLP) :
    Prop where
  isList : r.isList = false
  isData : r.isData = true
  isNull : r.isNull = false
  isEmpty : r.isEmpty = false
  toHash : r.toHash 32 .strict = .ok (hash sha3 t)
  ofBytes : RLP.ofBytes (enc sha3 t) = .ok n
  rep : n.Rep (node sha3 t)

theorem alignRight_data (h : H256) : RLP.alignRight 32 h.data = h := by
  refine FixedHash.ext ?_
  have hsize := h.size_data
  simp [RLP.alignRight, hsize, List.take_of_length_le]

theorem exists_isHashOf {r : RLP} (hbig : Big sha3 t)
    (hwithin : Within S.bound 0 t) (hr : r.Rep (ref sha3 t)) :
    ∃ n, IsHashOf sha3 r t n := by
  obtain ⟨n, hofBytes, hrep⟩ :=
    RLP.Rep.ofBytes (hwithin.fits sha3 S.bound_le)
  have hempty : r.isEmpty = false := by
    rw [hr.isEmpty, List.isEmpty_eq_false_iff]
    intro hnil
    rw [payload_ref_eq_nil_iff.1 hnil] at hbig
    exact not_big_empty hbig
  rw [ref_of_big hbig] at hr
  have hsize := (hash sha3 t).size_data
  refine ⟨n, hr.isList, hr.isData, hr.isNull, hempty, ?_, hofBytes, hrep⟩
  rw [hr.toHash hsize.le, alignRight_data]

theorem Made.mono {counted' : Prop} (h : Made S db t counted a b db')
    (himp : counted' → counted) : Made S db t counted' a b db' :=
  ⟨h.bytes, h.follows, h.stored, fun hc => h.moves (himp hc)⟩

/-- What happened before the node was rebuilt. -/
theorem Made.after (h : Made S db' t counted a' b db'')
    (hfollows : Follows S db db')
    (hmoves : counted → DB.Moves db db' a a') :
    Made S db t counted a b db'' :=
  ⟨h.bytes, hfollows.trans h.follows, h.stored,
    fun hc => (hmoves hc).trans (h.moves hc)⟩

/-- The last steps of an insertion or a removal: the new top node replaces the
root, which is counted even where it is short. -/
theorem wp_replaceRoot {t' : Trie}
    {g : GenericTrieDB} (hopened : Opened S db g t)
    (hwithin : Within S.bound 0 t')
    (hmade : Made S db t' counted (refs sha3 t) b db') :
    Program.wp DB.handler (Writes S) (do
        Program.onlyIf ((enc sha3 t).length < 32)
          (GenericTrieDB.forceKillNode g.root)
        let root ← GenericTrieDB.forceInsertNode sha3 b
        pure ⟨root⟩) db' fun g' db'' =>
      Opened S db'' g' t' ∧ DB.Extends db db'' ∧
        (counted → DB.Moves db db'' (total sha3 t) (total sha3 t')) := by
  obtain ⟨rfl, hfollows, hstored, hmoves⟩ := hmade
  have hkill : Program.wp DB.handler (Writes S)
      (Program.onlyIf ((enc sha3 t).length < 32)
        (GenericTrieDB.forceKillNode g.root)) db' fun _ db'' =>
      Follows S db' db'' ∧
        (counted → DB.Moves db db'' (total sha3 t) (refsIn sha3 t')) := by
    by_cases hbig : Big sha3 t
    · have hlen : decide ((enc sha3 t).length < 32) = false :=
        decide_eq_false (Nat.not_lt.2 hbig)
      rw [hlen]
      refine ⟨.refl hfollows.consistent, fun hc => (hmoves hc).congr ?_ rfl⟩
      rw [total, refs, own_of_big hbig]
    · have hlen : decide ((enc sha3 t).length < 32) = true :=
        decide_eq_true (Nat.not_le.1 hbig)
      rw [hlen, hopened.root]
      refine Program.wp_mono (wp_forceKillNode hfollows.consistent _) ?_
      rintro _ db'' ⟨hfollows', -, hmoves'⟩
      refine ⟨hfollows', fun hc => ?_⟩
      have hbefore := (hmoves hc).frame (Pi.single (hash sha3 t) 1)
      have hafter := hmoves'.frame (refsIn sha3 t')
      rw [refs_of_not_big hbig, add_comm] at hbefore
      rw [zero_add, add_comm] at hafter
      exact hbefore.trans hafter
  refine Program.wp_bind_of hkill ?_
  rintro _ db'' ⟨hfollows', hmoves'⟩
  refine Program.wp_bind_of (wp_forceInsertNode hfollows'.consistent
    hwithin (hstored.mono hfollows'.keeps)) ?_
  rintro h db₃ ⟨rfl, hfollows₃, htop, hmoves₃⟩
  refine ⟨⟨hfollows₃.consistent, hwithin,
    (hstored.mono hfollows'.keeps).mono hfollows₃.keeps, rfl, htop⟩,
    hfollows.keeps.trans (hfollows'.keeps.trans hfollows₃.keeps), fun hc => ?_⟩
  refine (hmoves' hc).trans ((hmoves₃.frame (refsIn sha3 t')).congr ?_ rfl)
  rw [zero_add]

end Trie

end Web3Core
