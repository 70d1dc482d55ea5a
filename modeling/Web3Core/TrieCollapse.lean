/-
The node functions of a removal: a two-item node is joined with the one below
it, and a branch with a single slot left is rewritten.  A slot may hold a
child in two ways, or the value of the branch; `isTwoItemNode` reads the value
as a hash, so what becomes of a branch that keeps only its value depends on the
database.
-/
import Web3Core.TrieAccess

namespace Web3Core

open Program GenericTrieDB

open RLPTree (encode encodeItems partialList)

namespace Trie

/-- The trie is a leaf or an extension. -/
def isTwoItem : Trie → Bool
  | .leaf _ _ => true
  | .ext _ _ => true
  | _ => false

variable {sha3 : Bytes → H256} {σ : Type} [LawfulDB σ] {S : Scope sha3}
  {db : σ} {t u : Trie} {orig r : RLP}

theorem exists_twoItem (h : isTwoItem u = true) :
    ∃ leaf key item, node sha3 u = .list [.data (hexPrefix leaf key), item] ∧
      ∀ front, node sha3 (Patricia.graft front u) =
          .list [.data (hexPrefix leaf (front ++ key)), item] ∧
        (Within S.bound 0 (Patricia.graft front u) →
          (front ++ key).length < 2 ^ 31 - 1) := by
  cases u with
  | empty => cases h
  | leaf key value =>
      exact ⟨true, key, _, rfl, fun _ => ⟨rfl, Within.leaf_short⟩⟩
  | ext key child =>
      exact ⟨false, key, _, rfl, fun _ => ⟨rfl, Within.ext_short⟩⟩
  | branch slots value => cases h

theorem refsIn_graft (h : isTwoItem u = true) (key : List Nibble) :
    refsIn sha3 (Patricia.graft key u) = refsIn sha3 u := by
  cases u with
  | empty => cases h
  | leaf _ _ => rfl
  | ext _ _ => rfl
  | branch _ _ => cases h

theorem stored_graft {lookup : H256 → Bytes} (h : isTwoItem u = true)
    (key : List Nibble) (hu : Stored sha3 lookup u) :
    Stored sha3 lookup (Patricia.graft key u) := by
  cases u with
  | empty => cases h
  | leaf _ _ => exact hu
  | ext _ _ => exact hu
  | branch _ _ => cases h

theorem graft_of_not_twoItem (hne : u ≠ .empty) (h : isTwoItem u = false)
    (key : List Nibble) : Patricia.graft key u = .ext key u := by
  cases u with
  | empty => exact absurd rfl hne
  | leaf _ _ => cases h
  | ext _ _ => cases h
  | branch _ _ => rfl

theorem itemCount_node (hr : r.Rep (Trie.node sha3 t)) :
    ∃ n, r.itemCount = .ok n ∧ (n == 2) = isTwoItem t := by
  cases t with
  | empty =>
      have hlist : r.isList = false := hr.isList
      exact ⟨0, by simp [RLP.itemCount, hlist], rfl⟩
  | leaf key value => exact ⟨2, hr.itemCount, rfl⟩
  | ext key child => exact ⟨2, hr.itemCount, rfl⟩
  | branch slots value =>
      refine ⟨17, ?_, rfl⟩
      rw [RLP.Rep.itemCount hr, length_branchItems]

/-- Asking what kind of node a slot holds. -/
theorem wp_isTwoItemNode (hne : t ≠ .empty)
    (hheld : Held sha3 (DB.lookup db) t) (hwithin : Within S.bound 0 t)
    (hr : r.Rep (ref sha3 t)) :
    wp DB.handler (Writes S) (isTwoItemNode r) db fun b db' =>
      b = isTwoItem t ∧ db' = db := by
  by_cases hbig : Big sha3 t
  · obtain ⟨n, hn⟩ := exists_isHashOf hbig hwithin hr
    obtain ⟨count, hcount, htwo⟩ := itemCount_node hn.rep
    simp only [isTwoItemNode, hn.isData, ↓reduceIte, hn.toHash, bind_assoc,
      wp_ok_bind, wp_node_bind, hheld.1 hbig, hn.ofBytes, hcount, pure_bind,
      htwo, hn.isList, andThen, Bool.false_eq_true]
    cases isTwoItem t <;> exact ⟨rfl, rfl⟩
  · rw [ref_of_not_big hbig] at hr
    obtain ⟨count, hcount, htwo⟩ := itemCount_node hr
    have hlist : r.isList = true := by rw [hr.isList, node_isList hne]
    have hdata : r.isData = false := by rw [hr.isData, node_isList hne]; rfl
    simp only [isTwoItemNode, hdata, Bool.false_eq_true, ↓reduceIte, pure_bind,
      hlist, andThen, hcount, ok_bind, htwo]
    exact ⟨rfl, rfl⟩

/-- Joining a two-item node with a two-item node below it, which is given up
where it was held. -/
theorem wp_graft_of {leaf : Bool} {key : List Nibble} {item : RLPTree}
    {R : σ → Prop} (hr : orig.Rep (.list [.data (hexPrefix leaf key), item]))
    (htwo : isTwoItem u = true)
    (hwithin : Within S.bound 0 (Patricia.graft key u))
    (hread : ∀ c : RLP, c.Rep item → wp DB.handler (Writes S) (
        if c.isList then pure c
        else do
          let lh ← c.toHash 32 .strict
          let s ← GenericTrieDB.node lh
          forceKillNode lh
          RLP.ofBytes s : DBProgram RLP) db fun n db' => n.Rep (Trie.node sha3 u) ∧ R db') :
    wp DB.handler (Writes S) (graft orig) db fun b db' =>
      b = enc sha3 (Patricia.graft key u) ∧ R db' := by
  obtain ⟨leaf', key', item', hnode, hgraft⟩ := exists_twoItem (S := S) htwo
  obtain ⟨hgraft, hlt⟩ := hgraft key
  have hshort := hlt hwithin
  rw [List.length_append] at hshort
  obtain ⟨k, c₀, c, hpair⟩ := exists_isPair hr (by omega)
  have hfits := hwithin.fits sha3 S.bound_le
  rw [hgraft] at hfits
  simp only [graft, hpair.itemCount, hpair.isList, beq_self_eq_true,
    Bool.and_self, check_true, wp_ok_bind, hpair.second]
  refine wp_bind_of (hread c hpair.rep_second) ?_
  rintro n db' ⟨hn, hR⟩
  rw [hnode] at hn
  obtain ⟨k', d₀, d, hpair'⟩ := exists_isPair hn (by omega)
  simp only [hpair'.itemCount, beq_self_eq_true, check_true, wp_ok_bind,
    hpair.keyOf, hpair'.keyOf, hpair'.isLeaf,
    hpair.shows.encode_join hpair'.shows, hpair'.second,
    rlpList_append_item hpair'.rep_second hfits, wp_ok]
  exact ⟨by rw [enc, hgraft], hR⟩

/-- Joining an extension with the two-item node it refers to. -/
theorem wp_graft (hdb : Consistent S db) {key : List Nibble}
    (hr : orig.Rep (Trie.node sha3 (.ext key u))) (htwo : isTwoItem u = true)
    (hheld : Held sha3 (DB.lookup db) u) (hbelow : Within S.bound 0 u)
    (hwithin : Within S.bound 0 (Patricia.graft key u)) :
    wp DB.handler (Writes S) (graft orig) db
      (Made S db (Patricia.graft key u) True (refs sha3 u)) := by
  have hne : u ≠ .empty := by
    rintro rfl
    cases htwo
  refine wp_mono (wp_graft_of hr htwo hwithin (R := fun db' =>
    Follows S db db' ∧ DB.Moves db db' (refs sha3 u) (refsIn sha3 u)) ?_) ?_
  · intro c hc
    by_cases hbig : Big sha3 u
    · obtain ⟨n, hn⟩ := exists_isHashOf hbig hbelow hc
      simp only [hn.isList, Bool.false_eq_true, ↓reduceIte, hn.toHash,
        wp_ok_bind, wp_node_bind, hheld.1 hbig]
      refine wp_bind_of (wp_forceKillNode hdb _) ?_
      rintro _ db' ⟨hfollows, -, hmoves⟩
      rw [hn.ofBytes]
      refine ⟨hn.rep, hfollows, (hmoves.frame (refsIn sha3 u)).congr ?_ ?_⟩
      · rw [refs, own_of_big hbig]
      · rw [zero_add]
    · have hc' : c.Rep (Trie.node sha3 u) := ref_of_not_big hbig ▸ hc
      have hlist : c.isList = true := by rw [hc'.isList, node_isList hne]
      simp only [hlist, ↓reduceIte]
      exact ⟨hc', .refl hdb, (DB.Moves.refl db _).congr
        (refs_of_not_big hbig) rfl⟩
  · rintro b db' ⟨rfl, hfollows, hmoves⟩
    exact ⟨rfl, hfollows, stored_graft htwo key (hheld.2.mono hfollows.keeps),
      fun _ => hmoves.congr rfl (refsIn_graft htwo key)⟩

/-- A branch with one child is turned into an extension. -/
theorem wp_merge_slot {slots : Nibble → Trie} {value : Option Bytes}
    {i : Nibble} (hr : orig.Rep (Trie.node sha3 (.branch slots value)))
    (hne : slots i ≠ .empty) (hwithin : Within S.bound 0 (.ext [i] (slots i))) :
    wp DB.handler (Writes S) (merge orig i) db fun b db' =>
      b = enc sha3 (.ext [i] (slots i)) ∧ db' = db := by
  obtain ⟨c, hbranch⟩ := exists_branch hr
  have hslot := hbranch.rep_slot i
  have hempty : (c i).isEmpty = false := by
    rw [hslot.isEmpty, List.isEmpty_eq_false_iff, ne_eq, payload_ref_eq_nil_iff]
    exact hne
  have hfits : (RLPTree.list [.data (hexPrefix false [i]),
      ref sha3 (slots i)]).Fits := hwithin.fits sha3 S.bound_le
  have hkey : hexPrefixEncodeRange [UInt8.ofNat i] false 1 2 0 =
      .ok (hexPrefix false [i]) := hexPrefixEncodeRange_slot i
  have hfirst := RLPTree.append_partialList hfits (k := 0) rfl
  have hsecond := appendItem_partialList hfits (k := 1) hslot rfl
  have hout : (partialList [.data (hexPrefix false [i]), ref sha3 (slots i)]
      2).out = .ok (enc sha3 (.ext [i] (slots i))) :=
    RLPTree.out_partialList [.data (hexPrefix false [i]), ref sha3 (slots i)]
  have hindex : (i : Nat) ≠ 16 := by omega
  simp only [merge, hbranch.itemCount, hbranch.isList, beq_self_eq_true,
    Bool.and_self, check_true, wp_ok_bind, hbranch.get i (by omega),
    ofList_two (.data (hexPrefix false [i])) (ref sha3 (slots i)), hindex,
    hempty, hkey, hfirst, hsecond, hout, Bool.not_false, ↓reduceIte, ne_eq,
    not_false_eq_true, ok_bind, Nat.reduceAdd]
  exact ⟨rfl, rfl⟩

/-- A branch with only a value is turned into a leaf. -/
theorem wp_merge_value {slots : Nibble → Trie} {x : Bytes}
    (hr : orig.Rep (Trie.node sha3 (.branch slots (some x))))
    (hwithin : Within S.bound 0 (.leaf [] x)) :
    wp DB.handler (Writes S) (merge orig 16) db fun b db' =>
      b = enc sha3 (.leaf [] x) ∧ db' = db := by
  obtain ⟨c, hbranch⟩ := exists_branch hr
  have hfits : (RLPTree.list [.data (hexPrefix true []), .data x]).Fits :=
    hwithin.fits sha3 S.bound_le
  have hfirst := RLPTree.append_partialList hfits (k := 0) rfl
  have hsecond := appendItem_partialList hfits (k := 1) hbranch.rep_value rfl
  have hout : (partialList [.data (hexPrefix true []), .data x] 2).out =
      .ok (enc sha3 (.leaf [] x)) :=
    RLPTree.out_partialList [.data (hexPrefix true []), .data x]
  simp only [merge, hbranch.itemCount, hbranch.isList, beq_self_eq_true,
    Bool.and_self, check_true, wp_ok_bind, hbranch.get 16 (by decide),
    ofList_two (.data (hexPrefix true [])) (.data x), hexPrefixEncode_nil,
    hfirst, hsecond, hout, ↓reduceIte, ne_eq, not_true_eq_false,
    Nat.reduceAdd]
  exact ⟨rfl, rfl⟩

/-- Where a branch keeps a slot. -/
def slotIndex : Option Nibble → Nat
  | none => 16
  | some i => i

theorem slotIndex_lt (a : Option Nibble) : slotIndex a < 17 := by
  cases a with
  | none => decide
  | some i => exact i.isLt.trans (by decide)

theorem slotIndex_inj {a b : Option Nibble} (h : slotIndex a = slotIndex b) :
    a = b := by
  cases a with
  | none =>
      cases b with
      | none => rfl
      | some j => exact absurd h j.isLt.ne'
  | some i =>
      cases b with
      | none => exact absurd h i.isLt.ne
      | some j => exact congrArg some (Fin.ext h)

theorem exists_slotIndex {j : Nat} (hj : j < 17) : ∃ a, slotIndex a = j := by
  by_cases h : j = 16
  · exact ⟨none, h.symm⟩
  · exact ⟨some ⟨j, by omega⟩, rfl⟩

theorem inUse_slotIndex {slots : Nibble → Trie} {value : Option Bytes}
    (hvalue : ∀ x, value = some x → x ≠ []) {except : Nat} (a : Option Nibble) :
    InUse (branchItems (fun i => ref sha3 (slots i)) value) except
        (slotIndex a) ↔
      slotIndex a ≠ except ∧ Patricia.Used slots value a := by
  refine and_congr_right fun _ => ?_
  cases a with
  | none =>
      simp only [slotIndex, branchItems_value, Option.map_some,
        Option.getD_some, RLPTree.payload, Patricia.Used]
      cases value with
      | none => simp
      | some x => simpa using hvalue x rfl
  | some i =>
      simp only [slotIndex, branchItems_slot, Option.map_some,
        Option.getD_some, Patricia.Used]
      exact not_congr payload_ref_eq_nil_iff

/-- A branch with one slot in use, one of them possibly excepted. -/
theorem uniqueInUse_only {slots : Nibble → Trie} {value : Option Bytes}
    (hr : orig.Rep (Trie.node sha3 (.branch slots value)))
    (hvalue : ∀ x, value = some x → x ≠ []) {except : Nat} {a : Option Nibble}
    (ha : Patricia.Used slots value a) (hne : slotIndex a ≠ except)
    (honly : ∀ b, Patricia.Used slots value b → slotIndex b ≠ except → b = a) :
    uniqueInUse orig except = .ok (slotIndex a) := by
  refine uniqueInUse_of_only hr (length_branchItems _ _) (slotIndex_lt a)
    ((inUse_slotIndex hvalue a).2 ⟨hne, ha⟩) fun j hj huse => ?_
  obtain ⟨b, rfl⟩ := exists_slotIndex hj
  obtain ⟨hb, hused⟩ := (inUse_slotIndex hvalue b).1 huse
  rw [honly b hused hb]

/-- A branch with nothing but its value. -/
theorem uniqueInUse_value {slots : Nibble → Trie} {x : Bytes}
    (hr : orig.Rep (Trie.node sha3 (.branch slots (some x)))) (hx : x ≠ [])
    (hall : ∀ i, slots i = .empty) : uniqueInUse orig 255 = .ok 16 := by
  have hindex : slotIndex none ≠ 255 := by decide
  have hvalue : ∀ y, some x = some y → y ≠ [] := by
    intro y hy
    rwa [← Option.some.inj hy]
  refine uniqueInUse_only hr hvalue (a := none) (Option.some_ne_none x) hindex
    fun b hb _ => ?_
  cases b with
  | none => rfl
  | some j => exact absurd (hall j) hb

theorem uniqueInUse_two {slots : Nibble → Trie} {value : Option Bytes}
    (hr : orig.Rep (Trie.node sha3 (.branch slots value)))
    (hvalue : ∀ x, value = some x → x ≠ []) {except : Nat}
    {a b : Option Nibble} (hab : a ≠ b) (ha : Patricia.Used slots value a)
    (hb : Patricia.Used slots value b) (hae : slotIndex a ≠ except)
    (hbe : slotIndex b ≠ except) : uniqueInUse orig except = .ok 255 :=
  uniqueInUse_of_two hr (length_branchItems _ _)
    (fun h => hab (slotIndex_inj h)) (slotIndex_lt a) (slotIndex_lt b)
    ((inUse_slotIndex hvalue a).2 ⟨hae, ha⟩)
    ((inUse_slotIndex hvalue b).2 ⟨hbe, hb⟩)

theorem within_graft {B d : Nat} {key : List Nibble} (hkey : key ≠ [])
    (hlt : d + key.length < B) (hu : Within B (d + key.length) u) :
    Within B d (Patricia.graft key u) := by
  cases u with
  | empty => trivial
  | leaf key' value =>
      have := hu.2
      exact ⟨hu.1, by rw [List.length_append]; omega⟩
  | ext key' child =>
      obtain ⟨-, hne, hle, hchild⟩ := hu
      rw [Nat.add_assoc, ← List.length_append] at hle hchild
      exact ⟨by simp [hkey], hne, hle, hchild⟩
  | branch slots value => exact ⟨hkey, by simp, hlt, hu⟩

/-- A branch with one child is rewritten. -/
theorem wp_mergeUsed_slot (hdb : Consistent S db) {slots : Nibble → Trie}
    {value : Option Bytes} {i : Nibble}
    (hr : orig.Rep (Trie.node sha3 (.branch slots value)))
    (hne : slots i ≠ .empty)
    (hstored : Stored sha3 (DB.lookup db) (.branch slots value))
    (hwithin : Within S.bound 0 (.branch slots value)) :
    wp DB.handler (Writes S) (mergeUsed orig i) db
      (Made S db (Patricia.graft [i] (slots i)) True
        (refs sha3 (slots i))) := by
  obtain ⟨c, hbranch⟩ := exists_branch hr
  have hheld : Held sha3 (DB.lookup db) (slots i) := hstored i
  have hslot : Within S.bound (0 + [i].length) (slots i) := hwithin.2.1 i
  have hlt : 0 + [i].length < S.bound := hslot.lt hne
  have hext : Within S.bound 0 (.ext [i] (slots i)) :=
    ⟨by simp, hne, hlt, hslot⟩
  simp only [mergeUsed, hbranch.get i (by omega), wp_ok_bind]
  refine wp_bind_of (wp_isTwoItemNode hne hheld (hwithin.slot i)
    (hbranch.rep_slot i)) ?_
  rintro b db' ⟨rfl, rfl⟩
  by_cases htwo : isTwoItem (slots i) = true
  · obtain ⟨r, hofBytes, hrep⟩ := RLP.Rep.ofBytes (hext.fits sha3 S.bound_le)
    rw [if_pos htwo]
    refine wp_bind_of (wp_merge_slot hr hne hext) ?_
    rintro b db'' ⟨rfl, rfl⟩
    simp only [enc, hofBytes, wp_ok_bind]
    exact wp_graft hdb hrep htwo hheld (hwithin.slot i)
      (within_graft (by simp) hlt hslot)
  · rw [if_neg htwo, graft_of_not_twoItem hne (by simpa using htwo)]
    refine wp_mono (wp_merge_slot hr hne hext) ?_
    rintro b db'' ⟨rfl, rfl⟩
    exact ⟨rfl, .refl hdb, hheld, fun _ => .refl _ _⟩

theorem fits_of_enc_eq (hfits : (Trie.node sha3 t).Fits)
    (h : enc sha3 t = enc sha3 u) : (Trie.node sha3 u).Fits := by
  have hlt : (enc sha3 t).length < 2 ^ 64 - 0x100 := hfits
  rw [h] at hlt
  exact hlt

theorem isTwoItem_of_enc_eq (hfits : (Trie.node sha3 t).Fits)
    (h : enc sha3 t = enc sha3 u) : isTwoItem t = isTwoItem u := by
  have hfits' := fits_of_enc_eq hfits h
  obtain ⟨r, hr, hrep⟩ := RLP.Rep.ofBytes hfits
  obtain ⟨r', hr', hrep'⟩ := RLP.Rep.ofBytes hfits'
  rw [← enc, h, enc, hr'] at hr
  obtain rfl : r' = r := Except.ok.inj hr
  obtain ⟨n, hn, htwo⟩ := itemCount_node hrep
  obtain ⟨n', hn', htwo'⟩ := itemCount_node hrep'
  rw [hn] at hn'
  obtain rfl : n = n' := Except.ok.inj hn'
  exact htwo.symm.trans htwo'

variable (sha3) in
/-- The trie `u` takes the place of a branch that keeps only the value `x`:
the leaf, unless the database holds a two-item node under the value. -/
def Replaces (db : σ) (x : Bytes) (u : Trie) : Prop :=
  (u = .leaf [] x ∧ ∀ w, isTwoItem w = true →
      DB.lookup db (RLP.alignRight 32 x) ≠ enc sha3 w) ∨
    (isTwoItem u = true ∧ Stored sha3 (DB.lookup db) u ∧
      DB.lookup db (RLP.alignRight 32 x) = enc sha3 u)

theorem Replaces.congr {db' : σ} {x : Bytes} (h : Replaces sha3 db x u)
    (hlookup : DB.lookup db' = DB.lookup db) : Replaces sha3 db' x u := by
  rw [Replaces, hlookup]
  exact h

theorem Consistent.exists_replaces (hdb : Consistent S db) (x : Bytes) :
    ∃ u, Replaces sha3 db x u ∧ (u = .leaf [] x ∨ Within S.bound 0 u) := by
  by_cases hnil : DB.lookup db (RLP.alignRight 32 x) = []
  · exact ⟨.leaf [] x, .inl ⟨rfl, fun w _ h => enc_ne_nil w (h.symm.trans hnil)⟩,
      .inl rfl⟩
  · obtain ⟨t, hwithin, hstored, henc, -⟩ := hdb.known _ hnil
    by_cases htwo : isTwoItem t = true
    · exact ⟨t, .inr ⟨htwo, hstored, henc⟩, .inr hwithin⟩
    · refine ⟨.leaf [] x, .inl ⟨rfl, fun w hw h => htwo ?_⟩, .inl rfl⟩
      rw [isTwoItem_of_enc_eq (hwithin.fits sha3 S.bound_le) (henc.symm.trans h), hw]

/-- What is found under a value, read as a node. -/
theorem Consistent.exists_itemCount (hdb : Consistent S db) {x : Bytes}
    (hreplaces : Replaces sha3 db x u) :
    ∃ n c, RLP.ofBytes (DB.lookup db (RLP.alignRight 32 x)) = .ok n ∧
      n.itemCount = .ok c ∧
        if c == 2 then isTwoItem u = true ∧ Stored sha3 (DB.lookup db) u ∧
          n.Rep (Trie.node sha3 u)
        else u = .leaf [] x := by
  by_cases hnil : DB.lookup db (RLP.alignRight 32 x) = []
  · rcases hreplaces with ⟨rfl, -⟩ | ⟨-, -, henc⟩
    · rw [hnil]
      exact ⟨_, 0, rfl, rfl, rfl⟩
    · exact absurd (henc.symm.trans hnil) (enc_ne_nil u)
  · obtain ⟨t, hwithin, -, hlookup, -⟩ := hdb.known _ hnil
    have hfits := hwithin.fits sha3 S.bound_le
    rcases hreplaces with ⟨rfl, hno⟩ | ⟨htwo, hstored, henc⟩
    · obtain ⟨n, hn, hrep⟩ := RLP.Rep.ofBytes hfits
      obtain ⟨c, hc, heq⟩ := itemCount_node hrep
      refine ⟨n, c, by rw [hlookup]; exact hn, hc, ?_⟩
      rw [if_neg]
      rw [heq]
      exact fun htwo => hno t htwo hlookup
    · obtain ⟨n, hn, hrep⟩ :=
        RLP.Rep.ofBytes (fits_of_enc_eq hfits (hlookup.symm.trans henc))
      obtain ⟨c, hc, heq⟩ := itemCount_node hrep
      refine ⟨n, c, by rw [henc]; exact hn, hc, ?_⟩
      rw [if_pos (heq.trans htwo)]
      exact ⟨htwo, hstored, hrep⟩

/-- A branch that keeps only a short value is rewritten. -/
theorem wp_mergeUsed_value (hdb : Consistent S db) {slots : Nibble → Trie}
    {x : Bytes} (hr : orig.Rep (Trie.node sha3 (.branch slots (some x))))
    (hshort : x.length ≤ 32) (hreplaces : Replaces sha3 db x u)
    (hleaf : Within S.bound 0 (.leaf [] x)) (hwithin : Within S.bound 0 u) :
    wp DB.handler (Writes S) (mergeUsed orig 16) db fun b db' =>
      b = enc sha3 u ∧ Follows S db db' ∧ Stored sha3 (DB.lookup db') u := by
  obtain ⟨c, hbranch⟩ := exists_branch hr
  have hvalue : (c 16).Rep (.data x) := hbranch.rep_value
  have hdata : (c 16).isData = true := hvalue.isData
  have hlist : (c 16).isList = false := hvalue.isList
  obtain ⟨n, count, hn, hcount, hkind⟩ := hdb.exists_itemCount hreplaces
  simp only [mergeUsed, hbranch.get 16 (by decide), isTwoItemNode, hdata,
    ↓reduceIte, hvalue.toHash hshort, bind_assoc, wp_ok_bind, wp_node_bind, hn,
    hcount, pure_bind, hlist, andThen, Bool.false_eq_true]
  by_cases htwo : (count == 2) = true
  · rw [if_pos htwo] at hkind
    obtain ⟨hitem, hstored, hrep⟩ := hkind
    simp only [htwo, ↓reduceIte, pure_bind]
    refine wp_bind_of (wp_merge_value hr hleaf) ?_
    rintro b db' ⟨rfl, rfl⟩
    obtain ⟨r, hofBytes, hrep'⟩ :=
      RLP.Rep.ofBytes (hleaf.fits sha3 S.bound_le)
    have hgraft : Patricia.graft [] u = u := by
      cases u with
      | empty => cases hitem
      | leaf _ _ => rfl
      | ext _ _ => rfl
      | branch _ _ => cases hitem
    simp only [enc, hofBytes, wp_ok_bind]
    refine wp_mono (wp_graft_of hrep' hitem (by rwa [hgraft])
      (R := fun db'' => Follows S db' db'') ?_) ?_
    · intro c' hc'
      have hlist' : c'.isList = false := hc'.isList
      simp only [hlist', Bool.false_eq_true, ↓reduceIte, hc'.toHash hshort,
        wp_ok_bind, wp_node_bind]
      refine wp_bind_of (wp_forceKillNode hdb _) ?_
      rintro _ db'' ⟨hfollows, -, -⟩
      rw [hn]
      exact ⟨hrep, hfollows⟩
    · rintro b db'' ⟨rfl, hfollows⟩
      rw [hgraft]
      exact ⟨rfl, hfollows, hstored.mono hfollows.keeps⟩
  · rw [if_neg htwo] at hkind
    subst hkind
    simp only [htwo, Bool.false_eq_true, ↓reduceIte, wp_ok_bind]
    refine wp_mono (wp_merge_value hr hleaf) ?_
    rintro b db' ⟨rfl, rfl⟩
    exact ⟨rfl, .refl hdb, trivial⟩

theorem refsIn_onlySlot {slots : Nibble → Trie} {value : Option Bytes}
    {i : Nibble} (h : Patricia.OnlySlot slots value i) :
    refsIn sha3 (.branch slots value) = refs sha3 (slots i) := by
  rw [refsIn_eq_slot slots value i, add_eq_left]
  refine Finset.sum_eq_zero fun j hj => ?_
  have hempty : slots j = .empty := by
    by_contra hne
    exact Finset.ne_of_mem_erase hj (h.2.2 j hne)
  rw [hempty, refs_empty]

/-- A branch is put right after one of its slots may have been emptied. -/
theorem wp_collapse (hdb : Consistent S db) {lone : Bytes → Trie}
    {slots : Nibble → Trie} {value : Option Bytes}
    (hr : orig.Rep (Trie.node sha3 (.branch slots value)))
    (hstored : Stored sha3 (DB.lookup db) (.branch slots value))
    (hwithin : Within S.bound 0 (.branch slots value))
    (hused : ∃ a, Patricia.Used slots value a)
    (hlone : ∀ x, value = some x → (∀ i, slots i = .empty) →
      x.length ≤ 32 ∧ Replaces sha3 db x (lone x) ∧
        Within S.bound 0 (lone x)) :
    wp DB.handler (Writes S) (do
        let used ← uniqueInUse orig 255
        if used = 255 then pure (enc sha3 (.branch slots value))
        else mergeUsed orig used : DBProgram Bytes) db
      (Made S db (Patricia.collapse lone slots value)
        (∃ i, slots i ≠ .empty) (refsIn sha3 (.branch slots value))) := by
  have hvalue : ∀ x, value = some x → x ≠ [] := fun x hx => (hwithin.2.2 x hx).1
  have hindex : ∀ a, slotIndex a ≠ 255 := fun a h => by
    have := slotIndex_lt a
    omega
  rcases Patricia.used_cases slots value with
    ⟨rfl, hall⟩ | ⟨i, hi⟩ | ⟨x, rfl, hall⟩ | ⟨a, b, hab, ha, hb⟩
  · obtain ⟨a, ha⟩ := hused
    cases a with
    | none => exact absurd rfl ha
    | some i => exact absurd (hall i) ha
  · have hunique := uniqueInUse_only hr hvalue (a := some i) hi.2.1
      (hindex (some i)) fun b hb _ => by
        cases b with
        | none => exact absurd hi.1 hb
        | some j => rw [hi.2.2 j hb]
    rw [hunique, wp_ok_bind, if_neg (hindex (some i)),
      Patricia.collapse_of_onlySlot hi, refsIn_onlySlot hi]
    refine wp_mono (wp_mergeUsed_slot hdb hr hi.2.1 hstored hwithin) ?_
    exact fun b db' hmade => hmade.mono fun _ => trivial
  · obtain ⟨hshort, hreplaces, hu⟩ := hlone x rfl hall
    have hpos := hwithin.1
    rw [uniqueInUse_value hr (hvalue x rfl) hall, wp_ok_bind, if_neg (by simp),
      Patricia.collapse_of_value hall]
    refine wp_mono (wp_mergeUsed_value hdb hr hshort hreplaces
      ⟨hwithin.2.2 x rfl, by simpa using hpos⟩ hu) ?_
    rintro b db' ⟨hb, hfollows, hst⟩
    refine ⟨hb, hfollows, hst, ?_⟩
    rintro ⟨i, hi⟩
    exact absurd (hall i) hi
  · rw [uniqueInUse_two hr hvalue hab ha hb (hindex a) (hindex b), wp_ok_bind,
      if_pos rfl, Patricia.collapse_of_two hab ha hb]
    exact ⟨rfl, .refl hdb, hstored, fun _ => .refl db _⟩

end Trie

end Web3Core
