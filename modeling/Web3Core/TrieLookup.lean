/-
Lookup in a database trie is lookup in the Patricia trie it stands for, and
leaves the database alone.
-/
import Web3Core.TrieAccess

namespace Web3Core

open Program GenericTrieDB

namespace Trie

variable {sha3 : Bytes → H256} {σ : Type} [LawfulDB σ] {S : Scope sha3}
  {db : σ} {t : Trie} {ns : List Nibble}

/-- What `atAux` finds for the key `ns` below the node of `t`. -/
def Finds (sha3 : Bytes → H256) (db : σ) (fuel : Nat) (t : Trie)
    (ns : List Nibble) : Prop :=
  ∀ ⦃here : RLP⦄ ⦃k : NibbleSlice⦄, here.Rep (Trie.node sha3 t) → k.Shows ns →
    wp DB.handler (fun _ => True) (atAux fuel here k) db fun b db' =>
      b = (Patricia.lookup t ns).getD [] ∧ db' = db

/-- Following a reference. -/
theorem wp_atAux_ref {fuel : Nat} (hne : t ≠ .empty)
    (hheld : Held sha3 (DB.lookup db) t) (hwithin : Within S.bound 0 t)
    (hfinds : Finds sha3 db fuel t ns) {r : RLP} {k : NibbleSlice}
    (hr : r.Rep (ref sha3 t)) (hk : k.Shows ns) :
    wp DB.handler (fun _ => True) (
        if r.isList then atAux fuel r k
        else do
          let h ← r.toHash 32 .strict
          let s ← GenericTrieDB.node h
          let r' ← RLP.ofBytes s
          atAux fuel r' k) db fun b db' =>
      b = (Patricia.lookup t ns).getD [] ∧ db' = db := by
  by_cases hbig : Big sha3 t
  · obtain ⟨n, hn⟩ := exists_isHashOf hbig hwithin hr
    simp only [hn.isList, Bool.false_eq_true, ↓reduceIte, hn.toHash, wp_ok_bind,
      wp_read_bind, hheld.1 hbig, hn.ofBytes]
    exact hfinds hn.rep hk
  · rw [ref_of_not_big hbig] at hr
    rw [if_pos (by rw [hr.isList, node_isList hne])]
    exact hfinds hr hk

theorem finds_empty (fuel : Nat) : Finds sha3 db (fuel + 1) .empty ns := by
  intro here k hr hk
  have hempty : here.isEmpty = true := hr.isEmpty
  simp only [atAux, hempty, Bool.true_or, ↓reduceIte]
  exact ⟨rfl, rfl⟩

theorem finds_leaf {key : List Nibble} {value : Bytes}
    (hwithin : Within S.bound 0 (.leaf key value)) (fuel : Nat) :
    Finds sha3 db (fuel + 1) (.leaf key value) ns := by
  intro here k hr hk
  obtain ⟨k', c₀, c, hpair⟩ := exists_isPair hr hwithin.leaf_short
  simp only [atAux, hpair.isEmpty, hr.isNull, Bool.or_self, Bool.false_eq_true,
    ↓reduceIte, hpair.itemCount, hpair.isList, beq_self_eq_true, Bool.true_or,
    Bool.and_self, check_true, wp_ok_bind, hpair.keyOf, hpair.isLeaf,
    hk.equals hpair.shows, hk.contains hpair.shows, negated, ok_bind,
    Bool.not_true, andThen, ite_self, hpair.second, Patricia.lookup_leaf]
  by_cases hkey : ns = key
  · simp [hkey, hpair.rep_second.toString]
  · simp [hkey]

theorem finds_ext {key : List Nibble} {child : Trie} (hne : child ≠ .empty)
    (hheld : Held sha3 (DB.lookup db) child)
    (hwithin : Within S.bound 0 (.ext key child)) {fuel : Nat}
    (hfinds : key <+: ns → Finds sha3 db fuel child (ns.drop key.length)) :
    Finds sha3 db (fuel + 1) (.ext key child) ns := by
  intro here k hr hk
  obtain ⟨k', c₀, c, hpair⟩ := exists_isPair hr hwithin.ext_short
  simp only [atAux, hpair.isEmpty, hr.isNull, Bool.or_self, Bool.false_eq_true,
    ↓reduceIte, hpair.itemCount, hpair.isList, beq_self_eq_true, Bool.true_or,
    Bool.and_self, check_true, wp_ok_bind, hpair.keyOf, hpair.isLeaf,
    hk.equals hpair.shows, hk.contains hpair.shows, negated, ok_bind,
    Bool.not_false, andThen, ite_self, Patricia.lookup_ext]
  by_cases hkey : key <+: ns
  · have hrest : (k.mid k'.size).Shows (ns.drop key.length) := by
      rw [hpair.shows.size]
      exact hk.mid hkey.length_le
    simp only [hkey, decide_true, ↓reduceIte, wp_ok_bind, hpair.second]
    exact wp_atAux_ref hne hheld hwithin.child (hfinds hkey) hpair.rep_second
      hrest
  · simp [hkey]

theorem finds_branch_nil (slots : Nibble → Trie) (value : Option Bytes)
    (fuel : Nat) : Finds sha3 db (fuel + 1) (.branch slots value) [] := by
  intro here k hr hk
  obtain ⟨c, hbranch⟩ := exists_branch hr
  have hsize : k.size = 0 := hk.size
  simp only [atAux, hbranch.isEmpty, hr.isNull, Bool.or_self,
    Bool.false_eq_true, ↓reduceIte, hbranch.itemCount, hbranch.isList,
    beq_self_eq_true, Bool.or_true, Bool.and_self, check_true, wp_ok_bind,
    Nat.reduceEqDiff, hsize, hbranch.get 16 (by decide),
    hbranch.rep_value.toString]
  exact ⟨rfl, rfl⟩

theorem finds_branch_cons {slots : Nibble → Trie} {value : Option Bytes}
    {i : Nibble} (hheld : Held sha3 (DB.lookup db) (slots i))
    (hwithin : Within S.bound 0 (slots i)) {fuel : Nat}
    (hfinds : Finds sha3 db fuel (slots i) ns) :
    Finds sha3 db (fuel + 1) (.branch slots value) (i :: ns) := by
  intro here k hr hk
  obtain ⟨c, hbranch⟩ := exists_branch hr
  have hsize : ¬ k.size = 0 := by
    rw [hk.size]
    simp
  have hget : k.get 0 = .ok i.toByte := hk.get rfl
  have hrest : (k.mid 1).Shows ns := hk.mid (n := 1) (by simp)
  have hslot := hbranch.rep_slot i
  simp only [atAux, hbranch.isEmpty, hr.isNull, Bool.or_self,
    Bool.false_eq_true, ↓reduceIte, hbranch.itemCount, hbranch.isList,
    beq_self_eq_true, Bool.or_true, Bool.and_self, check_true, wp_ok_bind,
    Nat.reduceEqDiff, hsize, hget, Nibble.toNat_toByte,
    hbranch.get i (by omega), Patricia.lookup_branch_cons]
  by_cases hempty : slots i = .empty
  · have : (c i).isEmpty = true := by
      rw [hslot.isEmpty, hempty, ref_empty]
      rfl
    simp [this, hempty]
  · have : (c i).isEmpty = false := by
      rw [hslot.isEmpty, List.isEmpty_eq_false_iff, ne_eq,
        payload_ref_eq_nil_iff]
      exact hempty
    simp only [this, Bool.false_eq_true, ↓reduceIte]
    exact wp_atAux_ref hempty hheld hwithin hfinds hslot hrest

/-- Lookup finds what the trie holds, given a call for each nibble. -/
theorem finds (hstored : Stored sha3 (DB.lookup db) t)
    (hwithin : Within S.bound 0 t) {fuel : Nat} (hfuel : ns.length < fuel) :
    Finds sha3 db fuel t ns := by
  induction fuel generalizing t ns with
  | zero => exact absurd hfuel (Nat.not_lt_zero _)
  | succ fuel ih =>
      cases t with
      | empty => exact finds_empty fuel
      | leaf key value => exact finds_leaf hwithin fuel
      | ext key child =>
          obtain ⟨hkey, hne, -, -⟩ := id hwithin
          refine finds_ext hne hstored hwithin fun hpre =>
            ih hstored.2 hwithin.child ?_
          have hpos := List.length_pos_iff.2 hkey
          have := hpre.length_le
          rw [List.length_drop]
          omega
      | branch slots value =>
          cases ns with
          | nil => exact finds_branch_nil slots value fuel
          | cons i ns =>
              have hbelow : Within S.bound 0 (slots i) := hwithin.slot i
              rw [List.length_cons] at hfuel
              exact finds_branch_cons (hstored i) hbelow
                (ih (hstored i).2 hbelow (by omega))

/-- `at` reads no more than the nodes of the trie. -/
theorem wp_lookup_of {g : GenericTrieDB}
    (hstored : Stored sha3 (DB.lookup db) t) (hwithin : Within S.bound 0 t)
    (htop : DB.lookup db g.root = enc sha3 t) {key : Bytes}
    (hshort : key.length * 2 < S.bound) :
    wp DB.handler (fun _ => True) (GenericTrieDB.lookup g key) db fun b db' =>
      b = (Patricia.lookup t (nibbles key)).getD [] ∧ db' = db := by
  obtain ⟨r, hr, hrep⟩ := RLP.Rep.ofBytes (hwithin.fits sha3 S.bound_le)
  have henc : RLP.ofBytes (enc sha3 t) = .ok r := hr
  rw [GenericTrieDB.lookup, wp_read_bind, htop, henc, wp_ok_bind]
  exact finds hstored hwithin (by rw [length_nibbles]; omega)
    hrep (S.shows_key hshort)

/-- `at` gives the value of the key, or nothing. -/
theorem wp_lookup {g : GenericTrieDB} (h : Opened S db g t) {key : Bytes}
    (hshort : key.length * 2 < S.bound) :
    wp DB.handler (fun _ => True) (GenericTrieDB.lookup g key) db fun b db' =>
      b = (Patricia.lookup t (nibbles key)).getD [] ∧ db' = db :=
  wp_lookup_of h.stored h.within (by rw [h.root, h.top]) hshort

end Trie

end Web3Core
