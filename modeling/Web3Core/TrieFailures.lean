/-
How a removal fails: an exception below a node is one at the node, whatever
brought it about.
-/
import Web3Core.TrieSession

namespace Web3Core

open Program GenericTrieDB

open RLPTree (encode encodeItems partialList)

namespace Trie

variable {sha3 : Bytes → H256} {σ : Type} [LawfulDB σ] {S : Scope sha3}
  {db : σ} {t : Trie} {ns : List Nibble} {orig : RLP} {k : NibbleSlice}
  {deleteAt : RLP → NibbleSlice → DBProgram Bytes}

theorem fails_node_bind {α : Type} (h : H256) (f : Bytes → DBProgram α) :
    fails DB.handler (Writes S) (GenericTrieDB.node h >>= f) db ↔
      fails DB.handler (Writes S) (f (DB.lookup db h)) db :=
  forall_prop_of_true trivial

/-- What fails in a scope fails in the runs that write within the scope. -/
theorem exists_error_of_written {α : Type} {p : DBProgram α}
    (h : ∀ v ∈ written p db, v ∈ S.strings)
    (hp : fails DB.handler (Writes S) p db) :
    ∃ error db', run DB.handler p db = (.error error, db') := by
  refine exists_error_of_fails hp fun command hmem => ?_
  rcases command with x | x | ⟨x, v⟩ | x | _
  case insert => exact h v (List.mem_filterMap.2 ⟨_, hmem, rfl⟩)
  all_goals trivial

/-- A function that removes a key from a trie ends in an exception. -/
def FailsAt (S : Scope sha3) (db : σ)
    (deleteAt : RLP → NibbleSlice → DBProgram Bytes) (t : Trie)
    (ns : List Nibble) : Prop :=
  ∀ ⦃orig : RLP⦄ ⦃k : NibbleSlice⦄, orig.Rep (Trie.node sha3 t) → k.Shows ns →
    fails DB.handler (Writes S) (deleteAt orig k) db

theorem fails_deleteAtAux (hne : t ≠ .empty)
    (hheld : Held sha3 (DB.lookup db) t) (hwithin : Within S.bound 0 t)
    (hfails : FailsAt S db deleteAt t ns) (hr : orig.Rep (ref sha3 t))
    (hk : k.Shows ns) (out : RLPStream) :
    fails DB.handler (Writes S) (deleteAtAux sha3 deleteAt out orig k) db := by
  rw [deleteAtAux]
  refine fails_bind_left ?_ _
  by_cases hbig : Big sha3 t
  · obtain ⟨n, hn⟩ := exists_isHashOf hbig hwithin hr
    simp only [hn.isEmpty, Bool.false_eq_true, ↓reduceIte, hn.isList, hn.toHash,
      fails_ok_bind, fails_node_bind, hheld.1 hbig, hn.ofBytes]
    exact hfails hn.rep hk
  · rw [ref_of_not_big hbig] at hr
    have hempty : orig.isEmpty = false := by
      rw [hr.isEmpty, List.isEmpty_eq_false_iff]
      exact payload_node_ne_nil hne
    rw [if_neg (by simp [hempty]), if_pos (by rw [hr.isList, node_isList hne])]
    exact hfails hr hk

/-- The loop over the slots of a branch fails where the slot `i` does. -/
theorem fails_deleteSlots {all : List RLPTree} {c : Nat → RLP} {i : Nat}
    (hi : i < 17) (hget : ∀ j < 17, orig.get j = .ok (c j))
    (hother : ∀ j < 17, j ≠ i → (partialList all j).appendItem (c j) =
      .ok (partialList all (j + 1)))
    (hslot : fails DB.handler (Writes S)
      (deleteAtAux sha3 deleteAt (partialList all i) (c i) (k.mid 1)) db)
    {m j : Nat} (hjm : j + m = 17) (hji : j ≤ i) :
    fails DB.handler (Writes S)
      (deleteSlots sha3 deleteAt orig i k (List.range' j m)
        (partialList all j)) db := by
  induction m generalizing j with
  | zero => omega
  | succ m ih =>
      rw [List.range'_succ, deleteSlots, hget j (by omega), fails_ok_bind]
      by_cases hij : j = i
      · subst hij
        rw [if_pos rfl]
        exact fails_bind_left hslot _
      · rw [if_neg hij, hother j (by omega) hij, fails_ok_bind]
        exact ih (by omega) (by omega)

/-- Where removal fails below an extension, it fails at the extension. -/
theorem failsAt_ext {key : List Nibble} {child : Trie} {fuel : Nat}
    (hwithin : Within S.bound 0 (.ext key child))
    (hstored : Stored sha3 (DB.lookup db) (.ext key child))
    (ih : FailsAt S db (GenericTrieDB.deleteAt sha3 fuel) child ns) :
    FailsAt S db (GenericTrieDB.deleteAt sha3 (fuel + 1)) (.ext key child)
      (key ++ ns) := by
  intro orig k hr hk
  obtain ⟨k', c₀, c, hpair⟩ := exists_isPair hr hwithin.ext_short
  have hrest : (k.mid k'.size).Shows ns := by
    have hmid := hk.mid (n := key.length) (by simp)
    rwa [List.drop_left, ← hpair.shows.size] at hmid
  have hfits : (RLPTree.list [.data (hexPrefix false key),
      ref sha3 child]).Fits := hwithin.fits sha3 S.bound_le
  have hfirst := appendItem_partialList hfits hpair.rep_first (k := 0) rfl
  simp only [GenericTrieDB.deleteAt, hpair.isEmpty, Bool.false_eq_true,
    ↓reduceIte, hpair.isNode, hpair.itemCount, check_true, fails_ok_bind,
    hpair.keyOf, hpair.isLeaf, hpair.shows.equals hk, hk.contains hpair.shows,
    andThen, ite_self, decide_true, hpair.first, hpair.second,
    List.prefix_append,
    ofList_two (.data (hexPrefix false key)) (ref sha3 child), hfirst]
  exact fails_bind_left (fails_deleteAtAux hwithin.2.1 hstored
    hwithin.child ih hpair.rep_second hrest _) _

/-- Where removal fails below a branch, it fails at the branch. -/
theorem failsAt_branch_cons {slots : Nibble → Trie} {value : Option Bytes}
    {i : Nibble} {fuel : Nat} (hne : slots i ≠ .empty)
    (hwithin : Within S.bound 0 (.branch slots value))
    (hstored : Stored sha3 (DB.lookup db) (.branch slots value))
    (ih : FailsAt S db (GenericTrieDB.deleteAt sha3 fuel) (slots i) ns) :
    FailsAt S db (GenericTrieDB.deleteAt sha3 (fuel + 1))
      (.branch slots value) (i :: ns) := by
  intro orig k hr hk
  obtain ⟨c, hbranch⟩ := exists_branch hr
  have hsize := hk.size_cons
  have hget : k.get 0 = .ok i.toByte := hk.get rfl
  have hrest : (k.mid 1).Shows ns := hk.mid (n := 1) (by simp)
  have hfits : (RLPTree.list (branchItems (fun j =>
      ref sha3 (Function.update slots i (slots i) j)) value)).Fits := by
    rw [Function.update_eq_self]
    exact hwithin.fits sha3 S.bound_le
  have hslot := fails_deleteAtAux hne (hstored i) (hwithin.slot i) ih
    (hbranch.rep_slot i) hrest
  simp only [GenericTrieDB.deleteAt, hbranch.isEmpty, Bool.false_eq_true,
    ↓reduceIte, hbranch.isNode, hbranch.itemCount, check_true, fails_ok_bind,
    Nat.reduceEqDiff, hsize, andThen, hget, Nibble.toNat_toByte,
    ofList_branch (fun j => ref sha3 (Function.update slots i (slots i) j)) value,
    List.range_eq_range']
  exact fails_bind_left (fails_deleteSlots (by omega) hbranch.get
    (fun j hj hji => appendItem_update hbranch hfits hj hji) (hslot _) rfl
    (Nat.zero_le _)) _

/-- Where removal fails at the root, `remove` fails. -/
theorem fails_remove {g : GenericTrieDB} {key : Bytes} (h : Opened S db g t)
    (hshort : key.length * 2 < S.bound)
    (hfails : FailsAt S db
      (GenericTrieDB.deleteAt sha3 (key.length * 2 + 2)) t (nibbles key)) :
    fails DB.handler (Writes S) (GenericTrieDB.remove sha3 g key) db := by
  obtain ⟨r, hr, hrep⟩ :=
    RLP.Rep.ofBytes (h.within.fits sha3 S.bound_le)
  have henc : RLP.ofBytes (enc sha3 t) = .ok r := hr
  rw [GenericTrieDB.remove, fails_node_bind, h.root, h.top, henc, fails_ok_bind]
  exact fails_bind_left (hfails hrep (S.shows_key hshort)) _

end Trie

end Web3Core
