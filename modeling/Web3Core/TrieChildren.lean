/-
What a round of an iterator's loops does at a node of the trie: it reads the
node from the back of the trail, looks for the next child of a branch, and puts
the child on the trail.
-/
import Web3Core.TrieAccess
import Web3Core.TrieIterator

namespace Web3Core

open Program GenericTrieDB

namespace Trie

variable {sha3 : Bytes → H256} {σ : Type} [LawfulDB σ] {S : Scope sha3}
  {db : σ} {g : GenericTrieDB} {t : Trie}

theorem run_read_bind {α : Type} (h : H256) (f : Bytes → DBProgram α) :
    run DB.handler (GenericTrieDB.node h >>= f) db =
      run DB.handler (f (DB.lookup db h)) db := rfl

/-- Following a reference to a node. -/
theorem run_derefIn_bind {α : Type} (hne : t ≠ .empty)
    (hheld : Held sha3 (DB.lookup db) t) (hwithin : Within S.bound 0 t)
    {r : RLP} (hr : r.Rep (ref sha3 t)) (f : Bytes → DBProgram α) :
    run DB.handler (derefIn (some g) r >>= f) db =
      run DB.handler (f (enc sha3 t)) db := by
  by_cases hbig : Big sha3 t
  · obtain ⟨n, hn⟩ := exists_isHashOf hbig hwithin hr
    simp only [derefIn, deref, hn.isList, Bool.false_eq_true, ↓reduceIte,
      hn.toHash, liftM_ok_bind, run_read_bind, hheld.1 hbig]
  · rw [ref_of_not_big hbig] at hr
    have hlist : r.isList = true := by rw [hr.isList, node_isList hne]
    have hbytes : r.data.toBytes = enc sha3 t := hr.data_toBytes
    simp only [derefIn, deref, hlist, ↓reduceIte, hbytes, pure_bind]

/-! The children of a branch. -/

/-- The mark of the `i`-th child, or that of the exit behind the last one. -/
def childByte (i : Nat) : Byte := if i < 16 then UInt8.ofNat i else 17

theorem childByte_nibble (i : Nibble) : childByte i = i.toByte := if_pos i.isLt

theorem toNat_childByte {i : Nat} (hi : i < 16) : (childByte i).toNat = i := by
  revert i
  decide

theorem childByte_ne_exit {i : Nat} (hi : i < 16) : childByte i ≠ 17 := by
  revert i
  decide

theorem childByte_ne_value {i : Nat} (hi : i < 16) : childByte i ≠ 16 := by
  revert i
  decide

theorem childByte_ne_enter (i : Nibble) : childByte i ≠ 255 := by
  revert i
  decide

theorem childAfter_childByte {i : Nat} (hi : i < 16) :
    childAfter (childByte i) = childByte (i + 1) := by
  revert i
  decide

theorem childLoop_exit (r : RLP) (fuel : Nat) :
    childLoop r (fuel + 1) (childByte 16) = .ok 17 := rfl

section Branch

variable {r : RLP} {slots : Nibble → Trie} {value : Option Bytes}
  {c : Nat → RLP} (h : IsBranchNode r (fun i => ref sha3 (slots i)) value c)

include h

theorem isEmpty_slot_iff (i : Nibble) :
    (c i).isEmpty = true ↔ slots i = .empty := by
  rw [(h.rep_slot i).isEmpty, List.isEmpty_iff, payload_ref_eq_nil_iff]

theorem childLoop_used {i : Nibble} (hi : slots i ≠ .empty) (fuel : Nat) :
    childLoop r (fuel + 1) (childByte i) = .ok (childByte i) := by
  have hused : (c i).isEmpty ≠ true := mt (isEmpty_slot_iff h i).1 hi
  rw [childLoop, if_neg (childByte_ne_exit i.isLt), toNat_childByte i.isLt,
    h.get i (by omega), ok_bind, if_neg hused]

theorem childLoop_empty {i : Nibble} (hi : slots i = .empty) (fuel : Nat) :
    childLoop r (fuel + 1) (childByte i) =
      childLoop r fuel (childByte (i + 1)) := by
  rw [childLoop, if_neg (childByte_ne_exit i.isLt), toNat_childByte i.isLt,
    h.get i (by omega), ok_bind, if_pos ((isEmpty_slot_iff h i).2 hi),
    childAfter_childByte i.isLt]

/-- The loop ends at the exit at the latest. -/
theorem exists_childLoop {i : Nat} (hi : i ≤ 16) {fuel : Nat}
    (hfuel : 16 < i + fuel) : ∃ x, childLoop r fuel (childByte i) = .ok x := by
  induction fuel generalizing i with
  | zero => exact absurd hfuel (by omega)
  | succ fuel ih =>
      by_cases hexit : i = 16
      · subst hexit
        exact ⟨17, childLoop_exit r fuel⟩
      · have hlt : i < 16 := by omega
        by_cases hslot : slots ⟨i, hlt⟩ = .empty
        · have hskip := childLoop_empty h hslot fuel
          obtain ⟨x, hx⟩ := ih (show i + 1 ≤ 16 from hlt) (by omega)
          exact ⟨x, hskip.trans hx⟩
        · exact ⟨_, childLoop_used h hslot fuel⟩

end Branch

/-- More fuel does not change where the loop ends. -/
theorem childLoop_succ {r : RLP} {fuel : Nat} {child x : Byte}
    (h : childLoop r fuel child = .ok x) :
    childLoop r (fuel + 1) child = .ok x := by
  induction fuel generalizing child with
  | zero => cases h
  | succ fuel ih =>
      rw [childLoop] at h ⊢
      split
      · rename_i hexit
        rwa [if_pos hexit] at h
      · rename_i hexit
        rw [if_neg hexit] at h
        cases hget : r.get child.toNat with
        | error e =>
            rw [hget] at h
            cases h
        | ok n =>
            rw [hget, ok_bind] at h
            rw [ok_bind]
            by_cases hempty : n.isEmpty
            · rw [if_pos hempty] at h ⊢
              exact ih h
            · rwa [if_neg hempty] at h ⊢

/-- The loop ends at the exit or at a child that is not empty. -/
theorem childLoop_eq_ok {r : RLP} {fuel : Nat} {child x : Byte}
    (h : childLoop r fuel child = .ok x) :
    x = 17 ∨ ∃ n, r.get x.toNat = .ok n ∧ n.isEmpty = false := by
  induction fuel generalizing child with
  | zero => cases h
  | succ fuel ih =>
      rw [childLoop] at h
      split at h
      · rename_i hexit
        cases h
        exact .inl hexit
      · cases hget : r.get child.toNat with
        | error e =>
            rw [hget] at h
            cases h
        | ok n =>
            rw [hget, ok_bind] at h
            by_cases hempty : n.isEmpty
            · rw [if_pos hempty] at h
              exact ih h
            · rw [if_neg hempty] at h
              cases h
              exact .inr ⟨n, hget, by simpa using hempty⟩

/-- The byte of a child from its second nibble on. -/
theorem shows_nibble (i : Nibble) : NibbleSlice.Shows ⟨[i.toByte], 1⟩ [i] := by
  refine ⟨?_, by simp, by simp, by simp⟩
  revert i
  decide

section Round

variable {r : RLP} {slots : Nibble → Trie} {value : Option Bytes}
  {c : Nat → RLP} (h : IsBranchNode r (fun i => ref sha3 (slots i)) value c)
  (that : Option GenericTrieDB) (b : GenericTrieDB.Node)
  (below : List GenericTrieDB.Node) (k : NibbleSlice)
  (onwards : List GenericTrieDB.Node → NibbleSlice → DBProgram Iterator)

include h

/-- Passing over an empty child is going on from the next one, without the
search key. -/
theorem children_pass {child child' : Byte}
    (hloop : childLoop r 256 child = childLoop r 256 child')
    (hempty : child = 17 ∨ ∀ n, r.get child.toNat = .ok n → n.isEmpty = true)
    (hends : ∃ x, childLoop r 256 child' = .ok x) :
    children that r { b with child := child } below k onwards =
      children that r { b with child := child' } below k.clear onwards := by
  obtain ⟨x, hx⟩ := hends
  simp only [children, h.itemCount, h.isList, liftM_ok_bind, beq_self_eq_true,
    Bool.and_self, check_true, hloop, hx]
  by_cases hexit : x = 17
  · rw [if_pos hexit, if_pos hexit]
    rfl
  · have hne : x ≠ child := by
      rintro rfl
      obtain ⟨n, hn, hused⟩ := (childLoop_eq_ok hx).resolve_left hexit
      have := hempty.resolve_left hexit n hn
      rw [hused] at this
      cases this
    rw [if_neg hexit, if_neg hexit, if_neg hne]
    simp only [NibbleSlice.clear, ite_self]

theorem children_empty {i : Nibble} (hi : slots i = .empty) :
    children that r { b with child := childByte i } below k onwards =
      children that r { b with child := childByte (i + 1) } below k.clear
        onwards := by
  have hle : i.val + 1 ≤ 16 := i.isLt
  obtain ⟨x, hx⟩ := exists_childLoop h hle (by omega : 16 < i.val + 1 + 255)
  have hskip : childLoop r 256 (childByte i) =
      childLoop r 255 (childByte (i + 1)) := childLoop_empty h hi 255
  have hmore : childLoop r 256 (childByte (i + 1)) = .ok x := childLoop_succ hx
  refine children_pass h that b below k onwards ?_ (.inr ?_) ⟨x, hmore⟩
  · rw [hskip, hx, hmore]
  · intro n hn
    rw [toNat_childByte i.isLt, h.get i (by omega)] at hn
    cases hn
    exact (isEmpty_slot_iff h i).2 hi

theorem children_noValue (hvalue : value = none) :
    children that r { b with child := 16 } below k onwards =
      children that r { b with child := childByte 0 } below k.clear
        onwards := by
  have hempty : (c 16).isEmpty = true := by
    rw [h.rep_value.isEmpty, hvalue]
    rfl
  obtain ⟨x, hx⟩ := exists_childLoop h (Nat.zero_le 16)
    (by omega : 16 < 0 + 255)
  have hskip : childLoop r 256 16 = childLoop r 255 (childByte 0) := by
    have hget : r.get (16 : Byte).toNat = .ok (c 16) := h.get 16 (by omega)
    rw [childLoop, if_neg (by decide), hget, ok_bind, if_pos hempty]
    rfl
  have hmore : childLoop r 256 (childByte 0) = .ok x := childLoop_succ hx
  refine children_pass h that b below k onwards ?_ (.inr ?_) ⟨x, hmore⟩
  · rw [hskip, hx, hmore]
  · intro n hn
    rw [show r.get (16 : Byte).toNat = .ok (c 16) from h.get 16 (by omega)] at hn
    cases hn
    exact hempty

theorem children_value {x : Bytes} (hvalue : value = some x) (hx : x ≠ []) :
    children that r { b with child := 16 } below k onwards =
      pure ⟨{ b with child := 16 } :: below, that⟩ := by
  have hused : (c 16).isEmpty ≠ true := by
    rw [h.rep_value.isEmpty, hvalue]
    simpa [RLPTree.payload] using hx
  have hloop : childLoop r 256 16 = .ok 16 := by
    have hget : r.get (16 : Byte).toNat = .ok (c 16) := h.get 16 (by omega)
    rw [childLoop, if_neg (by decide), hget, ok_bind, if_neg hused]
  simp only [children, h.itemCount, h.isList, liftM_ok_bind, beq_self_eq_true,
    Bool.and_self, check_true, hloop]
  rfl

theorem children_exit :
    children that r { b with child := childByte 16 } below k onwards =
      onwards below k.clear := by
  simp only [children, h.itemCount, h.isList, liftM_ok_bind, beq_self_eq_true,
    Bool.and_self, check_true, childLoop_exit r 255, ↓reduceIte]

/-- A child that is not empty is put on the trail. -/
theorem run_children_used {i : Nibble} (hi : slots i ≠ .empty)
    (hheld : Held sha3 (DB.lookup db) (slots i))
    (hwithin : Within S.bound 0 (slots i)) {path : List Nibble}
    (hkey : b.key = hexPrefix false path)
    (hshort : path.length + 1 < 2 ^ 31 - 1) :
    run DB.handler (children (some g) r { b with child := childByte i } below k
        onwards) db =
      run DB.handler (onwards (⟨enc sha3 (slots i),
        hexPrefix false (path ++ [i]), 255⟩ ::
          { b with child := childByte i } :: below) k) db := by
  have hjoin : hexPrefixEncodeJoin (keyOfHexPrefix b.key) ⟨[i.toByte], 1⟩
      false = .ok (hexPrefix false (path ++ [i])) := by
    rw [hkey]
    exact (shows_keyOfHexPrefix false (by omega)).encode_join (shows_nibble i) false
  have hget : r.get (childByte i).toNat = .ok (c i) := by
    rw [toNat_childByte i.isLt, h.get i (by omega)]
  simp only [children, h.itemCount, h.isList, liftM_ok_bind, beq_self_eq_true,
    Bool.and_self, check_true, childLoop_used h hi 255,
    childByte_ne_exit i.isLt, childByte_ne_value i.isLt, ↓reduceIte, hget]
  rw [run_derefIn_bind hi hheld hwithin (h.rep_slot i)]
  simp only [childByte_nibble, hjoin, liftM_ok_bind]

end Round

end Trie

end Web3Core
