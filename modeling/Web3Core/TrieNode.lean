/-
Tries of nibbles as trees of RLP items.  A node is a list of two or of 17
items; it refers to a child by the hash of its encoding, or holds the child
itself where that is shorter.
-/
import Mathlib.Algebra.BigOperators.Fin
import Web3Core.PatriciaRemove
import Web3Core.TrieCommon

namespace Web3Core

open RLPTree (encode encodeItems length_encodeData_le length_encode_list_le
  length_encodeItems_le)

abbrev Trie := Patricia Nibble Bytes

namespace Trie

section Node

variable (sha3 : Bytes → H256)

/-- What a node holds in place of the child `n`. -/
def refer (n : RLPTree) : RLPTree :=
  if (encode n).length < 32 then n else .data (sha3 (encode n)).data

/-- The items of a branch. -/
def branchItems (slots : Nibble → RLPTree) (value : Option Bytes) :
    List RLPTree :=
  List.ofFn slots ++ [.data (value.getD [])]

/-- The node at the top of a trie. -/
def node : Trie → RLPTree
  | .empty => .data []
  | .leaf key value => .list [.data (hexPrefix true key), .data value]
  | .ext key child =>
      .list [.data (hexPrefix false key), refer sha3 (node child)]
  | .branch slots value =>
      .list (branchItems (fun i => refer sha3 (node (slots i))) value)

/-- The encoding of a trie's top node. -/
def enc (t : Trie) : Bytes := encode (node sha3 t)

def hash (t : Trie) : H256 := sha3 (enc sha3 t)

/-- What a node above the trie holds for it. -/
def ref (t : Trie) : RLPTree := refer sha3 (node sha3 t)

/-- The trie is referred to by its hash. -/
def Big (t : Trie) : Prop := 32 ≤ (enc sha3 t).length

instance (t : Trie) : Decidable (Big sha3 t) :=
  inferInstanceAs (Decidable (32 ≤ _))

end Node

variable {sha3 : Bytes → H256}

@[simp] theorem node_ext (key : List Nibble) (child : Trie) :
    node sha3 (.ext key child) =
      .list [.data (hexPrefix false key), ref sha3 child] := rfl

@[simp] theorem node_branch (slots : Nibble → Trie) (value : Option Bytes) :
    node sha3 (.branch slots value) =
      .list (branchItems (fun i => ref sha3 (slots i)) value) := rfl

@[simp] theorem length_branchItems (slots : Nibble → RLPTree)
    (value : Option Bytes) : (branchItems slots value).length = 17 := by
  simp [branchItems]

@[simp] theorem branchItems_slot (slots : Nibble → RLPTree)
    (value : Option Bytes) (i : Nibble) :
    (branchItems slots value)[i.val]? = some (slots i) := by
  have hi : i.val < (List.ofFn slots).length := by simp
  rw [branchItems, List.getElem?_append_left hi, List.getElem?_eq_getElem hi,
    List.getElem_ofFn]

@[simp] theorem branchItems_value (slots : Nibble → RLPTree)
    (value : Option Bytes) :
    (branchItems slots value)[16]? = some (.data (value.getD [])) := by
  rw [branchItems, List.getElem?_append_right (by simp)]
  simp

theorem ref_of_big {t : Trie} (h : Big sha3 t) :
    ref sha3 t = .data (hash sha3 t).data := by
  have hlen : ¬ (encode (node sha3 t)).length < 32 := Nat.not_lt.2 h
  rw [ref, refer, if_neg hlen]
  rfl

theorem ref_of_not_big {t : Trie} (h : ¬ Big sha3 t) :
    ref sha3 t = node sha3 t := by
  have hlen : (encode (node sha3 t)).length < 32 := Nat.not_le.1 h
  rw [ref, refer, if_pos hlen]

theorem not_big_empty : ¬ Big sha3 .empty := by
  simp [Big, enc, node, encode, RLPTree.encodeData, RLPTree.header]

@[simp] theorem ref_empty : ref sha3 .empty = .data [] :=
  ref_of_not_big not_big_empty

@[simp] theorem enc_empty : enc sha3 .empty = rlpNull := rfl

theorem enc_ne_nil (t : Trie) : enc sha3 t ≠ [] := RLPTree.encode_ne_nil _

theorem node_isList {t : Trie} (h : t ≠ .empty) :
    (node sha3 t).isList = true := by
  cases t with
  | empty => exact absurd rfl h
  | leaf | ext | branch => rfl

/-- Only the empty trie has an empty payload. -/
theorem payload_node_ne_nil {t : Trie} (h : t ≠ .empty) :
    (node sha3 t).payload ≠ [] := by
  have hne : ∀ (u : RLPTree) us, encodeItems (u :: us) ≠ [] := by
    intro u us hnil
    rw [RLPTree.encodeItems, List.append_eq_nil_iff] at hnil
    exact RLPTree.encode_ne_nil u hnil.1
  cases t with
  | empty => exact absurd rfl h
  | leaf key value => exact hne _ _
  | ext key child => exact hne _ _
  | branch slots value =>
      have hitems : branchItems (fun i => ref sha3 (slots i)) value =
          ref sha3 (slots 0) ::
            ((List.ofFn fun i => ref sha3 (slots i)).tail ++
              [.data (value.getD [])]) := by
        simp [branchItems, List.ofFn_succ]
      rw [node_branch, hitems]
      exact hne _ _

theorem payload_ref_eq_nil_iff {t : Trie} :
    (ref sha3 t).payload = [] ↔ t = .empty := by
  constructor
  · intro h
    by_contra hne
    by_cases hbig : Big sha3 t
    · rw [ref_of_big hbig] at h
      have := congrArg List.length h
      rw [RLPTree.payload, (hash sha3 t).size_data] at this
      cases this
    · rw [ref_of_not_big hbig] at h
      exact payload_node_ne_nil hne h
  · rintro rfl
    rw [ref_empty]
    rfl

theorem length_encode_ref_le (t : Trie) :
    (encode (ref sha3 t)).length ≤ 33 := by
  by_cases hbig : Big sha3 t
  · have hsize := (hash sha3 t).size_data
    have hsingle : ¬ ((hash sha3 t).data.length = 1 ∧
        ((hash sha3 t).data.headD 0).toNat < 0x80) := by omega
    rw [ref_of_big hbig, encode, RLPTree.encodeData, if_neg hsingle,
      RLPTree.header, hsize]
    simp [hsize]
  · rw [ref_of_not_big hbig]
    exact (Nat.not_le.1 hbig).le.trans (by omega)

/-! The sizes of what a trie holds. -/

/-- A value that may be stored: not empty, and as short as byte strings are. -/
def Storable (x : Bytes) : Prop := x ≠ [] ∧ x.length < 2 ^ 63

/-- No extension has an empty key or child, values can be stored, and keys
that go on at the depth `d` end before the depth `bound`. -/
def Within (bound : Nat) : Nat → Trie → Prop
  | _, .empty => True
  | d, .leaf key value => Storable value ∧ d + key.length < bound
  | d, .ext key child =>
      key ≠ [] ∧ child ≠ .empty ∧ d + key.length < bound ∧
        Within bound (d + key.length) child
  | d, .branch slots value =>
      d < bound ∧ (∀ i, Within bound (d + 1) (slots i)) ∧
        ∀ x, value = some x → Storable x

theorem Within.mono {bound bound' d d' : Nat} {t : Trie}
    (h : Within bound d t) (hle : d' + bound ≤ d + bound') :
    Within bound' d' t := by
  induction t generalizing d d' with
  | empty => trivial
  | leaf key value => exact ⟨h.1, by have := h.2; omega⟩
  | ext key child ih =>
      obtain ⟨hkey, hchild, hlt, hbelow⟩ := h
      exact ⟨hkey, hchild, by omega, ih hbelow (by omega)⟩
  | branch slots value ih =>
      exact ⟨by have := h.1; omega, fun i => ih i (h.2.1 i) (by omega), h.2.2⟩

theorem Within.lt {bound d : Nat} {t : Trie} (h : Within bound d t)
    (hne : t ≠ .empty) : d < bound := by
  cases t with
  | empty => exact absurd rfl hne
  | leaf key value =>
      have := h.2
      omega
  | ext key child =>
      have := h.2.2.1
      omega
  | branch slots value => exact h.1

theorem Within.child {bound : Nat} {key : List Nibble} {child : Trie}
    (h : Within bound 0 (.ext key child)) : Within bound 0 child :=
  h.2.2.2.mono (by omega)

theorem Within.slot {bound : Nat} {slots : Nibble → Trie}
    {value : Option Bytes} (h : Within bound 0 (.branch slots value))
    (i : Nibble) : Within bound 0 (slots i) :=
  (h.2.1 i).mono (by omega)

theorem within_update {B d : Nat} {slots : Nibble → Trie}
    {value value' : Option Bytes} {i : Nibble} {t : Trie}
    (h : Within B d (.branch slots value)) (ht : Within B (d + 1) t)
    (hvalue : ∀ x, value' = some x → Storable x) :
    Within B d (.branch (Function.update slots i t) value') := by
  refine ⟨h.1, fun j => ?_, hvalue⟩
  by_cases hji : j = i
  · subst hji
    rwa [Function.update_self]
  · rw [Function.update_of_ne hji]
    exact h.2.1 j

variable (sha3) in
/-- The nodes of a trie within the bound are short enough to be read. -/
theorem Within.fits {bound d : Nat} {t : Trie} (h : Within bound d t)
    (hbound : bound ≤ 2 ^ 31 - 1) : (node sha3 t).Fits := by
  have hkey : ∀ leaf (key : List Nibble), key.length < 2 ^ 64 →
      (encode (.data (hexPrefix leaf key))).length ≤ key.length / 2 + 10 := by
    intro leaf key hlt
    have hlen := length_hexPrefix leaf key
    have := length_encodeData_le (b := hexPrefix leaf key) (by omega)
    omega
  cases t with
  | empty => exact (by decide : (RLPTree.data []).Fits)
  | leaf key value =>
      have hlt := h.2
      have hvalue := h.1.2
      have hk := hkey true key (by omega)
      have hv := length_encodeData_le (b := value) (by omega)
      have hitems : (encodeItems [.data (hexPrefix true key), .data value]).length ≤
          key.length / 2 + value.length + 19 := by
        simp only [RLPTree.encodeItems, List.append_nil, List.length_append]
        omega
      have := length_encode_list_le (show (encodeItems
        [.data (hexPrefix true key), .data value]).length < 2 ^ 64 by omega)
      rw [RLPTree.Fits, node]
      omega
  | ext key child =>
      have hlt := h.2.2.1
      have hk := hkey false key (by omega)
      have hc : (encode (ref sha3 child)).length ≤ 33 :=
        length_encode_ref_le child
      have hitems : (encodeItems [.data (hexPrefix false key),
          ref sha3 child]).length ≤ key.length / 2 + 43 := by
        simp only [RLPTree.encodeItems, List.append_nil, List.length_append]
        omega
      have := length_encode_list_le (show (encodeItems
        [.data (hexPrefix false key), ref sha3 child]).length < 2 ^ 64 by omega)
      rw [RLPTree.Fits, node_ext]
      omega
  | branch slots value =>
      have hvalue : (value.getD []).length < 2 ^ 63 := by
        cases value with
        | none => simp
        | some x => exact (h.2.2 x rfl).2
      have hv := length_encodeData_le (b := value.getD []) (by omega)
      have hs : (encodeItems (List.ofFn fun i => ref sha3 (slots i))).length ≤
          16 * 33 := by
        refine (length_encodeItems_le (n := 33) fun t ht => ?_).trans (by simp)
        obtain ⟨i, rfl⟩ := List.mem_ofFn.1 ht
        exact length_encode_ref_le (slots i)
      have hitems : (encodeItems (branchItems (fun i => ref sha3 (slots i))
          value)).length ≤ (value.getD []).length + 9 + 16 * 33 := by
        rw [branchItems, RLPTree.encodeItems_append, List.length_append]
        simp only [RLPTree.encodeItems, List.append_nil]
        exact (Nat.add_le_add hs hv).trans (by omega)
      have := length_encode_list_le (show (encodeItems (branchItems
        (fun i => ref sha3 (slots i)) value)).length < 2 ^ 64 by omega)
      rw [RLPTree.Fits, node_branch]
      omega

end Trie

end Web3Core
