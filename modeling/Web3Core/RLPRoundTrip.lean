/-
Writing and reading undo each other.  Reading back what was written shows the
tree through every accessor; and what can be read at all was written for the
tree it reads as, so that a tree has one encoding.
-/
import Web3Core.RLPItems

namespace Web3Core

open BytesConstRef (window)

open RLPTree (encode encodeItems header)

namespace RLP

/-- Every accessor of an item answers what the tree says, down to the
leaves. -/
inductive Reads : RLP → RLPTree → Prop
  | data {r : RLP} {b : Bytes} (hdata : r.isData = true)
      (hlist : r.isList = false) (hbytes : r.toBytes = .ok b) :
      Reads r (.data b)
  | list {r : RLP} {items : List RLPTree} (children : List RLP)
      (hdata : r.isData = false) (hlist : r.isList = true)
      (hcount : r.itemCount = .ok items.length)
      (hiterator : r.toList = .ok children)
      (hsubscript : ∀ indices, List.Forall₂ (fun i outcome =>
          ∀ child, children[i]? = some child → outcome = .ok child)
        indices (r.subscripts indices))
      (hchildren : List.Forall₂ Reads children items) :
      Reads r (.list items)

theorem Rep.reads {r : RLP} {t : RLPTree} (h : Rep r t) : Reads r t := by
  induction t using RLPTree.induct generalizing r with
  | data b => exact .data h.isData h.isList h.toBytes
  | list items ih =>
      obtain ⟨rs, hlist, hitems, hsub⟩ := h.exists_items_subscripts
      refine .list rs h.isData h.isList h.itemCount hlist hsub ?_
      refine List.forall₂_iff_get.2 ⟨hitems.length_eq, fun i h₁ h₂ => ?_⟩
      exact ih _ (List.get_mem items ⟨i, h₂⟩) (hitems.get h₁ h₂)

/-- An item stands for one tree. -/
theorem Rep.unique {r : RLP} {t u : RLPTree} (ht : Rep r t) (hu : Rep r u) :
    t = u := by
  induction t using RLPTree.induct generalizing r u with
  | data b =>
      cases u with
      | data c =>
          have hb := ht.toBytes
          rw [hu.toBytes] at hb
          rw [Except.ok.inj hb]
      | list items => cases ht.isList.symm.trans hu.isList
  | list items ih =>
      cases u with
      | data c => cases ht.isList.symm.trans hu.isList
      | list items' =>
          have hlen : items.length = items'.length :=
            Except.ok.inj (ht.itemCount.symm.trans hu.itemCount)
          refine congrArg RLPTree.list (List.ext_getElem hlen fun i h h' => ?_)
          obtain ⟨c, hc, hrep⟩ := ht.get (List.getElem?_eq_getElem h)
          obtain ⟨c', hc', hrep'⟩ := hu.get (List.getElem?_eq_getElem h')
          obtain rfl := Except.ok.inj (hc.symm.trans hc')
          exact ih _ (List.getElem_mem h) hrep hrep'

end RLP

/-- A tree can be told from its encoding. -/
theorem RLPTree.encode_inj {t u : RLPTree} (ht : t.Fits) (hu : u.Fits)
    (h : encode t = encode u) : t = u := by
  obtain ⟨r, hr, hrep⟩ := RLP.Rep.ofBytes ht
  obtain ⟨r', hr', hrep'⟩ := RLP.Rep.ofBytes hu
  rw [h] at hr
  obtain rfl := Except.ok.inj (hr.symm.trans hr')
  exact hrep.unique hrep'

/-- The encoding of an item by itself. -/
def RLPTree.encoded (t : RLPTree) : Except Exception Bytes := do
  let s ← t.write {}
  s.out

theorem mapM_encoded {items : List RLPTree}
    (h : ∀ t ∈ items, (encode t).length < 2 ^ 64) :
    items.mapM RLPTree.encoded = .ok (items.map encode) := by
  induction items with
  | nil => rfl
  | cons t ts ih =>
      have ht : t.encoded = .ok (encode t) :=
        RLPTree.out_write t (h t List.mem_cons_self)
      rw [List.mapM_cons, ht, ok_bind,
        ih fun u hu => h u (List.mem_cons_of_mem t hu)]
      rfl

/-- Reading what was written.  The stream of a whole tree has no open list;
its bytes, read back under any flags, show the tree; and a list can as well be
written from its encoded items. -/
theorem reads_of_write (t : RLPTree) (hfits : t.Fits) (flags : Strictness) :
    ∃ stream bytes, t.write {} = .ok stream ∧ stream.listStack = [] ∧
      stream.out = .ok bytes ∧
      (∃ r, RLP.ofRef (.ofBytes bytes) flags = .ok r ∧ r.Reads t) ∧
      ∀ items, t = .list items → ∃ children,
        items.mapM RLPTree.encoded = .ok children ∧
          (do let s ← RLPStream.appendListOf {} children.flatten
              s.out) = .ok bytes := by
  have hlen : (encode t).length < 2 ^ 64 := by
    unfold RLPTree.Fits at hfits
    omega
  have hrep : RLP.Rep { data := .ofBytes (encode t) } t :=
    .of_holds hfits (.whole _)
  refine ⟨⟨encode t, []⟩, encode t, ?_, rfl, rfl,
    ⟨_, hrep.ofRef flags, hrep.reads⟩, fun items ht => ?_⟩
  · rw [RLPTree.write_eq_appendRaw t {} hlen]
    simp [RLPStream.appendRaw, RLPStream.noteAppended, RLPStream.closeLists]
  · subst ht
    have hlt := RLPTree.length_encodeItems_lt items
    refine ⟨items.map encode, mapM_encoded fun u hu => ?_, ?_⟩
    · have := RLPTree.length_encode_le_of_mem hu
      omega
    · rw [RLPTree.flatten_map_encode,
        RLPTree.appendListOf_eq_appendRaw {} (hlt.trans hlen)]
      simp [RLPStream.appendRaw, RLPStream.noteAppended, RLPStream.closeLists,
        RLPStream.out, encode]

/-- A list with a list in it. -/
theorem reads_of_write_nested :
    ∃ stream bytes,
      RLPTree.write (.list [.data [1], .list [.data [0x80]]]) {} = .ok stream ∧
      stream.listStack = [] ∧ stream.out = .ok bytes ∧
      (∃ r, RLP.ofRef (.ofBytes bytes) .strict = .ok r ∧
        r.Reads (.list [.data [1], .list [.data [0x80]]])) ∧
      ∀ items, RLPTree.list [.data [1], .list [.data [0x80]]] = .list items →
        ∃ children, items.mapM RLPTree.encoded = .ok children ∧
          (do let s ← RLPStream.appendListOf {} children.flatten
              s.out) = .ok bytes :=
  reads_of_write _ (by decide) .strict

end Web3Core
