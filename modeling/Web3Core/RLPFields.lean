/-
Reading the fields of a list: calls of `operator[]` on one object, each on the
cache that the one before has left, and the conversions of the items.
-/
import Web3Core.RLPInt

namespace Web3Core

open RLPTree (encodeItems)

/-- The hash of a byte string of its size, or else zero. -/
def FixedHash.ofBytes (N : Nat) (b : Bytes) : FixedHash N :=
  RLP.alignRight N (if b.length = N then b else [])

namespace RLP

/-- The number of bytes in the data, or zero if it is not data. -/
def size (r : RLP) : Except Exception Nat :=
  if r.isData then r.length else .ok 0

def itemCountStrict (r : RLP) : Except Exception Nat :=
  if r.isList then r.items else .error .badCast

/-- `operator[]` on an object that is used on. -/
def access (i : Nat) : StateT RLP (Except Exception) RLP := fun r =>
  match r.subscript i with
  | (.ok item, r') => .ok (item, r')
  | (.error e, _) => .error e

/-- A list of which any items were accessed. -/
structure Listing (r : RLP) (ts : List RLPTree) : Prop where
  whole : Rep { data := r.data } (.list ts)
  fits : ∀ t ∈ ts, t.Fits
  short : ts.length < sizeMax
  cache : ∃ mem q, Holds mem q (encodeItems ts) ∧ CacheOk mem q ts r

variable {r c : RLP} {ts : List RLPTree} {t : RLPTree} {α β : Type}

theorem data_rewind (r : RLP) (i : Nat) : (rewind r i).2.data = r.data := by
  rw [rewind]
  split
  · split
    · rfl
    · split
      · rfl
      · rfl
  · rfl

theorem data_advance (r : RLP) : (advance r).2.data = r.data := by
  rw [advance]
  split
  · rfl
  · dsimp only
    split
    · rfl
    · rfl

theorem data_advanceTo (rounds i : Nat) (r : RLP) :
    (advanceTo rounds i r).2.data = r.data := by
  induction rounds generalizing r with
  | zero => rfl
  | succ rounds ih =>
      have hadvance := data_advance r
      rw [advanceTo]
      split
      · split
        · next heq =>
            rw [heq] at hadvance
            exact hadvance
        · next heq =>
            rw [heq] at hadvance
            rw [ih]
            exact hadvance
      · rfl

/-- Access to an item changes only the cache. -/
theorem data_subscript (r : RLP) (i : Nat) : (r.subscript i).2.data = r.data := by
  have hrewind := data_rewind r i
  rw [subscript]
  split
  · next heq =>
      rw [heq] at hrewind
      exact hrewind
  · next r' heq =>
      have hadvance := data_advanceTo (i - r'.lastIndex) i r'
      rw [heq] at hrewind
      split
      · next heq' =>
          rw [heq'] at hadvance
          exact hadvance.trans hrewind
      · next heq' =>
          rw [heq'] at hadvance
          exact hadvance.trans hrewind

theorem Rep.listing (h : Rep r (.list ts)) : Listing r ts := by
  obtain ⟨mem, q, hpayload, hholds, -, -⟩ := h.exists_items
  have hfits := h.fits
  have hcount := length_le_length_encodeItems ts
  have hlt := RLPTree.length_encodeItems_lt ts
  refine ⟨?_, h.fits_items, ?_, mem, q, hholds, ?_⟩
  · obtain ⟨mem', p, rfl, -⟩ := h.view
    exact h
  · unfold RLPTree.Fits at hfits
    unfold sizeMax
    omega
  · obtain ⟨mem', p, rfl, -⟩ := h.view
    exact .unused hpayload rfl rfl

/-- An item is read, and the list is left as it was. -/
theorem Listing.access (h : Listing r ts) {i : Nat} (ht : ts[i]? = some t) :
    ∃ c r', (RLP.access i).run r = .ok (c, r') ∧ Rep c t ∧ Listing r' ts := by
  obtain ⟨mem, q, hholds, hcache⟩ := h.cache
  obtain ⟨hi, rfl⟩ := List.getElem?_eq_some_iff.1 ht
  obtain ⟨hcache', hitem⟩ := subscript_cacheOk hholds h.fits h.short hcache i
  refine ⟨_, (r.subscript i).2, ?_, rep_itemView hholds h.fits hi,
    by rw [data_subscript]; exact h.whole, h.fits, h.short, mem, q, hholds,
    hcache'⟩
  show RLP.access i r = _
  have hpair : r.subscript i = (.ok { data := itemView mem q ts i },
      (r.subscript i).2) := Prod.ext (hitem hi) rfl
  rw [RLP.access, hpair]

theorem access_bind {i : Nat} {r' : RLP}
    (h : (access i).run r = .ok (c, r')) (f : RLP → StateT RLP (Except Exception) β) :
    (access i >>= f).run r = (f c).run r' := by
  rw [StateT.run_bind, h]
  rfl

theorem lift_bind {x : Except Exception α} {a : α} (h : x = .ok a)
    (f : α → StateT RLP (Except Exception) β) :
    ((liftM x : StateT RLP (Except Exception) α) >>= f).run r = (f a).run r := by
  rw [h]
  rfl

theorem bind_ok (x : Except Exception α) :
    (x >>= fun a => Except.ok a) = x := bind_pure x

theorem Rep.size {b : Bytes} (h : Rep r (.data b)) : r.size = .ok b.length := by
  rw [RLP.size, h.isData]
  exact h.length

theorem Rep.itemCountStrict (h : Rep r (.list ts)) :
    r.itemCountStrict = .ok ts.length := by
  have hcount := h.itemCount
  rw [RLP.itemCount, h.isList] at hcount
  rw [RLP.itemCountStrict, h.isList]
  exact hcount

/-- The number of items of a list that was accessed. -/
theorem Listing.itemCount (h : Listing r ts) : r.itemCount = .ok ts.length := by
  have hdata : r.itemCount = RLP.itemCount { data := r.data } := rfl
  rw [hdata]
  exact Rep.itemCount h.whole

/-- Data has no items. -/
theorem Rep.itemCount_data {b : Bytes} (h : Rep r (.data b)) :
    r.itemCount = .ok 0 := by
  rw [RLP.itemCount, h.isList]
  rfl

/-- A hash is read as it was written. -/
theorem Rep.toHash_data {N : Nat} {x : FixedHash N}
    (h : Rep r (.data x.data)) : r.toHash N .strict = .ok x := by
  rw [h.toHash x.size_data.le]
  refine congrArg _ (FixedHash.ext ?_)
  simp [alignRight, x.size_data]

end RLP

end Web3Core
