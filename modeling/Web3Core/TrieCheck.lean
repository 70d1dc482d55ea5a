/-
The self-check of `TrieDB.h`: it walks through the whole trie and strikes off
the hashes that the database counts references for; none must be left over.
-/
import Web3Core.RLPRoundTrip
import Web3Core.TrieContents

namespace Web3Core

open Program

/-- `h256Hash`, a set of hashes. -/
abbrev H256Hash := List H256

namespace GenericTrieDB

section

variable (sha3 : Bytes → H256) (root : H256)

/-- `descendKey`, given `descendList`. -/
def descendKey (descendList : RLP → H256Hash → Bool → DBProgram H256Hash)
    (k : H256) (keyMask : H256Hash) (wasExt : Bool) : DBProgram H256Hash :=
  let keyMask' := keyMask.filter (· ≠ k)
  if k = root ∧ k = shaNull sha3 then pure keyMask'
  else do
    let s ← node k
    let r ← RLP.ofBytes s
    descendList r keyMask' wasExt

/-- `descendEntry`, given `descendList`. -/
def descendEntry (descendList : RLP → H256Hash → Bool → DBProgram H256Hash)
    (r : RLP) (keyMask : H256Hash) (wasExt : Bool) : DBProgram H256Hash := do
  let hashed ← andThen r.isData (do
    let l ← r.length
    .ok (l == 32))
  if hashed then do
    let h ← r.toHash 32 .strict
    descendKey sha3 root descendList h keyMask wasExt
  else if r.isList then descendList r keyMask wasExt
  else .throw .invalidTrie

/-- A round of the loop over the slots of a branch. -/
def descendSlot (descendList : RLP → H256Hash → Bool → DBProgram H256Hash)
    (r : RLP) (keyMask : H256Hash) (i : Nat) : DBProgram H256Hash := do
  let c ← r.get i
  if c.isEmpty then pure keyMask
  else descendEntry sha3 root descendList c keyMask false

/-- `descendList`, without an output stream. -/
def descendList : Nat → RLP → H256Hash → Bool → DBProgram H256Hash
  | 0, _, _, _ => .throw .outOfFuel
  | fuel + 1, r, keyMask, wasExt => do
      let twoItem ← andThen r.isList (do
        let itemCount ← r.itemCount
        .ok (itemCount == 2))
      if twoItem && !wasExt then do
        let leaf ← isLeaf r
        if !leaf then do
          let c ← r.get 1
          descendEntry sha3 root (descendList fuel) c keyMask true
        else pure keyMask
      else do
        let branch ← andThen r.isList (do
          let itemCount ← r.itemCount
          .ok (itemCount == 17))
        if branch then
          (List.range 16).foldlM
            (descendSlot sha3 root (descendList fuel) r) keyMask
        else .throw .invalidTrie

end

section

variable (sha3 : Bytes → H256) (fuel : Nat)

def leftOvers (t : GenericTrieDB) : DBProgram H256Hash := do
  let k ← dbKeys
  descendKey sha3 t.root (descendList sha3 t.root fuel) t.root k false

/-- `check`. -/
def checkTrie (t : GenericTrieDB) (requireNoLeftOvers : Bool) :
    DBProgram Bool :=
  Program.orElse (do
    let k ← leftOvers sha3 fuel t
    pure (k.isEmpty || !requireNoLeftOvers)) (pure false)

end

end GenericTrieDB

open GenericTrieDB

namespace Trie

variable {sha3 : Bytes → H256} {σ : Type} [LawfulDB σ] {S : Scope sha3}
  {db : σ} {t : Trie} {root : H256} {fuel d : Nat}

/-- The hashes that no node of the trie refers to stay in the mask. -/
def strike (f : H256 → Nat) (keyMask : H256Hash) : H256Hash :=
  keyMask.filter fun h => f h = 0

theorem strike_strike (f g : H256 → Nat) (keyMask : H256Hash) :
    strike g (strike f keyMask) = strike (f + g) keyMask := by
  rw [strike, strike, strike, List.filter_filter]
  refine List.filter_congr fun h _ => ?_
  simp [Bool.and_comm]

theorem strike_zero (keyMask : H256Hash) : strike 0 keyMask = keyMask := by
  simp [strike]

/-- A walk below a node strikes off what the trie refers to. -/
def Descends (sha3 : Bytes → H256) (db : σ)
    (descendList : RLP → H256Hash → Bool → DBProgram H256Hash) (t : Trie) :
    Prop :=
  ∀ ⦃r : RLP⦄ (keyMask : H256Hash) (wasExt : Bool),
    r.Rep (Trie.node sha3 t) → (wasExt = true → t.IsBranch) →
      wp DB.handler (fun _ => True) (descendList r keyMask wasExt) db
        fun keyMask' db' =>
          keyMask' = strike (refsIn sha3 t) keyMask ∧ db' = db

theorem wp_descendEntry
    {descendList : RLP → H256Hash → Bool → DBProgram H256Hash}
    (hnull : DB.lookup db (shaNull sha3) ≠ [] →
      DB.lookup db (shaNull sha3) = rlpNull)
    (hne : t ≠ .empty) (hheld : Held sha3 (DB.lookup db) t)
    (hwithin : Within S.bound 0 t) (hlist : Descends sha3 db descendList t)
    {r : RLP} (hr : r.Rep (ref sha3 t)) (keyMask : H256Hash) {wasExt : Bool}
    (hext : wasExt = true → t.IsBranch) :
    wp DB.handler (fun _ => True)
      (descendEntry sha3 root descendList r keyMask wasExt) db
      fun keyMask' db' => keyMask' = strike (refs sha3 t) keyMask ∧ db' = db := by
  by_cases hbig : Big sha3 t
  · obtain ⟨n, hn⟩ := exists_isHashOf hbig hwithin hr
    have hlength : r.length = .ok 32 := by
      rw [hr.length, ref_of_big hbig, RLPTree.payload, (hash sha3 t).size_data]
    have hroot : ¬ (hash sha3 t = root ∧ hash sha3 t = shaNull sha3) := by
      rintro ⟨-, heq⟩
      have henc := hheld.1 hbig
      rw [heq] at henc
      rw [hnull (by rw [henc]; exact enc_ne_nil t)] at henc
      have hlen : 32 ≤ (enc sha3 t).length := hbig
      rw [← henc] at hlen
      exact absurd hlen (by decide)
    simp only [descendEntry, hn.isData, andThen, ↓reduceIte, hlength, ok_bind,
      beq_self_eq_true, wp_ok_bind, hn.toHash, descendKey, hroot,
      wp_read_bind, hheld.1 hbig, hn.ofBytes]
    refine wp_mono (hlist _ wasExt hn.rep hext) ?_
    rintro keyMask' db' ⟨rfl, rfl⟩
    refine ⟨?_, rfl⟩
    rw [refs, own_of_big hbig, ← strike_strike]
    congr 1
    refine List.filter_congr fun h _ => ?_
    rw [decide_eq_decide]
    by_cases hh : h = hash sha3 t
    · simp [hh]
    · simp [hh]
  · rw [ref_of_not_big hbig] at hr
    have hisList : r.isList = true := by rw [hr.isList, node_isList hne]
    have hisData : r.isData = false := by rw [hr.isData, node_isList hne]; rfl
    simp only [descendEntry, hisData, andThen, Bool.false_eq_true, ↓reduceIte,
      wp_ok_bind, hisList, refs_of_not_big hbig]
    exact hlist _ wasExt hr hext

/-- The references in the slots of a branch before the slot `k`. -/
def refsBefore (sha3 : Bytes → H256) (slots : Nibble → Trie) (k : Nat) :
    H256 → Nat :=
  ∑ i ∈ Finset.univ.filter (fun i : Nibble => i.val < k), refs sha3 (slots i)

theorem refsBefore_zero (slots : Nibble → Trie) :
    refsBefore sha3 slots 0 = 0 := by
  simp [refsBefore]

theorem refsBefore_succ (slots : Nibble → Trie) (i : Nibble) :
    refsBefore sha3 slots (i + 1) =
      refsBefore sha3 slots i + refs sha3 (slots i) := by
  have hinsert : Finset.univ.filter (fun j : Nibble => j.val < i.val + 1) =
      insert i (Finset.univ.filter fun j : Nibble => j.val < i.val) := by
    ext j
    simp only [Finset.mem_filter, Finset.mem_univ, true_and,
      Finset.mem_insert, Fin.ext_iff]
    omega
  rw [refsBefore, hinsert, Finset.sum_insert (by simp), add_comm]
  rfl

theorem refsBefore_sixteen (slots : Nibble → Trie) (value : Option Bytes) :
    refsBefore sha3 slots 16 = refsIn sha3 (.branch slots value) := by
  rw [refsBefore, refsIn_branch, Finset.filter_true_of_mem fun i _ => i.isLt]

/-- The walk strikes off what the trie refers to, given a call for each nibble
that its keys may have. -/
theorem descends (hnull : DB.lookup db (shaNull sha3) ≠ [] →
      DB.lookup db (shaNull sha3) = rlpNull)
    (ht : t.Canonical) (hne : t ≠ .empty)
    (hstored : Stored sha3 (DB.lookup db) t) (hwithin : Within S.bound d t)
    (hfuel : S.bound ≤ fuel + d) :
    Descends sha3 db (descendList sha3 root fuel) t := by
  induction fuel generalizing t d with
  | zero =>
      have hlt := hwithin.lt hne
      omega
  | succ fuel ih =>
      intro r keyMask wasExt hr hext
      have hwithin₀ : Within S.bound 0 t := hwithin.mono (by omega)
      cases t with
      | empty => exact absurd rfl hne
      | leaf key value =>
          obtain ⟨k, c₀, c, hpair⟩ := exists_isPair hr hwithin₀.leaf_short
          have hwas : wasExt = false := by
            cases wasExt with
            | false => rfl
            | true => exact (hext rfl).elim
          simp only [descendList, hpair.isList, andThen, ↓reduceIte,
            hpair.itemCount, ok_bind, beq_self_eq_true, wp_ok_bind, hwas,
            Bool.not_false, Bool.and_self, hpair.isLeaf, Bool.not_true,
            Bool.false_eq_true]
          exact ⟨(strike_zero keyMask).symm, rfl⟩
      | ext key child =>
          obtain ⟨hkey, hbranch, hcanonical⟩ := ht
          obtain ⟨-, hchild, -, hbelow⟩ := hwithin
          obtain ⟨k, c₀, c, hpair⟩ := exists_isPair hr hwithin₀.ext_short
          have hpos := List.length_pos_of_ne_nil hkey
          have hwas : wasExt = false := by
            cases wasExt with
            | false => rfl
            | true => exact (hext rfl).elim
          simp only [descendList, hpair.isList, andThen, ↓reduceIte,
            hpair.itemCount, ok_bind, beq_self_eq_true, wp_ok_bind, hwas,
            Bool.not_false, Bool.and_self, hpair.isLeaf, hpair.second]
          exact wp_descendEntry hnull hchild hstored hwithin₀.child
            (ih hcanonical hchild hstored.2 hbelow (by omega)) hpair.rep_second
            keyMask fun _ => hbranch
      | branch slots value =>
          obtain ⟨c, hnode⟩ := exists_branch hr
          have htwo : ((17 : Nat) == 2) = false := rfl
          simp only [descendList, hnode.isList, andThen, ↓reduceIte,
            hnode.itemCount, ok_bind, htwo, Bool.false_and, beq_self_eq_true,
            wp_ok_bind, Bool.false_eq_true]
          refine wp_mono (wp_range (I := fun i keyMask' db' =>
            keyMask' = strike (refsBefore sha3 slots i) keyMask ∧ db' = db)
            ?_ ⟨?_, rfl⟩) ?_
          · rintro i hi keyMask' db' ⟨rfl, rfl⟩
            have hslot := hnode.rep_slot ⟨i, hi⟩
            rw [descendSlot, hnode.get i (by omega), wp_ok_bind,
              refsBefore_succ slots ⟨i, hi⟩, ← strike_strike]
            by_cases hempty : slots ⟨i, hi⟩ = .empty
            · have hnil : (c i).isEmpty = true := by
                rw [hslot.isEmpty, hempty, ref_empty]
                rfl
              rw [if_pos hnil, hempty, refs_empty, strike_zero]
              exact ⟨rfl, rfl⟩
            · have hsome : (c i).isEmpty = false := by
                rw [hslot.isEmpty, List.isEmpty_eq_false_iff, ne_eq,
                  payload_ref_eq_nil_iff]
                exact hempty
              rw [hsome, if_neg Bool.false_ne_true]
              exact wp_descendEntry hnull hempty (hstored ⟨i, hi⟩)
                (hwithin₀.slot ⟨i, hi⟩)
                (ih (ht.1 _) hempty (hstored ⟨i, hi⟩).2 (hwithin.2.1 ⟨i, hi⟩)
                  (by omega)) hslot _ (by simp)
          · rw [refsBefore_zero, strike_zero]
          · rintro keyMask' db' ⟨rfl, rfl⟩
            rw [refsBefore_sixteen slots value]
            exact ⟨rfl, rfl⟩

theorem enc_eq_rlpNull_iff (hwithin : Within S.bound d t) :
    enc sha3 t = rlpNull ↔ t = .empty := by
  constructor
  · intro heq
    by_contra hne
    have hnode := RLPTree.encode_inj (hwithin.fits sha3 S.bound_le)
      (by decide : (RLPTree.data []).Fits) heq
    have hlist := @node_isList sha3 t hne
    rw [hnode] at hlist
    cases hlist
  · rintro rfl
    exact enc_empty

/-- Nothing is left over of a trie that is the only user of its database. -/
theorem wp_checkTrie {g : GenericTrieDB} (h : Opened S db g t)
    (ht : t.Canonical) (hnull : rlpNull ∈ S.strings)
    (hkeys : ∀ x ∈ DB.keys db, total sha3 t x ≠ 0) (hfuel : S.bound ≤ fuel)
    (requireNoLeftOvers : Bool) :
    wp DB.handler (fun _ => True) (checkTrie sha3 fuel g requireNoLeftOvers) db
      fun b db' => b = true ∧ db' = db := by
  have hnull' : DB.lookup db (shaNull sha3) ≠ [] →
      DB.lookup db (shaNull sha3) = rlpNull := by
    intro hne
    obtain ⟨u, -, -, hlookup, hhash, hu⟩ := h.consistent.known _ hne
    rw [hlookup]
    exact S.inj hu hnull hhash
  have hroot : g.root = shaNull sha3 ↔ t = .empty := by
    rw [← enc_eq_rlpNull_iff h.within, h.root]
    constructor
    · intro heq
      have htop := h.top
      rw [heq] at htop
      rw [← htop]
      exact hnull' (by rw [htop]; exact enc_ne_nil t)
    · intro heq
      rw [hash, heq]
      rfl
  have hnone : ∀ f : H256 → Nat, (∀ x ∈ DB.keys db, x ≠ g.root → f x ≠ 0) →
      strike f ((DB.keys db).filter (· ≠ g.root)) = [] := by
    intro f hf
    rw [strike, List.filter_filter, List.filter_eq_nil_iff]
    intro x hx
    by_cases hxr : x = g.root
    · simp [hxr]
    · simp [hxr, hf x hx hxr]
  have hkeep : ∀ x ∈ DB.keys db, x ≠ g.root → refsIn sha3 t x ≠ 0 := by
    intro x hx hne
    have htotal := hkeys x hx
    rw [h.root] at hne
    simpa [total, hne] using htotal
  refine wp_orElse _ (wp_bind_of (Q := fun k db' => k = [] ∧ db' = db) ?_ ?_)
  · show wp DB.handler (fun _ => True) (dbKeys >>= fun k =>
      descendKey sha3 g.root (descendList sha3 g.root fuel) g.root k false) db _
    refine fun _ => ?_
    show wp DB.handler (fun _ => True) (descendKey sha3 g.root
      (descendList sha3 g.root fuel) g.root (DB.keys db) false) db _
    rw [descendKey]
    by_cases hempty : t = .empty
    · rw [if_pos ⟨rfl, hroot.2 hempty⟩]
      refine ⟨?_, rfl⟩
      rw [← strike_zero ((DB.keys db).filter (· ≠ g.root))]
      refine hnone 0 fun x hx hne => absurd rfl (hempty ▸ hkeep x hx hne)
    · obtain ⟨r, hr, hrep⟩ := RLP.Rep.ofBytes (h.within.fits sha3 S.bound_le)
      have henc : RLP.ofBytes (enc sha3 t) = .ok r := hr
      rw [if_neg fun hand => hempty (hroot.1 hand.2), wp_read_bind, h.root,
        h.top, henc, wp_ok_bind, ← h.root]
      refine wp_mono (descends hnull' ht hempty h.stored h.within (by omega) _
        false hrep (by simp)) ?_
      rintro k db' ⟨rfl, rfl⟩
      exact ⟨hnone _ hkeep, rfl⟩
  · rintro k db' ⟨rfl, rfl⟩
    exact ⟨rfl, rfl⟩

end Trie

end Web3Core
