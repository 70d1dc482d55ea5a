/-
Removal of a stored key.  It takes the key out of the map and nothing else,
unless a branch is left with nothing but its own value: `isTwoItemNode` reads
the value as a hash, so it must be no longer than a hash, and what the database
holds under it decides what becomes of the branch.
-/
import Web3Core.TrieMisses

namespace Web3Core

open Program GenericTrieDB

open RLPTree (encode encodeItems partialList)

namespace Trie

variable {sha3 : Bytes → H256} {σ : Type} [LawfulDB σ] {S : Scope sha3}
  {db : σ} {t : Trie} {ns : List Nibble} {x : Bytes} {lone : Bytes → Trie}

/-- Nothing is left of a slot that holds just the leaf that is removed, nor in
the other slots. -/
theorem Alone.update_eq_empty {slots : Nibble → Trie} {i : Nibble} {u : Trie}
    (h : Alone slots i ns) (hleft : Patricia.remove lone (slots i) ns = some u) :
    ∀ j, Function.update slots i u j = .empty := by
  obtain ⟨⟨y, hy⟩, hothers⟩ := h
  have hempty : u = .empty := by
    rw [hy] at hleft
    simpa [Patricia.remove] using hleft.symm
  intro j
  by_cases hji : j = i
  · rw [hji, Function.update_self, hempty]
  · rw [Function.update_of_ne hji, hothers j hji]

/-- Where a branch is left with its value, the key of the value is looked up
in what takes the place of the branch. -/
theorem lookup_remove_of_strands {t' : Trie} (hlone : ∀ y, lone y ≠ .empty)
    (ht : t.Canonical) (h : Strands t ns x)
    (hleft : Patricia.remove lone t ns = some t') :
    ∃ p, Patricia.lookup t p = some x ∧ p ≠ ns ∧
      Patricia.lookup t' p = Patricia.lookup (lone x) [] := by
  induction t generalizing ns t' with
  | empty | leaf => exact h.elim
  | ext key child ih =>
      obtain ⟨⟨r, rfl⟩, hchild⟩ := h
      simp only [Patricia.remove, List.prefix_append, ↓reduceIte,
        List.drop_left, Option.map_eq_some_iff] at hleft hchild
      obtain ⟨u, hu, rfl⟩ := hleft
      obtain ⟨p, hp, hne, hlookup⟩ := ih ht.2.2 hchild hu
      refine ⟨key ++ p, by rw [Patricia.lookup_ext_append, hp],
        by simpa using hne, ?_⟩
      simpa using hlookup
  | branch slots value ih =>
      cases ns with
      | nil => exact h.elim
      | cons i ns =>
          simp only [Patricia.remove, Option.map_eq_some_iff] at hleft
          obtain ⟨u, hu, rfl⟩ := hleft
          rcases h with h | ⟨rfl, halone⟩
          · obtain ⟨p, hp, hne, hlookup⟩ := ih i (ht.1 i) h hu
            -- Only of a leaf nothing is left.
            have hfull : u ≠ .empty := by
              rintro rfl
              obtain ⟨y, hy⟩ := Patricia.eq_leaf_of_remove hlone (ht.1 i) hu
              rw [hy] at h
              exact h.elim
            have hcongr : Patricia.collapse lone (Function.update slots i u)
                value = Patricia.collapse (.leaf [])
                  (Function.update slots i u) value :=
              Patricia.collapse_congr fun y _ hall =>
                absurd (by simpa using hall i) hfull
            refine ⟨i :: p, hp, by simpa using hne, ?_⟩
            rw [hcongr, Patricia.lookup_collapse]
            simpa using hlookup
          · refine ⟨[], rfl, by simp, ?_⟩
            rw [Patricia.collapse_of_value (halone.update_eq_empty hu)]

/-- A value that does not fit a hash is asked for as one. -/
theorem fails_mergeUsed_value {orig : RLP} {slots : Nibble → Trie}
    (hr : orig.Rep (Trie.node sha3 (.branch slots (some x))))
    (hlong : 32 < x.length) :
    fails DB.handler (Writes S) (mergeUsed orig 16) db := by
  obtain ⟨c, hbranch⟩ := exists_branch hr
  have hvalue : (c 16).Rep (.data x) := hbranch.rep_value
  have hdata : (c 16).isData = true := hvalue.isData
  simp only [mergeUsed, hbranch.get 16 (by decide), isTwoItemNode, hdata,
    ↓reduceIte, hvalue.toHash_of_lt hlong, fails_ok_bind]
  trivial

/-- A leaf can give up its key. -/
theorem gives_leaf {y : Bytes} (hcons : Consistent S db)
    (hwithin : Within S.bound 0 (.leaf ns y)) :
    Gives S db (.leaf []) (.leaf ns y) ns where
  consistent := hcons
  canonical := trivial
  stored := trivial
  within := hwithin
  reaches _ := rfl
  short x hx := hx.elim
  replaces x hx := hx.elim
  nonempty x := by simp
  bounded x d hx hd hlt := ⟨hx, hlt⟩

/-- A branch is left with nothing but a value longer than a hash. -/
theorem failsAt_alone {slots : Nibble → Trie} {i : Nibble} {fuel : Nat}
    (hcons : Consistent S db)
    (hstored : Stored sha3 (DB.lookup db) (.branch slots (some x)))
    (hwithin : Within S.bound 0 (.branch slots (some x)))
    (halone : Alone slots i ns) (hfuel : ns.length < fuel)
    (hlong : 32 < x.length) :
    FailsAt S db (GenericTrieDB.deleteAt sha3 (fuel + 1))
      (.branch slots (some x)) (i :: ns) := by
  intro orig k hr hk
  obtain ⟨y, hy⟩ := halone.1
  obtain ⟨c, hbranch⟩ := exists_branch hr
  have hsize := hk.size_cons
  have hget : k.get 0 = .ok i.toByte := hk.get rfl
  have hgives : Gives S db (.leaf []) (slots i) ns := by
    have hslot := hwithin.slot i
    rw [hy] at hslot ⊢
    exact gives_leaf hcons hslot
  have hleft : Patricia.remove (.leaf []) (slots i) ns = some .empty := by
    simp [hy, Patricia.remove]
  have hupdated : Within S.bound 0
      (.branch (Function.update slots i .empty) (some x)) :=
    within_update hwithin trivial hwithin.2.2
  have hfits : (RLPTree.list (branchItems (fun j =>
      ref sha3 (Function.update slots i .empty j)) (some x))).Fits :=
    hupdated.fits sha3 S.bound_le
  obtain ⟨rlp, hofBytes, hrep⟩ := RLP.Rep.ofBytes hfits
  simp only [GenericTrieDB.deleteAt, hbranch.isEmpty, Bool.false_eq_true,
    ↓reduceIte, hbranch.isNode, hbranch.itemCount, check_true, fails_ok_bind,
    Nat.reduceEqDiff, hsize, andThen, hget, Nibble.toNat_toByte,
    ofList_branch (fun j => ref sha3 (Function.update slots i .empty j))
      (some x), List.range_eq_range']
  refine fails_bind_of (wp_deleteSlots_some hgives (deletes fuel hgives hfuel)
    hleft (hstored i) hupdated hbranch hk) ?_
  rintro out db₁ ⟨rfl, hfollows₁, -⟩
  simp only [out_branch, liftM_ok_bind, hofBytes,
    uniqueInUse_value hrep (hwithin.2.2 x rfl).1 (halone.update_eq_empty hleft)]
  refine fails_bind_of (wp_killNode hfollows₁.consistent hr) ?_
  rintro _ db₂ -
  exact fails_mergeUsed_value hrep hlong

/-- Where a branch is left with a value longer than a hash, removal ends in an
exception. -/
theorem failsAt_of_strands (hcons : Consistent S db)
    (hstored : Stored sha3 (DB.lookup db) t) (hwithin : Within S.bound 0 t)
    (h : Strands t ns x) (hlong : 32 < x.length) {fuel : Nat}
    (hfuel : ns.length < fuel) :
    FailsAt S db (GenericTrieDB.deleteAt sha3 fuel) t ns := by
  induction fuel generalizing t ns with
  | zero => exact absurd hfuel (Nat.not_lt_zero _)
  | succ fuel ih =>
      cases t with
      | empty | leaf => exact h.elim
      | ext key child =>
          obtain ⟨⟨r, rfl⟩, hchild⟩ := h
          rw [List.drop_left] at hchild
          have hpos := List.length_pos_iff.2 hwithin.1
          rw [List.length_append] at hfuel
          exact failsAt_ext hwithin hstored
            (ih hstored.2 hwithin.child hchild (by omega))
      | branch slots value =>
          cases ns with
          | nil => exact h.elim
          | cons i ns =>
              rw [List.length_cons] at hfuel
              rcases h with h | ⟨rfl, halone⟩
              · have hne : slots i ≠ .empty := by
                  intro hempty
                  rw [hempty] at h
                  exact h.elim
                exact failsAt_branch_cons hne hwithin hstored
                  (ih (hstored i).2 (hwithin.slot i) h (by omega))
              · exact failsAt_alone hcons hstored hwithin halone (by omega)
                  hlong

end Trie

open Trie

namespace BytesMap

variable {m : BytesMap} {t : Trie} {k x : Bytes}

/-- The stored key is the only one, besides the shorter key of the value `x`,
that goes on from this shorter key. -/
def Bereaves (m : BytesMap) (k x : Bytes) : Prop :=
  ∃ p, m.lookup p = some x ∧ p <+: k ∧ p ≠ k ∧
    ∀ q, m.lookup q ≠ none → p <+: q → q = p ∨ q = k

theorem Denotes.bereaves_iff (h : Denotes m t) :
    Trie.Bereaves t (nibbles k) x ↔ m.Bereaves k x := by
  constructor
  · rintro ⟨p, hp, hpre, hne, honly⟩
    obtain ⟨p, rfl, hx⟩ := (h.holds p x).1 hp
    refine ⟨p, hx, nibbles_prefix_iff.1 hpre, mt (congrArg nibbles) hne,
      fun q hq hpq => ?_⟩
    have honly' := honly _ ((h.has_nibbles_iff q).2 hq)
      (nibbles_prefix_iff.2 hpq)
    simpa only [nibbles_inj] using honly'
  · rintro ⟨p, hx, hpre, hne, honly⟩
    refine ⟨nibbles p, by rw [h.lookup, hx], nibbles_prefix_iff.2 hpre,
      mt nibbles_inj.1 hne, fun q hq hpq => ?_⟩
    obtain ⟨q, rfl, hstored⟩ := (h.has_iff q).1 hq
    simpa only [nibbles_inj] using honly q hstored (nibbles_prefix_iff.1 hpq)

theorem Bereaves.unique {y : Bytes} (h : m.Bereaves k x)
    (h' : m.Bereaves k y) : x = y := by
  obtain ⟨p, hp, hpre, hne, honly⟩ := h
  obtain ⟨q, hq, hpre', hne', honly'⟩ := h'
  have hsame : p = q := by
    rcases List.prefix_or_prefix_of_prefix hpre hpre' with hpq | hqp
    · exact ((honly q (by simp [hq]) hpq).resolve_right hne').symm
    · exact (honly' p (by simp [hp]) hqp).resolve_right hne
  subst hsame
  rw [hp] at hq
  exact Option.some.inj hq

theorem Denotes.strands_iff (h : Denotes m t) (hsome : m.lookup k ≠ none) :
    Strands t (nibbles k) x ↔ m.Bereaves k x := by
  rw [Trie.strands_iff h.canonical ((h.has_nibbles_iff k).2 hsome),
    h.bereaves_iff]

end BytesMap

section Removal

variable {sha3 : Bytes → H256} {σ : Type} [LawfulDB σ] {S : Scope sha3}
  {db : σ} {g : GenericTrieDB} {m : BytesMap} {t : Trie} {k x : Bytes}
  {ops : List TrieOp}

/-- Removal takes the key out of the map and nothing else. -/
def Removes (sha3 : Bytes → H256) (db : σ) (g : GenericTrieDB) (m : BytesMap)
    (k : Bytes) : Prop :=
  ∃ g' db', run DB.handler (g.remove sha3 k) db = (.ok g', db') ∧
    (∀ k', k'.length < 2 ^ 30 → run DB.handler (g'.lookup k') db' =
      (.ok (((m.erase k).lookup k').getD []), db')) ∧
    hash256 sha3 (m.erase k) = .ok g'.root

/-- No branch is left with nothing but a value that is longer than a hash or
that the database knows as the hash of a two-item node. -/
def Spares (sha3 : Bytes → H256) (db : σ) (m : BytesMap) (k : Bytes) : Prop :=
  ∀ x, m.Bereaves k x → x.length ≤ 32 ∧ Replaces sha3 db x (.leaf [] x)

theorem Trie.Represents.gives_present (h : Represents S db g m t)
    (hsome : m.lookup k ≠ none) (hspares : Spares sha3 db m k) :
    Gives S db (.leaf []) t (nibbles k) where
  consistent := h.opened.consistent
  canonical := h.denotes.canonical
  stored := h.opened.stored
  within := h.opened.within
  reaches := reaches_of_has ((h.denotes.has_nibbles_iff k).2 hsome)
  short x hx := (hspares x ((h.denotes.strands_iff hsome).1 hx)).1
  replaces x hx := (hspares x ((h.denotes.strands_iff hsome).1 hx)).2
  nonempty x := by simp
  bounded x d hx hd hlt := ⟨hx, hlt⟩

/-- Where no branch is left with a harmful value, a stored key is removed. -/
theorem Trie.Represents.removes (h : Represents S db g m t)
    (hbound : S.bound = 2 ^ 31 - 1) (hk : k.length < 2 ^ 30)
    (hsome : m.lookup k ≠ none)
    (hinside : ∀ v ∈ written (g.remove sha3 k) db, v ∈ S.strings)
    (hspares : Spares sha3 db m k) : Removes sha3 db g m k := by
  obtain ⟨x, hx⟩ := Option.ne_none_iff_exists'.1 hsome
  have hlookup : Patricia.lookup t (nibbles k) = some x := by
    rw [h.denotes.lookup, hx]
  obtain ⟨t', hleft⟩ := Patricia.exists_remove hlookup (.leaf [])
  obtain ⟨g', db', hrun, hopened, -, -⟩ := exists_run_of_written hinside
    (wp_remove_some h.opened (h.gives_present hsome hspares) (by omega) hleft)
  have hrep : Represents S db' g' (m.erase k) t' :=
    ⟨hopened, h.denotes.erase hleft, h.fits.erase k⟩
  exact ⟨g', db', hrun, fun k' hk' => hrep.run_lookup hbound hk',
    hrep.hash256_eq⟩

/-- What is consistent in a scope is so in a deeper one. -/
theorem Trie.Opened.below {B : Nat} (h : Opened S db g t)
    (hle : S.bound ≤ B) (hB : B ≤ 2 ^ 31 - 1) :
    Opened (S.below B hB) db g t where
  consistent := by
    refine ⟨h.consistent.lax, fun x hx => ?_⟩
    obtain ⟨u, hu, hstored, henc, hhash, hS⟩ := h.consistent.known x hx
    exact ⟨u, hu.mono (by show 0 + S.bound ≤ 0 + B; omega), hstored, henc,
      hhash, hS⟩
  within := h.within.mono (by show 0 + S.bound ≤ 0 + B; omega)
  stored := h.stored
  root := h.root
  top := h.top

/-- A branch is left with nothing but a value that the database knows as the
hash of another two-item node. -/
theorem Trie.Represents.gives_misled {u : Trie} (h : Represents S db g m t)
    (hbound : S.bound ≤ 2 ^ 30) (hk : k.length * 2 < S.bound)
    (hsome : m.lookup k ≠ none) (hbereaves : m.Bereaves k x)
    (hshort : x.length ≤ 32) (hreplaces : Replaces sha3 db x u)
    (hwithin : Within S.bound 0 u) (hne : u ≠ .empty) :
    Gives (S.below (2 ^ 31 - 1) le_rfl) db
      (Function.update (.leaf []) x u) t (nibbles k) where
  consistent := (h.opened.below (by omega) le_rfl).consistent
  canonical := h.denotes.canonical
  stored := h.opened.stored
  within := (h.opened.below (by omega) le_rfl).within
  reaches := reaches_of_has ((h.denotes.has_nibbles_iff k).2 hsome)
  short y hy := by
    have hsame : y = x :=
      ((h.denotes.strands_iff hsome).1 hy).unique hbereaves
    rwa [hsame]
  replaces y hy := by
    obtain rfl : y = x :=
      ((h.denotes.strands_iff hsome).1 hy).unique hbereaves
    rwa [Function.update_self]
  nonempty y := by
    by_cases hyx : y = x
    · rwa [hyx, Function.update_self]
    · rw [Function.update_of_ne hyx]
      simp
  bounded y d hy hd hlt := by
    rw [length_nibbles] at hd
    by_cases hyx : y = x
    · rw [hyx, Function.update_self]
      exact hwithin.mono (by show d + S.bound ≤ 0 + (2 ^ 31 - 1); omega)
    · rw [Function.update_of_ne hyx]
      exact ⟨hy, hlt⟩

/-- A two-item node that has the value under the empty key is the leaf of the
empty key. -/
theorem Trie.eq_leaf_of_lookup {u : Trie} {B : Nat} (hwithin : Within B 0 u)
    (htwo : isTwoItem u = true) (hx : x ≠ [])
    (hlookup : x = (Patricia.lookup u []).getD []) : u = .leaf [] x := by
  cases u with
  | empty | branch => cases htwo
  | leaf key value =>
      cases key with
      | nil => simpa using hlookup.symm
      | cons i key => exact absurd (by simpa using hlookup) hx
  | ext key child =>
      have hnone : Patricia.lookup (.ext key child) [] = none := by
        simp [hwithin.1]
      rw [hnone] at hlookup
      exact absurd hlookup hx

/-- A stored key is removed only where no branch is left with a harmful
value. -/
theorem Trie.Represents.spares (h : Represents S db g m t)
    (hbound : S.bound ≤ 2 ^ 30) (hk : k.length * 2 < S.bound)
    (hsome : m.lookup k ≠ none)
    (hinside : ∀ v ∈ written (g.remove sha3 k) db, v ∈ S.strings)
    (hremoves : Removes sha3 db g m k) : Spares sha3 db m k := by
  intro x hbereaves
  obtain ⟨g', db', hrun, hlookup, -⟩ := hremoves
  have hstrands := (h.denotes.strands_iff hsome).2 hbereaves
  obtain ⟨y, hy⟩ := Option.ne_none_iff_exists'.1 hsome
  have hfound : Patricia.lookup t (nibbles k) = some y := by
    rw [h.denotes.lookup, hy]
  have hshort : x.length ≤ 32 := by
    by_contra hlong
    have hfuel : (nibbles k).length < k.length * 2 + 2 := by
      rw [length_nibbles]
      omega
    have hfails := failsAt_of_strands h.opened.consistent h.opened.stored
      h.opened.within hstrands (Nat.not_le.1 hlong) hfuel
    obtain ⟨error, db₃, herror⟩ := exists_error_of_written hinside
      (fails_remove h.opened hk hfails)
    rw [hrun] at herror
    cases herror
  refine ⟨hshort, ?_⟩
  by_contra hno
  obtain ⟨u, hreplaces, hu⟩ := h.opened.consistent.exists_replaces x
  have hother : u ≠ .leaf [] x := by
    rintro rfl
    exact hno hreplaces
  have hwithin := hu.resolve_left hother
  have htwo : isTwoItem u = true :=
    (hreplaces.resolve_left fun hleaf => hother hleaf.1).1
  have hne : u ≠ .empty := by
    rintro rfl
    cases htwo
  have hgives := h.gives_misled hbound hk hsome hbereaves hshort hreplaces
    hwithin hne
  obtain ⟨t', hleft⟩ :=
    Patricia.exists_remove hfound (Function.update (.leaf []) x u)
  obtain ⟨g'', db'', hrun', hopened, -, -⟩ := exists_run_of_written
    (S := S.below (2 ^ 31 - 1) le_rfl) hinside
    (wp_remove_some (h.opened.below (by omega) le_rfl) hgives
      (by show k.length * 2 < 2 ^ 31 - 1; omega) hleft)
  rw [hrun] at hrun'
  obtain ⟨hg, rfl⟩ := Prod.mk.inj hrun'
  obtain rfl : g' = g'' := Except.ok.inj hg
  obtain ⟨p, hp, hpne, hat⟩ := lookup_remove_of_strands hgives.nonempty
    h.denotes.canonical hstrands hleft
  obtain ⟨p, rfl, hpx⟩ := (h.denotes.holds p x).1 hp
  have hpk : p ≠ k := mt (congrArg nibbles) hpne
  have hplen : p.length < 2 ^ 30 :=
    h.fits.short p (by rw [hpx]; exact Option.some_ne_none x)
  have hright := hlookup p hplen
  obtain ⟨b, db₃, hwrong, rfl, rfl⟩ := exists_run_of_wp_true
    (wp_lookup hopened (by show p.length * 2 < 2 ^ 31 - 1; omega))
  rw [hright] at hwrong
  have hvalue := Except.ok.inj (Prod.mk.inj hwrong).1
  rw [OrderedMap.lookup_erase, if_neg hpk, hpx, Option.getD_some, hat,
    Function.update_self] at hvalue
  have hx : x ≠ [] := (h.fits.storable p x hpx).1
  exact hother (eq_leaf_of_lookup hwithin htwo hx hvalue)

/-- A stored key is removed cleanly unless a branch is left with nothing but a
harmful value; that no other value is harmful is known of keys so short that
two of them together do not overrun the counters. -/
theorem remove_present (hdb : Fresh db) (hops : TrieOp.Inserts ops)
    (hsome : (contents ops).lookup k ≠ none)
    (hclash : NoClash sha3 (session sha3 (ops ++ [.remove k])) db) :
    ∃ g db', run DB.handler (session sha3 ops) db = (.ok g, db') ∧
      (Spares sha3 db' (contents ops) k →
        Removes sha3 db' g (contents ops) k) ∧
      ((∀ op ∈ ops, op.key.length < 2 ^ 29) →
        Removes sha3 db' g (contents ops) k →
          Spares sha3 db' (contents ops) k) := by
  obtain ⟨g, db', t, hrun, hrep, hinside⟩ :=
    exists_session_removal le_rfl hdb hops hops.short hclash
  have hk : k.length < 2 ^ 30 := hrep.fits.short k hsome
  refine ⟨g, db', hrun, hrep.removes rfl hk hsome hinside, ?_⟩
  intro hsmall hremoves
  have hle : 2 ^ 30 ≤ 2 ^ 31 - 1 := by decide
  obtain ⟨g₁, db₁, t₁, hrun₁, hrep₁, hinside₁⟩ :=
    exists_session_removal hle hdb hops
      (fun op hop => by have := hsmall op hop; omega) hclash
  rw [hrun] at hrun₁
  obtain ⟨hg, rfl⟩ := Prod.mk.inj hrun₁
  obtain rfl := Except.ok.inj hg
  obtain ⟨op, hop, rfl⟩ := exists_key_of_contents hsome
  have hkey : op.key.length * 2 < 2 ^ 30 := by
    have := hsmall op hop
    omega
  exact hrep₁.spares le_rfl hkey hsome hinside₁ hremoves

theorem remove_present_beside :
    ∃ g db, run DB.handler (session frontHash
        [.insert [0x12] [1], .insert [0x12, 0x34] [2]]) ({} : MemoryDB) =
          (.ok g, db) ∧
      Removes frontHash db g
        (contents [.insert [0x12] [1], .insert [0x12, 0x34] [2]]) [0x12] := by
  have hops : TrieOp.Inserts [.insert [0x12] [1], .insert [0x12, 0x34] [2]] := by
    simp [TrieOp.Inserts, Trie.Storable]
  have hclash : NoClash frontHash (session frontHash
      ([.insert [0x12] [1], .insert [0x12, 0x34] [2]] ++ [.remove [0x12]]))
      ({} : MemoryDB) := by
    decide +kernel
  have hsome : (contents [.insert [0x12] [1], .insert [0x12, 0x34] [2]]).lookup
      [0x12] ≠ none := by
    decide +kernel
  have hkeys : ∀ q, (contents [.insert [0x12] [1],
      .insert [0x12, 0x34] [2]]).lookup q ≠ none →
        q = [0x12, 0x34] ∨ q = [0x12] := by
    intro q hq
    obtain ⟨op, hop, hkey⟩ := exists_key_of_contents hq
    rcases List.mem_cons.1 hop with rfl | hop
    · exact .inr hkey.symm
    · obtain rfl := List.mem_singleton.1 hop
      exact .inl hkey.symm
  obtain ⟨g, db, hrun, hclean, -⟩ := remove_present fresh_memoryDB hops hsome
    hclash
  refine ⟨g, db, hrun, hclean ?_⟩
  rintro x ⟨p, hp, hpre, hne, -⟩
  rcases hkeys p (by simp [hp]) with rfl | rfl
  · exact absurd hpre (by decide)
  · exact absurd rfl hne

/-- A branch is left with a value of 33 bytes, and with the root of an earlier
trie for a value. -/
theorem not_remove_present :
    (contents [.insert [0x12] (.replicate 33 7),
        .insert [0x12, 0x34] [1]]).lookup [0x12, 0x34] = some [1] ∧
      NoClash frontHash (session frontHash [.insert [0x12] (.replicate 33 7),
        .insert [0x12, 0x34] [1], .remove [0x12, 0x34]]) ({} : MemoryDB) ∧
      (run DB.handler (session frontHash [.insert [0x12] (.replicate 33 7),
        .insert [0x12, 0x34] [1], .remove [0x12, 0x34]])
          ({} : MemoryDB)).1 = .error .badCast ∧
      ∃ x : Bytes, x.length = 32 ∧
        NoClash frontHash (session frontHash [.insert [0x12] [1],
          .insert [0x12] x, .insert [0x12, 0x34] [1], .remove [0x12, 0x34]])
          ({} : MemoryDB) ∧
        (run DB.handler (session frontHash [.insert [0x12] [1],
          .insert [0x12] x, .insert [0x12, 0x34] [1], .remove [0x12, 0x34]] >>=
            fun g => g.lookup [0x12]) ({} : MemoryDB)).1 = .ok [] := by
  refine ⟨by decide +kernel, by decide +kernel, by decide +kernel,
    (frontHash [0xc4, 0x82, 0x20, 0x12, 0x01]).data, ?_, ?_, ?_⟩ <;>
    decide +kernel

end Removal

end Web3Core
