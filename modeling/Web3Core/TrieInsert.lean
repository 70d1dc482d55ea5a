/-
Insertion in a database trie refines insertion in a Patricia trie: whatever
the shapes on the way and however the nodes are held, `mergeAt` yields the top
node of the trie with the new value in it, writes the nodes below it, and
gives up its references to the nodes that are gone.
-/
import Web3Core.TrieCut
import Web3Core.TrieRebuild

namespace Web3Core

open Program GenericTrieDB

open LawfulDB (Lax count)

open RLPTree (encode encodeItems partialList)

namespace Trie

/-- A trie of the database `db` can take the value `v` for a key with the
nibbles `ns`. -/
structure Takes {sha3 : Bytes → H256} {σ : Type} [LawfulDB σ] (S : Scope sha3)
    (db : σ) (t : Trie) (ns : List Nibble) (v : Bytes) : Prop where
  consistent : Consistent S db
  stored : Stored sha3 (DB.lookup db) t
  within : Within S.bound 0 t
  value : Storable v
  short : ns.length < S.bound

/-- The calls an insertion needs: two for each nibble, and one more where the
node may have to be rewritten first. -/
def Fuelled (fuel : Nat) (t : Trie) (ns : List Nibble) : Prop :=
  2 * ns.length + 2 ≤ fuel ∧
    (2 * ns.length + 3 ≤ fuel ∨ Passes t ns ∨ t.IsBranch)

/-- The references of the node above are right after an insertion: the key
ends in no node's key, and a node that was not counted is not killed. -/
def Counted (sha3 : Bytes → H256) (t : Trie) (ns : List Nibble)
    (inLine : Bool) : Prop :=
  NoStop t ns ∧ (inLine = true → ¬ Big sha3 t ∨ Passes t ns)

/-- The references `mergeAt` answers for. -/
def counts (sha3 : Bytes → H256) (t : Trie) (inLine : Bool) : H256 → Nat :=
  if inLine then refsIn sha3 t else refs sha3 t

/-- A function that puts a value into a trie does so. -/
def Merges {sha3 : Bytes → H256} {σ : Type} [LawfulDB σ] (S : Scope sha3)
    (db : σ)
    (mergeAt : RLP → H256 → NibbleSlice → Bytes → Bool → DBProgram Bytes)
    (t : Trie) (ns : List Nibble) (v : Bytes) : Prop :=
  ∀ ⦃orig : RLP⦄ ⦃k : NibbleSlice⦄ ⦃inLine : Bool⦄,
    orig.Rep (Trie.node sha3 t) → k.Shows ns →
      wp DB.handler (Writes S) (mergeAt orig (hash sha3 t) k v inLine) db
        (Made S db (Patricia.insert t ns v) (Counted sha3 t ns inLine)
          (counts sha3 t inLine))

variable {sha3 : Bytes → H256} {σ : Type} [LawfulDB σ] {S : Scope sha3}
  {db : σ} {v : Bytes} {t : Trie} {ns : List Nibble}
  {mergeAt : RLP → H256 → NibbleSlice → Bytes → Bool → DBProgram Bytes}

theorem counts_of_not_big (h : ¬ Big sha3 t) (inLine : Bool) :
    counts sha3 t inLine = refs sha3 t := by
  cases inLine with
  | false => rfl
  | true => exact (refs_of_not_big h).symm

/-- A node that the key does not pass is counted, or too short to be. -/
theorem Counted.counts_eq {inLine : Bool} (h : Counted sha3 t ns inLine)
    (hpass : ¬ Passes t ns) : counts sha3 t inLine = refs sha3 t := by
  cases inLine with
  | false => rfl
  | true => exact counts_of_not_big ((h.2 rfl).resolve_right hpass) true

theorem Takes.insert_within (h : Takes S db t ns v) :
    Within S.bound 0 (Patricia.insert t ns v) :=
  within_insert h.within h.value (by rw [Nat.zero_add]; exact h.short)

theorem Takes.after {db' : σ} (h : Takes S db t ns v)
    (hfollows : Follows S db db') : Takes S db' t ns v :=
  { h with
    consistent := hfollows.consistent
    stored := h.stored.mono hfollows.keeps }

/-- A value goes into the trie in a slot of a node. -/
theorem wp_mergeAtAux (hheld : Held sha3 (DB.lookup db) t)
    (htakes : Takes S db t ns v) (hmerge : Merges S db mergeAt t ns v)
    {orig : RLP} {k : NibbleSlice} {out out' : RLPStream}
    (hr : orig.Rep (ref sha3 t)) (hk : k.Shows ns)
    (hout : out.appendRaw (encode (ref sha3 (Patricia.insert t ns v))) 1 =
      .ok out') :
    wp DB.handler (Writes S) (mergeAtAux sha3 mergeAt out orig k v) db
      fun r db' => r = out' ∧ Follows S db db' ∧
        Held sha3 (DB.lookup db') (Patricia.insert t ns v) ∧
          (NoStop t ns → DB.Moves db db' (refs sha3 t)
            (refs sha3 (Patricia.insert t ns v))) := by
  have hstream : ∀ b db', Made S db (Patricia.insert t ns v)
      (NoStop t ns) (refs sha3 t) b db' →
      wp DB.handler (Writes S) (streamNode sha3 out b) db'
        fun r db'' => r = out' ∧ Follows S db db'' ∧
          Held sha3 (DB.lookup db'') (Patricia.insert t ns v) ∧
            (NoStop t ns → DB.Moves db db'' (refs sha3 t)
              (refs sha3 (Patricia.insert t ns v))) := by
    rintro b db' ⟨rfl, hfollows, hstored, hmoves⟩
    refine wp_mono (wp_streamNode hfollows.consistent
      htakes.insert_within hstored hout) ?_
    rintro r db'' ⟨rfl, hfollows', hheld', hmoves'⟩
    exact ⟨rfl, hfollows.trans hfollows', hheld',
      fun hstop => (hmoves hstop).trans hmoves'⟩
  rw [mergeAtAux]
  by_cases hbig : Big sha3 t
  · obtain ⟨n, hn⟩ := exists_isHashOf hbig htakes.within hr
    simp only [hn.isList, hn.isEmpty, Bool.not_false, Bool.and_self, ↓reduceIte,
      hn.toHash, wp_ok_bind, wp_node_bind, hheld.1 hbig, hn.ofBytes,
      hn.rep.isNull, check_true, hn.rep.data_toBytes]
    refine wp_bind_of (hmerge hn.rep hk) fun b db' hmade => ?_
    exact hstream b db' (hmade.mono fun hstop => ⟨hstop, by simp⟩)
  · rw [ref_of_not_big hbig] at hr
    have hinline : (!orig.isList && !orig.isEmpty) = false := by
      by_cases hempty : t = .empty
      · subst hempty
        have : orig.isEmpty = true := hr.isEmpty
        simp [this]
      · have : orig.isList = true := by
          rw [hr.isList, node_isList hempty]
        simp [this]
    simp only [hinline, Bool.false_eq_true, ↓reduceIte, hr.data_toBytes]
    refine wp_bind_of (hmerge hr hk) fun b db' hmade => ?_
    rw [counts_of_not_big hbig] at hmade
    exact hstream b db' (hmade.mono fun hstop => ⟨hstop, fun _ => .inl hbig⟩)

/-- After a node was rewritten, the value goes into the new node. -/
theorem wp_mergeAgain {cut : DBProgram Bytes} {u : Trie} {k : NibbleSlice}
    {inLine : Bool} (htakes : Takes S db t ns v)
    (hcut : wp DB.handler (Writes S) cut db
      (Made S db u True (refs sha3 t)))
    (hmerge : ∀ {db' : σ}, Takes S db' u ns v → Merges S db' mergeAt u ns v)
    (hwithin : Within S.bound 0 u)
    (hinsert : Patricia.insert u ns v = Patricia.insert t ns v)
    (hpass : ¬ Passes t ns)
    (hstop : NoStop t ns → NoStop u ns ∧ Passes u ns) (hk : k.Shows ns) :
    wp DB.handler (Writes S) (do
        let b ← cut
        let r ← RLP.ofBytes b
        mergeAt r (sha3 r.data.toBytes) k v true) db
      (Made S db (Patricia.insert t ns v) (Counted sha3 t ns inLine)
        (counts sha3 t inLine)) := by
  refine wp_bind_of hcut ?_
  rintro b db' ⟨rfl, hfollows, hstored, hmoves⟩
  obtain ⟨r, hr, hrep⟩ :=
    RLP.Rep.ofBytes (hwithin.fits sha3 S.bound_le)
  have htakes' : Takes S db' u ns v :=
    ⟨hfollows.consistent, hstored, hwithin, htakes.value,
      htakes.short⟩
  simp only [enc, hr, wp_ok_bind, hrep.data_toBytes]
  refine wp_mono (hmerge htakes' hrep hk) ?_
  intro b' db'' hmade
  rw [hinsert] at hmade
  refine (hmade.mono fun hc => ?_).after hfollows fun hc => ?_
  · obtain ⟨hu, hp⟩ := hstop hc.1
    exact ⟨hu, fun _ => .inr hp⟩
  · rw [hc.counts_eq hpass]
    exact hmoves trivial

theorem merges_empty (htakes : Takes S db .empty ns v) (fuel : Nat) :
    Merges S db (GenericTrieDB.mergeAt sha3 (fuel + 1)) .empty ns v := by
  intro orig k inLine hr hk
  have hempty : orig.isEmpty = true := hr.isEmpty
  simp only [GenericTrieDB.mergeAt, hempty, ↓reduceIte]
  refine wp_mono (wp_place_empty htakes.consistent hr hk
    htakes.insert_within) fun b db' hmade => ?_
  rw [counts_of_not_big not_big_empty]
  exact hmade.mono fun _ => trivial

/-- The calls with less fuel do what they should. -/
def MergesBelow {sha3 : Bytes → H256} (S : Scope sha3) (σ : Type) [LawfulDB σ]
    (fuel : Nat) (v : Bytes) : Prop :=
  ∀ ⦃db : σ⦄ ⦃t : Trie⦄ ⦃ns : List Nibble⦄, Takes S db t ns v →
    Fuelled fuel t ns → Merges S db (GenericTrieDB.mergeAt sha3 fuel) t ns v

theorem merges_leaf {fuel : Nat} {key : List Nibble} {value : Bytes}
    (htakes : Takes S db (.leaf key value) ns v)
    (hfuel : Fuelled (fuel + 1) (.leaf key value) ns)
    (ih : MergesBelow S σ fuel v) :
    Merges S db (GenericTrieDB.mergeAt sha3 (fuel + 1)) (.leaf key value)
      ns v := by
  intro orig k inLine hr hk
  obtain ⟨k', c₀, c, hpair⟩ := exists_isPair hr htakes.within.leaf_short
  have hsteps : 2 * ns.length + 2 ≤ fuel := by
    rcases hfuel.2 with h | h | h
    · omega
    · exact h.elim
    · exact h.elim
  simp only [GenericTrieDB.mergeAt, hpair.isEmpty, Bool.false_eq_true,
    ↓reduceIte, hpair.itemCount, hpair.isList, beq_self_eq_true, Bool.true_or,
    Bool.and_self, check_true, wp_ok_bind, hpair.keyOf, hpair.isLeaf,
    hpair.shows.equals hk, hk.contains hpair.shows, hk.shared hpair.shows,
    negated, ok_bind, Bool.not_true, andThen, ite_self]
  by_cases hkey : key = ns
  · subst hkey
    simp only [decide_true, ↓reduceIte, wp_ok_bind]
    have hinsert : Patricia.insert (.leaf key value) key v = .leaf key v := by
      simp [Patricia.insert]
    rw [hinsert]
    refine wp_mono (wp_place_leaf htakes.consistent hr
      (hinsert ▸ htakes.insert_within)) fun b db' hmade => ?_
    refine (hmade.mono fun _ => trivial).after (.refl htakes.consistent)
      fun hc => ?_
    rw [hc.counts_eq id]
    exact .refl db _
  · have hne : ns ≠ key := Ne.symm hkey
    simp only [hkey, decide_false, Bool.false_eq_true, ↓reduceIte, wp_ok_bind]
    by_cases hzero : sharedLength ns key = 0
    · rw [if_neg (by simpa using hzero)]
      obtain ⟨slots, value', hslots⟩ := exists_forked_leaf key value
      refine wp_mergeAgain htakes
        (wp_branch_leaf htakes.consistent hr htakes.within)
        (fun h => ih h ⟨hsteps, .inr (.inr ?_)⟩) (within_forked htakes.within)
        (insert_forked_leaf hne hzero) id (noStop_forked_leaf hne hzero) hk
      rw [hslots]
      trivial
    · rw [if_pos hzero]
      obtain ⟨p, r, l, hw, rfl, hp, hrl⟩ := exists_shared ns key
      have hpne : p ≠ [] := by
        rintro rfl
        exact hzero hp
      have hlr : r ≠ l := fun h => hne (by rw [hw, h])
      rw [hp]
      refine wp_mergeAgain htakes (wp_cleve htakes.consistent
        (u := .leaf l value) rfl rfl rfl trivial htakes.within.leaf_short
        (within_cleved_leaf hpne htakes.within) hr)
        (fun h => ih h ⟨hsteps, .inr (.inl ?_)⟩)
        (within_cleved_leaf hpne htakes.within) ?_ id ?_ hk
      · rw [hw]
        exact List.prefix_append p r
      · rw [hw]
        exact insert_cleved_leaf hpne hlr hrl
      · intro hstop
        rw [hw] at hstop ⊢
        exact ⟨noStop_cleved_leaf hstop, List.prefix_append p r⟩

/-- A node that the value passes is given up by the node above. -/
theorem wp_killCounted (hdb : Consistent S db) {r : RLP}
    (hr : r.Rep (Trie.node sha3 t)) (inLine : Bool) :
    wp DB.handler (Writes S) (onlyIf (!inLine) (killNodeAt r (hash sha3 t))) db
      fun _ db' => Follows S db db' ∧
        DB.Moves db db' (counts sha3 t inLine) (refsIn sha3 t) := by
  cases inLine with
  | false =>
      refine wp_mono (wp_killNodeAt hdb hr) ?_
      rintro _ db' ⟨hfollows, -, hmoves⟩
      exact ⟨hfollows, hmoves _⟩
  | true => exact ⟨.refl hdb, .refl db _⟩

theorem Takes.child {key : List Nibble} {child : Trie}
    (h : Takes S db (.ext key child) (key ++ ns) v) :
    Takes S db child ns v := by
  obtain ⟨hdb, hstored, hwithin, hv, hshort⟩ := h
  rw [List.length_append] at hshort
  exact ⟨hdb, hstored.2, hwithin.child, hv, by omega⟩

theorem Takes.slot {slots : Nibble → Trie} {value : Option Bytes} {i : Nibble}
    (h : Takes S db (.branch slots value) (i :: ns) v) :
    Takes S db (slots i) ns v := by
  obtain ⟨hdb, hstored, hwithin, hv, hshort⟩ := h
  rw [List.length_cons] at hshort
  exact ⟨hdb, (hstored i).2, hwithin.slot i, hv, by omega⟩

/-- The key goes on below an extension. -/
theorem merges_ext_down {fuel : Nat} {key : List Nibble} {child : Trie}
    (htakes : Takes S db (.ext key child) (key ++ ns) v)
    (hfuel : Fuelled (fuel + 1) (.ext key child) (key ++ ns))
    (ih : MergesBelow S σ fuel v) :
    Merges S db (GenericTrieDB.mergeAt sha3 (fuel + 1)) (.ext key child)
      (key ++ ns) v := by
  intro orig k inLine hr hk
  obtain ⟨k', c₀, c, hpair⟩ := exists_isPair hr htakes.within.ext_short
  have hinsert : Patricia.insert (.ext key child) (key ++ ns) v =
      .ext key (Patricia.insert child ns v) := by
    simp [Patricia.insert]
  have hfits := htakes.insert_within.fits sha3 S.bound_le
  rw [hinsert] at hfits ⊢
  rw [node_ext] at hfits
  have happend := appendItem_partialList hfits hpair.rep_first (k := 0) rfl
  have hstream := RLPTree.appendRaw_partialList hfits (k := 1) rfl
  have hout : (partialList [.data (hexPrefix false key),
      ref sha3 (Patricia.insert child ns v)] 2).out =
      .ok (enc sha3 (.ext key (Patricia.insert child ns v))) :=
    RLPTree.out_partialList [.data (hexPrefix false key),
      ref sha3 (Patricia.insert child ns v)]
  simp only [GenericTrieDB.mergeAt, hpair.isEmpty, Bool.false_eq_true,
    ↓reduceIte, hpair.itemCount, hpair.isList, beq_self_eq_true, Bool.true_or,
    Bool.and_self, check_true, wp_ok_bind, hpair.keyOf, hpair.isLeaf,
    hpair.shows.equals hk, hk.contains hpair.shows, negated, ok_bind,
    Bool.not_false, andThen, ite_self, List.prefix_append, decide_true]
  refine wp_bind_of (wp_killCounted htakes.consistent hr inLine) ?_
  rintro _ db' ⟨hfollows, hmoves⟩
  simp only [ofList_two (.data (hexPrefix false key))
    (ref sha3 (Patricia.insert child ns v)), hpair.first, hpair.second, happend,
    wp_ok_bind]
  have htakes' := (htakes.after hfollows).child
  have hrest : (k.mid k'.size).Shows ns := by
    have h := hk.mid (n := key.length) (by simp)
    rwa [List.drop_left, ← hpair.shows.size] at h
  have hsteps : 2 * ns.length + 3 ≤ fuel := by
    have hpos := List.length_pos_iff.2 htakes.within.1
    have := hfuel.1
    rw [List.length_append] at this
    omega
  refine wp_bind_of (wp_mergeAtAux (htakes.stored.mono hfollows.keeps) htakes'
    (ih htakes' ⟨by omega, .inl hsteps⟩) hpair.rep_second hrest hstream) ?_
  rintro s db'' ⟨rfl, hfollows', hheld, hmoves'⟩
  rw [hout]
  refine ⟨rfl, hfollows.trans hfollows', hheld, fun hc => ?_⟩
  have hstop : NoStop child ns := by
    have := hc.1
    simpa [NoStop] using this
  exact hmoves.trans (hmoves' hstop)

/-- The key leaves an extension. -/
theorem merges_ext_cut {fuel : Nat} {key : List Nibble} {child : Trie}
    (htakes : Takes S db (.ext key child) ns v)
    (hfuel : Fuelled (fuel + 1) (.ext key child) ns) (hkey : ¬ key <+: ns)
    (ih : MergesBelow S σ fuel v) :
    Merges S db (GenericTrieDB.mergeAt sha3 (fuel + 1)) (.ext key child)
      ns v := by
  intro orig k inLine hr hk
  obtain ⟨k', c₀, c, hpair⟩ := exists_isPair hr htakes.within.ext_short
  have hsteps : 2 * ns.length + 2 ≤ fuel := by
    rcases hfuel.2 with h | h | h
    · omega
    · exact absurd h hkey
    · exact h.elim
  simp only [GenericTrieDB.mergeAt, hpair.isEmpty, Bool.false_eq_true,
    ↓reduceIte, hpair.itemCount, hpair.isList, beq_self_eq_true, Bool.true_or,
    Bool.and_self, check_true, wp_ok_bind, hpair.keyOf, hpair.isLeaf,
    hpair.shows.equals hk, hk.contains hpair.shows, hk.shared hpair.shows,
    negated, ok_bind, andThen, ite_self, hkey, decide_false]
  by_cases hzero : sharedLength ns key = 0
  · rw [if_neg (by simpa using hzero)]
    obtain ⟨i, key, rfl⟩ := List.exists_cons_of_ne_nil htakes.within.1
    exact wp_mergeAgain htakes
      (wp_branch_ext htakes.consistent hr htakes.stored htakes.within)
      (fun h => ih h ⟨hsteps, .inr (.inr trivial)⟩)
      (within_forked htakes.within) (insert_forked_ext hkey hzero) hkey
      (noStop_forked_ext hkey hzero) hk
  · rw [if_pos hzero]
    obtain ⟨p, r, l, hw, rfl, hp, hrl⟩ := exists_shared ns key
    have hpne : p ≠ [] := by
      rintro rfl
      exact hzero hp
    have hlr : ¬ l <+: r := by
      rwa [hw, List.prefix_append_right_inj] at hkey
    have hlne : l ≠ [] := by
      rintro rfl
      exact hlr List.nil_prefix
    rw [hp]
    refine wp_mergeAgain htakes (wp_cleve htakes.consistent
      (u := .ext l child) rfl rfl rfl htakes.stored htakes.within.ext_short
      (within_cleved_ext hpne hlne htakes.within) hr)
      (fun h => ih h ⟨hsteps, .inr (.inl ?_)⟩)
      (within_cleved_ext hpne hlne htakes.within) ?_ hkey ?_ hk
    · rw [hw]
      exact List.prefix_append p r
    · rw [hw]
      exact insert_cleved_ext hpne hlr hrl
    · intro hstop
      rw [hw] at hstop ⊢
      exact ⟨noStop_cleved_ext hlr hstop, List.prefix_append p r⟩

/-- The key ends at a branch. -/
theorem merges_branch_nil {fuel : Nat} {slots : Nibble → Trie}
    {value : Option Bytes} (htakes : Takes S db (.branch slots value) [] v) :
    Merges S db (GenericTrieDB.mergeAt sha3 (fuel + 1))
      (.branch slots value) [] v := by
  intro orig k inLine hr hk
  obtain ⟨c, hbranch⟩ := exists_branch hr
  have hsize : k.size = 0 := hk.size
  simp only [GenericTrieDB.mergeAt, hbranch.isEmpty, Bool.false_eq_true,
    ↓reduceIte, hbranch.itemCount, hbranch.isList, beq_self_eq_true,
    Bool.or_true, Bool.and_self, check_true, wp_ok_bind, Nat.reduceEqDiff,
    hsize]
  refine wp_mono (wp_place_branch htakes.consistent hr htakes.stored
    htakes.insert_within) fun b db' hmade => ?_
  refine (hmade.mono fun _ => trivial).after (.refl htakes.consistent)
    fun hc => ?_
  rw [hc.counts_eq fun h => h rfl]
  exact .refl db _

/-- The key goes on below a branch. -/
theorem merges_branch_cons {fuel : Nat} {slots : Nibble → Trie}
    {value : Option Bytes} {i : Nibble}
    (htakes : Takes S db (.branch slots value) (i :: ns) v)
    (hfuel : Fuelled (fuel + 1) (.branch slots value) (i :: ns))
    (ih : MergesBelow S σ fuel v) :
    Merges S db (GenericTrieDB.mergeAt sha3 (fuel + 1))
      (.branch slots value) (i :: ns) v := by
  intro orig k inLine hr hk
  obtain ⟨c, hbranch⟩ := exists_branch hr
  have hsize : ¬ k.size = 0 := by
    rw [hk.size]
    simp
  have hget : k.get 0 = .ok i.toByte := hk.get rfl
  have hrest : (k.mid 1).Shows ns := hk.mid (n := 1) (by simp)
  have hinsert : Patricia.insert (.branch slots value) (i :: ns) v =
      .branch (Function.update slots i (Patricia.insert (slots i) ns v))
        value := rfl
  have hfits := htakes.insert_within.fits sha3 S.bound_le
  rw [hinsert] at hfits ⊢
  rw [node_branch] at hfits
  simp only [GenericTrieDB.mergeAt, hbranch.isEmpty, Bool.false_eq_true,
    ↓reduceIte, hbranch.itemCount, hbranch.isList, beq_self_eq_true,
    Bool.or_true, Bool.and_self, check_true, wp_ok_bind, Nat.reduceEqDiff,
    hsize]
  refine wp_bind_of (wp_killCounted htakes.consistent hr inLine) ?_
  rintro _ db' ⟨hfollows, hmoves⟩
  simp only [hget, wp_ok_bind, Nibble.toNat_toByte, ofList_branch
    (fun j => ref sha3 (Function.update slots i (Patricia.insert (slots i) ns v)
      j)) value]
  have htakes' := (htakes.after hfollows).slot
  have hsteps : 2 * ns.length + 3 ≤ fuel := by
    have := hfuel.1
    rw [List.length_cons] at this
    omega
  have hself : Function.update slots i (Patricia.insert (slots i) ns v) i =
      Patricia.insert (slots i) ns v := Function.update_self ..
  have hitem := branchItems_slot (fun j => ref sha3 (Function.update slots i
    (Patricia.insert (slots i) ns v) j)) value i
  simp only [hself] at hitem
  refine wp_bind_of (wp_slots (i := i) (by omega) ?_ (Q := fun db'' =>
    Follows S db' db'' ∧
      Held sha3 (DB.lookup db'') (Patricia.insert (slots i) ns v) ∧
        (NoStop (slots i) ns → DB.Moves db' db'' (refs sha3 (slots i))
          (refs sha3 (Patricia.insert (slots i) ns v)))) ?_) ?_
  · intro j hj hji db₁
    rw [hbranch.get j hj]
    simp only [wp_ok_bind, if_neg hji, appendItem_update hbranch hfits hj hji]
    exact ⟨rfl, rfl⟩
  · rw [hbranch.get i (by omega)]
    simp only [wp_ok_bind, ↓reduceIte]
    exact wp_mergeAtAux ((htakes.stored.mono hfollows.keeps) i) htakes'
      (ih htakes' ⟨by omega, .inl hsteps⟩) (hbranch.rep_slot i) hrest
      (RLPTree.appendRaw_partialList hfits hitem)
  · rintro out db'' ⟨rfl, hfollows', hheld, hmoves'⟩
    rw [out_branch]
    refine ⟨rfl, hfollows.trans hfollows', ?_, fun hc => ?_⟩
    · exact stored_update
        ((htakes.stored.mono hfollows.keeps).mono hfollows'.keeps) hheld
    · exact hmoves.trans ((hmoves' hc.1).frame _ |>.congr
        (refsIn_eq_slot slots value i) (refsIn_update slots value i _))

/-- Putting a value into a trie, for any amount of fuel that is enough. -/
theorem merges (fuel : Nat) : MergesBelow S σ fuel v := by
  induction fuel with
  | zero =>
      intro db t ns htakes hfuel
      have := hfuel.1
      omega
  | succ fuel ih =>
      intro db t ns htakes hfuel
      cases t with
      | empty => exact merges_empty htakes fuel
      | leaf key value => exact merges_leaf htakes hfuel ih
      | ext key child =>
          by_cases hkey : key <+: ns
          · obtain ⟨r, rfl⟩ := hkey
            exact merges_ext_down htakes hfuel ih
          · exact merges_ext_cut htakes hfuel hkey ih
      | branch slots value =>
          cases ns with
          | nil => exact merges_branch_nil htakes
          | cons i ns => exact merges_branch_cons htakes hfuel ih

/-- `insert` puts the value into the trie. -/
theorem wp_insert {g : GenericTrieDB}
    (h : Opened S db g t) {key : Bytes} (hv : Storable v)
    (hshort : key.length * 2 < S.bound) :
    wp DB.handler (Writes S) (GenericTrieDB.insert sha3 g key v) db
      fun g' db' =>
        Opened S db' g' (Patricia.insert t (nibbles key) v) ∧
          DB.Extends db db' ∧ (NoStop t (nibbles key) →
            DB.Moves db db' (total sha3 t)
              (total sha3 (Patricia.insert t (nibbles key) v))) := by
  have htakes : Takes S db t (nibbles key) v := by
    refine ⟨h.consistent, h.stored, h.within, hv, ?_⟩
    rwa [length_nibbles]
  have hfuel : Fuelled (key.length * 4 + 3) t (nibbles key) := by
    rw [Fuelled, length_nibbles]
    exact ⟨by omega, .inl (by omega)⟩
  obtain ⟨r, hr, hrep⟩ :=
    RLP.Rep.ofBytes (h.within.fits sha3 S.bound_le)
  have henc : RLP.ofBytes (enc sha3 t) = .ok r := hr
  rw [GenericTrieDB.insert, wp_node_bind, h.root, h.top]
  simp only [enc_ne_nil, ne_eq, not_false_eq_true, decide_true, check_true,
    wp_ok_bind, henc]
  refine wp_bind_of (merges _ htakes hfuel hrep (S.shows_key hshort))
    fun b db' hmade => ?_
  have hreplace := wp_replaceRoot h htakes.insert_within
    (hmade.mono fun hstop => ⟨hstop, by simp⟩)
  rwa [h.root] at hreplace

end Trie

end Web3Core
