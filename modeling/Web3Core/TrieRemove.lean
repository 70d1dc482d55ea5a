/-
Removal in a database trie refines removal in a Patricia trie, as long as the
key does not lead the code astray: it must not end at a branch without a value,
nor run through the whole key of a leaf and on, and a branch must not be left
with nothing but a value longer than a hash.
-/
import Web3Core.TrieCollapse

namespace Web3Core

open Program GenericTrieDB

open RLPTree (encode encodeItems partialList)

namespace Trie

/-- The key does not end at a branch without a value, and does not run through
the whole key of a leaf and on. -/
def Reaches : Trie → List Nibble → Prop
  | .empty, _ => True
  | .leaf key _, ns => key <+: ns → ns = key
  | .ext key child, ns => key <+: ns → Reaches child (ns.drop key.length)
  | .branch _ value, [] => value ≠ none
  | .branch slots _, i :: ns => Reaches (slots i) ns

/-- The slot `i` of a branch holds just the leaf for `ns`, and it is the only
child. -/
def Alone (slots : Nibble → Trie) (i : Nibble) (ns : List Nibble) : Prop :=
  (∃ y, slots i = .leaf ns y) ∧ ∀ j, j ≠ i → slots j = .empty

/-- Removing the key `ns` leaves a branch with nothing but the value `x`. -/
def Strands : Trie → List Nibble → Bytes → Prop
  | .ext key child, ns, x => key <+: ns ∧ Strands child (ns.drop key.length) x
  | .branch slots value, i :: ns, x =>
      Strands (slots i) ns x ∨ (value = some x ∧ Alone slots i ns)
  | _, _, _ => False

variable {sha3 : Bytes → H256} {σ : Type} [LawfulDB σ] {S : Scope sha3}
  {db : σ} {t : Trie} {ns : List Nibble} {lone : Bytes → Trie}
  {deleteAt : RLP → NibbleSlice → DBProgram Bytes}

/-- A trie of the database `db` can give up the key with the nibbles `ns`;
`lone` tells what takes the place of a branch left with its value. -/
structure Gives (S : Scope sha3) (db : σ) (lone : Bytes → Trie) (t : Trie)
    (ns : List Nibble) : Prop where
  consistent : Consistent S db
  canonical : t.Canonical
  stored : Stored sha3 (DB.lookup db) t
  within : Within S.bound 0 t
  reaches : Reaches t ns
  short : ∀ x, Strands t ns x → x.length ≤ 32
  replaces : ∀ x, Strands t ns x → Replaces sha3 db x (lone x)
  nonempty : ∀ x, lone x ≠ .empty
  bounded : ∀ x d, Storable x → d ≤ ns.length → d < S.bound →
    Within S.bound d (lone x)

/-- What is left of the trie, where the key was found. -/
def Removed (S : Scope sha3) (db : σ) (t : Trie) (ns : List Nibble)
    (left : Option Trie) (b : Bytes) (db' : σ) : Prop :=
  match left with
  | none => b = [] ∧ db' = db
  | some t' =>
      Made S db t' (∀ x, ¬ Strands t ns x) (refs sha3 t) b db' ∧
        (t' = .empty → DB.lookup db' = DB.lookup db)

/-- A function that removes a key from a trie does so. -/
def Deletes (S : Scope sha3) (db : σ) (lone : Bytes → Trie)
    (deleteAt : RLP → NibbleSlice → DBProgram Bytes) (t : Trie)
    (ns : List Nibble) : Prop :=
  ∀ ⦃orig : RLP⦄ ⦃k : NibbleSlice⦄, orig.Rep (Trie.node sha3 t) → k.Shows ns →
    wp DB.handler (Writes S) (deleteAt orig k) db
      (Removed S db t ns (Patricia.remove lone t ns))

section Bounds

variable {B d : Nat}

theorem within_collapse {slots : Nibble → Trie} {value : Option Bytes}
    (h : Within B d (.branch slots value))
    (hlone : ∀ x, Storable x → Within B d (lone x))
    (hused : ∃ a, Patricia.Used slots value a) :
    Within B d (Patricia.collapse lone slots value) := by
  rcases Patricia.used_cases slots value with
    ⟨rfl, hall⟩ | ⟨i, hi⟩ | ⟨x, rfl, hall⟩ | ⟨a, b, hab, ha, hb⟩
  · obtain ⟨a, ha⟩ := hused
    cases a with
    | none => exact absurd rfl ha
    | some i => exact absurd (hall i) ha
  · have hslot : Within B (d + [i].length) (slots i) := h.2.1 i
    rw [Patricia.collapse_of_onlySlot hi]
    exact within_graft (by simp) (hslot.lt hi.2.1) hslot
  · rw [Patricia.collapse_of_value hall]
    exact hlone x (h.2.2 x rfl)
  · rw [Patricia.collapse_of_two hab ha hb]
    exact h

/-- Removal keeps the bound. -/
theorem within_remove {t' : Trie} (hcanonical : t.Canonical)
    (ht : Within B d t)
    (hlone : ∀ x d', Storable x → d' ≤ d + ns.length → d' < B →
      Within B d' (lone x))
    (h : Patricia.remove lone t ns = some t') : Within B d t' := by
  induction t generalizing d ns t' with
  | empty => cases h
  | leaf key value =>
      by_cases hk : ns = key
      · obtain rfl : .empty = t' := by simpa [Patricia.remove, hk] using h
        trivial
      · simp [Patricia.remove, hk] at h
  | ext key child ih =>
      obtain ⟨hkey, hbranch, hchild⟩ := hcanonical
      obtain ⟨-, -, hlt, hbelow⟩ := ht
      by_cases hk : key <+: ns
      · obtain ⟨r, rfl⟩ := hk
        simp only [Patricia.remove, List.prefix_append, ↓reduceIte,
          List.drop_left, Option.map_eq_some_iff] at h
        obtain ⟨u, hu, rfl⟩ := h
        refine within_graft hkey hlt (ih hchild hbelow (fun x d' hx hd' => ?_) hu)
        refine hlone x d' hx ?_
        rw [List.length_append]
        omega
      · simp [Patricia.remove, hk] at h
  | branch slots value ih =>
      cases ns with
      | nil =>
          cases value with
          | none => cases h
          | some x =>
              obtain rfl : Patricia.collapse lone slots none = t' := by
                simpa [Patricia.remove] using h
              obtain ⟨i, hi⟩ := hcanonical.exists_slot
              exact within_collapse ⟨ht.1, ht.2.1, fun x hx => by cases hx⟩
                (fun x hx => hlone x d hx (by omega) ht.1) ⟨some i, hi⟩
      | cons i ns =>
          simp only [Patricia.remove, Option.map_eq_some_iff] at h
          obtain ⟨u, hu, rfl⟩ := h
          rw [List.length_cons] at hlone
          have hbelow := ih i (hcanonical.1 i) (ht.2.1 i)
            (fun x d' hx hd' => hlone x d' hx (by omega)) hu
          exact within_collapse (within_update ht hbelow ht.2.2)
            (fun x hx => hlone x d hx (by omega) ht.1)
            (hcanonical.exists_used_update i u)

end Bounds

theorem Gives.within_left {t' : Trie} (h : Gives S db lone t ns)
    (hleft : Patricia.remove lone t ns = some t') : Within S.bound 0 t' :=
  within_remove h.canonical h.within
    (fun x d hx hd => h.bounded x d hx (by omega)) hleft

section Descent

variable {orig : RLP} {k : NibbleSlice}

/-- Removal from the trie that a slot holds. -/
theorem wp_deleteRef (hheld : Held sha3 (DB.lookup db) t)
    (hgives : Gives S db lone t ns) (hdeletes : Deletes S db lone deleteAt t ns)
    (hr : orig.Rep (ref sha3 t)) (hk : k.Shows ns) :
    wp DB.handler (Writes S) (do
        if orig.isEmpty then pure []
        else if orig.isList then deleteAt orig k
        else do
          let h ← orig.toHash 32 .strict
          let s ← GenericTrieDB.node h
          let r ← RLP.ofBytes s
          deleteAt r k : DBProgram Bytes) db
      (Removed S db t ns (Patricia.remove lone t ns)) := by
  by_cases hbig : Big sha3 t
  · obtain ⟨n, hn⟩ := exists_isHashOf hbig hgives.within hr
    simp only [hn.isEmpty, Bool.false_eq_true, ↓reduceIte, hn.isList, hn.toHash,
      wp_ok_bind, wp_node_bind, hheld.1 hbig, hn.ofBytes]
    exact hdeletes hn.rep hk
  · rw [ref_of_not_big hbig] at hr
    by_cases hempty : t = .empty
    · subst hempty
      have : orig.isEmpty = true := hr.isEmpty
      rw [if_pos this]
      exact ⟨rfl, rfl⟩
    · have hne : orig.isEmpty = false := by
        rw [hr.isEmpty, List.isEmpty_eq_false_iff]
        exact payload_node_ne_nil hempty
      rw [if_neg (by simp [hne]), if_pos (by rw [hr.isList, node_isList hempty])]
      exact hdeletes hr hk

theorem wp_deleteAtAux_none (hheld : Held sha3 (DB.lookup db) t)
    (hgives : Gives S db lone t ns) (hdeletes : Deletes S db lone deleteAt t ns)
    (hr : orig.Rep (ref sha3 t)) (hk : k.Shows ns)
    (hleft : Patricia.remove lone t ns = none) (out : RLPStream) :
    wp DB.handler (Writes S) (deleteAtAux sha3 deleteAt out orig k) db
      fun r db' => r = none ∧ db' = db := by
  have hdelete := wp_deleteRef hheld hgives hdeletes hr hk
  rw [hleft] at hdelete
  rw [deleteAtAux]
  refine wp_bind_of hdelete ?_
  rintro b db' ⟨rfl, rfl⟩
  exact ⟨rfl, rfl⟩

theorem wp_deleteAtAux_some {t' : Trie} (hheld : Held sha3 (DB.lookup db) t)
    (hgives : Gives S db lone t ns) (hdeletes : Deletes S db lone deleteAt t ns)
    (hr : orig.Rep (ref sha3 t)) (hk : k.Shows ns)
    (hleft : Patricia.remove lone t ns = some t') {out out' : RLPStream}
    (hout : out.appendRaw (encode (ref sha3 t')) 1 = .ok out') :
    wp DB.handler (Writes S) (deleteAtAux sha3 deleteAt out orig k) db
      fun r db' => r = some out' ∧ Follows S db db' ∧
        Held sha3 (DB.lookup db') t' ∧
          ((∀ x, ¬ Strands t ns x) →
            DB.Moves db db' (refs sha3 t) (refs sha3 t')) ∧
          (t' = .empty → DB.lookup db' = DB.lookup db) := by
  have hdelete := wp_deleteRef hheld hgives hdeletes hr hk
  rw [hleft] at hdelete
  rw [deleteAtAux]
  refine wp_bind_of hdelete ?_
  rintro b db' ⟨⟨rfl, hfollows, hstored, hmoves⟩, hempty⟩
  rw [if_neg (enc_ne_nil t')]
  by_cases hnil : t' = .empty
  · subst hnil
    rw [ref_empty] at hout
    have hstream : streamNode sha3 out (enc sha3 .empty) = .done out' := by
      rw [streamNode, if_pos (Nat.not_le.1 not_big_empty)]
      exact congrArg Program.ofExcept hout
    rw [hstream]
    refine ⟨rfl, hfollows, held_empty _, fun hno => ?_, fun _ => hempty rfl⟩
    rw [refs_empty]
    exact hmoves hno
  refine wp_bind_of (wp_streamNode hfollows.consistent
    (hgives.within_left hleft) hstored hout) ?_
  rintro s db'' ⟨rfl, hfollows', hheld', hmoves'⟩
  exact ⟨rfl, hfollows.trans hfollows', hheld',
    fun hno => (hmoves hno).trans hmoves', fun h => absurd h hnil⟩

/-- The loop over the slots of a branch, once the slot `i` is done. -/
theorem deleteSlots_after {all : List RLPTree} {c : Nat → RLP} {i : Nat}
    (hget : ∀ j < 17, orig.get j = .ok (c j))
    (hother : ∀ j < 17, j ≠ i → (partialList all j).appendItem (c j) =
      .ok (partialList all (j + 1))) {m j : Nat} (hjm : j + m = 17)
    (hij : i < j) :
    deleteSlots sha3 deleteAt orig i k (List.range' j m) (partialList all j) =
      .done (some (partialList all 17)) := by
  induction m generalizing j with
  | zero =>
      obtain rfl : j = 17 := by omega
      rfl
  | succ m ih =>
      rw [List.range'_succ, deleteSlots, hget j (by omega), liftM_ok_bind,
        if_neg (by omega), hother j (by omega) (by omega), liftM_ok_bind]
      exact ih (by omega) (by omega)

/-- The loop over the slots of a branch does at the slot `i` what matters. -/
theorem wp_deleteSlots {all : List RLPTree} {c : Nat → RLP} {i : Nat}
    (hi : i < 17) (hget : ∀ j < 17, orig.get j = .ok (c j))
    (hother : ∀ j < 17, j ≠ i → (partialList all j).appendItem (c j) =
      .ok (partialList all (j + 1)))
    {Q : Option RLPStream → σ → Prop}
    (hslot : wp DB.handler (Writes S)
      (deleteAtAux sha3 deleteAt (partialList all i) (c i) (k.mid 1)) db
        fun out db' => match out with
          | none => Q none db'
          | some r => r = partialList all (i + 1) ∧
              Q (some (partialList all 17)) db')
    {m j : Nat} (hjm : j + m = 17) (hji : j ≤ i) :
    wp DB.handler (Writes S)
      (deleteSlots sha3 deleteAt orig i k (List.range' j m)
        (partialList all j)) db Q := by
  induction m generalizing j with
  | zero => omega
  | succ m ih =>
      rw [List.range'_succ, deleteSlots, hget j (by omega), wp_ok_bind]
      by_cases hij : j = i
      · subst hij
        rw [if_pos rfl]
        refine wp_bind_of hslot fun out db' hout => ?_
        cases out with
        | none => exact hout
        | some r =>
            obtain ⟨rfl, hQ⟩ := hout
            show wp _ _ (deleteSlots sha3 deleteAt orig j k _ _) _ _
            rw [deleteSlots_after hget hother (by omega) (by omega)]
            exact hQ
      · rw [if_neg hij, hother j (by omega) hij, wp_ok_bind]
        exact ih (by omega) (by omega)

end Descent

section Cases

variable {fuel : Nat} {slots : Nibble → Trie} {value : Option Bytes}

theorem deletes_empty : Deletes S db lone
    (GenericTrieDB.deleteAt sha3 (fuel + 1)) .empty ns := by
  intro orig k hr hk
  have hempty : orig.isEmpty = true := hr.isEmpty
  rw [GenericTrieDB.deleteAt, if_pos hempty]
  exact ⟨rfl, rfl⟩

theorem deletes_leaf {key : List Nibble} {x : Bytes}
    (hgives : Gives S db lone (.leaf key x) ns) :
    Deletes S db lone (GenericTrieDB.deleteAt sha3 (fuel + 1)) (.leaf key x)
      ns := by
  intro orig k hr hk
  obtain ⟨k', c₀, c, hpair⟩ := exists_isPair hr hgives.within.leaf_short
  simp only [GenericTrieDB.deleteAt, hpair.isEmpty, Bool.false_eq_true,
    ↓reduceIte, hpair.isNode, hpair.itemCount, check_true, wp_ok_bind,
    hpair.keyOf, hpair.isLeaf, hpair.shows.equals hk, hk.contains hpair.shows,
    andThen, Patricia.remove]
  by_cases hkey : ns = key
  · subst hkey
    simp only [decide_true, ↓reduceIte, wp_ok_bind]
    refine wp_bind_of (wp_killNode hgives.consistent hr) ?_
    rintro _ db' ⟨hfollows, hlookup, hmoves⟩
    exact ⟨⟨rfl, hfollows, trivial, fun _ => hmoves _⟩, fun _ => hlookup⟩
  · have hkey' : ¬ key = ns := Ne.symm hkey
    have hpre : ¬ key <+: ns := fun h => hkey (hgives.reaches h)
    simp only [hkey, hkey', hpre, decide_false, Bool.false_eq_true,
      ↓reduceIte, wp_ok_bind]
    exact ⟨rfl, rfl⟩

theorem strands_ext_append {key : List Nibble} {child : Trie} {x : Bytes} :
    Strands (.ext key child) (key ++ ns) x ↔ Strands child ns x := by
  simp [Strands]

theorem Gives.child {key : List Nibble} {child : Trie}
    (h : Gives S db lone (.ext key child) (key ++ ns)) :
    Gives S db lone child ns where
  consistent := h.consistent
  canonical := h.canonical.2.2
  stored := h.stored.2
  within := h.within.child
  reaches := by simpa [Reaches] using h.reaches
  short x hx := h.short x (strands_ext_append.2 hx)
  replaces x hx := h.replaces x (strands_ext_append.2 hx)
  nonempty := h.nonempty
  bounded x d hx hd :=
    h.bounded x d hx (by rw [List.length_append]; omega)

theorem Gives.slot {i : Nibble}
    (h : Gives S db lone (.branch slots value) (i :: ns)) :
    Gives S db lone (slots i) ns where
  consistent := h.consistent
  canonical := h.canonical.1 i
  stored := (h.stored i).2
  within := h.within.slot i
  reaches := h.reaches
  short x hx := h.short x (.inl hx)
  replaces x hx := h.replaces x (.inl hx)
  nonempty := h.nonempty
  bounded x d hx hd :=
    h.bounded x d hx (by rw [List.length_cons]; omega)

/-- The calls with less fuel do what they should. -/
def DeletesBelow (S : Scope sha3) (σ : Type) [LawfulDB σ] (lone : Bytes → Trie)
    (fuel : Nat) : Prop :=
  ∀ ⦃db : σ⦄ ⦃t : Trie⦄ ⦃ns : List Nibble⦄, Gives S db lone t ns →
    ns.length < fuel →
      Deletes S db lone (GenericTrieDB.deleteAt sha3 fuel) t ns

/-- The key leaves an extension. -/
theorem deletes_ext_miss {key : List Nibble} {child : Trie}
    (hwithin : Within S.bound 0 (.ext key child)) (hkey : ¬ key <+: ns) :
    Deletes S db lone
      (GenericTrieDB.deleteAt sha3 (fuel + 1)) (.ext key child) ns := by
  intro orig k hr hk
  obtain ⟨k', c₀, c, hpair⟩ := exists_isPair hr hwithin.ext_short
  simp only [GenericTrieDB.deleteAt, hpair.isEmpty, Bool.false_eq_true,
    ↓reduceIte, hpair.isNode, hpair.itemCount, check_true, wp_ok_bind,
    hpair.keyOf, hpair.isLeaf, hpair.shows.equals hk, hk.contains hpair.shows,
    andThen, ite_self, Patricia.remove, hkey, decide_false]
  exact ⟨rfl, rfl⟩

/-- An extension takes in what is left of its child, if that has two items. -/
theorem wp_graftChild (hdb : Consistent S db) {key : List Nibble} {u : Trie}
    {orig c : RLP} (hr : orig.Rep (Trie.node sha3 (.ext key u)))
    (hget : orig.get 1 = .ok c) (hheld : Held sha3 (DB.lookup db) u)
    (hwithin : Within S.bound 0 (.ext key u)) :
    wp DB.handler (Writes S) (do
        let twoItem ← isTwoItemNode c
        if twoItem then graft orig else pure (enc sha3 (.ext key u))) db
      (Made S db (Patricia.graft key u) True (refs sha3 u)) := by
  have hne : u ≠ .empty := hwithin.2.1
  obtain ⟨d, hd, hrepd⟩ := hr.get (i := 1) rfl
  obtain rfl := Except.ok.inj (hget.symm.trans hd)
  refine wp_bind_of (wp_isTwoItemNode hne hheld hwithin.child hrepd) ?_
  rintro b db' ⟨rfl, rfl⟩
  by_cases htwo : isTwoItem u = true
  · rw [if_pos htwo]
    exact wp_graft hdb hr htwo hheld hwithin.child
      (within_graft hwithin.1 hwithin.2.2.1 hwithin.2.2.2)
  · rw [if_neg htwo, graft_of_not_twoItem hne (by simpa using htwo)]
    exact ⟨rfl, .refl hdb, hheld, fun _ => .refl db' _⟩

/-- The key goes on below an extension. -/
theorem deletes_ext_down {key : List Nibble} {child : Trie}
    (hgives : Gives S db lone (.ext key child) (key ++ ns))
    (hfuel : ns.length < fuel) (ih : DeletesBelow S σ lone fuel) :
    Deletes S db lone (GenericTrieDB.deleteAt sha3 (fuel + 1)) (.ext key child)
      (key ++ ns) := by
  intro orig k hr hk
  obtain ⟨k', c₀, c, hpair⟩ := exists_isPair hr hgives.within.ext_short
  have hrest : (k.mid k'.size).Shows ns := by
    have h := hk.mid (n := key.length) (by simp)
    rwa [List.drop_left, ← hpair.shows.size] at h
  have hchild := hgives.child
  have hdeletes := ih hchild hfuel
  simp only [GenericTrieDB.deleteAt, hpair.isEmpty, Bool.false_eq_true,
    ↓reduceIte, hpair.isNode, hpair.itemCount, check_true, wp_ok_bind,
    hpair.keyOf, hpair.isLeaf, hpair.shows.equals hk, hk.contains hpair.shows,
    andThen, ite_self, decide_true, hpair.first, hpair.second, Patricia.remove,
    List.prefix_append, List.drop_left]
  cases hleft : Patricia.remove lone child ns with
  | none =>
      have hfits : (RLPTree.list [.data (hexPrefix false key),
          ref sha3 child]).Fits := hgives.within.fits sha3 S.bound_le
      have hfirst := appendItem_partialList hfits hpair.rep_first (k := 0) rfl
      simp only [ofList_two (.data (hexPrefix false key)) (ref sha3 child),
        wp_ok_bind, hfirst, Option.map_none]
      refine wp_bind_of (wp_deleteAtAux_none hgives.stored hchild hdeletes
        hpair.rep_second hrest hleft _) ?_
      rintro out db' ⟨rfl, rfl⟩
      exact ⟨rfl, rfl⟩
  | some u =>
      have hne : u ≠ .empty := Patricia.remove_ne_empty hgives.nonempty
        hchild.canonical hgives.canonical.2.1 hleft
      have hu : Within S.bound (0 + key.length) u :=
        within_remove hchild.canonical hgives.within.2.2.2
          (fun x d hx hd => hgives.bounded x d hx (by
            rw [List.length_append]; omega)) hleft
      have hext : Within S.bound 0 (.ext key u) :=
        ⟨hgives.within.1, hne, hu.lt hne, hu⟩
      have hfits : (RLPTree.list [.data (hexPrefix false key),
          ref sha3 u]).Fits := hext.fits sha3 S.bound_le
      have hfirst := appendItem_partialList hfits hpair.rep_first (k := 0) rfl
      have hstream := RLPTree.appendRaw_partialList hfits (k := 1) rfl
      have hout : (partialList [.data (hexPrefix false key), ref sha3 u] 2).out =
          .ok (enc sha3 (.ext key u)) :=
        RLPTree.out_partialList [.data (hexPrefix false key), ref sha3 u]
      obtain ⟨r, hofBytes, hrep⟩ := RLP.Rep.ofBytes hfits
      have henc : RLP.ofBytes (enc sha3 (.ext key u)) = .ok r := hofBytes
      obtain ⟨d, hd, -⟩ := hrep.get (i := 1) rfl
      simp only [ofList_two (.data (hexPrefix false key)) (ref sha3 u),
        wp_ok_bind, hfirst, Option.map_some]
      refine wp_bind_of (wp_deleteAtAux_some hgives.stored hchild hdeletes
        hpair.rep_second hrest hleft hstream) ?_
      rintro out db₁ ⟨rfl, hfollows₁, hheld, hmoves₁, -⟩
      simp only [hout, liftM_ok_bind, henc, hd]
      refine wp_bind_of (wp_killNode hfollows₁.consistent hr) ?_
      rintro _ db₂ ⟨hfollows₂, -, hmoves₂⟩
      have hmoves : (∀ x, ¬ Strands (.ext key child) (key ++ ns) x) →
          DB.Moves db db₂ (refs sha3 (.ext key child)) (refs sha3 u) := by
        intro hno
        have hno' : ∀ x, ¬ Strands child ns x := fun x hx =>
          hno x (strands_ext_append.2 hx)
        have hframe := (hmoves₁ hno').frame (own sha3 (.ext key child))
        rw [add_comm, add_comm (refs sha3 u)] at hframe
        exact hframe.trans (hmoves₂ _)
      refine wp_mono (wp_graftChild hfollows₂.consistent hrep hd
        (hheld.mono hfollows₂.keeps) hext) ?_
      intro b db₃ hmade
      exact ⟨(hmade.mono fun _ => trivial).after
        (hfollows₁.trans hfollows₂) hmoves,
        fun h => absurd h (Patricia.graft_ne_empty hne key)⟩

theorem deletes_ext {key : List Nibble} {child : Trie}
    (hgives : Gives S db lone (.ext key child) ns) (hfuel : ns.length < fuel + 1)
    (ih : DeletesBelow S σ lone fuel) :
    Deletes S db lone (GenericTrieDB.deleteAt sha3 (fuel + 1)) (.ext key child)
      ns := by
  by_cases hkey : key <+: ns
  · obtain ⟨r, rfl⟩ := hkey
    have hpos := List.length_pos_iff.2 hgives.within.1
    rw [List.length_append] at hfuel
    exact deletes_ext_down hgives (by omega) ih
  · exact deletes_ext_miss hgives.within hkey

/-- The branch is written again without its value. -/
theorem wp_dropValue (hdb : Consistent S db) {orig : RLP} {c : Nat → RLP}
    (hbranch : IsBranchNode orig (fun i => ref sha3 (slots i)) value c)
    (hstored : Stored sha3 (DB.lookup db) (.branch slots none))
    (hwithin : Within S.bound 0 (.branch slots none)) :
    wp DB.handler (Writes S) (do
        let r ← RLPStream.ofList 17
        let r ← appendItems r orig (List.range 16)
        let r ← r.append []
        r.out : DBProgram Bytes) db
      (Made S db (.branch slots none) True
        (refsIn sha3 (.branch slots value))) := by
  have hfits : (RLPTree.list (branchItems (fun i => ref sha3 (slots i))
      none)).Fits := hwithin.fits sha3 S.bound_le
  have hcopy := appendItems_eq hbranch (fun _ => rfl) hfits
  have hvalue := append_value hfits
  rw [Option.getD_none] at hvalue
  simp only [ofList_branch (fun i => ref sha3 (slots i)) none, wp_ok_bind,
    hcopy, hvalue, out_branch]
  exact ⟨rfl, .refl hdb, hstored, fun _ => .refl db _⟩

/-- The key ends at a branch with a value. -/
theorem deletes_branch_nil {x : Bytes}
    (hgives : Gives S db lone (.branch slots (some x)) []) :
    Deletes S db lone (GenericTrieDB.deleteAt sha3 (fuel + 1))
      (.branch slots (some x)) [] := by
  intro orig k hr hk
  obtain ⟨c, hbranch⟩ := exists_branch hr
  have hsize : k.size = 0 := hk.size
  have hvalue : ∀ y, some x = some y → y ≠ [] :=
    fun y hy => (hgives.within.2.2 y hy).1
  have hitem : (c 16).isEmpty = false := by
    rw [hbranch.rep_value.isEmpty, List.isEmpty_eq_false_iff]
    exact hvalue x rfl
  have hcleared : Within S.bound 0 (.branch slots none) :=
    ⟨hgives.within.1, hgives.within.2.1, fun y hy => by cases hy⟩
  obtain ⟨i₀, hi₀⟩ := hgives.canonical.exists_slot
  have hleftNe : Patricia.collapse lone slots none ≠ .empty :=
    Patricia.collapse_ne_empty (a := some i₀) hi₀ hgives.nonempty
  simp only [GenericTrieDB.deleteAt, hbranch.isEmpty, Bool.false_eq_true,
    ↓reduceIte, hbranch.isNode, hbranch.itemCount, check_true, wp_ok_bind,
    Nat.reduceEqDiff, hsize, beq_self_eq_true, andThen,
    hbranch.get 16 (by decide), ok_bind, hitem, Bool.not_false,
    Patricia.remove]
  refine wp_bind_of (wp_killNode hgives.consistent hr) ?_
  rintro _ db' ⟨hfollows, -, hmoves⟩
  have hstored := hgives.stored.mono hfollows.keeps
  suffices hmade : wp DB.handler (Writes S) (do
      let used ← uniqueInUse orig 16
      if used ≠ 255 then mergeUsed orig used
      else do
        let r ← RLPStream.ofList 17
        let r ← appendItems r orig (List.range 16)
        let r ← r.append []
        r.out : DBProgram Bytes) db' (Made S db'
          (Patricia.collapse lone slots none) True
          (refsIn sha3 (.branch slots (some x)))) by
    refine wp_mono hmade fun b db'' hmade => ?_
    exact ⟨(hmade.mono fun _ => trivial).after hfollows fun _ => hmoves _,
      fun h => absurd h hleftNe⟩
  rcases Patricia.used_cases slots none with
    ⟨-, hall⟩ | ⟨i, hi⟩ | ⟨y, hy, -⟩ | ⟨a, b, hab, ha, hb⟩
  · exact absurd (hall i₀) hi₀
  · have hindex : slotIndex (some i) ≠ 16 := i.isLt.ne
    have hunique := uniqueInUse_only hr hvalue (a := some i) hi.2.1 hindex
      fun b hb hne => by
        cases b with
        | none => exact absurd rfl hne
        | some j => rw [hi.2.2 j hb]
    have hneq : slotIndex (some i) ≠ 255 := by
      have := i.isLt
      simp only [slotIndex]
      omega
    rw [hunique, wp_ok_bind, if_pos hneq, Patricia.collapse_of_onlySlot hi,
      refsIn_branch, ← refsIn_branch slots none, refsIn_onlySlot hi]
    exact wp_mergeUsed_slot hfollows.consistent hr hi.2.1 hstored hgives.within
  · cases hy
  · have hslot : ∀ a, Patricia.Used slots none a → slotIndex a ≠ 16 ∧
        Patricia.Used slots (some x) a := by
      intro a ha
      cases a with
      | none => exact absurd rfl ha
      | some i => exact ⟨i.isLt.ne, ha⟩
    rw [uniqueInUse_two hr hvalue hab (hslot a ha).2 (hslot b hb).2
      (hslot a ha).1 (hslot b hb).1, wp_ok_bind, if_neg (by simp),
      Patricia.collapse_of_two hab ha hb]
    exact wp_dropValue hfollows.consistent hbranch hstored hcleared

/-- The key goes on below a branch and is not found. -/
theorem deletes_branch_miss {i : Nibble}
    (hgives : Gives S db lone (.branch slots value) (i :: ns))
    (hfuel : ns.length < fuel) (hleft : Patricia.remove lone (slots i) ns = none)
    (ih : DeletesBelow S σ lone fuel) :
    Deletes S db lone (GenericTrieDB.deleteAt sha3 (fuel + 1))
      (.branch slots value) (i :: ns) := by
  intro orig k hr hk
  obtain ⟨c, hbranch⟩ := exists_branch hr
  have hsize := hk.size_cons
  have hget : k.get 0 = .ok i.toByte := hk.get rfl
  have hrest : (k.mid 1).Shows ns := hk.mid (n := 1) (by simp)
  have hfits : (RLPTree.list (branchItems (fun j =>
      ref sha3 (Function.update slots i (slots i) j)) value)).Fits := by
    rw [Function.update_eq_self]
    exact hgives.within.fits sha3 S.bound_le
  have hslot := wp_deleteAtAux_none (hgives.stored i) hgives.slot
    (ih hgives.slot hfuel) (hbranch.rep_slot i) hrest hleft
    (partialList (branchItems (fun j =>
      ref sha3 (Function.update slots i (slots i) j)) value) i)
  simp only [GenericTrieDB.deleteAt, hbranch.isEmpty, Bool.false_eq_true,
    ↓reduceIte, hbranch.isNode, hbranch.itemCount, check_true, wp_ok_bind,
    Nat.reduceEqDiff, hsize, andThen, hget, Nibble.toNat_toByte,
    ofList_branch (fun j => ref sha3 (Function.update slots i (slots i) j)) value,
    List.range_eq_range', Patricia.remove, hleft, Option.map_none]
  refine wp_bind_of (wp_deleteSlots (by omega) hbranch.get
    (fun j hj hji => appendItem_update hbranch hfits hj hji)
    (Q := fun out db' => out = none ∧ db' = db) ?_ rfl (Nat.zero_le _)) ?_
  · refine wp_mono hslot ?_
    rintro out db' ⟨rfl, rfl⟩
    exact ⟨rfl, rfl⟩
  · rintro out db' ⟨rfl, rfl⟩
    exact ⟨rfl, rfl⟩

/-- What is left of a slot has a place in the branch. -/
theorem Gives.within_update {i : Nibble} {u : Trie}
    (hgives : Gives S db lone (.branch slots value) (i :: ns))
    (hleft : Patricia.remove lone (slots i) ns = some u) :
    Within S.bound 0 (.branch (Function.update slots i u) value) := by
  have hbelow : Within S.bound (0 + 1) u :=
    within_remove (hgives.canonical.1 i) (hgives.within.2.1 i)
      (fun x d hx hd => hgives.bounded x d hx (by
        rw [List.length_cons]; omega)) hleft
  exact Trie.within_update hgives.within hbelow hgives.within.2.2

/-- A branch left with its value alone had the removed leaf as only child. -/
theorem Gives.strands_of_update {i : Nibble} {u : Trie} {x : Bytes}
    (hgives : Gives S db lone (.branch slots value) (i :: ns))
    (hleft : Patricia.remove lone (slots i) ns = some u) (hx : value = some x)
    (hall : ∀ j, Function.update slots i u j = .empty) :
    Strands (.branch slots value) (i :: ns) x ∧ u = .empty := by
  have hu : u = .empty := by simpa using hall i
  subst hu
  refine ⟨.inr ⟨hx, Patricia.eq_leaf_of_remove hgives.nonempty
    (hgives.canonical.1 i) hleft, fun j hji => ?_⟩, rfl⟩
  simpa [hji] using hall j

/-- The loop over the slots of a branch, where the key is found below. -/
theorem wp_deleteSlots_some {i : Nibble} {u : Trie} {orig : RLP}
    {k : NibbleSlice} {c : Nat → RLP}
    (hgives : Gives S db lone (slots i) ns)
    (hdeletes : Deletes S db lone deleteAt (slots i) ns)
    (hleft : Patricia.remove lone (slots i) ns = some u)
    (hheld : Held sha3 (DB.lookup db) (slots i))
    (hwithin : Within S.bound 0 (.branch (Function.update slots i u) value))
    (hbranch : IsBranchNode orig (fun j => ref sha3 (slots j)) value c)
    (hk : k.Shows (i :: ns)) :
    wp DB.handler (Writes S) (deleteSlots sha3 deleteAt orig i k
        (List.range' 0 17) (partialList (branchItems (fun j =>
          ref sha3 (Function.update slots i u j)) value) 0)) db
      fun out db' => out = some (partialList (branchItems (fun j =>
          ref sha3 (Function.update slots i u j)) value) 17) ∧
        Follows S db db' ∧ Held sha3 (DB.lookup db') u ∧
          ((∀ x, ¬ Strands (slots i) ns x) →
            DB.Moves db db' (refs sha3 (slots i)) (refs sha3 u)) ∧
          (u = .empty → DB.lookup db' = DB.lookup db) := by
  have hrest : (k.mid 1).Shows ns := hk.mid (n := 1) (by simp)
  have hfits : (RLPTree.list (branchItems (fun j =>
      ref sha3 (Function.update slots i u j)) value)).Fits :=
    hwithin.fits sha3 S.bound_le
  have hitem := branchItems_slot
    (fun j => ref sha3 (Function.update slots i u j)) value i
  simp only [Function.update_self] at hitem
  have hslot := wp_deleteAtAux_some hheld hgives hdeletes (hbranch.rep_slot i)
    hrest hleft (RLPTree.appendRaw_partialList hfits hitem)
  refine wp_deleteSlots (by omega) hbranch.get
    (fun j hj hji => appendItem_update hbranch hfits hj hji) ?_ rfl
    (Nat.zero_le _)
  refine wp_mono hslot ?_
  rintro out db' ⟨rfl, h⟩
  exact ⟨rfl, rfl, h⟩

/-- The key goes on below a branch and is found. -/
theorem deletes_branch_found {i : Nibble} {u : Trie}
    (hgives : Gives S db lone (.branch slots value) (i :: ns))
    (hfuel : ns.length < fuel)
    (hleft : Patricia.remove lone (slots i) ns = some u)
    (ih : DeletesBelow S σ lone fuel) :
    Deletes S db lone (GenericTrieDB.deleteAt sha3 (fuel + 1))
      (.branch slots value) (i :: ns) := by
  intro orig k hr hk
  obtain ⟨c, hbranch⟩ := exists_branch hr
  have hsize := hk.size_cons
  have hget : k.get 0 = .ok i.toByte := hk.get rfl
  have hwithin := hgives.within_update hleft
  have hfits : (RLPTree.list (branchItems (fun j =>
      ref sha3 (Function.update slots i u j)) value)).Fits :=
    hwithin.fits sha3 S.bound_le
  obtain ⟨rlp, hofBytes, hrep⟩ := RLP.Rep.ofBytes hfits
  have hused := hgives.canonical.exists_used_update i u
  have hleftNe : Patricia.collapse lone (Function.update slots i u) value ≠
      .empty := by
    obtain ⟨a, ha⟩ := hused
    exact Patricia.collapse_ne_empty ha hgives.nonempty
  simp only [GenericTrieDB.deleteAt, hbranch.isEmpty, Bool.false_eq_true,
    ↓reduceIte, hbranch.isNode, hbranch.itemCount, check_true, wp_ok_bind,
    Nat.reduceEqDiff, hsize, andThen, hget, Nibble.toNat_toByte,
    ofList_branch (fun j => ref sha3 (Function.update slots i u j)) value,
    List.range_eq_range', Patricia.remove, hleft, Option.map_some]
  refine wp_bind_of (wp_deleteSlots_some hgives.slot (ih hgives.slot hfuel)
    hleft (hgives.stored i) hwithin hbranch hk) ?_
  rintro out db₁ ⟨rfl, hfollows₁, hheld, hmoves₁, hempty⟩
  simp only [out_branch, liftM_ok_bind, hofBytes]
  refine wp_bind_of (wp_killNode hfollows₁.consistent hr) ?_
  rintro _ db₂ ⟨hfollows₂, hlookup, hmoves₂⟩
  have hfollows := hfollows₁.trans hfollows₂
  have hstored : Stored sha3 (DB.lookup db₂)
      (.branch (Function.update slots i u) value) :=
    stored_update (hgives.stored.mono hfollows.keeps)
      (hheld.mono hfollows₂.keeps)
  have hlone : ∀ x, value = some x →
      (∀ j, Function.update slots i u j = .empty) → x.length ≤ 32 ∧
        Replaces sha3 db₂ x (lone x) ∧ Within S.bound 0 (lone x) := by
    intro x hx hall
    obtain ⟨hstrands, hu⟩ := hgives.strands_of_update hleft hx hall
    exact ⟨hgives.short x hstrands, (hgives.replaces x hstrands).congr
      (hlookup.trans (hempty hu)), hgives.bounded x 0 (hgives.within.2.2 x hx)
        (by omega) hwithin.1⟩
  refine wp_mono (wp_collapse hfollows₂.consistent hrep hstored hwithin hused
    hlone) fun b db₃ hmade => ?_
  refine ⟨(hmade.mono fun hno => ?_).after hfollows fun hno => ?_,
    fun h => absurd h hleftNe⟩
  · obtain ⟨a, ha⟩ := hused
    cases a with
    | some j => exact ⟨j, ha⟩
    | none =>
        by_contra hall
        obtain ⟨x, hx⟩ := Option.ne_none_iff_exists'.1 ha
        have hall' : ∀ j, Function.update slots i u j = .empty := by
          simpa using hall
        exact hno x (hgives.strands_of_update hleft hx hall').1
  · have hframe := (hmoves₁ fun x hx => hno x (.inl hx)).frame
      (∑ j ∈ Finset.univ.erase i, refs sha3 (slots j))
    rw [← refsIn_eq_slot slots value, ← refsIn_update slots value] at hframe
    have hown := hframe.frame (own sha3 (.branch slots value))
    rw [add_comm, add_comm (refsIn sha3 (.branch (Function.update _ _ _) _))]
      at hown
    exact hown.trans (hmoves₂ _)

/-- Removal of a key, given a call for each nibble. -/
theorem deletes (fuel : Nat) : DeletesBelow S σ lone fuel := by
  induction fuel with
  | zero => exact fun db t ns _ hfuel => absurd hfuel (Nat.not_lt_zero _)
  | succ fuel ih =>
      intro db t ns hgives hfuel
      cases t with
      | empty => exact deletes_empty
      | leaf key x => exact deletes_leaf hgives
      | ext key child => exact deletes_ext hgives hfuel ih
      | branch slots value =>
          cases ns with
          | nil =>
              cases value with
              | none => exact absurd rfl hgives.reaches
              | some x => exact deletes_branch_nil hgives
          | cons i ns =>
              have hlt : ns.length < fuel := by
                rw [List.length_cons] at hfuel
                omega
              cases hleft : Patricia.remove lone (slots i) ns with
              | none => exact deletes_branch_miss hgives hlt hleft ih
              | some u => exact deletes_branch_found hgives hlt hleft ih

end Cases

section Object

variable {g : GenericTrieDB} {key : Bytes}

/-- What `remove` does with the outcome of `deleteAt`. -/
theorem wp_remove_of (h : Opened S db g t)
    (hgives : Gives S db lone t (nibbles key))
    (hshort : key.length * 2 < S.bound) {Q : GenericTrieDB → σ → Prop}
    (hleft : ∀ b db', Removed S db t (nibbles key)
      (Patricia.remove lone t (nibbles key)) b db' →
      wp DB.handler (Writes S) (
        if b ≠ [] then do
          onlyIf ((enc sha3 t).length < 32) (forceKillNode g.root)
          let root ← forceInsertNode sha3 b
          pure ⟨root⟩
        else pure g) db' Q) :
    wp DB.handler (Writes S) (GenericTrieDB.remove sha3 g key) db Q := by
  obtain ⟨r, hr, hrep⟩ :=
    RLP.Rep.ofBytes (h.within.fits sha3 S.bound_le)
  have henc : RLP.ofBytes (enc sha3 t) = .ok r := hr
  have hdeletes := deletes (key.length * 2 + 2) hgives
    (by rw [length_nibbles]; omega) hrep (S.shows_key hshort)
  rw [GenericTrieDB.remove, wp_node_bind, h.root, h.top, henc, wp_ok_bind]
  rw [h.root] at hleft
  exact wp_bind_of hdeletes hleft

/-- Removing a key that is not there does nothing. -/
theorem wp_remove_none (h : Opened S db g t)
    (hgives : Gives S db lone t (nibbles key))
    (hshort : key.length * 2 < S.bound)
    (hnone : Patricia.lookup t (nibbles key) = none) :
    wp DB.handler (Writes S) (GenericTrieDB.remove sha3 g key) db
      fun g' db' => g' = g ∧ db' = db := by
  refine wp_remove_of h hgives hshort fun b db' hremoved => ?_
  rw [(Patricia.remove_eq_none_iff lone t _).2 hnone] at hremoved
  obtain ⟨rfl, rfl⟩ := hremoved
  exact ⟨rfl, rfl⟩

/-- Removing a key that is there takes it out of the trie. -/
theorem wp_remove_some {t' : Trie} (h : Opened S db g t)
    (hgives : Gives S db lone t (nibbles key))
    (hshort : key.length * 2 < S.bound)
    (hleft : Patricia.remove lone t (nibbles key) = some t') :
    wp DB.handler (Writes S) (GenericTrieDB.remove sha3 g key) db
      fun g' db' => Opened S db' g' t' ∧ DB.Extends db db' ∧
        ((∀ x, ¬ Strands t (nibbles key) x) →
          DB.Moves db db' (total sha3 t) (total sha3 t')) := by
  refine wp_remove_of h hgives hshort fun b db' hremoved => ?_
  rw [hleft] at hremoved
  obtain ⟨hmade, -⟩ := hremoved
  have hne : b ≠ [] := hmade.bytes ▸ enc_ne_nil t'
  rw [if_pos hne]
  exact wp_replaceRoot h (hgives.within_left hleft) hmade

end Object

end Trie

end Web3Core
