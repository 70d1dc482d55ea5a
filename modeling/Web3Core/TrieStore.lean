/-
Tries in a database.  A database is consistent if whatever it holds under a
hash is the encoding of a trie with that hash whose own nodes it holds; the
strings that get written are in a set on which the hash is injective.  The
low-level node functions of `TrieDB.h` keep a database consistent, lose no
contents, and move references.
-/
import Web3Core.TrieDB
import Web3Core.TrieNode

namespace Web3Core

open RLPTree (encode partialList)

open LawfulDB (Lax count)

namespace Trie

variable (sha3 : Bytes → H256)

/-- The reference to the top node of a trie from the node above it. -/
def own (t : Trie) (h : H256) : Nat :=
  if Big sha3 t ∧ hash sha3 t = h then 1 else 0

/-- The references that the nodes of a trie hold. -/
def refsIn : Trie → H256 → Nat
  | .empty => 0
  | .leaf _ _ => 0
  | .ext _ child => own sha3 child + refsIn child
  | .branch slots _ => ∑ i, (own sha3 (slots i) + refsIn (slots i))

/-- The references to and in a trie below another node. -/
def refs (t : Trie) : H256 → Nat := own sha3 t + refsIn sha3 t

/-- The nodes below the top node are held under their hashes. -/
def Stored (lookup : H256 → Bytes) : Trie → Prop
  | .empty => True
  | .leaf _ _ => True
  | .ext _ child =>
      (Big sha3 child → lookup (hash sha3 child) = enc sha3 child) ∧
        Stored lookup child
  | .branch slots _ => ∀ i,
      (Big sha3 (slots i) → lookup (hash sha3 (slots i)) = enc sha3 (slots i)) ∧
        Stored lookup (slots i)

/-- The nodes of a trie below another node are held. -/
def Held (lookup : H256 → Bytes) (t : Trie) : Prop :=
  (Big sha3 t → lookup (hash sha3 t) = enc sha3 t) ∧ Stored sha3 lookup t

end Trie

/-- What may go into a database: byte strings on which the hash is injective,
in nodes whose keys are short enough for the counters of the code. -/
structure Scope (sha3 : Bytes → H256) where
  strings : Set Bytes
  inj : Set.InjOn sha3 strings
  bound : Nat
  bound_le : bound ≤ 2 ^ 31 - 1

namespace Trie

variable {sha3 : Bytes → H256} {σ : Type} [LawfulDB σ]

/-- What is found in the database are nodes of tries it holds. -/
structure Consistent (S : Scope sha3) (db : σ) : Prop where
  lax : Lax db
  known : ∀ h, DB.lookup db h ≠ [] → ∃ t, Within S.bound 0 t ∧
    Stored sha3 (DB.lookup db) t ∧ DB.lookup db h = enc sha3 t ∧
      hash sha3 t = h ∧ enc sha3 t ∈ S.strings

/-- The database goes on consistently and keeps what it holds. -/
structure Follows (S : Scope sha3) (db db' : σ) : Prop where
  consistent : Consistent S db'
  keeps : DB.Extends db db'

/-- The trie object `g` over `db` is the trie `t`. -/
structure Opened (S : Scope sha3) (db : σ) (g : GenericTrieDB) (t : Trie) :
    Prop where
  consistent : Consistent S db
  within : Within S.bound 0 t
  stored : Stored sha3 (DB.lookup db) t
  root : g.root = hash sha3 t
  top : DB.lookup db (hash sha3 t) = enc sha3 t

variable (sha3) in
/-- The references to and in a trie that is kept by its root. -/
def total (t : Trie) : H256 → Nat := Pi.single (hash sha3 t) 1 + refsIn sha3 t

end Trie

/-- Only strings of a given set are written. -/
def Writes {sha3 : Bytes → H256} (S : Scope sha3) : DBCommand → Prop
  | .insert _ v => v ∈ S.strings
  | _ => True

namespace Trie

variable {sha3 : Bytes → H256} {σ : Type} [LawfulDB σ] {S : Scope sha3}
  {db db' db'' : σ}

@[simp] theorem refsIn_ext (key : List Nibble) (child : Trie) :
    refsIn sha3 (.ext key child) = refs sha3 child := rfl

theorem refsIn_branch (slots : Nibble → Trie) (value : Option Bytes) :
    refsIn sha3 (.branch slots value) = ∑ i, refs sha3 (slots i) := rfl

theorem own_of_not_big {t : Trie} (h : ¬ Big sha3 t) : own sha3 t = 0 := by
  funext x
  simp [own, h]

theorem own_of_big {t : Trie} (h : Big sha3 t) :
    own sha3 t = Pi.single (hash sha3 t) 1 := by
  funext x
  by_cases hx : x = hash sha3 t
  · subst hx
    simp [own, h]
  · simp [own, hx, Ne.symm hx]

@[simp] theorem refs_empty : refs sha3 .empty = 0 := by
  rw [refs, own_of_not_big not_big_empty]
  rfl

theorem refs_of_not_big {t : Trie} (h : ¬ Big sha3 t) :
    refs sha3 t = refsIn sha3 t := by
  rw [refs, own_of_not_big h, zero_add]

/-- The references of a branch by the slot that changes and the others. -/
theorem refsIn_update (slots : Nibble → Trie) (value : Option Bytes)
    (i : Nibble) (t : Trie) :
    refsIn sha3 (.branch (Function.update slots i t) value) =
      refs sha3 t + ∑ j ∈ Finset.univ.erase i, refs sha3 (slots j) := by
  rw [refsIn_branch, ← Finset.add_sum_erase _ _ (Finset.mem_univ i),
    Function.update_self]
  congr 1
  refine Finset.sum_congr rfl fun j hj => ?_
  rw [Function.update_of_ne (Finset.ne_of_mem_erase hj)]

theorem refsIn_eq_slot (slots : Nibble → Trie) (value : Option Bytes)
    (i : Nibble) :
    refsIn sha3 (.branch slots value) = refs sha3 (slots i) +
      ∑ j ∈ Finset.univ.erase i, refs sha3 (slots j) := by
  rw [← refsIn_update slots value, Function.update_eq_self]

theorem Follows.refl (h : Consistent S db) : Follows S db db :=
  ⟨h, .refl db⟩

theorem Follows.trans (h : Follows S db db') (h' : Follows S db' db'') :
    Follows S db db'' :=
  ⟨h'.consistent, h.keeps.trans h'.keeps⟩

theorem held_mono (h : DB.Extends db db') {t : Trie}
    (ht : Big sha3 t → DB.lookup db (hash sha3 t) = enc sha3 t) :
    Big sha3 t → DB.lookup db' (hash sha3 t) = enc sha3 t := by
  intro hbig
  have hlookup := ht hbig
  rw [h _ (by rw [hlookup]; exact enc_ne_nil t), hlookup]

theorem Stored.mono (h : DB.Extends db db') {t : Trie}
    (ht : Stored sha3 (DB.lookup db) t) : Stored sha3 (DB.lookup db') t := by
  induction t with
  | empty => trivial
  | leaf key value => trivial
  | ext key child ih => exact ⟨held_mono h ht.1, ih ht.2⟩
  | branch slots value ih =>
      exact fun i => ⟨held_mono h (ht i).1, ih i (ht i).2⟩

theorem Held.mono (h : DB.Extends db db') {t : Trie}
    (ht : Held sha3 (DB.lookup db) t) : Held sha3 (DB.lookup db') t :=
  ⟨held_mono h ht.1, ht.2.mono h⟩

theorem held_empty (lookup : H256 → Bytes) : Held sha3 lookup .empty :=
  ⟨fun hbig => absurd hbig not_big_empty, trivial⟩

theorem stored_update {slots : Nibble → Trie} {value value' : Option Bytes}
    {lookup : H256 → Bytes} {i : Nibble} {t : Trie}
    (hslots : Stored sha3 lookup (.branch slots value))
    (ht : Held sha3 lookup t) :
    Stored sha3 lookup (.branch (Function.update slots i t) value') := by
  intro j
  by_cases hji : j = i
  · subst hji
    rw [Function.update_self]
    exact ht
  · rw [Function.update_of_ne hji]
    exact hslots j

section Programs

open Program GenericTrieDB

theorem wp_node_bind {α : Type} (h : H256) (f : Bytes → DBProgram α)
    {Q : α → σ → Prop} :
    wp DB.handler (Writes S) (GenericTrieDB.node h >>= f) db Q ↔
      wp DB.handler (Writes S) (f (DB.lookup db h)) db Q :=
  forall_prop_of_true trivial

/-- Reading needs no assumption on what is written. -/
theorem wp_read_bind {α : Type} (h : H256) (f : Bytes → DBProgram α)
    {Q : α → σ → Prop} :
    wp DB.handler (fun _ => True) (GenericTrieDB.node h >>= f) db Q ↔
      wp DB.handler (fun _ => True) (f (DB.lookup db h)) db Q :=
  forall_prop_of_true trivial

/-- Killing an entry gives one reference up. -/
theorem wp_forceKillNode (hdb : Consistent S db) (h : H256) :
    wp DB.handler (Writes S) (forceKillNode h) db fun _ db' =>
      Follows S db db' ∧ DB.lookup db' = DB.lookup db ∧
        DB.Moves db db' (Pi.single h 1) 0 := by
  intro _
  have hlookup := LawfulDB.lookup_kill db h hdb.lax
  have hext : DB.Extends db (DB.kill db h) := fun x _ => hlookup x
  refine ⟨⟨⟨LawfulDB.lax_kill db h hdb.lax, fun x hx => ?_⟩, hext⟩,
    funext hlookup, ?_⟩
  · obtain ⟨t, hwithin, hstored, henc, hhash, hS⟩ :=
      hdb.known x fun hnil => hx ((hlookup x).trans hnil)
    exact ⟨t, hwithin, hstored.mono hext, (hlookup x).trans henc, hhash, hS⟩
  · refine ⟨LawfulDB.wrapped_kill db h, fun _ x f hf => ?_⟩
    show count (DB.kill db h) x = 0 + f
    rw [LawfulDB.count_kill, hf]
    by_cases hxh : x = h
    · subst hxh
      simp
    · simp [hxh]

/-- A node above the trie is told to give up its reference. -/
theorem wp_killNodeAt (hdb : Consistent S db) {r : RLP} {t : Trie}
    (hr : r.Rep (Trie.node sha3 t)) :
    wp DB.handler (Writes S) (killNodeAt r (hash sha3 t)) db fun _ db' =>
      Follows S db db' ∧ DB.lookup db' = DB.lookup db ∧
        ∀ a, DB.Moves db db' (own sha3 t + a) a := by
  rw [killNodeAt, hr.count]
  by_cases hbig : Big sha3 t
  · have hsize : (encode (Trie.node sha3 t)).length ≥ 32 := hbig
    rw [if_pos hsize, own_of_big hbig]
    refine wp_mono (wp_forceKillNode hdb _) ?_
    rintro _ db' ⟨hfollows, hlookup, hmoves⟩
    exact ⟨hfollows, hlookup, fun a =>
      (hmoves.frame a).congr rfl (zero_add a).symm⟩
  · have hsize : ¬ (encode (Trie.node sha3 t)).length ≥ 32 := hbig
    rw [if_neg hsize, own_of_not_big hbig]
    exact ⟨.refl hdb, rfl, fun a =>
      (DB.Moves.refl db a).congr (zero_add a) rfl⟩

theorem wp_killNode (hdb : Consistent S db) {r : RLP} {t : Trie}
    (hr : r.Rep (Trie.node sha3 t)) :
    wp DB.handler (Writes S) (killNode sha3 r) db fun _ db' =>
      Follows S db db' ∧ DB.lookup db' = DB.lookup db ∧
        ∀ a, DB.Moves db db' (own sha3 t + a) a := by
  rw [killNode, hr.data_toBytes]
  exact wp_killNodeAt hdb hr

/-- A node whose children are held is written. -/
theorem wp_forceInsertNode
    (hdb : Consistent S db) {t : Trie} (hwithin : Within S.bound 0 t)
    (hstored : Stored sha3 (DB.lookup db) t) :
    wp DB.handler (Writes S) (forceInsertNode sha3 (enc sha3 t)) db
      fun h db' => h = hash sha3 t ∧ Follows S db db' ∧
        DB.lookup db' (hash sha3 t) = enc sha3 t ∧
          DB.Moves db db' 0 (Pi.single (hash sha3 t) 1) := by
  intro hS
  have hS' : enc sha3 t ∈ S.strings := hS
  have hlookup := LawfulDB.lookup_insert db (hash sha3 t) (enc sha3 t) hdb.lax
    (enc_ne_nil t)
  have hext : DB.Extends db (DB.insert db (hash sha3 t) (enc sha3 t)) := by
    intro x hx
    rw [hlookup]
    by_cases hxh : x = hash sha3 t
    · obtain ⟨u, -, -, henc, hhash, hu⟩ := hdb.known x hx
      rw [if_pos hxh, henc]
      exact S.inj hS' hu (hxh.symm.trans hhash.symm)
    · rw [if_neg hxh]
  refine ⟨rfl, ⟨⟨LawfulDB.lax_insert _ _ _ hdb.lax, fun x hx => ?_⟩, hext⟩, ?_, ?_⟩
  · by_cases hxh : x = hash sha3 t
    · refine ⟨t, hwithin, hstored.mono hext, ?_, hxh.symm, hS'⟩
      exact (hlookup x).trans (if_pos hxh)
    · have hx' : DB.lookup db x ≠ [] := by
        intro hnil
        exact hx ((hlookup x).trans ((if_neg hxh).trans hnil))
      obtain ⟨u, hu, hus, henc, hhash, huS⟩ := hdb.known x hx'
      exact ⟨u, hu, hus.mono hext, (hext x hx').trans henc, hhash, huS⟩
  · exact (hlookup _).trans (if_pos rfl)
  · refine ⟨LawfulDB.wrapped_insert db _ _, fun hwrapped x f hf => ?_⟩
    show count (DB.insert db (hash sha3 t) (enc sha3 t)) x = _
    rw [LawfulDB.count_insert db (hash sha3 t) _ hwrapped, hf]
    by_cases hxh : x = hash sha3 t
    · subst hxh
      simp [Nat.add_comm]
    · simp [hxh]

/-- A trie is put into the node above it. -/
theorem wp_streamNode (hdb : Consistent S db)
    {t : Trie} (hwithin : Within S.bound 0 t)
    (hstored : Stored sha3 (DB.lookup db) t) {s s' : RLPStream}
    (hs : s.appendRaw (encode (ref sha3 t)) 1 = .ok s') :
    wp DB.handler (Writes S) (streamNode sha3 s (enc sha3 t)) db fun r db' =>
      r = s' ∧ Follows S db db' ∧ Held sha3 (DB.lookup db') t ∧
        DB.Moves db db' (refsIn sha3 t) (refs sha3 t) := by
  rw [streamNode]
  by_cases hbig : Big sha3 t
  · have hlen : ¬ (enc sha3 t).length < 32 := Nat.not_lt.2 hbig
    rw [if_neg hlen]
    refine wp_bind_of (wp_forceInsertNode hdb hwithin hstored) ?_
    rintro h db' ⟨rfl, hfollows, hheld, hmoves⟩
    have happend : s.appendHash (hash sha3 t) = .ok s' := by
      rw [RLPStream.appendHash_eq, RLPTree.append_eq_appendRaw s
        (by rw [(hash sha3 t).size_data]; decide), ← hs, ref_of_big hbig]
      rfl
    rw [happend]
    refine ⟨rfl, hfollows, ⟨fun _ => hheld, hstored.mono hfollows.keeps⟩, ?_⟩
    exact (hmoves.frame (refsIn sha3 t)).congr (zero_add _).symm
      (by rw [refs, own_of_big hbig])
  · have hlen : (enc sha3 t).length < 32 := Nat.not_le.1 hbig
    have happend : s.appendRaw (enc sha3 t) 1 = .ok s' := by
      rw [← hs, ref_of_not_big hbig]
      rfl
    rw [if_pos hlen, happend, refs_of_not_big hbig]
    exact ⟨rfl, .refl hdb, ⟨fun h => absurd h hbig, hstored⟩, .refl db _⟩

end Programs

end Trie

end Web3Core
