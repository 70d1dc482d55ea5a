/-
Iteration over a trie.  `begin()` and `operator++` go through the entries of the
map that the trie stands for, in the order of their keys and each once, and
`lower_bound` is where stepping past the smaller keys ends.
-/
import Web3Core.TrieContents
import Web3Core.TrieSeek

namespace Web3Core

open Program GenericTrieDB Trie

section Order

theorem nibbles_lt_iff {b c : Bytes} : nibbles b < nibbles c ↔ b < c := by
  induction b generalizing c with
  | nil =>
      cases c with
      | nil => exact iff_of_false (List.not_lt_nil _) (List.not_lt_nil _)
      | cons y c => exact iff_of_true (List.nil_lt_cons _ _) (List.nil_lt_cons _ _)
  | cons x b ih =>
      cases c with
      | nil => exact iff_of_false (List.not_lt_nil _) (List.not_lt_nil _)
      | cons y c =>
          have hbyte : x < y ↔ Nibble.high x < Nibble.high y ∨
              Nibble.high x = Nibble.high y ∧ Nibble.low x < Nibble.low y := by
            rw [UInt8.lt_iff_toNat_lt, Fin.lt_def, Fin.lt_def, Fin.ext_iff]
            simp only [Nibble.high, Nibble.low]
            omega
          have heq : x = y ↔ Nibble.high x = Nibble.high y ∧
              Nibble.low x = Nibble.low y := by
            constructor
            · rintro rfl
              exact ⟨rfl, rfl⟩
            · rintro ⟨hhigh, hlow⟩
              rw [← Nibble.join_high_low x, hhigh, hlow, Nibble.join_high_low]
          simp only [nibbles, List.cons_lt_cons_iff, ih, hbyte, heq]
          tauto

/-- The entries of a map are those of its trie. -/
theorem BytesMap.Denotes.entries_eq {m : BytesMap} {t : Trie}
    (h : m.Denotes t) :
    m.entries.map (fun e => (nibbles e.1, e.2)) = Patricia.entries t := by
  have hordered : (m.entries.map fun e => (nibbles e.1, e.2)).Pairwise
      fun a b => a.1 < b.1 := by
    rw [List.pairwise_map]
    exact m.ordered.imp fun hlt => nibbles_lt_iff.2 hlt
  have hnodup : ∀ {l : List (List Nibble × Bytes)},
      l.Pairwise (fun a b => a.1 < b.1) → l.Nodup := by
    intro l hl
    refine hl.imp fun {a b} hlt heq => ?_
    exact hlt.ne (congrArg Prod.fst heq)
  have hmem : ∀ e, e ∈ m.entries.map (fun e => (nibbles e.1, e.2)) ↔
      e ∈ Patricia.entries t := by
    rintro ⟨ns, x⟩
    rw [Patricia.mem_entries, h.holds, List.mem_map]
    constructor
    · rintro ⟨⟨k, y⟩, hmem, heq⟩
      cases heq
      exact ⟨k, rfl, OrderedMap.lookup_eq_some_iff.2 hmem⟩
    · rintro ⟨k, rfl, hk⟩
      exact ⟨(k, x), OrderedMap.lookup_eq_some_iff.1 hk, rfl⟩
  have hperm := (List.perm_ext_iff_of_nodup (hnodup hordered)
    (hnodup (Patricia.ordered_entries t))).2 hmem
  exact hperm.eq_of_pairwise (fun a b _ _ hab hba => absurd hab hba.not_gt)
    hordered (Patricia.ordered_entries t)

end Order

/-! The entry an iterator is at. -/

section Entry

variable {sha3 : Bytes → H256} {S : Scope sha3} {that : Option GenericTrieDB}
  {path : List Nibble} {below : List GenericTrieDB.Node} {k : Bytes}

theorem pack_nibbles (b : Bytes) : pack (nibbles b) = b := by
  induction b with
  | nil => rfl
  | cons x b ih => rw [nibbles, pack, ih, Nibble.join_high_low]

theorem hexPrefix_nibbles (b : Bytes) : hexPrefix false (nibbles b) = 0 :: b := by
  rw [hexPrefix_even false (by rw [length_nibbles]; omega), pack_nibbles]
  rfl

theorem entry_leaf {key : List Nibble} {value : Bytes}
    (hwithin : Within S.bound path.length (.leaf key value))
    (hkey : path ++ key = nibbles k) :
    Iterator.entry ⟨⟨enc sha3 (.leaf key value),
      hexPrefix false (path ++ key), 0⟩ :: below, that⟩ = .ok (k, value) := by
  have hbound := S.bound_le
  have hlt := hwithin.2
  obtain ⟨r, hr, hrep⟩ := exists_read sha3 hwithin
  obtain ⟨k', c₀, c, hpair⟩ := exists_isPair hrep (by omega)
  obtain ⟨v, hv, -, hbytes⟩ := hpair.rep_second.exists_payload
  rw [hkey, hexPrefix_nibbles]
  simp only [Iterator.entry, hr, ok_bind, hpair.itemCount, ↓reduceIte,
    hpair.second, hv, hbytes]
  rfl

theorem entry_branch {slots : Nibble → Trie} {x : Bytes}
    (hwithin : Within S.bound path.length (.branch slots (some x)))
    (hkey : path = nibbles k) :
    Iterator.entry ⟨branchOn sha3 slots (some x) path 16 :: below, that⟩ =
      .ok (k, x) := by
  obtain ⟨r, hr, hrep⟩ := exists_read sha3 hwithin
  obtain ⟨c, h⟩ := exists_branch hrep
  obtain ⟨v, hv, -, hbytes⟩ := h.rep_value.exists_payload
  rw [branchOn, hkey, hexPrefix_nibbles]
  simp only [Iterator.entry, hr, ok_bind, h.itemCount, Nat.reduceEqDiff,
    ↓reduceIte, h.get 16 (by omega), hv, hbytes]
  rfl

/-- The iterator is at the entry of its stop. -/
theorem entry_of_mem_stops (t : Trie) (path : List Nibble)
    (below : List GenericTrieDB.Node)
    (hwithin : Within S.bound path.length t) {s : Stop}
    (hs : s ∈ stops sha3 t path below) (hkey : s.key = nibbles k) :
    s.trail ≠ [] ∧ Iterator.entry ⟨s.trail, that⟩ = .ok (k, s.value) := by
  induction t generalizing path below with
  | empty => cases hs
  | leaf key value =>
      obtain rfl := List.mem_singleton.1 hs
      exact ⟨List.cons_ne_nil _ _, entry_leaf hwithin hkey⟩
  | ext key child ih =>
      have hchild := hwithin.2.2.2
      rw [← List.length_append] at hchild
      exact ih (path ++ key) below hchild hs
  | branch slots value ih =>
      rcases List.mem_append.1 hs with hs | hs
      · obtain ⟨x, hx, rfl⟩ := List.mem_map.1 hs
        obtain rfl := Option.mem_toList.1 hx
        exact ⟨List.cons_ne_nil _ _, entry_branch hwithin hkey⟩
      · obtain ⟨i, -, hi⟩ := mem_fromSlot hs
        have hslot := hwithin.2.1 i
        rw [show path.length + 1 = (path ++ [i]).length by simp] at hslot
        exact ih i (path ++ [i]) _ hslot hi

end Entry

/-! Loops over the entries. -/

section Loops

variable {sha3 : Bytes → H256} {σ : Type} [LawfulDB σ] {S : Scope sha3}
  {db : σ} {g : GenericTrieDB} {t : Trie} {m : BytesMap} {ss : List Stop}
  {es : List (Bytes × Bytes)} {p : Nat → DBProgram Iterator} {k : Bytes}

/-- The iterator at a stop, or `end()`. -/
def iteratorAt (g : GenericTrieDB) (s : Option Stop) : Iterator :=
  match s with
  | some s => ⟨s.trail, some g⟩
  | none => past

/-- A stop at the given entry. -/
structure Stop.At (g : GenericTrieDB) (s : Stop) (e : Bytes × Bytes) : Prop where
  trail_ne : s.trail ≠ []
  entry : Iterator.entry ⟨s.trail, some g⟩ = .ok e
  key : s.key = nibbles e.1

theorem Stop.At.not_past {s : Stop} {e : Bytes × Bytes} (h : s.At g e) :
    (iteratorAt g (some s)).equals past = false := by
  simpa [iteratorAt, Iterator.equals, past] using h.trail_ne

/-- The stops in the trie are at the entries of the map. -/
theorem stops_at (hdenotes : m.Denotes t) (hwithin : Within S.bound 0 t) :
    List.Forall₂ (Stop.At g) (stops sha3 t [] []) m.entries := by
  have hkeys : (stops sha3 t [] []).map (fun s => (s.key, s.value)) =
      m.entries.map fun e => (nibbles e.1, e.2) := by
    rw [stops_entries, hdenotes.entries_eq]
    simp [Patricia.prepend]
  have hall : ∀ s ∈ stops sha3 t [] [], ∀ e : Bytes × Bytes,
      (s.key, s.value) = (nibbles e.1, e.2) → s.At g e := by
    rintro s hs ⟨k, x⟩ heq
    obtain ⟨hkey, rfl⟩ := Prod.mk.inj heq
    obtain ⟨hne, hentry⟩ := entry_of_mem_stops t [] [] hwithin hs hkey
    exact ⟨hne, hentry, hkey⟩
  generalize stops sha3 t [] [] = ss at hkeys hall
  generalize m.entries = es at hkeys
  induction ss generalizing es with
  | nil =>
      rw [List.map_nil, eq_comm, List.map_eq_nil_iff] at hkeys
      rw [hkeys]
      exact .nil
  | cons s ss ih =>
      cases es with
      | nil => cases hkeys
      | cons e es =>
          obtain ⟨hhead, htail⟩ := List.cons.inj hkeys
          exact .cons (hall s List.mem_cons_self e hhead)
            (ih (fun s hs => hall s (List.mem_cons_of_mem _ hs)) es htail)

theorem nextRun_nil :
    Leads (nextRun g db []) fun _ => (.ok (past : Iterator), db) :=
  Leads.round fun _ => rfl

/-- Going through all entries from where a program leaves the iterator. -/
theorem exists_run_collect (hat : List.Forall₂ (Stop.At g) ss es)
    (hvisits : Visits (nextRun g db) (returned g db)
      (fun fuel => run DB.handler (p fuel) db) (ss.map Stop.trail)
      (nextRun g db [])) :
    ∃ enough, ∀ fuel ≥ enough, ∀ rounds > ss.length,
      run DB.handler (p fuel >>= fun it => it.collect fuel rounds) db =
        (.ok es, db) := by
  induction hat generalizing p with
  | nil =>
      obtain ⟨enough, h⟩ :=
        (Leads.trans hvisits nextRun_nil).exists_forall
      refine ⟨enough, fun fuel hfuel rounds hrounds => ?_⟩
      obtain ⟨rounds, rfl⟩ := Nat.exists_eq_succ_of_ne_zero hrounds.ne'
      rw [run_bind, h fuel hfuel]
      rfl
  | @cons s e ss es hs _ ih =>
      obtain ⟨enough, h⟩ := hvisits.1.exists_forall
      obtain ⟨enough', h'⟩ :=
        ih (p := fun fuel => nextLoop (some g) fuel s.trail) hvisits.2
      refine ⟨max enough enough', fun fuel hfuel rounds hrounds => ?_⟩
      obtain ⟨rounds, rfl⟩ := Nat.exists_eq_succ_of_ne_zero
        (Nat.ne_of_gt (Nat.zero_lt_of_lt hrounds))
      have hrest := h' fuel (le_trans (le_max_right _ _) hfuel) rounds
        (Nat.lt_of_succ_lt_succ hrounds)
      have hpast : Iterator.equals ⟨s.trail, some g⟩ past = false := hs.not_past
      rw [run_bind, h fuel (le_trans (le_max_left _ _) hfuel)]
      simp only [returned, Iterator.collect, hpast, Bool.false_eq_true,
        ↓reduceIte, hs.entry, liftM_ok_bind]
      rw [← bind_assoc]
      exact (run_bind _ _).trans (by rw [Iterator.next, hrest]; rfl)

/-- Stepping past the smaller keys from where a program leaves the
iterator. -/
theorem exists_run_skipBelow (hat : List.Forall₂ (Stop.At g) ss es)
    (hvisits : Visits (nextRun g db) (returned g db)
      (fun fuel => run DB.handler (p fuel) db) (ss.map Stop.trail)
      (nextRun g db [])) :
    ∃ enough, ∀ fuel ≥ enough, ∀ rounds > ss.length,
      run DB.handler (p fuel >>= fun it => it.skipBelow fuel k rounds) db =
        (.ok (iteratorAt g (firstFrom ss (nibbles k))), db) := by
  induction hat generalizing p with
  | nil =>
      obtain ⟨enough, h⟩ :=
        (Leads.trans hvisits nextRun_nil).exists_forall
      refine ⟨enough, fun fuel hfuel rounds hrounds => ?_⟩
      obtain ⟨rounds, rfl⟩ := Nat.exists_eq_succ_of_ne_zero hrounds.ne'
      rw [run_bind, h fuel hfuel]
      rfl
  | @cons s e ss es hs _ ih =>
      obtain ⟨enough, h⟩ := hvisits.1.exists_forall
      obtain ⟨enough', h'⟩ :=
        ih (p := fun fuel => nextLoop (some g) fuel s.trail) hvisits.2
      refine ⟨max enough enough', fun fuel hfuel rounds hrounds => ?_⟩
      obtain ⟨rounds, rfl⟩ := Nat.exists_eq_succ_of_ne_zero
        (Nat.ne_of_gt (Nat.zero_lt_of_lt hrounds))
      have hrest := h' fuel (le_trans (le_max_right _ _) hfuel) rounds
        (Nat.lt_of_succ_lt_succ hrounds)
      have hpast : Iterator.equals ⟨s.trail, some g⟩ past = false := hs.not_past
      rw [run_bind, h fuel (le_trans (le_max_left _ _) hfuel)]
      simp only [returned, Iterator.skipBelow, hpast, Bool.false_eq_true,
        ↓reduceIte, hs.entry, liftM_ok_bind]
      by_cases hlt : e.1 < k
      · have hpass : firstFrom (s :: ss) (nibbles k) =
            firstFrom ss (nibbles k) := by
          simp [firstFrom, hs.key, nibbles_lt_iff, hlt]
        rw [if_pos hlt, hpass]
        exact hrest
      · have hnot : ¬ s.key < nibbles k := by rwa [hs.key, nibbles_lt_iff]
        have hstop : firstFrom (s :: ss) (nibbles k) = some s :=
          List.find?_cons_of_pos (decide_eq_true hnot)
        rw [if_neg hlt, hstop]
        rfl

/-- Both constructors begin at the root. -/
theorem run_rootTrail (hopened : Opened S db g t)
    (f : List GenericTrieDB.Node → DBProgram Iterator) :
    run DB.handler (rootTrail g >>= f) db =
      run DB.handler (f [⟨enc sha3 t, hexPrefix false [], 255⟩]) db := by
  rw [rootTrail, bind_assoc, run_read_bind, hopened.root, hopened.top]
  rfl

theorem visits_begin (hopened : Opened S db g t) :
    Visits (nextRun g db) (returned g db)
      (fun fuel => run DB.handler (g.begin fuel) db)
      ((stops sha3 t [] []).map Stop.trail) (nextRun g db []) := by
  refine Leads.visits ⟨0, fun fuel => ?_⟩
    (visits_stops t [] [] hopened.within hopened.stored)
  rw [Nat.zero_add]
  exact run_rootTrail hopened _

theorem exists_run_lowerBound (hopened : Opened S db g t)
    (hk : k.length < 2 ^ 30) :
    ∃ enough, ∀ fuel ≥ enough, run DB.handler (g.lowerBound fuel k) db =
      (.ok (iteratorAt g (firstFrom (stops sha3 t [] []) (nibbles k))), db) := by
  have hseek := seeks (g := g) t [] (nibbles k) [] hopened.within hopened.stored
    (NibbleSlice.shows_key hk)
  rw [List.nil_append] at hseek
  refine Leads.exists_forall (Leads.trans ⟨0, fun fuel => ?_⟩
    (hseek.trans ?_))
  · rw [Nat.zero_add]
    exact run_rootTrail hopened _
  · cases firstFrom (stops sha3 t [] []) (nibbles k) with
    | some s => exact Leads.refl _
    | none => exact nextRun_nil

/-- What is known of the iterator behind the smaller keys. -/
theorem iteratorAt_firstFrom (hat : List.Forall₂ (Stop.At g) ss es)
    (k : Bytes) :
    match es.find? fun e => decide (¬ e.1 < k) with
    | some e => (iteratorAt g (firstFrom ss (nibbles k))).entry = .ok e
    | none => iteratorAt g (firstFrom ss (nibbles k)) = past := by
  induction hat with
  | nil => rfl
  | @cons s e ss es hs _ ih =>
      by_cases hlt : e.1 < k
      · have hpass : firstFrom (s :: ss) (nibbles k) =
            firstFrom ss (nibbles k) := by
          simp [firstFrom, hs.key, nibbles_lt_iff, hlt]
        have hpass' : (e :: es).find? (fun e => decide (¬ e.1 < k)) =
            es.find? fun e => decide (¬ e.1 < k) := by
          simp [hlt]
        rw [hpass, hpass']
        exact ih
      · have hnot : ¬ s.key < nibbles k := by rwa [hs.key, nibbles_lt_iff]
        have hstop : firstFrom (s :: ss) (nibbles k) = some s :=
          List.find?_cons_of_pos (decide_eq_true hnot)
        have hstop' : (e :: es).find? (fun e => decide (¬ e.1 < k)) = some e :=
          List.find?_cons_of_pos (decide_eq_true hlt)
        rw [hstop, hstop']
        exact hs.entry

/-- The entries are those of the map. -/
theorem Trie.Represents.exists_collect (hrep : Represents S db g m t) :
    ∃ enough, ∀ fuel ≥ enough,
      run DB.handler (g.begin fuel >>= fun it => it.collect fuel fuel) db =
        (.ok m.entries, db) := by
  have hat : List.Forall₂ (Stop.At g) (stops sha3 t [] []) m.entries :=
    stops_at hrep.denotes hrep.opened.within
  obtain ⟨enough, h⟩ := exists_run_collect hat (visits_begin hrep.opened)
  refine ⟨max enough ((stops sha3 t [] []).length + 1), fun fuel hfuel => ?_⟩
  exact h fuel (le_trans (le_max_left _ _) hfuel) fuel
    (lt_of_lt_of_le (Nat.lt_succ_self _) (le_trans (le_max_right _ _) hfuel))

/-- `lower_bound` is where stepping past the smaller keys ends. -/
theorem Trie.Represents.exists_lowerBound (hrep : Represents S db g m t)
    (hk : k.length < 2 ^ 30) :
    ∃ it enough, (∀ fuel ≥ enough,
        run DB.handler (g.lowerBound fuel k) db = (.ok it, db) ∧
        run DB.handler (g.begin fuel >>= fun it => it.skipBelow fuel k fuel)
          db = (.ok it, db)) ∧
      match m.entries.find? fun e => decide (¬ e.1 < k) with
      | some e => it.entry = .ok e
      | none => it = past := by
  have hat : List.Forall₂ (Stop.At g) (stops sha3 t [] []) m.entries :=
    stops_at hrep.denotes hrep.opened.within
  obtain ⟨enough, hseek⟩ := exists_run_lowerBound hrep.opened hk
  obtain ⟨enough', hskip⟩ := exists_run_skipBelow (k := k) hat
    (visits_begin hrep.opened)
  refine ⟨iteratorAt g (firstFrom (stops sha3 t [] []) (nibbles k)),
    max enough (max enough' ((stops sha3 t [] []).length + 1)), ?_,
    iteratorAt_firstFrom hat k⟩
  intro fuel hfuel
  obtain ⟨hfirst, hrest⟩ := max_le_iff.1 hfuel
  obtain ⟨hsecond, hrounds⟩ := max_le_iff.1 hrest
  exact ⟨hseek fuel hfirst, hskip fuel hsecond fuel hrounds⟩

/-- A key whose nibbles are counted as none is sought like the empty one. -/
theorem lowerBound_of_wraps (hk : Wraps k) (g : GenericTrieDB) (fuel : Nat) :
    g.lowerBound fuel k = g.begin fuel :=
  bind_congr fun trail => seekLoop_of_size fuel trail hk.size

end Loops

section Sessions

variable {sha3 : Bytes → H256} {σ : Type} [LawfulDB σ] {db : σ}
  {ops : List TrieOp}

/-- A trie built by insertions under keys of any lengths is gone through entry
by entry in the order of the keys, and then the iterator is at its end. -/
theorem collect_begin (hdb : Fresh db) (hops : TrieOp.Inserts ops)
    (hclash : NoClash sha3 (session sha3 ops) db) :
    ∃ g db', run DB.handler (session sha3 ops) db = (.ok g, db') ∧
      (∃ enough, ∀ fuel ≥ enough,
        run DB.handler (g.begin fuel >>= fun it => it.collect fuel fuel) db' =
          (.ok (contents ops).entries, db')) ∧
      (contents ops).entries.Pairwise (fun a b => a.1 < b.1) ∧
      (∀ e ∈ (contents ops).entries,
        run DB.handler (g.lookup e.1) db' = (.ok e.2, db')) ∧
      ∀ k, (∃ v, (k, v) ∈ (contents ops).entries) ↔
        (contents ops).lookup k ≠ none := by
  obtain ⟨g, db', t, hrun, hrep⟩ := exists_session_inserts hdb hops hclash
  refine ⟨g, db', hrun, hrep.exists_collect, (contents ops).ordered, ?_, ?_⟩
  · rintro ⟨k, v⟩ hmem
    have hlookup := OrderedMap.lookup_eq_some_iff.2 hmem
    have hk : k.length < 2 ^ 30 :=
      hrep.fits.short k (by rw [hlookup]; exact Option.some_ne_none v)
    have hat := hrep.run_lookup rfl hk
    rwa [hlookup] at hat
  · intro k
    simp only [← OrderedMap.lookup_eq_some_iff, Option.ne_none_iff_exists']

theorem collect_begin_prefixes :
    ∃ g db enough, run DB.handler (session frontHash [.insert [0x12, 0x34] [1],
        .insert [] [2], .insert [0x12] [3]]) ({} : MemoryDB) = (.ok g, db) ∧
      ∀ fuel ≥ enough,
        run DB.handler (g.begin fuel >>= fun it => it.collect fuel fuel) db =
          (.ok [([], [2]), ([0x12], [3]), ([0x12, 0x34], [1])], db) := by
  obtain ⟨hops, hclash⟩ := inserts_prefixes
  obtain ⟨g, db, hrun, ⟨enough, h⟩, -⟩ := collect_begin
    fresh_memoryDB hops hclash
  exact ⟨g, db, enough, hrun, h⟩

/-- A key of 2^31 bytes comes up as another one. -/
theorem not_collect_begin :
    NoClash frontHash (session frontHash [.insert (longKey 1) [2]])
        ({} : MemoryDB) ∧
      (contents [.insert (longKey 1) [2]]).entries = [(longKey 1, [2])] ∧
      ∃ g db enough, run DB.handler (session frontHash
          [.insert (longKey 1) [2]]) ({} : MemoryDB) = (.ok g, db) ∧
        ∀ fuel ≥ enough,
          run DB.handler (g.begin fuel >>= fun it => it.collect fuel fuel) db =
            (.ok [([], [2])], db) := by
  have hwrapping : TrieOp.Wrapping [.insert (longKey 1) [2]] :=
    wrapping_longKey 1 (by simp [Trie.Storable])
  have hclash : NoClash frontHash (session frontHash [.insert [] [2]])
      ({} : MemoryDB) := by decide +kernel
  obtain ⟨hclash', g, db, t, hrun, hrep⟩ :=
    hwrapping.exists_session fresh_memoryDB hclash
  obtain ⟨enough, h⟩ := hrep.exists_collect
  exact ⟨hclash', rfl, g, db, enough, hrun, h⟩

/-- `lower_bound` finds the first key that is not smaller: it is the iterator
that stepping from `begin()` past the smaller keys leaves, and `end()` if there
are no others. -/
theorem lowerBound_skipBelow (hdb : Fresh db) (hops : TrieOp.Inserts ops)
    (hclash : NoClash sha3 (session sha3 ops) db) :
    ∃ g db', run DB.handler (session sha3 ops) db = (.ok g, db') ∧
      ∀ k, k.length < 2 ^ 30 → ∃ it enough,
        (∀ fuel ≥ enough,
          run DB.handler (g.lowerBound fuel k) db' = (.ok it, db') ∧
          run DB.handler (g.begin fuel >>= fun it => it.skipBelow fuel k fuel)
            db' = (.ok it, db')) ∧
        ((∀ e ∈ (contents ops).entries, e.1 < k) → it = past) ∧
        ∀ e, ((contents ops).entries.find? fun e => decide (¬ e.1 < k)) =
          some e → it.entry = .ok e := by
  obtain ⟨g, db', t, hrun, hrep⟩ := exists_session_inserts hdb hops hclash
  refine ⟨g, db', hrun, fun k hk => ?_⟩
  obtain ⟨it, enough, hsame, hentry⟩ := hrep.exists_lowerBound hk
  refine ⟨it, enough, hsame, ?_, ?_⟩
  · intro hall
    have hnone : ((contents ops).entries.find?
        fun e => decide (¬ e.1 < k)) = none := by
      rw [List.find?_eq_none]
      intro e he
      simp [hall e he]
    rw [hnone] at hentry
    exact hentry
  · intro e hfirst
    rw [hfirst] at hentry
    exact hentry

theorem lowerBound_skipBelow_between :
    ∃ g db it enough, run DB.handler (session frontHash
        [.insert [0x12, 0x34] [1], .insert [] [2], .insert [0x12] [3]])
        ({} : MemoryDB) = (.ok g, db) ∧
      (∀ fuel ≥ enough,
        run DB.handler (g.lowerBound fuel [0x12, 0x33]) db = (.ok it, db)) ∧
      it.entry = .ok ([0x12, 0x34], [1]) := by
  obtain ⟨hops, hclash⟩ := inserts_prefixes
  obtain ⟨g, db, hrun, hbound⟩ := lowerBound_skipBelow
    fresh_memoryDB hops hclash
  obtain ⟨it, enough, hsame, -, hentry⟩ := hbound [0x12, 0x33] (by decide)
  exact ⟨g, db, it, enough, hrun, fun fuel hfuel => (hsame fuel hfuel).1,
    hentry _ rfl⟩

/-- A search key of 2^31 bytes, which is larger than the stored one, is sought
as the empty key. -/
theorem not_lowerBound_skipBelow :
    NoClash frontHash (session frontHash [.insert [] [2]])
        ({} : MemoryDB) ∧
      (∀ e ∈ (contents [.insert [] [2]]).entries, e.1 < longKey 0) ∧
      ∃ g db it enough, run DB.handler (session frontHash [.insert [] [2]])
          ({} : MemoryDB) = (.ok g, db) ∧
        (∀ fuel ≥ enough,
          run DB.handler (g.lowerBound fuel (longKey 0)) db = (.ok it, db)) ∧
        it ≠ past ∧ it.entry = .ok ([], [2]) := by
  have hops : TrieOp.Inserts [.insert [] [2]] := by
    simp [TrieOp.Inserts, Trie.Storable]
  have hclash : NoClash frontHash (session frontHash [.insert [] [2]])
      ({} : MemoryDB) := by decide +kernel
  obtain ⟨g, db, t, hrun, hrep⟩ := exists_session_inserts fresh_memoryDB hops
    hclash
  obtain ⟨it, enough, hsame, hentry⟩ :=
    hrep.exists_lowerBound (k := []) (by decide)
  have hfirst : it.entry = .ok ([], [2]) := hentry
  refine ⟨hclash, ?_, g, db, it, enough, hrun, ?_, ?_, hfirst⟩
  · intro e he
    obtain rfl := List.mem_singleton.1 he
    rw [longKey, show 2 ^ 31 = 2 ^ 31 - 1 + 1 from rfl, List.replicate_succ]
    exact List.nil_lt_cons _ _
  · intro fuel hfuel
    have hnil := (hsame fuel hfuel).1
    rw [lowerBound_of_wraps wraps_nil] at hnil
    rw [lowerBound_of_wraps (wraps_longKey 0), hnil]
  · rintro rfl
    cases hfirst

end Sessions

end Web3Core
