/-
The bulk builder makes canonical tries: for a range of entries whose keys share
a word, `hash256rlp` writes the top node of the canonical trie that holds the
rests of the keys.
-/
import Web3Core.TrieAccess
import Web3Core.TrieHash

namespace Web3Core

open RLPTree (partialList)

open Nibble (toByte join)

/-- Entries whose keys are words of nibbles. -/
abbrev HexEntries := List (List Nibble × Bytes)

/-- The entries as the code has them, with a byte for each nibble. -/
def hexRange (es : HexEntries) : HexRange :=
  es.map fun e => (e.1.map toByte, e.2)

section Words

variable {ns v w rest : List Nibble}

theorem byteAt_map {i : Nat} {n : Nibble} (h : ns[i]? = some n) :
    byteAt (ns.map toByte) i = .ok n.toByte := by
  rw [byteAt, List.getElem?_map, h]
  rfl

theorem toByte_mul_add (a b : Nibble) :
    a.toByte * 16 + b.toByte = join a b := by
  revert a b
  decide

theorem hexVectorLoop_eq {rounds i : Nat} (h : ns.drop i = v ++ rest)
    (hv : v.length = 2 * rounds) :
    hexVectorLoop (ns.map toByte) rounds i = .ok (pack v) := by
  induction rounds generalizing i v with
  | zero =>
      obtain rfl : v = [] := List.eq_nil_of_length_eq_zero hv
      rfl
  | succ rounds ih =>
      rcases v with _ | ⟨a, _ | ⟨b, v⟩⟩
      · simp at hv
      · simp at hv
        omega
      · have ha : ns[i]? = some a := by
          rw [← List.head?_drop, h]
          rfl
        have hb : ns[i + 1]? = some b := by
          rw [← List.head?_drop, ← List.drop_drop, h]
          rfl
        have hrest : ns.drop (i + 2) = v ++ rest := by
          rw [← List.drop_drop, h]
          rfl
        have hlen : v.length = 2 * rounds := by
          simp only [List.length_cons] at hv
          omega
        rw [hexVectorLoop, byteAt_map ha, ok_bind, byteAt_map hb, ok_bind,
          ih hrest hlen, ok_bind, toByte_mul_add, pack]

/-- A part of a vector of nibbles, where an `unsigned` holds their number. -/
theorem hexPrefixEncode_eq (leaf : Bool) {first last : Int}
    (h : PartOf w first last ns) (hshort : w.length < 2 ^ 32) :
    hexPrefixEncode (w.map toByte) leaf first last =
      .ok (hexPrefix leaf ns) := by
  obtain ⟨a, b, rfl, hlast, hb, hle, hword⟩ := h.exists_split
  have hfirst : toUnsigned (a : Int) = a := toUnsigned_of_lt (by omega)
  have hend : toUnsigned (if last < 0 then (w.map toByte).length + 1 + last
      else last) = b := by
    rw [List.length_map, hlast, toUnsigned_of_lt (by omega)]
  simp only [hexPrefixEncode, hfirst, hend]
  rcases hexPrefix_cases leaf ns with ⟨n, ms, rfl, heven, h⟩ | ⟨heven, h⟩
  · rw [List.length_cons] at hb
    have hodd : ((b + a) % 2 != 0) = true := by
      rw [bne_iff_ne]
      omega
    have hn : w[a]? = some n := by
      rw [← List.head?_drop, hword]
      rfl
    have hms : w.drop (a + 1) = ms ++ w.drop b := by
      rw [← List.drop_drop, hword]
      rfl
    rw [hodd, if_pos rfl, byteAt_map hn, ok_bind,
      hexVectorLoop_eq hms (by omega), ok_bind, h, hexPrefixByte_or]
  · have hodd : ((b + a) % 2 != 0) = false := by
      have hzero : (b + a) % 2 = 0 := by omega
      simp [hzero]
    rw [hodd, if_neg (by simp), hexVectorLoop_eq hword (by omega), ok_bind, h,
      hexPrefixByte_even]

theorem hexPrefixEncode_drop (leaf : Bool) {first : Nat}
    (hle : first ≤ ns.length) (hshort : ns.length < 2 ^ 31 - 1) :
    hexPrefixEncode (ns.map toByte) leaf (toInt first) =
      .ok (hexPrefix leaf (ns.drop first)) :=
  hexPrefixEncode_eq leaf (partOf_drop hle (by omega)) (by omega)

theorem hexPrefixEncode_between (leaf : Bool) {first last : Nat}
    (hle : first ≤ last) (hle' : last ≤ ns.length)
    (hshort : ns.length < 2 ^ 31 - 1) :
    hexPrefixEncode (ns.map toByte) leaf (toInt first) (toInt last) =
      .ok (hexPrefix leaf ((ns.take last).drop first)) :=
  hexPrefixEncode_eq leaf (partOf_between hle hle' (by omega)) (by omega)

/-- Two words go on sharing a letter, or part. -/
theorem lt_sharedLength_iff {n : Nat} {x y : Nibble} (hv : v[n]? = some x)
    (hw : w[n]? = some y) (hn : n ≤ sharedLength v w) :
    n < sharedLength v w ↔ x = y := by
  obtain ⟨p, v', w', rfl, rfl, hp, hzero⟩ := exists_shared v w
  rw [hp] at hn ⊢
  constructor
  · intro hlt
    rw [List.getElem?_append_left hlt] at hv hw
    exact Option.some.inj (hv.symm.trans hw)
  · rintro rfl
    by_contra hge
    obtain rfl : n = p.length := by omega
    rw [List.getElem?_append_right le_rfl, Nat.sub_self] at hv hw
    cases v' with
    | nil => simp at hv
    | cons a v' =>
        cases w' with
        | nil => simp at hw
        | cons b w' =>
            have hab : a = b := by
              rw [List.getElem?_cons_zero] at hv hw
              exact Option.some.inj (hv.trans hw.symm)
            exact ne_of_sharedLength_cons hzero hab

theorem sharedLoop_eq {x n rounds : Nat} (hxv : x ≤ v.length)
    (hxw : x ≤ w.length) (hrounds : n + rounds = x)
    (hn : n ≤ sharedLength v w) :
    sharedLoop (v.map toByte) (w.map toByte) x rounds n =
      .ok (min x (sharedLength v w)) := by
  induction rounds generalizing n with
  | zero =>
      obtain rfl : n = x := by omega
      rw [sharedLoop, Nat.min_eq_left hn]
  | succ rounds ih =>
      have hv : v[n]? = some v[n] := List.getElem?_eq_getElem (by omega)
      have hw : w[n]? = some w[n] := List.getElem?_eq_getElem (by omega)
      have hiff := lt_sharedLength_iff hv hw hn
      rw [sharedLoop, if_pos (by omega), byteAt_map hv, ok_bind, byteAt_map hw,
        ok_bind]
      by_cases heq : v[n] = w[n]
      · rw [if_pos (Nibble.toByte_inj.2 heq), ih (by omega) (hiff.2 heq)]
      · rw [if_neg (fun h => heq (Nibble.toByte_inj.1 h))]
        have hge := mt hiff.1 heq
        rw [show min x (sharedLength v w) = n by omega]

/-- Words with a common beginning share it. -/
theorem length_le_sharedLength {p : List Nibble} (hv : p <+: v)
    (hw : p <+: w) : p.length ≤ sharedLength v w := by
  obtain ⟨v', rfl⟩ := hv
  obtain ⟨w', rfl⟩ := hw
  rw [sharedLength_append]
  omega

theorem take_prefix_of_le {n : Nat} (h : n ≤ sharedLength v w) :
    v.take n <+: w := by
  obtain ⟨p, v', w', rfl, rfl, hp, -⟩ := exists_shared v w
  rw [hp] at h
  rw [List.take_append_of_le_length h]
  exact (List.take_prefix n p).trans (List.prefix_append p w')

end Words

section Range

variable {first p : List Nibble} {es : HexEntries}

/-- What the loop over the entries computes: how much all of them share with
the first, and one of them not more. -/
theorem exists_sharedPreLoop (hp : p <+: first)
    (hfirst : first.length < 2 ^ 31 - 1)
    (hes : ∀ e ∈ es, p <+: e.1 ∧ e.1.length < 2 ^ 31 - 1) {sharedPre : Nat}
    (hpre : p.length ≤ sharedPre) :
    ∃ n, sharedPreLoop (first.map toByte) p.length (hexRange es) sharedPre =
        .ok n ∧ p.length ≤ n ∧ n ≤ sharedPre ∧
      (∀ e ∈ es, n ≤ sharedLength first e.1) ∧
      (n = sharedPre ∨ ∃ e ∈ es, n = sharedLength first e.1) := by
  induction es generalizing sharedPre with
  | nil => exact ⟨sharedPre, rfl, hpre, le_rfl, by simp, .inl rfl⟩
  | cons e es ih =>
      obtain ⟨hpe, hlt⟩ := hes e List.mem_cons_self
      have hrest := fun e' he' => hes e' (List.mem_cons_of_mem e he')
      have hcons : hexRange (e :: es) =
          (e.1.map toByte, e.2) :: hexRange es := rfl
      rw [hcons, sharedPreLoop]
      by_cases hzero : sharedPre = 0
      · rw [if_pos hzero]
        exact ⟨sharedPre, rfl, hpre, le_rfl, fun e' _ => by omega, .inl rfl⟩
      · have hshared := length_le_sharedLength hp hpe
        have hleft := sharedLength_le_left first e.1
        have hright := sharedLength_le_right first e.1
        have hx : min sharedPre (min (toUnsigned (first.map toByte).length)
            (toUnsigned (e.1.map toByte).length)) =
            min sharedPre (min first.length e.1.length) := by
          rw [List.length_map, List.length_map, toUnsigned_of_lt (by omega),
            toUnsigned_of_lt (by omega)]
        simp only [hx]
        rw [if_neg hzero, sharedLoop_eq (by omega) (by omega) (by omega)
          hshared, ok_bind]
        have hmin : min (min (min sharedPre (min first.length e.1.length))
            (sharedLength first e.1)) sharedPre =
            min (sharedLength first e.1) sharedPre := by omega
        rw [hmin]
        obtain ⟨n, hn, hge, hle, hall, hone⟩ :=
          @ih hrest (min (sharedLength first e.1) sharedPre) (by omega)
        refine ⟨n, hn, hge, by omega, fun e' he' => ?_, ?_⟩
        · rcases List.mem_cons.1 he' with rfl | he'
          · omega
          · exact hall e' he'
        · rcases hone with hone | ⟨e', he', hone⟩
          · rcases Nat.le_total (sharedLength first e.1) sharedPre with h | h
            · exact .inr ⟨e, List.mem_cons_self, by omega⟩
            · exact .inl (by omega)
          · exact .inr ⟨e', List.mem_cons_of_mem e he', hone⟩

/-- Cutting the entries with the next nibble `i` off an ordered range in which
no next nibble is smaller. -/
theorem takeSlot_eq {m : Nat} {i : Nibble}
    (hes : ∀ e ∈ es, ∃ n, e.1[m]? = some n ∧ i ≤ n)
    (hordered : es.Pairwise fun a b => ∀ x y, a.1[m]? = some x →
      b.1[m]? = some y → x ≤ y) :
    takeSlot m i.toByte (hexRange es) =
      .ok (hexRange (es.filter fun e => e.1[m]? = some i),
        hexRange (es.filter fun e => e.1[m]? ≠ some i)) := by
  induction es with
  | nil => rfl
  | cons e es ih =>
      obtain ⟨n, hn, hle⟩ := hes e List.mem_cons_self
      obtain ⟨hhead, htail⟩ := List.pairwise_cons.1 hordered
      have hcons : hexRange (e :: es) =
          (e.1.map toByte, e.2) :: hexRange es := rfl
      rw [hcons, takeSlot, byteAt_map hn, ok_bind]
      by_cases heq : n = i
      · subst heq
        rw [if_pos rfl, ih (fun e' he' => hes e' (List.mem_cons_of_mem e he'))
          htail, ok_bind]
        simp [hn, hexRange]
      · rw [if_neg (fun h => heq (Nibble.toByte_inj.1 h))]
        have hnone : ∀ e' ∈ e :: es, e'.1[m]? ≠ some i := by
          intro e' he' hi
          rcases List.mem_cons.1 he' with rfl | he'
          · exact heq (Option.some.inj (hn.symm.trans hi))
          · exact heq (le_antisymm (hhead e' he' n i hn hi) hle)
        rw [List.filter_eq_nil_iff.2 (by simpa using hnone),
          List.filter_eq_self.2 (by simpa using hnone)]
        rfl

end Range

/-- A range of entries that share the word `p`, with keys short enough for the
counters and for the fuel. -/
structure Bulk (fuel : Nat) (p : List Nibble) (es : HexEntries) : Prop where
  ordered : es.Pairwise fun a b => a.1.map toByte < b.1.map toByte
  front : ∀ e ∈ es, p <+: e.1
  storable : ∀ e ∈ es, Trie.Storable e.2
  short : ∀ e ∈ es, e.1.length < 2 ^ 31 - 1
  fuelled : ∀ e ∈ es, e.1.length < p.length + fuel

/-- The canonical trie of what the keys of the range go on with behind `p`. -/
structure Collects (p : List Nibble) (es : HexEntries) (t : Trie) : Prop where
  canonical : t.Canonical
  within : Trie.Within (2 ^ 31 - 1) p.length t
  lookup : ∀ ns x, Patricia.lookup t ns = some x ↔ (p ++ ns, x) ∈ es

/-- The stream a computation ends with has the output `b`. -/
def Yields (r : Except Exception RLPStream) (b : Bytes) : Prop :=
  ∃ s, r = .ok s ∧ s.out = .ok b

section Entries

variable {p : List Nibble} {es : HexEntries} {t : Trie} {fuel : Nat}

theorem not_lt_of_prefixed {v w : Bytes} (h : v <+: w) : ¬ w < v := by
  induction v generalizing w with
  | nil => exact List.not_lt_nil w
  | cons x v ih =>
      obtain ⟨w', rfl⟩ := h
      rw [List.cons_append, List.cons_lt_cons_iff]
      rintro (hlt | ⟨-, hlt⟩)
      · exact lt_irrefl x hlt
      · exact ih (List.prefix_append v w') hlt

theorem lt_of_append_lt {u v w : Bytes} (h : u ++ v < u ++ w) : v < w := by
  induction u with
  | nil => exact h
  | cons x u ih =>
      rcases List.cons_lt_cons_iff.1 h with hlt | ⟨-, hlt⟩
      · exact absurd hlt (lt_irrefl x)
      · exact ih hlt

theorem head_ne_of_shared {v w : List Nibble} (hzero : sharedLength v w = 0)
    (hne : v ≠ w) : v.head? ≠ w.head? := by
  cases v with
  | nil =>
      cases w with
      | nil => exact absurd rfl hne
      | cons j w => simp
  | cons i v =>
      cases w with
      | nil => simp
      | cons j w => simpa using ne_of_sharedLength_cons hzero

theorem Collects.used {slots : Nibble → Trie} {value : Option Bytes}
    (hslots : ∀ i w x, Patricia.lookup (slots i) w = some x ↔
      (p ++ i :: w, x) ∈ es) (hvalue : ∀ x, value = some x ↔ (p, x) ∈ es)
    {w : List Nibble} {x : Bytes} (hmem : (p ++ w, x) ∈ es) :
    Patricia.Used slots value w.head? := by
  cases w with
  | nil =>
      rw [List.append_nil] at hmem
      rw [List.head?_nil, Patricia.Used, (hvalue x).2 hmem]
      simp
  | cons i w =>
      intro hempty
      have hlookup := (hslots i w x).2 hmem
      rw [hempty] at hlookup
      cases hlookup

/-- The next nibbles of an ordered range do not decrease. -/
theorem Bulk.nibbles_le (h : Bulk fuel p es) :
    es.Pairwise fun a b => ∀ x y, a.1[p.length]? = some x →
      b.1[p.length]? = some y → x ≤ y := by
  have hall : ∀ a ∈ es, ∃ w, a.1 = p ++ w := by
    intro a ha
    obtain ⟨w, hw⟩ := h.front a ha
    exact ⟨w, hw.symm⟩
  refine List.Pairwise.imp_of_mem (fun {a b} ha hb hlt => ?_) h.ordered
  obtain ⟨v, hv⟩ := hall a ha
  obtain ⟨w, hw⟩ := hall b hb
  rw [hv, hw] at hlt ⊢
  intro x y hx hy
  rw [List.getElem?_append_right le_rfl, Nat.sub_self] at hx hy
  rw [List.map_append, List.map_append] at hlt
  cases v with
  | nil => simp at hx
  | cons x' v =>
      cases w with
      | nil => simp at hy
      | cons y' w =>
          obtain rfl : x' = x := by simpa using hx
          obtain rfl : y' = y := by simpa using hy
          have hlt' : (x' :: v).map toByte < (y' :: w).map toByte :=
            lt_of_append_lt hlt
          have hle : x'.toByte ≤ y'.toByte := List.head_le_of_lt hlt'
          rw [Fin.le_def, ← Nibble.toNat_toByte, ← Nibble.toNat_toByte]
          exact hle

/-- The part of a range with the next nibble `i`. -/
def slotOf (m : Nat) (i : Nibble) (es : HexEntries) : HexEntries :=
  es.filter fun e => e.1[m]? = some i

/-- The part of a range with a next nibble from `i` on. -/
def slotsFrom (m i : Nat) (es : HexEntries) : HexEntries :=
  es.filter fun e => ∃ n : Nibble, i ≤ n.val ∧ e.1[m]? = some n

theorem mem_slotOf {m : Nat} {i : Nibble} {e : List Nibble × Bytes} :
    e ∈ slotOf m i es ↔ e ∈ es ∧ e.1[m]? = some i := by
  simp [slotOf]

theorem filter_slotsFrom_eq (m : Nat) (i : Nibble) (es : HexEntries) :
    (slotsFrom m i es).filter (fun e => e.1[m]? = some i) =
      slotOf m i es := by
  rw [slotsFrom, slotOf, List.filter_filter]
  refine List.filter_congr fun e _ => ?_
  rw [← Bool.decide_and, decide_eq_decide]
  constructor
  · exact And.left
  · intro h
    exact ⟨h, i, le_rfl, h⟩

theorem filter_slotsFrom_ne (m : Nat) (i : Nibble) (es : HexEntries) :
    (slotsFrom m i es).filter (fun e => e.1[m]? ≠ some i) =
      slotsFrom m (i + 1) es := by
  rw [slotsFrom, slotsFrom, List.filter_filter]
  refine List.filter_congr fun e _ => ?_
  rw [← Bool.decide_and, decide_eq_decide]
  constructor
  · rintro ⟨hne, n, hle, hn⟩
    refine ⟨n, ?_, hn⟩
    have hni : n.val ≠ i.val := fun heq => hne (by rw [hn, Fin.ext heq])
    omega
  · rintro ⟨n, hle, hn⟩
    refine ⟨fun hi => ?_, n, by omega, hn⟩
    obtain rfl : n = i := Option.some.inj (hn.symm.trans hi)
    omega

theorem Bulk.slot (h : Bulk (fuel + 1) p es) (i : Nibble) :
    Bulk fuel (p ++ [i]) (slotOf p.length i es) where
  ordered := h.ordered.sublist List.filter_sublist
  front e he := by
    obtain ⟨hmem, hi⟩ := mem_slotOf.1 he
    obtain ⟨w, hw⟩ := h.front e hmem
    rw [← hw, List.getElem?_append_right le_rfl, Nat.sub_self] at hi
    cases w with
    | nil => simp at hi
    | cons j w =>
        obtain rfl : j = i := by simpa using hi
        exact ⟨w, by rw [← hw, List.append_assoc]; rfl⟩
  storable e he := h.storable e (mem_slotOf.1 he).1
  short e he := h.short e (mem_slotOf.1 he).1
  fuelled e he := by
    have := h.fuelled e (mem_slotOf.1 he).1
    rw [List.length_append, List.length_singleton]
    omega

end Entries

section Build

variable {sha3 : Bytes → H256} {p : List Nibble} {es : HexEntries} {t : Trie}
  {fuel : Nat}

open Trie (enc ref refer branchItems)

/-- A node below another one, once its own bytes are known. -/
theorem hash256aux_eq
    {build : HexRange → Nat → RLPStream → Except Exception RLPStream}
    {range : HexRange} {preLen : Nat}
    (h : Yields (build range preLen {}) (enc sha3 t)) (rlp : RLPStream) :
    hash256aux sha3 build range preLen rlp =
      rlp.appendRaw (RLPTree.encode (ref sha3 t)) 1 := by
  obtain ⟨s, hs, hout⟩ := h
  rw [hash256aux, hs, ok_bind, hout, ok_bind]
  by_cases hbig : Trie.Big sha3 t
  · have hlen : ¬ (enc sha3 t).length < 32 := Nat.not_lt.2 hbig
    rw [if_neg hlen, Trie.ref_of_big hbig, RLPStream.appendHash_eq,
      RLPTree.append_eq_appendRaw rlp
        (by rw [FixedHash.size_data]; decide)]
    rfl
  · have hlen : (enc sha3 t).length < 32 := Nat.not_le.1 hbig
    rw [if_pos hlen, Trie.ref_of_not_big hbig]
    rfl

/-- Two items with the key of a two-item node in front. -/
theorem appendList_pair (a b : RLPTree) :
    RLPStream.appendList {} 2 = .ok (partialList [a, b] 0) := ofList_two a b

theorem yields_out {a b : RLPTree} :
    (partialList [a, b] 2).out = .ok (RLPTree.encode (.list [a, b])) :=
  RLPTree.out_partialList [a, b]

/-- A single entry makes a leaf. -/
theorem builds_single {e : List Nibble × Bytes} (h : Bulk (fuel + 1) p [e]) :
    ∃ t, Collects p [e] t ∧ t ≠ .empty ∧
      Yields (hash256rlp sha3 (fuel + 1) (hexRange [e]) p.length {})
        (enc sha3 t) := by
  obtain ⟨key, value⟩ := e
  obtain ⟨r, rfl⟩ := h.front (key, value) List.mem_cons_self
  have hshort : (p ++ r).length < 2 ^ 31 - 1 :=
    h.short (p ++ r, value) List.mem_cons_self
  have hwithin : Trie.Within (2 ^ 31 - 1) p.length (.leaf r value) :=
    ⟨h.storable (p ++ r, value) List.mem_cons_self,
      by rwa [List.length_append] at hshort⟩
  refine ⟨.leaf r value, ⟨trivial, hwithin, fun ns x => ?_⟩, by simp, ?_⟩
  · rw [Patricia.lookup_leaf, List.mem_singleton, Prod.mk.injEq,
      List.append_cancel_left_eq]
    by_cases hns : ns = r
    · simp [hns, eq_comm]
    · simp [hns]
  · have hfits := hwithin.fits sha3 le_rfl
    have hkey := hexPrefixEncode_drop true
      (show p.length ≤ (p ++ r).length by simp) hshort
    rw [List.drop_left] at hkey
    have happend := RLPTree.append_partialList hfits (k := 0) rfl
    have hvalue := RLPTree.append_partialList hfits (k := 1) rfl
    refine ⟨_, ?_, yields_out⟩
    show (do
      let rlp ← RLPStream.appendList {} 2
      let key ← hexPrefixEncode ((p ++ r).map toByte) true (toInt p.length)
      let rlp ← rlp.append key
      rlp.append value : Except Exception RLPStream) = _
    rw [appendList_pair (.data (hexPrefix true r)) (.data value), ok_bind, hkey,
      ok_bind, happend, ok_bind, hvalue]

/-- A range whose entries go on alike makes an extension. -/
theorem builds_ext {e : List Nibble × Bytes} {key : List Nibble} {child : Trie}
    {range : HexRange} (hkey : key ≠ []) (he : p ++ key <+: e.1)
    (hshort : e.1.length < 2 ^ 31 - 1)
    (hchild : Collects (p ++ key) es child) (hbranch : child.IsBranch)
    (hfront : ∀ e ∈ es, p ++ key <+: e.1)
    (hyields : Yields (hash256rlp sha3 fuel range (p ++ key).length {})
      (enc sha3 child)) :
    Collects p es (.ext key child) ∧
      Yields (do
        let rlp ← RLPStream.appendList {} 2
        let bytes ← hexPrefixEncode (e.1.map toByte) false (toInt p.length)
          (toInt (p ++ key).length)
        let rlp ← rlp.append bytes
        hash256aux sha3 (hash256rlp sha3 fuel) range (p ++ key).length rlp)
        (enc sha3 (.ext key child)) := by
  have hlt := he.length_le
  rw [List.length_append] at hlt
  have hne : child ≠ .empty := by
    rintro rfl
    exact hbranch
  have hwithin : Trie.Within (2 ^ 31 - 1) p.length (.ext key child) :=
    ⟨hkey, hne, by omega, by
      rw [← List.length_append]
      exact hchild.within⟩
  refine ⟨⟨⟨hkey, hbranch, hchild.canonical⟩, hwithin, fun ns x => ?_⟩, ?_⟩
  · rw [Patricia.lookup_ext]
    by_cases hns : key <+: ns
    · obtain ⟨r, rfl⟩ := hns
      simp [hchild.lookup]
    · rw [if_neg hns]
      constructor
      · intro h
        cases h
      · intro hmem
        exact absurd ((List.prefix_append_right_inj p).1 (hfront _ hmem)) hns
  · have hfits : (RLPTree.list [.data (hexPrefix false key),
        ref sha3 child]).Fits := hwithin.fits sha3 le_rfl
    have hbytes := hexPrefixEncode_between false
      (show p.length ≤ (p ++ key).length by simp) he.length_le hshort
    obtain ⟨r, hr⟩ := he
    rw [← hr, List.take_left, List.drop_left, hr] at hbytes
    have happend := RLPTree.append_partialList hfits (k := 0) rfl
    have hraw := RLPTree.appendRaw_partialList hfits (k := 1) rfl
    refine ⟨_, ?_, yields_out⟩
    rw [appendList_pair (.data (hexPrefix false key)) (ref sha3 child), ok_bind,
      hbytes, ok_bind, happend, ok_bind, hash256aux_eq hyields, hraw]
    rfl

/-- A round of the loop over the slots of a branch. -/
theorem hash256slot_eq {slots : Nibble → Trie} {value : Option Bytes}
    (hfits : (RLPTree.list
      (branchItems (fun i => ref sha3 (slots i)) value)).Fits)
    (hordered : es.Pairwise fun a b => ∀ x y, a.1[p.length]? = some x →
      b.1[p.length]? = some y → x ≤ y) {i : Nibble}
    (hempty : slotOf p.length i es = [] → slots i = .empty)
    (hyields : slotOf p.length i es ≠ [] →
      Yields (hash256rlp sha3 fuel (hexRange (slotOf p.length i es))
        (toUnsigned (p.length + 1)) {}) (enc sha3 (slots i))) :
    hash256slot sha3 (hash256rlp sha3 fuel) p.length
        (hexRange (slotsFrom p.length i es),
          partialList (branchItems (fun i => ref sha3 (slots i)) value) i) i =
      .ok (hexRange (slotsFrom p.length (i + 1) es),
        partialList (branchItems (fun i => ref sha3 (slots i)) value)
          (i + 1)) := by
  have htake := @takeSlot_eq (slotsFrom p.length i es) p.length i
    (fun e he => by
      obtain ⟨n, hle, hn⟩ := of_decide_eq_true (List.mem_filter.1 he).2
      exact ⟨n, hn, hle⟩)
    (hordered.sublist List.filter_sublist)
  rw [filter_slotsFrom_eq, filter_slotsFrom_ne] at htake
  have hitem := Trie.branchItems_slot (fun i => ref sha3 (slots i)) value i
  have hbyte : UInt8.ofNat i = toByte i := rfl
  simp only [hash256slot, hbyte, htake, ok_bind]
  by_cases hnil : slotOf p.length i es = []
  · rw [hempty hnil, Trie.ref_empty] at hitem
    have hrange : hexRange (slotOf p.length i es) = [] := by
      rw [hnil]
      rfl
    rw [if_pos hrange, RLPTree.append_partialList hfits hitem, ok_bind]
  · have hrange : hexRange (slotOf p.length i es) ≠ [] := by
      simpa [hexRange] using hnil
    rw [if_neg hrange, hash256aux_eq (hyields hnil),
      RLPTree.appendRaw_partialList hfits hitem, ok_bind]

/-- The loop over the slots: the entries with a smaller next nibble are written
and gone. -/
theorem slotLoop_eq {slots : Nibble → Trie} {value : Option Bytes}
    (hfits : (RLPTree.list
      (branchItems (fun i => ref sha3 (slots i)) value)).Fits)
    (hordered : es.Pairwise fun a b => ∀ x y, a.1[p.length]? = some x →
      b.1[p.length]? = some y → x ≤ y)
    (hempty : ∀ i, slotOf p.length i es = [] → slots i = .empty)
    (hyields : ∀ i, slotOf p.length i es ≠ [] →
      Yields (hash256rlp sha3 fuel (hexRange (slotOf p.length i es))
        (toUnsigned (p.length + 1)) {}) (enc sha3 (slots i)))
    {k : Nat} (hk : k ≤ 16) :
    (List.range k).foldlM
        (hash256slot sha3 (hash256rlp sha3 fuel) p.length)
        (hexRange (slotsFrom p.length 0 es),
          partialList (branchItems (fun i => ref sha3 (slots i)) value) 0) =
      .ok (hexRange (slotsFrom p.length k es),
        partialList (branchItems (fun i => ref sha3 (slots i)) value) k) := by
  induction k with
  | zero => rfl
  | succ k ih =>
      have hround := hash256slot_eq hfits hordered (hempty ⟨k, hk⟩)
        (hyields ⟨k, hk⟩)
      rw [List.range_succ, List.foldlM_append, ih (by omega), ok_bind,
        List.foldlM_cons, hround]
      rfl

/-- The first entry of an ordered range has the key `p`, or none has. -/
theorem Bulk.first_of_mem {e : List Nibble × Bytes} (h : Bulk fuel p (e :: es))
    {x : Bytes} (hmem : (p, x) ∈ e :: es) : e = (p, x) := by
  rcases List.mem_cons.1 hmem with heq | hmem'
  · exact heq.symm
  · have hlt := (List.pairwise_cons.1 h.ordered).1 _ hmem'
    obtain ⟨w, hw⟩ := h.front e List.mem_cons_self
    rw [← hw, List.map_append] at hlt
    exact absurd hlt (not_lt_of_prefixed (List.prefix_append _ _))

/-- The first entry ends at the branch if its key is `p`. -/
theorem Bulk.length_eq_iff {e : List Nibble × Bytes} (h : Bulk fuel p (e :: es)) :
    p.length = e.1.length ↔ e.1 = p := by
  obtain ⟨w, hw⟩ := h.front e List.mem_cons_self
  rw [← hw, List.length_append]
  simp

/-- Then its value is that of the branch. -/
theorem Bulk.value_eq_some_iff {e : List Nibble × Bytes}
    (h : Bulk fuel p (e :: es)) (x : Bytes) :
    (if p.length = e.1.length then some e.2 else none) = some x ↔
      (p, x) ∈ e :: es := by
  constructor
  · intro heq
    by_cases hp : p.length = e.1.length
    · rw [if_pos hp] at heq
      rw [← h.length_eq_iff.1 hp, ← Option.some.inj heq]
      exact List.mem_cons_self
    · rw [if_neg hp] at heq
      cases heq
  · intro hmem
    have heq := h.first_of_mem hmem
    rw [heq, if_pos rfl]

/-- Where two entries part, one of them goes on. -/
theorem Bulk.length_lt {v w : List Nibble} {x y : Bytes} (h : Bulk fuel p es)
    (hv : (p ++ v, x) ∈ es) (hw : (p ++ w, y) ∈ es)
    (hne : v.head? ≠ w.head?) : p.length < 2 ^ 31 - 1 := by
  have hlv := h.short _ hv
  have hlw := h.short _ hw
  rw [List.length_append] at hlv hlw
  cases v with
  | nil =>
      cases w with
      | nil => exact absurd rfl hne
      | cons j w =>
          rw [List.length_cons] at hlw
          omega
  | cons i v =>
      rw [List.length_cons] at hlv
      omega

/-- What is left of the range once its first entry, if it ends at the branch,
is taken off. -/
theorem Bulk.slotsFrom_zero {e : List Nibble × Bytes}
    (h : Bulk fuel p (e :: es)) :
    slotsFrom p.length 0 (e :: es) =
      if p.length = e.1.length then es else e :: es := by
  have hnext : ∀ a ∈ e :: es, a.1 ≠ p → ∃ n, a.1[p.length]? = some n := by
    intro a ha hne
    obtain ⟨w, hw⟩ := h.front a ha
    cases w with
    | nil => exact absurd (by rw [← hw, List.append_nil]) hne
    | cons n w =>
        refine ⟨n, ?_⟩
        rw [← hw, List.getElem?_append_right le_rfl, Nat.sub_self]
        rfl
  have hkeep : ∀ a ∈ e :: es, a.1 ≠ p →
      decide (∃ n : Nibble, 0 ≤ n.val ∧ a.1[p.length]? = some n) = true := by
    intro a ha hne
    obtain ⟨n, hn⟩ := hnext a ha hne
    exact decide_eq_true ⟨n, Nat.zero_le _, hn⟩
  rw [slotsFrom]
  by_cases heq : e.1 = p
  · rw [if_pos (h.length_eq_iff.2 heq), List.filter_cons_of_neg, List.filter_eq_self]
    · intro a ha
      refine hkeep a (List.mem_cons_of_mem e ha) fun hp => ?_
      have hlt := (List.pairwise_cons.1 h.ordered).1 a ha
      exact hlt.ne (by rw [heq, hp])
    · rw [heq]
      simp
  · rw [if_neg (mt h.length_eq_iff.1 heq), List.filter_eq_self]
    intro a ha
    refine hkeep a ha fun hp => heq ?_
    obtain ⟨key, x⟩ := a
    obtain rfl : key = p := hp
    rw [h.first_of_mem ha]

/-- The tries of the slots make up a branch where two entries part. -/
theorem Bulk.collects_branch {e : List Nibble × Bytes}
    (h : Bulk fuel p (e :: es)) {v w : List Nibble} {x y : Bytes}
    (hv : (p ++ v, x) ∈ e :: es) (hw : (p ++ w, y) ∈ e :: es)
    (hne : v.head? ≠ w.head?) {slots : Nibble → Trie}
    (hslots : ∀ i, Collects (p ++ [i]) (slotOf p.length i (e :: es)) (slots i)) :
    Collects p (e :: es)
      (.branch slots (if p.length = e.1.length then some e.2 else none)) := by
  have hlookup : ∀ i w x, Patricia.lookup (slots i) w = some x ↔
      (p ++ i :: w, x) ∈ e :: es := by
    intro i w x
    rw [(hslots i).lookup, mem_slotOf, List.append_assoc, List.singleton_append]
    simp
  have hvalue := h.value_eq_some_iff
  refine ⟨⟨fun i => (hslots i).canonical, v.head?, w.head?, hne,
    Collects.used hlookup hvalue hv, Collects.used hlookup hvalue hw⟩,
    ⟨h.length_lt hv hw hne, fun i => ?_, fun x hx => ?_⟩, fun ns x => ?_⟩
  · have hslot := (hslots i).within
    rwa [List.length_append, List.length_singleton] at hslot
  · exact h.storable _ ((hvalue x).1 hx)
  · cases ns with
    | nil => rw [List.append_nil, Patricia.lookup_branch_nil, hvalue]
    | cons i ns => rw [Patricia.lookup_branch_cons, hlookup]

/-- The loop over the slots writes the branch, and what follows it the value. -/
theorem Bulk.yields_branch {e : List Nibble × Bytes} {n : Nat}
    (h : Bulk n p (e :: es)) {slots : Nibble → Trie}
    (hwithin : Trie.Within (2 ^ 31 - 1) p.length
      (.branch slots (if p.length = e.1.length then some e.2 else none)))
    (hempty : ∀ i, slotOf p.length i (e :: es) = [] → slots i = .empty)
    (hyields : ∀ i, slotOf p.length i (e :: es) ≠ [] →
      Yields (hash256rlp sha3 fuel (hexRange (slotOf p.length i (e :: es)))
        (p ++ [i]).length {}) (enc sha3 (slots i))) :
    Yields (do
      let rlp ← RLPStream.appendList {} 17
      let b := if p.length = e.1.length then hexRange es
        else hexRange (e :: es)
      let r ← (List.range 16).foldlM
        (hash256slot sha3 (hash256rlp sha3 fuel) p.length) (b, rlp)
      if p.length = e.1.length then r.2.append e.2 else r.2.append [])
      (enc sha3
        (.branch slots (if p.length = e.1.length then some e.2 else none))) := by
  have hfits : (RLPTree.list (branchItems (fun i => ref sha3 (slots i))
      (if p.length = e.1.length then some e.2 else none))).Fits :=
    hwithin.fits sha3 le_rfl
  have hbound := hwithin.1
  have hpre : toUnsigned (p.length + 1) = p.length + 1 := by
    rw [← Nat.cast_succ, toUnsigned_of_lt (by omega)]
  have hloop := slotLoop_eq hfits h.nibbles_le hempty (fun i hi => by
    have hy := hyields i hi
    rwa [List.length_append, List.length_singleton, ← hpre] at hy) le_rfl
  have hitems : (if p.length = e.1.length then hexRange es
      else hexRange (e :: es)) =
      hexRange (slotsFrom p.length 0 (e :: es)) := by
    rw [h.slotsFrom_zero]
    split <;> rfl
  have hopen : RLPStream.appendList {} 17 = .ok (partialList
      (branchItems (fun i => ref sha3 (slots i))
        (if p.length = e.1.length then some e.2 else none)) 0) :=
    ofList_branch _ _
  have hlast := append_value hfits
  refine ⟨_, ?_, out_branch _ _⟩
  rw [hopen, ok_bind]
  simp only [hitems, hloop, ok_bind]
  by_cases hp : p.length = e.1.length
  · simp only [if_pos hp] at hlast ⊢
    exact hlast
  · simp only [if_neg hp] at hlast ⊢
    exact hlast

/-- A range whose entries part makes a branch. -/
theorem builds_branch {e : List Nibble × Bytes} (h : Bulk (fuel + 1) p (e :: es))
    {v w : List Nibble} {x y : Bytes} (hv : (p ++ v, x) ∈ e :: es)
    (hw : (p ++ w, y) ∈ e :: es) (hne : v.head? ≠ w.head?)
    (ih : ∀ i, slotOf p.length i (e :: es) ≠ [] → ∃ t,
      Collects (p ++ [i]) (slotOf p.length i (e :: es)) t ∧ t ≠ .empty ∧
        Yields (hash256rlp sha3 fuel (hexRange (slotOf p.length i (e :: es)))
          (p ++ [i]).length {}) (enc sha3 t)) :
    ∃ t, Collects p (e :: es) t ∧ t ≠ .empty ∧
      Yields (do
        let rlp ← RLPStream.appendList {} 17
        let b := if p.length = e.1.length then hexRange es
          else hexRange (e :: es)
        let r ← (List.range 16).foldlM
          (hash256slot sha3 (hash256rlp sha3 fuel) p.length) (b, rlp)
        if p.length = e.1.length then r.2.append e.2 else r.2.append [])
        (enc sha3 t) := by
  have hchoose : ∀ i, ∃ t, Collects (p ++ [i]) (slotOf p.length i (e :: es)) t ∧
      (slotOf p.length i (e :: es) = [] → t = .empty) ∧
      (slotOf p.length i (e :: es) ≠ [] →
        Yields (hash256rlp sha3 fuel (hexRange (slotOf p.length i (e :: es)))
          (p ++ [i]).length {}) (enc sha3 t)) := by
    intro i
    by_cases hnil : slotOf p.length i (e :: es) = []
    · refine ⟨.empty, ⟨trivial, trivial, fun ns x => ?_⟩, fun _ => rfl,
        fun hne => absurd hnil hne⟩
      simp [hnil]
    · obtain ⟨t, ht, -, hyields⟩ := ih i hnil
      exact ⟨t, ht, fun h => absurd h hnil, fun _ => hyields⟩
  choose slots hslots hempty hyields using hchoose
  have hcollects := h.collects_branch hv hw hne hslots
  exact ⟨_, hcollects, by simp,
    h.yields_branch hcollects.within hempty hyields⟩

/-- A word more is shared by a range that goes on alike. -/
theorem Bulk.append (h : Bulk (fuel + 1) p es) {key : List Nibble}
    (hkey : key ≠ []) (hfront : ∀ e ∈ es, p ++ key <+: e.1) :
    Bulk fuel (p ++ key) es where
  ordered := h.ordered
  front := hfront
  storable := h.storable
  short := h.short
  fuelled e he := by
    have hlt := h.fuelled e he
    have hpos := List.length_pos_of_ne_nil hkey
    rw [List.length_append]
    omega

/-- How far the entries of a range go on alike, and two of them that part
there. -/
theorem Bulk.exists_sharedPreLoop {e e' : List Nibble × Bytes}
    (h : Bulk fuel p (e :: e' :: es)) :
    ∃ key v w x y, sharedPreLoop (e.1.map toByte) p.length
        (hexRange (e' :: es)) (2 ^ 32 - 1) = .ok (p ++ key).length ∧
      (∀ a ∈ e :: e' :: es, p ++ key <+: a.1) ∧
      (p ++ key ++ v, x) ∈ e :: e' :: es ∧
      (p ++ key ++ w, y) ∈ e :: e' :: es ∧ v.head? ≠ w.head? := by
  have hp := h.front e List.mem_cons_self
  have hshort := h.short e List.mem_cons_self
  have hrest : ∀ a ∈ e' :: es, p <+: a.1 ∧ a.1.length < 2 ^ 31 - 1 := fun a ha =>
    ⟨h.front a (List.mem_cons_of_mem e ha),
      h.short a (List.mem_cons_of_mem e ha)⟩
  obtain ⟨n, hn, hge, -, hall, hone⟩ :=
    Web3Core.exists_sharedPreLoop hp hshort hrest
      (show p.length ≤ 2 ^ 32 - 1 by have := hp.length_le; omega)
  have hlt : n ≤ e.1.length :=
    (hall e' List.mem_cons_self).trans (sharedLength_le_left e.1 e'.1)
  obtain ⟨b, hb, heq⟩ : ∃ b ∈ e' :: es, n = sharedLength e.1 b.1 := by
    rcases hone with hone | hone
    · omega
    · exact hone
  obtain ⟨q, v, w, hv, hw, hq, hzero⟩ := exists_shared e.1 b.1
  have hqn : q.length = n := by rw [heq, hq]
  obtain ⟨key, rfl⟩ : p <+: q :=
    List.prefix_of_prefix_length_le hp ⟨v, hv.symm⟩ (by omega)
  have hne : v ≠ w := by
    rintro rfl
    have hlt := (List.pairwise_cons.1 h.ordered).1 b hb
    exact hlt.ne (by rw [hv, hw])
  have htake : e.1.take n = p ++ key := by rw [hv, ← hqn, List.take_left]
  refine ⟨key, v, w, e.2, b.2, by rw [hn, hqn], fun a ha => ?_, ?_, ?_,
    head_ne_of_shared hzero hne⟩
  · rcases List.mem_cons.1 ha with rfl | ha
    · exact ⟨v, hv.symm⟩
    · rw [← htake]
      exact take_prefix_of_le (hall a ha)
  · rw [← hv]
    exact List.mem_cons_self
  · rw [← hw]
    exact List.mem_cons_of_mem e hb

/-- `hash256rlp` builds the canonical trie of its range. -/
theorem builds (fuel : Nat) {p : List Nibble} {es : HexEntries}
    (h : Bulk fuel p es) (hne : es ≠ []) :
    ∃ t, Collects p es t ∧ t ≠ .empty ∧
      Yields (hash256rlp sha3 fuel (hexRange es) p.length {}) (enc sha3 t) := by
  induction fuel generalizing p es with
  | zero =>
      obtain ⟨e, es, rfl⟩ := List.exists_cons_of_ne_nil hne
      have hlt := h.fuelled e List.mem_cons_self
      have hle := (h.front e List.mem_cons_self).length_le
      omega
  | succ fuel ih =>
      rcases es with _ | ⟨e, _ | ⟨e', es⟩⟩
      · exact absurd rfl hne
      · exact builds_single h
      · obtain ⟨key, v, w, x, y, hloop, hfront, hv, hw, hvw⟩ :=
          h.exists_sharedPreLoop
        have hrange : hexRange (e :: e' :: es) =
            (e.1.map toByte, e.2) :: (e'.1.map toByte, e'.2) ::
              hexRange es := rfl
        have hrest : hexRange (e' :: es) =
            (e'.1.map toByte, e'.2) :: hexRange es := rfl
        rw [hrest] at hloop
        rw [hrange, hash256rlp, hloop, ok_bind]
        by_cases hkey : key = []
        · subst hkey
          rw [List.append_nil] at hv hw ⊢
          rw [if_neg (lt_irrefl _)]
          have hbranch := builds_branch h hv hw hvw fun i hi => ih (h.slot i) hi
          simp only [List.length_map]
          exact hbranch
        · obtain ⟨t, ht, -, hyields⟩ := ih (h.append hkey hfront) hne
          have hsplits : t.IsBranch :=
            ht.canonical.isBranch_of_splits ⟨v, w,
              by simp [(ht.lookup v x).2 hv], by simp [(ht.lookup w y).2 hw],
              hvw⟩
          have hpos := List.length_pos_of_ne_nil hkey
          rw [if_pos (by rw [List.length_append]; omega)]
          obtain ⟨hcollects, hext⟩ := builds_ext hkey
            (hfront e List.mem_cons_self) (h.short e List.mem_cons_self) ht
            hsplits hfront hyields
          exact ⟨.ext key t, hcollects, by simp, hext⟩

end Build

end Web3Core
