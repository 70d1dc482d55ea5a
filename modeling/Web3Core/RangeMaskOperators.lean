/-
The difference of two masks and the lowest elements of one.  The difference is
taken by complements, so that what the union adds to the ground range is in it;
the sum of the beginning of a range and of what is left to take may wrap around.
-/
import Web3Core.RangeMaskSet

namespace Web3Core

namespace RangeMask

/-- The ranges are apart from each other and inside the ground range. -/
structure Valid (m : RangeMask) : Prop where
  ordered : m.all.1 ≤ m.all.2
  bounded : m.all.2 < 2 ^ 32
  separated : Separated m.ranges
  inside : ∀ {a b : Nat}, m.ranges.lookup a = some b →
    m.all.1 ≤ a ∧ b ≤ m.all.2

/-- The numbers of the ranges of a list. -/
def elementsOf (entries : List (Nat × Nat)) : List Nat :=
  entries.flatMap fun e => List.range' e.1 (e.2 - e.1)

/-- The elements of a mask, range by range. -/
def elements (m : RangeMask) : List Nat := elementsOf m.ranges.entries

variable {m other : RangeMask} {s : GroundSet} {ret : OrderedMap Nat Nat}
  {entries : List (Nat × Nat)} {x items : Nat}

theorem elementsOf_cons (e : Nat × Nat) (entries : List (Nat × Nat)) :
    elementsOf (e :: entries) =
      List.range' e.1 (e.2 - e.1) ++ elementsOf entries := List.flatMap_cons

theorem mem_elementsOf :
    x ∈ elementsOf entries ↔ ∃ e ∈ entries, e.1 ≤ x ∧ x < e.2 := by
  rw [elementsOf, List.mem_flatMap]
  refine exists_congr fun e => and_congr_right fun _ => ?_
  rw [List.mem_range'_1]
  constructor
  · rintro ⟨hle, hlt⟩
    exact ⟨hle, by omega⟩
  · rintro ⟨hle, hlt⟩
    exact ⟨hle, by omega⟩

/-- Ranges that follow each other have their numbers in order. -/
theorem pairwise_elementsOf (hpairs : entries.Pairwise fun e e' => e.2 < e'.1) :
    (elementsOf entries).Pairwise (· < ·) := by
  induction entries with
  | nil => exact List.Pairwise.nil
  | cons e entries ih =>
      obtain ⟨hhead, htail⟩ := List.pairwise_cons.mp hpairs
      rw [elementsOf_cons]
      refine List.pairwise_append.mpr ⟨List.pairwise_lt_range', ih htail, ?_⟩
      intro x hx y hy
      obtain ⟨e', he', hle, -⟩ := mem_elementsOf.mp hy
      have hgap := hhead e' he'
      rw [List.mem_range'_1] at hx
      omega

namespace Valid

theorem represents (h : m.Valid) :
    m.Represents ⟨m.all.1, m.all.2, m.elements.toFinset⟩ := by
  refine ⟨rfl, h.ordered, h.bounded, h.separated, fun x => ?_, fun x hx => ?_⟩
  · rw [covers_iff_mem, List.mem_toFinset, elements, mem_elementsOf]
  · rw [List.mem_toFinset, elements, mem_elementsOf] at hx
    obtain ⟨e, he, hle, hlt⟩ := hx
    obtain ⟨hfirst, hsecond⟩ :=
      h.inside (OrderedMap.lookup_eq_some_iff.mpr he)
    exact ⟨hfirst.trans hle, hlt.trans_le hsecond⟩

theorem mem_elements_iff (h : m.Valid) (x : Nat) :
    x ∈ m.elements ↔ m.contains x = true := by
  rw [h.represents.contains_iff x, List.mem_toFinset]

theorem pairwise_elements (h : m.Valid) : m.elements.Pairwise (· < ·) :=
  pairwise_elementsOf h.separated.pairwise

theorem length_elements (h : m.Valid) : m.elements.length = m.size := by
  rw [h.represents.size_eq, List.toFinset_card_of_nodup]
  exact h.pairwise_elements.imp fun hlt => hlt.ne

end Valid

theorem Represents.valid (h : m.Represents s) : m.Valid where
  ordered := by
    rw [h.all]
    exact h.ordered
  bounded := by
    rw [h.all]
    exact h.bounded
  separated := h.separated
  inside := by
    intro a b hab
    obtain ⟨hfirst, -, hsecond⟩ := h.bounds hab
    rw [h.all]
    exact ⟨hfirst, hsecond⟩

/-- A mask of one range. -/
theorem valid_single {first a b second : Nat} (hfirst : first ≤ a) (hlt : a < b)
    (hsecond : b ≤ second) (hbounded : second < 2 ^ 32) :
    Valid { all := (first, second), ranges := .insert {} a b } where
  ordered := hfirst.trans (hlt.le.trans hsecond)
  bounded := hbounded
  separated := Separated.empty.insert hlt fun hxy => by cases hxy
  inside := by
    intro a' b' hab
    rw [OrderedMap.lookup_insert] at hab
    split at hab
    · next ha =>
        cases hab
        exact ⟨ha ▸ hfirst, hsecond⟩
    · cases hab

/-- A difference ends and gives a mask.  It is the difference of the sets exactly
if what the other ground range adds to that of the mask is all in the other
mask. -/
theorem minus_iff (m other : RangeMask) (h : m.Valid) (hother : other.Valid) :
    ∃ d, m.minus other = .ok d ∧ d.Valid ∧
      ((∀ x, d.contains x = true ↔
          m.contains x = true ∧ other.contains x = false) ↔
        ∀ x, min other.all.1 m.all.1 ≤ x → x < max other.all.2 m.all.2 →
          (x < m.all.1 ∨ m.all.2 ≤ x) → other.contains x = true) := by
  obtain ⟨united, hrun, hunited⟩ :=
    h.represents.inverted.exists_unionWith hother.represents
  have hd := hunited.inverted
  refine ⟨united.inverted, by rw [minus, hrun]; rfl, hd.valid, ?_⟩
  have hmem : ∀ x, united.inverted.contains x = true ↔
      (min other.all.1 m.all.1 ≤ x ∧ x < max other.all.2 m.all.2) ∧
        ¬ ((m.all.1 ≤ x ∧ x < m.all.2) ∧ m.contains x = false) ∧
        other.contains x = false := by
    intro x
    rw [hd.contains_iff x]
    simp only [GroundSet.compl, GroundSet.union, Finset.mem_sdiff,
      Finset.mem_union, Finset.mem_Ico, List.mem_toFinset, h.mem_elements_iff,
      hother.mem_elements_iff, not_or, Bool.not_eq_true]
  constructor
  · intro hall x hle hlt hout
    by_contra hnot
    rw [Bool.not_eq_true] at hnot
    have hin := (hmem x).mpr ⟨⟨hle, hlt⟩, by omega, hnot⟩
    have hx := h.represents.inside x
      (List.mem_toFinset.mpr ((h.mem_elements_iff x).mpr ((hall x).mp hin).1))
    simp only at hx
    omega
  · intro hall x
    rw [hmem x]
    constructor
    · rintro ⟨⟨hle, hlt⟩, hnot, hother'⟩
      have hinside : m.all.1 ≤ x ∧ x < m.all.2 := by
        by_contra hout
        have hin := hall x hle hlt (by omega)
        rw [hother'] at hin
        cases hin
      exact ⟨by simpa [hinside] using hnot, hother'⟩
    · rintro ⟨hin, hother'⟩
      have hx := h.represents.inside x
        (List.mem_toFinset.mpr ((h.mem_elements_iff x).mpr hin))
      simp only at hx
      exact ⟨⟨by omega, by omega⟩, by simp [hin], hother'⟩

/-- The masks with the element 0 in a ground range of 5 numbers, and with none
in one of 10 numbers. -/
theorem not_minus :
    let m : RangeMask := { all := (0, 5), ranges := .insert {} 0 1 }
    let other : RangeMask := { all := (0, 10) }
    m.Valid ∧ other.Valid ∧ ∃ d, m.minus other = .ok d ∧
      ¬ ∀ x, d.contains x = true ↔
        m.contains x = true ∧ other.contains x = false := by
  intro m other
  have hm : m.Valid := valid_single (by decide) (by decide) (by decide) (by decide)
  have hother : other.Valid :=
    (Represents.of_bounds (by decide) (by decide)).valid
  refine ⟨hm, hother, _, rfl, fun hall => ?_⟩
  have hfive := (hall 5).mp rfl
  exact absurd hfive.1 (by decide)

/-- The numbers from 2 to 5 less those from 4 on; what the second ground range
adds to the first is all in the second mask. -/
theorem minus_iff_overlapping :
    let m : RangeMask := { all := (0, 10), ranges := .insert {} 2 6 }
    let other : RangeMask := { all := (4, 12), ranges := .insert {} 4 12 }
    ∃ d, m.minus other = .ok d ∧ d.Valid ∧ ∀ x, d.contains x = true ↔
      m.contains x = true ∧ other.contains x = false := by
  intro m other
  have hm : m.Valid := valid_single (by decide) (by decide) (by decide) (by decide)
  have hother : other.Valid :=
    valid_single (by decide) (by decide) (by decide) (by decide)
  obtain ⟨d, hd, hvalid, hiff⟩ := minus_iff m other hm hother
  refine ⟨d, hd, hvalid, hiff.mpr fun x _ hlt hout => ?_⟩
  have hx : x = 10 ∨ x = 11 := by
    have hmax : max other.all.2 m.all.2 = 12 := rfl
    have hfirst : m.all.1 = 0 := rfl
    have hsecond : m.all.2 = 10 := rfl
    omega
  rcases hx with rfl | rfl <;> decide

/-- No sum wraps around while the lowest elements are taken. -/
def Fits : List (Nat × Nat) → Nat → Prop
  | [], _ => True
  | e :: rest, items =>
      items = 0 ∨ (e.1 + items < 2 ^ 32 ∧ Fits rest (items - (e.2 - e.1)))

/-- The ranges that a loop still goes over, behind those it has made. -/
structure Ahead (ret : OrderedMap Nat Nat) (entries : List (Nat × Nat)) :
    Prop where
  separated : Separated ret
  apart : entries.Pairwise fun e e' => e.2 < e'.1
  nonempty : ∀ e ∈ entries, e.1 < e.2
  bounded : ∀ e ∈ entries, e.2 < 2 ^ 32
  behind : ∀ {a b : Nat}, ret.lookup a = some b → ∀ e ∈ entries, b < e.1

/-- A range is made, or the first part of it. -/
theorem Ahead.insert {e : Nat × Nat} {second : Nat} (h : Ahead ret (e :: entries))
    (hlt : e.1 < second) (hle : second ≤ e.2) :
    Ahead (ret.insert e.1 second) entries ∧
      ∀ x, Covers (ret.insert e.1 second) x ↔
        Covers ret x ∨ (e.1 ≤ x ∧ x < second) := by
  obtain ⟨hhead, htail⟩ := List.pairwise_cons.mp h.apart
  have hbehind : ∀ {a b : Nat}, ret.lookup a = some b → b < e.1 := fun hab =>
    h.behind hab e List.mem_cons_self
  refine ⟨⟨?_, htail, ?_, ?_, ?_⟩, fun x => ?_⟩
  · exact h.separated.insert hlt fun hxy => .inr (.inl (hbehind hxy))
  · exact fun e' he' => h.nonempty e' (List.mem_cons_of_mem e he')
  · exact fun e' he' => h.bounded e' (List.mem_cons_of_mem e he')
  · intro a b hab e' he'
    have hgap := hhead e' he'
    rw [OrderedMap.lookup_insert] at hab
    split at hab
    · rw [Option.some.injEq] at hab
      omega
    · have hless := hbehind hab
      omega
  · exact covers_insert fun hy => by
      have hless := hbehind hy
      omega

theorem mem_take_range' {start size : Nat} :
    x ∈ (List.range' start size).take items ↔
      start ≤ x ∧ x < start + min items size := by
  rcases Nat.le_total items size with hle | hle
  · rw [List.take_range'_of_length_ge hle, List.mem_range'_1, Nat.min_eq_left hle]
  · rw [List.take_range'_of_length_le hle, List.mem_range'_1,
      Nat.min_eq_right hle]

/-- What is left to take behind a range. -/
theorem items_left {a b : Nat} (hlt : a < b) (hb : b < 2 ^ 32)
    (hsum : a + items < 2 ^ 32) (hitems : items < 2 ^ 32) :
    (items + a + 2 ^ 32 - min (a + items) b) % 2 ^ 32 = items - (b - a) := by
  rcases Nat.le_total (a + items) b with hle | hle
  · rw [Nat.min_eq_left hle]
    omega
  · rw [Nat.min_eq_right hle]
    omega

/-- As long as no sum wraps around, the ranges that are made are those of the
first elements. -/
theorem lowestFrom_of_fits (entries : List (Nat × Nat)) :
    ∀ (items : Nat) (ret : OrderedMap Nat Nat), items < 2 ^ 32 →
      Ahead ret entries → Fits entries items →
      Separated (lowestFrom entries items ret) ∧
        ∀ x, Covers (lowestFrom entries items ret) x ↔
          Covers ret x ∨ x ∈ (elementsOf entries).take items := by
  induction entries with
  | nil =>
      intro items ret _ h _
      exact ⟨h.separated, fun x => by simp [lowestFrom, elementsOf]⟩
  | cons e entries ih =>
      intro items ret hitems h hfits
      rw [lowestFrom]
      by_cases hnone : items = 0
      · rw [if_pos hnone]
        exact ⟨h.separated, fun x => by simp [hnone]⟩
      · obtain ⟨hsum, hrest⟩ := hfits.resolve_left hnone
        have hpos := h.nonempty e List.mem_cons_self
        have hbounded := h.bounded e List.mem_cons_self
        rw [if_neg hnone]
        dsimp only
        rw [Nat.mod_eq_of_lt hsum, items_left hpos hbounded hsum hitems]
        obtain ⟨hahead, hcovers⟩ := @Ahead.insert ret entries e
          (min (e.1 + items) e.2) h (by omega) (Nat.min_le_right _ _)
        obtain ⟨hseparated, hall⟩ := ih _ _ (by omega) hahead hrest
        refine ⟨hseparated, fun x => (hall x).trans ?_⟩
        rw [hcovers x, or_assoc, elementsOf_cons, List.take_append, List.mem_append,
          List.length_range', mem_take_range']
        refine or_congr_right (or_congr_left ?_)
        omega

/-- The first sum that wraps around makes a range that ends before it begins. -/
theorem lowestFrom_of_not_fits (entries : List (Nat × Nat)) :
    ∀ (items : Nat) (ret : OrderedMap Nat Nat), items < 2 ^ 32 →
      Ahead ret entries → ¬ Fits entries items →
      ∃ a b, (lowestFrom entries items ret).lookup a = some b ∧ b ≤ a := by
  induction entries with
  | nil =>
      intro items ret _ _ hnot
      exact absurd trivial hnot
  | cons e entries ih =>
      intro items ret hitems h hnot
      rw [Fits, not_or, not_and_or] at hnot
      obtain ⟨hsome, hwraps⟩ := hnot
      have hpos := h.nonempty e List.mem_cons_self
      have hbounded := h.bounded e List.mem_cons_self
      rw [lowestFrom, if_neg hsome]
      dsimp only
      by_cases hsum : e.1 + items < 2 ^ 32
      · rw [Nat.mod_eq_of_lt hsum, items_left hpos hbounded hsum hitems]
        have hahead := (@Ahead.insert ret entries e
          (min (e.1 + items) e.2) h (by omega) (Nat.min_le_right _ _)).1
        exact ih _ _ (by omega) hahead (hwraps.resolve_left (not_not.mpr hsum))
      · have hwrapped : (e.1 + items) % 2 ^ 32 = e.1 + items - 2 ^ 32 := by
          omega
        have hmin : min (e.1 + items - 2 ^ 32) e.2 = e.1 + items - 2 ^ 32 :=
          Nat.min_eq_left (by omega)
        have hleft : (items + e.1 + 2 ^ 32 - (e.1 + items - 2 ^ 32)) % 2 ^ 32 =
            0 := by
          omega
        have hdone : ∀ (rest : List (Nat × Nat)) (ret : OrderedMap Nat Nat),
            lowestFrom rest 0 ret = ret := by
          intro rest ret
          cases rest with
          | nil => rfl
          | cons e rest => rw [lowestFrom, if_pos rfl]
        rw [hwrapped, hmin, hleft, hdone]
        exact ⟨e.1, _, by rw [OrderedMap.lookup_insert, if_pos rfl], by omega⟩

/-- No sum wraps around if the beginning of each range, and what is left to take
when it is come to, have a sum that is an unsigned number. -/
theorem fits_iff (hpairs : entries.Pairwise fun e e' => e.2 < e'.1)
    (hnonempty : ∀ e ∈ entries, e.1 < e.2) :
    Fits entries items ↔ ∀ e ∈ entries,
      (elementsOf entries).countP (· < e.1) < items →
        e.1 + (items - (elementsOf entries).countP (· < e.1)) < 2 ^ 32 := by
  induction entries generalizing items with
  | nil => simp [Fits]
  | cons e entries ih =>
      obtain ⟨hhead, htail⟩ := List.pairwise_cons.mp hpairs
      have hpos := hnonempty e List.mem_cons_self
      have hfirst : (elementsOf (e :: entries)).countP (· < e.1) = 0 := by
        rw [List.countP_eq_zero]
        intro x hx
        obtain ⟨e', he', hle, -⟩ := mem_elementsOf.mp hx
        rcases List.mem_cons.mp he' with rfl | he'
        · simpa using hle
        · have hgap := hhead e' he'
          rw [decide_eq_true_eq]
          omega
      have hothers : ∀ e' ∈ entries, (elementsOf (e :: entries)).countP (· < e'.1) =
          e.2 - e.1 + (elementsOf entries).countP (· < e'.1) := by
        intro e' he'
        have hgap := hhead e' he'
        rw [elementsOf_cons, List.countP_append, List.countP_eq_length.mpr,
          List.length_range']
        intro x hx
        rw [List.mem_range'_1] at hx
        rw [decide_eq_true_eq]
        omega
      rw [Fits, ih htail fun e' he' => hnonempty e' (List.mem_cons_of_mem e he'),
        List.forall_mem_cons, hfirst]
      constructor
      · rintro (hnone | ⟨hsum, hrest⟩)
        · exact ⟨fun hlt => by omega, fun e' _ hlt => by omega⟩
        · refine ⟨fun _ => hsum, fun e' he' hlt => ?_⟩
          rw [hothers e' he'] at hlt ⊢
          have hfit := hrest e' he' (by omega)
          omega
      · rintro ⟨hsum, hrest⟩
        rcases Nat.eq_zero_or_pos items with hnone | hsome
        · exact .inl hnone
        · refine .inr ⟨hsum hsome, fun e' he' hlt => ?_⟩
          have hfit := hrest e' he'
          rw [hothers e' he'] at hfit
          omega

/-- `lowest` takes the smallest elements exactly if, at each range that is come
to, its beginning and what is left to take have a sum that is an unsigned
number. -/
theorem lowest_iff (m : RangeMask) (h : m.Valid) (n : UInt32) :
    ((m.lowest n.toNat).Valid ∧ (m.lowest n.toNat).all = m.all ∧
        ∀ x, (m.lowest n.toNat).contains x = true ↔ x ∈ m.elements.take n.toNat) ↔
      ∀ a b, m.ranges.lookup a = some b → m.elements.countP (· < a) < n.toNat →
        a + (n.toNat - m.elements.countP (· < a)) < 2 ^ 32 := by
  have hn := n.toNat_lt
  have hnonempty : ∀ e ∈ m.ranges.entries, e.1 < e.2 := fun e he =>
    h.separated.nonempty (OrderedMap.lookup_eq_some_iff.mpr he)
  have hahead : Ahead {} m.ranges.entries := by
    refine ⟨.empty, h.separated.pairwise, hnonempty, fun e he => ?_,
      fun hab => by cases hab⟩
    have hinside := h.inside (OrderedMap.lookup_eq_some_iff.mpr he)
    exact hinside.2.trans_lt h.bounded
  have hfits : Fits m.ranges.entries n.toNat ↔ ∀ a b,
      m.ranges.lookup a = some b → m.elements.countP (· < a) < n.toNat →
        a + (n.toNat - m.elements.countP (· < a)) < 2 ^ 32 := by
    rw [fits_iff h.separated.pairwise hnonempty]
    constructor
    · intro hall a b hab
      exact hall (a, b) (OrderedMap.lookup_eq_some_iff.mp hab)
    · intro hall e he
      exact hall e.1 e.2 (OrderedMap.lookup_eq_some_iff.mpr he)
  rw [← hfits]
  constructor
  · rintro ⟨hvalid, -, -⟩
    by_contra hnot
    obtain ⟨a, b, hab, hle⟩ :=
      lowestFrom_of_not_fits m.ranges.entries n.toNat {} hn hahead hnot
    have hlt := hvalid.separated.nonempty hab
    omega
  · intro hfits
    obtain ⟨hseparated, hcovers⟩ :=
      lowestFrom_of_fits m.ranges.entries n.toNat {} hn hahead hfits
    have hmem : ∀ x, Covers (m.lowest n.toNat).ranges x ↔
        x ∈ m.elements.take n.toNat := by
      intro x
      rw [lowest, hcovers x, elements]
      simp only [not_covers_empty, false_or]
    have hrep : (m.lowest n.toNat).Represents
        ⟨m.all.1, m.all.2, (m.elements.take n.toNat).toFinset⟩ := by
      refine ⟨rfl, h.ordered, h.bounded, hseparated, fun x => ?_, fun x hx => ?_⟩
      · rw [hmem x, List.mem_toFinset]
      · rw [List.mem_toFinset] at hx
        exact h.represents.inside x
          (List.mem_toFinset.mpr (List.mem_of_mem_take hx))
    refine ⟨hrep.valid, rfl, fun x => ?_⟩
    rw [hrep.contains_iff x, List.mem_toFinset]

theorem lowest_iff_two :
    let m : RangeMask := { all := (0, 10), ranges := .insert {} 1 4 }
    ((m.lowest (2 : UInt32).toNat).Valid ∧
        (m.lowest (2 : UInt32).toNat).all = m.all ∧
        ∀ x, (m.lowest (2 : UInt32).toNat).contains x = true ↔
          x ∈ m.elements.take (2 : UInt32).toNat) ↔
      ∀ a b, m.ranges.lookup a = some b →
        m.elements.countP (· < a) < (2 : UInt32).toNat →
        a + ((2 : UInt32).toNat - m.elements.countP (· < a)) < 2 ^ 32 := by
  intro m
  exact lowest_iff m
    (valid_single (by decide) (by decide) (by decide) (by decide)) 2

/-- Of the mask with the elements 1 and 2, the lowest `2 ^ 32 - 1` are in a range
from 1 to 0. -/
theorem not_lowest :
    let m : RangeMask := { all := (0, 10), ranges := .insert {} 1 3 }
    m.Valid ∧ ¬ ((m.lowest (4294967295 : UInt32).toNat).Valid ∧
      (m.lowest (4294967295 : UInt32).toNat).all = m.all ∧
      ∀ x, (m.lowest (4294967295 : UInt32).toNat).contains x = true ↔
        x ∈ m.elements.take (4294967295 : UInt32).toNat) := by
  intro m
  refine ⟨valid_single (by decide) (by decide) (by decide) (by decide), ?_⟩
  rintro ⟨hvalid, -, -⟩
  have hrange : (m.lowest (4294967295 : UInt32).toNat).ranges.lookup 1 =
      some 0 := by
    decide +kernel
  exact absurd (hvalid.separated.nonempty hrange) (by decide)

end RangeMask

end Web3Core
