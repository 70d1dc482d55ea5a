/-
A range mask is a set.  The ranges are apart from each other, and the loop that
includes one more keeps them so: what it has still to include, together with
what the ranges cover, stays the same in every round.
-/
import Web3Core.RangeMask

namespace Web3Core

namespace RangeMask

variable {ranges : OrderedMap Nat Nat} {a b c d i lo second x : Nat}

/-- No range is empty, and there is a gap between any two. -/
structure Separated (ranges : OrderedMap Nat Nat) : Prop where
  nonempty : ∀ {a b : Nat}, ranges.lookup a = some b → a < b
  apart : ∀ {a b a' b' : Nat}, ranges.lookup a = some b →
    ranges.lookup a' = some b' → a < a' → b < a'

/-- The elements of the ranges. -/
def Covers (ranges : OrderedMap Nat Nat) (x : Nat) : Prop :=
  ∃ a b, ranges.lookup a = some b ∧ a ≤ x ∧ x < b

/-- The end of a range is in no other one. -/
theorem Separated.not_covers_end (h : Separated ranges)
    (hab : ranges.lookup a = some b) : ¬ Covers ranges b := by
  rintro ⟨a', b', hab', hle, hlt⟩
  have hnonempty := h.nonempty hab
  rcases Nat.lt_trichotomy a a' with hless | rfl | hmore
  · have hgap := h.apart hab hab' hless
    omega
  · rw [hab, Option.some.injEq] at hab'
    omega
  · have hgap := h.apart hab' hab hmore
    omega

theorem Separated.empty : Separated {} := by
  constructor
  · intro a b h
    cases h
  · intro a b a' b' h
    cases h

theorem not_covers_empty (x : Nat) : ¬ Covers {} x := by
  rintro ⟨a, b, h, -⟩
  cases h

theorem Separated.erase (h : Separated ranges) (c : Nat) :
    Separated (ranges.erase c) := by
  have hsub : ∀ {a b : Nat}, (ranges.erase c).lookup a = some b →
      ranges.lookup a = some b := by
    intro a b hab
    rw [OrderedMap.lookup_erase] at hab
    split at hab
    · cases hab
    · exact hab
  constructor
  · intro a b hab
    exact h.nonempty (hsub hab)
  · intro a b a' b' hab hab' hlt
    exact h.apart (hsub hab) (hsub hab') hlt

theorem covers_erase (hc : ranges.lookup c = some d) :
    Covers ranges x ↔ Covers (ranges.erase c) x ∨ (c ≤ x ∧ x < d) := by
  constructor
  · rintro ⟨a, b, hab, hle, hlt⟩
    by_cases hac : a = c
    · subst hac
      rw [hab, Option.some.injEq] at hc
      exact .inr ⟨hle, hc ▸ hlt⟩
    · exact .inl ⟨a, b, by rw [OrderedMap.lookup_erase, if_neg hac, hab],
        hle, hlt⟩
  · rintro (⟨a, b, hab, hle, hlt⟩ | ⟨hle, hlt⟩)
    · rw [OrderedMap.lookup_erase] at hab
      split at hab
      · cases hab
      · exact ⟨a, b, hab, hle, hlt⟩
    · exact ⟨c, d, hc, hle, hlt⟩

/-- One more range, or a longer one in the place of an old one. -/
theorem Separated.insert (h : Separated ranges) (hlt : a < b)
    (hothers : ∀ {x y : Nat}, ranges.lookup x = some y →
      x = a ∨ y < a ∨ b < x) : Separated (ranges.insert a b) := by
  constructor
  · intro x y hxy
    rw [OrderedMap.lookup_insert] at hxy
    split at hxy
    · next hx =>
        rw [Option.some.injEq] at hxy
        omega
    · exact h.nonempty hxy
  · intro x y x' y' hxy hxy' hless
    rw [OrderedMap.lookup_insert] at hxy hxy'
    split at hxy
    · next hx =>
        rw [if_neg (by omega)] at hxy'
        rw [Option.some.injEq] at hxy
        have hlt' := h.nonempty hxy'
        rcases hothers hxy' with heq | hleft | hright
        · omega
        · omega
        · omega
    · split at hxy'
      · next hx hx' =>
          rcases hothers hxy with heq | hleft | hright
          · omega
          · omega
          · omega
      · exact h.apart hxy hxy' hless

theorem covers_insert (hold : ∀ {y : Nat}, ranges.lookup a = some y → y ≤ b) :
    Covers (ranges.insert a b) x ↔ Covers ranges x ∨ (a ≤ x ∧ x < b) := by
  constructor
  · rintro ⟨x', y, hxy, hle, hlt⟩
    rw [OrderedMap.lookup_insert] at hxy
    split at hxy
    · next hx =>
        rw [Option.some.injEq] at hxy
        exact .inr ⟨by omega, by omega⟩
    · exact .inl ⟨x', y, hxy, hle, hlt⟩
  · rintro (⟨x', y, hxy, hle, hlt⟩ | ⟨hle, hlt⟩)
    · by_cases hx : x' = a
      · subst hx
        have hy := hold hxy
        exact ⟨x', b, by rw [OrderedMap.lookup_insert, if_pos rfl], hle,
          by omega⟩
      · exact ⟨x', y, by rw [OrderedMap.lookup_insert, if_neg hx, hxy], hle,
          hlt⟩
    · exact ⟨a, b, by rw [OrderedMap.lookup_insert, if_pos rfl], hle, hlt⟩

theorem insert_erase (hne : a ≠ c) :
    (ranges.insert a b).erase c = (ranges.erase c).insert a b := by
  refine OrderedMap.ext_lookup fun key => ?_
  simp only [OrderedMap.lookup_erase, OrderedMap.lookup_insert]
  by_cases hkey : key = c
  · subst hkey
    rw [if_pos rfl, if_neg (Ne.symm hne), if_pos rfl]
  · rw [if_neg hkey, if_neg hkey]

/-- What includes the elements from `i` on can start at `lo`: a range begins
there that ends at `i`, or none reaches up to `i`. -/
structure StartsAt (ranges : OrderedMap Nat Nat) (lo i : Nat) : Prop where
  le : lo ≤ i
  below : ∀ {x y : Nat}, ranges.lookup x = some y → x ≤ i →
    (x = lo ∧ y ≤ i) ∨ y < lo
  covered : ∀ {x : Nat}, lo ≤ x → x < i → Covers ranges x

/-- No range begins where the new one is to end: it is put in. -/
theorem StartsAt.last (h : StartsAt ranges lo i) (hsep : Separated ranges)
    (hlt : i < second)
    (hafter : ∀ {x y : Nat}, ranges.lookup x = some y → i < x → second < x) :
    Separated (ranges.insert lo second) ∧
      ∀ x, Covers (ranges.insert lo second) x ↔
        Covers ranges x ∨ (i ≤ x ∧ x < second) := by
  have hle := h.le
  constructor
  · refine hsep.insert (by omega) fun {x y} hxy => ?_
    rcases Nat.lt_or_ge i x with hright | hleft
    · exact .inr (.inr (hafter hxy hright))
    · rcases h.below hxy hleft with ⟨heq, -⟩ | hless
      · exact .inl heq
      · exact .inr (.inl hless)
  · intro x
    have hold : ∀ {y : Nat}, ranges.lookup lo = some y → y ≤ second := by
      intro y hy
      rcases h.below hy hle with ⟨-, hyi⟩ | hless
      · omega
      · omega
    rw [covers_insert hold]
    constructor
    · rintro (hcovers | ⟨hlo, hx⟩)
      · exact .inl hcovers
      · rcases Nat.lt_or_ge x i with hleft | hright
        · exact .inl (h.covered hlo hleft)
        · exact .inr ⟨hright, hx⟩
    · rintro (hcovers | ⟨hi, hx⟩)
      · exact .inl hcovers
      · exact .inr ⟨by omega, hx⟩

/-- The next range begins where the new one is to be: the two become one, and
what is left begins at the end of it. -/
theorem StartsAt.join (h : StartsAt ranges lo i) (hsep : Separated ranges)
    (hc : ranges.lookup c = some d) (hic : i < c) (hcs : c ≤ second)
    (hafter : ∀ {x y : Nat}, ranges.lookup x = some y → i < x → c ≤ x) :
    Separated ((ranges.insert lo d).erase c) ∧
      ∀ x, (Covers ((ranges.insert lo d).erase c) x ∨ (d ≤ x ∧ x < second)) ↔
        (Covers ranges x ∨ (i ≤ x ∧ x < second)) := by
  have hle := h.le
  have hcd := hsep.nonempty hc
  have hsub : ∀ {x y : Nat}, (ranges.erase c).lookup x = some y →
      x ≠ c ∧ ranges.lookup x = some y := by
    intro x y hxy
    rw [OrderedMap.lookup_erase] at hxy
    split at hxy
    · cases hxy
    · next hx => exact ⟨hx, hxy⟩
  rw [insert_erase (by omega)]
  constructor
  · refine (hsep.erase c).insert (by omega) fun {x y} hxy => ?_
    obtain ⟨hne, hxy⟩ := hsub hxy
    rcases Nat.lt_or_ge i x with hright | hleft
    · have hcx := hafter hxy hright
      exact .inr (.inr (hsep.apart hc hxy (by omega)))
    · rcases h.below hxy hleft with ⟨heq, -⟩ | hless
      · exact .inl heq
      · exact .inr (.inl hless)
  · intro x
    have hold : ∀ {y : Nat}, (ranges.erase c).lookup lo = some y → y ≤ d := by
      intro y hy
      rcases h.below (hsub hy).2 hle with ⟨-, hyi⟩ | hless
      · omega
      · omega
    rw [covers_insert hold]
    have hall := @covers_erase ranges c d x hc
    constructor
    · rintro ((hcovers | ⟨hlo, hx⟩) | ⟨hd, hx⟩)
      · exact .inl (hall.mpr (.inl hcovers))
      · rcases Nat.lt_or_ge x i with hleft | hright
        · exact .inl (h.covered hlo hleft)
        · rcases Nat.lt_or_ge x c with hbefore | hinside
          · exact .inr ⟨hright, by omega⟩
          · exact .inl (hall.mpr (.inr ⟨hinside, hx⟩))
      · exact .inr ⟨by omega, hx⟩
    · rintro (hcovers | ⟨hi, hx⟩)
      · rcases hall.mp hcovers with hrest | ⟨hcx, hxd⟩
        · exact .inl (.inl hrest)
        · exact .inl (.inr ⟨by omega, hxd⟩)
      · rcases Nat.lt_or_ge x d with hleft | hright
        · exact .inl (.inr ⟨by omega, hleft⟩)
        · exact .inr ⟨hright, hx⟩

/-- No range reaches up to `i`. -/
theorem startsAt_apart (hsep : Separated ranges)
    (h : ((ranges.beforeUpperBound i).filter fun it => i ≤ it.2) = none) :
    StartsAt ranges i i := by
  refine ⟨le_rfl, fun {x y} hxy hle => .inr ?_, fun hle hlt => by omega⟩
  cases hbefore : ranges.beforeUpperBound i with
  | none =>
      have hlt := OrderedMap.beforeUpperBound_eq_none hbefore hxy
      omega
  | some it =>
      obtain ⟨hit, hiti, hmax⟩ := OrderedMap.beforeUpperBound_eq_some hbefore
      have hshort : it.2 < i := by simpa [hbefore] using h
      rcases Nat.lt_or_ge x it.1 with hless | hge
      · have hgap := hsep.apart hxy hit hless
        omega
      · have hxit : x = it.1 := Nat.le_antisymm (hmax hxy hle) hge
        rw [hxit, hit, Option.some.injEq] at hxy
        omega

/-- The range before `i` that reaches up to it. -/
theorem reaching_range {it : Nat × Nat}
    (h : ((ranges.beforeUpperBound i).filter fun it => i ≤ it.2) = some it) :
    ranges.lookup it.1 = some it.2 ∧ it.1 ≤ i ∧ i ≤ it.2 ∧
      ∀ {x y : Nat}, ranges.lookup x = some y → x ≤ i → x ≤ it.1 := by
  obtain ⟨hbefore, hreach⟩ := Option.filter_eq_some_iff.mp h
  obtain ⟨hit, hiti, hmax⟩ := OrderedMap.beforeUpperBound_eq_some hbefore
  exact ⟨hit, hiti, by simpa using hreach, hmax⟩

/-- A range ends at `i`. -/
theorem startsAt_end {it : Nat × Nat} (hsep : Separated ranges)
    (h : ((ranges.beforeUpperBound i).filter fun it => i ≤ it.2) = some it)
    (hend : it.2 = i) : StartsAt ranges it.1 i := by
  obtain ⟨hit, hiti, -, hmax⟩ := reaching_range h
  refine ⟨hiti, fun {x y} hxy hle => ?_, fun hle hlt => ?_⟩
  · rcases Nat.lt_or_ge x it.1 with hless | hge
    · exact .inr (hsep.apart hxy hit hless)
    · have hxit : x = it.1 := Nat.le_antisymm (hmax hxy hle) hge
      rw [hxit, hit, Option.some.injEq] at hxy
      exact .inl ⟨hxit, by omega⟩
  · exact ⟨it.1, it.2, hit, hle, by omega⟩

/-- What is known if no range begins after `i`, or the first one that does
begins after the end. -/
theorem after_none (h : ranges.upperBound i = none) {y : Nat}
    (hxy : ranges.lookup x = some y) (hlt : i < x) : second < x := by
  have hle := OrderedMap.upperBound_eq_none h hxy
  omega

theorem after_large {after : Nat × Nat} (h : ranges.upperBound i = some after)
    (hlarge : after.1 > second) {y : Nat} (hxy : ranges.lookup x = some y)
    (hlt : i < x) : second < x := by
  have hle := (OrderedMap.upperBound_eq_some h).2.2 hxy hlt
  omega

/-- The loop includes what it is to include, and ends. -/
theorem exists_uniteFrom (second fuel : Nat) :
    ∀ (i : Nat) (ranges : OrderedMap Nat Nat), Separated ranges →
      second - i < fuel → ∃ united,
        uniteFrom second fuel i ranges = .ok united ∧ Separated united ∧
          ∀ x, Covers united x ↔ Covers ranges x ∨ (i ≤ x ∧ x < second) := by
  induction fuel with
  | zero =>
      intro i ranges hsep hfuel
      omega
  | succ fuel ih =>
      intro i ranges hsep hfuel
      rw [uniteFrom]
      by_cases hdone : second ≤ i
      · rw [if_pos hdone]
        refine ⟨ranges, rfl, hsep, fun x => ?_⟩
        constructor
        · exact .inl
        · rintro (hcovers | hx)
          · exact hcovers
          · omega
      · rw [if_neg hdone]
        have hlt : i < second := by omega
        -- A range that is joined ends after `i`, so that fuel is left.
        have hjoined : ∀ {lo : Nat} {after : Nat × Nat},
            StartsAt ranges lo i → ranges.upperBound i = some after →
            ¬ after.1 > second → ∃ united,
              uniteFrom second fuel after.2
                ((ranges.insert lo after.2).erase after.1) = .ok united ∧
              Separated united ∧
              ∀ x, Covers united x ↔ Covers ranges x ∨ (i ≤ x ∧ x < second) := by
          intro lo after hstarts hafter hsmall
          obtain ⟨hc, hic, hmin⟩ := OrderedMap.upperBound_eq_some hafter
          have hcd := hsep.nonempty hc
          obtain ⟨hsep', hcovers⟩ := hstarts.join hsep hc hic
            (Nat.not_lt.mp hsmall) hmin
          obtain ⟨united, hrun, hunited, hall⟩ := ih after.2 _ hsep' (by omega)
          exact ⟨united, hrun, hunited, fun x => (hall x).trans (hcovers x)⟩
        have hput : ∀ {lo : Nat}, StartsAt ranges lo i →
            (∀ {x y : Nat}, ranges.lookup x = some y → i < x → second < x) →
            ∃ united, (Except.ok (ranges.insert lo second) :
                Except Exception (OrderedMap Nat Nat)) = .ok united ∧
              Separated united ∧
              ∀ x, Covers united x ↔ Covers ranges x ∨ (i ≤ x ∧ x < second) := by
          intro lo hstarts hafter
          obtain ⟨hsep', hcovers⟩ := hstarts.last hsep hlt hafter
          exact ⟨_, rfl, hsep', hcovers⟩
        cases hbefore : (ranges.beforeUpperBound i).filter
            fun it => i ≤ it.2 with
        | none =>
            have hstarts := startsAt_apart hsep hbefore
            cases hafter : ranges.upperBound i with
            | none => exact hput hstarts (after_none hafter)
            | some after =>
                have hic := (OrderedMap.upperBound_eq_some hafter).2.1
                by_cases hlarge : after.1 > second
                · simp only [hlarge, ↓reduceIte]
                  exact hput hstarts (after_large hafter hlarge)
                · simp only [hlarge, ↓reduceIte, hic.ne']
                  exact hjoined hstarts hafter hlarge
        | some it =>
            obtain ⟨hit, hiti, hreach, -⟩ := reaching_range hbefore
            by_cases hend : it.2 = i
            · have hstarts := startsAt_end hsep hbefore hend
              simp only [hend, ↓reduceIte]
              cases hafter : ranges.upperBound i with
              | none => exact hput hstarts (after_none hafter)
              | some after =>
                  by_cases hlarge : after.1 > second
                  · simp only [hlarge, ↓reduceIte]
                    exact hput hstarts (after_large hafter hlarge)
                  · simp only [hlarge, ↓reduceIte]
                    exact hjoined hstarts hafter hlarge
            · simp only [hend, ↓reduceIte]
              obtain ⟨united, hrun, hunited, hall⟩ :=
                ih it.2 ranges hsep (by omega)
              refine ⟨united, hrun, hunited, fun x => (hall x).trans ?_⟩
              constructor
              · rintro (hcovers | ⟨hx, hxs⟩)
                · exact .inl hcovers
                · exact .inr ⟨by omega, hxs⟩
              · rintro (hcovers | ⟨hx, hxs⟩)
                · exact .inl hcovers
                · rcases Nat.lt_or_ge x it.2 with hinside | hoff
                  · exact .inl ⟨it.1, it.2, hit, by omega, hinside⟩
                  · exact .inr ⟨hoff, hxs⟩

/-- `gaps` adds what the ranges from `last` on leave. -/
theorem gaps_spec (second : Nat) (entries : List (Nat × Nat)) :
    ∀ (last : Nat) (ret : OrderedMap Nat Nat), Separated ret →
      (∀ {a b : Nat}, ret.lookup a = some b → b < last) → last ≤ second →
      entries.Pairwise (fun e e' => e.2 < e'.1) →
      (∀ e ∈ entries, last ≤ e.1 ∧ e.1 < e.2 ∧ e.2 ≤ second) →
      Separated (gaps second entries last ret) ∧
        ∀ x, Covers (gaps second entries last ret) x ↔ Covers ret x ∨
          (last ≤ x ∧ x < second ∧ ∀ e ∈ entries, ¬ (e.1 ≤ x ∧ x < e.2)) := by
  induction entries with
  | nil =>
      intro last ret hsep hends hlast _ _
      rw [gaps]
      by_cases hend : last = second
      · rw [if_neg (not_not.mpr hend)]
        refine ⟨hsep, fun x => ⟨.inl, ?_⟩⟩
        rintro (hcovers | ⟨hle, hlt, -⟩)
        · exact hcovers
        · omega
      · rw [if_pos hend]
        constructor
        · exact hsep.insert (by omega) fun hxy => .inr (.inl (hends hxy))
        · intro x
          rw [covers_insert fun hy => by
            have hless := hends hy
            omega]
          simp
  | cons e entries ih =>
      intro last ret hsep hends hlast hpairs hbounds
      obtain ⟨hle, hlt, hsecond⟩ := hbounds e List.mem_cons_self
      obtain ⟨hhead, htail⟩ := List.pairwise_cons.mp hpairs
      rw [gaps]
      have hret : Separated (if e.1 ≠ last then ret.insert last e.1 else ret) ∧
          (∀ {a b : Nat}, (if e.1 ≠ last then ret.insert last e.1
            else ret).lookup a = some b → b < e.2) ∧
          ∀ x, Covers (if e.1 ≠ last then ret.insert last e.1 else ret) x ↔
            Covers ret x ∨ (last ≤ x ∧ x < e.1) := by
        by_cases hfirst : e.1 = last
        · rw [if_neg (not_not.mpr hfirst)]
          refine ⟨hsep, fun hab => ?_, fun x => ⟨.inl, ?_⟩⟩
          · have hless := hends hab
            omega
          · rintro (hcovers | ⟨hx, hx'⟩)
            · exact hcovers
            · omega
        · rw [if_pos hfirst]
          refine ⟨?_, fun {a b} hab => ?_, fun x => ?_⟩
          · exact hsep.insert (by omega) fun hxy => .inr (.inl (hends hxy))
          · rw [OrderedMap.lookup_insert] at hab
            split at hab
            · rw [Option.some.injEq] at hab
              omega
            · have hless := hends hab
              omega
          · rw [covers_insert fun hy => by
              have hless := hends hy
              omega]
      obtain ⟨hsep', hends', hcovers'⟩ := hret
      obtain ⟨hgaps, hall⟩ := ih e.2 _ hsep' hends' hsecond htail fun e' he' =>
        ⟨(hhead e' he').le, (hbounds e' (List.mem_cons_of_mem e he')).2⟩
      refine ⟨hgaps, fun x => (hall x).trans ?_⟩
      rw [hcovers' x]
      simp only [List.forall_mem_cons]
      constructor
      · rintro ((hcovers | ⟨hx, hx'⟩) | ⟨hx, hx', hnone⟩)
        · exact .inl hcovers
        · refine .inr ⟨hx, by omega, by omega, fun e' he' => ?_⟩
          have hless := hhead e' he'
          omega
        · exact .inr ⟨by omega, hx', by omega, hnone⟩
      · rintro (hcovers | ⟨hx, hx', hnot, hnone⟩)
        · exact .inl (.inl hcovers)
        · rcases Nat.lt_or_ge x e.1 with hleft | hright
          · exact .inl (.inr ⟨hx, hleft⟩)
          · exact .inr ⟨by omega, hx', hnone⟩

/-- The ranges of a map as a list. -/
theorem Separated.pairwise (h : Separated ranges) :
    ranges.entries.Pairwise fun e e' => e.2 < e'.1 := by
  refine ranges.ordered.imp_of_mem fun {e e'} he he' hlt => ?_
  exact h.apart (OrderedMap.lookup_eq_some_iff.mpr he)
    (OrderedMap.lookup_eq_some_iff.mpr he') hlt

theorem covers_iff_mem :
    Covers ranges x ↔ ∃ e ∈ ranges.entries, e.1 ≤ x ∧ x < e.2 := by
  constructor
  · rintro ⟨a, b, hab, hx⟩
    exact ⟨(a, b), OrderedMap.lookup_eq_some_iff.mp hab, hx⟩
  · rintro ⟨⟨a, b⟩, he, hx⟩
    exact ⟨a, b, OrderedMap.lookup_eq_some_iff.mpr he, hx⟩

/-- An element is in the last range that does not begin after it. -/
theorem covers_iff_before (hsep : Separated ranges) :
    Covers ranges x ↔ ∃ it, ranges.beforeUpperBound x = some it ∧ x < it.2 := by
  constructor
  · rintro ⟨a, b, hab, hle, hlt⟩
    cases hbefore : ranges.beforeUpperBound x with
    | none =>
        have hlarge := OrderedMap.beforeUpperBound_eq_none hbefore hab
        omega
    | some it =>
        obtain ⟨hit, hitx, hmax⟩ := OrderedMap.beforeUpperBound_eq_some hbefore
        have hmax' := hmax hab hle
        refine ⟨it, rfl, ?_⟩
        rcases Nat.lt_or_ge a it.1 with hless | hge
        · have hgap := hsep.apart hab hit hless
          omega
        · have haeq : a = it.1 := Nat.le_antisymm hmax' hge
          rw [haeq, hit, Option.some.injEq] at hab
          omega
  · rintro ⟨it, hbefore, hlt⟩
    obtain ⟨hit, hitx, -⟩ := OrderedMap.beforeUpperBound_eq_some hbefore
    exact ⟨it.1, it.2, hit, hitx, hlt⟩

/-- The sizes of ranges that are apart add up to the number of elements. -/
theorem foldl_size (entries : List (Nat × Nat)) :
    ∀ (elements : Finset Nat) (n : Nat),
      entries.Pairwise (fun e e' => e.2 < e'.1) →
      (∀ e ∈ entries, e.1 < e.2) →
      (∀ x, x ∈ elements ↔ ∃ e ∈ entries, e.1 ≤ x ∧ x < e.2) →
      entries.foldl (fun c r => c + (r.2 - r.1)) n = n + elements.card := by
  induction entries with
  | nil =>
      intro elements n _ _ hmem
      have hnone : elements = ∅ := by
        ext x
        simp [hmem x]
      simp [hnone]
  | cons e entries ih =>
      intro elements n hpairs hpos hmem
      obtain ⟨hhead, htail⟩ := List.pairwise_cons.mp hpairs
      have hsub : Finset.Ico e.1 e.2 ⊆ elements := by
        intro x hx
        rw [Finset.mem_Ico] at hx
        exact (hmem x).mpr ⟨e, List.mem_cons_self, hx⟩
      have hrest := ih (elements \ Finset.Ico e.1 e.2) (n + (e.2 - e.1)) htail
        (fun e' he' => hpos e' (List.mem_cons_of_mem e he')) fun x => by
          rw [Finset.mem_sdiff, hmem x, Finset.mem_Ico, List.exists_mem_cons_iff]
          constructor
          · rintro ⟨hin | hin, hout⟩
            · exact absurd hin hout
            · exact hin
          · rintro ⟨e', he', hx⟩
            have hless := hhead e' he'
            exact ⟨.inr ⟨e', he', hx⟩, by omega⟩
      have hcard := Finset.card_sdiff_add_card_eq_card hsub
      rw [Nat.card_Ico] at hcard
      rw [List.foldl_cons, hrest]
      omega

end RangeMask

/-- A set of elements of a ground range. -/
structure GroundSet where
  first : Nat
  second : Nat
  elements : Finset Nat

namespace GroundSet

def unionRange (s : GroundSet) (a b : Nat) : GroundSet :=
  { s with elements := s.elements ∪ Finset.Ico a b }

/-- The union, of the ground ranges, too. -/
def union (s other : GroundSet) : GroundSet where
  first := min other.first s.first
  second := max other.second s.second
  elements := s.elements ∪ other.elements

/-- The complement in the ground range. -/
def compl (s : GroundSet) : GroundSet :=
  { s with elements := Finset.Ico s.first s.second \ s.elements }

def clear (s : GroundSet) : GroundSet := { s with elements := ∅ }

end GroundSet

namespace RangeMask

/-- A mask stands for a set: its ranges are apart, inside the ground range, and
cover the elements. -/
structure Represents (m : RangeMask) (s : GroundSet) : Prop where
  all : m.all = (s.first, s.second)
  ordered : s.first ≤ s.second
  bounded : s.second < 2 ^ 32
  separated : Separated m.ranges
  covers : ∀ x, Covers m.ranges x ↔ x ∈ s.elements
  inside : ∀ x ∈ s.elements, s.first ≤ x ∧ x < s.second

variable {m other : RangeMask} {s t : GroundSet} {a b i x : Nat}

/-- A range is a part of the ground range that is not empty. -/
theorem Represents.bounds (h : m.Represents s)
    (hab : m.ranges.lookup a = some b) :
    s.first ≤ a ∧ a < b ∧ b ≤ s.second := by
  have hlt := h.separated.nonempty hab
  have hfirst := h.inside a ((h.covers a).mp ⟨a, b, hab, le_rfl, hlt⟩)
  have hlast := h.inside (b - 1)
    ((h.covers (b - 1)).mp ⟨a, b, hab, by omega, by omega⟩)
  omega

/-- The constructor. -/
theorem Represents.of_bounds (hle : a ≤ b) (hb : b < 2 ^ 32) :
    Represents { all := (a, b) } ⟨a, b, ∅⟩ := by
  refine ⟨rfl, hle, hb, .empty, fun x => ?_, fun x hx => ?_⟩
  · simp [not_covers_empty]
  · simp at hx

theorem Represents.clear (h : m.Represents s) : m.clear.Represents s.clear := by
  refine ⟨h.all, h.ordered, h.bounded, .empty, fun x => ?_, fun x hx => ?_⟩
  · simp [GroundSet.clear, RangeMask.clear, not_covers_empty]
  · simp [GroundSet.clear] at hx

/-- A range of the ground range is included. -/
theorem Represents.exists_unionRange (h : m.Represents s)
    (hinside : a < b → s.first ≤ a ∧ b ≤ s.second) :
    ∃ m', m.unionRange (a, b) = .ok m' ∧
      m'.Represents (s.unionRange a b) := by
  obtain ⟨united, hrun, hsep, hcovers⟩ :=
    exists_uniteFrom b (b - a + 1) a m.ranges h.separated (by omega)
  refine ⟨{ m with ranges := united }, ?_, ?_⟩
  · simp only [unionRange, hrun, ok_bind]
  · refine ⟨h.all, h.ordered, h.bounded, hsep, fun x => ?_, fun x hx => ?_⟩
    · simp only [hcovers x, h.covers x, GroundSet.unionRange, Finset.mem_union,
        Finset.mem_Ico]
    · simp only [GroundSet.unionRange, Finset.mem_union, Finset.mem_Ico] at hx ⊢
      rcases hx with hold | ⟨hax, hxb⟩
      · exact h.inside x hold
      · have hbounds := hinside (by omega)
        omega

/-- An element of the ground range is included. -/
theorem Represents.exists_unionElement (h : m.Represents s)
    (hinside : s.first ≤ i ∧ i < s.second) :
    ∃ m', m.unionElement i = .ok m' ∧
      m'.Represents (s.unionRange i (i + 1)) := by
  have hbounded := h.bounded
  have hnext : (i + 1) % 2 ^ 32 = i + 1 := Nat.mod_eq_of_lt (by omega)
  rw [unionElement, hnext]
  exact h.exists_unionRange fun _ => by omega

/-- The complement. -/
theorem Represents.inverted (h : m.Represents s) :
    m.inverted.Represents s.compl := by
  have hmem : ∀ e ∈ m.ranges.entries, s.first ≤ e.1 ∧ e.1 < e.2 ∧
      e.2 ≤ s.second := fun e he =>
    h.bounds (OrderedMap.lookup_eq_some_iff.mpr he)
  have hnone : ∀ {a b : Nat}, ({} : OrderedMap Nat Nat).lookup a = some b →
      b < s.first := by
    intro a b hab
    cases hab
  obtain ⟨hsep, hcovers⟩ := gaps_spec s.second m.ranges.entries s.first {}
    .empty hnone h.ordered h.separated.pairwise hmem
  have hranges : m.inverted.ranges =
      gaps s.second m.ranges.entries s.first {} := by
    simp only [RangeMask.inverted, h.all]
  refine ⟨h.all, h.ordered, h.bounded, ?_, fun x => ?_, fun x hx => ?_⟩
  · rw [hranges]
    exact hsep
  · have hx := (h.covers x).symm.trans covers_iff_mem
    rw [hranges, hcovers x]
    simp only [not_covers_empty, false_or, GroundSet.compl, Finset.mem_sdiff,
      Finset.mem_Ico, hx, not_exists, not_and]
    rw [and_assoc]
  · simp only [GroundSet.compl, Finset.mem_sdiff, Finset.mem_Ico] at hx ⊢
    exact hx.1

/-- Ranges of the ground range are included one after the other. -/
theorem Represents.exists_foldlM (entries : List (Nat × Nat)) :
    ∀ {m : RangeMask} {s : GroundSet}, m.Represents s →
      (∀ e ∈ entries, s.first ≤ e.1 ∧ e.2 ≤ s.second) →
      ∃ m' u, entries.foldlM unionRange m = .ok m' ∧ m'.Represents u ∧
        u.first = s.first ∧ u.second = s.second ∧
        ∀ x, x ∈ u.elements ↔
          x ∈ s.elements ∨ ∃ e ∈ entries, e.1 ≤ x ∧ x < e.2 := by
  induction entries with
  | nil =>
      intro m s h _
      exact ⟨m, s, rfl, h, rfl, rfl, by simp⟩
  | cons e entries ih =>
      intro m s h hinside
      obtain ⟨m', hrun, h'⟩ := h.exists_unionRange
        fun _ => hinside e List.mem_cons_self
      obtain ⟨m'', u, hrest, hu, hfirst, hsecond, helements⟩ := ih h'
        fun e' he' => hinside e' (List.mem_cons_of_mem e he')
      refine ⟨m'', u, ?_, hu, hfirst, hsecond, fun x => ?_⟩
      · rw [List.foldlM_cons, hrun]
        exact hrest
      · rw [helements x]
        simp only [GroundSet.unionRange, Finset.mem_union, Finset.mem_Ico,
          List.exists_mem_cons_iff, or_assoc]

/-- The union with a mask. -/
theorem Represents.exists_unionWith (h : m.Represents s)
    (hother : other.Represents t) :
    ∃ m', m.unionWith other = .ok m' ∧ m'.Represents (s.union t) := by
  have hordered := h.ordered
  have hbounded := h.bounded
  have hbounded' := hother.bounded
  have hwide : Represents
      { m with all := (min other.all.1 m.all.1, max other.all.2 m.all.2) }
      ⟨min t.first s.first, max t.second s.second, s.elements⟩ := by
    refine ⟨?_, by simp only; omega, by simp only; omega, h.separated, h.covers,
      fun x hx => ?_⟩
    · rw [h.all, hother.all]
    · have hx' := h.inside x hx
      simp only
      omega
  obtain ⟨m', u, hrun, hu, hfirst, hsecond, helements⟩ := hwide.exists_foldlM
    other.ranges.entries fun e he => by
      have hbounds := hother.bounds (OrderedMap.lookup_eq_some_iff.mpr he)
      simp only
      omega
  have heq : u = s.union t := by
    obtain ⟨first, second, elements⟩ := u
    simp only at hfirst hsecond helements
    subst hfirst hsecond
    rw [GroundSet.union, GroundSet.mk.injEq]
    refine ⟨rfl, rfl, Finset.ext fun x => ?_⟩
    rw [helements x, Finset.mem_union, ← hother.covers x, covers_iff_mem]
  exact ⟨m', hrun, heq ▸ hu⟩

section Observers

variable (h : m.Represents s)

include h

theorem Represents.contains_iff (i : Nat) :
    m.contains i = true ↔ i ∈ s.elements := by
  rw [← h.covers i, covers_iff_before h.separated, contains]
  cases m.ranges.beforeUpperBound i with
  | none => simp
  | some it => simp

theorem Represents.empty_iff : m.empty = true ↔ s.elements = ∅ := by
  rw [empty, List.isEmpty_iff, Finset.eq_empty_iff_forall_notMem]
  constructor
  · intro hnil x hx
    obtain ⟨e, he, -⟩ := covers_iff_mem.mp ((h.covers x).mpr hx)
    rw [hnil] at he
    cases he
  · intro hnone
    rw [List.eq_nil_iff_forall_not_mem]
    intro e he
    have hlt := (h.bounds (OrderedMap.lookup_eq_some_iff.mpr he)).2.1
    exact hnone e.1 ((h.covers e.1).mp (covers_iff_mem.mpr ⟨e, he, le_rfl, hlt⟩))

theorem Represents.full_iff :
    m.full = true ↔ s.elements = Finset.Ico s.first s.second := by
  have hordered := h.ordered
  have hsub : s.elements = Finset.Ico s.first s.second ↔
      ∀ x, s.first ≤ x → x < s.second → x ∈ s.elements := by
    rw [Finset.ext_iff]
    simp only [Finset.mem_Ico]
    constructor
    · intro hall x hx hx'
      exact (hall x).mpr ⟨hx, hx'⟩
    · intro hall x
      exact ⟨h.inside x, fun hx => hall x hx.1 hx.2⟩
  rw [hsub, full, Bool.or_eq_true, decide_eq_true_eq, h.all]
  constructor
  · rintro (hnone | hone)
    · intro x hx hx'
      simp only at hnone
      omega
    · intro x hx hx'
      split at hone
      · next range hentries =>
          simp only [Bool.and_eq_true, decide_eq_true_eq] at hone
          rw [← h.covers x, covers_iff_mem]
          exact ⟨range, by simp [hentries], by omega, by omega⟩
      · cases hone
  · intro hall
    by_cases hnone : s.first = s.second
    · exact .inl hnone
    · right
      -- The range of the first element reaches up to the end, so it is the
      -- only one.
      obtain ⟨a, b, hab, hle, hlt⟩ :=
        (h.covers s.first).mpr (hall s.first le_rfl (by omega))
      have hbounds := h.bounds hab
      have hlast : b = s.second := by
        by_contra hshort
        exact h.separated.not_covers_end hab
          ((h.covers b).mpr (hall b (by omega) (by omega)))
      have hsingle : m.ranges.entries = [(a, b)] := by
        refine OrderedMap.entries_eq_singleton
          (OrderedMap.lookup_eq_some_iff.mp hab) fun e he => ?_
        have hlookup := OrderedMap.lookup_eq_some_iff.mpr he
        have hbounds' := h.bounds hlookup
        have hkey : e.1 = a := by
          by_contra hne
          have hgap := h.separated.apart hab hlookup (by omega)
          omega
        rw [hkey, hab, Option.some.injEq] at hlookup
        exact Prod.ext hkey hlookup.symm
      rw [hsingle]
      simp only [Bool.and_eq_true, decide_eq_true_eq]
      omega

theorem Represents.size_eq : m.size = s.elements.card := by
  have hsize := foldl_size m.ranges.entries s.elements 0 h.separated.pairwise
    (fun e he => (h.bounds (OrderedMap.lookup_eq_some_iff.mpr he)).2.1)
    fun x => (h.covers x).symm.trans covers_iff_mem
  rw [size, hsize, Nat.zero_add]

/-- The first element of the ground range that is not in the set, or its
end. -/
theorem Represents.isLeast_firstOut :
    IsLeast {x | s.first ≤ x ∧ x ∉ s.elements} m.firstOut := by
  rw [firstOut, h.all]
  cases hfirst : m.ranges.lookup s.first with
  | none =>
      refine ⟨⟨le_rfl, fun hmem => ?_⟩, fun x hx => hx.1⟩
      obtain ⟨a, b, hab, hle, hlt⟩ := (h.covers s.first).mpr hmem
      have hbounds := h.bounds hab
      rw [show a = s.first by omega, hfirst] at hab
      cases hab
  | some b =>
      have hbounds := h.bounds hfirst
      refine ⟨⟨hbounds.2.1.le, fun hmem => ?_⟩, fun x hx => ?_⟩
      · exact h.separated.not_covers_end hfirst ((h.covers b).mpr hmem)
      · by_contra hless
        exact hx.2 ((h.covers x).mp ⟨s.first, b, hfirst, hx.1,
          Nat.not_le.mp hless⟩)

/-- The last element. -/
theorem Represents.isGreatest_lastIn (hne : s.elements.Nonempty) :
    IsGreatest {x | x ∈ s.elements} m.lastIn := by
  obtain ⟨x, hx⟩ := hne
  obtain ⟨e, he, -⟩ := covers_iff_mem.mp ((h.covers x).mpr hx)
  have hbounded := h.bounded
  rw [lastIn]
  cases hlast : m.ranges.entries.getLast? with
  | none =>
      rw [List.getLast?_eq_none_iff] at hlast
      rw [hlast] at he
      cases he
  | some range =>
      obtain ⟨before, hentries⟩ := List.getLast?_eq_some_iff.mp hlast
      have hmem : range ∈ m.ranges.entries := by simp [hentries]
      have hbounds := h.bounds (OrderedMap.lookup_eq_some_iff.mpr hmem)
      have hvalue : (range.2 + (2 ^ 32 - 1)) % 2 ^ 32 = range.2 - 1 := by omega
      simp only [hvalue]
      constructor
      · exact (h.covers _).mp (covers_iff_mem.mpr ⟨range, hmem, by omega,
          by omega⟩)
      · intro x hx
        obtain ⟨e, he, hle, hlt⟩ := covers_iff_mem.mp ((h.covers x).mpr hx)
        have hpairs := h.separated.pairwise
        rw [hentries] at he hpairs
        rcases List.mem_append.mp he with hfront | hback
        · have hgap := (List.pairwise_append.mp hpairs).2.2 e hfront range
            (by simp)
          omega
        · rw [List.mem_singleton.mp hback] at hlt
          omega

/-- The smallest element larger than `t`, or the end of the ground range: the
code tells it for every `t` that has a successor. -/
theorem Represents.isLeast_next {t : Nat} (ht : t + 1 < 2 ^ 32) :
    IsLeast ({x | x ∈ s.elements ∧ t < x} ∪ {s.second}) (m.next t) := by
  rw [next, Nat.mod_eq_of_lt ht, h.all]
  have hhit := @covers_iff_before m.ranges (t + 1) h.separated
  cases hbefore : (m.ranges.beforeUpperBound (t + 1)).filter
      fun it => t + 1 < it.2 with
  | some it =>
      obtain ⟨hit, hlt⟩ := Option.filter_eq_some_iff.mp hbefore
      have hmem := (h.covers (t + 1)).mp (hhit.mpr ⟨it, hit, by simpa using hlt⟩)
      have hinside := h.inside (t + 1) hmem
      constructor
      · exact .inl ⟨hmem, Nat.lt_succ_self t⟩
      · rintro x (⟨-, hx⟩ | hx)
        · exact hx
        · rw [Set.mem_singleton_iff.mp hx]
          exact hinside.2.le
  | none =>
      have hmiss : ¬ Covers m.ranges (t + 1) := by
        rw [hhit]
        rintro ⟨it, hit, hlt⟩
        simp [hit] at hbefore
        omega
      -- The range of a larger element begins after `t + 1`.
      have hlater : ∀ {x : Nat}, x ∈ s.elements → t < x →
          ∃ a b, m.ranges.lookup a = some b ∧ t + 1 < a ∧ a ≤ x := by
        intro x hx htx
        obtain ⟨a, b, hab, hle, hlt⟩ := (h.covers x).mpr hx
        refine ⟨a, b, hab, ?_, hle⟩
        by_contra hless
        exact hmiss ⟨a, b, hab, by omega, by omega⟩
      cases hafter : m.ranges.upperBound (t + 1) with
      | none =>
          constructor
          · exact .inr rfl
          · rintro x (⟨hx, htx⟩ | hx)
            · obtain ⟨a, b, hab, hlt, -⟩ := hlater hx htx
              have hle := OrderedMap.upperBound_eq_none hafter hab
              omega
            · exact (Set.mem_singleton_iff.mp hx).ge
      | some after =>
          obtain ⟨hlookup, hlt, hmin⟩ := OrderedMap.upperBound_eq_some hafter
          have hbounds := h.bounds hlookup
          constructor
          · exact .inl ⟨(h.covers _).mp ⟨_, _, hlookup, le_rfl, hbounds.2.1⟩,
              (Nat.lt_succ_self t).trans hlt⟩
          · rintro x (⟨hx, htx⟩ | hx)
            · obtain ⟨a, b, hab, hlt', hle⟩ := hlater hx htx
              exact (hmin hab hlt').trans hle
            · rw [Set.mem_singleton_iff.mp hx]
              exact hbounds.2.1.le.trans hbounds.2.2

/-- From the largest number on, the code begins again at zero. -/
theorem Represents.next_max (hne : s.elements.Nonempty) :
    m.next (2 ^ 32 - 1) ∈ s.elements := by
  have hwrap : (2 ^ 32 - 1 + 1) % 2 ^ 32 = 0 := by decide
  rw [next, hwrap]
  have hhit := @covers_iff_before m.ranges 0 h.separated
  cases hbefore : (m.ranges.beforeUpperBound 0).filter fun it => 0 < it.2 with
  | some it =>
      obtain ⟨hit, hlt⟩ := Option.filter_eq_some_iff.mp hbefore
      exact (h.covers 0).mp (hhit.mpr ⟨it, hit, by simpa using hlt⟩)
  | none =>
      cases hafter : m.ranges.upperBound 0 with
      | none =>
          obtain ⟨x, hx⟩ := hne
          obtain ⟨a, b, hab, hle, hlt⟩ := (h.covers x).mpr hx
          have hzero : a = 0 :=
            Nat.le_zero.mp (OrderedMap.upperBound_eq_none hafter hab)
          have hcovers : Covers m.ranges 0 := ⟨a, b, hab, by omega, by omega⟩
          obtain ⟨it, hit, hlt'⟩ := hhit.mp hcovers
          simp [hit] at hbefore
          omega
      | some after =>
          obtain ⟨hlookup, -, -⟩ := OrderedMap.upperBound_eq_some hafter
          exact (h.covers _).mp ⟨_, _, hlookup, le_rfl, (h.bounds hlookup).2.1⟩

/-- An iteration goes through the elements in order, each once, and ends. -/
theorem Represents.exists_iterate (fuel : Nat) :
    ∀ v, s.second - v < fuel → v ∈ s.elements ∨ v = s.second →
      ∃ elements, m.iterate fuel v = .ok elements ∧
        elements.Pairwise (· < ·) ∧
        ∀ x, x ∈ elements ↔ x ∈ s.elements ∧ v ≤ x := by
  induction fuel with
  | zero =>
      intro v hv
      omega
  | succ fuel ih =>
      intro v hfuel hv
      rw [iterate, h.all]
      by_cases hend : v = s.second
      · rw [if_pos hend]
        refine ⟨[], rfl, .nil, fun x => ?_⟩
        simp only [List.not_mem_nil, false_iff, not_and]
        intro hx hle
        have hinside := h.inside x hx
        omega
      · rw [if_neg hend]
        have hmem : v ∈ s.elements := hv.resolve_right hend
        have hinside := h.inside v hmem
        have hbounded := h.bounded
        obtain ⟨hnext, hleast⟩ := h.isLeast_next (t := v) (by omega)
        have hlt : v < m.next v := by
          rcases hnext with ⟨-, hlt⟩ | hsecond
          · exact hlt
          · rw [Set.mem_singleton_iff.mp hsecond]
            exact hinside.2
        obtain ⟨rest, hrest, hpairs, helements⟩ := ih (m.next v) (by omega)
          (hnext.imp (·.1) Set.mem_singleton_iff.mp)
        refine ⟨v :: rest, by rw [hrest, ok_bind], ?_, fun x => ?_⟩
        · rw [List.pairwise_cons]
          refine ⟨fun x hx => ?_, hpairs⟩
          exact hlt.trans_le ((helements x).mp hx).2
        · rw [List.mem_cons, helements x]
          constructor
          · rintro (rfl | ⟨hx, hle⟩)
            · exact ⟨hmem, le_rfl⟩
            · exact ⟨hx, by omega⟩
          · rintro ⟨hx, hle⟩
            rcases Nat.eq_or_lt_of_le hle with heq | hless
            · exact .inl heq.symm
            · exact .inr ⟨hx, hleast (.inl ⟨hx, hless⟩)⟩

theorem Represents.exists_toList :
    ∃ elements, m.toList = .ok elements ∧ elements.Pairwise (· < ·) ∧
      ∀ x, x ∈ elements ↔ x ∈ s.elements := by
  have hbegin : (m.begin ∈ s.elements ∨ m.begin = s.second) ∧
      ∀ x ∈ s.elements, m.begin ≤ x := by
    rw [begin, h.all]
    cases hentries : m.ranges.entries with
    | nil =>
        refine ⟨.inr rfl, fun x hx => ?_⟩
        obtain ⟨e, he, -⟩ := covers_iff_mem.mp ((h.covers x).mpr hx)
        rw [hentries] at he
        cases he
    | cons e rest =>
        have hmem : e ∈ m.ranges.entries := by simp [hentries]
        have hbounds := h.bounds (OrderedMap.lookup_eq_some_iff.mpr hmem)
        refine ⟨.inl ((h.covers e.1).mp (covers_iff_mem.mpr
          ⟨e, hmem, le_rfl, hbounds.2.1⟩)), fun x hx => ?_⟩
        obtain ⟨e', he', hle, -⟩ := covers_iff_mem.mp ((h.covers x).mpr hx)
        have hordered := m.ranges.ordered
        rw [hentries] at he' hordered
        rcases List.mem_cons.mp he' with rfl | hlater
        · exact hle
        · exact ((List.pairwise_cons.mp hordered).1 e' hlater).le.trans hle
  obtain ⟨elements, hrun, hpairs, hmem⟩ := h.exists_iterate
    (m.all.2 - m.begin + 1) m.begin (by rw [h.all]; omega) hbegin.1
  refine ⟨elements, hrun, hpairs, fun x => (hmem x).trans ?_⟩
  exact ⟨fun hx => hx.1, fun hx => ⟨hx, hbegin.2 x hx⟩⟩

end Observers

/-- A mask is the set `s`: the ranges are as they are to be, and what it tells
of its elements, of those after `t` for `next`, is right. -/
structure Agrees (m : RangeMask) (s : GroundSet) (t : Nat) : Prop where
  all : m.all = (s.first, s.second)
  separated : Separated m.ranges
  inside : ∀ a b, m.ranges.lookup a = some b → s.first ≤ a ∧ b ≤ s.second
  covers : ∀ x, Covers m.ranges x ↔ x ∈ s.elements
  contains : ∀ i, m.contains i = true ↔ i ∈ s.elements
  empty : m.empty = true ↔ s.elements = ∅
  full : m.full = true ↔ s.elements = Finset.Ico s.first s.second
  size : m.size = s.elements.card
  firstOut : IsLeast {x | s.first ≤ x ∧ x ∉ s.elements} m.firstOut
  lastIn : s.elements.Nonempty → IsGreatest {x | x ∈ s.elements} m.lastIn
  next : IsLeast ({x | x ∈ s.elements ∧ t < x} ∪ {s.second}) (m.next t)
  toList : ∃ elements, m.toList = .ok elements ∧
    elements.Pairwise (· < ·) ∧ ∀ x, x ∈ elements ↔ x ∈ s.elements

/-- A mask that stands for a set is that set, but for `next` of the largest
number. -/
theorem Represents.agreesAt_iff (h : m.Represents s) {t : Nat} (ht : t < 2 ^ 32) :
    m.Agrees s t ↔ t + 1 < 2 ^ 32 ∨ s.elements = ∅ := by
  have hbounded := h.bounded
  have hagrees : IsLeast ({x | x ∈ s.elements ∧ t < x} ∪ {s.second})
      (m.next t) → m.Agrees s t := fun hnext =>
    { all := h.all
      separated := h.separated
      inside := fun a b hab => ⟨(h.bounds hab).1, (h.bounds hab).2.2⟩
      covers := h.covers
      contains := h.contains_iff
      empty := h.empty_iff
      full := h.full_iff
      size := h.size_eq
      firstOut := h.isLeast_firstOut
      lastIn := h.isGreatest_lastIn
      next := hnext
      toList := h.exists_toList }
  by_cases hlast : t + 1 < 2 ^ 32
  · exact iff_of_true (hagrees (h.isLeast_next hlast)) (.inl hlast)
  · have hmax : t = 2 ^ 32 - 1 := by omega
    by_cases hnone : s.elements = ∅
    · refine iff_of_true (hagrees ?_) (.inr hnone)
      have hentries := List.isEmpty_iff.mp (h.empty_iff.mpr hnone)
      have hnext : m.next t = s.second := by
        simp [RangeMask.next, OrderedMap.upperBound,
          OrderedMap.beforeUpperBound, hentries, h.all]
      simp [hnext, hnone]
    · have hne := Finset.nonempty_iff_ne_empty.mpr hnone
      refine iff_of_false (fun hall => ?_) (fun hor => hor.elim hlast hnone)
      have hmem := h.next_max hne
      rw [← hmax] at hmem
      have hinside := h.inside _ hmem
      rcases hall.next.1 with ⟨-, hlt⟩ | hsecond
      · omega
      · rw [Set.mem_singleton_iff] at hsecond
        omega

end RangeMask

/-- How a mask is made: by a constructor, and by operations on it. -/
inductive MaskTerm where
  | bounds (first second : Nat)
  | unionRange (e : MaskTerm) (first second : Nat)
  | unionElement (e : MaskTerm) (i : Nat)
  | unionWith (e other : MaskTerm)
  | invert (e : MaskTerm)
  | clear (e : MaskTerm)

namespace MaskTerm

/-- The mask that is made. -/
def mask : MaskTerm → Except Exception RangeMask
  | bounds first second => .ok { all := (first, second) }
  | unionRange e first second => do
      let m ← e.mask
      m.unionRange (first, second)
  | unionElement e i => do
      let m ← e.mask
      m.unionElement i
  | unionWith e other => do
      let m ← e.mask
      let m' ← other.mask
      m.unionWith m'
  | invert e => do
      let m ← e.mask
      .ok m.inverted
  | clear e => do
      let m ← e.mask
      .ok m.clear

/-- The set that is meant. -/
def set : MaskTerm → GroundSet
  | bounds first second => ⟨first, second, ∅⟩
  | unionRange e first second => e.set.unionRange first second
  | unionElement e i => e.set.unionRange i (i + 1)
  | unionWith e other => e.set.union other.set
  | invert e => e.set.compl
  | clear e => e.set.clear

/-- The bounds are unsigned numbers in order, and what is included is inside
the ground range. -/
def Valid : MaskTerm → Prop
  | bounds first second => first ≤ second ∧ second < 2 ^ 32
  | unionRange e first second => e.Valid ∧
      (first < second → e.set.first ≤ first ∧ second ≤ e.set.second)
  | unionElement e i => e.Valid ∧ e.set.first ≤ i ∧ i < e.set.second
  | unionWith e other => e.Valid ∧ other.Valid
  | invert e => e.Valid
  | clear e => e.Valid

/-- The mask that is made stands for the set that is meant. -/
theorem exists_mask (e : MaskTerm) (hvalid : e.Valid) :
    ∃ m, e.mask = .ok m ∧ m.Represents e.set := by
  induction e with
  | bounds first second =>
      exact ⟨_, rfl, .of_bounds hvalid.1 hvalid.2⟩
  | unionRange e first second ih =>
      obtain ⟨m, hm, h⟩ := ih hvalid.1
      obtain ⟨m', hm', h'⟩ := h.exists_unionRange hvalid.2
      exact ⟨m', by rw [mask, hm, ok_bind, hm'], h'⟩
  | unionElement e i ih =>
      obtain ⟨m, hm, h⟩ := ih hvalid.1
      obtain ⟨m', hm', h'⟩ := h.exists_unionElement hvalid.2
      exact ⟨m', by rw [mask, hm, ok_bind, hm'], h'⟩
  | unionWith e other ih ih' =>
      obtain ⟨m, hm, h⟩ := ih hvalid.1
      obtain ⟨m', hm', h'⟩ := ih' hvalid.2
      obtain ⟨m'', hm'', h''⟩ := h.exists_unionWith h'
      exact ⟨m'', by rw [mask, hm, ok_bind, hm', ok_bind, hm''], h''⟩
  | invert e ih =>
      obtain ⟨m, hm, h⟩ := ih hvalid
      exact ⟨_, by rw [mask, hm, ok_bind], h.inverted⟩
  | clear e ih =>
      obtain ⟨m, hm, h⟩ := ih hvalid
      exact ⟨_, by rw [mask, hm, ok_bind], h.clear⟩

/-- Every mask that is made is the set that is meant, except that `next` of the
largest number is wrong if there are elements. -/
theorem agrees_iff (e : MaskTerm) (hvalid : e.Valid) (t : UInt32) :
    ∃ m, e.mask = .ok m ∧
      (m.Agrees e.set t.toNat ↔
        t.toNat + 1 < 2 ^ 32 ∨ e.set.elements = ∅) := by
  obtain ⟨m, hm, h⟩ := e.exists_mask hvalid
  exact ⟨m, hm, h.agreesAt_iff t.toNat_lt⟩

/-- Two ranges that touch, and the complement of what they make. -/
def touching : MaskTerm :=
  invert (unionRange (unionRange (bounds 2 20) 5 9) 9 12)

theorem agrees_iff_touching :
    touching.Valid ∧ ∃ m, touching.mask = .ok m ∧
      (m.Agrees touching.set (7 : UInt32).toNat ↔
        (7 : UInt32).toNat + 1 < 2 ^ 32 ∨ touching.set.elements = ∅) := by
  have hvalid : touching.Valid :=
    ⟨⟨⟨by decide, by decide⟩, fun _ => by decide⟩, fun _ => by decide⟩
  exact ⟨hvalid, touching.agrees_iff hvalid 7⟩

/-- Of the mask with the one element 3, `next` of the largest number is 3 and
not the end. -/
theorem next_wraps :
    ∃ m, (unionElement (bounds 0 10) 3).mask = .ok m ∧
      m.next (2 ^ 32 - 1) = 3 ∧
      ¬ m.Agrees (unionElement (bounds 0 10) 3).set (2 ^ 32 - 1) := by
  refine ⟨_, rfl, rfl, fun h => ?_⟩
  rcases h.next.1 with ⟨-, hlt⟩ | hsecond
  · exact absurd hlt (by decide)
  · exact absurd hsecond (by decide)

end MaskTerm

end Web3Core
