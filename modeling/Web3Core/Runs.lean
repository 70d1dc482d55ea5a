/-
Runs of a state machine.  What every step keeps holds along the run; and if a
bad step spoils what a good one keeps, then a property holds in every state of
the run exactly if every step is a good one.
-/
import Mathlib.Data.List.Induction
import Mathlib.Tactic.ByContra

namespace Web3Core

variable {σ ε : Type}

/-- What every step keeps holds after a run. -/
theorem foldl_invariant {step : σ → ε → σ} {P : σ → Prop}
    (hstep : ∀ s e, P s → P (step s e)) (events : List ε) :
    ∀ s, P s → P (events.foldl step s) := by
  induction events with
  | nil =>
      intro s hs
      exact hs
  | cons e events ih =>
      intro s hs
      exact ih (step s e) (hstep s e hs)

/-- A property holds of every outcome along a run exactly if every step is good,
where good steps keep an invariant that gives the property, or end the run with
it, and bad steps break the property. -/
theorem foldlM_outcome_iff {δ : Type} {step : σ → ε → Except δ σ}
    {P : σ → Prop} {Q : Except δ σ → Prop} {Good : σ → ε → Prop}
    (hproperty : ∀ s, P s → Q (.ok s))
    (hgood : ∀ s e, P s → Good s e →
      Q (step s e) ∧ ∀ t, step s e = .ok t → P t)
    (hbad : ∀ s e, P s → ¬ Good s e → ¬ Q (step s e)) (events : List ε) :
    ∀ s, P s →
      ((∀ before, before <+: events → Q (before.foldlM step s)) ↔
        ∀ before e t, before ++ [e] <+: events →
          before.foldlM step s = .ok t → Good t e) := by
  induction events with
  | nil =>
      intro s hs
      constructor
      · intro _ before e t hbefore
        simp at hbefore
      · intro _ before hbefore
        rw [List.prefix_nil.mp hbefore]
        exact hproperty s hs
  | cons first events ih =>
      intro s hs
      constructor
      · intro hall
        have hfirst : Good s first := by
          by_contra hnot
          have hone := hall [first] (by simp)
          rw [List.foldlM_cons] at hone
          exact hbad s first hs hnot (by simpa using hone)
        intro before e t hbefore hrun
        cases before with
        | nil =>
            obtain ⟨rfl, -⟩ := List.cons_prefix_cons.mp hbefore
            cases hrun
            exact hfirst
        | cons e' before =>
            obtain ⟨rfl, htail⟩ := List.cons_prefix_cons.mp hbefore
            rw [List.foldlM_cons] at hrun
            cases hstep : step s e' with
            | error d =>
                rw [hstep] at hrun
                cases hrun
            | ok u =>
                rw [hstep] at hrun
                refine (ih u ((hgood s e' hs hfirst).2 u hstep)).mp ?_ before e
                  t htail hrun
                intro before hbefore
                have hlonger := hall (e' :: before)
                  (List.cons_prefix_cons.mpr ⟨rfl, hbefore⟩)
                rwa [List.foldlM_cons, hstep] at hlonger
      · intro hall before hbefore
        cases before with
        | nil => exact hproperty s hs
        | cons e' before =>
            obtain ⟨rfl, htail⟩ := List.cons_prefix_cons.mp hbefore
            have hfirst : Good s e' := hall [] e' s (by simp) rfl
            obtain ⟨hone, hkept⟩ := hgood s e' hs hfirst
            rw [List.foldlM_cons]
            cases hstep : step s e' with
            | error d =>
                rw [hstep] at hone
                exact hone
            | ok u =>
                refine (ih u (hkept u hstep)).mpr ?_ before htail
                intro before e t hbefore hrun
                refine hall (e' :: before) e t
                  (List.cons_prefix_cons.mpr ⟨rfl, hbefore⟩) ?_
                rw [List.foldlM_cons, hstep]
                exact hrun

/-- A property holds in every state of a run exactly if every step is good,
where good steps keep an invariant that gives the property and bad steps break
the property. -/
theorem foldl_along_iff {step : σ → ε → σ} {P Q : σ → Prop}
    {Good : σ → ε → Prop} (hproperty : ∀ s, P s → Q s)
    (hgood : ∀ s e, P s → Good s e → P (step s e))
    (hbad : ∀ s e, P s → ¬ Good s e → ¬ Q (step s e)) (events : List ε) (s : σ)
    (hs : P s) :
    (∀ before, before <+: events → Q (before.foldl step s)) ↔
      ∀ before e, before ++ [e] <+: events → Good (before.foldl step s) e := by
  have hrun : ∀ before : List ε,
      before.foldlM (fun s e => (.ok (step s e) : Except Empty σ)) s =
        .ok (before.foldl step s) := fun before => List.foldlM_pure
  have hiff := @foldlM_outcome_iff σ ε Empty (fun s e => .ok (step s e)) P
    (fun r => ∃ t, r = .ok t ∧ Q t) Good
    (fun t ht => ⟨t, rfl, hproperty t ht⟩)
    (fun t e ht he => ⟨⟨_, rfl, hproperty _ (hgood t e ht he)⟩,
      fun u hu => Except.ok.inj hu ▸ hgood t e ht he⟩)
    (fun t e ht hnot ⟨u, hu, hQ⟩ => hbad t e ht hnot (Except.ok.inj hu ▸ hQ))
    events s hs
  simp only [hrun, Except.ok.injEq, exists_eq_left'] at hiff
  refine hiff.trans ⟨fun h before e hbefore => h before e _ hbefore rfl, ?_⟩
  rintro h before e _ hbefore rfl
  exact h before e hbefore

/-- The same for steps that may fail: no step of the run fails and the property
holds in every state exactly if every step is good. -/
theorem foldlM_along_iff {δ : Type} {step : σ → ε → Except δ σ}
    {P Q : σ → Prop} {Good : σ → ε → Prop} (hproperty : ∀ s, P s → Q s)
    (hgood : ∀ s e, P s → Good s e → ∃ t, step s e = .ok t ∧ P t)
    (hbad : ∀ s e t, P s → ¬ Good s e → step s e = .ok t → ¬ Q t)
    (events : List ε) :
    ∀ s, P s →
      ((∀ before, before <+: events →
          ∃ t, before.foldlM step s = .ok t ∧ Q t) ↔
        ∀ before e t, before ++ [e] <+: events →
          before.foldlM step s = .ok t → Good t e) := by
  refine foldlM_outcome_iff (Q := fun r => ∃ t, r = .ok t ∧ Q t)
    (fun s hs => ⟨s, rfl, hproperty s hs⟩) (fun s e hs he => ?_)
    (fun s e hs hnot ⟨t, ht, hQ⟩ => hbad s e t hs hnot ht hQ) events
  obtain ⟨t, hstep, ht⟩ := hgood s e hs he
  refine ⟨⟨t, hstep, hproperty t ht⟩, fun u hu => ?_⟩
  obtain rfl := Except.ok.inj (hstep.symm.trans hu)
  exact ht

/-- The same where a run may end early: a property holds in every state that is
reached exactly if every step from such a state is a good one. -/
theorem foldlM_ok_along_iff {δ : Type} {step : σ → ε → Except δ σ}
    {P Q : σ → Prop} {Good : σ → ε → Prop} (hproperty : ∀ s, P s → Q s)
    (hgood : ∀ s e t, P s → Good s e → step s e = .ok t → P t)
    (hbad : ∀ s e, P s → ¬ Good s e → ∃ t, step s e = .ok t ∧ ¬ Q t)
    (events : List ε) :
    ∀ s, P s →
      ((∀ before t, before <+: events → before.foldlM step s = .ok t → Q t) ↔
        ∀ before e t, before ++ [e] <+: events →
          before.foldlM step s = .ok t → Good t e) := by
  intro s hs
  rw [← foldlM_outcome_iff (Q := fun r => ∀ t, r = .ok t → Q t)
    (fun s hs t ht => Except.ok.inj ht ▸ hproperty s hs)
    (fun s e hs he => ⟨fun t ht => hproperty t (hgood s e t hs he ht),
      fun t ht => hgood s e t hs he ht⟩)
    (fun s e hs hnot hall => ?_) events s hs]
  · exact forall_congr' fun before => forall_comm
  · obtain ⟨t, hstep, ht⟩ := hbad s e hs hnot
    exact ht (hall t hstep)

/-- What holds at the start, and of a run and the next event if of the run,
holds of every run and the state it ends in. -/
theorem foldlM_history {step : σ → ε → Option σ} {start : σ}
    {P : List ε → σ → Prop} (hstart : P [] start)
    (hstep : ∀ events s e t, events.foldlM step start = some s → P events s →
      step s e = some t → P (events ++ [e]) t) (events : List ε) :
    ∀ s, events.foldlM step start = some s → P events s := by
  induction events using List.reverseRecOn with
  | nil =>
      intro s hs
      cases hs
      exact hstart
  | append_singleton events e ih =>
      intro t ht
      rw [List.foldlM_append] at ht
      obtain ⟨s, hs, hlast⟩ := Option.bind_eq_some_iff.1 ht
      obtain ⟨t', ht', hnil⟩ := Option.bind_eq_some_iff.1 hlast
      cases hnil
      exact hstep events s e t hs (ih s hs) ht'

/-- The same for steps that may have no result: a property holds of every state
that is reached exactly if every step that is made is a good one. -/
theorem foldlM_reached_iff {step : σ → ε → Option σ} {start : σ}
    {P : σ → Prop} {Q : List ε → σ → Prop} {Good : σ → ε → Prop}
    (hstart : P start) (hproperty : ∀ before s, P s → Q before s)
    (hgood : ∀ s e t, P s → Good s e → step s e = some t → P t)
    (hbad : ∀ before s e t, P s → ¬ Good s e → step s e = some t →
      ¬ Q (before ++ [e]) t)
    (events : List ε) :
    (∀ before s, before <+: events → before.foldlM step start = some s →
        Q before s) ↔
      ∀ before e s t, before ++ [e] <+: events →
        before.foldlM step start = some s → step s e = some t → Good s e := by
  constructor
  · intro hall
    have hnext : ∀ before e s t, before ++ [e] <+: events →
        before.foldlM step start = some s → step s e = some t → P s →
        Good s e := by
      intro before e s t hprefix hrun hstep hs
      by_contra hnot
      have hreached : (before ++ [e]).foldlM step start = some t := by
        simp [List.foldlM_append, hrun, hstep]
      exact hbad before s e t hs hnot hstep (hall _ t hprefix hreached)
    have hkeeps : ∀ before s, before.foldlM step start = some s →
        before <+: events → P s :=
      foldlM_history (fun _ => hstart) fun before s e t hrun ih hstep hprefix =>
        have hs := ih ((List.prefix_append before [e]).trans hprefix)
        hgood s e t hs (hnext before e s t hprefix hrun hstep hs) hstep
    exact fun before e s t hprefix hrun hstep =>
      hnext before e s t hprefix hrun hstep
        (hkeeps before s hrun ((List.prefix_append before [e]).trans hprefix))
  · intro hall before s hprefix hrun
    have hkeeps : ∀ before s, before.foldlM step start = some s →
        before <+: events → P s :=
      foldlM_history (fun _ => hstart) fun before s e t hrun ih hstep hprefix =>
        hgood s e t (ih ((List.prefix_append before [e]).trans hprefix))
          (hall before e s t hprefix hrun hstep) hstep
    exact hproperty before s (hkeeps before s hrun hprefix)

end Web3Core
