/-
How a contested bucket is resolved: the records of `m_evictions`, the pongs that
answer them, and the checks that find them too old.
-/
import Web3Core.NodeTableBuckets
import Web3Core.Runs

namespace Web3Core

namespace NodeTable

variable {ctx : NodeContext} {m : Moment} {event : NodeTableEvent}
  {t t' : NodeTable} {r : EvictionTimeout}

/-- A valid pong of the node that is to make room is received before the
request for it has timed out. -/
def AnswersInTime (ctx : NodeContext) (t : NodeTable) (m : Moment)
    (event : NodeTableEvent) (r : EvictionTimeout) : Prop :=
  ∃ sender packet payload, event = .received sender packet ∧
    t.isOpen = true ∧
    DatagramPacket.checkDatagram ctx.crypto (.ofBytes packet) =
      some (r.leastSeen, 2, payload) ∧
    (∃ rlp, RLP.ofRef payload .veryStrict = .ok rlp) ∧
    m.now - r.time ≤ c_reqTimeout

/-- The timer of a check expires. -/
def Checks (t : NodeTable) (m : Moment) (event : NodeTableEvent) : Prop :=
  ∃ i randNodeId timer, event = .expired i randNodeId ∧
    t.timers[i]? = some timer ∧ timer.due ≤ m.now ∧
    timer.task = .doCheckEvictions

/-- A check finds that the request for a record has timed out. -/
def FindsLate (t : NodeTable) (m : Moment) (event : NodeTableEvent)
    (r : EvictionTimeout) : Prop :=
  Checks t m event ∧ m.now - r.time > c_reqTimeout

/-- A record is taken out. -/
def Removed (t t' : NodeTable) (r : EvictionTimeout) : Prop :=
  t'.evictions.count r < t.evictions.count r

/-- A node is in the bucket that it was in. -/
def Stays (t t' : NodeTable) (x : NodeID) : Prop :=
  ∀ p, t.nodes x = some p → ∀ i, p ∈ t.state i → p ∈ t'.state i

/-- A node is in no bucket. -/
def Outside (t : NodeTable) (x : NodeID) : Prop :=
  ∀ p, t.nodes x = some p → ∀ i, p ∉ t.state i

/-- The records are acted upon as documented: one that is answered in time is
removed, its node stays and the new one does not take its place; one that is
found late is removed with its node; no other one is removed, and checks go on
as long as there are records. -/
structure ResolvesRecords (ctx : NodeContext) (t : NodeTable) (m : Moment)
    (event : NodeTableEvent) (t' : NodeTable) : Prop where
  answered : ∀ r ∈ t.evictions, AnswersInTime ctx t m event r →
    Removed t t' r ∧ Stays t t' r.leastSeen ∧
      (Outside t r.new → Outside t' r.new)
  late : ∀ r ∈ t.evictions, FindsLate t m event r →
    Removed t t' r ∧ Outside t' r.leastSeen
  once : ∀ r, ¬ AnswersInTime ctx t m event r → ¬ FindsLate t m event r →
    ¬ Removed t t' r
  rescheduled : Checks t m event → t'.evictions ≠ [] →
    ∃ timer ∈ t'.timers, timer.task = .doCheckEvictions ∧
      timer.due = m.now + c_evictionCheckInterval

/-- A record is answered in time or found late. -/
def Decides (ctx : NodeContext) (t : NodeTable) (m : Moment)
    (event : NodeTableEvent) : Prop :=
  ∃ r ∈ t.evictions, AnswersInTime ctx t m event r ∨ FindsLate t m event r

/-- No record is from a later moment. -/
def Past (t : NodeTable) (m : Moment) : Prop :=
  ∀ r ∈ t.evictions, r.time ≤ m.now

/-- No change takes out a record that is not from a later moment. -/
theorem Change.evictions {start : NodeTable}
    (hchange : Change ctx start m event t t') (hpast : Past t m) :
    t.evictions <+: t'.evictions ∧ Past t' m := by
  cases hchange with
  | aside haside =>
      rw [Past, haside.evictions]
      exact ⟨List.prefix_rfl, hpast⟩
  | added => exact ⟨by rw [(aside_ping _ _).evictions]; exact List.prefix_rfl, by
      rw [Past, (aside_ping _ _).evictions]; exact hpast⟩
  | known => exact ⟨List.prefix_rfl, hpast⟩
  | answered => exact ⟨List.prefix_rfl, hpast⟩
  | moved => exact ⟨List.prefix_rfl, hpast⟩
  | noted => exact ⟨List.prefix_rfl, hpast⟩
  | removed => exact ⟨List.prefix_rfl, hpast⟩
  | evicting leastSeen he hother hi =>
      refine ⟨List.prefix_append _ _, fun r hr => ?_⟩
      rcases List.mem_append.mp hr with hr | hr
      · exact hpast r hr
      · rw [List.mem_singleton.mp hr]
  | erased hf =>
      have hsame : t.evictions.eraseP _ = t.evictions :=
        List.eraseP_of_forall_not fun r hr htrue =>
          absurd (hpast r hr) (not_le.mpr (hf r htrue))
      rw [Past]
      dsimp only
      rw [hsame]
      exact ⟨List.prefix_rfl, hpast⟩
  | asked target hopen hstart he =>
      rw [sendFindNode_eq he, Past, (aside_send _ _).evictions]
      exact ⟨List.prefix_rfl, hpast⟩

theorem Changes.evictions {start : NodeTable}
    (hchanges : Changes ctx start m event t t') (hpast : Past t m) :
    t.evictions <+: t'.evictions ∧ Past t' m := by
  induction hchanges with
  | refl => exact ⟨List.prefix_rfl, hpast⟩
  | tail _ hchange ih =>
      obtain ⟨hgrown, hpast'⟩ := hchange.evictions ih.2
      exact ⟨ih.1.trans hgrown, hpast'⟩

/-- In a step no record is taken out. -/
theorem not_removed (hconsistent : Consistent t) (hpast : Past t m)
    (hstep : step ctx t (m, event) = some t') (r : EvictionTimeout) :
    ¬ Removed t t' r := by
  have hgrown := ((changes_step hconsistent hstep).evictions hpast).1
  exact not_lt.mpr (hgrown.sublist.count_le r)

/-- A check that finds nothing too old removes nothing and is made again while
there are records. -/
theorem step_check {i : Nat} {randNodeId : NodeID} {timer : NodeTableTimer}
    (htimer : t.timers[i]? = some timer) (hdue : timer.due ≤ m.now)
    (htask : timer.task = .doCheckEvictions)
    (hnone : ∀ r ∈ t.evictions, ¬ m.now - r.time > c_reqTimeout) :
    step ctx t (m, .expired i randNodeId) = some (
      let t' := if t.evictions.length > 0 then
        t.schedule m c_evictionCheckInterval .doCheckEvictions else t
      { t' with timers := t'.timers.eraseIdx i }) := by
  have hlate : (t.evictions.filter fun e =>
      decide (m.now - e.time > c_reqTimeout)) = [] := by
    rw [List.filter_eq_nil_iff]
    intro r hr hlate
    exact hnone r hr (of_decide_eq_true hlate)
  have hcheck : t.checkEvictions m = some (if t.evictions.length > 0 then
      t.schedule m c_evictionCheckInterval .doCheckEvictions else t) := by
    rw [checkEvictions, hlate]
    simp
  rw [step, htimer]
  dsimp only
  rw [if_neg (not_lt.mpr hdue), htask, perform, hcheck, Option.map_some]

theorem rescheduled_of_not_late (hnone : ∀ r ∈ t.evictions, ¬ FindsLate t m event r)
    (hstep : step ctx t (m, event) = some t') (hchecks : Checks t m event)
    (hremain : t'.evictions ≠ []) :
    ∃ timer ∈ t'.timers, timer.task = .doCheckEvictions ∧
      timer.due = m.now + c_evictionCheckInterval := by
  have hsame := hchecks
  obtain ⟨i, randNodeId, timer, rfl, htimer, hdue, htask⟩ := hchecks
  rw [step_check htimer hdue htask fun r hr hlate =>
    hnone r hr ⟨hsame, hlate⟩] at hstep
  cases hstep
  have hlength : t.evictions.length > 0 := by
    by_contra hzero
    have hempty : t.evictions = [] := List.length_eq_zero_iff.mp (by omega)
    dsimp only at hremain
    rw [if_neg hzero] at hremain
    exact hremain hempty
  obtain ⟨hlt, -⟩ := List.getElem?_eq_some_iff.mp htimer
  refine ⟨⟨m.now + c_evictionCheckInterval, .doCheckEvictions⟩, ?_, rfl, rfl⟩
  dsimp only
  rw [if_pos hlength, schedule]
  dsimp only
  rw [List.eraseIdx_append_of_lt_length hlt]
  exact List.mem_append_right _ (List.mem_singleton_self _)

/-- A step resolves its records exactly if it decides none of them. -/
theorem resolvesRecords_iff (hconsistent : Consistent t) (hpast : Past t m)
    (hstep : step ctx t (m, event) = some t') :
    ResolvesRecords ctx t m event t' ↔ ¬ Decides ctx t m event := by
  have hkept := not_removed hconsistent hpast hstep
  constructor
  · rintro hright ⟨r, hr, hanswered | hlate⟩
    · exact hkept r (hright.answered r hr hanswered).1
    · exact hkept r (hright.late r hr hlate).1
  · intro hnot
    have hnone : ∀ r ∈ t.evictions, ¬ FindsLate t m event r :=
      fun r hr hlate => hnot ⟨r, hr, .inr hlate⟩
    exact ⟨fun r hr hanswered => absurd ⟨r, hr, .inl hanswered⟩ hnot,
      fun r hr hlate => absurd hlate (hnone r hr), fun r _ _ => hkept r,
      rescheduled_of_not_late hnone hstep⟩

/-- The records of a run are from moments of the run. -/
theorem past_of_run {first : NodeTable} (hconsistent : Consistent first)
    (hnone : first.evictions = []) {before : List (Moment × NodeTableEvent)}
    (hrun : run ctx first before = some t)
    (hclock : before.Pairwise fun e e' => e.1.now ≤ e'.1.now) :
    Consistent t ∧ ∀ r ∈ t.evictions, ∃ e ∈ before, r.time ≤ e.1.now := by
  refine foldlM_history (P := fun before t =>
    before.Pairwise (fun e e' => e.1.now ≤ e'.1.now) → Consistent t ∧
      ∀ r ∈ t.evictions, ∃ e ∈ before, r.time ≤ e.1.now)
    ?_ ?_ before t hrun hclock
  · intro _
    refine ⟨hconsistent, fun r hr => ?_⟩
    rw [hnone] at hr
    cases hr
  · rintro before t ⟨m, event⟩ t' - ih hstep hclock
    obtain ⟨hbefore, -, hlast⟩ := List.pairwise_append.mp hclock
    obtain ⟨hconsistent, htimes⟩ := ih hbefore
    have hpast : Past t m := by
      intro r hr
      obtain ⟨e, he, hle⟩ := htimes r hr
      exact hle.trans (hlast e he (m, event) (List.mem_singleton_self _))
    have hchanges := changes_step hconsistent hstep
    refine ⟨hchanges.consistent hconsistent, fun r hr => ?_⟩
    exact ⟨(m, event), List.mem_append_right _ (List.mem_singleton_self _),
      (hchanges.evictions hpast).2 r hr⟩

/-- Along a run of a table, by a clock that does not go back, all records are
resolved as documented exactly if none is ever decided, neither by a pong that
comes in time nor by a check that comes too late: the first looks for records
that are from a later moment, and the second drops the node that is new and
takes no record out. -/
theorem evictions_resolved_iff (ctx : NodeContext) (node : Node) (isOpen : Bool)
    (handler : Option NodeTableEventHandler) (m : Moment)
    (events : List (Moment × NodeTableEvent))
    (hclock : events.Pairwise fun e e' => e.1.now ≤ e'.1.now) :
    let start := create node isOpen handler m
    (∀ before m event t t', before ++ [(m, event)] <+: events →
        run ctx start before = some t → step ctx t (m, event) = some t' →
        ResolvesRecords ctx t m event t') ↔
      ∀ before m event t t', before ++ [(m, event)] <+: events →
        run ctx start before = some t → step ctx t (m, event) = some t' →
        ¬ Decides ctx t m event := by
  intro start
  have hstart : Consistent start := by
    intro x p hp
    cases hp
  have hstep : ∀ before m event t t', before ++ [(m, event)] <+: events →
      run ctx start before = some t → step ctx t (m, event) = some t' →
      (ResolvesRecords ctx t m event t' ↔ ¬ Decides ctx t m event) := by
    intro before m event t t' hgrown hrun hstep
    obtain ⟨hbefore, -, hlast⟩ :=
      List.pairwise_append.mp (hclock.sublist hgrown.sublist)
    obtain ⟨hconsistent, htimes⟩ := past_of_run hstart rfl hrun hbefore
    refine resolvesRecords_iff hconsistent (fun r hr => ?_) hstep
    obtain ⟨e, he, hle⟩ := htimes r hr
    exact hle.trans (hlast e he (m, event) (List.mem_singleton_self _))
  constructor
  · intro hall before m event t t' hgrown hrun hnext
    exact (hstep before m event t t' hgrown hrun hnext).mp
      (hall before m event t t' hgrown hrun hnext)
  · intro hall before m event t t' hgrown hrun hnext
    exact (hstep before m event t t' hgrown hrun hnext).mpr
      (hall before m event t t' hgrown hrun hnext)

/-- The timer of the check expires at a moment. -/
def contestedCheck (now : TimePoint) : Moment × NodeTableEvent :=
  (⟨now, 0⟩, .expired 1 (contestedID 0))

/-- The seventeenth node leaves a record, and the check of it is the second
timer. -/
theorem exists_run_contested :
    ∃ t, run lastBytes contestedStart contestedRun = some t ∧
      t.evictions = [⟨contestedID 0, 1, contestedID 16⟩] ∧
      t.timers[1]? = some ⟨milliseconds 75 + 1, .doCheckEvictions⟩ := by
  have hrecords : (run lastBytes contestedStart contestedRun).map
      (fun t => (t.evictions, t.timers[1]?)) =
        some ([⟨contestedID 0, 1, contestedID 16⟩],
          some ⟨milliseconds 75 + 1, .doCheckEvictions⟩) := by decide +kernel
  obtain ⟨t, hrun, heq⟩ := Option.map_eq_some_iff.mp hrecords
  obtain ⟨hevictions, htimer⟩ := Prod.mk.inj heq
  exact ⟨t, hrun, hevictions, htimer⟩

theorem pairwise_contestedRun {now : TimePoint} (hnow : 1 ≤ now) :
    (contestedRun ++ [contestedCheck now]).Pairwise
      fun e e' => e.1.now ≤ e'.1.now := by
  have hsame : ∀ e ∈ contestedRun, e.1.now = 1 := by
    intro e he
    obtain ⟨i, -, rfl⟩ := List.mem_map.mp he
    rfl
  refine List.pairwise_append.mpr ⟨?_, List.pairwise_singleton _ _, ?_⟩
  · exact List.Pairwise.imp_of_mem (fun he he' _ =>
      (hsame _ he).trans_le (hsame _ he').ge) (List.pairwise_of_forall
        fun _ _ => trivial)
  · intro e he e' he'
    rw [hsame e he, List.mem_singleton.mp he']
    exact hnow

/-- A check that comes before the request has timed out leaves the record and is
made again. -/
theorem evictions_resolved_contested :
    ∃ t t', run lastBytes contestedStart contestedRun = some t ∧
      t.evictions = [⟨contestedID 0, 1, contestedID 16⟩] ∧
      step lastBytes t (contestedCheck (milliseconds 100)) = some t' ∧
      ResolvesRecords lastBytes t ⟨milliseconds 100, 0⟩
        (.expired 1 (contestedID 0)) t' := by
  obtain ⟨t, hrun, hevictions, htimer⟩ := exists_run_contested
  have hearly : ∀ r ∈ t.evictions,
      ¬ milliseconds 100 - r.time > c_reqTimeout := by
    intro r hr
    rw [hevictions, List.mem_singleton] at hr
    rw [hr]
    decide
  have hstep : step lastBytes t (contestedCheck (milliseconds 100)) = some _ :=
    step_check htimer (by decide) rfl hearly
  refine ⟨t, _, hrun, hevictions, hstep, ?_⟩
  refine (evictions_resolved_iff lastBytes _ true none ⟨0, 0⟩
    (contestedRun ++ [contestedCheck (milliseconds 100)])
    (pairwise_contestedRun (by decide))).mpr ?_ contestedRun _ _ t _
    List.prefix_rfl hrun hstep
  rintro before m event u u' hgrown hrun' - ⟨r, hr, hdecided⟩
  rcases List.prefix_concat_iff.mp hgrown with heq | hgrown
  · -- The check comes in time.
    obtain ⟨rfl, hlast⟩ := List.append_inj' heq rfl
    cases hlast
    obtain rfl := Option.some.inj (hrun'.symm.trans hrun)
    rcases hdecided with ⟨_, _, _, hevent, -⟩ | ⟨-, hlate⟩
    · cases hevent
    · exact hearly r hr hlate
  · -- The other events are no pongs and no checks.
    have hmem : (m, event) ∈ contestedRun := hgrown.subset (by simp)
    obtain ⟨i, -, hevent⟩ := List.mem_map.mp hmem
    cases hevent
    rcases hdecided with ⟨_, _, _, hevent, -⟩ | ⟨⟨_, _, _, hevent, -⟩, -⟩
    · cases hevent
    · cases hevent

/-- The check after the timeout leaves the record where it is. -/
theorem not_resolved_late :
    ¬ ∀ (ctx : NodeContext) (node : Node)
      (events : List (Moment × NodeTableEvent)),
      events.Pairwise (fun e e' => e.1.now ≤ e'.1.now) →
      ∀ before m event t t', before ++ [(m, event)] <+: events →
        run ctx (create node true none ⟨0, 0⟩) before = some t →
        step ctx t (m, event) = some t' → ResolvesRecords ctx t m event t' := by
  intro hall
  obtain ⟨t, hrun, hevictions, htimer⟩ := exists_run_contested
  have hafter : (run lastBytes contestedStart (contestedRun ++
      [contestedCheck (milliseconds 302)])).map (·.evictions) =
        some [⟨contestedID 0, 1, contestedID 16⟩] := by decide +kernel
  obtain ⟨t', hrun', hevictions'⟩ := Option.map_eq_some_iff.mp hafter
  have hstep : step lastBytes t (contestedCheck (milliseconds 302)) =
      some t' := by
    rw [run, List.foldlM_append] at hrun'
    rw [run] at hrun
    simpa [hrun] using hrun'
  have hright := hall lastBytes _ _ (pairwise_contestedRun (by decide))
    contestedRun _ _ t t' List.prefix_rfl hrun hstep
  have hmem : (⟨contestedID 0, 1, contestedID 16⟩ : EvictionTimeout) ∈
      t.evictions := by
    rw [hevictions]
    exact List.mem_singleton_self _
  have hlate : FindsLate t ⟨milliseconds 302, 0⟩ (.expired 1 (contestedID 0))
      ⟨contestedID 0, 1, contestedID 16⟩ :=
    ⟨⟨1, contestedID 0, _, rfl, htimer, by decide, rfl⟩, by decide⟩
  have hremoved := (hright.late _ hmem hlate).1
  rw [Removed, hevictions, hevictions'] at hremoved
  exact lt_irrefl _ hremoved

end NodeTable

end Web3Core
