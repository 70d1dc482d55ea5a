/-
The calls of a `Worker` return.  The caller and the thread may wait for each
other; as long as a call is in progress, one of them has a step that brings the
end of it nearer.
-/
import Web3Core.Worker

namespace Web3Core

/-- How many steps of the thread it takes until the state is not `starting`. -/
def ThreadPoint.untilStarted : ThreadPoint → Nat
  | .wait => 3
  | .test => 2
  | .begin => 1
  | _ => 0

/-- How many steps of the thread it takes at most until the state is
`stopped`. -/
def ThreadPoint.untilStopped : ThreadPoint → Nat
  | .startedWorking | .doWork => 4
  | .workLoop => 3
  | .doneWorking => 2
  | .exchange => 1
  | _ => 0

/-- How many steps of the thread it takes at most until it has finished. -/
def ThreadPoint.untilFinished : ThreadPoint → Nat
  | .startedWorking | .doWork => 7
  | .workLoop => 6
  | .doneWorking => 5
  | .exchange => 4
  | .restore _ => 3
  | .wait => 2
  | .test => 1
  | _ => 0

namespace Worker

/-- How many steps it takes at most until the call in progress returns. -/
def rank (w : Worker) : Nat :=
  match w.call with
  | none => 0
  | some .start => 5
  | some .store => 5
  | some .spawn => 4
  | some .startWait => 1 + (if w.state = .starting then
      w.thread.elim 0 ThreadPoint.untilStarted else 0)
  | some .stop => 6
  | some .stopWait => 1 + (if w.state = .stopped then 0 else
      w.thread.elim 0 ThreadPoint.untilStopped)
  | some .terminate => 10
  | some .join => 2 + w.thread.elim 0 ThreadPoint.untilFinished
  | some .reset => 1

/-- Whether it is the thread that the call in progress waits for. -/
def waits (w : Worker) : Bool :=
  match w.call with
  | some .startWait => w.state = .starting
  | some .stopWait => w.state ≠ .stopped
  | some .join => w.thread ≠ some .finished
  | _ => false

/-- A step of the call in progress, or of the thread. -/
def turn : Option Bool → WorkerEvent
  | none => .caller
  | some throws => .thread throws

/-- What the call was for. -/
def Done (w : Worker) : WorkerCall → Prop
  | .startWorking => w.thread.isSome ∧ w.begun = w.starts
  | .stopWorking => ∀ p, w.thread = some p → p = .wait
  | .terminate => w.thread = none

variable {w : Worker}

/-- A caller that waits has a thread to wait for. -/
theorem Inv.exists_thread (h : Inv w) (hwaits : w.waits = true) :
    ∃ p, w.thread = some p := by
  cases hthread : w.thread with
  | some p => exact ⟨p, rfl⟩
  | none =>
      obtain ⟨-, hcall | hcall | ⟨hcall, -⟩⟩ := h.absent hthread
      all_goals simp [waits, hcall] at hwaits

/-- While the caller waits for the thread, each step of the thread counts. -/
theorem Inv.rank_threadStep_lt (h : Inv w) (hwaits : w.waits = true)
    (throws : Bool) : (w.threadStep throws).rank < w.rank := by
  obtain ⟨p, hthread⟩ := h.exists_thread hwaits
  have hallows := h.thread p hthread
  have hheld := h.call p hthread
  cases hcall : w.call with
  | none => simp [waits, hcall] at hwaits
  | some c =>
      rw [hcall] at hheld
      cases c with
      | startWait =>
          have hs : w.state = .starting := by simpa [waits, hcall] using hwaits
          rw [hs] at hallows
          cases p <;> simp [ThreadPoint.Allows] at hallows
          all_goals simp [Worker.threadStep, rank, hthread, hcall, hs,
            ThreadPoint.untilStarted]
      | stopWait =>
          have hs : w.state = .stopping := by
            simpa [waits, hcall, CallPoint.Allows] using
              hheld.resolve_right (by simpa [waits, hcall] using hwaits)
          rw [hs] at hallows
          cases p <;> simp [ThreadPoint.Allows] at hallows
          all_goals cases throws <;> simp [Worker.threadStep, rank, hthread, hcall, hs,
            ThreadPoint.untilStopped]
      | join =>
          have hnot : p ≠ .finished := by
            rintro rfl
            simp [waits, hcall, hthread] at hwaits
          rcases hheld with hs | hs
          · rw [hs] at hallows
            cases p <;> simp [ThreadPoint.Allows] at hallows hnot
            all_goals cases throws <;> simp [Worker.threadStep, rank, hthread, hcall, hs,
              ThreadPoint.untilFinished]
          · obtain rfl := (h.restoring p hthread).2 ⟨hcall, hs⟩
            simp [Worker.threadStep, rank, hthread, hcall, ThreadPoint.untilFinished]
      | _ => simp [waits, hcall] at hwaits

@[simp] theorem call_threadStep (throws : Bool) :
    (w.threadStep throws).call = w.call := by
  cases hthread : w.thread with
  | none => simp [threadStep, hthread]
  | some p =>
      cases p
      all_goals
        simp only [threadStep, hthread]
        try split
        all_goals rfl

/-- The thread does not start itself. -/
theorem Inv.state_threadStep (h : Inv w) (hstate : w.state ≠ .starting)
    (throws : Bool) : (w.threadStep throws).state ≠ .starting := by
  cases hthread : w.thread with
  | none => simpa [Worker.threadStep, hthread] using hstate
  | some p =>
      have hallows := h.thread p hthread
      cases p with
      | restore ex => simp [Worker.threadStep, hthread, hallows.1]
      | begin => exact absurd hallows hstate
      | wait =>
          simp only [Worker.threadStep, hthread]
          split <;> exact hstate
      | exchange => simp [Worker.threadStep, hthread]
      | _ => simpa [Worker.threadStep, hthread] using hstate

/-- Else the thread changes nothing that the caller looks at. -/
theorem Inv.rank_threadStep (h : Inv w) (hwaits : w.waits = false)
    (throws : Bool) : (w.threadStep throws).rank = w.rank ∧
      (w.threadStep throws).waits = false := by
  cases hcall : w.call with
  | none => simp [rank, waits, hcall]
  | some c =>
      cases c with
      | startWait =>
          have hs : w.state ≠ .starting := by simpa [waits, hcall] using hwaits
          simp [rank, waits, hcall, hs, h.state_threadStep hs throws]
      | stopWait =>
          have hs : w.state = .stopped := by simpa [waits, hcall] using hwaits
          have hsame : w.threadStep throws = w := by
            cases hthread : w.thread with
            | none => rw [Worker.threadStep, hthread]
            | some p =>
                have hwait := h.point_of_stopped hthread hs (by simp [hcall])
                simp [Worker.threadStep, hthread, hwait, hs]
          rw [hsame]
          exact ⟨rfl, hwaits⟩
      | join =>
          have hthread : w.thread = some .finished := by
            simpa [waits, hcall] using hwaits
          have hsame : w.threadStep throws = w := by
            rw [Worker.threadStep, hthread]
          rw [hsame]
          exact ⟨rfl, hwaits⟩
      | _ => simp [rank, waits, hcall]

theorem elim_le (x : Option ThreadPoint) {f : ThreadPoint → Nat} {n : Nat}
    (h : ∀ p, f p ≤ n) : x.elim 0 f ≤ n := by
  cases x with
  | none => exact Nat.zero_le n
  | some p => exact h p

/-- A step of the caller counts unless it waits. -/
theorem rank_callStep (hpos : 0 < w.rank) :
    if w.waits then w.callStep = w else w.callStep.rank < w.rank := by
  cases hcall : w.call with
  | none => simp [rank, hcall] at hpos
  | some c =>
      cases c with
      | start =>
          have hmax : w.thread.elim 0 ThreadPoint.untilStarted ≤ 3 :=
            elim_le _ fun p => by cases p <;> simp [ThreadPoint.untilStarted]
          by_cases hs : w.state = .stopped
          · simp [rank, waits, callStep, hcall, hs]
            omega
          · simp only [rank, waits, callStep, hcall, hs, Bool.false_eq_true,
              ↓reduceIte]
            split <;> omega
      | stop =>
          have hmax : w.thread.elim 0 ThreadPoint.untilStopped ≤ 4 :=
            elim_le _ fun p => by cases p <;> simp [ThreadPoint.untilStopped]
          by_cases hs : w.state = .started
          · simp [rank, waits, callStep, hcall, hs]
            omega
          · simp only [rank, waits, callStep, hcall, hs, Bool.false_eq_true,
              ↓reduceIte]
            split <;> omega
      | terminate =>
          have hmax : w.thread.elim 0 ThreadPoint.untilFinished ≤ 7 :=
            elim_le _ fun p => by cases p <;> simp [ThreadPoint.untilFinished]
          simp [rank, waits, callStep, hcall]
          omega
      | store => simp [rank, waits, callStep, hcall]
      | spawn =>
          simp only [rank, waits, callStep, hcall, Option.elim_some,
            ThreadPoint.untilStarted, Bool.false_eq_true, ↓reduceIte]
          split <;> decide
      | startWait =>
          by_cases hs : w.state = .starting
          · simp [waits, callStep, hcall, hs]
          · simp [rank, waits, callStep, hcall, hs]
      | stopWait =>
          by_cases hs : w.state = .stopped
          · simp [rank, waits, callStep, hcall, hs]
          · simp [waits, callStep, hcall, hs]
      | join =>
          by_cases hp : w.thread = some .finished
          · simp [rank, waits, callStep, hcall, hp, ThreadPoint.untilFinished]
          · simp [waits, callStep, hcall, hp]
      | reset => simp [rank, waits, callStep, hcall]

theorem rank_eq_zero : w.rank = 0 ↔ w.call = none := by
  cases hcall : w.call with
  | none => simp [rank, hcall]
  | some c => cases c <;> simp [rank, hcall]

/-- What a step does to the rank. -/
theorem Inv.rank_turn (h : Inv w) (a : Option Bool) :
    (w.step (turn a)).rank < w.rank ∨ (w.step (turn a)).rank = w.rank ∧
      (w.step (turn a)).waits = w.waits ∧
      (0 < w.rank → a.isSome ≠ w.waits) := by
  cases a with
  | none =>
      by_cases hpos : 0 < w.rank
      · have hstep := rank_callStep hpos
        cases hwaits : w.waits with
        | true =>
            rw [hwaits, if_pos rfl] at hstep
            refine .inr ?_
            show w.callStep.rank = _ ∧ w.callStep.waits = _ ∧ _
            rw [hstep]
            exact ⟨rfl, hwaits, fun _ => by simp⟩
        | false =>
            rw [hwaits, if_neg (by simp)] at hstep
            exact .inl hstep
      · have hcall := rank_eq_zero.1 (Nat.eq_zero_of_not_pos hpos)
        have hsame : w.step (turn none) = w := by
          show w.callStep = w
          rw [Worker.callStep, hcall]
        rw [hsame]
        exact .inr ⟨rfl, rfl, fun h => absurd h hpos⟩
  | some throws =>
      cases hwaits : w.waits with
      | true => exact .inl (h.rank_threadStep_lt hwaits throws)
      | false =>
          obtain ⟨hrank, hnext⟩ := h.rank_threadStep hwaits throws
          exact .inr ⟨hrank, hnext, fun _ => by simp⟩

/-- Whoever the call in progress depends on has a step that counts. -/
theorem helpful : Helpful (fun w a => Worker.step w (turn a)) Option.isSome Inv
    rank waits where
  inv w a h := h.step (turn a)
  le w a h := by
    rcases h.rank_turn a with hlt | ⟨heq, -⟩
    · exact hlt.le
    · exact heq.le
  lt w a h hpos hparty := by
    rcases h.rank_turn a with hlt | ⟨-, -, hother⟩
    · exact hlt
    · exact absurd hparty (hother hpos)
  keep w a h hrank := by
    rcases h.rank_turn a with hlt | ⟨-, hsame, -⟩
    · exact absurd hrank hlt.ne
    · exact hsame

/-- On the way to what a call is for. -/
def Towards (c : WorkerCall) (w : Worker) : Prop :=
  match c with
  | .startWorking => w.call = some .store ∨ w.call = some .spawn ∨
      w.thread.isSome ∧ (w.call = some .start ∨ w.call = some .startWait ∨
        w.call = none)
  | .stopWorking => w.call = some .stop ∨ w.call = some .stopWait ∨
      w.call = none ∧ (w.thread = none ∨ w.state = .stopped)
  | .terminate => w.call = some .terminate ∨ w.call = some .join ∨
      w.call = some .reset ∨ w.call = none ∧ w.thread = none

theorem towards_enter (hcall : w.call = none) (c : WorkerCall) :
    Towards c (w.enter c) := by
  cases c <;> cases hthread : w.thread <;>
    simp [Towards, enter, hcall, hthread]

theorem isSome_threadStep (throws : Bool) :
    (w.threadStep throws).thread.isSome = w.thread.isSome := by
  cases hthread : w.thread with
  | none => simp [threadStep, hthread]
  | some p =>
      cases p with
      | begin =>
          simp only [threadStep, hthread]
          split <;> rfl
      | wait =>
          simp only [threadStep, hthread]
          split
          · rw [hthread]
          · rfl
      | _ => simp [threadStep, hthread]

theorem towards_callStep {c : WorkerCall} (h : Towards c w) :
    Towards c w.callStep := by
  cases c with
  | startWorking =>
      obtain hcall | hcall | ⟨hthread, hcall | hcall | hcall⟩ := h
      · simp [Towards, callStep, hcall]
      · simp [Towards, callStep, hcall]
      · by_cases hs : w.state = .stopped <;>
          simp [Towards, callStep, hcall, hs, hthread]
      · by_cases hs : w.state = .starting <;>
          simp [Towards, callStep, hcall, hs, hthread]
      · simp [Towards, callStep, hcall, hthread]
  | stopWorking =>
      obtain hcall | hcall | ⟨hcall, hdone⟩ := h
      · by_cases hs : w.state = .started <;>
          simp [Towards, callStep, hcall, hs]
      · by_cases hs : w.state = .stopped <;>
          simp [Towards, callStep, hcall, hs]
      · simp [Towards, callStep, hcall, hdone]
  | terminate =>
      obtain hcall | hcall | hcall | ⟨hcall, hdone⟩ := h
      · simp [Towards, callStep, hcall]
      · by_cases hp : w.thread = some .finished <;>
          simp [Towards, callStep, hcall, hp]
      · simp [Towards, callStep, hcall]
      · simp [Towards, callStep, hcall, hdone]

theorem Inv.towards_threadStep {c : WorkerCall} (h : Inv w) (ht : Towards c w)
    (throws : Bool) : Towards c (w.threadStep throws) := by
  cases c with
  | startWorking => simpa [Towards, isSome_threadStep] using ht
  | stopWorking =>
      obtain hcall | hcall | ⟨hcall, hdone⟩ := ht
      · exact .inl (by simpa using hcall)
      · exact .inr (.inl (by simpa using hcall))
      · have hsame : w.threadStep throws = w := by
          cases hthread : w.thread with
          | none => rw [Worker.threadStep, hthread]
          | some p =>
              have hs := hdone.resolve_left (by simp [hthread])
              have hwait := h.point_of_stopped hthread hs (by simp [hcall])
              simp [Worker.threadStep, hthread, hwait, hs]
        rw [hsame]
        exact .inr (.inr ⟨hcall, hdone⟩)
  | terminate =>
      obtain hcall | hcall | hcall | ⟨hcall, hdone⟩ := ht
      · exact .inl (by simpa using hcall)
      · exact .inr (.inl (by simpa using hcall))
      · exact .inr (.inr (.inl (by simpa using hcall)))
      · have hsame : w.threadStep throws = w := by
          rw [Worker.threadStep, hdone]
        rw [hsame]
        exact .inr (.inr (.inr ⟨hcall, hdone⟩))

/-- The steps of a call, and those of the thread meanwhile, lead there. -/
theorem Inv.towards_foldl {c : WorkerCall} (h : Inv w) (ht : Towards c w)
    (turns : List (Option Bool)) :
    Inv (turns.foldl (fun w a => w.step (turn a)) w) ∧
      Towards c (turns.foldl (fun w a => w.step (turn a)) w) := by
  induction turns generalizing w with
  | nil => exact ⟨h, ht⟩
  | cons a turns ih =>
      refine ih (h.step (turn a)) ?_
      cases a with
      | none => exact towards_callStep ht
      | some throws => exact h.towards_threadStep ht throws

theorem Inv.done_of_towards {c : WorkerCall} (h : Inv w) (ht : Towards c w)
    (hcall : w.call = none) : w.Done c := by
  cases c with
  | startWorking =>
      have hbegun := h.begun
      simp only [Towards, hcall, reduceCtorEq, false_or, or_true, and_true] at ht
      refine ⟨ht, ?_⟩
      simpa [pending, hcall] using hbegun
  | stopWorking =>
      intro p hthread
      simp only [Towards, hcall, hthread, reduceCtorEq, false_or, true_and] at ht
      exact h.point_of_stopped hthread ht (by simp [hcall])
  | terminate =>
      simpa [Towards, Done, hcall] using ht

/-- Every call returns and has done what it is for, whatever happened before and
however the steps are interleaved, if only both the caller and the thread keep
taking steps. -/
theorem calls_return {events : List WorkerEvent} {c : WorkerCall}
    {rounds : List (List (Option Bool))} (hidle : (run events).call = none)
    (hfair : ∀ round ∈ rounds, none ∈ round ∧ ∃ throws, some throws ∈ round)
    (henough : 10 ≤ rounds.length) :
    ∃ w, run (events ++ .call c :: rounds.flatten.map turn) = w ∧
      w.call = none ∧ w.Done c := by
  have henter : Inv ((run events).enter c) := (inv_run events).enter c
  obtain ⟨hinv, htowards⟩ := henter.towards_foldl (towards_enter hidle c)
    rounds.flatten
  have hparties : ∀ round ∈ rounds, ∀ i, ∃ a ∈ round, Option.isSome a = i := by
    intro round hround i
    obtain ⟨hcaller, throws, hthread⟩ := hfair round hround
    cases i with
    | false => exact ⟨none, hcaller, rfl⟩
    | true => exact ⟨some throws, hthread, rfl⟩
  have hrank := helpful.rank_rounds henter hparties
  have hmax : ((run events).enter c).rank ≤ 10 := by
    cases c <;> cases hthread : (run events).thread <;>
      simp [enter, rank, hidle, hthread]
  have hcall := rank_eq_zero.1 (Nat.eq_zero_of_le_zero (hrank.trans (by omega)))
  refine ⟨_, ?_, hcall, hinv.done_of_towards htowards hcall⟩
  rw [run, List.foldl_append, List.foldl_cons, List.foldl_map]
  rfl

/-- The thread throws in `startedWorking`, and is stopped and ended then. -/
theorem calls_return_thrown :
    ∃ w, run ([.call .startWorking, .caller, .caller, .thread false,
        .thread false, .caller, .thread true, .thread false] ++
        .call .terminate ::
          (List.replicate 10 [none, some false]).flatten.map turn) = w ∧
      w.call = none ∧ w.thread = none :=
  calls_return (by decide) (by decide) (by decide)

end Worker

end Web3Core
