/-
`Worker.h` and `Worker.cpp`: a thread that is started, stopped and ended.  The
calls of `startWorking`, `stopWorking` and `terminate` hold the lock `x_work`
until they return; what they share with the thread is one atomic state.  Each
access to it is one step, and the steps of the caller and of the thread are
interleaved in any order.
-/
import Web3Core.HelpfulRounds

namespace Web3Core

inductive WorkerState where
  | starting
  | started
  | stopping
  | stopped
  | killing
deriving DecidableEq

/-- Where the thread is: at the test of its loop, before the state is set to
`started`, in one of its callbacks or at the test of `workLoop`, before the
`exchange`, before the state is set back, in the wait, or at its end. -/
inductive ThreadPoint where
  | test
  | begin
  | startedWorking
  | workLoop
  | doWork
  | doneWorking
  | exchange
  | restore (ex : WorkerState)
  | wait
  | finished
deriving DecidableEq

/-- Where the call is that holds the lock. -/
inductive CallPoint where
  | start
  | store
  | spawn
  | startWait
  | stop
  | stopWait
  | terminate
  | join
  | reset
deriving DecidableEq

inductive WorkerCall where
  | startWorking
  | stopWorking
  | terminate
deriving DecidableEq

/-- `Worker`.  The thread is `none` without `m_work`.  How often the state was
set to `starting`, how often `startedWorking` was called, and how often the
callbacks ended, with an exception or without, is recorded. -/
structure Worker where
  state : WorkerState := .starting
  thread : Option ThreadPoint := none
  call : Option CallPoint := none
  starts : Nat := 0
  begun : Nat := 0
  ended : Nat := 0
deriving DecidableEq

/-- A call is made, the call in progress takes a step, or the thread does; a
callback of the thread may throw. -/
inductive WorkerEvent where
  | call (c : WorkerCall)
  | caller
  | thread (throws : Bool)
deriving DecidableEq

namespace Worker

/-- The caller gets the lock.  Without a thread, `stopWorking` and `terminate`
return. -/
def enter (w : Worker) (c : WorkerCall) : Worker :=
  match w.call with
  | some _ => w
  | none =>
      match c with
      | .startWorking =>
          { w with call := some (if w.thread.isSome then .start else .store) }
      | .stopWorking =>
          { w with call := if w.thread.isSome then some .stop else none }
      | .terminate =>
          { w with call := if w.thread.isSome then some .terminate else none }

/-- A step of the call in progress. -/
def callStep (w : Worker) : Worker :=
  match w.call with
  | none => w
  | some .start =>
      let w := { w with call := some .startWait }
      if w.state = .stopped then
        { w with state := .starting, starts := w.starts + 1 }
      else w
  | some .store =>
      { w with call := some .spawn, state := .starting, starts := w.starts + 1 }
  | some .spawn => { w with call := some .startWait, thread := some .test }
  | some .startWait =>
      if w.state = .starting then w else { w with call := none }
  | some .stop =>
      let w := { w with call := some .stopWait }
      if w.state = .started then { w with state := .stopping } else w
  | some .stopWait =>
      if w.state ≠ .stopped then w else { w with call := none }
  | some .terminate => { w with call := some .join, state := .killing }
  | some .join =>
      if w.thread = some .finished then { w with call := some .reset } else w
  | some .reset => { w with call := none, thread := none }

/-- A step of the thread. -/
def threadStep (w : Worker) (throws : Bool) : Worker :=
  match w.thread with
  | none => w
  | some .test =>
      { w with
        thread := some (if w.state ≠ .killing then .begin else .finished) }
  | some .begin =>
      let w := { w with thread := some .startedWorking, begun := w.begun + 1 }
      if w.state = .starting then { w with state := .started } else w
  | some .startedWorking =>
      { w with thread := some (if throws then .exchange else .workLoop),
               ended := if throws then w.ended + 1 else w.ended }
  | some .workLoop =>
      { w with
        thread := some (if w.state = .started then .doWork else .doneWorking) }
  | some .doWork =>
      { w with thread := some (if throws then .exchange else .workLoop),
               ended := if throws then w.ended + 1 else w.ended }
  | some .doneWorking =>
      { w with thread := some .exchange, ended := w.ended + 1 }
  | some .exchange =>
      let ex := w.state
      { w with
        state := .stopped,
        thread := some (if ex = .killing ∨ ex = .starting then .restore ex
          else .wait) }
  | some (.restore ex) => { w with state := ex, thread := some .wait }
  | some .wait =>
      if w.state = .stopped then w else { w with thread := some .test }
  | some .finished => w

def step (w : Worker) : WorkerEvent → Worker
  | .call c => w.enter c
  | .caller => w.callStep
  | .thread throws => w.threadStep throws

def run (events : List WorkerEvent) : Worker := events.foldl step {}

end Worker

/-- The states that are possible while the thread is at a point. -/
def ThreadPoint.Allows : ThreadPoint → WorkerState → Prop
  | .test, s => s = .starting ∨ s = .killing
  | .begin, s => s = .starting
  | .startedWorking, s => s = .started ∨ s = .stopping ∨ s = .killing
  | .workLoop, s => s = .started ∨ s = .stopping ∨ s = .killing
  | .doWork, s => s = .started ∨ s = .stopping ∨ s = .killing
  | .doneWorking, s => s = .stopping ∨ s = .killing
  | .exchange, s => s = .started ∨ s = .stopping ∨ s = .killing
  | .restore ex, s => ex = .killing ∧ s = .stopped
  | .wait, s => s = .stopped ∨ s = .starting ∨ s = .killing
  | .finished, s => s = .killing

/-- While the state is `started`, it may be set to `stopping` or `killing`. -/
theorem ThreadPoint.Allows.interrupt {p : ThreadPoint}
    (h : p.Allows .started) : p.Allows .stopping ∧ p.Allows .killing := by
  cases p <;> simp [ThreadPoint.Allows] at h ⊢

/-- Whether `startedWorking` was called and the callbacks have not ended. -/
def ThreadPoint.working : ThreadPoint → Bool
  | .startedWorking | .workLoop | .doWork | .doneWorking => true
  | _ => false

/-- The states that are possible while there is a thread and a call is at a
point, or there is none. -/
def CallPoint.Allows : Option CallPoint → WorkerState → Prop
  | none, s => s = .started ∨ s = .stopped
  | some .start, s => s = .started ∨ s = .stopped
  | some .store, _ => False
  | some .spawn, _ => False
  | some .startWait, s => s = .starting ∨ s = .started ∨ s = .stopped
  | some .stop, s => s = .started ∨ s = .stopped
  | some .stopWait, s => s = .stopping ∨ s = .stopped
  | some .terminate, s => s = .started ∨ s = .stopped
  | some .join, s => s = .killing ∨ s = .stopped
  | some .reset, s => s = .killing

namespace Worker

/-- A start has taken effect that the thread has not seen. -/
def pending (w : Worker) : Bool :=
  w.state = .starting && (w.call = some .spawn || w.call = some .startWait)

/-- The thread is between `startedWorking` and the end of its callbacks. -/
def working (w : Worker) : Bool := w.thread.any ThreadPoint.working

/-- What holds at all times. -/
structure Inv (w : Worker) : Prop where
  absent : w.thread = none → w.state ≠ .started ∧ (w.call = none ∨
    w.call = some .store ∨ w.call = some .spawn ∧ w.state = .starting)
  thread : ∀ p, w.thread = some p → p.Allows w.state
  call : ∀ p, w.thread = some p → CallPoint.Allows w.call w.state
  restoring : ∀ p, w.thread = some p →
    (p = .restore .killing ↔ w.call = some .join ∧ w.state = .stopped)
  reset : w.call = some .reset → w.thread = some .finished
  begun : w.begun + w.pending.toNat = w.starts
  ended : w.ended + w.working.toNat = w.begun

theorem inv_start : Inv {} := by
  constructor <;> simp [pending, working]

variable {w : Worker}

/-- A step of the thread, told by what it changes. -/
theorem Inv.of_thread {q : ThreadPoint} {s : WorkerState} {b e : Nat}
    (hallows : q.Allows s)
    (hcall : CallPoint.Allows w.call s)
    (hrestoring : q = .restore .killing ↔ w.call = some .join ∧ s = .stopped)
    (hreset : w.call = some .reset → q = .finished)
    (hbegun : b + { w with state := s }.pending.toNat = w.starts)
    (hended : e + q.working.toNat = b) :
    Inv { w with state := s, thread := some q, begun := b, ended := e } where
  absent hnone := by cases hnone
  thread r hr := by
    cases hr
    exact hallows
  call _ _ := hcall
  restoring r hr := by
    cases hr
    exact hrestoring
  reset hcall := by rw [hreset hcall]
  begun := hbegun
  ended := hended

/-- The thread goes on and leaves the state as it is. -/
theorem Inv.move (h : Inv w) {p q : ThreadPoint} {e : Nat}
    (hthread : w.thread = some p) (hallows : q.Allows w.state)
    (hp : ∀ ex, p ≠ .restore ex) (hq : ∀ ex, q ≠ .restore ex)
    (hfinished : p ≠ .finished) (hended : e + q.working.toNat = w.begun) :
    Inv { w with thread := some q, ended := e } := by
  refine Inv.of_thread hallows (h.call p hthread) ?_ ?_ h.begun hended
  · exact iff_of_false (hq _) fun hcon => hp _ ((h.restoring p hthread).2 hcon)
  · intro hcall
    have hlast := h.reset hcall
    rw [hthread] at hlast
    exact absurd (Option.some.inj hlast) hfinished

/-- The thread keeps the invariant. -/
theorem Inv.threadStep (h : Inv w) (throws : Bool) : Inv (w.threadStep throws) := by
  cases hthread : w.thread with
  | none =>
      rw [Worker.threadStep, hthread]
      exact h
  | some p =>
      have hallows := h.thread p hthread
      have hcall := h.call p hthread
      have hbegun := h.begun
      have hended := h.ended
      have hrestoring := h.restoring p hthread
      have hreset : w.call = some .reset → p = .finished := fun hcon => by
        have hlast := h.reset hcon
        rw [hthread] at hlast
        exact Option.some.inj hlast
      simp only [working, hthread, Option.any_some] at hended
      simp only [Worker.threadStep, hthread]
      cases p with
      | test =>
          refine h.move hthread ?_ (by simp) ?_ (by simp) ?_
          · rcases hallows with hs | hs
            · simp [hs, ThreadPoint.Allows]
            · simp [hs, ThreadPoint.Allows]
          · intro ex
            split <;> simp
          · rw [← hended]
            split <;> rfl
      | begin =>
          -- the state can only be `starting`: who has set it holds the lock
          have hstate : w.state = .starting := hallows
          have hwait : w.call = some .startWait := by
            rw [hstate] at hcall
            cases hc : w.call with
            | none => simp [hc, CallPoint.Allows] at hcall
            | some c => cases c <;> simp [hc, CallPoint.Allows] at hcall ⊢
          rw [if_pos hstate]
          refine Inv.of_thread (.inl rfl) ?_ ?_ ?_ ?_ ?_
          · simp [hwait, CallPoint.Allows]
          · simp [hwait]
          · simp [hwait]
          · simp only [pending, hstate, hwait] at hbegun ⊢
            simpa using hbegun
          · rw [← hended]
            rfl
      | startedWorking =>
          cases throws with
          | true => exact h.move hthread hallows (by simp) (by simp) (by simp) hended
          | false => exact h.move hthread hallows (by simp) (by simp) (by simp) hended
      | workLoop =>
          refine h.move hthread ?_ (by simp) ?_ (by simp) ?_
          · rcases hallows with hs | hs | hs
            · simp [hs, ThreadPoint.Allows]
            · simp [hs, ThreadPoint.Allows]
            · simp [hs, ThreadPoint.Allows]
          · intro ex
            split <;> simp
          · rw [← hended]
            split <;> rfl
      | doWork =>
          cases throws with
          | true => exact h.move hthread hallows (by simp) (by simp) (by simp) hended
          | false => exact h.move hthread hallows (by simp) (by simp) (by simp) hended
      | doneWorking =>
          exact h.move hthread (.inr hallows) (by simp) (by simp) (by simp) hended
      | exchange =>
          dsimp only
          by_cases hkilling : w.state = .killing
          · have hjoin : w.call = some .join := by
              rw [hkilling] at hcall
              cases hc : w.call with
              | none => simp [hc, CallPoint.Allows] at hcall
              | some c =>
                  cases c <;> simp [hc, CallPoint.Allows] at hcall hreset ⊢
            rw [hkilling, if_pos (.inl rfl)]
            refine Inv.of_thread ⟨rfl, rfl⟩ ?_ ?_ ?_ ?_ hended
            · simp [hjoin, CallPoint.Allows]
            · simp [hjoin]
            · simp [hjoin]
            · simpa [pending, hkilling] using hbegun
          · have hother : w.state = .started ∨ w.state = .stopping := by
              rcases hallows with hs | hs | hs
              · exact .inl hs
              · exact .inr hs
              · exact absurd hs hkilling
            have hcond : ¬ (w.state = .killing ∨ w.state = .starting) := by
              rcases hother with hs | hs <;> simp [hs]
            have hnot : w.call ≠ some .join := by
              intro hc
              rw [hc] at hcall
              rcases hother with hs | hs <;> simp [hs, CallPoint.Allows] at hcall
            rw [if_neg hcond]
            refine Inv.of_thread (.inl rfl) ?_ ?_ ?_ ?_ hended
            · cases hc : w.call with
              | none => exact .inr rfl
              | some c =>
                  rcases hother with hs | hs <;> cases c <;>
                    simp [hc, hs, CallPoint.Allows] at hcall ⊢
            · simp [hnot]
            · intro hc
              cases hreset hc
            · rcases hother with hs | hs <;> simpa [pending, hs] using hbegun
      | restore ex =>
          obtain ⟨rfl, hstate⟩ := hallows
          obtain ⟨hjoin, -⟩ := hrestoring.1 rfl
          refine Inv.of_thread (.inr (.inr rfl)) ?_ ?_ ?_ ?_ hended
          · simp [hjoin, CallPoint.Allows]
          · simp
          · simp [hjoin]
          · simpa [pending, hstate] using hbegun
      | wait =>
          by_cases hstate : w.state = .stopped
          · rw [if_pos hstate]
            exact h
          · rw [if_neg hstate]
            refine h.move hthread ?_ (by simp) (by simp) (by simp) hended
            rcases hallows with hs | hs
            · exact absurd hs hstate
            · exact hs
      | finished =>
          exact h

/-- A step of a caller while there is a thread, told by what it changes. -/
theorem Inv.of_call (h : Inv w) {p : ThreadPoint} {s : WorkerState}
    {c : Option CallPoint} {n : Nat} (hthread : w.thread = some p)
    (hallows : p.Allows s) (hcall : CallPoint.Allows c s)
    (hrestoring : p = .restore .killing ↔ c = some .join ∧ s = .stopped)
    (hreset : c = some .reset → p = .finished)
    (hbegun : w.begun + { w with state := s, call := c }.pending.toNat = n) :
    Inv { w with state := s, call := c, starts := n } where
  absent hnone := by
    rw [show w.thread = none from hnone] at hthread
    cases hthread
  thread r hr := by
    rw [show w.thread = some r from hr] at hthread
    cases hthread
    exact hallows
  call _ _ := hcall
  restoring r hr := by
    rw [show w.thread = some r from hr] at hthread
    cases hthread
    exact hrestoring
  reset hc := hthread.trans (congrArg some (hreset hc))
  begun := hbegun
  ended := h.ended

/-- Where the thread may be between two calls, and while a call begins. -/
theorem Inv.point_of_stopped (h : Inv w) {p : ThreadPoint}
    (hthread : w.thread = some p) (hstate : w.state = .stopped)
    (hcall : w.call ≠ some .join) : p = .wait := by
  have hallows := h.thread p hthread
  have hrestoring := h.restoring p hthread
  rw [hstate] at hallows
  cases p with
  | wait => rfl
  | restore ex =>
      obtain ⟨rfl, -⟩ := hallows
      exact absurd (hrestoring.1 rfl).1 hcall
  | _ => simp [ThreadPoint.Allows] at hallows

/-- Between two calls. -/
theorem Inv.idle (h : Inv w) (hcall : w.call = none) {p : ThreadPoint}
    (hthread : w.thread = some p) :
    (w.state = .started ∨ w.state = .stopped) ∧ p ≠ .restore .killing := by
  have hallows := h.call p hthread
  rw [hcall] at hallows
  refine ⟨hallows, fun hp => ?_⟩
  have hjoin := ((h.restoring p hthread).1 hp).1
  rw [hcall] at hjoin
  cases hjoin

/-- A call begins. -/
theorem Inv.enter (h : Inv w) (c : WorkerCall) : Inv (w.enter c) := by
  cases hcall : w.call with
  | some _ =>
      simp only [Worker.enter, hcall]
      exact h
  | none =>
      have hbegun : w.begun = w.starts := by simpa [pending, hcall] using h.begun
      cases hthread : w.thread with
      | none =>
          have hstate := (h.absent hthread).1
          have hended := h.ended
          simp only [working, hthread, Option.any_none] at hended
          cases c
          all_goals
            simp only [Worker.enter, hcall, hthread, Option.isSome_none]
            refine ⟨fun _ => ⟨hstate, by simp⟩, ?_, ?_, ?_, ?_, ?_, hended⟩
            all_goals simp [hbegun, pending]
      | some p =>
          obtain ⟨hallows, hp⟩ := h.idle hcall hthread
          cases c
          all_goals
            simp only [Worker.enter, hcall, hthread, Option.isSome_some, ↓reduceIte]
            rw [← hthread]
            refine h.of_call hthread (h.thread p hthread) hallows ?_ ?_ ?_
            all_goals simp [hp, hbegun, pending]

/-- The call in progress keeps the invariant. -/
theorem Inv.callStep (h : Inv w) : Inv w.callStep := by
  have hbegun := h.begun
  have hended := h.ended
  cases hthread : w.thread with
  | none =>
      obtain ⟨hstate, hcall | hcall | ⟨hcall, hstarting⟩⟩ := h.absent hthread
      · simp only [Worker.callStep, hcall]
        exact h
      · simp only [Worker.callStep, hcall]
        refine ⟨fun _ => by simp, ?_, ?_, ?_, ?_, ?_, ?_⟩
        all_goals simp [hthread, pending, hcall, working] at *
        all_goals omega
      · simp only [Worker.callStep, hcall]
        refine ⟨by simp, ?_, ?_, ?_, ?_, ?_, ?_⟩
        all_goals simp [hthread, pending, hcall, working, hstarting,
          ThreadPoint.Allows, ThreadPoint.working, CallPoint.Allows] at *
        all_goals omega
  | some p =>
      have hallows := h.thread p hthread
      have hheld := h.call p hthread
      have hrestoring := h.restoring p hthread
      cases hcall : w.call with
      | none =>
          simp only [Worker.callStep, hcall]
          exact h
      | some c =>
          rw [hcall] at hheld hrestoring
          cases c with
          | start =>
              simp only [Worker.callStep, hcall]
              have hp : p ≠ .restore .killing := by simpa using hrestoring
              rcases hheld with hs | hs
              · simp only [hs, reduceCtorEq, ↓reduceIte]
                refine hs ▸ h.of_call hthread hallows (.inr (.inl hs)) ?_ ?_ ?_
                all_goals simp_all [pending]
              · have hwait := h.point_of_stopped hthread hs (by simp [hcall])
                simp only [hs, ↓reduceIte]
                refine h.of_call hthread ?_ (.inl rfl) ?_ ?_ ?_
                all_goals simp_all [pending, ThreadPoint.Allows]
          | store => exact hheld.elim
          | spawn => exact hheld.elim
          | startWait =>
              simp only [Worker.callStep, hcall]
              by_cases hs : w.state = .starting
              · rw [if_pos hs]
                exact h
              · rw [if_neg hs]
                refine h.of_call hthread hallows (hheld.resolve_left hs) ?_ ?_ ?_
                all_goals simp_all [pending]
          | stop =>
              simp only [Worker.callStep, hcall]
              rcases hheld with hs | hs
              · rw [hs] at hallows
                simp only [hs, ↓reduceIte]
                refine h.of_call hthread hallows.interrupt.1 (.inl rfl) ?_ ?_ ?_
                all_goals simp_all [pending]
              · simp only [hs, reduceCtorEq, ↓reduceIte]
                refine hs ▸ h.of_call hthread hallows (.inr hs) ?_ ?_ ?_
                all_goals simp_all [pending]
          | stopWait =>
              simp only [Worker.callStep, hcall]
              by_cases hs : w.state = .stopped
              · rw [if_neg (not_not.2 hs)]
                refine h.of_call hthread hallows (.inr hs) ?_ ?_ ?_
                all_goals simp_all [pending]
              · rw [if_pos hs]
                exact h
          | terminate =>
              simp only [Worker.callStep, hcall]
              have hkilling : p.Allows .killing := by
                rcases hheld with hs | hs
                · rw [hs] at hallows
                  exact hallows.interrupt.2
                · rw [h.point_of_stopped hthread hs (by simp [hcall])]
                  exact .inr (.inr rfl)
              refine h.of_call hthread hkilling (.inl rfl) ?_ ?_ ?_
              all_goals simp_all [pending]
          | join =>
              simp only [Worker.callStep, hcall]
              by_cases hp : w.thread = some .finished
              · rw [if_pos hp]
                have hfinished : p = .finished := by
                  rw [hthread] at hp
                  exact Option.some.inj hp
                subst hfinished
                refine h.of_call hthread hallows hallows ?_ ?_ ?_
                all_goals simp_all [pending]
              · rw [if_neg hp]
                exact h
          | reset =>
              simp only [Worker.callStep, hcall]
              have hp := h.reset hcall
              rw [hthread] at hp
              obtain rfl := Option.some.inj hp
              refine ⟨fun _ => ⟨?_, .inl rfl⟩, ?_, ?_, ?_, ?_, ?_, ?_⟩
              all_goals simp_all [pending, working, CallPoint.Allows,
                ThreadPoint.working]

/-- Every step keeps the invariant. -/
theorem Inv.step (h : Inv w) (e : WorkerEvent) : Inv (w.step e) := by
  cases e with
  | call c => exact h.enter c
  | caller => exact h.callStep
  | thread throws => exact h.threadStep throws

theorem Inv.foldl_step (h : Inv w) (events : List WorkerEvent) :
    Inv (events.foldl Worker.step w) := by
  induction events generalizing w with
  | nil => exact h
  | cons e events ih => exact ih (h.step e)

theorem inv_run (events : List WorkerEvent) : Inv (run events) :=
  inv_start.foldl_step events

end Worker

end Web3Core
