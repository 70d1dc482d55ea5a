/-
`concurrent_queue.h`: threads push to a queue and pop from it, and a pop from an
empty queue waits on a condition variable.  What is done under the lock is one
step.  Between the push and its notification, and between waking up and getting
the lock again, anything may happen; and a thread may wake up for no reason.
-/
import Mathlib.Data.List.Induction
import Mathlib.Data.List.Perm.Basic
import Mathlib.Order.Nat

namespace Web3Core

variable {α ι : Type}

/-- `concurrent_queue`, with the threads that wait, those that were woken and
have not got the lock yet, the number of pushes whose notification is still to
come, and what the calls of `pop` have returned. -/
structure ConcurrentQueue (α ι : Type) where
  queue : List α := []
  waiting : List ι := []
  woken : List ι := []
  notifying : Nat := 0
  popped : List (ι × α) := []

/-- A push; the notification of one, which wakes any of the threads that wait; a
call of `pop`; a thread that was woken goes on; one wakes up for no reason. -/
inductive ChannelEvent (α ι : Type) where
  | push (elem : α)
  | notifyOne (n : Nat)
  | pop (i : ι)
  | resume (i : ι)
  | wake (i : ι)

namespace ConcurrentQueue

/-- The test of the condition under the lock: the thread takes the front, or
waits. -/
def take (q : ConcurrentQueue α ι) (i : ι) : ConcurrentQueue α ι :=
  match q.queue with
  | [] => { q with waiting := q.waiting ++ [i] }
  | item :: rest => { q with queue := rest, popped := q.popped ++ [(i, item)] }

variable [DecidableEq ι]

/-- A thread that waits wakes up. -/
def wakeUp (q : ConcurrentQueue α ι) (i : ι) : ConcurrentQueue α ι :=
  if i ∈ q.waiting then
    { q with waiting := q.waiting.erase i, woken := q.woken ++ [i] }
  else q

def step (q : ConcurrentQueue α ι) : ChannelEvent α ι → ConcurrentQueue α ι
  | .push elem =>
      { q with queue := q.queue ++ [elem], notifying := q.notifying + 1 }
  | .notifyOne n =>
      if q.notifying = 0 then q
      else
        let q := { q with notifying := q.notifying - 1 }
        match q.waiting[n % q.waiting.length]? with
        | none => q
        | some i => q.wakeUp i
  | .pop i => q.take i
  | .resume i =>
      if i ∈ q.woken then { q with woken := q.woken.erase i }.take i else q
  | .wake i => q.wakeUp i

def run (events : List (ChannelEvent α ι)) : ConcurrentQueue α ι :=
  events.foldl step {}

/-- What happens by itself: a notification that is still to come, or a thread
that was woken goes on. -/
def Due (q : ConcurrentQueue α ι) : ChannelEvent α ι → Prop
  | .notifyOne _ => q.notifying ≠ 0
  | .resume i => i ∈ q.woken
  | _ => False

instance (q : ConcurrentQueue α ι) : DecidablePred q.Due
  | .push _ => inferInstanceAs (Decidable False)
  | .notifyOne _ => inferInstanceAs (Decidable (q.notifying ≠ 0))
  | .pop _ => inferInstanceAs (Decidable False)
  | .resume i => inferInstanceAs (Decidable (i ∈ q.woken))
  | .wake _ => inferInstanceAs (Decidable False)

/-- Only such events happen. -/
def Settling : ConcurrentQueue α ι → List (ChannelEvent α ι) → Prop
  | _, [] => True
  | q, event :: events => q.Due event ∧ (q.step event).Settling events

instance decidableSettling : (q : ConcurrentQueue α ι) →
    (events : List (ChannelEvent α ι)) → Decidable (q.Settling events)
  | _, [] => inferInstanceAs (Decidable True)
  | q, event :: events =>
      have := decidableSettling (q.step event) events
      inferInstanceAs (Decidable (_ ∧ _))

/-- How many of them there are at most. -/
def underWay (q : ConcurrentQueue α ι) : Nat := 2 * q.notifying + q.woken.length

end ConcurrentQueue

namespace ChannelEvent

/-- The elements that are pushed, and the threads that call `pop`. -/
def pushed (events : List (ChannelEvent α ι)) : List α :=
  events.filterMap fun
    | .push elem => some elem
    | _ => none

def popping (events : List (ChannelEvent α ι)) : List ι :=
  events.filterMap fun
    | .pop i => some i
    | _ => none

variable {events : List (ChannelEvent α ι)} {event : ChannelEvent α ι}

theorem pushed_append :
    pushed (events ++ [event]) = pushed events ++ pushed [event] :=
  List.filterMap_append ..

theorem popping_append :
    popping (events ++ [event]) = popping events ++ popping [event] :=
  List.filterMap_append ..

end ChannelEvent

namespace ConcurrentQueue

variable {q : ConcurrentQueue α ι} {xs : List α} {is : List ι}

/-- After the pushes `xs` and the calls `is` of `pop`: the elements have come out
in the order they went in, each call has returned or its thread waits or was
woken, and as long as one waits, no element lies in the queue for which nobody
is on the way. -/
structure Inv (q : ConcurrentQueue α ι) (xs : List α) (is : List ι) : Prop where
  order : xs = q.popped.map Prod.snd ++ q.queue
  calls : is.Perm (q.popped.map Prod.fst ++ (q.waiting ++ q.woken))
  awake : q.waiting ≠ [] → q.queue.length ≤ q.notifying + q.woken.length

theorem inv_start : Inv ({} : ConcurrentQueue α ι) [] [] :=
  ⟨rfl, .nil, fun h => absurd rfl h⟩

/-- A thread that has got the lock takes the front, or waits. -/
theorem inv_take {i : ι} (horder : xs = q.popped.map Prod.snd ++ q.queue)
    (hcalls : is.Perm (i :: (q.popped.map Prod.fst ++ (q.waiting ++ q.woken))))
    (hawake : q.waiting ≠ [] → q.queue.length ≤ q.notifying + q.woken.length + 1) :
    Inv (q.take i) xs is := by
  rw [take]
  split
  · rename_i hqueue
    refine ⟨horder, hcalls.trans ?_, fun _ => by simp [hqueue]⟩
    have hperm : (i :: (q.waiting ++ q.woken)).Perm
        (q.waiting ++ [i] ++ q.woken) := by
      rw [List.append_assoc]
      exact List.perm_middle.symm
    exact List.perm_middle.symm.trans (hperm.append_left _)
  · rename_i item rest hqueue
    rw [hqueue] at horder hawake
    refine ⟨by simp [horder], ?_, fun hwaiting => ?_⟩
    · simpa using hcalls.trans List.perm_middle.symm
    · have hlen := hawake hwaiting
      rw [List.length_cons] at hlen
      exact Nat.le_of_succ_le_succ hlen

theorem underWay_take (q : ConcurrentQueue α ι) (i : ι) :
    (q.take i).underWay = q.underWay := by
  rw [take]
  split <;> rfl

/-- As long as anything is under way, something is left to happen. -/
theorem exists_due (h : 0 < q.underWay) :
    ∃ event : ChannelEvent α ι, q.Due event := by
  by_cases hnotifying : q.notifying = 0
  · obtain ⟨i, hmem⟩ : ∃ i, i ∈ q.woken := by
      refine List.exists_mem_of_length_pos ?_
      rw [underWay, hnotifying] at h
      omega
    exact ⟨.resume i, hmem⟩
  · exact ⟨.notifyOne 0, hnotifying⟩

variable [DecidableEq ι]

/-- A thread that waits wakes up: it is on the way now. -/
theorem inv_wakeUp {i : ι} (hmem : i ∈ q.waiting)
    (horder : xs = q.popped.map Prod.snd ++ q.queue)
    (hcalls : is.Perm (q.popped.map Prod.fst ++ (q.waiting ++ q.woken)))
    (hawake : q.queue.length ≤ q.notifying + q.woken.length + 1) :
    Inv (q.wakeUp i) xs is := by
  have hperm : (q.waiting ++ q.woken).Perm
      (q.waiting.erase i ++ (q.woken ++ [i])) := by
    rw [← List.append_assoc]
    exact ((List.perm_cons_erase hmem).append_right q.woken).trans
      (List.perm_append_singleton i _).symm
  rw [wakeUp, if_pos hmem]
  refine ⟨horder, hcalls.trans (hperm.append_left _), fun _ => ?_⟩
  simp only [List.length_append, List.length_singleton]
  omega

theorem Inv.wakeUp (h : Inv q xs is) (i : ι) : Inv (q.wakeUp i) xs is := by
  by_cases hmem : i ∈ q.waiting
  · have hlen := h.awake (List.ne_nil_of_mem hmem)
    exact inv_wakeUp hmem h.order h.calls (by omega)
  · rw [ConcurrentQueue.wakeUp, if_neg hmem]
    exact h

/-- A push that is notified: if any thread waits, it wakes one. -/
theorem Inv.notifyOne (h : Inv q xs is) (n : Nat) :
    Inv (q.step (.notifyOne n)) xs is := by
  simp only [ConcurrentQueue.step]
  split
  · exact h
  · rename_i hpos
    cases hwaiting : q.waiting[n % q.waiting.length]? with
    | none =>
        have hnone : q.waiting = [] := by
          by_contra hne
          have hlt := Nat.mod_lt n (List.length_pos_of_ne_nil hne)
          rw [List.getElem?_eq_getElem hlt] at hwaiting
          cases hwaiting
        exact ⟨h.order, h.calls, fun hne => absurd hnone hne⟩
    | some i =>
        have hmem := List.mem_of_getElem? hwaiting
        have hlen := h.awake (List.ne_nil_of_mem hmem)
        have hslack : q.queue.length ≤ q.notifying - 1 + q.woken.length + 1 := by
          omega
        exact inv_wakeUp hmem h.order h.calls hslack

/-- A thread that was woken goes on. -/
theorem Inv.resume (h : Inv q xs is) (i : ι) : Inv (q.step (.resume i)) xs is := by
  simp only [ConcurrentQueue.step]
  split
  · rename_i hmem
    have hlength := List.length_erase_of_mem hmem
    have hpos := List.length_pos_of_mem hmem
    refine inv_take h.order (h.calls.trans ?_) fun hwaiting => ?_
    · have hperm : (q.waiting ++ q.woken).Perm
          (i :: (q.waiting ++ q.woken.erase i)) :=
        ((List.perm_cons_erase hmem).append_left q.waiting).trans
          List.perm_middle
      exact (hperm.append_left _).trans List.perm_middle
    · have hlen := h.awake hwaiting
      show q.queue.length ≤ q.notifying + (q.woken.erase i).length + 1
      omega
  · exact h

/-- One more event. -/
theorem Inv.step (h : Inv q xs is) (event : ChannelEvent α ι) :
    Inv (q.step event) (xs ++ ChannelEvent.pushed [event])
      (is ++ ChannelEvent.popping [event]) := by
  cases event with
  | push elem =>
      refine ⟨by simp [ConcurrentQueue.step, ChannelEvent.pushed, h.order], ?_,
        fun hwaiting => ?_⟩
      · simpa [ConcurrentQueue.step, ChannelEvent.popping] using h.calls
      · have hlen := h.awake hwaiting
        simp only [ConcurrentQueue.step, List.length_append, List.length_singleton]
        omega
  | notifyOne n =>
      simpa [ChannelEvent.pushed, ChannelEvent.popping] using h.notifyOne n
  | pop i =>
      have hcalls : (is ++ [i]).Perm
          (i :: (q.popped.map Prod.fst ++ (q.waiting ++ q.woken))) :=
        (List.perm_append_singleton i is).trans (h.calls.cons i)
      have htake : Inv (q.take i) xs (is ++ [i]) :=
        inv_take h.order hcalls fun hwaiting => Nat.le_succ_of_le (h.awake hwaiting)
      simpa [ConcurrentQueue.step, ChannelEvent.pushed, ChannelEvent.popping] using
        htake
  | resume i => simpa [ChannelEvent.pushed, ChannelEvent.popping] using h.resume i
  | wake i =>
      simpa [ConcurrentQueue.step, ChannelEvent.pushed, ChannelEvent.popping] using
        h.wakeUp i

theorem inv_run (events : List (ChannelEvent α ι)) :
    Inv (run events) (ChannelEvent.pushed events) (ChannelEvent.popping events) := by
  induction events using List.reverseRecOn with
  | nil => exact inv_start
  | append_singleton events event ih =>
      rw [run, List.foldl_append, ChannelEvent.pushed_append,
        ChannelEvent.popping_append]
      exact ih.step event

theorem underWay_wakeUp_le (q : ConcurrentQueue α ι) (i : ι) :
    (q.wakeUp i).underWay ≤ q.underWay + 1 := by
  rw [wakeUp]
  split
  · simp [underWay, Nat.add_assoc]
  · exact Nat.le_succ _

/-- What happens by itself comes to an end. -/
theorem Due.underWay_lt {event : ChannelEvent α ι} (h : q.Due event) :
    (q.step event).underWay < q.underWay := by
  cases event with
  | notifyOne n =>
      have hpos : q.notifying ≠ 0 := h
      simp only [step, if_neg hpos]
      split
      · simp only [underWay]
        omega
      · rename_i i _
        refine (underWay_wakeUp_le _ i).trans_lt ?_
        show 2 * (q.notifying - 1) + q.woken.length + 1 < _
        simp only [underWay]
        omega
  | resume i =>
      have hmem : i ∈ q.woken := h
      have hlength := List.length_erase_of_mem hmem
      have hpos := List.length_pos_of_mem hmem
      simp only [step, if_pos hmem]
      rw [underWay_take]
      simp only [underWay]
      omega
  | push _ => exact h.elim
  | pop _ => exact h.elim
  | wake _ => exact h.elim

theorem Settling.length_le {later : List (ChannelEvent α ι)} (h : q.Settling later) :
    later.length + (later.foldl step q).underWay ≤ q.underWay := by
  induction later generalizing q with
  | nil => simp
  | cons event later ih =>
      have hlt := Due.underWay_lt h.1
      have hrest := ih h.2
      rw [List.length_cons, List.foldl_cons]
      omega

/-- In any run, the elements come out in the order in which they went in, none
is lost or comes out twice, and each call of `pop` returns at most once.  And
whatever happened, what then happens by itself comes to an end, and when nothing
more does, as many calls have returned as there are elements for: nobody waits
while an element lies in the queue. -/
theorem queue_delivers {events later : List (ChannelEvent α ι)}
    (hlater : (run events).Settling later) :
    ∃ q, run (events ++ later) = q ∧
      ChannelEvent.pushed (events ++ later) = q.popped.map Prod.snd ++ q.queue ∧
      (ChannelEvent.popping (events ++ later)).Perm
        (q.popped.map Prod.fst ++ (q.waiting ++ q.woken)) ∧
      later.length ≤ (run events).underWay ∧
      ((∀ event, ¬ q.Due event) → q.popped.length =
        min (ChannelEvent.pushed (events ++ later)).length
          (ChannelEvent.popping (events ++ later)).length) := by
  have h := inv_run (events ++ later)
  have hlength := hlater.length_le
  refine ⟨_, rfl, h.order, h.calls, by omega, fun hdone => ?_⟩
  generalize run (events ++ later) = q at h hdone
  have hnone : q.underWay = 0 := by
    by_contra hpos
    obtain ⟨event, hdue⟩ := exists_due (Nat.pos_of_ne_zero hpos)
    exact hdone event hdue
  have horder := congrArg List.length h.order
  have hcalls := h.calls.length_eq
  simp only [List.length_append, List.length_map] at horder hcalls
  simp only [underWay] at hnone
  by_cases hwaiting : q.waiting = []
  · rw [hwaiting, List.length_nil] at hcalls
    omega
  · have hawake := h.awake hwaiting
    have hpos := List.length_pos_of_ne_nil hwaiting
    omega

/-- Three threads wait, and two pushes are notified together: both elements
come out in their order, and two calls have returned. -/
theorem queue_delivers_two :
    ∃ q, run [.pop 1, .pop 2, .pop 3, .push 7, .push 8, .wake 2, .notifyOne 0,
        .resume 2, .notifyOne 1, .resume 1, .resume 3] = q ∧
      [7, 8] = q.popped.map Prod.snd ++ q.queue ∧
      [1, 2, 3].Perm (q.popped.map Prod.fst ++ (q.waiting ++ q.woken)) ∧
      q.popped.length = 2 := by
  obtain ⟨q, hrun, horder, hcalls, -, hreturned⟩ := @queue_delivers Nat Nat _
    [.pop 1, .pop 2, .pop 3, .push 7, .push 8, .wake 2]
    [.notifyOne 0, .resume 2, .notifyOne 1, .resume 1, .resume 3] (by decide)
  refine ⟨q, hrun, horder, hcalls, hreturned fun event hdue => ?_⟩
  -- Neither a notification nor a woken thread is left.
  have hsettled : q.notifying = 0 ∧ q.woken = [] := by
    rw [← hrun]
    decide
  cases event with
  | notifyOne n => exact hdue hsettled.1
  | resume i =>
      have hmem : i ∈ q.woken := hdue
      rw [hsettled.2] at hmem
      cases hmem
  | push elem => exact hdue
  | pop i => exact hdue
  | wake i => exact hdue

end ConcurrentQueue

end Web3Core
