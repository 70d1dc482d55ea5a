/-
Conversations: two parties that take turns over a pair of streams.  Each of them
waits for a number of symbols, reads them, goes on to another state and says
something; when it does so is left open, and a line may break at any time.  If
either follows a script that fits the other one's, then the order of the turns
does not matter: nobody ever gets off the script, and unless something breaks
both get to its end.
-/
import Mathlib.Data.List.Basic
import Mathlib.Data.List.Infix
import Mathlib.Logic.Function.Basic
import Mathlib.Tactic.ByContra

namespace Web3Core

/-- A party: how many symbols it waits for, unless it is done; what it makes of
them, and what it says then. -/
structure Talker (σ α ε : Type) where
  wants : σ → Option Nat
  react : σ → List α → Except ε (σ × List α)

/-- A party and the line that leads to it.  What comes in over a line that is
broken is lost. -/
structure LineEnd (σ α : Type) where
  state : σ
  incoming : List α
  broken : Bool := false

/-- What happens in a conversation.  Where a line breaks, only so many of the
symbols on the way arrive. -/
inductive TalkEvent (φ : Type) where
  | turn (s : Bool)
  | fault (s : Bool) (f : φ)
  | sever (s : Bool) (left : Nat)

/-- What a party says at first, and then what it reads and what it says at each
of its turns. -/
structure Script (α : Type) where
  opening : List α
  turns : List (List α × List α)

abbrev Conversation (σ α : Type) := Bool → LineEnd σ α

variable {σ α ε φ : Type}

namespace LineEnd

/-- The other party says something. -/
def hear (e : LineEnd σ α) (b : List α) : LineEnd σ α :=
  if e.broken then e else { e with incoming := e.incoming ++ b }

end LineEnd

namespace Conversation

variable (m : Bool → Talker σ α ε) (disturb : φ → σ → σ)

/-- The party `s` has gone on to another state after it read `n` symbols. -/
def turned (c : Conversation σ α) (s : Bool) (n : Nat) (r : σ × List α) :
    Conversation σ α :=
  fun t => if t = s then
      { c s with state := r.1, incoming := (c s).incoming.drop n }
    else (c t).hear r.2

def step (c : Conversation σ α) :
    TalkEvent φ → Except ε (Conversation σ α)
  | .turn s =>
      match (m s).wants (c s).state with
      | none => .ok c
      | some n =>
          if (c s).incoming.length < n then .ok c
          else do
            let r ← (m s).react (c s).state ((c s).incoming.take n)
            .ok (c.turned s n r)
  | .fault s f =>
      .ok (Function.update c s { c s with state := disturb f (c s).state })
  | .sever s left =>
      .ok (Function.update c s
        { c s with incoming := (c s).incoming.take left, broken := true })

def run (c : Conversation σ α) (events : List (TalkEvent φ)) :
    Except ε (Conversation σ α) :=
  events.foldlM (step m disturb) c

end Conversation

namespace Script

variable (a : Script α)

/-- What is said up to the turn `k`. -/
def written (k : Nat) : List α :=
  a.opening ++ ((a.turns.take k).map Prod.snd).flatten

/-- What is read up to the turn `k`. -/
def consumed (k : Nat) : List α := ((a.turns.take k).map Prod.fst).flatten

variable {a} {k l : Nat} {t : List α × List α}

@[simp] theorem written_zero : a.written 0 = a.opening := by simp [written]

@[simp] theorem consumed_zero : a.consumed 0 = [] := by simp [consumed]

theorem written_succ (h : a.turns[k]? = some t) :
    a.written (k + 1) = a.written k ++ t.2 := by
  simp [written, List.take_add_one, h]

theorem consumed_succ (h : a.turns[k]? = some t) :
    a.consumed (k + 1) = a.consumed k ++ t.1 := by
  simp [consumed, List.take_add_one, h]

theorem written_prefix (h : k ≤ l) : a.written k <+: a.written l := by
  obtain ⟨rest, hrest⟩ := List.take_prefix_take_left h (l := a.turns)
  rw [written, written, ← hrest, List.map_append, List.flatten_append,
    ← List.append_assoc]
  exact List.prefix_append _ _

theorem consumed_prefix (h : k ≤ l) : a.consumed k <+: a.consumed l := by
  obtain ⟨rest, hrest⟩ := List.take_prefix_take_left h (l := a.turns)
  rw [consumed, consumed, ← hrest, List.map_append, List.flatten_append]
  exact List.prefix_append _ _

end Script

/-- The two scripts fit: what either reads is what the other one says. -/
def Fit (p : Bool → Script α) : Prop :=
  ∀ s, (p s).consumed (p s).turns.length <+:
    (p !s).written (p !s).turns.length

/-- From the points `k` of their scripts the party `s` can go on. -/
def CanTurn (p : Bool → Script α) (k : Bool → Nat) (s : Bool) : Prop :=
  k s < (p s).turns.length ∧
    ((p s).consumed (k s + 1)).length ≤ ((p !s).written (k !s)).length

instance (p : Bool → Script α) (k : Bool → Nat) (s : Bool) :
    Decidable (CanTurn p k s) :=
  inferInstanceAs (Decidable (_ ∧ _))

/-- The points after `s` got the chance of a turn. -/
def advance (p : Bool → Script α) (k : Bool → Nat) (s : Bool) : Bool → Nat :=
  if CanTurn p k s then Function.update k s (k s + 1) else k

/-- Nobody ever waits in vain: from any two points but the last ones somebody
can go on. -/
def Live (p : Bool → Script α) : Prop :=
  ∀ k : Bool → Nat, (∀ s, k s ≤ (p s).turns.length) →
    (∀ s, k s = (p s).turns.length) ∨ ∃ s, CanTurn p k s

/-- A party that follows a script: `At k` are the states it is in after `k` of
its turns, `Gone` those in which it has given up. -/
structure FollowsScript (m : Talker σ α ε) (p : Script α) (At : Nat → σ → Prop)
    (Gone : σ → Prop) : Prop where
  wants : ∀ k x, At k x → m.wants x = p.turns[k]?.map fun t => t.1.length
  gone : ∀ x, Gone x → m.wants x = none
  react : ∀ k x t, At k x → p.turns[k]? = some t →
    (∃ y, m.react x t.1 = .ok (y, t.2) ∧ At (k + 1) y) ∨
      ∃ y, m.react x t.1 = .ok (y, []) ∧ Gone y

/-- What goes wrong does not take the party anywhere else: it stays where it is
or gives up. -/
structure Endures (disturb : φ → σ → σ) (At : Nat → σ → Prop)
    (Gone : σ → Prop) : Prop where
  disturbed : ∀ f k x, At k x → At k (disturb f x) ∨ Gone (disturb f x)
  stays : ∀ f x, Gone x → Gone (disturb f x)

namespace Conversation

variable {m : Bool → Talker σ α ε} {disturb : φ → σ → σ}
  {p : Bool → Script α} {At : Bool → Nat → σ → Prop} {Gone : Bool → σ → Prop}

/-- Both parties are at the points `k` of their scripts, or have given up at
them; what is on the way to a party that has not is what it reads next. -/
structure OnScript (p : Bool → Script α) (At : Bool → Nat → σ → Prop)
    (Gone : Bool → σ → Prop) (k : Bool → Nat) (c : Conversation σ α) :
    Prop where
  bound : ∀ s, k s ≤ (p s).turns.length
  read : ∀ s, ((p s).consumed (k s)).length ≤
    ((p !s).written (k !s)).length
  state : ∀ s, At s (k s) (c s).state ∧
      (c s).incoming <+: ((p !s).written (k !s)).drop
        ((p s).consumed (k s)).length ∧
      ((c s).broken = false → (c s).incoming =
        ((p !s).written (k !s)).drop ((p s).consumed (k s)).length) ∨
    Gone s (c s).state

namespace OnScript

variable {k : Bool → Nat} {c : Conversation σ α} {s : Bool}

theorem eq_or_eq_not (s t : Bool) : t = s ∨ t = !s := by
  cases s <;> cases t <;> decide

/-- What comes next in the stream is what the script says. -/
theorem next_eq (hfit : Fit p) (h : OnScript p At Gone k c)
    {t : List α × List α} (ht : (p s).turns[k s]? = some t)
    (hin : (c s).incoming <+: ((p !s).written (k !s)).drop
      ((p s).consumed (k s)).length)
    (hlen : t.1.length ≤ (c s).incoming.length) :
    (c s).incoming.take t.1.length = t.1 := by
  have hlt := (List.getElem?_eq_some_iff.1 ht).1
  have hread : (p s).consumed (k s) ++ t.1 <+:
      (p !s).written (p !s).turns.length := by
    rw [← Script.consumed_succ ht]
    exact (Script.consumed_prefix hlt).trans (hfit s)
  obtain ⟨rest, hrest⟩ := hread
  obtain ⟨more, hmore⟩ := hin
  obtain ⟨tail, htail⟩ := Script.written_prefix (h.bound !s) (a := p !s)
  have hstream : (c s).incoming ++ (more ++ tail) = t.1 ++ rest := by
    rw [← List.append_assoc, hmore,
      ← List.drop_append_of_le_length (h.read s), htail, ← hrest,
      List.append_assoc, List.drop_left]
  have htake := congrArg (List.take t.1.length) hstream
  rwa [List.take_append_of_le_length hlen, List.take_left] at htake

/-- The other party hears what is said at a turn. -/
theorem hear (h : OnScript p At Gone k c)
    {t : List α × List α} (ht : (p s).turns[k s]? = some t)
    (hstate : At (!s) (k !s) (c !s).state ∧
      (c !s).incoming <+: ((p s).written (k s)).drop
        ((p !s).consumed (k !s)).length ∧
      ((c !s).broken = false → (c !s).incoming =
        ((p s).written (k s)).drop ((p !s).consumed (k !s)).length)) :
    At (!s) (k !s) ((c !s).hear t.2).state ∧
      ((c !s).hear t.2).incoming <+: ((p s).written (k s + 1)).drop
        ((p !s).consumed (k !s)).length ∧
      (((c !s).hear t.2).broken = false → ((c !s).hear t.2).incoming =
        ((p s).written (k s + 1)).drop ((p !s).consumed (k !s)).length) := by
  obtain ⟨hat, hin, hall⟩ := hstate
  have hread := h.read !s
  rw [Bool.not_not] at hread
  rw [Script.written_succ ht, List.drop_append_of_le_length hread]
  by_cases hbroken : (c !s).broken
  · have hsame : (c !s).hear t.2 = c !s := by
      rw [LineEnd.hear, if_pos hbroken]
    rw [hsame]
    refine ⟨hat, hin.trans (List.prefix_append _ _), ?_⟩
    intro hnot
    rw [hbroken] at hnot
    cases hnot
  · have hmore : (c !s).hear t.2 =
        { c !s with incoming := (c !s).incoming ++ t.2 } := by
      rw [LineEnd.hear, if_neg hbroken]
    rw [hmore, hall (by simpa using hbroken)]
    exact ⟨hat, List.prefix_rfl, fun _ => rfl⟩

/-- A turn of a party that follows its script: it goes on or gives up. -/
theorem turn (hfit : Fit p) (hfollows : FollowsScript (m s) (p s) (At s) (Gone s))
    (h : OnScript p At Gone k c) {t : List α × List α}
    (ht : (p s).turns[k s]? = some t) (hat : At s (k s) (c s).state)
    (hin : (c s).incoming <+: ((p !s).written (k !s)).drop
      ((p s).consumed (k s)).length)
    (hall : (c s).broken = false → (c s).incoming =
      ((p !s).written (k !s)).drop ((p s).consumed (k s)).length)
    (hlen : t.1.length ≤ (c s).incoming.length) :
    ∃ c', c.step m disturb (.turn s) = .ok c' ∧
      (OnScript p At Gone (Function.update k s (k s + 1)) c' ∨
        OnScript p At Gone k c' ∧ Gone s (c' s).state) := by
  have hwants : (m s).wants (c s).state = some t.1.length := by
    rw [hfollows.wants _ _ hat, ht, Option.map_some]
  have hstep : c.step m disturb (.turn s) =
      (m s).react (c s).state t.1 >>= fun r =>
        .ok (c.turned s t.1.length r) := by
    rw [step, hwants]
    simp only [if_neg (not_lt.2 hlen), h.next_eq hfit ht hin hlen]
  have hlt := (List.getElem?_eq_some_iff.1 ht).1
  have hnext := Script.consumed_succ ht
  rcases hfollows.react _ _ _ hat ht with ⟨y, hreact, hy⟩ | ⟨y, hreact, hy⟩
  · refine ⟨_, by rw [hstep, hreact]; rfl, .inl ⟨?_, ?_, ?_⟩⟩
    · intro r
      rcases eq_or_eq_not s r with rfl | rfl
      · rw [Function.update_self]
        exact hlt
      · rw [Function.update_of_ne (by simp)]
        exact h.bound _
    · intro r
      rcases eq_or_eq_not s r with rfl | rfl
      · rw [Function.update_self, Function.update_of_ne (by simp), hnext,
          List.length_append]
        have hle := hin.length_le
        rw [List.length_drop] at hle
        have := h.read r
        omega
      · have hread := h.read !s
        rw [Bool.not_not] at hread ⊢
        rw [Function.update_self, Function.update_of_ne (by simp),
          Script.written_succ ht, List.length_append]
        omega
    · intro r
      rcases eq_or_eq_not s r with rfl | rfl
      · have hsame : Function.update k r (k r + 1) (!r) = k !r :=
          Function.update_of_ne (by simp) _ _
        rw [Function.update_self, hsame, hnext, List.length_append,
          ← List.drop_drop]
        simp only [turned, if_pos]
        refine .inl ⟨hy, hin.drop _, fun hbroken => ?_⟩
        rw [hall hbroken]
      · have hother := h.state !s
        have hsame : Function.update k s (k s + 1) (!s) = k !s :=
          Function.update_of_ne (by simp) _ _
        rw [Bool.not_not] at hother ⊢
        rw [Function.update_self, hsame]
        have hnot : ¬ (!s) = s := by simp
        simp only [turned, if_neg hnot]
        rcases hother with hstate | hgone
        · exact .inl (h.hear ht hstate)
        · refine .inr ?_
          rw [LineEnd.hear]
          split <;> exact hgone
  · refine ⟨_, by rw [hstep, hreact]; rfl, .inr ⟨⟨h.bound, h.read, ?_⟩, ?_⟩⟩
    · intro r
      rcases eq_or_eq_not s r with rfl | rfl
      · refine .inr ?_
        simp only [turned, if_pos]
        exact hy
      · have hnot : ¬ (!s) = s := by simp
        have hhear : (c !s).hear [] = c !s := by
          rw [LineEnd.hear, List.append_nil]
          split <;> rfl
        simp only [turned, if_neg hnot, hhear]
        exact h.state !s
    · simp only [turned, if_pos]
      exact hy

/-- Whatever happens, the parties stay on their scripts. -/
theorem step (hfit : Fit p)
    (hfollows : ∀ s, FollowsScript (m s) (p s) (At s) (Gone s))
    (hendures : ∀ s, Endures disturb (At s) (Gone s))
    (h : OnScript p At Gone k c) (event : TalkEvent φ) :
    ∃ c' k', c.step m disturb event = .ok c' ∧ OnScript p At Gone k' c' := by
  cases event with
  | turn s =>
      rcases h.state s with ⟨hat, hin, hall⟩ | hgone
      · cases ht : (p s).turns[k s]? with
        | none =>
            have hwants := (hfollows s).wants _ _ hat
            rw [ht, Option.map_none] at hwants
            exact ⟨c, k, by rw [Conversation.step, hwants], h⟩
        | some t =>
            by_cases hlen : t.1.length ≤ (c s).incoming.length
            · obtain ⟨c', hstep, hnext | ⟨hsame, -⟩⟩ :=
                h.turn hfit (hfollows s) ht hat hin hall hlen
              · exact ⟨c', _, hstep, hnext⟩
              · exact ⟨c', k, hstep, hsame⟩
            · have hwants := (hfollows s).wants _ _ hat
              rw [ht, Option.map_some] at hwants
              refine ⟨c, k, ?_, h⟩
              rw [Conversation.step, hwants]
              exact if_pos (by omega)
      · exact ⟨c, k, by rw [Conversation.step, (hfollows s).gone _ hgone], h⟩
  | fault s f =>
      refine ⟨_, k, rfl, h.bound, h.read, fun r => ?_⟩
      rcases eq_or_eq_not s r with rfl | rfl
      · rw [Function.update_self]
        rcases h.state r with ⟨hat, hin, hall⟩ | hgone
        · rcases (hendures r).disturbed f _ _ hat with hstill | hleft
          · exact .inl ⟨hstill, hin, hall⟩
          · exact .inr hleft
        · exact .inr ((hendures r).stays f _ hgone)
      · rw [Function.update_of_ne (by simp)]
        exact h.state !s
  | sever s left =>
      refine ⟨_, k, rfl, h.bound, h.read, fun r => ?_⟩
      rcases eq_or_eq_not s r with rfl | rfl
      · rw [Function.update_self]
        rcases h.state r with ⟨hat, hin, -⟩ | hgone
        · refine .inl ⟨hat, (List.take_prefix _ _).trans hin, ?_⟩
          intro hbroken
          cases hbroken
        · exact .inr hgone
      · rw [Function.update_of_ne (by simp)]
        exact h.state !s

/-- When nothing breaks and nobody gives up, a turn is taken if it can be. -/
theorem advance (hfit : Fit p)
    (hfollows : ∀ s, FollowsScript (m s) (p s) (At s) fun _ => False)
    (h : OnScript p At (fun _ _ => False) k c)
    (hbroken : ∀ s, (c s).broken = false) (s : Bool) :
    ∃ c', c.step m disturb (.turn s) = .ok c' ∧
      OnScript p At (fun _ _ => False) (advance p k s) c' ∧
      ∀ s, (c' s).broken = false := by
  rcases h.state s with ⟨hat, hin, hall⟩ | hgone
  · have hlength := congrArg List.length (hall (hbroken s))
    rw [List.length_drop] at hlength
    cases ht : (p s).turns[k s]? with
    | none =>
        have hwants := (hfollows s).wants _ _ hat
        rw [ht, Option.map_none] at hwants
        have hcannot : ¬ CanTurn p k s := fun hcan =>
          absurd hcan.1 (not_lt.2 (List.getElem?_eq_none_iff.1 ht))
        rw [Web3Core.advance, if_neg hcannot]
        exact ⟨c, by rw [Conversation.step, hwants], h, hbroken⟩
    | some t =>
        have hlt := (List.getElem?_eq_some_iff.1 ht).1
        have hnext := congrArg List.length (Script.consumed_succ ht)
        rw [List.length_append] at hnext
        have hread := h.read s
        by_cases hlen : t.1.length ≤ (c s).incoming.length
        · have hcan : CanTurn p k s := ⟨hlt, by omega⟩
          obtain ⟨c', hstep, hnext | ⟨-, hgone⟩⟩ :=
            h.turn hfit (hfollows s) ht hat hin hall hlen
          · rw [Web3Core.advance, if_pos hcan]
            refine ⟨c', hstep, hnext, ?_⟩
            have hwants := (hfollows s).wants _ _ hat
            rw [ht, Option.map_some] at hwants
            rw [Conversation.step, hwants] at hstep
            simp only [if_neg (not_lt.2 hlen)] at hstep
            cases hreact : (m s).react (c s).state
                ((c s).incoming.take t.1.length) with
            | error e =>
                rw [hreact] at hstep
                cases hstep
            | ok r =>
                rw [hreact] at hstep
                cases hstep
                intro r'
                simp only [turned]
                split
                · exact hbroken s
                · rw [LineEnd.hear, if_neg (by simp [hbroken r'])]
                  exact hbroken r'
          · exact hgone.elim
        · have hcannot : ¬ CanTurn p k s := fun hcan => by
            have hle := hcan.2
            omega
          have hwants := (hfollows s).wants _ _ hat
          rw [ht, Option.map_some] at hwants
          rw [Web3Core.advance, if_neg hcannot]
          refine ⟨c, ?_, h, hbroken⟩
          rw [Conversation.step, hwants]
          exact if_pos (by omega)
  · exact hgone.elim

end OnScript

variable {x : Bool → σ} {k : Bool → Nat} {c : Conversation σ α}

/-- Two parties that have said their openings. -/
def opened (p : Bool → Script α) (x : Bool → σ) : Conversation σ α :=
  fun s => { state := x s, incoming := (p !s).opening }

theorem onScript_opened (h : ∀ s, At s 0 (x s)) :
    OnScript p At Gone (fun _ => 0) (opened p x) := by
  refine ⟨fun _ => Nat.zero_le _, fun s => by simp, fun s => .inl ⟨h s, ?_⟩⟩
  simp [opened]

/-- Whatever happens, both parties stay on their scripts. -/
theorem exists_run_onScript (hfit : Fit p)
    (hfollows : ∀ s, FollowsScript (m s) (p s) (At s) (Gone s))
    (hendures : ∀ s, Endures disturb (At s) (Gone s))
    (h : OnScript p At Gone k c) (events : List (TalkEvent φ)) :
    ∃ c' k', c.run m disturb events = .ok c' ∧ OnScript p At Gone k' c' := by
  induction events generalizing c k with
  | nil => exact ⟨c, k, rfl, h⟩
  | cons event events ih =>
      obtain ⟨c', k', hstep, hnext⟩ := h.step hfit hfollows hendures event
      obtain ⟨last, l, hrun, hlast⟩ := ih hnext
      refine ⟨last, l, ?_, hlast⟩
      rw [run, List.foldlM_cons, hstep]
      exact hrun

/-- A run of turns. -/
theorem exists_run_turns (hfit : Fit p)
    (hfollows : ∀ s, FollowsScript (m s) (p s) (At s) fun _ => False)
    (h : OnScript p At (fun _ _ => False) k c)
    (hbroken : ∀ s, (c s).broken = false) (turns : List Bool) :
    ∃ c', c.run m disturb (turns.map .turn) = .ok c' ∧
      OnScript p At (fun _ _ => False) (turns.foldl (advance p) k) c' := by
  induction turns generalizing c k with
  | nil => exact ⟨c, rfl, h⟩
  | cons s turns ih =>
      obtain ⟨c', hstep, hnext, hunbroken⟩ := h.advance hfit hfollows hbroken s
      obtain ⟨last, hrun, hlast⟩ := ih hnext hunbroken
      refine ⟨last, ?_, hlast⟩
      rw [run, List.map_cons, List.foldlM_cons, hstep]
      exact hrun

end Conversation

/-! How far the chances of a turn take the two parties. -/

section Rounds

variable {p : Bool → Script α} {k : Bool → Nat} {s r : Bool} {turns : List Bool}

theorem canTurn_of_le {n l : Nat} (hlt : k s < (p s).turns.length)
    (hn : k s + 1 ≤ n) (hl : l ≤ k !s)
    (h : ((p s).consumed n).length ≤ ((p !s).written l).length) :
    CanTurn p k s :=
  ⟨hlt, (Script.consumed_prefix hn).length_le.trans
    (h.trans (Script.written_prefix hl).length_le)⟩

theorem le_advance : k r ≤ advance p k s r := by
  rw [advance]
  split
  · by_cases h : r = s
    · subst h
      simp
    · rw [Function.update_of_ne h]
  · exact le_rfl

theorem advance_le (h : ∀ r, k r ≤ (p r).turns.length) :
    advance p k s r ≤ (p r).turns.length := by
  rw [advance]
  split
  · rename_i hcan
    by_cases hr : r = s
    · subst hr
      rw [Function.update_self]
      exact hcan.1
    · rw [Function.update_of_ne hr]
      exact h r
  · exact h r

theorem le_foldl_advance : k r ≤ turns.foldl (advance p) k r := by
  induction turns generalizing k with
  | nil => exact le_rfl
  | cons s turns ih => exact le_advance.trans ih

theorem foldl_advance_le (h : ∀ r, k r ≤ (p r).turns.length) :
    turns.foldl (advance p) k r ≤ (p r).turns.length := by
  induction turns generalizing k with
  | nil => exact h r
  | cons s turns ih => exact ih fun r => advance_le h

/-- Who can go on can still do so after a turn of the other party. -/
theorem CanTurn.advance (h : CanTurn p k s) (hne : s ≠ r) :
    CanTurn p (advance p k r) s := by
  have hsame : Web3Core.advance p k r s = k s := by
    rw [Web3Core.advance]
    split
    · exact Function.update_of_ne hne _ _
    · rfl
  refine ⟨by rw [hsame]; exact h.1, ?_⟩
  rw [hsame]
  exact h.2.trans (Script.written_prefix le_advance).length_le

/-- Who can go on does so at the first chance. -/
theorem CanTurn.lt_foldl (h : CanTurn p k s) (hmem : s ∈ turns) :
    k s < turns.foldl (Web3Core.advance p) k s := by
  induction turns generalizing k with
  | nil => cases hmem
  | cons r turns ih =>
      by_cases hne : s = r
      · subst hne
        have hnext : Web3Core.advance p k s s = k s + 1 := by
          rw [Web3Core.advance, if_pos h, Function.update_self]
        have hlater := @le_foldl_advance _ p (Web3Core.advance p k s) s turns
        rw [hnext] at hlater
        exact hlater
      · have hrest : s ∈ turns := by simpa [hne] using hmem
        exact Nat.lt_of_le_of_lt le_advance (ih (h.advance hne) hrest)

/-- In rounds in which both parties get their chance they come to the end. -/
theorem foldl_rounds (hlive : Live p) {rounds : List (List Bool)}
    (hboth : ∀ turns ∈ rounds, ∀ s, s ∈ turns)
    (hbound : ∀ s, k s ≤ (p s).turns.length)
    (henough : (p true).turns.length + (p false).turns.length ≤
      k true + k false + rounds.length) (s : Bool) :
    rounds.flatten.foldl (advance p) k s = (p s).turns.length := by
  induction rounds generalizing k with
  | nil =>
      have htrue := hbound true
      have hfalse := hbound false
      rw [List.length_nil] at henough
      cases s
      · simp only [List.flatten_nil, List.foldl_nil]
        omega
      · simp only [List.flatten_nil, List.foldl_nil]
        omega
  | cons turns rounds ih =>
      rw [List.flatten_cons, List.foldl_append]
      rcases hlive k hbound with hdone | ⟨r, hcan⟩
      · refine le_antisymm (foldl_advance_le fun r => foldl_advance_le hbound) ?_
        rw [← hdone s]
        exact le_foldl_advance.trans le_foldl_advance
      · refine ih (fun turns hturns => hboth turns (List.mem_cons_of_mem _ hturns))
          (fun r => foldl_advance_le hbound) ?_
        have hlt := hcan.lt_foldl (hboth turns List.mem_cons_self r)
        have hle := fun r => @le_foldl_advance _ p k r turns
        have htrue := hle true
        have hfalse := hle false
        rw [List.length_cons] at henough
        cases r <;> omega

end Rounds

/-- When nothing breaks, enough rounds in which both parties get their chance
take them to the end of their scripts. -/
theorem Conversation.exists_run_rounds {m : Bool → Talker σ α ε}
    {disturb : φ → σ → σ} {p : Bool → Script α} {At : Bool → Nat → σ → Prop}
    {x : Bool → σ} (hfit : Fit p) (hlive : Live p)
    (hfollows : ∀ s, FollowsScript (m s) (p s) (At s) fun _ => False)
    (h : ∀ s, At s 0 (x s)) {rounds : List (List Bool)}
    (hboth : ∀ turns ∈ rounds, ∀ s, s ∈ turns)
    (henough : (p true).turns.length + (p false).turns.length ≤ rounds.length) :
    ∃ c, (opened p x).run m disturb (rounds.flatten.map .turn) = .ok c ∧
      ∀ s, At s (p s).turns.length (c s).state := by
  have hopened : OnScript p At (fun _ _ => False) (fun _ => 0) (opened p x) :=
    onScript_opened h
  obtain ⟨c, hrun, hlast⟩ : ∃ c, (opened p x).run m disturb
      (rounds.flatten.map .turn) = .ok c ∧ OnScript p At (fun _ _ => False)
        (rounds.flatten.foldl (advance p) fun _ => 0) c :=
    exists_run_turns hfit hfollows hopened (fun _ => rfl) rounds.flatten
  refine ⟨c, hrun, fun s => ?_⟩
  have hend := foldl_rounds hlive hboth (fun _ => Nat.zero_le _)
    (k := fun _ => 0) (by omega) s
  have hstate := hlast.state s
  rw [hend] at hstate
  rcases hstate with ⟨hat, -⟩ | hgone
  · exact hat
  · exact hgone.elim

end Web3Core
