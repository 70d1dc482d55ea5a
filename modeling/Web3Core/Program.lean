/-
Programs that reach their environment only through commands.  A program is
the tree of its commands; a handler answers a command and moves the state of
the environment.  The same program can be run against any handler, and what
it issued can be read off the run, so that an assumption about the issued
commands (no two written images collide, say) is stated about the run itself.
-/
import Mathlib.Data.List.Basic

namespace Web3Core

/-- A computation over commands `E`, where `c : E` is answered by an `R c`,
that ends in a value or in an exception `ε`. -/
inductive Program (E : Type) (R : E → Type) (ε α : Type) where
  | done (value : α)
  | throw (error : ε)
  | call (command : E) (next : R command → Program E R ε α)

namespace Program

variable {E : Type} {R : E → Type} {ε α β γ σ : Type}

/-- Run the first program and hand its value to the second. -/
def bind (p : Program E R ε α) (f : α → Program E R ε β) : Program E R ε β :=
  match p with
  | .done value => f value
  | .throw error => .throw error
  | .call command next => .call command fun answer => (next answer).bind f

instance : Monad (Program E R ε) where
  pure := .done
  bind := bind

instance : LawfulMonad (Program E R ε) :=
  LawfulMonad.mk' (m := Program E R ε)
    (fun p => by
      induction p with
      | done value => rfl
      | throw error => rfl
      | call command next ih =>
          exact congrArg (Program.call command) (funext ih))
    (fun _ _ => rfl)
    (fun p _ _ => by
      induction p with
      | done value => rfl
      | throw error => rfl
      | call command next ih =>
          exact congrArg (Program.call command) (funext ih))

/-- A computation without commands. -/
def ofExcept : Except ε α → Program E R ε α
  | .ok value => .done value
  | .error error => .throw error

instance : MonadLift (Except ε) (Program E R ε) := ⟨ofExcept⟩

theorem liftM_ok_bind (value : α) (f : α → Program E R ε β) :
    ((liftM (.ok value : Except ε α) : Program E R ε α) >>= f) = f value := rfl

/-- `if (condition) p;` -/
def onlyIf (condition : Bool) (p : Program E R ε Unit) : Program E R ε Unit :=
  if condition then p else pure ()

/-- `try { p } catch (...) { q }`. -/
def orElse (p q : Program E R ε α) : Program E R ε α :=
  match p with
  | .done value => .done value
  | .throw _ => q
  | .call command next => .call command fun answer => (next answer).orElse q

/-- How an environment with states `σ` answers a command. -/
abbrev Handler (E : Type) (R : E → Type) (σ : Type) :=
  (command : E) → σ → R command × σ

/-- The outcome of a run and the state it leaves.  An exception does not undo
what the commands before it did. -/
def run (H : Handler E R σ) : Program E R ε α → σ → Except ε α × σ
  | .done value, s => (.ok value, s)
  | .throw error, s => (.error error, s)
  | .call command next, s => run H (next (H command s).1) (H command s).2

/-- The commands a run issues, in order. -/
def commands (H : Handler E R σ) : Program E R ε α → σ → List E
  | .done _, _ => []
  | .throw _, _ => []
  | .call command next, s =>
      command :: commands H (next (H command s).1) (H command s).2

/-- `p` ends without an exception in a value and a state that satisfy `Q`,
provided every command it issues satisfies `A`. -/
def wp (H : Handler E R σ) (A : E → Prop) :
    Program E R ε α → σ → (α → σ → Prop) → Prop
  | .done value, s, Q => Q value s
  | .throw _, _, _ => False
  | .call command next, s, Q =>
      A command → wp H A (next (H command s).1) (H command s).2 Q

/-- `p` ends in an exception, provided every command it issues satisfies
`A`. -/
def fails (H : Handler E R σ) (A : E → Prop) : Program E R ε α → σ → Prop
  | .done _, _ => False
  | .throw _, _ => True
  | .call command next, s =>
      A command → fails H A (next (H command s).1) (H command s).2

variable {H : Handler E R σ} {A : E → Prop} {Q Q' : α → σ → Prop} {s : σ}

@[simp] theorem wp_pure (value : α) :
    wp H A (pure value : Program E R ε α) s Q ↔ Q value s := Iff.rfl

@[simp] theorem wp_done (value : α) :
    wp H A (.done value : Program E R ε α) s Q ↔ Q value s := Iff.rfl

@[simp] theorem wp_throw (error : ε) :
    ¬ wp H A (.throw error : Program E R ε α) s Q := id

theorem wp_bind (p : Program E R ε α) (f : α → Program E R ε β)
    {Q : β → σ → Prop} :
    wp H A (p >>= f) s Q ↔ wp H A p s fun value s' => wp H A (f value) s' Q := by
  induction p generalizing s with
  | done value => exact Iff.rfl
  | throw error => exact Iff.rfl
  | call command next ih => exact imp_congr_right fun _ => ih _

/-- The rule of consequence. -/
theorem wp_mono {p : Program E R ε α} (h : wp H A p s Q)
    (himp : ∀ value s', Q value s' → Q' value s') : wp H A p s Q' := by
  induction p generalizing s with
  | done value => exact himp _ _ h
  | throw error => exact h
  | call command next ih => exact fun hA => ih _ (h hA)

/-- Nothing is caught where nothing is thrown. -/
theorem wp_orElse {p : Program E R ε α} (q : Program E R ε α)
    (h : wp H A p s Q) : wp H A (p.orElse q) s Q := by
  induction p generalizing s with
  | done value => exact h
  | throw error => exact h.elim
  | call command next ih => exact fun hA => ih _ (h hA)

/-- Sequencing with a specification of the first part. -/
theorem wp_bind_of {p : Program E R ε α} {f : α → Program E R ε β}
    {Q' : β → σ → Prop} (hp : wp H A p s Q)
    (hf : ∀ value s', Q value s' → wp H A (f value) s' Q') :
    wp H A (p >>= f) s Q' :=
  (wp_bind p f).2 (wp_mono hp hf)

@[simp] theorem wp_ok (value : α) :
    wp H A (liftM (.ok value : Except ε α) : Program E R ε α) s Q ↔ Q value s :=
  Iff.rfl

@[simp] theorem wp_ok_bind (value : α) (f : α → Program E R ε β)
    {Q : β → σ → Prop} :
    wp H A ((liftM (.ok value : Except ε α) : Program E R ε α) >>= f) s Q ↔
      wp H A (f value) s Q :=
  Iff.rfl

/-- A counted loop keeps an invariant that knows the counter. -/
theorem wp_range {n : Nat} {f : β → Nat → Program E R ε β}
    {I : Nat → β → σ → Prop}
    (hstep : ∀ i < n, ∀ acc s, I i acc s → wp H A (f acc i) s (I (i + 1)))
    {acc : β} (h : I 0 acc s) :
    wp H A ((List.range n).foldlM f acc) s (I n) := by
  induction n with
  | zero => exact h
  | succ n ih =>
      rw [List.range_succ, List.foldlM_append]
      refine wp_bind_of (ih fun i hi => hstep i (Nat.lt_succ_of_lt hi)) ?_
      intro acc' s' hI
      rw [List.foldlM_cons]
      refine wp_bind_of (hstep n (Nat.lt_succ_self n) acc' s' hI) ?_
      exact fun acc'' s'' hI' => hI'

/-- What `wp` promises holds of the run, once the issued commands are known
to satisfy the assumption. -/
theorem exists_run_of_wp {p : Program E R ε α} (h : wp H A p s Q)
    (hA : ∀ command ∈ commands H p s, A command) :
    ∃ value s', run H p s = (.ok value, s') ∧ Q value s' := by
  induction p generalizing s with
  | done value => exact ⟨value, s, rfl, h⟩
  | throw error => exact h.elim
  | call command next ih =>
      exact ih _ (h (hA command List.mem_cons_self))
        fun c hc => hA c (List.mem_cons_of_mem command hc)

@[simp] theorem fails_ok_bind (value : α) (f : α → Program E R ε β) :
    fails H A ((liftM (.ok value : Except ε α) : Program E R ε α) >>= f) s ↔
      fails H A (f value) s :=
  Iff.rfl

/-- An exception in the first part ends the whole. -/
theorem fails_bind_left {p : Program E R ε α} (h : fails H A p s)
    (f : α → Program E R ε β) : fails H A (p >>= f) s := by
  induction p generalizing s with
  | done value => exact h.elim
  | throw error => exact h
  | call command next ih => exact fun hA => ih _ (h hA)

/-- An exception in the second part, with a specification of the first. -/
theorem fails_bind_of {p : Program E R ε α} {f : α → Program E R ε β}
    (hp : wp H A p s Q) (hf : ∀ value s', Q value s' → fails H A (f value) s') :
    fails H A (p >>= f) s := by
  induction p generalizing s with
  | done value => exact hf _ _ hp
  | throw error => exact hp.elim
  | call command next ih => exact fun hA => ih _ (hp hA)

/-- What `fails` promises holds of the run, once the issued commands are known
to satisfy the assumption. -/
theorem exists_error_of_fails {p : Program E R ε α} (h : fails H A p s)
    (hA : ∀ command ∈ commands H p s, A command) :
    ∃ error s', run H p s = (.error error, s') := by
  induction p generalizing s with
  | done value => exact h.elim
  | throw error => exact ⟨error, s, rfl⟩
  | call command next ih =>
      exact ih _ (h (hA command List.mem_cons_self))
        fun c hc => hA c (List.mem_cons_of_mem command hc)

theorem run_bind (p : Program E R ε α) (f : α → Program E R ε β) :
    run H (p >>= f) s =
      match run H p s with
      | (.ok value, s') => run H (f value) s'
      | (.error error, s') => (.error error, s') := by
  induction p generalizing s with
  | done value => rfl
  | throw error => rfl
  | call command next ih => exact ih _

theorem commands_bind (p : Program E R ε α) (f : α → Program E R ε β) :
    commands H (p >>= f) s =
      commands H p s ++
        match run H p s with
        | (.ok value, s') => commands H (f value) s'
        | (.error _, _) => [] := by
  induction p generalizing s with
  | done value => rfl
  | throw error => rfl
  | call command next ih => exact congrArg (List.cons command) (ih _)

/-- A run of two programs in a row, with a specification of the first. -/
theorem exists_run_bind {p : Program E R ε α} {f : α → Program E R ε β}
    (hp : wp H A p s Q) (hA : ∀ command ∈ commands H (p >>= f) s, A command) :
    ∃ value s', run H p s = (.ok value, s') ∧ Q value s' ∧
      run H (p >>= f) s = run H (f value) s' ∧
      ∀ command ∈ commands H (f value) s', A command := by
  rw [commands_bind] at hA
  obtain ⟨value, s', hrun, hQ⟩ := exists_run_of_wp hp
    fun command hmem => hA command (List.mem_append_left _ hmem)
  rw [hrun] at hA
  refine ⟨value, s', hrun, hQ, ?_, fun command hmem =>
    hA command (List.mem_append_right _ hmem)⟩
  rw [run_bind, hrun]

/-- What every answer keeps, a run keeps, whether it ends in an exception or
not. -/
theorem run_keeps {I : σ → Prop} (hstep : ∀ command s, I s → I (H command s).2)
    (p : Program E R ε α) (hI : I s) : I (run H p s).2 := by
  induction p generalizing s with
  | done value => exact hI
  | throw error => exact hI
  | call command next ih => exact ih _ (hstep command s hI)

/-- Whatever it is answered, a program issues only commands that satisfy
`P`. -/
def Issues (P : E → Prop) : Program E R ε α → Prop
  | .done _ => True
  | .throw _ => True
  | .call command next => P command ∧ ∀ answer, Issues P (next answer)

variable {P : E → Prop}

theorem issues_bind {p : Program E R ε α} {f : α → Program E R ε β}
    (hp : Issues P p) (hf : ∀ value, Issues P (f value)) :
    Issues P (p >>= f) := by
  induction p with
  | done value => exact hf value
  | throw error => trivial
  | call command next ih => exact ⟨hp.1, fun answer => ih answer (hp.2 answer)⟩

theorem issues_pure (value : α) :
    Issues P (pure value : Program E R ε α) := trivial

theorem issues_liftM (x : Except ε α) :
    Issues P (liftM x : Program E R ε α) := by
  cases x <;> trivial

theorem issues_ite {c : Prop} [Decidable c] {p q : Program E R ε α}
    (hp : Issues P p) (hq : Issues P q) : Issues P (if c then p else q) := by
  split
  · exact hp
  · exact hq

theorem issues_foldlM {f : β → α → Program E R ε β}
    (hf : ∀ acc x, Issues P (f acc x)) (xs : List α) (acc : β) :
    Issues P (xs.foldlM f acc) := by
  induction xs generalizing acc with
  | nil => trivial
  | cons x xs ih => exact issues_bind (hf acc x) ih

/-- Beside what is proved of a program, its commands keep an invariant. -/
theorem wp_keeps {p : Program E R ε α} {I : σ → Prop} (h : wp H A p s Q)
    (hp : Issues P p)
    (hstep : ∀ command s, A command → P command → I s → I (H command s).2)
    (hI : I s) : wp H A p s fun value s' => Q value s' ∧ I s' := by
  induction p generalizing s with
  | done value => exact ⟨h, hI⟩
  | throw error => exact h
  | call command next ih =>
      exact fun hA => ih _ (h hA) (hp.2 _) (hstep command s hA hp.1 hI)

end Program

/-- A computation over a state at hand.  An exception does not undo what was
done before it, here either. -/
abbrev Stateful (ε σ α : Type) := ExceptT ε (StateM σ) α

namespace Stateful

variable {ε σ α β : Type} {p : Stateful ε σ α} {s s' : σ}

/-- A computation that neither reads nor changes the state. -/
def ofResult (x : Except ε α) : Stateful ε σ α := fun s => (x, s)

theorem bind_of_ok {value : α} (h : p s = (.ok value, s'))
    (f : α → Stateful ε σ β) : (p >>= f) s = f value s' := by
  show (match p s with | (x, s') => ExceptT.bindCont f x s') = f value s'
  rw [h]
  rfl

theorem bind_of_error {error : ε} (h : p s = (.error error, s'))
    (f : α → Stateful ε σ β) : (p >>= f) s = (.error error, s') := by
  show (match p s with | (x, s') => ExceptT.bindCont f x s') = _
  rw [h]
  rfl

end Stateful

end Web3Core
