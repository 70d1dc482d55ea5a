/-
The database a trie works on, the `_DB` parameter of `GenericTrieDB`: what the
trie may ask of it, and the laws that the databases of the library share.
Contents are looked up by hash; reference counts are only counted, as long as
none of them wraps.
-/
import Web3Core.Bytes
import Web3Core.Program

namespace Web3Core

/-- What a trie asks of its database. -/
inductive DBCommand where
  | lookup (h : H256)
  | exists (h : H256)
  | insert (h : H256) (v : Bytes)
  | kill (h : H256)
  | keys

abbrev DBAnswer : DBCommand → Type
  | .lookup _ => Bytes
  | .exists _ => Bool
  | .insert _ _ => Unit
  | .kill _ => Unit
  | .keys => List H256

/-- A computation over a database. -/
abbrev DBProgram (α : Type) := Program DBCommand DBAnswer Exception α

/-- The operations of a database. -/
class DB (σ : Type) where
  lookup : σ → H256 → Bytes
  holds : σ → H256 → Bool
  insert : σ → H256 → Bytes → σ
  kill : σ → H256 → σ
  keys : σ → List H256

/-- How a database answers. -/
def DB.handler {σ : Type} [DB σ] : Program.Handler DBCommand DBAnswer σ
  | .lookup h, s => (DB.lookup s h, s)
  | .exists h, s => (DB.holds s h, s)
  | .insert h v, s => ((), DB.insert s h v)
  | .kill h, s => ((), DB.kill s h)
  | .keys, s => (DB.keys s, s)

/-- A database that counts references and keeps the contents of killed
entries, as long as it does not enforce the counts. -/
class LawfulDB (σ : Type) extends DB σ where
  /-- The counts are not enforced. -/
  Lax : σ → Prop
  count : σ → H256 → Nat
  /-- A count has been increased beyond what it can hold. -/
  Wrapped : σ → Prop
  lax_insert (s : σ) (h : H256) (v : Bytes) : Lax s → Lax (insert s h v)
  lax_kill (s : σ) (h : H256) : Lax s → Lax (kill s h)
  lookup_insert (s : σ) (h : H256) (v : Bytes) : Lax s → v ≠ [] → ∀ h',
    lookup (insert s h v) h' = if h' = h then v else lookup s h'
  lookup_kill (s : σ) (h : H256) : Lax s → ∀ h',
    lookup (kill s h) h' = lookup s h'
  holds_of_lookup (s : σ) (h : H256) : Lax s → lookup s h ≠ [] →
    holds s h = true
  wrapped_insert (s : σ) (h : H256) (v : Bytes) : Wrapped s →
    Wrapped (insert s h v)
  wrapped_kill (s : σ) (h : H256) : Wrapped s → Wrapped (kill s h)
  count_insert (s : σ) (h : H256) (v : Bytes) : ¬ Wrapped (insert s h v) → ∀ h',
    count (insert s h v) h' = if h' = h then count s h' + 1 else count s h'
  count_kill (s : σ) (h : H256) : ∀ h',
    count (kill s h) h' = if h' = h then count s h' - 1 else count s h'

namespace DB

variable {σ : Type} [LawfulDB σ]

open LawfulDB

/-- Contents are only added. -/
def Extends (s s' : σ) : Prop :=
  ∀ h, DB.lookup s h ≠ [] → DB.lookup s' h = DB.lookup s h

theorem Extends.refl (s : σ) : Extends s s := fun _ _ => rfl

theorem Extends.trans {s s' s'' : σ} (h : Extends s s') (h' : Extends s' s'') :
    Extends s s'' := by
  intro x hx
  have hstep := h x hx
  rw [h' x (by rwa [hstep]), hstep]

/-- References move: as long as no count wraps, whoever held the references `a`
and shared the database with others now holds the references `b`, and the others
lost none. -/
structure Moves (s s' : σ) (a b : H256 → Nat) : Prop where
  wrapped : Wrapped s → Wrapped s'
  moved : ¬ Wrapped s' → ∀ h f, count s h = a h + f → count s' h = b h + f

theorem Moves.refl (s : σ) (a : H256 → Nat) : Moves s s a a :=
  ⟨id, fun _ _ _ h => h⟩

theorem Moves.trans {s s' s'' : σ} {a b c : H256 → Nat} (h : Moves s s' a b)
    (h' : Moves s' s'' b c) : Moves s s'' a c :=
  ⟨fun hs => h'.wrapped (h.wrapped hs), fun hs x f hf =>
    h'.moved hs x f (h.moved (fun hs' => hs (h'.wrapped hs')) x f hf)⟩

/-- Other references do not matter. -/
theorem Moves.frame {s s' : σ} {a b : H256 → Nat} (h : Moves s s' a b)
    (c : H256 → Nat) : Moves s s' (a + c) (b + c) := by
  refine ⟨h.wrapped, fun hs x f hf => ?_⟩
  have := h.moved hs x (c x + f) (by rw [hf]; simp only [Pi.add_apply]; omega)
  rw [this]
  simp only [Pi.add_apply]
  omega

theorem Moves.congr {s s' : σ} {a a' b b' : H256 → Nat} (h : Moves s s' a b)
    (ha : a' = a) (hb : b' = b) : Moves s s' a' b' := ha ▸ hb ▸ h

end DB

end Web3Core
