/-
`SecureFixedHash`: the wrapper of a hash that is kept secret.  Its operators
forward to those of the hash by hand, in two families, one for each kind of
right operand.
-/
import Web3Core.FixedHashImage

namespace Web3Core

/-- `SecureFixedHash`, which derives privately from `FixedHash`. -/
structure SecureFixedHash (N : Nat) where
  base : FixedHash N
deriving DecidableEq

namespace SecureFixedHash

variable {N : Nat}

/-- `makeInsecure`. -/
def makeInsecure (a : SecureFixedHash N) : FixedHash N := a.base

def fromBytes (N : Nat) (b : Bytes) (t : Alignment) : SecureFixedHash N :=
  ⟨FixedHash.fromBytes N b t⟩

def fromRef (N : Nat) (v : BytesConstRef) (t : Alignment) : SecureFixedHash N :=
  ⟨FixedHash.fromRef N v t⟩

/-- The constructor from `bytesSec`. -/
def fromSec (N : Nat) (b : Bytes) (t : Alignment) : SecureFixedHash N :=
  ⟨FixedHash.fromRef N (.ofBytes b) t⟩

def fromHash {M : Nat} (N : Nat) (h : FixedHash M) (t : Alignment) :
    SecureFixedHash N :=
  ⟨FixedHash.fromHash N h t⟩

/-- The constructor from a secure hash of any size. -/
def fromSecure {M : Nat} (N : Nat) (h : SecureFixedHash M) (t : Alignment) :
    SecureFixedHash N :=
  ⟨FixedHash.fromHash N h.makeInsecure t⟩

/-- `ref().cleanse()`: what its loop writes is overwritten with zeros. -/
def cleanse (a : SecureFixedHash N) : SecureFixedHash N :=
  ⟨⟨a.base.data.map fun _ => 0, by rw [List.length_map, a.base.size_data]⟩⟩

def clear (a : SecureFixedHash N) : SecureFixedHash N := a.cleanse

/-- `writable`: the hash behind the reference. -/
def writable (a : SecureFixedHash N) : SecureFixedHash N := a.clear

/-- `operator=`, from the object itself or from another one. -/
def assign (a : SecureFixedHash N) : Option (SecureFixedHash N) →
    SecureFixedHash N
  | none => a
  | some c =>
      let cleansed := a.cleanse
      { cleansed with base := c.base }

/-! Operators with a hash on the right. -/

/-- `operator^=`. -/
def xorAssign (a : SecureFixedHash N) (c : FixedHash N) : SecureFixedHash N :=
  ⟨FixedHash.xorWith a.base c⟩

/-- `operator^`. -/
def xor (a : SecureFixedHash N) (c : FixedHash N) : SecureFixedHash N :=
  a.xorAssign c

/-- `operator|=`. -/
def orAssign (a : SecureFixedHash N) (c : FixedHash N) : SecureFixedHash N :=
  ⟨FixedHash.xorWith a.base c⟩

/-- `operator|`. -/
def or (a : SecureFixedHash N) (c : FixedHash N) : SecureFixedHash N :=
  a.orAssign c

/-- `operator&=`. -/
def andAssign (a : SecureFixedHash N) (c : FixedHash N) : SecureFixedHash N :=
  ⟨FixedHash.xorWith a.base c⟩

/-- `operator&`. -/
def and (a : SecureFixedHash N) (c : FixedHash N) : SecureFixedHash N :=
  a.andAssign c

/-! The same with a secure hash on the right. -/

/-- `operator^=`. -/
def xorAssignSecure (a c : SecureFixedHash N) : SecureFixedHash N :=
  ⟨FixedHash.xorWith a.base c.base⟩

/-- `operator^`. -/
def xorSecure (a c : SecureFixedHash N) : SecureFixedHash N :=
  a.xorAssignSecure c

/-- `operator|=`. -/
def orAssignSecure (a c : SecureFixedHash N) : SecureFixedHash N :=
  ⟨FixedHash.xorWith a.base c.base⟩

/-- `operator|`. -/
def orSecure (a c : SecureFixedHash N) : SecureFixedHash N :=
  a.orAssignSecure c

/-- `operator&=`. -/
def andAssignSecure (a c : SecureFixedHash N) : SecureFixedHash N :=
  ⟨FixedHash.xorWith a.base c.base⟩

/-- `operator&`. -/
def andSecure (a c : SecureFixedHash N) : SecureFixedHash N :=
  a.andAssignSecure c

/-- `operator~`. -/
def complement (a : SecureFixedHash N) : SecureFixedHash N :=
  ⟨FixedHash.complement a.base⟩

/-- The comparison operators. -/
inductive Comparison where
  | equals
  | differs
  | less
  | notLess
  | lessOrEqual
  | greater
deriving DecidableEq

/-- A comparison of hashes; the secure class uses the operators of the hash
for a hash on the right. -/
def Comparison.holds : Comparison → FixedHash N → FixedHash N → Bool
  | .equals => FixedHash.equals
  | .differs => FixedHash.differs
  | .less => FixedHash.less
  | .notLess => FixedHash.notLess
  | .lessOrEqual => FixedHash.lessOrEqual
  | .greater => FixedHash.greater

/-- The comparison operators with a secure hash on the right. -/
def compareSecure (op : Comparison) (a c : SecureFixedHash N) : Bool :=
  op.holds a.base c.base

inductive BitOperator where
  | xor
  | or
  | and
deriving DecidableEq

/-- A right operand. -/
inductive Operand (N : Nat) where
  | plain (c : FixedHash N)
  | secure (c : SecureFixedHash N)

/-- The hash of a right operand. -/
def Operand.hash : Operand N → FixedHash N
  | .plain c => c
  | .secure c => c.makeInsecure

/-- An operation with its arguments; the source of an assignment is missing if
it is the object itself. -/
inductive Call (N : Nat) where
  | fromBytes (b : Bytes) (t : Alignment)
  | fromRef (v : BytesConstRef) (t : Alignment)
  | fromSec (b : Bytes) (t : Alignment)
  | fromHash {M : Nat} (h : FixedHash M) (t : Alignment)
  | fromSecure {M : Nat} (h : SecureFixedHash M) (t : Alignment)
  | assign (c : Option (SecureFixedHash N))
  | compare (op : Comparison) (c : Operand N)
  | combine (op : BitOperator) (assigning : Bool) (c : Operand N)
  | complement
  | clear
  | writable

/-- The object after a call, and what the call returns. -/
structure Outcome (α : Type) where
  object : α
  returned : α ⊕ Bool

/-- An operator that changes the object and returns it, or leaves the object
alone and returns the result. -/
def Outcome.of {α : Type} (assigning : Bool) (object result : α) : Outcome α :=
  ⟨if assigning then result else object, .inl result⟩

def Outcome.map {α β : Type} (f : α → β) (o : Outcome α) : Outcome β :=
  ⟨f o.object, o.returned.map f id⟩

/-- The call on a secure hash. -/
def Call.run (a : SecureFixedHash N) : Call N → Outcome (SecureFixedHash N)
  | .fromBytes b t => .of true a (SecureFixedHash.fromBytes N b t)
  | .fromRef v t => .of true a (SecureFixedHash.fromRef N v t)
  | .fromSec b t => .of true a (SecureFixedHash.fromSec N b t)
  | .fromHash h t => .of true a (SecureFixedHash.fromHash N h t)
  | .fromSecure h t => .of true a (SecureFixedHash.fromSecure N h t)
  | .assign c => .of true a (a.assign c)
  | .compare op (.plain c) => ⟨a, .inr (op.holds a.base c)⟩
  | .compare op (.secure c) => ⟨a, .inr (compareSecure op a c)⟩
  | .combine .xor true (.plain c) => .of true a (a.xorAssign c)
  | .combine .xor false (.plain c) => .of false a (a.xor c)
  | .combine .or true (.plain c) => .of true a (a.orAssign c)
  | .combine .or false (.plain c) => .of false a (a.or c)
  | .combine .and true (.plain c) => .of true a (a.andAssign c)
  | .combine .and false (.plain c) => .of false a (a.and c)
  | .combine .xor true (.secure c) => .of true a (a.xorAssignSecure c)
  | .combine .xor false (.secure c) => .of false a (a.xorSecure c)
  | .combine .or true (.secure c) => .of true a (a.orAssignSecure c)
  | .combine .or false (.secure c) => .of false a (a.orSecure c)
  | .combine .and true (.secure c) => .of true a (a.andAssignSecure c)
  | .combine .and false (.secure c) => .of false a (a.andSecure c)
  | .complement => .of false a a.complement
  | .clear => .of true a a.clear
  | .writable => .of true a a.writable

/-- The operator of the same name on hashes. -/
def BitOperator.plain : BitOperator → FixedHash N → FixedHash N → FixedHash N
  | .xor => FixedHash.xorWith
  | .or => FixedHash.orWith
  | .and => FixedHash.andWith

/-- The operation of the same name on the hash inside; `writable` clears. -/
def Call.plain (a : FixedHash N) : Call N → Outcome (FixedHash N)
  | .fromBytes b t => .of true a (FixedHash.fromBytes N b t)
  | .fromRef v t => .of true a (FixedHash.fromRef N v t)
  | .fromSec b t => .of true a (FixedHash.fromBytes N b t)
  | .fromHash h t => .of true a (FixedHash.fromHash N h t)
  | .fromSecure h t => .of true a (FixedHash.fromHash N h.makeInsecure t)
  | .assign c => .of true a ((c.map makeInsecure).getD a)
  | .compare op c => ⟨a, .inr (op.holds a c.hash)⟩
  | .combine op assigning c => .of assigning a (op.plain a c.hash)
  | .complement => .of false a (FixedHash.complement a)
  | .clear => .of true a (FixedHash.clear a)
  | .writable => .of true a (FixedHash.clear a)

/-- The call commutes with `makeInsecure`. -/
def Commutes (a : SecureFixedHash N) (call : Call N) : Prop :=
  (call.run a).map makeInsecure = call.plain a.makeInsecure

section Operators

open FixedHash

variable {a c : FixedHash N}

theorem value_zero (N : Nat) : value (zero N) = 0 :=
  fromBigEndian_replicate_zero N

/-- The exclusive or is the or of hashes without a common bit. -/
theorem xorWith_eq_orWith_iff :
    xorWith a c = orWith a c ↔ andWith a c = zero N := by
  have hbits : value a ^^^ value c = value a ||| value c ↔
      value a &&& value c = 0 := by
    constructor
    · intro h
      refine Nat.eq_of_testBit_eq fun i => ?_
      have hi := congrArg (fun v => v.testBit i) h
      simp only [Nat.testBit_xor, Nat.testBit_or] at hi
      rw [Nat.testBit_and, Nat.zero_testBit]
      cases hx : (value a).testBit i <;> cases hy : (value c).testBit i <;>
        simp_all
    · intro h
      refine Nat.eq_of_testBit_eq fun i => ?_
      have hi := congrArg (fun v => v.testBit i) h
      simp only [Nat.testBit_and, Nat.zero_testBit] at hi
      rw [Nat.testBit_xor, Nat.testBit_or]
      cases hx : (value a).testBit i <;> cases hy : (value c).testBit i <;>
        simp_all
  rw [← value_xorWith, ← value_orWith, ← value_andWith, ← value_zero N] at hbits
  exact ⟨fun h => value_inj (hbits.1 (congrArg value h)),
    fun h => value_inj (hbits.2 (congrArg value h))⟩

/-- The exclusive or is the and of zeros only. -/
theorem xorWith_eq_andWith_iff :
    xorWith a c = andWith a c ↔ a = zero N ∧ c = zero N := by
  constructor
  · intro h
    have hvalue := congrArg value h
    rw [value_xorWith, value_andWith] at hvalue
    have hbit : ∀ i, (value a).testBit i = false ∧
        (value c).testBit i = false := by
      intro i
      have hi := congrArg (fun v => v.testBit i) hvalue
      simp only [Nat.testBit_xor, Nat.testBit_and] at hi
      cases hx : (value a).testBit i <;> cases hy : (value c).testBit i <;>
        simp_all
    have hzero : ∀ d : FixedHash N, (∀ i, (value d).testBit i = false) →
        d = zero N := by
      intro d hd
      refine value_inj ?_
      rw [value_zero]
      exact Nat.eq_of_testBit_eq fun i => by rw [hd i, Nat.zero_testBit]
    exact ⟨hzero a fun i => (hbit i).1, hzero c fun i => (hbit i).2⟩
  · rintro ⟨rfl, rfl⟩
    refine value_inj ?_
    rw [value_xorWith, value_andWith, value_zero]
    rfl

end Operators

theorem Outcome.of_inj {α : Type} {assigning : Bool} {object x y : α} :
    Outcome.of assigning object x = Outcome.of assigning object y ↔ x = y := by
  constructor
  · intro h
    exact Sum.inl_injective (congrArg Outcome.returned h)
  · rintro rfl
    rfl

theorem makeInsecure_cleanse (a : SecureFixedHash N) :
    a.cleanse.makeInsecure = FixedHash.zero N := by
  refine FixedHash.ext ?_
  show a.base.data.map (fun _ => 0) = List.replicate N 0
  rw [List.map_const', a.base.size_data]

theorem Outcome.map_of {α β : Type} (f : α → β) (assigning : Bool)
    (object result : α) :
    (Outcome.of assigning object result).map f =
      .of assigning (f object) (f result) := by
  cases assigning <;> rfl

/-- Every one of the twelve operators forwards to the exclusive or. -/
theorem run_combine (a : SecureFixedHash N) (op : BitOperator)
    (assigning : Bool) (c : Operand N) :
    (Call.combine op assigning c).run a =
      .of assigning a ⟨FixedHash.xorWith a.base c.hash⟩ := by
  cases op <;> cases assigning <;> cases c <;> rfl

theorem commutes_combine_iff (a : SecureFixedHash N) (op : BitOperator)
    (assigning : Bool) (c : Operand N) :
    Commutes a (.combine op assigning c) ↔
      FixedHash.xorWith a.makeInsecure c.hash =
        op.plain a.makeInsecure c.hash := by
  rw [Commutes, run_combine, Outcome.map_of, Call.plain, Outcome.of_inj]
  rfl

/-- **The wrapper behaves as what it wraps**, but for the operators that
forward to the exclusive or: `|` and `|=` where the operands have a common bit,
`&` and `&=` where one of them is not zero. -/
theorem commutes_iff (a : SecureFixedHash N) (call : Call N) :
    Commutes a call ↔
      match call with
      | .combine .or _ c =>
          FixedHash.andWith a.makeInsecure c.hash = FixedHash.zero N
      | .combine .and _ c =>
          a.makeInsecure = FixedHash.zero N ∧ c.hash = FixedHash.zero N
      | _ => True := by
  cases call with
  | combine op assigning c =>
      rw [commutes_combine_iff]
      cases op with
      | xor => exact iff_of_true rfl trivial
      | or => exact xorWith_eq_orWith_iff
      | and => exact xorWith_eq_andWith_iff
  | fromBytes b t => exact iff_of_true rfl trivial
  | fromRef v t => exact iff_of_true rfl trivial
  | fromSec b t =>
      refine iff_of_true ?_ trivial
      simp only [Commutes, Call.run, Call.plain, Outcome.map_of, makeInsecure,
        fromSec, FixedHash.fromRef, FixedHash.fromBytes,
        BytesConstRef.toBytes_ofBytes]
  | fromHash h t => exact iff_of_true rfl trivial
  | fromSecure h t => exact iff_of_true rfl trivial
  | assign c => cases c <;> exact iff_of_true rfl trivial
  | compare op c => cases c <;> exact iff_of_true rfl trivial
  | complement => exact iff_of_true rfl trivial
  | clear =>
      refine iff_of_true ?_ trivial
      rw [Commutes, Call.run, Call.plain, Outcome.map_of, clear,
        makeInsecure_cleanse]
      rfl
  | writable =>
      refine iff_of_true ?_ trivial
      rw [Commutes, Call.run, Call.plain, Outcome.map_of, writable, clear,
        makeInsecure_cleanse]
      rfl

/-- `|=` of a byte with itself clears it. -/
theorem not_commutes :
    ∃ (N : Nat) (a : SecureFixedHash N) (call : Call N), ¬ Commutes a call := by
  refine ⟨1, ⟨⟨[1], rfl⟩⟩, .combine .or true (.secure ⟨⟨[1], rfl⟩⟩), fun h => ?_⟩
  have hobject := congrArg Outcome.object h
  exact absurd (congrArg FixedHash.data hobject) (by decide)

end SecureFixedHash

end Web3Core
