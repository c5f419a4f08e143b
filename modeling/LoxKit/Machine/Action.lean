import LoxKit.Machine.Value

/-!
# Actions

What a program changes while it runs is its store: frames, fields of objects, the text printed so
far. An action works on a store and ends in one of four ways: it is done with a value; it fails
with an error of the program; it is broken, by an access that a linked program never makes; or the
steps that it was allowed did not suffice.

Headlines:
* `Action.pure_bind`, `Action.bind_pure`, `Action.bind_assoc`: the laws of sequence.
* `RuntimeError.message`: the words of an error.
-/

namespace LoxKit

/-- What a program changes while it runs. -/
structure Store where
  frames : Frames Value
  /-- The fields of each object, under its identity. -/
  objects : Array (Bindings Value)
  /-- The identity of the next function or class. -/
  fresh : Nat
  /-- How often the clock was read. -/
  readings : Nat
  /-- What was printed. -/
  output : String

/-- What can go wrong in a program that runs. -/
inductive RuntimeError where
  | undefinedVariable (name : String)
  | undefinedProperty (name : String)
  | operandNotNumber
  | operandsNotNumbers (op : BinaryOp)
  | operandsNotAddable
  | notCallable
  | wrongArity (expected given : Nat)
  | noProperties
  | noFields
  | superclassNotClass
  | stackOverflow
  deriving Repr, DecidableEq

/-- An error in words. -/
def RuntimeError.message : RuntimeError → String
  | undefinedVariable name => "Undefined variable '" ++ name ++ "'."
  | undefinedProperty name => "Undefined property '" ++ name ++ "'."
  | operandNotNumber => "Operand of '-' must be a number."
  | operandsNotNumbers op => "Operands of '" ++ op.symbol.text ++ "' must be numbers."
  | operandsNotAddable => "Operands of '+' must be two numbers or two strings."
  | notCallable => "Can only call functions and classes."
  | wrongArity expected given =>
    "Expected " ++ toString expected ++ " arguments but got " ++ toString given ++ "."
  | noProperties => "Only instances have properties."
  | noFields => "Only instances have fields."
  | superclassNotClass => "Superclass must be a class."
  | stackOverflow => "Stack overflow."

/-- An access that a linked program never makes. -/
inductive Breakage where
  /-- A variable is not where its reference leads. -/
  | access (fault : AccessFault)
  /-- A reference to a superclass leads nowhere. -/
  | unlinkedSuper
  /-- What stands for the superclass is not a class. -/
  | superNotClass
  /-- What stands for the receiver is not an object. -/
  | thisNotObject
  /-- A return was not taken by any function. -/
  | strayReturn
  deriving Repr, DecidableEq

/-- How an action ends. -/
inductive Outcome (α : Type) where
  | done (value : α) (store : Store)
  | failed (error : RuntimeError) (line : Nat) (store : Store)
  | broken (breakage : Breakage)
  | unfinished

/-- Something that works on a store. -/
def Action (α : Type) : Type :=
  Store → Outcome α

namespace Action

variable {α β γ : Type}

/-- Does nothing and gives a value. -/
@[always_inline, inline]
protected def pure (a : α) : Action α := fun s =>
  .done a s

/-- Goes on behind an action that is done. -/
@[always_inline, inline]
protected def bind (m : Action α) (f : α → Action β) : Action β := fun s =>
  match m s with
  | .done a s => f a s
  | .failed error line s => .failed error line s
  | .broken breakage => .broken breakage
  | .unfinished => .unfinished

@[always_inline]
instance : Monad Action where
  pure := Action.pure
  bind := Action.bind

/-- Fails with an error at a line. -/
@[inline]
def fail (error : RuntimeError) (line : Nat) : Action α := fun s =>
  .failed error line s

/-- Breaks. -/
@[inline]
def breakWith (breakage : Breakage) : Action α := fun _ =>
  .broken breakage

/-- Reads the store. -/
@[inline]
def read (f : Store → α) : Action α := fun s =>
  .done (f s) s

/-- Changes the store. -/
@[inline]
def change (f : Store → Store) : Action Unit := fun s =>
  .done () (f s)

/-- The result of an access, which may break. -/
@[inline]
def ofAccess : Except AccessFault α → Action α
  | .ok a => Action.pure a
  | .error fault => breakWith (.access fault)

theorem pure_bind (a : α) (f : α → Action β) : (Action.pure a).bind f = f a := rfl

theorem bind_pure (m : Action α) : m.bind Action.pure = m := by
  funext s
  unfold Action.bind Action.pure
  cases m s <;> rfl

theorem bind_assoc (m : Action α) (f : α → Action β) (g : β → Action γ) :
    (m.bind f).bind g = m.bind fun a => (f a).bind g := by
  funext s
  unfold Action.bind
  cases m s <;> rfl

/-- An action behind one that is done. -/
theorem bind_of_done {m : Action α} {f : α → Action β} {a : α} {s s' : Store}
    (h : m s = .done a s') : (m >>= f) s = f a s' := by
  show m.bind f s = f a s'
  rw [Action.bind, h]

end Action

end LoxKit
