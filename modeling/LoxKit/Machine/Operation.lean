import LoxKit.Machine.Action

/-!
# Operations on a store

The steps that evaluation is made of: operators on values, making frames, functions and objects,
and following references.

Headlines:
* `applyBinary_number`: two numbers never fail.
* `newFrame_done`: a new frame has the next number and leaves all others as they are.
-/

namespace LoxKit

/-! ## Operators -/

/-- An operator between two numbers. Numbers are doubles, so dividing by zero gives an infinity or
no number, and no number is equal to, less or greater than any other. -/
def numeric (op : BinaryOp) (x y : Float) : Value :=
  match op with
  | .equal => .bool (x == y)
  | .notEqual => .bool (!(x == y))
  | .greater => .bool (decide (y < x))
  | .greaterEqual => .bool (decide (y ≤ x))
  | .less => .bool (decide (x < y))
  | .lessEqual => .bool (decide (x ≤ y))
  | .minus => .number (x - y)
  | .plus => .number (x + y)
  | .divide => .number (x / y)
  | .times => .number (x * y)

/-- An operator between two values. -/
def applyBinary (op : BinaryOp) (a b : Value) : Except RuntimeError Value :=
  match op, a, b with
  | .equal, a, b => .ok (.bool (a.equal b))
  | .notEqual, a, b => .ok (.bool (!a.equal b))
  | op, .number x, .number y => .ok (numeric op x y)
  | .plus, .string x, .string y => .ok (.string (x ++ y))
  | .plus, _, _ => .error .operandsNotAddable
  | op, _, _ => .error (.operandsNotNumbers op)

/-- An operator before a value. -/
def applyUnary (op : UnaryOp) (a : Value) : Except RuntimeError Value :=
  match op, a with
  | .not, a => .ok (.bool (!a.truthy))
  | .negate, .number x => .ok (.number (-x))
  | .negate, _ => .error .operandNotNumber

/-- Whether the left operand decides the value of the operator. -/
def LogicalOp.decides (op : LogicalOp) (lhs : Value) : Bool :=
  match op with
  | .and => !lhs.truthy
  | .or => lhs.truthy

/-- Two numbers never fail. -/
theorem applyBinary_number (op : BinaryOp) (x y : Float) :
    applyBinary op (.number x) (.number y) = .ok (numeric op x y) := by
  cases op <;> rfl

namespace Action

/-- The value of an operator, or its error at a line. -/
@[inline]
def ofOperator (line : Nat) : Except RuntimeError Value → Action Value
  | .ok v => Action.pure v
  | .error error => fail error line

/-! ## Frames -/

/-- Makes a frame. -/
@[inline]
def newFrame (b : Bindings Value) : Action FrameId := fun s =>
  .done s.frames.size { s with frames := s.frames.push b }

/-- Binds a name in the innermost frame of a chain. -/
@[inline]
def defineIn (chain : Chain) (name : String) (value : Value) : Action Unit :=
  match chain with
  | [] => breakWith (.access .pastTheEnd)
  | id :: _ => change fun s => { s with frames := s.frames.define id name value }

/-- The chain of the globals alone. -/
def globals : Chain := [0]

/-- The value that a reference leads to. -/
def follow (chain : Chain) (r : Reference Link) : Action Value := fun s =>
  match r.link with
  | some hops => ofAccess (s.frames.getAt chain hops r.name.text) s
  | none =>
    match s.frames.get? globals r.name.text with
    | some v => .done v s
    | none => .failed (.undefinedVariable r.name.text) r.name.pos.line s

/-- Changes the value that a reference leads to. -/
def store (chain : Chain) (r : Reference Link) (value : Value) : Action Unit := fun s =>
  match r.link with
  | some hops =>
    match chain[hops]? with
    | none => .broken (.access .pastTheEnd)
    | some id => .done () { s with frames := s.frames.define id r.name.text value }
  | none =>
    match s.frames.holder? globals r.name.text with
    | none => .failed (.undefinedVariable r.name.text) r.name.pos.line s
    | some id => .done () { s with frames := s.frames.define id r.name.text value }

/-! ## Functions, classes and objects -/

/-- An identity that nothing else has. -/
@[inline]
def newId : Action Nat := fun s =>
  .done s.fresh { s with fresh := s.fresh + 1 }

/-- Makes a function that can see a chain. -/
def newClosure (f : Function Link) (captured : Chain) (isInitializer : Bool) : Action Closure :=
  fun s => .done ⟨s.fresh, f, captured, isInitializer⟩ { s with fresh := s.fresh + 1 }

/-- Makes an object of a class, without fields. -/
def newObject (k : ClassValue) : Action Object := fun s =>
  .done ⟨s.objects.size, k⟩ { s with objects := s.objects.push .empty }

/-- Makes the method of an object from a method of its class. The frame between the two holds the
object as `this`. -/
def bindMethod (c : Closure) (o : Object) : Action Closure := do
  let frame ← newFrame (Bindings.empty.set Keyword.this.word (.object o))
  newClosure c.function (frame :: c.captured) c.isInitializer

/-- Makes the methods of a class. Of two methods with one name the later counts. -/
def newMethods (chain : Chain) : List (Function Link) → Bindings Closure → Action (Bindings Closure)
  | [], methods => Action.pure methods
  | f :: fs, methods => do
    let c ← newClosure f chain (f.name.text == initName)
    newMethods chain fs (methods.set f.name.text c)

/-- The fields of an object. -/
def fields (s : Store) (o : Object) : Bindings Value :=
  s.objects.getD o.id .empty

/-- A property of an object: a field, or else a method of its class made for it. -/
def getProperty (o : Object) (name : Name) : Action Value := fun s =>
  match (fields s o).get? name.text with
  | some v => .done v s
  | none =>
    match o.ofClass.findMethod? name.text with
    | some c => (Value.closure <$> bindMethod c o) s
    | none => .failed (.undefinedProperty name.text) name.pos.line s

/-- Sets a field of an object. -/
@[inline]
def setField (o : Object) (name : String) (value : Value) : Action Unit :=
  change fun s => { s with objects := s.objects.modify o.id fun b => b.set name value }

/-- The frame of a call: the parameters and their arguments. -/
def parameterFrame (params : List Name) (args : List Value) : Bindings Value :=
  (params.zip args).foldl (fun b (p, v) => b.set p.text v) .empty

/-- Prints a line. -/
@[inline]
def printLine (line : String) : Action Unit :=
  change fun s => { s with output := s.output ++ line ++ "\n" }

/-- A new frame has the next number and leaves all others as they are. -/
theorem newFrame_done (b : Bindings Value) (s : Store) :
    newFrame b s = .done s.frames.size { s with frames := s.frames.push b } := rfl

end Action

end LoxKit
