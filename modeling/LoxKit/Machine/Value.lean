import LoxKit.Decimal.Style
import LoxKit.Machine.Frames
import LoxKit.Syntax.Basic

/-!
# Values

What expressions evaluate to. Functions, classes and objects have identities: two of them are equal
only if they are the same. A class never changes once it is made; the fields of an object are kept
outside of it.

Headlines:
* `ClassValue.findMethod?_eq`: a method is found in the class itself or else in its superclass.
* `Value.equal`, `Value.truthy`, `Value.text`: the three questions that can be put to any value.
-/

namespace LoxKit

/-- A function together with what it can see. An initializer answers with its object. -/
structure Closure where
  id : Nat
  function : Function Link
  captured : Chain
  isInitializer : Bool

/-- Functions that do not consist of statements. -/
inductive Native where
  /-- Tells the time. -/
  | clock
  deriving Repr, DecidableEq

/-- How many arguments a native function takes. -/
def Native.arity : Native → Nat
  | clock => 0

/-- A class: its name, its superclass if it has one, and the methods of its own. -/
inductive ClassValue where
  | mk (id : Nat) (name : String) (superclass : Option ClassValue) (methods : Bindings Closure)

namespace ClassValue

/-- The identity of a class. -/
def id : ClassValue → Nat
  | mk id _ _ _ => id

/-- What a class is called. -/
def name : ClassValue → String
  | mk _ name _ _ => name

/-- The class that a class is made from. -/
def superclass? : ClassValue → Option ClassValue
  | mk _ _ superclass _ => superclass

/-- The methods of a class of its own. -/
def methods : ClassValue → Bindings Closure
  | mk _ _ _ methods => methods

/-- A class and its superclasses, nearest first. -/
def lineage : ClassValue → List ClassValue
  | mk id name none methods => [mk id name none methods]
  | mk id name (some superclass) methods =>
    mk id name (some superclass) methods :: superclass.lineage

/-- The method of a name that objects of a class have. -/
def findMethod? : ClassValue → String → Option Closure
  | mk _ _ none methods, method => methods.get? method
  | mk _ _ (some superclass) methods, method =>
    match methods.get? method with
    | some c => some c
    | none => superclass.findMethod? method

/-- A method is found in the nearest class of the lineage that has it. -/
theorem findMethod?_eq (k : ClassValue) (method : String) :
    k.findMethod? method = k.lineage.findSome? fun c => c.methods.get? method := by
  fun_induction lineage k with
  | case1 id name methods => simp [findMethod?, ClassValue.methods]
  | case2 id name superclass methods ih =>
    rw [List.findSome?_cons]
    cases h : methods.get? method <;> simp [findMethod?, ClassValue.methods, h, ih]

end ClassValue

/-- An object: its identity and its class. -/
structure Object where
  id : Nat
  ofClass : ClassValue

/-- What expressions evaluate to. -/
inductive Value where
  | nil
  | bool (b : Bool)
  | number (x : Float)
  | string (s : String)
  | closure (c : Closure)
  | native (n : Native)
  | ofClass (k : ClassValue)
  | object (o : Object)

/-- The value of a literal. -/
def Literal.toValue : Literal → Value
  | nil => .nil
  | bool b => .bool b
  | number x => .number x
  | string s => .string s

namespace Value

/-- Whether a value counts as true: everything does but nil and false. -/
def truthy : Value → Bool
  | nil => false
  | bool b => b
  | _ => true

/-- Whether two values are equal. Values of different kinds never are. -/
def equal : Value → Value → Bool
  | nil, nil => true
  | bool a, bool b => a == b
  | number a, number b => a == b
  | string a, string b => a == b
  | closure a, closure b => a.id == b.id
  | native a, native b => a == b
  | ofClass a, ofClass b => a.id == b.id
  | object a, object b => a.id == b.id
  | _, _ => false

/-- A value as a program prints it. -/
def text : Value → String
  | nil => "nil"
  | bool b => if b then "true" else "false"
  | number x => Decimal.shown.text x
  | string s => s
  | closure c => "<fn " ++ c.function.name.text ++ ">"
  | native _ => "<native fn>"
  | ofClass k => k.name
  | object o => o.ofClass.name ++ " instance"

/-- How many arguments a value takes when it is called, if it can be called. A class takes as many
as its initializer. -/
def arity? : Value → Option Nat
  | closure c => some c.function.params.length
  | native n => some n.arity
  | ofClass k =>
    match k.findMethod? initName with
    | none => some 0
    | some c => some c.function.params.length
  | _ => none

end Value

end LoxKit
