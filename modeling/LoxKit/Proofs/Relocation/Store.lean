import LoxKit.Machine.Evaluation
import LoxKit.Proofs.Relocation.Tree
import Mathlib

/-!
# Stores whose functions are moved

A program that is moved makes functions that are moved, and nothing else about its store changes. A
relocation says where each place goes, which depends on the line alone as far as lines are
concerned, and what was printed before. Every operation on a store respects it.

Headlines:
* `Bindings.get?_map`, `Frames.read_map`: tables whose values are changed.
* `Value.move`: a value whose functions are moved.
* `Relocation`, `Relocation.Carries`: an action and the same action on relocated stores.
* **`Relocation.Carries.bind`**: the rule for sequences.
-/

namespace LoxKit

/-! ## Tables -/

section Tables

variable {α β : Type} (g : α → β)

namespace Bindings

/-- A table whose values are changed. -/
def map (b : Bindings α) : Bindings β :=
  ⟨b.entries.map fun entry => (entry.1, g entry.2)⟩

variable {g}

@[simp]
theorem map_empty : (empty : Bindings α).map g = empty := rfl

@[simp]
theorem get?_map (b : Bindings α) (name : String) : (b.map g).get? name = (b.get? name).map g := by
  obtain ⟨entries⟩ := b
  show getEntry name (entries.map fun entry => (entry.1, g entry.2)) = (getEntry name entries).map g
  induction entries with
  | nil => rfl
  | cons entry rest ih =>
    simp only [List.map_cons, getEntry, ih]
    split <;> rfl

@[simp]
theorem contains_map (b : Bindings α) (name : String) : (b.map g).contains name = b.contains name := by
  unfold contains
  rw [get?_map, Option.isSome_map]

@[simp]
theorem set_map (b : Bindings α) (name : String) (a : α) :
    (b.map g).set name (g a) = (b.set name a).map g := by
  obtain ⟨entries⟩ := b
  simp only [set, map, mk.injEq]
  induction entries with
  | nil => rfl
  | cons entry rest ih =>
    simp only [List.map_cons, setEntry, ih]
    split <;> rfl

end Bindings

namespace Frames

/-- Frames whose values are changed. -/
def map (fs : Frames α) : Frames β :=
  ⟨fs.cells.map (Bindings.map g)⟩

variable {g}

@[simp]
theorem map_empty : (empty : Frames α).map g = empty := by
  unfold map empty
  rw [Array.map_empty]

@[simp]
theorem size_map (fs : Frames α) : (fs.map g).size = fs.size :=
  Array.size_map

@[simp]
theorem push_map (fs : Frames α) (b : Bindings α) :
    (fs.map g).push (b.map g) = (fs.push b).map g := by
  unfold push map
  rw [Array.map_push]

@[simp]
theorem frame_map (fs : Frames α) (id : FrameId) : (fs.map g).frame id = (fs.frame id).map g := by
  unfold frame map
  rw [Array.getD_eq_getD_getElem?, Array.getD_eq_getD_getElem?, Array.getElem?_map]
  cases fs.cells[id]? <;> rfl

@[simp]
theorem read_map (fs : Frames α) (id : FrameId) (name : String) :
    (fs.map g).read id name = (fs.read id name).map g := by
  unfold read
  rw [frame_map, Bindings.get?_map]

@[simp]
theorem define_map (fs : Frames α) (id : FrameId) (name : String) (a : α) :
    (fs.map g).define id name (g a) = (fs.define id name a).map g := by
  unfold define map
  rw [mk.injEq]
  refine Array.ext_getElem? fun i => ?_
  simp only [Array.getElem?_map, Array.getElem?_modify]
  split
  · cases fs.cells[i]? with
    | none => rfl
    | some b => exact congrArg some (Bindings.set_map b name a)
  · rfl

@[simp]
theorem holder?_map (fs : Frames α) (chain : Chain) (name : String) :
    (fs.map g).holder? chain name = fs.holder? chain name := by
  unfold holder?
  simp only [frame_map, Bindings.contains_map]

@[simp]
theorem get?_map (fs : Frames α) (chain : Chain) (name : String) :
    (fs.map g).get? chain name = (fs.get? chain name).map g := by
  unfold get?
  simp only [read_map, List.map_findSome?]
  rfl

@[simp]
theorem getAt_map (fs : Frames α) (chain : Chain) (hops : Nat) (name : String) :
    (fs.map g).getAt chain hops name = (fs.getAt chain hops name).map g := by
  unfold getAt
  cases chain[hops]? with
  | none => rfl
  | some id =>
    dsimp only
    rw [read_map]
    cases fs.read id name <;> rfl

end Frames

end Tables

/-! ## Values -/

section Values

variable (f : Pos → Pos)

/-- A function together with what it can see, moved. -/
def Closure.move (c : Closure) : Closure :=
  { c with function := c.function.move f }

/-- A class whose methods are moved, and those of its superclasses. -/
def ClassValue.move : ClassValue → ClassValue
  | .mk id name none methods => .mk id name none (methods.map (Closure.move f))
  | .mk id name (some superclass) methods =>
    .mk id name (some superclass.move) (methods.map (Closure.move f))

/-- An object whose class is moved. -/
def Object.move (o : Object) : Object :=
  { o with ofClass := o.ofClass.move f }

/-- A value whose functions are moved. -/
def Value.move : Value → Value
  | .nil => .nil
  | .bool b => .bool b
  | .number x => .number x
  | .string s => .string s
  | .closure c => .closure (c.move f)
  | .native n => .native n
  | .ofClass k => .ofClass (k.move f)
  | .object o => .object (o.move f)

/-- A completion whose value is moved. -/
def Completion.move : Completion → Completion
  | .carryOn => .carryOn
  | .returned v => .returned (v.move f)

variable {f}

theorem ClassValue.move_mk (id : Nat) (name : String) (superclass : Option ClassValue)
    (methods : Bindings Closure) :
    (ClassValue.mk id name superclass methods).move f =
      .mk id name (superclass.map (ClassValue.move f)) (methods.map (Closure.move f)) := by
  cases superclass <;> rfl

@[simp]
theorem ClassValue.id_move (k : ClassValue) : (k.move f).id = k.id := by
  obtain ⟨id, name, superclass, methods⟩ := k
  rw [move_mk]
  rfl

@[simp]
theorem ClassValue.name_move (k : ClassValue) : (k.move f).name = k.name := by
  obtain ⟨id, name, superclass, methods⟩ := k
  rw [move_mk]
  rfl

@[simp]
theorem ClassValue.findMethod?_move (k : ClassValue) (method : String) :
    (k.move f).findMethod? method = (k.findMethod? method).map (Closure.move f) := by
  fun_induction ClassValue.lineage k with
  | case1 id name methods =>
    simp only [move, findMethod?, Bindings.get?_map]
  | case2 id name superclass methods ih =>
    simp only [move, findMethod?, Bindings.get?_map, ih]
    cases methods.get? method <;> rfl

@[simp]
theorem Completion.value_move (c : Completion) : (c.move f).value = c.value.move f := by
  cases c <;> rfl

theorem Literal.toValue_move (l : Literal) : l.toValue.move f = l.toValue := by
  cases l <;> rfl

@[simp]
theorem Value.truthy_move (v : Value) : (v.move f).truthy = v.truthy := by
  cases v <;> rfl

@[simp]
theorem Value.text_move (v : Value) : (v.move f).text = v.text := by
  cases v with
  | closure c =>
    simp only [move, text, Closure.move, Function.move_name, Name.move_text]
  | ofClass k => exact k.name_move
  | object o => exact congrArg (· ++ " instance") o.ofClass.name_move
  | nil | bool | number | string | native => rfl

@[simp]
theorem Value.arity?_move (v : Value) : (v.move f).arity? = v.arity? := by
  cases v with
  | closure c =>
    simp only [move, arity?, Closure.move, Function.move_params, List.length_map]
  | ofClass k =>
    simp only [move, arity?, ClassValue.findMethod?_move]
    cases k.findMethod? initName with
    | none => rfl
    | some c =>
      simp only [Option.map_some, Closure.move, Function.move_params, List.length_map]
  | nil | bool | number | string | native | object => rfl

theorem Value.equal_move (v w : Value) : (v.move f).equal (w.move f) = v.equal w := by
  cases v <;> cases w <;> first | rfl | simp only [move, equal, ClassValue.id_move]

theorem LogicalOp.decides_move (op : LogicalOp) (v : Value) :
    op.decides (v.move f) = op.decides v := by
  unfold LogicalOp.decides
  rw [Value.truthy_move]

theorem applyUnary_move (op : UnaryOp) (v : Value) :
    applyUnary op (v.move f) = (applyUnary op v).map (Value.move f) := by
  cases op with
  | not =>
    simp only [applyUnary, Value.truthy_move]
    rfl
  | negate => cases v <;> rfl

theorem applyBinary_move (op : BinaryOp) (v w : Value) :
    applyBinary op (v.move f) (w.move f) = (applyBinary op v w).map (Value.move f) := by
  cases op with
  | equal | notEqual =>
    simp only [applyBinary, Value.equal_move]
    rfl
  | plus | greater | greaterEqual | less | lessEqual | minus | divide | times =>
    cases v <;> cases w <;> rfl

theorem parameterFrame_move (params : List Name) (args : List Value) :
    Action.parameterFrame (params.map (Name.move f)) (args.map (Value.move f)) =
      (Action.parameterFrame params args).map (Value.move f) := by
  have hgeneral : ∀ b : Bindings Value,
      ((params.map (Name.move f)).zip (args.map (Value.move f))).foldl
          (fun b pair => b.set pair.1.text pair.2) (b.map (Value.move f)) =
        ((params.zip args).foldl (fun b pair => b.set pair.1.text pair.2) b).map (Value.move f) := by
    induction params generalizing args with
    | nil => exact fun _ => rfl
    | cons p params ih =>
      cases args with
      | nil => exact fun _ => rfl
      | cons v args =>
        intro b
        simp only [List.map_cons, List.zip_cons_cons, List.foldl_cons, Name.move_text,
          Bindings.set_map]
        exact ih args _
  exact hgeneral .empty

end Values

/-! ## Relocations -/

/-- Where each place goes, and what was printed before. On which line a place comes to lie depends
on its line alone. -/
structure Relocation where
  pos : Pos → Pos
  line : Nat → Nat
  line_pos : ∀ p, (pos p).line = line p.line
  before : String

namespace Relocation

open LoxKit.Action

variable (R : Relocation) {α β γ δ : Type}

/-- A store whose functions are moved, behind what was printed before. -/
def store (s : Store) : Store where
  frames := s.frames.map (Value.move R.pos)
  objects := s.objects.map (Bindings.map (Value.move R.pos))
  fresh := s.fresh
  readings := s.readings
  output := R.before ++ s.output

/-- An outcome whose value is changed and whose store is relocated. -/
def outcome (g : α → β) : Outcome α → Outcome β
  | .done a s => .done (g a) (R.store s)
  | .failed error line s => .failed error (R.line line) (R.store s)
  | .broken breakage => .broken breakage
  | .unfinished => .unfinished

/-- The second action does on a relocated store what the first does on the store itself. -/
def Carries (g : α → β) (m : Action α) (m' : Action β) : Prop :=
  ∀ s, m' (R.store s) = R.outcome g (m s)

namespace Carries

variable {R} {g : α → β} {g' : γ → δ} {m : Action α} {m' : Action β}

/-- **Two actions and the two behind them.** -/
theorem bind {k : α → Action γ} {k' : β → Action δ} (hm : R.Carries g m m')
    (hk : ∀ a, R.Carries g' (k a) (k' (g a))) : R.Carries g' (m >>= k) (m' >>= k') := by
  intro s
  show Action.bind m' k' (R.store s) = R.outcome g' (Action.bind m k s)
  rw [Action.bind, Action.bind, hm s]
  cases m s with
  | done a s' => exact hk a s'
  | failed | broken | unfinished => rfl

theorem pure (a : α) : R.Carries g (Pure.pure a) (Pure.pure (g a)) := fun _ => rfl

theorem pure_of {a : α} {b : β} (h : b = g a) : R.Carries g (Pure.pure a) (Pure.pure b) :=
  h ▸ pure a

theorem ite {c : Prop} [Decidable c] {n : Action α} {n' : Action β} (hm : R.Carries g m m')
    (hn : R.Carries g n n') : R.Carries g (if c then m else n) (if c then m' else n') := by
  split
  · exact hm
  · exact hn

theorem fail (error : RuntimeError) (p : Pos) :
    R.Carries g (Action.fail error p.line) (Action.fail error (R.pos p).line) := by
  intro s
  rw [R.line_pos]
  rfl

theorem breakWith (breakage : Breakage) :
    R.Carries g (Action.breakWith breakage) (Action.breakWith breakage) := fun _ => rfl

theorem ofAccess {access : Except AccessFault α} {access' : Except AccessFault β}
    (h : access' = access.map g) : R.Carries g (Action.ofAccess access) (Action.ofAccess access') := by
  subst h
  cases access with
  | ok a => exact fun _ => rfl
  | error fault => exact breakWith _

theorem ofOperator (p : Pos) {result result' : Except RuntimeError Value}
    (h : result' = result.map (Value.move R.pos)) :
    R.Carries (Value.move R.pos) (Action.ofOperator p.line result)
      (Action.ofOperator (R.pos p).line result') := by
  subst h
  cases result with
  | ok v => exact fun _ => rfl
  | error error => exact fail error p

/-! ## Frames -/

theorem newFrame (b : Bindings Value) :
    R.Carries id (Action.newFrame b) (Action.newFrame (b.map (Value.move R.pos))) := by
  intro s
  show Outcome.done (s.frames.map _).size _ = Outcome.done s.frames.size _
  rw [Frames.size_map]
  simp only [store, Frames.push_map]

theorem defineIn (chain : Chain) (name : String) (v : Value) :
    R.Carries id (Action.defineIn chain name v) (Action.defineIn chain name (v.move R.pos)) := by
  cases chain with
  | nil => exact breakWith _
  | cons id chain =>
    intro s
    show Outcome.done () _ = Outcome.done () _
    simp only [store, Frames.define_map]

theorem follow (chain : Chain) (r : Reference Link) :
    R.Carries (Value.move R.pos) (Action.follow chain r) (Action.follow chain (r.move R.pos)) := by
  intro s
  obtain ⟨name, link⟩ := r
  unfold Action.follow
  cases link with
  | some hops => exact ofAccess (Frames.getAt_map s.frames chain hops name.text) s
  | none =>
    simp only [Reference.move, Name.move_text, store, Frames.get?_map]
    cases s.frames.get? globals name.text with
    | none => exact fail (.undefinedVariable name.text) name.pos s
    | some v => rfl

theorem write (chain : Chain) (r : Reference Link) (v : Value) :
    R.Carries id (Action.store chain r v) (Action.store chain (r.move R.pos) (v.move R.pos)) := by
  intro s
  obtain ⟨name, link⟩ := r
  unfold Action.store
  cases link with
  | some hops =>
    simp only [Reference.move, Name.move_text, store, Frames.define_map]
    cases chain[hops]? <;> rfl
  | none =>
    simp only [Reference.move, Name.move_text, store, Frames.holder?_map, Frames.define_map]
    cases s.frames.holder? globals name.text with
    | none => exact fail (.undefinedVariable name.text) name.pos s
    | some id => rfl

/-! ## Functions, classes and objects -/

theorem newId : R.Carries id Action.newId Action.newId := fun _ => rfl

theorem newClosure (function : Function Link) (chain : Chain) (isInitializer : Bool) :
    R.Carries (Closure.move R.pos) (Action.newClosure function chain isInitializer)
      (Action.newClosure (function.move R.pos) chain isInitializer) := fun _ => rfl

theorem newObject (k : ClassValue) :
    R.Carries (Object.move R.pos) (Action.newObject k) (Action.newObject (k.move R.pos)) := by
  intro s
  simp only [Action.newObject, store, outcome, Array.size_map, Array.map_push, Bindings.map_empty]
  rfl

theorem bindMethod (c : Closure) (o : Object) :
    R.Carries (Closure.move R.pos) (Action.bindMethod c o)
      (Action.bindMethod (c.move R.pos) (o.move R.pos)) := by
  unfold Action.bindMethod
  have hframe : Bindings.empty.set Keyword.this.word (Value.object (o.move R.pos)) =
      (Bindings.empty.set Keyword.this.word (Value.object o)).map (Value.move R.pos) := rfl
  rw [hframe]
  exact (newFrame _).bind fun _ => newClosure _ _ _

theorem boundMethod (c : Closure) (o : Object) :
    R.Carries (Value.move R.pos) (Value.closure <$> Action.bindMethod c o)
      (Value.closure <$> Action.bindMethod (c.move R.pos) (o.move R.pos)) :=
  (bindMethod c o).bind fun c => pure (g := Value.move R.pos) (Value.closure c)

theorem newMethods (chain : Chain) (gs : List (Function Link)) (methods : Bindings Closure) :
    R.Carries (Bindings.map (Closure.move R.pos)) (Action.newMethods chain gs methods)
      (Action.newMethods chain (gs.map (Function.move R.pos)) (methods.map (Closure.move R.pos))) := by
  induction gs generalizing methods with
  | nil => exact fun _ => rfl
  | cons g gs ih =>
    simp only [List.map_cons, Action.newMethods, Function.move_name, Name.move_text]
    refine (newClosure _ _ _).bind fun c => ?_
    rw [Bindings.set_map]
    exact ih _

theorem fields_store (s : Store) (o : Object) :
    Action.fields (R.store s) (o.move R.pos) = (Action.fields s o).map (Value.move R.pos) := by
  unfold Action.fields store Object.move
  rw [Array.getD_eq_getD_getElem?, Array.getD_eq_getD_getElem?, Array.getElem?_map]
  cases s.objects[o.id]? <;> rfl

theorem getProperty (o : Object) (name : Name) :
    R.Carries (Value.move R.pos) (Action.getProperty o name)
      (Action.getProperty (o.move R.pos) (name.move R.pos)) := by
  intro s
  unfold Action.getProperty
  rw [fields_store, Name.move_text, Bindings.get?_map]
  cases (Action.fields s o).get? name.text with
  | some v => rfl
  | none =>
    have hfind := ClassValue.findMethod?_move (f := R.pos) o.ofClass name.text
    simp only [Option.map_none, Object.move, hfind]
    cases o.ofClass.findMethod? name.text with
    | none => exact fail (.undefinedProperty name.text) name.pos s
    | some c => exact boundMethod c o s

theorem setField (o : Object) (name : String) (v : Value) :
    R.Carries id (Action.setField o name v)
      (Action.setField (o.move R.pos) name (v.move R.pos)) := by
  intro s
  have hobjects : (s.objects.map (Bindings.map (Value.move R.pos))).modify o.id
      (fun b => b.set name (v.move R.pos)) =
        (s.objects.modify o.id fun b => b.set name v).map (Bindings.map (Value.move R.pos)) := by
    refine Array.ext_getElem? fun i => ?_
    simp only [Array.getElem?_map, Array.getElem?_modify]
    split
    · cases s.objects[i]? with
      | none => rfl
      | some b => exact congrArg some (Bindings.set_map b name v)
    · rfl
  show Outcome.done () _ = Outcome.done () _
  simp only [store, Object.move, hobjects]

theorem printLine (line : String) :
    R.Carries id (Action.printLine line) (Action.printLine line) := by
  intro s
  show Outcome.done () _ = Outcome.done () _
  simp only [store, String.append_assoc]

end Carries

end Relocation

end LoxKit
