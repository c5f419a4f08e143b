import LoxKit.Proofs.Machine.Moment
import LoxKit.Proofs.Renaming.Rename

/-!
# Stores that differ by names

Two runs of a program and of a renamed one go on side by side. At each moment they have made the
same frames, and a list of flags, one for each frame, says in which of them names are changed. What
the one binds under a name in such a frame, the other binds under the changed name. Functions are
related if the one is a renaming of the other, with the flags of the frames that they can see.

Headlines:
* `Renames`: when a node is a renaming of another.
* `Alike`: when two stores differ by names.
* `ValueAlike.text`, `ValueAlike.equal`, `ValueAlike.arity`: names do not show.
-/

namespace LoxKit

open LoxKit.Action

variable {α β γ δ : Type}

/-- Changes a name if a flag is set. -/
def changeIf (ρ : String → String) (flag : Bool) (name : String) : String :=
  if flag then ρ name else name

section Changes

variable {ρ : String → String} {flag : Bool}

@[simp]
theorem changeIf_false (name : String) : changeIf ρ false name = name := rfl

@[simp]
theorem Name.renameIf_text (name : Name) :
    (name.renameIf ρ flag).text = changeIf ρ flag name.text := by
  unfold Name.renameIf changeIf
  split <;> rfl

@[simp]
theorem Name.renameIf_pos (name : Name) : (name.renameIf ρ flag).pos = name.pos := by
  unfold Name.renameIf
  split <;> rfl

theorem changeIf_inj (hρ : Function.Injective ρ) {name other : String} :
    changeIf ρ flag name = changeIf ρ flag other ↔ name = other := by
  unfold changeIf
  split
  · exact hρ.eq_iff
  · exact Iff.rfl

theorem changeIf_keyword (hk : ∀ k : Keyword, ρ k.word = k.word) (k : Keyword) :
    changeIf ρ flag k.word = k.word := by
  unfold changeIf
  split
  · exact hk k
  · rfl

end Changes

/-! ## Nodes that differ by names -/

/-- The second node is the first with the names changed that belong to scopes with a flag. Functions
and classes keep their names. -/
inductive Renames (ρ : String → String) : List Bool → Node Link → Node Link → Prop
  | expression {flags : List Bool} {e : Expr Link} (he : e.Proper) :
      Renames ρ flags (.stmt (.expression e)) (.stmt (.expression (e.rename ρ flags)))
  | print {flags : List Bool} {e : Expr Link} (he : e.Proper) :
      Renames ρ flags (.stmt (.print e)) (.stmt (.print (e.rename ρ flags)))
  | var {flags : List Bool} {name : Name} {initializer : Option (Expr Link)}
      (he : ∀ e, initializer = some e → e.Proper) :
      Renames ρ flags (.stmt (.var name initializer))
        (.stmt (.var (name.renameIf ρ (flags.getD 0 false)) (initializer.map (Expr.rename ρ flags))))
  | block {flags : List Bool} {flag : Bool} {body body' : List (Stmt Link)}
      (h : Renames ρ (flag :: flags) (.stmts body) (.stmts body')) :
      Renames ρ flags (.stmt (.block body)) (.stmt (.block body'))
  | ifThen {flags : List Bool} {condition : Expr Link} {thenPart thenPart' : Stmt Link}
      (he : condition.Proper) (h : Renames ρ flags (.stmt thenPart) (.stmt thenPart')) :
      Renames ρ flags (.stmt (.ifThen condition thenPart))
        (.stmt (.ifThen (condition.rename ρ flags) thenPart'))
  | ifElse {flags : List Bool} {condition : Expr Link} {thenPart thenPart' elsePart elsePart' : Stmt Link}
      (he : condition.Proper) (h : Renames ρ flags (.stmt thenPart) (.stmt thenPart'))
      (h' : Renames ρ flags (.stmt elsePart) (.stmt elsePart')) :
      Renames ρ flags (.stmt (.ifElse condition thenPart elsePart))
        (.stmt (.ifElse (condition.rename ρ flags) thenPart' elsePart'))
  | whileDo {flags : List Bool} {condition : Expr Link} {body body' : Stmt Link}
      (he : condition.Proper) (h : Renames ρ flags (.stmt body) (.stmt body')) :
      Renames ρ flags (.stmt (.whileDo condition body))
        (.stmt (.whileDo (condition.rename ρ flags) body'))
  | function {flags : List Bool} {f f' : Function Link}
      (hn : changeIf ρ (flags.getD 0 false) f.name.text = f.name.text)
      (h : Renames ρ flags (.function f) (.function f')) :
      Renames ρ flags (.stmt (.function f)) (.stmt (.function f'))
  | giveBack {flags : List Bool} {keyword : Pos} {value : Option (Expr Link)}
      (he : ∀ e, value = some e → e.Proper) :
      Renames ρ flags (.stmt (.giveBack keyword value))
        (.stmt (.giveBack keyword (value.map (Expr.rename ρ flags))))
  | classDecl {flags : List Bool} {name : Name} {superclass : Option (Reference Link)}
      {methods methods' : List (Function Link)}
      (hn : changeIf ρ (flags.getD 0 false) name.text = name.text)
      (hlen : methods'.length = methods.length)
      (hm : ∀ (i : Nat) (f f' : Function Link), methods[i]? = some f → methods'[i]? = some f' →
        Renames ρ (if superclass.isSome then false :: flags else flags) (.method f) (.method f')) :
      Renames ρ flags (.stmt (.classDecl name superclass methods))
        (.stmt (.classDecl name (superclass.map (Reference.rename ρ flags)) methods'))
  | nil {flags : List Bool} : Renames ρ flags (.stmts []) (.stmts [])
  | cons {flags : List Bool} {st st' : Stmt Link} {sts sts' : List (Stmt Link)}
      (h : Renames ρ flags (.stmt st) (.stmt st')) (hs : Renames ρ flags (.stmts sts) (.stmts sts')) :
      Renames ρ flags (.stmts (st :: sts)) (.stmts (st' :: sts'))
  | mk {flags : List Bool} {name : Name} {params : List Name} {flag : Bool}
      {body body' : List (Stmt Link)} (h : Renames ρ (flag :: flags) (.stmts body) (.stmts body')) :
      Renames ρ flags (.function (.mk name params body))
        (.function (.mk name (params.map (Name.renameIf ρ flag)) body'))
  | method {flags : List Bool} {f f' : Function Link}
      (h : Renames ρ (false :: flags) (.function f) (.function f')) :
      Renames ρ flags (.method f) (.method f')

theorem Renames.function_name {ρ : String → String} {flags : List Bool} {f f' : Function Link}
    (h : Renames ρ flags (.function f) (.function f')) : f'.name = f.name := by
  cases h
  rfl

theorem Renames.function_arity {ρ : String → String} {flags : List Bool} {f f' : Function Link}
    (h : Renames ρ flags (.function f) (.function f')) : f'.params.length = f.params.length := by
  cases h
  exact List.length_map _

/-! ## Chains -/

/-- The flags of the frames of a chain, but for the frame of the globals, which has none. -/
inductive FlagsOf (g : List Bool) : List Bool → Chain → Prop
  | globals (h : g[0]? = some false) : FlagsOf g [] Action.globals
  | cons {flag : Bool} {flags : List Bool} {id : FrameId} {chain : Chain} (hid : g[id]? = some flag)
      (h : FlagsOf g flags chain) : FlagsOf g (flag :: flags) (id :: chain)

theorem getElem?_of_extension {g g' : List Bool} (hg : g <+: g') {i : Nat} {flag : Bool}
    (h : g[i]? = some flag) : g'[i]? = some flag := by
  obtain ⟨more, rfl⟩ := hg
  rw [List.getElem?_append_left (List.getElem?_eq_some_iff.mp h).1]
  exact h

theorem FlagsOf.mono {g g' flags : List Bool} {chain : Chain} (hg : g <+: g')
    (h : FlagsOf g flags chain) : FlagsOf g' flags chain := by
  induction h with
  | globals h => exact .globals (getElem?_of_extension hg h)
  | cons hid _ ih => exact .cons (getElem?_of_extension hg hid) ih

/-- The flag of the frame that a link leads to. -/
theorem FlagsOf.getElem? {g flags : List Bool} {chain : Chain} (h : FlagsOf g flags chain) {d : Nat}
    {id : FrameId} (hd : chain[d]? = some id) : g[id]? = some (flags.getD d false) := by
  induction h generalizing d with
  | globals h =>
    cases d with
    | zero =>
      cases hd
      exact h
    | succ d => exact absurd hd (by simp [Action.globals])
  | cons hid _ ih =>
    cases d with
    | zero =>
      cases hd
      exact hid
    | succ d => exact ih hd

theorem FlagsOf.globals_flag {g flags : List Bool} {chain : Chain} (h : FlagsOf g flags chain) :
    g[0]? = some false := by
  induction h with
  | globals h => exact h
  | cons _ _ ih => exact ih

/-! ## Values -/

section Values

variable (ρ : String → String) (g : List Bool)

/-- Functions that differ by names. -/
inductive ClosureAlike (c c' : Closure) : Prop
  | mk {flags : List Bool} (hid : c'.id = c.id) (hcap : c'.captured = c.captured)
      (hinit : c'.isInitializer = c.isInitializer) (hflags : FlagsOf g flags c.captured)
      (hf : Renames ρ flags (.function c.function) (.function c'.function))

/-- Methods of classes that differ by names. -/
inductive MethodAlike (c c' : Closure) : Prop
  | mk {flags : List Bool} (hcap : c'.captured = c.captured)
      (hinit : c'.isInitializer = c.isInitializer) (hflags : FlagsOf g flags c.captured)
      (hf : Renames ρ flags (.method c.function) (.method c'.function))

/-- Classes whose methods differ by names. -/
inductive ClassAlike : ClassValue → ClassValue → Prop
  | root {id : Nat} {name : String} {methods methods' : Bindings Closure}
      (hm : ∀ key, Option.Rel (MethodAlike ρ g) (methods.get? key) (methods'.get? key)) :
      ClassAlike (.mk id name none methods) (.mk id name none methods')
  | derived {id : Nat} {name : String} {k k' : ClassValue} {methods methods' : Bindings Closure}
      (hk : ClassAlike k k')
      (hm : ∀ key, Option.Rel (MethodAlike ρ g) (methods.get? key) (methods'.get? key)) :
      ClassAlike (.mk id name (some k) methods) (.mk id name (some k') methods')

/-- Values that differ by names. -/
inductive ValueAlike : Value → Value → Prop
  | nil : ValueAlike .nil .nil
  | bool (b : Bool) : ValueAlike (.bool b) (.bool b)
  | number (x : Float) : ValueAlike (.number x) (.number x)
  | string (s : String) : ValueAlike (.string s) (.string s)
  | closure {c c' : Closure} (h : ClosureAlike ρ g c c') : ValueAlike (.closure c) (.closure c')
  | native (n : Native) : ValueAlike (.native n) (.native n)
  | ofClass {k k' : ClassValue} (h : ClassAlike ρ g k k') : ValueAlike (.ofClass k) (.ofClass k')
  | object {k k' : ClassValue} (id : Nat) (h : ClassAlike ρ g k k') :
      ValueAlike (.object ⟨id, k⟩) (.object ⟨id, k'⟩)

/-- Stores that differ by names. -/
structure Alike (s s' : Store) : Prop where
  size : s.frames.size = g.length
  size' : s'.frames.size = g.length
  frames : ∀ id flag, g[id]? = some flag → ∀ name,
    Option.Rel (ValueAlike ρ g) (s.frames.read id name) (s'.frames.read id (changeIf ρ flag name))
  objects : s'.objects.size = s.objects.size
  fields : ∀ id name, Option.Rel (ValueAlike ρ g) ((s.objects.getD id .empty).get? name)
    ((s'.objects.getD id .empty).get? name)
  fresh : s'.fresh = s.fresh
  readings : s'.readings = s.readings
  output : s'.output = s.output

end Values

section Mono

variable {ρ : String → String} {g g' : List Bool}

theorem optionRel_mono {r r' : α → β → Prop} (hr : ∀ a b, r a b → r' a b) {a : Option α}
    {b : Option β} (h : Option.Rel r a b) : Option.Rel r' a b := by
  cases h with
  | none => exact .none
  | some h => exact .some (hr _ _ h)

theorem optionRel_none {r : α → β → Prop} {b : Option β} (h : Option.Rel r none b) : b = none := by
  cases h
  rfl

theorem optionRel_some {r : α → β → Prop} {a : α} {b : Option β} (h : Option.Rel r (some a) b) :
    ∃ b', b = some b' ∧ r a b' := by
  cases h with
  | some h => exact ⟨_, rfl, h⟩

theorem ClosureAlike.mono (hg : g <+: g') {c c' : Closure} (h : ClosureAlike ρ g c c') :
    ClosureAlike ρ g' c c' := by
  obtain ⟨hid, hcap, hinit, hflags, hf⟩ := h
  exact ⟨hid, hcap, hinit, hflags.mono hg, hf⟩

theorem MethodAlike.mono (hg : g <+: g') {c c' : Closure} (h : MethodAlike ρ g c c') :
    MethodAlike ρ g' c c' := by
  obtain ⟨hcap, hinit, hflags, hf⟩ := h
  exact ⟨hcap, hinit, hflags.mono hg, hf⟩

theorem ClassAlike.mono (hg : g <+: g') {k k' : ClassValue} (h : ClassAlike ρ g k k') :
    ClassAlike ρ g' k k' := by
  induction h with
  | root hm => exact .root fun key => optionRel_mono (fun _ _ h => h.mono hg) (hm key)
  | derived _ hm ih => exact .derived ih fun key => optionRel_mono (fun _ _ h => h.mono hg) (hm key)

theorem ValueAlike.mono (hg : g <+: g') {v v' : Value} (h : ValueAlike ρ g v v') :
    ValueAlike ρ g' v v' := by
  cases h with
  | nil => exact .nil
  | bool b => exact .bool b
  | number x => exact .number x
  | string s => exact .string s
  | closure h => exact .closure (h.mono hg)
  | native n => exact .native n
  | ofClass h => exact .ofClass (h.mono hg)
  | object id h => exact .object id (h.mono hg)

end Mono

/-! ## What values show -/

section Shown

variable {ρ : String → String} {g : List Bool} {v v' w w' : Value}

theorem ClosureAlike.name {c c' : Closure} (h : ClosureAlike ρ g c c') :
    c'.function.name = c.function.name := by
  obtain ⟨-, -, -, -, hf⟩ := h
  exact hf.function_name

theorem ClassAlike.id_name {k k' : ClassValue} (h : ClassAlike ρ g k k') :
    k'.id = k.id ∧ k'.name = k.name := by
  cases h with
  | root | derived => exact ⟨rfl, rfl⟩

theorem ClassAlike.findMethod? {k k' : ClassValue} (h : ClassAlike ρ g k k') (name : String) :
    Option.Rel (MethodAlike ρ g) (k.findMethod? name) (k'.findMethod? name) := by
  induction h with
  | root hm => exact hm name
  | @derived id _ k k' methods methods' _ hm ih =>
    have hname := hm name
    rw [ClassValue.findMethod?, ClassValue.findMethod?]
    cases hget : methods.get? name with
    | none =>
      rw [hget] at hname
      rw [optionRel_none hname]
      exact ih
    | some c =>
      rw [hget] at hname
      obtain ⟨c', hget', hc⟩ := optionRel_some hname
      rw [hget']
      exact .some hc

theorem MethodAlike.arity {c c' : Closure} (h : MethodAlike ρ g c c') :
    c'.function.params.length = c.function.params.length := by
  obtain ⟨-, -, -, hf⟩ := h
  cases hf with
  | method hf => exact hf.function_arity

theorem ValueAlike.truthy (h : ValueAlike ρ g v v') : v'.truthy = v.truthy := by
  cases h <;> rfl

theorem ValueAlike.text (h : ValueAlike ρ g v v') : v'.text = v.text := by
  cases h with
  | closure h => rw [Value.text, Value.text, h.name]
  | ofClass h => exact h.id_name.2
  | object id h => rw [Value.text, Value.text, h.id_name.2]
  | nil | bool | number | string | native => rfl

theorem ValueAlike.equal (h : ValueAlike ρ g v v') (h' : ValueAlike ρ g w w') :
    v'.equal w' = v.equal w := by
  cases h with
  | closure hc =>
    cases h' with
    | closure hc' =>
      obtain ⟨hid, -⟩ := hc
      obtain ⟨hid', -⟩ := hc'
      rw [Value.equal, Value.equal, hid, hid']
    | _ => rfl
  | ofClass hk =>
    cases h' with
    | ofClass hk' => rw [Value.equal, Value.equal, hk.id_name.1, hk'.id_name.1]
    | _ => rfl
  | _ => cases h' <;> rfl

theorem ValueAlike.arity (h : ValueAlike ρ g v v') : v'.arity? = v.arity? := by
  cases h with
  | closure h =>
    obtain ⟨-, -, -, -, hf⟩ := h
    rw [Value.arity?, Value.arity?, hf.function_arity]
  | @ofClass k k' h =>
    have hinit := h.findMethod? initName
    rw [Value.arity?, Value.arity?]
    cases hc : k.findMethod? initName with
    | none =>
      rw [hc] at hinit
      rw [optionRel_none hinit]
    | some c =>
      rw [hc] at hinit
      obtain ⟨c', hc', hm⟩ := optionRel_some hinit
      rw [hc']
      exact congrArg some hm.arity
  | nil | bool | number | string | native | object => rfl

end Shown

end LoxKit
