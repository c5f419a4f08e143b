import LoxKit.Proofs.Alignment.Chains
import LoxKit.Proofs.Machine.Sound
import LoxKit.Proofs.Renaming.Alike

/-!
# Twins

Two stores are twins if their frames have partners and all else is as in the other. Functions are
twins if they come from the same text and can see aligned chains. Twins show no difference.

Headlines:
* `Twins`: stores that are twins.
* `ValueTwin.text`, `ValueTwin.equal`, `ValueTwin.arity`: twins show no difference.
-/

namespace LoxKit

open LoxKit.Action

/-! ## Linked functions -/

section Linked

variable (around : Surroundings) (scopes : Scopes) (f : Function Unit)

theorem linkFunction_name : (linkFunction around scopes f).tree.name = f.name := by
  cases f
  rw [linkFunction]
  rfl

theorem linkFunction_params : (linkFunction around scopes f).tree.params = f.params := by
  cases f
  rw [linkFunction]
  rfl

theorem linkFunction_body : (linkFunction around scopes f).tree.body =
    (linkStmts around (Scopes.introduceAll (.empty :: scopes) f.params).1 f.body).tree := by
  cases f
  rw [linkFunction]
  rfl

end Linked

/-! ## Values -/

section Values

variable (P : Pairing)

/-- Functions from the same text that can see aligned chains. -/
inductive ClosureTwin (c c' : Closure) : Prop
  | mk {around : Surroundings} {scopes scopes' : Scopes} {names : List (List String)}
      {f : Function Unit} (hid : c'.id = c.id) (hinit : c'.isInitializer = c.isInitializer)
      (hr : Regular ⟨around, scopes, .function f⟩ names)
      (hf : c.function = (linkFunction around scopes f).tree)
      (hf' : c'.function = (linkFunction around scopes' f).tree)
      (ha : Flush P scopes c.captured scopes' c'.captured)

/-- Methods of classes from the same text that can see aligned chains. -/
inductive MethodTwin (c c' : Closure) : Prop
  | mk {around : Surroundings} {scopes scopes' : Scopes} {names : List (List String)}
      {f : Function Unit} (hinit : c'.isInitializer = c.isInitializer)
      (hr : Regular ⟨around, scopes, .method f⟩ names)
      (hf : c.function = (linkFunction around (.single Keyword.this.word :: scopes) f).tree)
      (hf' : c'.function = (linkFunction around (.single Keyword.this.word :: scopes') f).tree)
      (ha : Aligned P scopes c.captured scopes' c'.captured)

/-- Classes whose methods are twins. -/
inductive ClassTwin : ClassValue → ClassValue → Prop
  | root {id : Nat} {name : String} {methods methods' : Bindings Closure}
      (hm : ∀ key, Option.Rel (MethodTwin P) (methods.get? key) (methods'.get? key)) :
      ClassTwin (.mk id name none methods) (.mk id name none methods')
  | derived {id : Nat} {name : String} {k k' : ClassValue} {methods methods' : Bindings Closure}
      (hk : ClassTwin k k')
      (hm : ∀ key, Option.Rel (MethodTwin P) (methods.get? key) (methods'.get? key)) :
      ClassTwin (.mk id name (some k) methods) (.mk id name (some k') methods')

/-- Values that are equal but for the functions in them, which are twins. -/
inductive ValueTwin : Value → Value → Prop
  | nil : ValueTwin .nil .nil
  | bool (b : Bool) : ValueTwin (.bool b) (.bool b)
  | number (x : Float) : ValueTwin (.number x) (.number x)
  | string (s : String) : ValueTwin (.string s) (.string s)
  | closure {c c' : Closure} (h : ClosureTwin P c c') : ValueTwin (.closure c) (.closure c')
  | native (n : Native) : ValueTwin (.native n) (.native n)
  | ofClass {k k' : ClassValue} (h : ClassTwin P k k') : ValueTwin (.ofClass k) (.ofClass k')
  | object {k k' : ClassValue} (id : Nat) (h : ClassTwin P k k') :
      ValueTwin (.object ⟨id, k⟩) (.object ⟨id, k'⟩)

/-- Stores that are twins. Partners bind the same names to twins, and so do the objects. -/
structure Twins (s s' : Store) : Prop where
  made : ∀ i j, P i j → i < s.frames.size ∧ j < s'.frames.size
  unique : ∀ i j j', P i j → P i j' → j = j'
  unique' : ∀ i i' j, P i j → P i' j → i = i'
  frames : ∀ i j, P i j → ∀ name,
    Option.Rel (ValueTwin P) (s.frames.read i name) (s'.frames.read j name)
  objects : s'.objects.size = s.objects.size
  fields : ∀ id name, Option.Rel (ValueTwin P) ((s.objects.getD id .empty).get? name)
    ((s'.objects.getD id .empty).get? name)
  fresh : s'.fresh = s.fresh
  readings : s'.readings = s.readings
  output : s'.output = s.output

end Values

section Mono

variable {P P' : Pairing}

theorem ClosureTwin.mono (hP : P ≤ P') {c c' : Closure} (h : ClosureTwin P c c') :
    ClosureTwin P' c c' := by
  obtain ⟨hid, hinit, hr, hf, hf', ha⟩ := h
  exact ⟨hid, hinit, hr, hf, hf', ha.mono hP⟩

theorem MethodTwin.mono (hP : P ≤ P') {c c' : Closure} (h : MethodTwin P c c') :
    MethodTwin P' c c' := by
  obtain ⟨hinit, hr, hf, hf', ha⟩ := h
  exact ⟨hinit, hr, hf, hf', ha.mono hP⟩

theorem ClassTwin.mono (hP : P ≤ P') {k k' : ClassValue} (h : ClassTwin P k k') :
    ClassTwin P' k k' := by
  induction h with
  | root hm => exact .root fun key => optionRel_mono (fun _ _ h => h.mono hP) (hm key)
  | derived _ hm ih => exact .derived ih fun key => optionRel_mono (fun _ _ h => h.mono hP) (hm key)

theorem ValueTwin.mono (hP : P ≤ P') {v v' : Value} (h : ValueTwin P v v') : ValueTwin P' v v' := by
  cases h with
  | nil => exact .nil
  | bool b => exact .bool b
  | number x => exact .number x
  | string s => exact .string s
  | closure h => exact .closure (h.mono hP)
  | native n => exact .native n
  | ofClass h => exact .ofClass (h.mono hP)
  | object id h => exact .object id (h.mono hP)

end Mono

/-! ## What values show -/

section Shown

variable {P : Pairing} {v v' w w' : Value}

theorem ClosureTwin.name {c c' : Closure} (h : ClosureTwin P c c') :
    c'.function.name = c.function.name := by
  obtain ⟨-, -, -, hf, hf', -⟩ := h
  rw [hf, hf', linkFunction_name, linkFunction_name]

theorem ClosureTwin.params {c c' : Closure} (h : ClosureTwin P c c') :
    c'.function.params = c.function.params := by
  obtain ⟨-, -, -, hf, hf', -⟩ := h
  rw [hf, hf', linkFunction_params, linkFunction_params]

theorem MethodTwin.params {c c' : Closure} (h : MethodTwin P c c') :
    c'.function.params = c.function.params := by
  obtain ⟨-, -, hf, hf', -⟩ := h
  rw [hf, hf', linkFunction_params, linkFunction_params]

theorem ClassTwin.id_name {k k' : ClassValue} (h : ClassTwin P k k') :
    k'.id = k.id ∧ k'.name = k.name := by
  cases h with
  | root | derived => exact ⟨rfl, rfl⟩

theorem ClassTwin.findMethod? {k k' : ClassValue} (h : ClassTwin P k k') (name : String) :
    Option.Rel (MethodTwin P) (k.findMethod? name) (k'.findMethod? name) := by
  induction h with
  | root hm => exact hm name
  | @derived id _ k k' methods methods' _ hm ih =>
    have hname := hm name
    rw [ClassValue.findMethod?, ClassValue.findMethod?]
    cases hget : methods.get? name with
    | none =>
      rw [hget] at hname
      rw [optionRel_none hname]
      exact ih
    | some c =>
      rw [hget] at hname
      obtain ⟨c', hget', hc⟩ := optionRel_some hname
      rw [hget']
      exact .some hc

theorem ValueTwin.truthy (h : ValueTwin P v v') : v'.truthy = v.truthy := by
  cases h <;> rfl

theorem ValueTwin.text (h : ValueTwin P v v') : v'.text = v.text := by
  cases h with
  | closure h => rw [Value.text, Value.text, h.name]
  | ofClass h => exact h.id_name.2
  | object id h => rw [Value.text, Value.text, h.id_name.2]
  | nil | bool | number | string | native => rfl

theorem ValueTwin.equal (h : ValueTwin P v v') (h' : ValueTwin P w w') :
    v'.equal w' = v.equal w := by
  cases h with
  | closure hc =>
    cases h' with
    | closure hc' =>
      obtain ⟨hid, -⟩ := hc
      obtain ⟨hid', -⟩ := hc'
      rw [Value.equal, Value.equal, hid, hid']
    | _ => rfl
  | ofClass hk =>
    cases h' with
    | ofClass hk' => rw [Value.equal, Value.equal, hk.id_name.1, hk'.id_name.1]
    | _ => rfl
  | _ => cases h' <;> rfl

theorem ValueTwin.arity (h : ValueTwin P v v') : v'.arity? = v.arity? := by
  cases h with
  | closure h => rw [Value.arity?, Value.arity?, h.params]
  | @ofClass k k' h =>
    have hinit := h.findMethod? initName
    rw [Value.arity?, Value.arity?]
    cases hc : k.findMethod? initName with
    | none =>
      rw [hc] at hinit
      rw [optionRel_none hinit]
    | some c =>
      rw [hc] at hinit
      obtain ⟨c', hc', hm⟩ := optionRel_some hinit
      rw [hc']
      exact congrArg (fun params => some params.length) hm.params
  | nil | bool | number | string | native | object => rfl

theorem ValueTwin.decides (h : ValueTwin P v v') (op : LogicalOp) :
    op.decides v' = op.decides v := by
  unfold LogicalOp.decides
  rw [h.truthy]

end Shown

end LoxKit
