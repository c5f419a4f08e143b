import LoxKit.Proofs.Machine.Returning

/-!
# Classes and the declarations that make them

A class is made once, when its declaration runs: its superclass is the class that the declaration
finds, and its methods are those of the body, of two with one name the later. So what a lookup finds
is settled by the bodies of the declarations: the first class of a lineage whose body declares the
name decides.

Headlines:
* `Makes`: a declaration makes a class out of its body.
* `Makes.leaves`, `Makes.superclassOf`, `Makes.methods`: which class that is.
* `Lookup`: what the bodies of declarations say about a name.
* **`lookup_findMethod?`**: the method that a class finds is the one that the bodies say.
-/

namespace LoxKit

open LoxKit.Action

/-! ## Methods -/

/-- The last function of a name in the body of a class. -/
def lastNamed? (body : List (Function Link)) (name : String) : Option (Function Link) :=
  body.reverse.find? fun f => f.name.text == name

theorem lastNamed?_cons (f : Function Link) (fs : List (Function Link)) (name : String) :
    lastNamed? (f :: fs) name =
      (lastNamed? fs name).or (if f.name.text = name then some f else none) := by
  unfold lastNamed?
  rw [List.reverse_cons, List.find?_append, List.find?_singleton]
  simp only [beq_iff_eq]

theorem lastNamed?_name {fs : List (Function Link)} {name : String} {f : Function Link}
    (hf : lastNamed? fs name = some f) : f.name.text = name :=
  beq_iff_eq.mp (List.find?_some (p := fun f : Function Link => f.name.text == name) hf)

/-- A function as a class declaration makes it, in the chain of the class. -/
structure Closure.MethodOf (c : Closure) (f : Function Link) (inner : Chain) : Prop where
  function_eq : c.function = f
  captured_eq : c.captured = inner
  initializer_eq : c.isInitializer = (f.name.text == initName)

/-- What the methods of a body do to a table. -/
theorem newMethods_table (inner : Chain) (fs : List (Function Link)) :
    ∀ (table : Bindings Closure) (s : Store), ∃ table',
      newMethods inner fs table s = .done table' { s with fresh := s.fresh + fs.length } ∧
      ∀ name, (lastNamed? fs name = none ∧ table'.get? name = table.get? name) ∨
        ∃ f c, lastNamed? fs name = some f ∧ table'.get? name = some c ∧ c.MethodOf f inner := by
  induction fs with
  | nil => exact fun table s => ⟨table, rfl, fun name => Or.inl ⟨rfl, rfl⟩⟩
  | cons f fs ih =>
    intro table s
    obtain ⟨table', hdone, hnames⟩ :=
      ih (table.set f.name.text ⟨s.fresh, f, inner, f.name.text == initName⟩)
        { s with fresh := s.fresh + 1 }
    refine ⟨table', ?_, fun name => ?_⟩
    · have hsteps : s.fresh + 1 + fs.length = s.fresh + (f :: fs).length := by
        rw [List.length_cons, Nat.add_assoc, Nat.add_comm 1]
      rw [← hsteps]
      exact hdone
    · rw [lastNamed?_cons]
      rcases hnames name with ⟨hnone, hget⟩ | ⟨f', c, hsome, hget, hc⟩
      · rw [hnone, Option.none_or]
        by_cases hname : f.name.text = name
        · rw [hget, if_pos hname, ← hname, Bindings.get?_set_self]
          exact Or.inr ⟨f, _, rfl, rfl, rfl, rfl, rfl⟩
        · rw [hget, if_neg hname, Bindings.get?_set_of_ne _ _ (Ne.symm hname)]
          exact Or.inl ⟨rfl, rfl⟩
      · rw [hsome, Option.some_or]
        exact Or.inr ⟨f', c, rfl, hget, hc⟩

/-- A table holds the last function of each name in a body. -/
def TableOf (inner : Chain) (body : List (Function Link)) (table : Bindings Closure) : Prop :=
  ∀ name, (lastNamed? body name = none ∧ table.get? name = none) ∨
    ∃ f c, lastNamed? body name = some f ∧ table.get? name = some c ∧ c.MethodOf f inner

/-! ## Declarations -/

/-- A declaration that begins makes a class out of its body: behind it, the innermost frame binds
its name to that class. -/
inductive Makes (h : Host) : Moment → List (Function Link) → ClassValue → Prop
  | mk {name : Name} {superclass : Option (Reference Link)} {body : List (Function Link)}
      {fuel depth : Nat} {chain : Chain} {s s' : Store} {k : ClassValue}
      (hrun : execute h fuel depth chain (.classDecl name superclass body) s = .done .carryOn s')
      (hmade : s'.frames.getAt chain 0 name.text = .ok (.ofClass k)) :
      Makes h (.run (.stmt (.classDecl name superclass body)) fuel depth chain s) body k

section Making

variable {h : Host} {fuel depth : Nat} {chain inner : Chain} {s s' : Store} {name : Name}
  {superclass : Option (Reference Link)} {body body' : List (Function Link)} {m : Moment}
  {above : Option ClassValue} {k k' : ClassValue}

/-- A declaration that begins makes one class. -/
theorem Makes.unique (hm : Makes h m body k) (hm' : Makes h m body' k') : k = k' := by
  obtain ⟨hrun, hmade⟩ := hm
  obtain ⟨hrun', hmade'⟩ := hm'
  cases hrun.symm.trans hrun'
  cases hmade.symm.trans hmade'
  rfl

/-- What the superclass of a declaration comes to. -/
inductive SuperclassOf (chain : Chain) (s : Store) :
    Option (Reference Link) → Option ClassValue → Prop
  | none : SuperclassOf chain s none none
  | found {r : Reference Link} {k : ClassValue} (hk : follow chain r s = .done (.ofClass k) s) :
      SuperclassOf chain s (some r) (some k)

theorem defineIn_fresh {name : String} {v : Value}
    (hd : defineIn chain name v s = .done () s') : s'.fresh = s.fresh := by
  cases chain with
  | nil => cases hd
  | cons id rest =>
    cases hd
    rfl

/-- A declaration that is done has come to its second half. -/
theorem classDecl_done {c : Completion}
    (hrun : execute h fuel depth chain (.classDecl name superclass body) s = .done c s') :
    ∃ above inner s₁, SuperclassOf chain s superclass above ∧
      declareClass chain inner name above body s₁ = .done c s' ∧ s₁.fresh = s.fresh := by
  rcases fuel with - | fuel
  · rw [execute] at hrun
    cases hrun
  rw [execute] at hrun
  cases superclass with
  | none =>
    change (defineIn chain name.text .nil >>= fun _ =>
      declareClass chain chain name none body) s = .done c s' at hrun
    obtain ⟨u, s₁, hdefine, hrun⟩ := Action.bind_eq_done hrun
    exact ⟨none, chain, s₁, .none, hrun, defineIn_fresh hdefine⟩
  | some r =>
    obtain ⟨v, s₀, hv, hrun⟩ := Action.bind_eq_done (a := follow chain r) hrun
    obtain rfl := follow_done hv
    cases v with
    | ofClass k =>
      change (defineIn chain name.text .nil >>= fun _ =>
        newFrame (Bindings.empty.set Keyword.super.word (.ofClass k)) >>= fun frame =>
          declareClass chain (frame :: chain) name (some k) body) s₀ = .done c s' at hrun
      obtain ⟨u, s₁, hdefine, hrun⟩ := Action.bind_eq_done hrun
      obtain ⟨frame, s₂, hframe, hrun⟩ := Action.bind_eq_done hrun
      cases hframe
      have hfresh := defineIn_fresh hdefine
      exact ⟨some k, _, _, .found hv, hrun, hfresh⟩
    | _ => cases hrun

/-- The class that the second half of a declaration makes. -/
theorem declareClass_made {c : Completion}
    (hrun : declareClass chain inner name above body s = .done c s')
    (hmade : s'.frames.getAt chain 0 name.text = .ok (.ofClass k)) :
    k.id = s.fresh + body.length ∧ s'.fresh = k.id + 1 ∧ k.superclass? = above ∧
      TableOf inner body k.methods := by
  unfold Frames.getAt at hmade
  split at hmade
  · cases hmade
  next id hid =>
    obtain ⟨table, htable, hnames⟩ := newMethods_table inner body .empty s
    rw [declareClass_eq (by rw [List.head?_eq_getElem?, hid]) htable] at hrun
    cases hrun
    by_cases hlt : id < s.frames.size
    · rw [Frames.read_define _ hlt, if_pos ⟨rfl, rfl⟩] at hmade
      cases hmade
      exact ⟨rfl, rfl, rfl, hnames⟩
    · have hle := Nat.not_lt.mp hlt
      rw [Frames.define_of_le _ hle, Frames.read_of_le _ hle] at hmade
      cases hmade

/-- The identity of a class is one that was given out by its declaration. -/
theorem Makes.leaves (hm : Makes h m body k) :
    m.store.fresh ≤ k.id ∧ ∃ s', m.leaves? h = some s' ∧ s'.fresh = k.id + 1 := by
  obtain ⟨hrun, hmade⟩ := hm
  obtain ⟨above, inner, s₁, -, hdeclare, hfresh⟩ := classDecl_done hrun
  obtain ⟨hid, hfresh', -, -⟩ := declareClass_made hdeclare hmade
  refine ⟨?_, _, by rw [Moment.leaves?, Node.run, hrun]; rfl, hfresh'⟩
  rw [hid, hfresh]
  exact Nat.le_add_right _ _

/-- The methods of a class are those of the body of its declaration. -/
theorem Makes.methods (hm : Makes h m body k) : ∃ inner, TableOf inner body k.methods := by
  obtain ⟨hrun, hmade⟩ := hm
  obtain ⟨above, inner, s₁, -, hdeclare, -⟩ := classDecl_done hrun
  exact ⟨inner, (declareClass_made hdeclare hmade).2.2.2⟩

/-- The superclass of a class is the one that its declaration found. -/
theorem Makes.superclassOf
    (hm : Makes h (.run (.stmt (.classDecl name superclass body)) fuel depth chain s) body k) :
    SuperclassOf chain s superclass k.superclass? := by
  obtain ⟨hrun, hmade⟩ := hm
  obtain ⟨above, inner, s₁, hsuper, hdeclare, -⟩ := classDecl_done hrun
  rw [(declareClass_made hdeclare hmade).2.2.1]
  exact hsuper

end Making

/-! ## Lookups -/

/-- What the bodies of the classes of a lineage say about a name, where `B` says which body a class
has: the first that declares the name decides. -/
inductive Lookup (B : ClassValue → List (Function Link) → Prop) (name : String) :
    List ClassValue → Option (Function Link) → Prop
  | nowhere : Lookup B name [] none
  | here {k : ClassValue} {ks : List ClassValue} {body : List (Function Link)} {f : Function Link}
      (hb : B k body) (hf : lastNamed? body name = some f) : Lookup B name (k :: ks) (some f)
  | above {k : ClassValue} {ks : List ClassValue} {body : List (Function Link)}
      {r : Option (Function Link)} (hb : B k body) (hf : lastNamed? body name = none)
      (hr : Lookup B name ks r) : Lookup B name (k :: ks) r

section Finding

variable {B : ClassValue → List (Function Link) → Prop}

/-- What the bodies say is what the tables hold. -/
theorem lookup_findSome? (hB : ∀ k body, B k body → ∃ inner, TableOf inner body k.methods)
    (name : String) {ks : List ClassValue} (hks : ∀ k ∈ ks, ∃ body, B k body) :
    (Lookup B name ks none ∧ (ks.findSome? fun k => k.methods.get? name) = none) ∨
      ∃ f c inner, Lookup B name ks (some f) ∧ c.MethodOf f inner ∧
        (ks.findSome? fun k => k.methods.get? name) = some c := by
  induction ks with
  | nil => exact Or.inl ⟨.nowhere, rfl⟩
  | cons k ks ih =>
    obtain ⟨⟨body, hb⟩, hks⟩ := List.forall_mem_cons.mp hks
    obtain ⟨inner, htable⟩ := hB k body hb
    rw [List.findSome?_cons]
    rcases htable name with ⟨hnone, hget⟩ | ⟨f, c, hf, hget, hc⟩
    · rw [hget]
      rcases ih hks with ⟨hl, hfind⟩ | ⟨f, c, inner, hl, hc, hfind⟩
      · exact Or.inl ⟨.above hb hnone hl, hfind⟩
      · exact Or.inr ⟨f, c, inner, .above hb hnone hl, hc, hfind⟩
    · rw [hget]
      exact Or.inr ⟨f, c, inner, .here hb hf, hc, rfl⟩

/-- **The method that a class finds is the one that the bodies along its lineage say.** -/
theorem lookup_findMethod? (hB : ∀ k body, B k body → ∃ inner, TableOf inner body k.methods)
    (name : String) {k : ClassValue} (hk : ∀ k' ∈ k.lineage, ∃ body, B k' body) :
    (Lookup B name k.lineage none ∧ k.findMethod? name = none) ∨
      ∃ f c inner, Lookup B name k.lineage (some f) ∧ c.MethodOf f inner ∧
        k.findMethod? name = some c := by
  rw [ClassValue.findMethod?_eq]
  exact lookup_findSome? hB name hk

/-- The bodies say one thing about a name: what the tables hold. -/
theorem Lookup.findSome?_eq (hB : ∀ k body, B k body → ∃ inner, TableOf inner body k.methods)
    {name : String} {ks : List ClassValue} {r : Option (Function Link)} (hl : Lookup B name ks r) :
    (ks.findSome? fun k => k.methods.get? name).map Closure.function = r := by
  induction hl with
  | nowhere => rfl
  | here hb hf =>
    obtain ⟨inner, htable⟩ := hB _ _ hb
    rcases htable name with ⟨hnone, -⟩ | ⟨f', c, hf', hget, hc⟩
    · cases hf.symm.trans hnone
    · cases hf.symm.trans hf'
      rw [List.findSome?_cons, hget]
      exact congrArg some hc.function_eq
  | above hb hf _ ih =>
    obtain ⟨inner, htable⟩ := hB _ _ hb
    rcases htable name with ⟨-, hget⟩ | ⟨f', c, hf', -, -⟩
    · rw [List.findSome?_cons, hget]
      exact ih
    · cases hf.symm.trans hf'

/-- A function that is found has the name. -/
theorem Lookup.name_eq {name : String} {ks : List ClassValue} {f : Function Link}
    (hl : Lookup B name ks (some f)) : f.name.text = name := by
  generalize hr : some f = r at hl
  induction hl with
  | nowhere => cases hr
  | here _ hf =>
    cases hr
    exact lastNamed?_name hf
  | above _ _ _ ih => exact ih hr

end Finding

end LoxKit
