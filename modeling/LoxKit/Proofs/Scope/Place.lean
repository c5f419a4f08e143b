import LoxKit.Proofs.Syntax.Node
import LoxKit.Scope.Linking

/-!
# Places

A place is a node with what linking knows when it comes to it: the surroundings and the scopes that
are open. Linking a program visits the parts of a place with scopes that follow from the place, so
that what holds of a place can be handed down to its parts.

The names that are declared at a place are followed twice, in the scopes of linking and, as
`declaresAt` says, as the plain list of the names that the text declares before it. `Regular` says
among other things that the two agree.

Headlines:
* `Place.linked_part`: the parts of a linked place are its parts, linked.
* `scopes_linkStmt`: a statement adds to the scopes the names that it declares.
* `Regular.part`: what holds of a place in a clean program holds of its parts.
* `Regular.link_eq`: a reference is linked to the innermost scope that declares its name so far.
-/

namespace LoxKit

/-! ## Scopes -/

namespace Scopes

/-- Declares a name completely in the innermost scope. -/
def add : Scopes → String → Scopes
  | [], _ => []
  | scope :: outer, name => (scope.set name false).set name true :: outer

theorem introduce_fst (scopes : Scopes) (name : Name) :
    (scopes.introduce name).1 = scopes.add name.text := by
  cases scopes <;> rfl

theorem define_declare (scopes : Scopes) (name : Name) :
    (scopes.declare name).1.define name = scopes.add name.text := by
  cases scopes <;> rfl

theorem hops?_cons (scope : Scope) (scopes : Scopes) (name : String) :
    Scopes.hops? (scope :: scopes) name =
      if scope.contains name then some 0 else (scopes.hops? name).map (· + 1) := by
  unfold hops?
  rw [List.findIdx?_cons]

/-- No declaration is under way. -/
def Settled (scopes : Scopes) : Prop :=
  ∀ scope ∈ scopes, ∀ name, scope.get? name ≠ some false

theorem settled_nil : Settled [] :=
  fun _ h => absurd h List.not_mem_nil

theorem settled_cons {scope : Scope} {scopes : Scopes} :
    Settled (scope :: scopes) ↔ (∀ name, scope.get? name ≠ some false) ∧ Settled scopes :=
  List.forall_mem_cons

theorem Settled.tail {scopes : Scopes} (h : Settled scopes) : Settled scopes.tail :=
  fun scope hs => h scope (List.mem_of_mem_tail hs)

theorem settled_empty : ∀ name, (Bindings.empty : Scope).get? name ≠ some false :=
  fun _ h => by rw [Bindings.get?_empty] at h; exact absurd h (by simp)

theorem settled_single (w : String) : ∀ name, (Scope.single w).get? name ≠ some false := by
  intro name
  unfold Scope.single
  rw [Bindings.get?_set]
  split
  · simp
  · simp

theorem Settled.add {scopes : Scopes} (h : Settled scopes) (name : String) :
    Settled (scopes.add name) := by
  cases scopes with
  | nil => exact h
  | cons scope outer =>
    rw [settled_cons] at h
    refine settled_cons.mpr ⟨fun other => ?_, h.2⟩
    rw [Bindings.get?_set]
    split
    · simp
    · rename_i hne
      rw [Bindings.get?_set_of_ne _ _ hne]
      exact h.1 other

theorem Settled.addAll {names : List String} : ∀ {scopes : Scopes}, Settled scopes →
    Settled (names.foldl Scopes.add scopes) := by
  induction names with
  | nil => exact id
  | cons name names ih => exact fun h => ih (h.add name)

theorem contains_single (w : String) (name : String) :
    Bindings.contains (Scope.single w) name = true ↔ name ∈ [w] := by
  rw [Scope.single, Bindings.contains_set, Bindings.contains, Bindings.get?_empty,
    List.mem_singleton]
  simp

/-- The scopes declare the names of the lists, innermost first. -/
def Matches (scopes : Scopes) (names : List (List String)) : Prop :=
  List.Forall₂ (fun scope declared => ∀ n, Bindings.contains scope n = true ↔ n ∈ declared)
    scopes names

/-- Adds names to the innermost list. -/
def declareIn : List (List String) → List String → List (List String)
  | [], _ => []
  | declared :: outer, names => (declared ++ names) :: outer

theorem declareIn_nil (names : List (List String)) : declareIn names [] = names := by
  cases names with
  | nil => rfl
  | cons => simp only [declareIn, List.append_nil]

theorem Matches.set {scope : Scope} {scopes : Scopes} {declared : List String}
    {names : List (List String)} (h : Matches (scope :: scopes) (declared :: names)) (name : String)
    (value : Bool) : Matches (scope.set name value :: scopes) ((declared ++ [name]) :: names) := by
  rw [Matches, List.forall₂_cons] at h ⊢
  refine ⟨fun n => ?_, h.2⟩
  rw [Bindings.contains_set, Bool.or_eq_true, decide_eq_true_iff, h.1 n, List.mem_append,
    List.mem_singleton, or_comm]

theorem Matches.declare {scopes : Scopes} {names : List (List String)} (h : Matches scopes names)
    (name : Name) : Matches (scopes.declare name).1 (declareIn names [name.text]) := by
  cases h with
  | nil => exact .nil
  | cons hs ht => exact Matches.set (.cons hs ht) name.text false

theorem Matches.add {scopes : Scopes} {names : List (List String)} (h : Matches scopes names)
    (name : String) : Matches (scopes.add name) (declareIn names [name]) := by
  cases h with
  | nil => exact .nil
  | cons hs ht =>
    have hset := Matches.set (.cons hs ht) name false
    rw [Matches, List.forall₂_cons] at hset
    refine .cons (fun n => ?_) hset.2
    rw [Bindings.contains_set, Bool.or_eq_true, decide_eq_true_iff, hset.1 n, List.mem_append,
      List.mem_singleton]
    constructor
    · rintro (h | h)
      · exact Or.inr h
      · exact h
    · exact Or.inr

theorem Matches.addAll {declared : List String} : ∀ {scopes : Scopes} {names : List (List String)},
    Matches scopes names → Matches (declared.foldl Scopes.add scopes) (declareIn names declared) := by
  induction declared with
  | nil =>
    intro scopes names h
    rwa [declareIn_nil]
  | cons name declared ih =>
    intro scopes names h
    have h' := ih (h.add name)
    cases names with
    | nil => exact h'
    | cons first outer =>
      rw [List.foldl_cons]
      simpa only [declareIn, List.append_assoc, List.singleton_append] using h'

theorem Matches.hops? {scopes : Scopes} {names : List (List String)} (h : Matches scopes names)
    (name : String) : scopes.hops? name = names.findIdx? (name ∈ ·) := by
  induction h with
  | nil => rfl
  | @cons scope declared scopes names hs _ ih =>
    rw [hops?_cons, List.findIdx?_cons, ih]
    by_cases hn : name ∈ declared
    · rw [if_pos ((hs name).mpr hn), if_pos (decide_eq_true hn)]
    · rw [if_neg (fun hc => hn ((hs name).mp hc)), if_neg (by simpa using hn)]

/-! ### `this` and `super` -/

/-- What stands around methods of a kind of class: the scope of `this` and, just outside of it in a
class with a superclass, that of `super`, with no other of the two inside. -/
def Encloses (scopes : Scopes) : ClassKind → Prop
  | .none => True
  | .root => ∃ d, scopes.hops? Keyword.this.word = some d
  | .subclass => ∃ d, scopes.hops? Keyword.this.word = some d ∧
      scopes.hops? Keyword.super.word = some (d + 1)

/-- A scope without `this` and `super`. -/
def Bare (scope : Scope) : Prop :=
  scope.contains Keyword.this.word = false ∧ scope.contains Keyword.super.word = false

theorem Encloses.cons {scopes : Scopes} {kind : ClassKind} (h : Encloses scopes kind)
    {scope : Scope} (hb : Bare scope) : Encloses (scope :: scopes) kind := by
  cases kind with
  | none => trivial
  | root =>
    obtain ⟨d, hd⟩ := h
    exact ⟨d + 1, by rw [hops?_cons, hb.1, hd]; rfl⟩
  | subclass =>
    obtain ⟨d, hd, hs⟩ := h
    exact ⟨d + 1, by rw [hops?_cons, hb.1, hd]; rfl, by rw [hops?_cons, hb.2, hs]; rfl⟩

theorem contains_set_of_plain {scope : Scope} {name : String} (h : Plain name) (value : Bool)
    (k : Keyword) : (scope.set name value).contains k.word = scope.contains k.word := by
  rw [Bindings.contains_set, decide_eq_false (Ne.symm (h.ne_word k)), Bool.false_or]

theorem hops?_set_of_plain {scope : Scope} {scopes : Scopes} {name : String} (h : Plain name)
    (value : Bool) (k : Keyword) :
    Scopes.hops? (scope.set name value :: scopes) k.word = Scopes.hops? (scope :: scopes) k.word := by
  rw [hops?_cons, hops?_cons, contains_set_of_plain h]

theorem Encloses.congr {scopes scopes' : Scopes} {kind : ClassKind} (h : Encloses scopes kind)
    (heq : ∀ k : Keyword, scopes'.hops? k.word = scopes.hops? k.word) : Encloses scopes' kind := by
  cases kind with
  | none => trivial
  | root => exact h.imp fun d hd => by rw [heq, hd]
  | subclass => exact h.imp fun d hd => ⟨by rw [heq, hd.1], by rw [heq, hd.2]⟩

theorem hops?_declare {name : Name} (hn : Plain name.text) (scopes : Scopes) (k : Keyword) :
    (scopes.declare name).1.hops? k.word = scopes.hops? k.word := by
  cases scopes with
  | nil => rfl
  | cons => exact hops?_set_of_plain hn _ k

theorem hops?_add {name : String} (hn : Plain name) (scopes : Scopes) (k : Keyword) :
    (scopes.add name).hops? k.word = scopes.hops? k.word := by
  cases scopes with
  | nil => rfl
  | cons => exact (hops?_set_of_plain hn _ k).trans (hops?_set_of_plain hn _ k)

theorem hops?_addAll {names : List String} (hn : ∀ n ∈ names, Plain n) (scopes : Scopes)
    (k : Keyword) : (names.foldl Scopes.add scopes).hops? k.word = scopes.hops? k.word := by
  induction names generalizing scopes with
  | nil => rfl
  | cons name names ih =>
    rw [List.forall_mem_cons] at hn
    rw [List.foldl_cons, ih hn.2, hops?_add hn.1]

theorem Encloses.declare {scopes : Scopes} {kind : ClassKind} (h : Encloses scopes kind)
    {name : Name} (hn : Plain name.text) : Encloses (scopes.declare name).1 kind :=
  h.congr fun k => hops?_declare hn scopes k

theorem Encloses.add {scopes : Scopes} {kind : ClassKind} (h : Encloses scopes kind) {name : String}
    (hn : Plain name) : Encloses (scopes.add name) kind :=
  h.congr fun k => hops?_add hn scopes k

theorem Encloses.addAll {names : List String} (hn : ∀ n ∈ names, Plain n) {kind : ClassKind}
    {scopes : Scopes} (h : Encloses scopes kind) : Encloses (names.foldl Scopes.add scopes) kind :=
  h.congr fun k => hops?_addAll hn scopes k

theorem introduceAll_fst (scopes : Scopes) (params : List Name) :
    (scopes.introduceAll params).1 = (params.map Name.text).foldl add scopes := by
  induction params generalizing scopes with
  | nil => rfl
  | cons p params ih =>
    rw [List.map_cons, List.foldl_cons, ← introduce_fst, ← ih]
    rfl

end Scopes

/-- A statement adds to the scopes the names that it declares. -/
theorem scopes_linkStmt (around : Surroundings) {stmt : Stmt Unit} (h : stmt.Proper)
    (scopes : Scopes) :
    (linkStmt around scopes stmt).scopes = stmt.declares.foldl Scopes.add scopes := by
  cases h with
  | expression | print | block | giveBack =>
    rw [linkStmt]
    rfl
  | @var name initializer _ _ =>
    rw [linkStmt]
    exact Scopes.define_declare scopes name
  | @function f _ =>
    rw [linkStmt]
    exact Scopes.introduce_fst scopes f.name
  | @classDecl name superclass methods _ _ _ =>
    rw [linkStmt]
    exact Scopes.introduce_fst scopes name
  | @ifThen condition thenPart _ ht hd =>
    rw [linkStmt]
    have hthen := scopes_linkStmt around ht scopes
    rwa [hd] at hthen
  | @ifElse condition thenPart elsePart _ ht hd he hd' =>
    rw [linkStmt]
    have hthen := scopes_linkStmt around ht scopes
    have helse := scopes_linkStmt around he (linkStmt around scopes thenPart).scopes
    rw [hd] at hthen
    rw [hd', hthen] at helse
    rw [← hthen] at helse
    exact helse.trans hthen
  | @whileDo condition body _ hb hd =>
    rw [linkStmt]
    have hbody := scopes_linkStmt around hb scopes
    rwa [hd] at hbody

/-- What only guards statements leaves the scopes as they are. -/
theorem scopes_linkStmt_guarded {around : Surroundings} {stmt : Stmt Unit} (h : stmt.Proper)
    (hd : stmt.declares = []) (scopes : Scopes) : (linkStmt around scopes stmt).scopes = scopes := by
  rw [scopes_linkStmt around h, hd]
  rfl

/-! ## Places -/

/-- A node with the surroundings and the scopes that linking finds there. -/
structure Place where
  around : Surroundings
  scopes : Scopes
  node : Node Unit

namespace Place

/-- A node, linked. A method is linked inside the scope of `this`. -/
def linked (p : Place) : Node Link :=
  match p.node with
  | .expr e => .expr (linkExpr p.around p.scopes e).tree
  | .exprs es => .exprs (es.map fun e => (linkExpr p.around p.scopes e).tree)
  | .stmt st => .stmt (linkStmt p.around p.scopes st).tree
  | .stmts sts => .stmts (linkStmts p.around p.scopes sts).tree
  | .loop condition body =>
    .loop (linkExpr p.around p.scopes condition).tree (linkStmt p.around p.scopes body).tree
  | .function f => .function (linkFunction p.around p.scopes f).tree
  | .method f => .method (linkFunction p.around (.single Keyword.this.word :: p.scopes) f).tree

/-- The issues that linking finds in a node. -/
def issues (p : Place) : List Issue :=
  match p.node with
  | .expr e => (linkExpr p.around p.scopes e).issues
  | .exprs es => es.flatMap fun e => (linkExpr p.around p.scopes e).issues
  | .stmt st => (linkStmt p.around p.scopes st).issues
  | .stmts sts => (linkStmts p.around p.scopes sts).issues
  | .loop condition body =>
    (linkExpr p.around p.scopes condition).issues ++ (linkStmt p.around p.scopes body).issues
  | .function f => (linkFunction p.around p.scopes f).issues
  | .method f => (linkFunction p.around (.single Keyword.this.word :: p.scopes) f).issues

/-- The scopes in which linking comes to a part. -/
def scopesAt (p : Place) (i : Nat) : Scopes :=
  match p.node, i with
  | .stmt (.var name _), 0 => (p.scopes.declare name).1
  | .stmt (.classDecl name _ _), 0 => p.scopes.add name.text
  | .stmts (st :: _), 1 => (linkStmt p.around p.scopes st).scopes
  | _, _ => p.scopes

/-- The names that the text declares between the start of a place and a part of it. -/
def declaresAt (p : Place) (i : Nat) : List String :=
  match p.node, i with
  | .stmt (.var name _), 0 => [name.text]
  | .stmt (.classDecl name _ _), 0 => [name.text]
  | .stmts (st :: _), 1 => st.declares
  | _, _ => []

/-- A part of a place. -/
def part (p : Place) (i : Nat) : Option Place :=
  (p.node.part i).map fun n => ⟨p.around, p.scopesAt i, n⟩

/-- The scopes behind a place. -/
def scopesAfter (p : Place) : Scopes :=
  match p.node with
  | .stmt st => (linkStmt p.around p.scopes st).scopes
  | .stmts sts => (linkStmts p.around p.scopes sts).scopes
  | _ => p.scopes

/-- The parts of a linked place are its parts, linked. -/
theorem linked_part {p : Place} (h : p.node.Proper) (i : Nat) :
    p.linked.part i = (p.part i).map linked := by
  obtain ⟨around, scopes, n⟩ := p
  cases n with
  | expr e =>
    cases e with
    | call callee args paren =>
      rcases i with _ | _ | i <;>
        simp [linked, part, scopesAt, Node.part, Node.exprPart, linkExpr, Function.comp_def]
    | this target =>
      simp only [linked, part, Node.part, linkExpr]
      split <;> rfl
    | _ =>
      rcases i with _ | _ | i <;>
        simp [linked, part, scopesAt, Node.part, Node.exprPart, linkExpr, Linked.map]
  | exprs es =>
    rcases es with _ | ⟨e, es⟩ <;> rcases i with _ | _ | i <;> rfl
  | stmt st =>
    cases st with
    | var name initializer =>
      rcases initializer with _ | e <;> rcases i with _ | i <;>
        simp [linked, part, scopesAt, Node.part, Node.stmtPart, linkStmt, linkExpr?, Linked.map]
    | giveBack keyword value =>
      rcases value with _ | e <;> rcases i with _ | i <;>
        simp [linked, part, scopesAt, Node.part, Node.stmtPart, linkStmt, linkExpr?, Linked.map]
    | classDecl name superclass methods =>
      rcases superclass with _ | r <;> rcases i with _ | i <;>
        simp [linked, part, scopesAt, Node.part, Node.stmtPart, linkStmt, linkSuperclass, linkExpr,
          Linked.map, Scopes.introduce_fst]
    | ifElse condition thenPart elsePart =>
      cases h with
      | ifElse hc ht hd he hd' =>
        rcases i with _ | _ | _ | i <;>
          simp [linked, part, scopesAt, Node.part, Node.stmtPart, linkStmt,
            scopes_linkStmt_guarded ht hd]
    | _ =>
      rcases i with _ | _ | i <;>
        simp [linked, part, scopesAt, Node.part, Node.stmtPart, linkStmt]
  | stmts sts =>
    rcases sts with _ | ⟨st, sts⟩ <;> rcases i with _ | _ | i <;>
      simp [linked, part, scopesAt, Node.part, linkStmts]
  | loop condition body =>
    rcases i with _ | _ | _ | i <;> rfl
  | function f => rfl
  | method f => rfl

theorem part_eq_some {p p' : Place} {i : Nat} :
    p.part i = some p' ↔ ∃ n, p.node.part i = some n ∧ p' = ⟨p.around, p.scopesAt i, n⟩ := by
  unfold part
  rw [Option.map_eq_some_iff]
  exact ⟨fun ⟨n, hn, he⟩ => ⟨n, hn, he.symm⟩, fun ⟨n, hn, he⟩ => ⟨n, hn, he.symm⟩⟩

/-- The parts of a place without issues have none. -/
theorem issues_part {p p' : Place} {i : Nat} (h : p.node.Proper) (hc : p.issues = [])
    (hp : p.part i = some p') : p'.issues = [] := by
  obtain ⟨n, hn, rfl⟩ := part_eq_some.mp hp
  obtain ⟨around, scopes, node⟩ := p
  cases node with
  | expr e =>
    cases e <;> rcases i with _ | _ | i <;> cases hn <;>
      simp only [issues, linkExpr, Linked.map_issues, List.append_eq_nil_iff,
        List.flatMap_map] at hc <;>
      simp only [issues, scopesAt, hc]
  | exprs es =>
    rcases es with _ | ⟨e, es⟩ <;> rcases i with _ | _ | i <;> cases hn
    · exact (List.append_eq_nil_iff.mp hc).1
    · exact (List.append_eq_nil_iff.mp hc).2
  | stmt st =>
    cases st with
    | var name initializer =>
      rcases initializer with _ | e <;> rcases i with _ | i <;> cases hn
      simp only [issues, linkStmt, List.append_eq_nil_iff] at hc
      exact hc.2
    | giveBack keyword value =>
      rcases value with _ | e <;> rcases i with _ | i <;> cases hn
      simp only [issues, linkStmt, List.append_eq_nil_iff] at hc
      exact hc.2
    | classDecl name superclass methods =>
      rcases superclass with _ | r <;> rcases i with _ | i <;> cases hn
      simp only [issues, linkStmt, linkSuperclass, List.append_eq_nil_iff,
        Scopes.introduce_fst] at hc
      simp only [issues, scopesAt, linkExpr, Linked.map_issues, hc]
    | ifElse condition thenPart elsePart =>
      cases h with
      | ifElse _ ht hd _ _ =>
        simp only [issues, linkStmt, List.append_eq_nil_iff, scopes_linkStmt_guarded ht hd] at hc
        rcases i with _ | _ | _ | i <;> cases hn
        · exact hc.1.1
        · exact hc.1.2
        · exact hc.2
    | _ =>
      rcases i with _ | _ | i <;> cases hn <;>
        simp only [issues, linkStmt, List.append_eq_nil_iff] at hc <;>
        simp only [issues, scopesAt, hc, List.append_nil]
  | stmts sts =>
    rcases sts with _ | ⟨st, sts⟩ <;> rcases i with _ | _ | i <;> cases hn <;>
      simp only [issues, linkStmts, List.append_eq_nil_iff] at hc
    · exact hc.1
    · exact hc.2
  | loop condition body =>
    rcases i with _ | _ | _ | i <;> cases hn
    · exact (List.append_eq_nil_iff.mp hc).1
    · exact (List.append_eq_nil_iff.mp hc).2
    · exact hc
  | function f => exact absurd hn (by simp [Node.part])
  | method f => exact absurd hn (by simp [Node.part])

/-- On the way to a part the text either begins to declare a variable or declares names
completely. -/
theorem scopesAt_cases {p : Place} (h : p.node.Proper) (i : Nat) :
    (∃ name initializer, p.node = .stmt (.var name initializer) ∧ i = 0 ∧ Plain name.text ∧
      p.scopesAt i = (p.scopes.declare name).1 ∧ p.declaresAt i = [name.text]) ∨
    (p.scopesAt i = (p.declaresAt i).foldl Scopes.add p.scopes ∧
      ∀ n ∈ p.declaresAt i, Plain n) := by
  have hnil : ∀ n ∈ ([] : List String), Plain n := fun _ h => absurd h List.not_mem_nil
  unfold scopesAt declaresAt
  split
  · rename_i name initializer hnode
    rw [hnode] at h
    cases h with
    | var hn hi => exact Or.inl ⟨name, initializer, hnode, rfl, hn, rfl, rfl⟩
  · rename_i name superclass methods hnode
    rw [hnode] at h
    cases h with
    | classDecl hn hs hm => exact Or.inr ⟨rfl, List.forall_mem_singleton.mpr hn⟩
  · rename_i st sts hnode
    rw [hnode] at h
    have hst := h _ List.mem_cons_self
    exact Or.inr ⟨scopes_linkStmt p.around hst p.scopes, hst.plain_declares⟩
  · exact Or.inr ⟨rfl, hnil⟩

theorem declaresAt_of_computes {p : Place} (h : p.node.computes = true) (i : Nat) :
    p.declaresAt i = [] := by
  obtain ⟨around, scopes, node⟩ := p
  cases node with
  | expr | exprs => rfl
  | stmt | stmts | loop | function | method => exact absurd h (by simp [Node.computes])

/-- The parts of what computes only compute, and the first part of a variable or a class
declaration does. -/
theorem computes_part {p p' : Place} {i : Nat} (hp : p.part i = some p') :
    (p.node.computes = true → p'.node.computes = true) ∧
      ∀ name initializer, p.node = .stmt (.var name initializer) → p'.node.computes = true := by
  obtain ⟨n, hn, rfl⟩ := part_eq_some.mp hp
  obtain ⟨around, scopes, node⟩ := p
  refine ⟨fun hc => ?_, ?_⟩
  · cases node with
    | expr e => cases e <;> rcases i with _ | _ | i <;> cases hn <;> rfl
    | exprs es => rcases es with _ | ⟨e, es⟩ <;> rcases i with _ | _ | i <;> cases hn <;> rfl
    | stmt | stmts | loop | function | method => exact absurd hc (by simp [Node.computes])
  · rintro name initializer rfl
    rcases initializer with _ | e <;> rcases i with _ | i <;> cases hn
    rfl

end Place

/-! ## Regular places -/

open Scopes in
/-- A place in a program without issues, where the text has declared `names` in the scopes that are
open. Only while the value of a variable is computed may a declaration be under way, and only that
of a plain name. -/
structure Regular (p : Place) (names : List (List String)) : Prop where
  clean : p.issues = []
  proper : p.node.Proper
  matched : Matches p.scopes names
  settled : Settled (if p.node.computes then p.scopes.tail else p.scopes)
  pending : ∀ scope name, p.scopes.head? = some scope → scope.get? name = some false → Plain name
  encloses : Encloses (match p.node with
    | .method _ => .single Keyword.this.word :: p.scopes
    | _ => p.scopes) p.around.enclosingClass

namespace Regular

open Scopes

variable {p p' : Place} {names : List (List String)} {i : Nat}

theorem pending_of_settled {scopes : Scopes} (h : Settled scopes) :
    ∀ scope name, scopes.head? = some scope → scope.get? name = some false → Plain name :=
  fun scope name hs hn => absurd hn (h scope (List.mem_of_head? hs) name)

theorem settled_tail (h : Regular p names) : Settled p.scopes.tail := by
  have hs := h.settled
  split at hs
  · exact hs
  · exact hs.tail

/-- The scopes of a place where no value is being computed. -/
theorem settled_all (h : Regular p names) (hc : p.node.computes = false) : Settled p.scopes := by
  have hs := h.settled
  rwa [hc, if_neg Bool.false_ne_true] at hs

/-- What holds of a place in a clean program holds of its parts. -/
theorem part (h : Regular p names) (hp : p.part i = some p') :
    Regular p' (declareIn names (p.declaresAt i)) := by
  obtain ⟨hcomputes, hvar⟩ := Place.computes_part hp
  have hclean := Place.issues_part h.proper h.clean hp
  have htail := h.settled_tail
  obtain ⟨n, hn, rfl⟩ := Place.part_eq_some.mp hp
  have hproper := h.proper.part hn
  have hmethod : ∀ f, p.node ≠ .method f := fun f hf => by
    rw [hf] at hn
    exact absurd hn (by simp [Node.part])
  have hmethod' : ∀ f, n ≠ .method f := fun f hf => by
    have hruns := Node.part_runs hn
    rw [hf] at hruns
    exact absurd hruns (by simp [Node.runs])
  have hencloses : Encloses p.scopes p.around.enclosingClass := by
    have he := h.encloses
    split at he
    · rename_i f hf
      exact absurd hf (hmethod f)
    · exact he
  refine ⟨hclean, hproper, ?_, ?_, ?_, ?_⟩
  · rcases Place.scopesAt_cases h.proper i with ⟨name, _, -, -, -, hs, hd⟩ | ⟨hs, -⟩
    · simp only [hs, hd]
      exact h.matched.declare name
    · simp only [hs]
      exact h.matched.addAll
  · rcases Place.scopesAt_cases h.proper i with ⟨name, initializer, hnode, -, -, hs, -⟩ | ⟨hs, -⟩
    · simp only at hvar
      simp only [hvar name initializer hnode, if_true, hs]
      cases hscopes : p.scopes with
      | nil => exact settled_nil
      | cons scope outer =>
        rw [hscopes] at htail
        exact htail
    · simp only [hs]
      have hset := h.settled
      split at hset
      · rename_i hc
        simp only [hcomputes hc, if_true]
        rw [Place.declaresAt_of_computes hc]
        exact hset
      · have hall : Settled ((p.declaresAt i).foldl add p.scopes) := hset.addAll
        split
        · exact hall.tail
        · exact hall
  · rcases Place.scopesAt_cases h.proper i with
      ⟨name, initializer, hnode, -, hplain, hs, -⟩ | ⟨hs, -⟩
    · have hset : Settled p.scopes := h.settled_all (by rw [hnode]; rfl)
      intro scope other hscope hother
      simp only [hs] at hscope
      cases hscopes : p.scopes with
      | nil =>
        rw [hscopes] at hscope
        exact absurd hscope (by simp [Scopes.declare])
      | cons first outer =>
        rw [hscopes] at hscope hset
        simp only [Scopes.declare, List.head?_cons, Option.some.injEq] at hscope
        subst hscope
        by_cases hne : other = name.text
        · rw [hne]
          exact hplain
        · rw [Bindings.get?_set_of_ne _ _ hne] at hother
          exact absurd hother (hset first List.mem_cons_self other)
    · by_cases hc : p.node.computes = true
      · rw [Place.declaresAt_of_computes hc] at hs
        simp only [hs]
        exact h.pending
      · have hset : Settled p.scopes := h.settled_all (by simpa using hc)
        simp only [hs]
        exact pending_of_settled hset.addAll
  · have hgoal : Encloses (p.scopesAt i) p.around.enclosingClass := by
      rcases Place.scopesAt_cases h.proper i with ⟨name, _, -, -, hplain, hs, -⟩ | ⟨hs, hplain⟩
      · rw [hs]
        exact hencloses.declare hplain
      · rw [hs]
        exact hencloses.addAll hplain
    split
    · rename_i f hf
      exact absurd hf (hmethod' f)
    · exact hgoal

/-- The statements of a block. -/
theorem block (h : Regular p names) {body : List (Stmt Unit)} (hn : p.node = .stmt (.block body)) :
    Regular ⟨p.around, .empty :: p.scopes, .stmts body⟩ ([] :: names) := by
  obtain ⟨around, scopes, node⟩ := p
  cases hn
  have hsettled : Settled (.empty :: scopes) :=
    settled_cons.mpr ⟨settled_empty, h.settled_all rfl⟩
  refine ⟨?_, ?_, .cons (fun n => ?_) h.matched, hsettled, pending_of_settled hsettled, ?_⟩
  · have hc := h.clean
    simp only [Place.issues, linkStmt] at hc
    exact hc
  · have hp := h.proper
    cases hp with
    | block hb => exact hb
  · simp [Bindings.contains]
  · have he : Encloses scopes around.enclosingClass := h.encloses
    exact he.cons ⟨rfl, rfl⟩

/-- A function where it is declared. -/
theorem function (h : Regular p names) {f : Function Unit} (hn : p.node = .stmt (.function f)) :
    Regular ⟨{ p.around with function := .function }, p.scopes.add f.name.text, .function f⟩
      (declareIn names [f.name.text]) := by
  obtain ⟨around, scopes, node⟩ := p
  cases hn
  have hp : f.Proper := by
    cases h.proper with
    | function hf => exact hf
  have hsettled : Settled (scopes.add f.name.text) := (h.settled_all rfl).add _
  refine ⟨?_, hp, h.matched.add _, hsettled, pending_of_settled hsettled, ?_⟩
  · have hc := h.clean
    simp only [Place.issues, linkStmt, List.append_eq_nil_iff, introduce_fst] at hc
    exact hc.2
  · have he : Encloses scopes around.enclosingClass := h.encloses
    exact he.add hp.plain_name

/-- A method of a class, in the scopes around `this`. -/
theorem method (h : Regular p names) {name : Name} {superclass : Option (Reference Unit)}
    {methods : List (Function Unit)} (hn : p.node = .stmt (.classDecl name superclass methods))
    {f : Function Unit} (hf : f ∈ methods) :
    Regular ⟨{ methodSurroundings p.around superclass.isSome with function := methodKind f },
        if superclass.isSome then .single Keyword.super.word :: p.scopes.add name.text
          else p.scopes.add name.text, .method f⟩
      (if superclass.isSome then [Keyword.super.word] :: declareIn names [name.text]
        else declareIn names [name.text]) := by
  obtain ⟨around, scopes, node⟩ := p
  cases hn
  have hp := h.proper
  cases hp with
  | classDecl hname hs hm =>
    have hc := h.clean
    simp only [Place.issues, linkStmt, List.append_eq_nil_iff, introduce_fst,
      List.flatMap_map, List.flatMap_eq_nil_iff] at hc
    have hfc := hc.2 f hf
    have hsettled : Settled (scopes.add name.text) := (h.settled_all rfl).add _
    have hmatched : Matches (scopes.add name.text) (declareIn names [name.text]) := h.matched.add _
    cases superclass with
    | none =>
      refine ⟨hfc, hm f hf, hmatched, hsettled, pending_of_settled hsettled, 0, ?_⟩
      rw [hops?_cons]
      rfl
    | some r =>
      have hsuper : Scopes.hops? (.single Keyword.this.word :: .single Keyword.super.word ::
          scopes.add name.text) Keyword.super.word = some 1 := by
        rw [hops?_cons, hops?_cons]
        rfl
      have hsettled' : Settled (.single Keyword.super.word :: scopes.add name.text) :=
        settled_cons.mpr ⟨settled_single _, hsettled⟩
      refine ⟨hfc, hm f hf, .cons (contains_single _) hmatched, hsettled',
        pending_of_settled hsettled', 0, ?_, hsuper⟩
      rw [hops?_cons]
      rfl

/-- A method that has been made for an object. -/
theorem bind {around : Surroundings} {scopes : Scopes} {f : Function Unit}
    (h : Regular ⟨around, scopes, .method f⟩ names) :
    Regular ⟨around, .single Keyword.this.word :: scopes, .function f⟩
      ([Keyword.this.word] :: names) := by
  have hsettled : Settled (.single Keyword.this.word :: scopes) :=
    settled_cons.mpr ⟨settled_single _, h.settled_all rfl⟩
  exact ⟨h.clean, h.proper, .cons (contains_single _) h.matched, hsettled,
    pending_of_settled hsettled, h.encloses⟩

/-- The body of a function. -/
theorem call {around : Surroundings} {scopes : Scopes} {f : Function Unit}
    (h : Regular ⟨around, scopes, .function f⟩ names) :
    Regular ⟨around, (introduceAll (.empty :: scopes) f.params).1, .stmts f.body⟩
      (f.params.map Name.text :: names) := by
  have hp : f.Proper := h.proper
  have hplain : ∀ n ∈ f.params.map Name.text, Plain n := List.forall_mem_map.mpr hp.plain_params
  have he : Encloses scopes around.enclosingClass := h.encloses
  have hempty : Matches (.empty :: scopes) ([] :: names) :=
    .cons (fun n => by simp [Bindings.contains]) h.matched
  have hsettled : Settled (introduceAll (.empty :: scopes) f.params).1 := by
    rw [introduceAll_fst]
    exact (settled_cons.mpr ⟨settled_empty, h.settled_all rfl⟩).addAll
  refine ⟨?_, hp.proper_body, ?_, hsettled, pending_of_settled hsettled, ?_⟩
  · have hc := h.clean
    obtain ⟨name, params, body⟩ := f
    simp only [Place.issues, linkFunction, List.append_eq_nil_iff] at hc
    exact hc.2
  · rw [introduceAll_fst]
    exact hempty.addAll
  · rw [introduceAll_fst]
    have hbare : Bare .empty := ⟨rfl, rfl⟩
    exact (he.cons hbare).addAll hplain

end Regular

/-! ## References -/

/-- The reference that an expression makes by itself. -/
def Expr.reference? {ρ : Type} : Expr ρ → Option (Reference ρ)
  | .var r | .assign r _ | .this r | .super r _ => some r
  | _ => none

/-- Whether an expression reads what it refers to. -/
def Expr.reads {ρ : Type} : Expr ρ → Bool
  | .var _ | .this _ | .super _ _ => true
  | _ => false

namespace Regular

open Scopes

variable {around : Surroundings} {scopes : Scopes} {names : List (List String)} {e : Expr Unit}

/-- A reference is linked to the nearest scope that declares its name so far. -/
theorem link_eq (h : Regular ⟨around, scopes, .expr e⟩ names) {r : Reference Link}
    (hr : (linkExpr around scopes e).tree.reference? = some r) :
    ∃ raw, e.reference? = some raw ∧ r = ⟨raw.name, scopes.hops? raw.name.text⟩ := by
  have hc := h.clean
  simp only [Place.issues] at hc
  cases e with
  | var target =>
    rw [linkExpr] at hr
    cases hr
    exact ⟨target, rfl, rfl⟩
  | assign target value =>
    rw [linkExpr] at hr
    cases hr
    exact ⟨target, rfl, rfl⟩
  | this target =>
    rw [linkExpr] at hr hc
    by_cases hk : around.enclosingClass = .none
    · rw [if_pos hk] at hc
      exact absurd hc (by simp)
    · rw [if_neg hk] at hr
      cases hr
      exact ⟨target, rfl, rfl⟩
  | super target method =>
    rw [linkExpr] at hr
    cases hr
    exact ⟨target, rfl, rfl⟩
  | literal | grouping | unary | binary | logical | call | get | set =>
    rw [linkExpr] at hr
    exact absurd hr (by simp [Expr.reference?, Linked.map])

theorem hops?_eq_some {scopes : Scopes} {name : String} {d : Nat} (h : scopes.hops? name = some d) :
    ∃ scope, scopes[d]? = some scope ∧ scope.contains name = true := by
  obtain ⟨hlt, hp, -⟩ := List.findIdx?_eq_some_iff_getElem.mp h
  exact ⟨scopes[d], List.getElem?_eq_getElem hlt, hp⟩

/-- What is read has been declared completely. -/
theorem complete_of_reads (h : Regular ⟨around, scopes, .expr e⟩ names) (hreads : e.reads = true)
    {raw : Reference Unit} (hr : e.reference? = some raw) {d : Nat}
    (hd : scopes.hops? raw.name.text = some d) :
    ∃ scope, scopes[d]? = some scope ∧ scope.get? raw.name.text = some true := by
  obtain ⟨scope, hs, hcontains⟩ := hops?_eq_some hd
  obtain ⟨b, hb⟩ := Option.isSome_iff_exists.mp hcontains
  cases b with
  | true => exact ⟨scope, hs, hb⟩
  | false =>
    exfalso
    cases d with
    | zero =>
      have hhead : scopes.head? = some scope := by
        rw [List.head?_eq_getElem?]
        exact hs
      have hplain := h.pending scope _ hhead hb
      have hp := h.proper
      have hc := h.clean
      cases e with
      | var target =>
        cases hr
        have hpending : scopes.isPending raw.name.text = true := by
          simp only [isPending, hhead, Option.any_some, hb, beq_self_eq_true]
        simp [Place.issues, linkExpr, linkVar, hpending] at hc
      | this target =>
        cases hr
        cases hp with
        | this ht =>
          rw [ht] at hplain
          exact hplain.ne_word .this rfl
      | super target method =>
        cases hr
        cases hp with
        | super _ ht =>
          rw [ht] at hplain
          exact hplain.ne_word .super rfl
      | assign => exact absurd hreads (by simp [Expr.reads])
      | literal | grouping | unary | binary | logical | call | get | set =>
        exact absurd hr (by simp [Expr.reference?])
    | succ d =>
      have hmem : scope ∈ scopes.tail := by
        rw [← List.getElem?_tail] at hs
        exact List.mem_of_getElem? hs
      exact h.settled_tail scope hmem _ hb

/-- The class around a superclass reference has a superclass. -/
theorem enclosing_super {raw : Reference Unit} {method : Name}
    (h : Regular ⟨around, scopes, .expr (.super raw method)⟩ names) :
    around.enclosingClass = .subclass := by
  have hc := h.clean
  cases hk : around.enclosingClass with
  | subclass => rfl
  | none | root => exact absurd hc (by simp [Place.issues, linkExpr, superComplaint?, hk])

/-- A superclass is only named where there is one: its scope is just outside that of `this`. -/
theorem super_link (h : Regular ⟨around, scopes, .expr e⟩ names) {target : Reference Unit}
    {method : Name} (he : e = .super target method) :
    ∃ d, scopes.hops? Keyword.this.word = some d ∧ scopes.hops? Keyword.super.word = some (d + 1) := by
  subst he
  have hencloses : Encloses scopes around.enclosingClass := h.encloses
  rw [h.enclosing_super] at hencloses
  exact hencloses

/-- There is a class around a receiver. -/
theorem enclosing_this {raw : Reference Unit}
    (h : Regular ⟨around, scopes, .expr (.this raw)⟩ names) : around.enclosingClass ≠ .none := by
  intro hnone
  have hc := h.clean
  simp only [Place.issues, linkExpr, if_pos hnone] at hc
  exact absurd hc (by simp)

/-- How a receiver is linked. -/
theorem linked_this {raw : Reference Unit}
    (h : Regular ⟨around, scopes, .expr (.this raw)⟩ names) :
    (linkExpr around scopes (.this raw)).tree =
        .this ⟨raw.name, scopes.hops? raw.name.text⟩ ∧ raw.name.text = Keyword.this.word := by
  have hname : raw.name.text = Keyword.this.word := by
    cases h.proper with
    | this ht => exact ht
  exact ⟨by rw [linkExpr, if_neg h.enclosing_this], hname⟩

/-- A receiver is only named where there is one. -/
theorem this_link (h : Regular ⟨around, scopes, .expr e⟩ names) {target : Reference Unit}
    (he : e = .this target) : ∃ d, scopes.hops? Keyword.this.word = some d := by
  subst he
  have hencloses : Encloses scopes around.enclosingClass := h.encloses
  cases hk : around.enclosingClass with
  | subclass =>
    rw [hk] at hencloses
    exact hencloses.imp fun _ hd => hd.1
  | root =>
    rw [hk] at hencloses
    exact hencloses
  | none => exact absurd hk h.enclosing_this

end Regular

end LoxKit
