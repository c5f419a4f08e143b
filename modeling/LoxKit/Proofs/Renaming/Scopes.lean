import LoxKit.Proofs.Renaming.Alike
import LoxKit.Proofs.Scope.Place

/-!
# Scopes that differ by names

Linking a renamed program comes through scopes that declare other names. If the new name occurs
nowhere in the program, then every reference finds the scope that it found before. As the new name
is nowhere, to replace the old one by it is to exchange the two, and this is a change of names that
can be undone.

Headlines:
* `ScopesAlike.hops?`: a renamed reference leads to the same scope.
* `ScopesAlike.declare`, `ScopesAlike.introduceAll`: scopes in which a renamed name is declared.
* `linkExpr_rename`: linking a renamed expression gives the renamed expression and no issue.
-/

namespace LoxKit

variable {old new : String}

/-! ## Exchanging names -/

section Exchange

theorem swap_keyword (ho : Plain old) (hn : Plain new) (k : Keyword) :
    Equiv.swap old new k.word = k.word :=
  Equiv.swap_apply_of_ne_of_ne (ho.ne_word k).symm (hn.ne_word k).symm

/-- Replacing a name by one that is nowhere is exchanging the two. -/
theorem replaceName_eq_swap {name : String} (h : name ≠ new) :
    replaceName old new name = Equiv.swap old new name := by
  unfold replaceName
  rw [Equiv.swap_apply_def, if_neg h]

theorem Name.renameIf_replaceName (flag : Bool) {name : Name} (h : name.text ≠ new) :
    name.renameIf (replaceName old new) flag = name.renameIf (Equiv.swap old new) flag := by
  unfold Name.renameIf
  rw [replaceName_eq_swap h]

/-- Replacing a declared name is exchanging names where it is declared, if it is the only one of its
text there. -/
theorem Name.replace_eq_renameIf {target name : Name} {flag : Bool} (h : name.text ≠ new)
    (honly : flag = true → name.text = target.text → name = target) :
    (if flag then Name.replace target new name else name) =
      name.renameIf (Equiv.swap target.text new) flag := by
  unfold Name.renameIf Name.replace
  split
  · rename_i hflag
    by_cases heq : name = target
    · rw [if_pos heq, heq, Equiv.swap_apply_left]
    · rw [if_neg heq, Equiv.swap_apply_of_ne_of_ne (fun ht => heq (honly hflag ht)) h]
  · rfl

theorem Reference.rename_replaceName (flags : List Bool) {r : Reference Link}
    (h : r.name.text ≠ new) :
    r.rename (replaceName old new) flags = r.rename (Equiv.swap old new) flags := by
  unfold Reference.rename
  rw [Name.renameIf_replaceName _ h]

theorem Expr.rename_replaceName (flags : List Bool) {e : Expr Link} (he : e.Proper)
    (h : new ∉ e.names) :
    e.rename (replaceName old new) flags = e.rename (Equiv.swap old new) flags := by
  induction he with
  | literal | this | super => rw [Expr.rename, Expr.rename]
  | grouping _ ih =>
    rw [Expr.names] at h
    rw [Expr.rename, Expr.rename, ih h]
  | unary op pos _ ih =>
    rw [Expr.names] at h
    rw [Expr.rename, Expr.rename, ih h]
  | binary op pos _ _ ihl ihr | logical op pos _ _ ihl ihr =>
    rw [Expr.names, List.mem_append, not_or] at h
    rw [Expr.rename, Expr.rename, ihl h.1, ihr h.2]
  | var _ =>
    rw [Expr.names, List.mem_singleton] at h
    rw [Expr.rename, Expr.rename, Reference.rename_replaceName _ (Ne.symm h)]
  | assign _ _ ih =>
    rw [Expr.names, List.mem_cons, not_or] at h
    rw [Expr.rename, Expr.rename, Reference.rename_replaceName _ (Ne.symm h.1), ih h.2]
  | @call callee args paren _ _ ihc iha =>
    rw [Expr.names, List.mem_append, not_or] at h
    have hargs : args.map (Expr.rename (replaceName old new) flags) =
        args.map (Expr.rename (Equiv.swap old new) flags) :=
      List.map_congr_left fun a ha => iha a ha fun hn => h.2 (List.mem_flatMap.mpr ⟨a, ha, hn⟩)
    rw [Expr.rename, Expr.rename, ihc h.1, hargs]
  | get field _ ih =>
    rw [Expr.names, List.mem_cons, not_or] at h
    rw [Expr.rename, Expr.rename, ih h.2]
  | set field _ _ iho ihv =>
    rw [Expr.names, List.mem_cons, List.mem_append, not_or, not_or] at h
    rw [Expr.rename, Expr.rename, iho h.2.1, ihv h.2.2]

/-- Changing a name twice gives it back, or leads to the new name. -/
theorem changeIf_swap {name : String} (h : name ≠ new) (flag other : Bool) :
    changeIf (Equiv.swap old new) flag (changeIf (Equiv.swap old new) other name) =
        (if flag = other ∨ name ≠ old then name else new) := by
  unfold changeIf
  by_cases ho : name = old
  · subst ho
    cases flag <;> cases other <;> simp
  · cases flag <;> cases other <;> simp [ho, Equiv.swap_apply_of_ne_of_ne ho h]

theorem changeIf_swap_self (flag : Bool) (name : String) :
    changeIf (Equiv.swap old new) flag (changeIf (Equiv.swap old new) flag name) = name := by
  unfold changeIf
  split
  · exact Equiv.swap_apply_self old new name
  · rfl

/-- A name that is neither the old one, where there is a flag, nor the new one stays. -/
theorem changeIf_swap_of_ne {flag : Bool} {name : String} (h : flag = true → name ≠ old)
    (h' : name ≠ new) : changeIf (Equiv.swap old new) flag name = name := by
  unfold changeIf
  split
  · rename_i hflag
    exact Equiv.swap_apply_of_ne_of_ne (h hflag) h'
  · rfl

theorem Name.renameIf_of_text {ρ : String → String} {flag : Bool} {name : Name}
    (h : changeIf ρ flag name.text = name.text) : name.renameIf ρ flag = name := by
  cases name with
  | mk text pos =>
    unfold changeIf at h
    unfold Name.renameIf
    split
    · rename_i hflag
      rw [if_pos hflag] at h
      rw [h]
    · rfl

end Exchange

/-! ## Scopes -/

section Scopes

variable {flags : List Bool} {scopes scopes' : Scopes}

/-- Scopes that declare the same names, exchanged where there is a flag, and not the new name. -/
inductive ScopesAlike (old new : String) : List Bool → Scopes → Scopes → Prop
  | nil : ScopesAlike old new [] [] []
  | cons {flag : Bool} {flags : List Bool} {scope scope' : Scope} {scopes scopes' : Scopes}
      (hs : ∀ name, Bindings.get? scope' (changeIf (Equiv.swap old new) flag name) =
        Bindings.get? scope name)
      (hn : Bindings.get? scope new = none) (h : ScopesAlike old new flags scopes scopes') :
      ScopesAlike old new (flag :: flags) (scope :: scopes) (scope' :: scopes')

/-- What the innermost scope says of a renamed name. -/
theorem ScopesAlike.get?_head {flag : Bool} {scope scope' : Scope}
    (h : ScopesAlike old new (flag :: flags) (scope :: scopes) (scope' :: scopes')) {name : String}
    (hname : name ≠ new) :
    Bindings.get? scope' (changeIf (Equiv.swap old new)
      (Link.flagged (flag :: flags) (Scopes.hops? (scope :: scopes) name)) name) =
      Bindings.get? scope name := by
  cases h with
  | cons hs hn _ =>
    generalize hf : Link.flagged (flag :: flags) (Scopes.hops? (scope :: scopes) name) = other
    have hback := hs (changeIf (Equiv.swap old new) flag (changeIf (Equiv.swap old new) other name))
    rw [changeIf_swap_self, changeIf_swap hname] at hback
    rw [hback]
    split
    · rfl
    · rename_i hne
      rw [not_or, not_not] at hne
      obtain ⟨hflag, rfl⟩ := hne
      -- The scope does not declare the old name, for then the reference would lead to it.
      have hnone : Bindings.contains scope name = false := by
        rw [← Bool.not_eq_true]
        intro hc
        rw [Scopes.hops?_cons, if_pos hc] at hf
        exact hflag hf
      rw [hn, Option.isNone_iff_eq_none.mp (Option.isSome_eq_false_iff.mp hnone)]

/-- A renamed reference leads to the same scope. -/
theorem ScopesAlike.hops? (h : ScopesAlike old new flags scopes scopes') {name : String}
    (hname : name ≠ new) :
    scopes'.hops? (changeIf (Equiv.swap old new) (Link.flagged flags (scopes.hops? name)) name) =
      scopes.hops? name := by
  induction h with
  | nil => rfl
  | @cons flag flags scope scope' scopes scopes' hs hn h ih =>
    have hhead := (ScopesAlike.cons hs hn h).get?_head hname
    rw [Scopes.hops?_cons, Bindings.contains, hhead, Scopes.hops?_cons, Bindings.contains]
    split
    · rfl
    · have hflagged : Link.flagged (flag :: flags) ((scopes.hops? name).map (· + 1)) =
          Link.flagged flags (scopes.hops? name) := by
        cases scopes.hops? name <;> rfl
      rw [hflagged, ih]

theorem ScopesAlike.isPending (h : ScopesAlike old new flags scopes scopes') {name : String}
    (hname : name ≠ new) :
    scopes'.isPending (changeIf (Equiv.swap old new) (Link.flagged flags (scopes.hops? name)) name) =
      scopes.isPending name := by
  cases h with
  | nil => rfl
  | cons hs hn h =>
    have hhead := (ScopesAlike.cons hs hn h).get?_head hname
    unfold Scopes.isPending
    rw [List.head?_cons, Option.any_some, hhead, List.head?_cons, Option.any_some]

/-- A name and the renamed one are set in the innermost scopes. -/
theorem ScopesAlike.set {flag : Bool} {scope scope' : Scope}
    (h : ScopesAlike old new (flag :: flags) (scope :: scopes) (scope' :: scopes')) {name : String}
    (hname : name ≠ new) (value : Bool) :
    ScopesAlike old new (flag :: flags) (Bindings.set scope name value :: scopes)
      (Bindings.set scope' (changeIf (Equiv.swap old new) flag name) value :: scopes') := by
  cases h with
  | cons hs hn h =>
    refine .cons (fun key => ?_) ?_ h
    · rw [Bindings.get?_set, Bindings.get?_set, hs]
      simp only [changeIf_inj (Equiv.swap old new).injective]
    · rw [Bindings.get?_set_of_ne _ _ (Ne.symm hname), hn]

theorem ScopesAlike.declare (h : ScopesAlike old new flags scopes scopes') {name : Name}
    (hname : name.text ≠ new) :
    ScopesAlike old new flags (scopes.declare name).1
      (scopes'.declare (name.renameIf (Equiv.swap old new) (flags.getD 0 false))).1 := by
  cases h with
  | nil => exact .nil
  | cons hs hn h =>
    unfold Scopes.declare
    rw [Name.renameIf_text]
    exact (ScopesAlike.cons hs hn h).set hname false

theorem ScopesAlike.define (h : ScopesAlike old new flags scopes scopes') {name : Name}
    (hname : name.text ≠ new) :
    ScopesAlike old new flags (scopes.define name)
      (scopes'.define (name.renameIf (Equiv.swap old new) (flags.getD 0 false))) := by
  cases h with
  | nil => exact .nil
  | cons hs hn h =>
    unfold Scopes.define
    rw [Name.renameIf_text]
    exact (ScopesAlike.cons hs hn h).set hname true

/-- A renamed declaration is no second one either. -/
theorem ScopesAlike.declare_issues (h : ScopesAlike old new flags scopes scopes') {name : Name}
    (hc : (scopes.declare name).2 = []) :
    (scopes'.declare (name.renameIf (Equiv.swap old new) (flags.getD 0 false))).2 = [] := by
  cases h with
  | nil => rfl
  | @cons flag flags scope scope' scopes scopes' hs hn h =>
    have hcontains : Bindings.contains scope'
        (changeIf (Equiv.swap old new) flag name.text) = Bindings.contains scope name.text :=
      congrArg Option.isSome (hs name.text)
    simp only [Scopes.declare, Name.renameIf_text, List.getD_cons_zero, hcontains] at hc ⊢
    split
    · rename_i hdeclared
      rw [if_pos hdeclared] at hc
      exact absurd hc (List.cons_ne_nil _ _)
    · rfl

theorem ScopesAlike.introduce (h : ScopesAlike old new flags scopes scopes') {name : Name}
    (hname : name.text ≠ new) :
    ScopesAlike old new flags (scopes.introduce name).1
      (scopes'.introduce (name.renameIf (Equiv.swap old new) (flags.getD 0 false))).1 :=
  (h.declare hname).define hname

theorem ScopesAlike.introduceAll {params : List Name} (hp : ∀ p ∈ params, p.text ≠ new) :
    ∀ {scopes scopes' : Scopes}, ScopesAlike old new flags scopes scopes' →
      (scopes.introduceAll params).2 = [] →
      ScopesAlike old new flags (scopes.introduceAll params).1
          (scopes'.introduceAll
            (params.map (Name.renameIf (Equiv.swap old new) (flags.getD 0 false)))).1 ∧
        (scopes'.introduceAll
            (params.map (Name.renameIf (Equiv.swap old new) (flags.getD 0 false)))).2 = [] := by
  induction params with
  | nil => exact fun h _ => ⟨h, rfl⟩
  | cons p params ih =>
    intro scopes scopes' h hc
    rw [List.forall_mem_cons] at hp
    rw [Scopes.introduceAll, List.append_eq_nil_iff] at hc
    obtain ⟨hscopes, hissues⟩ := ih hp.2 (h.introduce hp.1) hc.2
    refine ⟨hscopes, ?_⟩
    rw [List.map_cons, Scopes.introduceAll, List.append_eq_nil_iff]
    exact ⟨h.declare_issues hc.1, hissues⟩

end Scopes

/-! ## Expressions -/

section Expressions

variable {flags : List Bool} {scopes scopes' : Scopes} {around : Surroundings}

theorem linkVar_rename (h : ScopesAlike old new flags scopes scopes') {r : Reference Unit}
    (hr : r.name.text ≠ new) (hc : (linkVar scopes r).issues = []) :
    linkVar scopes' ((linkVar scopes r).tree.rename (Equiv.swap old new) flags).erase =
      ⟨(linkVar scopes r).tree.rename (Equiv.swap old new) flags, []⟩ := by
  have hpending : scopes.isPending r.name.text = false := by
    rw [← Bool.not_eq_true]
    intro hpending
    rw [linkVar, if_pos hpending] at hc
    exact absurd hc (List.cons_ne_nil _ _)
  unfold linkVar Reference.rename Reference.erase
  simp only [Name.renameIf_text, h.hops? hr, h.isPending hr, hpending, Bool.false_eq_true, if_false]

/-- The renamed superclass of a class is not the class itself either. -/
theorem linkSuperclass_rename (h : ScopesAlike old new flags scopes scopes') {name : Name}
    (hname : name.text ≠ new) {superclass : Option (Reference Unit)}
    (hr : ∀ r, superclass = some r → r.name.text ≠ new)
    (hc : (linkSuperclass scopes name superclass).issues = []) :
    linkSuperclass scopes' name (((linkSuperclass scopes name superclass).tree.map
        (Reference.rename (Equiv.swap old new) flags)).map Reference.erase) =
      ⟨(linkSuperclass scopes name superclass).tree.map
        (Reference.rename (Equiv.swap old new) flags), []⟩ := by
  cases superclass with
  | none => rfl
  | some r =>
    rw [linkSuperclass, List.append_eq_nil_iff] at hc
    have hne : r.name.text ≠ name.text := by
      intro heq
      rw [if_pos heq] at hc
      exact absurd hc.1 (List.cons_ne_nil _ _)
    have hne' : ((linkVar scopes r).tree.rename (Equiv.swap old new) flags).erase.name.text ≠
        name.text := by
      show (r.name.renameIf _ _).text ≠ name.text
      rw [Name.renameIf_text]
      unfold changeIf
      split
      · rw [Equiv.swap_apply_def, if_neg (hr r rfl)]
        split
        · exact Ne.symm hname
        · exact hne
      · exact hne
    have hlink := linkVar_rename h (hr r rfl) hc.2
    simp only [linkSuperclass, Option.map_some, hlink, if_neg hne', List.append_nil]

/-- A reference to `this` or `super` leads to the same scope. -/
theorem ScopesAlike.hops?_keyword (ho : Plain old) (hn : Plain new)
    (h : ScopesAlike old new flags scopes scopes') (k : Keyword) :
    scopes'.hops? k.word = scopes.hops? k.word := by
  have hhops := h.hops? (hn.ne_word k).symm
  rwa [changeIf_keyword (swap_keyword ho hn)] at hhops

/-- Linking a renamed expression gives the renamed expression and no issue. -/
theorem linkExpr_rename (ho : Plain old) (hn : Plain new)
    (h : ScopesAlike old new flags scopes scopes') {e : Expr Unit} (he : e.Proper)
    (hnew : new ∉ e.names) (hc : (linkExpr around scopes e).issues = []) :
    linkExpr around scopes' ((linkExpr around scopes e).tree.rename (Equiv.swap old new) flags).erase =
      ⟨(linkExpr around scopes e).tree.rename (Equiv.swap old new) flags, []⟩ := by
  induction he with
  | literal value token => simp only [linkExpr, Expr.rename, Expr.erase]
  | grouping _ ih | unary op pos _ ih =>
    rw [Expr.names] at hnew
    simp only [linkExpr, Linked.map_tree, Linked.map_issues] at hc ⊢
    simp only [Expr.rename, Expr.erase, linkExpr, ih hnew hc]
    rfl
  | binary op pos _ _ ihl ihr | logical op pos _ _ ihl ihr =>
    rw [Expr.names, List.mem_append, not_or] at hnew
    simp only [linkExpr, List.append_eq_nil_iff] at hc ⊢
    simp only [Expr.rename, Expr.erase, linkExpr, ihl hnew.1 hc.1, ihr hnew.2 hc.2]
    rfl
  | var _ =>
    rw [Expr.names, List.mem_singleton] at hnew
    simp only [linkExpr, Linked.map_tree, Linked.map_issues] at hc ⊢
    simp only [Expr.rename, Expr.erase, linkExpr, linkVar_rename h (Ne.symm hnew) hc]
    rfl
  | @assign target value _ _ ih =>
    rw [Expr.names, List.mem_cons, not_or] at hnew
    simp only [linkExpr, Linked.map_tree, Linked.map_issues] at hc ⊢
    simp only [Expr.rename, Expr.erase, linkExpr, ih hnew.2 hc, Reference.rename, Reference.erase,
      Name.renameIf_text, h.hops? (Ne.symm hnew.1)]
    rfl
  | @call callee args paren _ _ ihc iha =>
    rw [Expr.names, List.mem_append, not_or, List.mem_flatMap] at hnew
    simp only [linkExpr, List.append_eq_nil_iff, List.flatMap_map, List.flatMap_eq_nil_iff] at hc ⊢
    have hargs : ∀ a ∈ args, linkExpr around scopes'
        ((linkExpr around scopes a).tree.rename (Equiv.swap old new) flags).erase =
          ⟨(linkExpr around scopes a).tree.rename (Equiv.swap old new) flags, []⟩ :=
      fun a ha => iha a ha (fun hn => hnew.2 ⟨a, ha, hn⟩) (hc.2 a ha)
    simp only [Expr.rename, Expr.erase, linkExpr, ihc hnew.1 hc.1, List.map_map, List.flatMap_map]
    rw [Linked.mk.injEq, Expr.call.injEq, List.nil_append, List.flatMap_eq_nil_iff]
    refine ⟨⟨rfl, List.map_congr_left fun a ha => ?_, rfl⟩, fun a ha => ?_⟩
    · exact congrArg Linked.tree (hargs a ha)
    · exact congrArg Linked.issues (hargs a ha)
  | get field _ ih =>
    rw [Expr.names, List.mem_cons, not_or] at hnew
    simp only [linkExpr, Linked.map_tree, Linked.map_issues] at hc ⊢
    simp only [Expr.rename, Expr.erase, linkExpr, ih hnew.2 hc]
    rfl
  | set field _ _ iho ihv =>
    rw [Expr.names, List.mem_cons, List.mem_append, not_or, not_or] at hnew
    simp only [linkExpr, List.append_eq_nil_iff] at hc ⊢
    simp only [Expr.rename, Expr.erase, linkExpr, iho hnew.2.1 hc.2, ihv hnew.2.2 hc.1]
    rfl
  | @this target htarget =>
    by_cases haround : around.enclosingClass = .none
    · rw [linkExpr, if_pos haround] at hc
      exact absurd hc (List.cons_ne_nil _ _)
    · simp only [linkExpr, if_neg haround, Expr.rename, Expr.erase, Reference.erase, htarget,
        h.hops?_keyword ho hn]
  | @super target method htarget =>
    simp only [linkExpr, htarget] at hc ⊢
    simp only [Expr.rename, Expr.erase, Reference.erase, linkExpr, htarget, h.hops?_keyword ho hn, hc]

theorem linkExpr_proper {e : Expr Unit} (he : e.Proper) :
    (linkExpr around scopes e).tree.Proper := by
  induction he with
  | literal value token =>
    rw [linkExpr]
    exact .literal value token
  | grouping _ ih =>
    rw [linkExpr]
    exact .grouping ih
  | unary op pos _ ih =>
    rw [linkExpr]
    exact .unary op pos ih
  | binary op pos _ _ ihl ihr =>
    rw [linkExpr]
    exact .binary op pos ihl ihr
  | logical op pos _ _ ihl ihr =>
    rw [linkExpr]
    exact .logical op pos ihl ihr
  | var h =>
    rw [linkExpr]
    exact .var h
  | assign h _ ih =>
    rw [linkExpr]
    exact .assign h ih
  | call paren _ _ ihc iha =>
    rw [linkExpr]
    refine .call paren ihc fun a ha => ?_
    rw [List.map_map, List.mem_map] at ha
    obtain ⟨a, ha, rfl⟩ := ha
    exact iha a ha
  | get field _ ih =>
    rw [linkExpr]
    exact .get field ih
  | set field _ _ iho ihv =>
    rw [linkExpr]
    exact .set field iho ihv
  | this h =>
    rw [linkExpr]
    split
    · exact .this h
    · exact .this h
  | super method h =>
    rw [linkExpr]
    exact .super method h

/-- Linking keeps the names. -/
theorem linkExpr_names {e : Expr Unit} (he : e.Proper) :
    (linkExpr around scopes e).tree.names = e.names := by
  induction he with
  | literal | var | super =>
    simp only [linkExpr, linkVar, Linked.map_tree, Expr.names]
  | grouping _ ih | unary _ _ _ ih =>
    simp only [linkExpr, Linked.map_tree, Expr.names, ih]
  | binary _ _ _ _ ihl ihr | logical _ _ _ _ ihl ihr | set _ _ _ ihl ihr =>
    simp only [linkExpr, Expr.names, ihl, ihr]
  | assign _ _ ih | get _ _ ih =>
    simp only [linkExpr, Linked.map_tree, Expr.names, ih]
  | @call callee args paren _ _ ihc iha =>
    simp only [linkExpr, Expr.names, ihc, List.flatMap_map]
    rw [List.flatMap_congr iha]
  | this h =>
    rw [linkExpr]
    split
    · rw [Expr.names, Expr.names]
    · rw [Expr.names, Expr.names]

end Expressions

end LoxKit
