import LoxKit.Proofs.Machine.Keeping

/-!
# Moments that a run comes to

What is true of a moment is true of the moments that it leads to: a node runs at a place with an
account, in the chain of that account; what is called or bound is sound.

Headlines:
* `Good`: what is true of a moment.
* **`Good.calls`**: it is true of the moments behind it.
-/

namespace LoxKit

open LoxKit.Action

variable {h : Host} {V : Moment → Prop} {around : Surroundings} {scopes : Scopes}

/-- What is true of a moment that a run comes to. -/
inductive Good (V : Moment → Prop) : Moment → Prop
  | run {p : Place} {levels : List Level} {n : Node Link} {fuel depth : Nat} {chain : Chain}
      {s : Store} (hacc : Account V p levels) (hn : p.linked = n)
      (hlevels : chain = Level.chain levels) (hready : Ready s chain p) (hs : StoreSound V s)
      (hhold : Level.AllHold s levels) : Good V (.run n fuel depth chain s)
  | apply {f : Value} {args : List Value} {fuel depth : Nat} {s : Store} (hs : StoreSound V s)
      (hf : ValueSound V s f) (hargs : ∀ v ∈ args, ValueSound V s v)
      (harity : f.arity? = some args.length) : Good V (.apply f args fuel depth s)
  | invoke {c : Closure} {args : List Value} {fuel depth : Nat} {s : Store} (hs : StoreSound V s)
      (hc : ClosureSound V s c) (hargs : ∀ v ∈ args, ValueSound V s v)
      (hlen : c.function.params.length = args.length) : Good V (.invoke c args fuel depth s)
  | bind {k : ClassValue} {c : Closure} {o : Object} {s : Store} (hs : StoreSound V s)
      (hc : MethodSound V s k c) (ho : ClassSound V s o.ofClass) : Good V (.bind c o s)

theorem Running.good {p : Place} {levels : List Level} {fuel depth : Nat} {chain : Chain} {s : Store}
    (hr : Running V p levels fuel depth chain s) : Good V (.run p.linked fuel depth chain s) :=
  .run hr.account rfl hr.levels_eq (.fits hr.fits) hr.sound hr.hold

/-! ## Nodes and their linked forms -/

namespace Place

theorem linked_eq_block {p : Place} {body : List (Stmt Link)}
    (hn : p.linked = .stmt (.block body)) : ∃ body', p.node = .stmt (.block body') := by
  obtain ⟨around, scopes, node⟩ := p
  cases node with
  | stmt st =>
    cases st with
    | block body' => exact ⟨body', rfl⟩
    | _ => exact absurd hn (by simp [linked, linkStmt])
  | _ => exact absurd hn (by simp [linked])

theorem linked_eq_expr {p : Place} {e : Expr Link} (hn : p.linked = .expr e) :
    ∃ e', p = ⟨p.around, p.scopes, .expr e'⟩ ∧ (linkExpr p.around p.scopes e').tree = e := by
  obtain ⟨around, scopes, node⟩ := p
  cases node with
  | expr e' => exact ⟨e', rfl, by simpa [linked] using hn⟩
  | _ => exact absurd hn (by simp [linked])

end Place

theorem linkExpr_eq_get {e : Expr Unit} {object : Expr Link} {field : Name}
    (he : (linkExpr around scopes e).tree = .get object field) :
    ∃ object', e = .get object' field ∧ (linkExpr around scopes object').tree = object := by
  cases e with
  | get object' field' =>
    simp only [linkExpr, Linked.map_tree, Expr.get.injEq] at he
    exact ⟨object', by rw [he.2], he.1⟩
  | this => exact absurd he (by simp only [linkExpr]; split <;> simp)
  | _ => exact absurd he (by simp [linkExpr, Linked.map])

theorem linkExpr_eq_super {e : Expr Unit} {target : Reference Link} {method : Name}
    (he : (linkExpr around scopes e).tree = .super target method) :
    ∃ target' : Reference Unit, e = .super target' method ∧
      target = ⟨target'.name, scopes.hops? target'.name.text⟩ := by
  cases e with
  | super target' method' =>
    simp only [linkExpr, Expr.super.injEq] at he
    exact ⟨target', by rw [he.2], he.1.symm⟩
  | this => exact absurd he (by simp only [linkExpr]; split <;> simp)
  | _ => exact absurd he (by simp [linkExpr, Linked.map])

theorem linkExpr_eq_call {e : Expr Unit} {callee : Expr Link} {args : List (Expr Link)} {paren : Pos}
    (he : (linkExpr around scopes e).tree = .call callee args paren) :
    ∃ callee' args', e = .call callee' args' paren ∧
      (linkExpr around scopes callee').tree = callee ∧
      (args'.map fun e => (linkExpr around scopes e).tree) = args := by
  cases e with
  | call callee' args' paren' =>
    simp only [linkExpr, Expr.call.injEq, List.map_map] at he
    exact ⟨callee', args', by rw [he.2.2], he.1, he.2.1⟩
  | this => exact absurd he (by simp only [linkExpr]; split <;> simp)
  | _ => exact absurd he (by simp [linkExpr, Linked.map])

theorem Ready.fits_of_ne_var {s : Store} {chain : Chain} {p : Place} (hready : Ready s chain p)
    (hp : ∀ r, p.node ≠ .expr (.var r)) : Fits s p.scopes chain := by
  cases hready with
  | fits hfits => exact hfits
  | superclass => exact absurd rfl (hp _)

/-! ## From one moment to the next -/

section Next

variable {p : Place} {levels : List Level} {fuel depth i : Nat} {chain : Chain} {s s₁ : Store}

/-- A part of a node that runs. -/
theorem good_part (hV : ∀ {m m'}, V m → Calls h m m' → V m') {n' : Node Link}
    (hv : V (.run p.linked (fuel + 1) depth chain s)) (hacc : Account V p levels)
    (hlevels : chain = Level.chain levels) (hready : Ready s chain p) (hs : StoreSound V s)
    (hhold : Level.AllHold s levels) (hst : Stage h p.linked fuel depth chain s i s₁) (hn : p.linked.part i = some n') :
    Good V (.run n' fuel depth chain s₁) := by
  rw [Place.linked_part hacc.regular.proper, Option.map_eq_some_iff] at hn
  obtain ⟨p', hp, rfl⟩ := hn
  have hfits : Fits s p.scopes chain := by
    refine hready.fits_of_ne_var fun r hr => ?_
    obtain ⟨n, hn, -⟩ := Place.part_eq_some.mp hp
    rw [hr] at hn
    exact absurd hn (by simp [Node.part, Node.exprPart])
  have hr : Running V p levels (fuel + 1) depth chain s := ⟨hacc, hlevels, hv, hfits, hs, hhold⟩
  by_cases hclass : ∃ name superclass methods, p.node = .stmt (.classDecl name superclass methods)
  · obtain ⟨name, superclass, methods, hnode⟩ := hclass
    obtain ⟨around, scopes, node⟩ := p
    cases hnode
    -- the superclass is looked up at once, and no other part of a class declaration runs
    have hfirst : i = 0 ∧ s₁ = s := by
      cases hst with
      | first => exact ⟨rfl, rfl⟩
      | next _ _ _ hj =>
        simp only [Place.linked, linkStmt] at hj
        exact absurd hj (by simp [Node.next?])
    obtain ⟨rfl, rfl⟩ := hfirst
    cases superclass with
    | none => exact absurd hp (by simp [Place.part, Node.part, Node.stmtPart])
    | some r =>
      cases hp
      have hp₀ : Place.part ⟨around, scopes, .stmt (.classDecl name (some r) methods)⟩ 0 =
          some ⟨around, scopes.add name.text, .expr (.var r)⟩ := rfl
      refine .run (.part hacc hp₀) rfl (by rw [Level.chain_declare, hlevels]) ?_ hs (hhold.declare _)
      exact .superclass hfits (superclass_ne hr)
  · have hne : ∀ name superclass methods, p.node ≠ .stmt (.classDecl name superclass methods) :=
      fun name superclass methods hnode => hclass ⟨name, superclass, methods, hnode⟩
    obtain ⟨he₁, hs₁, hfits₁⟩ := hr.stage hV (keeps hV fuel) hne hst
    exact (hr.part hV hst hp he₁ (hfits₁ p' hp) hs₁).good

/-- The receiver and the method where a property is a method. -/
theorem good_get (hV : ∀ {m m'}, V m → Calls h m m' → V m') {object : Expr Unit} {field : Name}
    (hr : Running V ⟨around, scopes, .expr (.get object field)⟩ levels (fuel + 1) depth chain s)
    {o : Object} {c : Closure}
    (ho : evaluate h fuel depth chain (linkExpr around scopes object).tree s = .done (.object o) s₁)
    (hc : o.ofClass.findMethod? field.text = some c) : Good V (.bind c o s₁) := by
  have hp : Place.part ⟨around, scopes, .expr (.get object field)⟩ 0 =
      some ⟨around, scopes, .expr object⟩ := rfl
  have hmeets := meets_map.mp (hr.meets hV (keeps hV fuel) Running.expr_not_class .first hp)
  rw [ho] at hmeets
  obtain ⟨-, hs₁, hsound⟩ := hmeets
  obtain ⟨k, -, -, hmethod⟩ := ClassSound.findMethod? hsound hc
  exact .bind hs₁ hmethod hsound

/-- The callee and the arguments of a call. -/
theorem good_call (hV : ∀ {m m'}, V m → Calls h m m' → V m') {callee : Expr Unit}
    {args : List (Expr Unit)} {paren : Pos}
    (hr : Running V ⟨around, scopes, .expr (.call callee args paren)⟩ levels (fuel + 1) depth chain s)
    {f : Value} {vs : List Value} {s₂ : Store}
    (hf : evaluate h fuel depth chain (linkExpr around scopes callee).tree s = .done f s₁)
    (ha : evaluateAll h fuel depth chain (args.map fun e => (linkExpr around scopes e).tree) s₁ =
      .done vs s₂) (harity : f.arity? = some vs.length) :
    Good V (.apply f vs fuel (depth + 1) s₂) := by
  have hp : Place.part ⟨around, scopes, .expr (.call callee args paren)⟩ 0 =
      some ⟨around, scopes, .expr callee⟩ := rfl
  have hp' : Place.part ⟨around, scopes, .expr (.call callee args paren)⟩ 1 =
      some ⟨around, scopes, .exprs args⟩ := rfl
  have hmeets := meets_map.mp (hr.meets hV (keeps hV fuel) Running.expr_not_class .first hp)
  rw [hf] at hmeets
  obtain ⟨-, -, hsound⟩ := hmeets
  have hst : Stage h (Place.linked ⟨around, scopes, .expr (.call callee args paren)⟩) fuel depth
      chain s 1 s₁ := by
    refine .next (r := .value f) .first (hr.part_linked hp) ?_ ?_
    · simp only [Place.linked, Node.run, hf, Outcome.map]
    · simp only [Place.linked, linkExpr, Node.next?]
  have hmeets' := meets_map.mp (hr.meets hV (keeps hV fuel) Running.expr_not_class hst hp')
  rw [ha] at hmeets'
  obtain ⟨he₂, hs₂, hvs⟩ := hmeets'
  exact .apply hs₂ (ValueSound.mono he₂ hsound) hvs harity

end Next

/-- **What is true of a moment is true of the moments that it leads to.** -/
theorem Good.calls (hV : ∀ {m m'}, V m → Calls h m m' → V m') {m m' : Moment} (hv : V m)
    (hg : Good V m) (hc : Calls h m m') : Good V m' := by
  cases hc with
  | part hst hn =>
    cases hg with
    | run hacc hp hlevels hready hs hhold =>
      subst hp
      exact good_part hV hv hacc hlevels hready hs hhold hst hn
  | block =>
    cases hg with
    | @run p levels _ _ _ _ _ hacc hp hlevels hready hs hhold =>
      obtain ⟨body, hnode⟩ := Place.linked_eq_block hp
      obtain ⟨around, scopes, node⟩ := p
      cases hnode
      have hfits := hready.fits_of_ne_var fun r hr => absurd hr (by simp)
      rw [← hp] at hv
      obtain ⟨inner, hr⟩ := Running.block hV ⟨hacc, hlevels, hv, hfits, hs, hhold⟩
      simp only [Place.linked, linkStmt, Node.stmt.injEq, Stmt.block.injEq] at hp
      rw [← hp]
      exact hr.good
  | get ho hf hm =>
    cases hg with
    | @run p levels _ _ _ _ _ hacc hp hlevels hready hs hhold =>
      obtain ⟨e, hpe, he⟩ := Place.linked_eq_expr hp
      obtain ⟨object, rfl, rfl⟩ := linkExpr_eq_get he
      rw [hpe] at hacc hready
      have hfits := hready.fits_of_ne_var fun r hr => absurd hr (by simp)
      rw [← hp, hpe] at hv
      exact good_get hV ⟨hacc, hlevels, hv, hfits, hs, hhold⟩ ho hm
  | super ht hk ho hm =>
    cases hg with
    | run _ _ _ _ hs _ =>
      obtain ⟨k', -, -, hmethod⟩ := ClassSound.findMethod? (sound_of_getAt hs hk) hm
      exact .bind hs hmethod (sound_of_getAt hs ho)
  | call hf ha harity hd =>
    cases hg with
    | @run p levels _ _ _ _ _ hacc hp hlevels hready hs hhold =>
      obtain ⟨e, hpe, he⟩ := Place.linked_eq_expr hp
      obtain ⟨callee, args, rfl, rfl, rfl⟩ := linkExpr_eq_call he
      rw [hpe] at hacc hready
      have hfits := hready.fits_of_ne_var fun r hr => absurd hr (by simp)
      rw [← hp, hpe] at hv
      exact good_call hV ⟨hacc, hlevels, hv, hfits, hs, hhold⟩ hf ha harity
  | closure =>
    cases hg with
    | apply hs hf hargs harity => exact .invoke hs hf hargs (Option.some.inj harity)
  | @construct k args fuel depth s c hc =>
    cases hg with
    | apply hs hf _ _ =>
      have he : Extends s { s with objects := s.objects.push .empty } := .of_frames rfl
      have hk : ClassSound V { s with objects := s.objects.push .empty } k := ClassSound.mono he hf
      obtain ⟨k', -, -, hmethod⟩ := hk.findMethod? hc
      exact .bind hs.newObject hmethod hk
  | @initializer k args fuel depth s s₁ c c' hc hb =>
    cases hg with
    | apply hs hf hargs harity =>
      have he : Extends s { s with objects := s.objects.push .empty } := .of_frames rfl
      have hk : ClassSound V { s with objects := s.objects.push .empty } k := ClassSound.mono he hf
      have hbind := bindMethod_meets (hV hv (.construct hc)) (hk.findMethod? hc) hk hs.newObject
      rw [hb] at hbind
      obtain ⟨he₁, hs₁, hclosure, hfunction⟩ := hbind
      refine .invoke hs₁ hclosure (fun v hv => ValueSound.mono (he.trans he₁) (hargs v hv)) ?_
      rw [Value.arity?, hc] at harity
      rw [hfunction]
      exact Option.some.inj harity
  | body =>
    cases hg with
    | invoke hs hc hargs hlen =>
      obtain ⟨p, levels, hbody, hr⟩ := Running.body hV hv hlen hs hc hargs
      rw [← hbody]
      exact hr.good

end LoxKit
