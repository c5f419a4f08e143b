import LoxKit.Proofs.Machine.Declaration

/-!
# What runs keep

A node with an account that begins to run in a sound store and in a chain that fits its scopes
leaves a sound store, is not broken, and gives what `Gives` says. The proof is an induction on the
steps allowed. Each round follows the rules of `Calls`, so that it needs nothing of `V` but that it
is closed under them.

Headlines:
* `Running.stage`: in which stores the parts of a node begin.
* `Keeps`: what runs with so many steps keep.
* **`keeps`**: every number of steps keeps it.
-/

namespace LoxKit

open LoxKit.Action

variable {h : Host} {V : Moment → Prop}

/-- What a node at a place gives. A return is reached in functions only. -/
def Gives (V : Moment → Prop) (p : Place) (chain : Chain) : Answer → Store → Prop
  | .value v, s => ValueSound V s v
  | .values vs, s => ∀ v ∈ vs, ValueSound V s v
  | .completion .carryOn, s => Fits s p.scopesAfter chain
  | .completion (.returned v), s => ValueSound V s v ∧ p.around.function ≠ .none

/-- A node at a place begins to run. -/
structure Running (V : Moment → Prop) (p : Place) (levels : List Level) (fuel depth : Nat)
    (chain : Chain) (s : Store) : Prop where
  account : Account V p levels
  levels_eq : chain = Level.chain levels
  visited : V (.run p.linked fuel depth chain s)
  fits : Fits s p.scopes chain
  sound : StoreSound V s
  hold : Level.AllHold s levels

/-- What runs with so many steps keep. -/
structure Keeps (h : Host) (V : Moment → Prop) (fuel : Nat) : Prop where
  run : ∀ {p : Place} {levels : List Level} {depth : Nat} {chain : Chain} {s : Store},
    Running V p levels fuel depth chain s →
      Meets V s (p.linked.run h fuel depth chain s) (Gives V p chain)
  apply : ∀ {f : Value} {args : List Value} {depth : Nat} {s : Store},
    V (.apply f args fuel depth s) → f.arity? = some args.length → StoreSound V s →
      ValueSound V s f → (∀ v ∈ args, ValueSound V s v) →
      Meets V s (apply h fuel depth f args s) fun v s' => ValueSound V s' v
  invoke : ∀ {c : Closure} {args : List Value} {depth : Nat} {s : Store},
    V (.invoke c args fuel depth s) → c.function.params.length = args.length → StoreSound V s →
      ClosureSound V s c → (∀ v ∈ args, ValueSound V s v) →
      Meets V s (invoke h fuel depth c args s) fun v s' => ValueSound V s' v

theorem keeps_zero : Keeps h V 0 where
  run {p levels depth chain s} _ := by
    cases p.linked with
    | expr e => simp only [Node.run, evaluate, Outcome.map, Meets]
    | exprs es => simp only [Node.run, evaluateAll, Outcome.map, Meets]
    | stmt st => simp only [Node.run, execute, Outcome.map, Meets]
    | stmts sts => simp only [Node.run, executeAll, Outcome.map, Meets]
    | loop condition body => simp only [Node.run, repeatWhile, Outcome.map, Meets]
    | function f => trivial
    | method f => trivial
  apply _ _ _ _ _ := by simp only [LoxKit.apply, Meets]
  invoke _ _ _ _ _ := by simp only [LoxKit.invoke, Meets]

/-! ## The parts of a node -/

/-- How one part leads to another. -/
theorem Node.next?_eq_some {n : Node Link} {i j : Nat} {r : Answer} (hj : n.next? i r = some j) :
    (∃ v, r = .value v ∧ j ≠ 0 ∧ ∀ sts, n ≠ .stmts sts) ∨
    (r = .completion .carryOn ∧ i = 0 ∧ j = 1 ∧ ∃ sts, n = .stmts sts) ∨
    (r = .completion .carryOn ∧ i = 1 ∧ j = 2 ∧ ∃ condition body, n = .loop condition body) := by
  unfold next? at hj
  split at hj
  case h_8 sts => exact Or.inr (Or.inl ⟨rfl, rfl, (Option.some.inj hj).symm, sts, rfl⟩)
  case h_10 condition body =>
    exact Or.inr (Or.inr ⟨rfl, rfl, (Option.some.inj hj).symm, condition, body, rfl⟩)
  case h_11 => exact absurd hj (by simp)
  all_goals
    refine Or.inl ⟨_, rfl, ?_, fun sts hsts => absurd hsts (by simp)⟩
    rintro rfl
    first
      | exact absurd hj (by simp)
      | split at hj <;> exact absurd hj (by simp)

theorem Place.scopesAt_of_ne_zero {p : Place} {j : Nat} (hj : j ≠ 0)
    (hp : ∀ sts, p.node ≠ .stmts sts) : p.scopesAt j = p.scopes := by
  unfold Place.scopesAt
  split
  · exact absurd rfl hj
  · exact absurd rfl hj
  · rename_i st sts hsts
    exact absurd hsts (hp _)
  · rfl

namespace Running

variable {p p' : Place} {levels : List Level} {fuel depth i j : Nat} {chain : Chain}
  {s s₁ s₂ : Store} {r : Answer}

theorem proper (hr : Running V p levels fuel depth chain s) : p.node.Proper :=
  hr.account.regular.proper

theorem part_linked (hr : Running V p levels (fuel + 1) depth chain s) (hp : p.part i = some p') :
    p.linked.part i = some p'.linked := by
  rw [Place.linked_part hr.proper, hp]
  rfl

/-- A part that begins in a chain that fits. -/
theorem part (hV : ∀ {m m'}, V m → Calls h m m' → V m')
    (hr : Running V p levels (fuel + 1) depth chain s)
    (hst : Stage h p.linked fuel depth chain s i s₁) (hp : p.part i = some p')
    (he : Extends s s₁) (hfits : Fits s₁ p'.scopes chain) (hs : StoreSound V s₁) :
    Running V p' (Level.declare levels (p.declaresAt i)) fuel depth chain s₁ where
  account := .part hr.account hp
  levels_eq := by rw [Level.chain_declare, hr.levels_eq]
  visited := hV hr.visited (.part hst (hr.part_linked hp))
  fits := hfits
  sound := hs
  hold := (hr.hold.mono he).declare _

/-- In which stores the parts of a node begin. The superclass of a class is left out: there the
chain does not fit the scopes yet. -/
theorem stage (hV : ∀ {m m'}, V m → Calls h m m' → V m') (hk : Keeps h V fuel)
    (hr : Running V p levels (fuel + 1) depth chain s)
    (hclass : ∀ name superclass methods, p.node ≠ .stmt (.classDecl name superclass methods))
    (hst : Stage h p.linked fuel depth chain s i s₁) :
    Extends s s₁ ∧ StoreSound V s₁ ∧ ∀ p', p.part i = some p' → Fits s₁ p'.scopes chain := by
  induction hst with
  | first =>
    refine ⟨.refl s, hr.sound, fun p' hp => ?_⟩
    obtain ⟨n, -, rfl⟩ := Place.part_eq_some.mp hp
    have hproper := hr.proper
    unfold Place.scopesAt
    split
    · rename_i name initializer hnode _
      rw [hnode] at hproper
      cases hproper with
      | var hn _ => exact hr.fits.declare hn
    · rename_i name superclass methods hnode _
      exact absurd hnode (hclass name superclass methods)
    · rename_i hzero
      exact absurd hzero (by simp)
    · exact hr.fits
  | @next i j n' r s₁ s₂ hi hn hdone hj ih =>
    obtain ⟨he, hs, hfits⟩ := ih
    rw [Place.linked_part hr.proper, Option.map_eq_some_iff] at hn
    obtain ⟨p₁, hp₁, rfl⟩ := hn
    have hpart := hk.run (hr.part hV hi hp₁ he (hfits p₁ hp₁) hs)
    rw [hdone] at hpart
    obtain ⟨he₂, hs₂, hgives⟩ := hpart
    refine ⟨he.trans he₂, hs₂, fun p' hp => ?_⟩
    obtain ⟨n, -, rfl⟩ := Place.part_eq_some.mp hp
    obtain ⟨n₁, hn₁, rfl⟩ := Place.part_eq_some.mp hp₁
    obtain ⟨around, scopes, node⟩ := p
    rcases Node.next?_eq_some hj with ⟨v, rfl, hne, hsts⟩ | ⟨rfl, rfl, rfl, sts, hsts⟩ |
      ⟨rfl, rfl, rfl, condition, body, hloop⟩
    · have hscopes : Place.scopesAt ⟨around, scopes, node⟩ j = scopes := by
        refine Place.scopesAt_of_ne_zero hne fun sts hnode => ?_
        cases hnode
        exact hsts _ rfl
      rw [hscopes]
      exact hr.fits.mono (he.trans he₂)
    · cases node with
      | stmts sts' =>
        cases sts' with
        | nil => exact absurd hn₁ (by simp [Node.part])
        | cons st sts' =>
          cases hn₁
          exact hgives
      | _ => exact absurd hsts (by simp [Place.linked])
    · cases node with
      | loop condition' body' =>
        cases hn₁
        have hproper := hr.proper
        have hafter : Fits s₂ (linkStmt around scopes body').scopes chain := hgives
        rw [scopes_linkStmt_guarded hproper.2.1 hproper.2.2] at hafter
        exact hafter
      | _ => exact absurd hloop (by simp [Place.linked])

/-- What a part gives. -/
theorem meets (hV : ∀ {m m'}, V m → Calls h m m' → V m') (hk : Keeps h V fuel)
    (hr : Running V p levels (fuel + 1) depth chain s)
    (hclass : ∀ name superclass methods, p.node ≠ .stmt (.classDecl name superclass methods))
    (hst : Stage h p.linked fuel depth chain s i s₁) (hp : p.part i = some p') :
    Meets V s₁ (p'.linked.run h fuel depth chain s₁) (Gives V p' chain) := by
  obtain ⟨he, hs, hfits⟩ := hr.stage hV hk hclass hst
  exact hk.run (hr.part hV hst hp he (hfits p' hp) hs)

/-- What an action keeps that begins with a part. -/
theorem bind_part {α β : Type} {m : Action α} {f : α → Action β} {toAnswer : α → Answer}
    {Q : β → Store → Prop} (hV : ∀ {m m'}, V m → Calls h m m' → V m') (hk : Keeps h V fuel)
    (hr : Running V p levels (fuel + 1) depth chain s)
    (hclass : ∀ name superclass methods, p.node ≠ .stmt (.classDecl name superclass methods))
    (hst : Stage h p.linked fuel depth chain s i s₁) (hp : p.part i = some p')
    (hm : p'.linked.run h fuel depth chain s₁ = (m s₁).map toAnswer)
    (hf : ∀ a s₂, m s₁ = .done a s₂ →
      (∀ j, p.linked.next? i (toAnswer a) = some j → Stage h p.linked fuel depth chain s j s₂) →
      Extends s₁ s₂ → StoreSound V s₂ → Gives V p' chain (toAnswer a) s₂ →
      Meets V s₂ (f a s₂) Q) : Meets V s₁ ((m >>= f) s₁) Q := by
  have hmeets := hr.meets hV hk hclass hst hp
  rw [hm] at hmeets
  refine Meets.bind (meets_map.mp hmeets) fun a s₂ ha he hs hgives => hf a s₂ ha ?_ he hs hgives
  intro j hj
  refine .next hst (hr.part_linked hp) ?_ hj
  rw [hm, ha]
  rfl

end Running

/-! ## Expressions -/

theorem ofOperator_meets {s : Store} (hs : StoreSound V s) (line : Nat)
    {o : Except RuntimeError Value} (ho : ∀ v, o = .ok v → ValueSound V s v) :
    Meets V s (ofOperator line o s) fun v s' => ValueSound V s' v := by
  cases o with
  | ok v => exact ⟨.refl s, hs, ho v rfl⟩
  | error error => exact ⟨.refl s, hs⟩

/-- Operators make no functions, classes or objects. -/
theorem applyUnary_sound {s : Store} {op : UnaryOp} {a v : Value} (hv : applyUnary op a = .ok v) :
    ValueSound V s v := by
  unfold applyUnary at hv
  split at hv <;> cases hv <;> trivial

theorem applyBinary_sound {s : Store} {op : BinaryOp} {a b v : Value}
    (hv : applyBinary op a b = .ok v) : ValueSound V s v := by
  have hnumeric : ∀ op x y, ValueSound V s (numeric op x y) := fun op x y => by cases op <;> trivial
  unfold applyBinary at hv
  split at hv <;> cases hv
  · trivial
  · trivial
  · exact hnumeric _ _ _
  · trivial

section Steps

variable {around : Surroundings} {scopes : Scopes} {levels : List Level} {fuel depth : Nat}
  {chain : Chain} {s : Store}

theorem Running.expr_not_class {e : Expr Unit} :
    ∀ name superclass methods, (Place.node ⟨around, scopes, .expr e⟩) ≠
      .stmt (.classDecl name superclass methods) :=
  fun _ _ _ hn => absurd hn (by simp)

theorem keeps_expr (hV : ∀ {m m'}, V m → Calls h m m' → V m') (hk : Keeps h V fuel) {e : Expr Unit}
    (hr : Running V ⟨around, scopes, .expr e⟩ levels (fuel + 1) depth chain s) :
    Meets V s (evaluate h (fuel + 1) depth chain (linkExpr around scopes e).tree s)
      fun v s' => ValueSound V s' v := by
  have hclass : ∀ name superclass methods, (Place.node ⟨around, scopes, .expr e⟩) ≠
      .stmt (.classDecl name superclass methods) := Running.expr_not_class
  have hregular := hr.account.regular
  have hready : Ready s chain ⟨around, scopes, .expr e⟩ := .fits hr.fits
  cases e with
  | literal value token =>
    rw [linkExpr, evaluate]
    refine ⟨.refl s, hr.sound, ?_⟩
    cases value <;> trivial
  | grouping inner =>
    rw [linkExpr, Linked.map_tree, evaluate]
    have hp : Place.part ⟨around, scopes, .expr (.grouping inner)⟩ 0 =
        some ⟨around, scopes, .expr inner⟩ := rfl
    exact meets_map.mp (hr.meets hV hk hclass .first hp)
  | unary op pos arg =>
    rw [linkExpr, Linked.map_tree, evaluate]
    have hp : Place.part ⟨around, scopes, .expr (.unary op pos arg)⟩ 0 =
        some ⟨around, scopes, .expr arg⟩ := rfl
    exact hr.bind_part hV hk hclass .first hp rfl fun a s₁ _ _ _ hs _ =>
      ofOperator_meets hs _ fun v => applyUnary_sound
  | binary op pos lhs rhs =>
    rw [linkExpr, evaluate]
    have hp : Place.part ⟨around, scopes, .expr (.binary op pos lhs rhs)⟩ 0 =
        some ⟨around, scopes, .expr lhs⟩ := rfl
    have hp' : Place.part ⟨around, scopes, .expr (.binary op pos lhs rhs)⟩ 1 =
        some ⟨around, scopes, .expr rhs⟩ := rfl
    refine hr.bind_part hV hk hclass .first hp rfl fun a s₁ _ hnext _ _ _ => ?_
    have hst := hnext 1 (by simp only [Place.linked, linkExpr, Node.next?])
    exact hr.bind_part hV hk hclass hst hp' rfl fun b s₂ _ _ _ hs _ =>
      ofOperator_meets hs _ fun v => applyBinary_sound
  | logical op pos lhs rhs =>
    rw [linkExpr, evaluate]
    have hp : Place.part ⟨around, scopes, .expr (.logical op pos lhs rhs)⟩ 0 =
        some ⟨around, scopes, .expr lhs⟩ := rfl
    have hp' : Place.part ⟨around, scopes, .expr (.logical op pos lhs rhs)⟩ 1 =
        some ⟨around, scopes, .expr rhs⟩ := rfl
    refine hr.bind_part hV hk hclass .first hp rfl fun a s₁ _ hnext _ hs hv => ?_
    cases hd : op.decides a with
    | true => exact meets_pure hs hv
    | false =>
      have hst := hnext 1 (by simp [Place.linked, linkExpr, Node.next?, hd])
      exact meets_map.mp (hr.meets hV hk hclass hst hp')
  | var target =>
    rw [linkExpr, Linked.map_tree, evaluate]
    exact follow_meets hregular hready hr.sound rfl rfl
  | assign target value =>
    rw [linkExpr, Linked.map_tree, evaluate]
    have hp : Place.part ⟨around, scopes, .expr (.assign target value)⟩ 0 =
        some ⟨around, scopes, .expr value⟩ := rfl
    have hplain : Plain target.name.text := by
      cases hregular.proper with
      | assign ht _ => exact ht
    refine hr.bind_part hV hk hclass .first hp rfl fun v s₁ _ _ he hs hv => ?_
    have hready₁ : Ready s₁ chain ⟨around, scopes, .expr (.assign target value)⟩ :=
      .fits (hr.fits.mono he)
    exact Meets.bind (store_meets hready₁ hs rfl hplain hv) fun _ s₂ _ he₂ hs₂ _ =>
      meets_pure hs₂ (ValueSound.mono he₂ hv)
  | call callee args paren =>
    rw [linkExpr, evaluate]
    have hp : Place.part ⟨around, scopes, .expr (.call callee args paren)⟩ 0 =
        some ⟨around, scopes, .expr callee⟩ := rfl
    have hp' : Place.part ⟨around, scopes, .expr (.call callee args paren)⟩ 1 =
        some ⟨around, scopes, .exprs args⟩ := rfl
    have hlinked : Place.linked ⟨around, scopes, .expr (.call callee args paren)⟩ =
        .expr (.call (linkExpr around scopes callee).tree
          (args.map fun e => (linkExpr around scopes e).tree) paren) := by
      simp only [Place.linked, linkExpr, List.map_map]
      rfl
    rw [List.map_map]
    refine hr.bind_part hV hk hclass .first hp rfl fun f s₁ hf hnext he _ hvf => ?_
    have hst := hnext 1 (by rw [hlinked]; rfl)
    refine hr.bind_part hV hk hclass hst hp' rfl fun vs s₂ ha _ he₂ hs₂ hvs => ?_
    have hvf₂ := ValueSound.mono he₂ hvf
    cases harity : f.arity? with
    | none => exact meets_fail hs₂ _ _ _
    | some arity =>
      refine meets_ite (fun _ => meets_fail hs₂ _ _ _) fun hlen => ?_
      refine meets_ite (fun _ => meets_fail hs₂ _ _ _) fun hdepth => ?_
      rw [← Decidable.not_not.mp hlen] at harity
      have hvisited := hr.visited
      rw [hlinked] at hvisited
      exact hk.apply (hV hvisited (.call hf ha harity (Nat.not_le.mp hdepth))) harity hs₂ hvf₂ hvs
  | get object field =>
    rw [linkExpr, Linked.map_tree, evaluate]
    have hp : Place.part ⟨around, scopes, .expr (.get object field)⟩ 0 =
        some ⟨around, scopes, .expr object⟩ := rfl
    refine hr.bind_part hV hk hclass .first hp rfl fun v s₁ ho _ he hs hv => ?_
    have hvisited := hr.visited
    simp only [Place.linked, linkExpr, Linked.map_tree] at hvisited
    split
    · exact getProperty_meets hv hs fun c hfield hc => hV hvisited (.get ho hfield hc)
    · exact meets_fail hs _ _ _
  | set object field value =>
    rw [linkExpr, evaluate]
    have hp : Place.part ⟨around, scopes, .expr (.set object field value)⟩ 0 =
        some ⟨around, scopes, .expr object⟩ := rfl
    have hp' : Place.part ⟨around, scopes, .expr (.set object field value)⟩ 1 =
        some ⟨around, scopes, .expr value⟩ := rfl
    refine hr.bind_part hV hk hclass .first hp rfl fun v s₁ ho hnext he hs hv => ?_
    split
    · have hst := hnext 1 (by simp only [Place.linked, linkExpr, Node.next?])
      refine hr.bind_part hV hk hclass hst hp' rfl fun w s₂ _ _ _ hs₂ hw => ?_
      exact Meets.bind (setField_meets hs₂ _ _ hw) fun _ s₃ _ he₃ hs₃ _ =>
        meets_pure hs₃ (ValueSound.mono he₃ hw)
    · exact meets_fail hs _ _ _
  | this target =>
    rw [hregular.linked_this.1, evaluate]
    exact follow_meets hregular hready hr.sound rfl rfl
  | super target method =>
    obtain ⟨d, hthis, hsuper⟩ := hregular.super_link rfl
    obtain ⟨l, l', c₀, o, s₀, k, made, hl, hl', -, hfounds, hreadThis, hreadSuper, hmade, -⟩ :=
      hr.account.super_origin hr.hold hthis hsuper
    have hname : target.name.text = Keyword.super.word := by
      cases hregular.proper with
      | super _ ht => exact ht
    have hd : scopes.hops? target.name.text = some (d + 1) := by rw [hname, hsuper]
    have hid := Level.getElem?_chain hl
    have hid' := Level.getElem?_chain hl'
    rw [← hr.levels_eq] at hid hid'
    have hk' := getAt_eq_ok hid' hreadSuper
    have ho := getAt_eq_ok hid hreadThis
    have hvisited := hr.visited
    simp only [Place.linked, linkExpr, hd] at hvisited
    have hclass := sound_of_getAt hr.sound hk'
    have hobject := sound_of_getAt hr.sound ho
    rw [linkExpr, evaluate]
    simp only [hd, hk', Nat.add_sub_cancel, ho]
    refine Meets.bind (P := fun above _ => above = .ofClass k) (meets_pure hr.sound rfl) ?_
    rintro above s₁ habove - - rfl
    refine Meets.bind (P := fun receiver _ => receiver = .object o) ?_ ?_
    · cases habove
      exact meets_pure hr.sound rfl
    rintro receiver s₂ hreceiver - - rfl
    cases habove
    cases hreceiver
    dsimp only
    cases hc : k.findMethod? method.text with
    | none => exact meets_fail hr.sound _ _ _
    | some c =>
      obtain ⟨k₁, hk₁, hhas, hsound⟩ := ClassSound.findMethod? hclass hc
      have hlineage := ClassValue.lineage_trans hmade (hfounds.lineage k₁ hk₁)
      have hbind := bindMethod_meets (hV hvisited (.super rfl hk' ho hc))
        ⟨k₁, hlineage, hhas, hsound⟩ hobject hr.sound
      exact ⟨hbind.1, hbind.2.1, hbind.2.2.1⟩

theorem keeps_exprs (hV : ∀ {m m'}, V m → Calls h m m' → V m') (hk : Keeps h V fuel)
    {es : List (Expr Unit)}
    (hr : Running V ⟨around, scopes, .exprs es⟩ levels (fuel + 1) depth chain s) :
    Meets V s (evaluateAll h (fuel + 1) depth chain
      (es.map fun e => (linkExpr around scopes e).tree) s) fun vs s' => ∀ v ∈ vs, ValueSound V s' v := by
  have hclass : ∀ name superclass methods, (Place.node ⟨around, scopes, .exprs es⟩) ≠
      .stmt (.classDecl name superclass methods) := fun _ _ _ hn => absurd hn (by simp)
  cases es with
  | nil =>
    rw [List.map_nil, evaluateAll]
    exact ⟨.refl s, hr.sound, fun _ hv => absurd hv List.not_mem_nil⟩
  | cons e es =>
    rw [List.map_cons, evaluateAll]
    have hp : Place.part ⟨around, scopes, .exprs (e :: es)⟩ 0 =
        some ⟨around, scopes, .expr e⟩ := rfl
    have hp' : Place.part ⟨around, scopes, .exprs (e :: es)⟩ 1 =
        some ⟨around, scopes, .exprs es⟩ := rfl
    refine hr.bind_part hV hk hclass .first hp rfl fun v s₁ _ hnext _ _ hv => ?_
    refine hr.bind_part hV hk hclass (hnext 1 rfl) hp' rfl fun vs s₂ _ _ he hs hvs => ?_
    exact meets_pure hs (List.forall_mem_cons.mpr ⟨ValueSound.mono he hv, hvs⟩)

/-! ## Statements -/

/-- The statements of a block, behind its entry. -/
theorem Running.block (hV : ∀ {m m'}, V m → Calls h m m' → V m') {body : List (Stmt Unit)}
    (hr : Running V ⟨around, scopes, .stmt (.block body)⟩ levels (fuel + 1) depth chain s) :
    ∃ inner, Running V ⟨around, .empty :: scopes, .stmts body⟩ inner fuel depth
      (s.frames.size :: chain) { s with frames := s.frames.push .empty } := by
  have hvisited := hr.visited
  have haccount := hr.account
  have hlinked : Place.linked ⟨around, scopes, .stmt (.block body)⟩ =
      .stmt (.block (linkStmts around (.empty :: scopes) body).tree) := by
    simp only [Place.linked, linkStmt]
  refine ⟨⟨[], .run (Place.linked ⟨around, scopes, .stmt (.block body)⟩) (fuel + 1) depth chain s⟩ ::
    levels, ?_, ?_, ?_, hr.fits.enter hr.sound _, hr.sound.push fun _ _ hb => ?_,
    .of_block rfl rfl, hr.hold.mono (.push s .empty)⟩
  · rw [hr.levels_eq] at hvisited ⊢
    exact .block haccount rfl hvisited
  · rw [Level.chain_cons, ← hr.levels_eq]
    rfl
  · rw [hlinked] at hvisited
    exact hV hvisited .block
  · rw [Bindings.get?_empty] at hb
    exact absurd hb (by simp)

/-- A statement that declares nothing and carries on. -/
theorem carryOn_meets {st : Stmt Unit} (hst : st.Proper) (hd : st.declares = []) (hs : StoreSound V s)
    (hfits : Fits s scopes chain) :
    Meets V s ((pure .carryOn : Action Completion) s)
      fun c s' => Gives V ⟨around, scopes, .stmt st⟩ chain (.completion c) s' := by
  refine meets_pure hs ?_
  show Fits s (linkStmt around scopes st).scopes chain
  rwa [scopes_linkStmt_guarded hst hd]

theorem keeps_loop (hV : ∀ {m m'}, V m → Calls h m m' → V m') (hk : Keeps h V fuel)
    {condition : Expr Unit} {body : Stmt Unit}
    (hr : Running V ⟨around, scopes, .loop condition body⟩ levels (fuel + 1) depth chain s) :
    Meets V s (repeatWhile h (fuel + 1) depth chain (linkExpr around scopes condition).tree
      (linkStmt around scopes body).tree s)
      fun c s' => Gives V ⟨around, scopes, .loop condition body⟩ chain (.completion c) s' := by
  have hclass : ∀ name superclass methods, (Place.node ⟨around, scopes, .loop condition body⟩) ≠
      .stmt (.classDecl name superclass methods) := fun _ _ _ hn => absurd hn (by simp)
  have hp : ∀ i, Place.part ⟨around, scopes, .loop condition body⟩ i =
      (Node.part (.loop condition body) i).map fun n => ⟨around, scopes, n⟩ := fun _ => rfl
  rw [repeatWhile]
  refine hr.bind_part hV hk hclass .first (hp 0) rfl fun v s₁ _ hnext he hs _ => ?_
  refine meets_ite (fun hv => ?_) fun _ => meets_pure hs (hr.fits.mono he)
  have hst := hnext 1 (if_pos hv)
  refine hr.bind_part hV hk hclass hst (hp 1) rfl fun c s₂ _ hnext₂ _ hs₂ hc => ?_
  cases c with
  | returned w => exact meets_pure hs₂ hc
  | carryOn => exact meets_map.mp (hr.meets hV hk hclass (hnext₂ 2 rfl) (hp 2))

theorem keeps_stmts (hV : ∀ {m m'}, V m → Calls h m m' → V m') (hk : Keeps h V fuel)
    {sts : List (Stmt Unit)}
    (hr : Running V ⟨around, scopes, .stmts sts⟩ levels (fuel + 1) depth chain s) :
    Meets V s (executeAll h (fuel + 1) depth chain (linkStmts around scopes sts).tree s)
      fun c s' => Gives V ⟨around, scopes, .stmts sts⟩ chain (.completion c) s' := by
  have hclass : ∀ name superclass methods, (Place.node ⟨around, scopes, .stmts sts⟩) ≠
      .stmt (.classDecl name superclass methods) := fun _ _ _ hn => absurd hn (by simp)
  cases sts with
  | nil =>
    rw [linkStmts, executeAll]
    refine ⟨.refl s, hr.sound, ?_⟩
    show Fits s (linkStmts around scopes []).scopes chain
    rw [linkStmts]
    exact hr.fits
  | cons st sts =>
    have hp : Place.part ⟨around, scopes, .stmts (st :: sts)⟩ 0 =
        some ⟨around, scopes, .stmt st⟩ := rfl
    have hp' : Place.part ⟨around, scopes, .stmts (st :: sts)⟩ 1 =
        some ⟨around, (linkStmt around scopes st).scopes, .stmts sts⟩ := rfl
    have hnode : Place.linked ⟨around, scopes, .stmts (st :: sts)⟩ = .stmts
        ((linkStmt around scopes st).tree ::
          (linkStmts around (linkStmt around scopes st).scopes sts).tree) := by
      simp only [Place.linked, linkStmts]
    rw [linkStmts, executeAll]
    refine hr.bind_part hV hk hclass .first hp rfl fun c s₁ _ hnext _ hs hc => ?_
    cases c with
    | returned w => exact meets_pure hs hc
    | carryOn =>
      have hst := hnext 1 (by rw [hnode]; rfl)
      refine (meets_map.mp (hr.meets hV hk hclass hst hp')).mono fun c s' _ _ _ hc' => ?_
      cases c with
      | returned w => exact hc'
      | carryOn =>
        show Fits s' (linkStmts around scopes (st :: sts)).scopes chain
        rw [linkStmts]
        exact hc'

/-- A class is not its own superclass. -/
theorem superclass_ne {name : Name} {r : Reference Unit} {methods : List (Function Unit)}
    (hr : Running V ⟨around, scopes, .stmt (.classDecl name (some r) methods)⟩ levels fuel depth chain
      s) : r.name.text ≠ name.text := by
  intro heq
  have hclean := hr.account.regular.clean
  simp only [Place.issues, linkStmt, linkSuperclass, heq, if_true, List.append_eq_nil_iff] at hclean
  exact absurd hclean.1.2.1 (by simp)

/-- The superclass of a class, evaluated before the name of the class is bound. -/
theorem superclass_meets {name : Name} {r : Reference Unit} {methods : List (Function Unit)}
    (hr : Running V ⟨around, scopes, .stmt (.classDecl name (some r) methods)⟩ levels fuel depth chain
      s) :
    Meets V s (follow chain (linkVar (scopes.add name.text) r).tree s) fun v s' => ValueSound V s' v := by
  have hp : Place.part ⟨around, scopes, .stmt (.classDecl name (some r) methods)⟩ 0 =
      some ⟨around, scopes.add name.text, .expr (.var r)⟩ := rfl
  exact follow_meets (hr.account.regular.part hp) (.superclass hr.fits (superclass_ne hr)) hr.sound
    rfl rfl

/-- The methods of a class without superclass have an account. -/
theorem Running.methods_account {name : Name} {methods : List (Function Unit)}
    (hr : Running V ⟨around, scopes, .stmt (.classDecl name none methods)⟩ levels fuel depth chain s) :
    ∀ f ∈ methods, Account V ⟨{ methodSurroundings around false with function := methodKind f },
      scopes.add name.text, .method f⟩ (Level.declare levels [name.text]) := by
  intro f hf
  have hvisited := hr.visited
  rw [hr.levels_eq] at hvisited
  exact .method hr.account rfl hf hvisited

/-- The methods of a class with a superclass have an account. -/
theorem Running.inherited_account {name : Name} {r : Reference Unit} {methods : List (Function Unit)}
    (hr : Running V ⟨around, scopes, .stmt (.classDecl name (some r) methods)⟩ levels fuel depth chain
      s) :
    ∀ f ∈ methods, Account V ⟨{ methodSurroundings around true with function := methodKind f },
      .single Keyword.super.word :: scopes.add name.text, .method f⟩
      (⟨[Keyword.super.word], .run (Place.linked ⟨around, scopes, .stmt (.classDecl name (some r) methods)⟩)
        fuel depth chain s⟩ :: Level.declare levels [name.text]) := by
  intro f hf
  have hvisited := hr.visited
  have haccount := hr.account
  rw [hr.levels_eq] at hvisited ⊢
  exact .inherited haccount rfl hf hvisited

/-- The methods of a class and its name, once its superclass is known. -/
theorem declareClass_meets {name : Name} {above : Option ClassValue} {methods : List (Function Unit)}
    {aroundOf : Function Unit → Surroundings} {inside : Scopes} {innerLevels : List Level}
    {innerChain : Chain}
    (hacc : ∀ f ∈ methods, Account V ⟨aroundOf f, inside, .method f⟩ innerLevels)
    (hlevels : innerChain = Level.chain innerLevels) (hinside : Fits s inside innerChain)
    (hhold : Level.AllHold s innerLevels)
    (hfits : Fits s scopes chain) (hs : StoreSound V s) (hn : Plain name.text)
    (habove : ∀ k, above = some k → ClassSound V s k)
    (hclass : ∀ made s', declareClass chain innerChain name above (methods.map fun f =>
        (linkFunction (aroundOf f) (.single Keyword.this.word :: inside) f).tree) s =
          .done .carryOn s' →
      s'.frames.getAt chain 0 name.text = .ok (.ofClass made) → made.superclass? = above →
      Level.OfClass innerLevels made) :
    Meets V s (declareClass chain innerChain name above (methods.map fun f =>
        (linkFunction (aroundOf f) (.single Keyword.this.word :: inside) f).tree) s)
      fun c s' => c = .carryOn ∧ Fits s' scopes chain := by
  have hempty : ∀ k, Level.OfClass innerLevels k → ∀ key c,
      (Bindings.empty : Bindings Closure).get? key = some c → MethodSound V s k c :=
    fun _ _ _ _ hc => absurd hc (by rw [Bindings.get?_empty]; simp)
  refine Meets.bind (newMethods_meets hacc hlevels hinside hhold hs hempty)
    fun table s₁ hdone he₁ hs₁ htable => ?_
  have he₂ : Extends s₁ { s₁ with fresh := s₁.fresh + 1 } := .of_frames rfl
  have hfits₂ := hfits.mono (he₁.trans he₂)
  refine Meets.after ?_ he₂
  refine Meets.bind (defineIn_meets hfits₂ (hs₁.congr rfl rfl) hn fun s' he' _ => ?_)
    fun _ s₃ _ he₃ hs₃ _ => meets_pure hs₃ ⟨rfl, hfits₂.mono he₃⟩
  have hmade : Level.OfClass innerLevels (.mk s₁.fresh name.text above table) := by
    obtain ⟨id, hid⟩ := hfits.head?
    exact hclass _ _ (declareClass_eq hid hdone)
      (getAt_define hid ((hfits.mono he₁).head_made hs₁ hid) _ _) rfl
  have hk : ClassSound V s₁ (.mk s₁.fresh name.text above table) :=
    classSound_mk (htable _ hmade) fun k hk => ClassSound.mono he₁ (habove k hk)
  exact ClassSound.mono (he₂.trans he') hk

/-- The frame that is made for a superclass binds it, whatever is declared behind it. -/
theorem Running.inherited_hold {name : Name} {r : Reference Unit} {methods : List (Function Unit)}
    {target : Reference Link} {fs : List (Function Link)} {declared : Scopes} {k : ClassValue}
    {s₂ : Store}
    (hr : Running V ⟨around, scopes, .stmt (.classDecl name (some r) methods)⟩ levels (fuel + 1)
      depth chain s)
    (hlinked : (linkStmt around scopes (.classDecl name (some r) methods)).tree =
      .classDecl name (some target) fs)
    (hv : follow chain target s = .done (.ofClass k) s)
    (hdefine : defineIn chain name.text .nil s = .done () s₂) (he : Extends s s₂)
    (hfits : Fits s₂ declared chain) (hs₂ : StoreSound V s₂) :
    Level.AllHold
      { s₂ with frames := s₂.frames.push (Bindings.empty.set Keyword.super.word (.ofClass k)) }
      (⟨[Keyword.super.word], .run
        (Place.linked ⟨around, scopes, .stmt (.classDecl name (some r) methods)⟩) (fuel + 1) depth
        chain s⟩ :: Level.declare levels [name.text]) := by
  have he' := Extends.push s₂ (Bindings.empty.set Keyword.super.word (.ofClass k))
  refine ⟨⟨fun c o s₄ hl => absurd hl (by simp), fun _ _ _ _ _ _ _ _ => ?_⟩,
    (hr.hold.mono (he.trans he')).declare _⟩
  obtain ⟨id, hid⟩ := hr.fits.head?
  have hlt := Nat.lt_of_lt_of_le (hfits.head_made hs₂ hid) he'.size
  obtain ⟨made, s₄, hdone, hget, hsuper⟩ := declareClass_done
    (s := { s₂ with
      frames := s₂.frames.push (Bindings.empty.set Keyword.super.word (.ofClass k)) })
    hid hlt (s₂.frames.size :: chain) name (some k) fs
  refine ⟨k, made, ?_, ?_⟩
  · rw [show Place.linked ⟨around, scopes, .stmt (.classDecl name (some r) methods)⟩ = _ from
      congrArg Node.stmt hlinked]
    exact Founds.of_declareClass hv hdefine hdone hget hsuper _ _
  · show Frames.read _ s.frames.size _ = _
    rw [← defineIn_size hdefine]
    exact read_push_single _ _ _

theorem keeps_class {name : Name} {superclass : Option (Reference Unit)}
    {methods : List (Function Unit)}
    (hr : Running V ⟨around, scopes, .stmt (.classDecl name superclass methods)⟩ levels (fuel + 1)
      depth chain s) :
    Meets V s (execute h (fuel + 1) depth chain
      (linkStmt around scopes (.classDecl name superclass methods)).tree s)
      fun c s' => c = .carryOn ∧ Fits s' (scopes.add name.text) chain := by
  have hn : Plain name.text := by
    cases hr.proper with
    | classDecl hn _ _ => exact hn
  cases superclass with
  | none =>
    have hlinked : (linkStmt around scopes (.classDecl name none methods)).tree =
        .classDecl name none (methods.map fun f =>
          (linkFunction { methodSurroundings around false with function := methodKind f }
            (.single Keyword.this.word :: scopes.add name.text) f).tree) := by
      simp only [linkStmt, linkSuperclass, Scopes.introduce_fst, List.map_map]
      rfl
    have hlevels : chain = Level.chain (Level.declare levels [name.text]) := by
      rw [Level.chain_declare, hr.levels_eq]
    have hclass : ∀ made, Level.OfClass (Level.declare levels [name.text]) made := by
      refine fun made => Level.OfClass.declare (fun l hl above made' hf => ?_) _
      exact absurd hf (hr.account.not_founds (fun f hf => absurd hf (by simp)) l hl above made')
    rw [hlinked, execute]
    refine Meets.bind (P := fun above _ => above = none) (meets_pure hr.sound rfl) ?_
    rintro above s₀ _ he₀ hs₀ rfl
    refine Meets.bind (defineIn_meets (hr.fits.mono he₀) hs₀ hn fun _ _ _ => trivial)
      fun _ s₁ _ he₁ hs₁ hfits₁ => ?_
    refine Meets.bind (P := fun inner _ => inner = chain) (meets_pure hs₁ rfl) ?_
    rintro inner s₂ _ he₂ hs₂ rfl
    exact declareClass_meets hr.methods_account hlevels (hfits₁.mono he₂)
      ((hr.hold.mono (he₀.trans (he₁.trans he₂))).declare _) (hfits₁.mono he₂) hs₂ hn
      (fun k hk => absurd hk (by simp)) fun made _ _ _ _ => hclass made
  | some r =>
    have hlinked : (linkStmt around scopes (.classDecl name (some r) methods)).tree =
        .classDecl name (some (linkVar (scopes.add name.text) r).tree) (methods.map fun f =>
          (linkFunction { methodSurroundings around true with function := methodKind f }
            (.single Keyword.this.word :: .single Keyword.super.word :: scopes.add name.text)
            f).tree) := by
      simp only [linkStmt, linkSuperclass, Scopes.introduce_fst, List.map_map]
      rfl
    rw [hlinked, execute]
    refine Meets.bind (superclass_meets hr) fun v s₀ hv he₀ hs₀ hsound => ?_
    obtain rfl := (follow_done hv).symm
    cases v with
    | ofClass k =>
      refine Meets.bind (P := fun above _ => above = some k) (meets_pure hs₀ rfl) ?_
      rintro above s₁ habove he₁ hs₁ rfl
      cases habove
      refine Meets.bind (defineIn_meets hr.fits hs₁ hn fun _ _ _ => trivial)
        fun _ s₂ hdefine he₂ hs₂ hfits₂ => ?_
      have hsize₂ := defineIn_size hdefine
      have hk₂ : ClassSound V s₂ k := ClassSound.mono he₂ hsound
      have hlevels : s₂.frames.size :: chain = Level.chain
          (⟨[Keyword.super.word], .run
            (Place.linked ⟨around, scopes, .stmt (.classDecl name (some r) methods)⟩) (fuel + 1)
            depth chain s⟩ :: Level.declare levels [name.text]) := by
        rw [Level.chain_cons, Level.chain_declare, ← hr.levels_eq, hsize₂]
        rfl
      have hinside := hfits₂.enter_single (w := Keyword.super.word) hs₂
        (fun heq => absurd heq (by decide)) fun _ => ⟨k, rfl⟩
      have hs₃ := hs₂.push_single (w := Keyword.super.word) (v := .ofClass k) hk₂
      have he₃ := Extends.push s₂ (Bindings.empty.set Keyword.super.word (.ofClass k))
      have hhold := hr.inherited_hold hlinked hv hdefine he₂ hfits₂ hs₂
      refine (declareClass_meets hr.inherited_account hlevels hinside hhold (hfits₂.mono he₃) hs₃ hn
        (fun k' hk' => by cases hk'; exact ClassSound.mono he₃ hk₂)
        fun made s₄ hdone hget hsuper => ?_).after he₃
      rintro l ⟨⟩ above made' hf
      rw [show Place.linked ⟨around, scopes, .stmt (.classDecl name (some r) methods)⟩ = _ from
        congrArg Node.stmt hlinked] at hf
      exact (hf.unique (.of_declareClass hv hdefine hdone hget hsuper _ _)).2
    | nil | bool | number | string | closure | native | object =>
      exact Meets.bind (P := fun _ _ => False) (meets_fail hs₀ _ _ _)
        fun _ _ _ _ _ hfalse => hfalse.elim

theorem keeps_stmt (hV : ∀ {m m'}, V m → Calls h m m' → V m') (hk : Keeps h V fuel) {st : Stmt Unit}
    (hr : Running V ⟨around, scopes, .stmt st⟩ levels (fuel + 1) depth chain s) :
    Meets V s (execute h (fuel + 1) depth chain (linkStmt around scopes st).tree s)
      fun c s' => Gives V ⟨around, scopes, .stmt st⟩ chain (.completion c) s' := by
  have hproper : st.Proper := hr.proper
  have hclean := hr.account.regular.clean
  have hdeclares : ∀ {s' : Store}, Fits s' (st.declares.foldl Scopes.add scopes) chain →
      Gives V ⟨around, scopes, .stmt st⟩ chain (.completion .carryOn) s' := by
    intro s' hfits
    show Fits s' (linkStmt around scopes st).scopes chain
    rwa [scopes_linkStmt around hproper]
  cases st with
  | classDecl name superclass methods =>
    refine (keeps_class hr).mono fun c s' _ _ _ hc => ?_
    obtain ⟨rfl, hfits⟩ := hc
    exact hdeclares hfits
  | expression e =>
    have hp : Place.part ⟨around, scopes, .stmt (.expression e)⟩ 0 =
        some ⟨around, scopes, .expr e⟩ := rfl
    simp only [linkStmt, execute]
    exact hr.bind_part hV hk (fun _ _ _ hn => absurd hn (by simp)) .first hp rfl
      fun v s₁ _ _ he hs _ => carryOn_meets hproper rfl hs (hr.fits.mono he)
  | print e =>
    have hp : Place.part ⟨around, scopes, .stmt (.print e)⟩ 0 = some ⟨around, scopes, .expr e⟩ := rfl
    simp only [linkStmt, execute]
    refine hr.bind_part hV hk (fun _ _ _ hn => absurd hn (by simp)) .first hp rfl
      fun v s₁ _ _ he hs _ => ?_
    have he₁ : Extends s₁ { s₁ with output := s₁.output ++ v.text ++ "\n" } := .of_frames rfl
    have hs₁ : StoreSound V { s₁ with output := s₁.output ++ v.text ++ "\n" } := hs.congr rfl rfl
    exact (carryOn_meets hproper rfl hs₁ (hr.fits.mono (he.trans he₁))).after he₁
  | var name initializer =>
    have hn : Plain name.text := by
      cases hproper with
      | var hn _ => exact hn
    cases initializer with
    | none =>
      simp only [linkStmt, linkExpr?, execute]
      exact Meets.bind (defineIn_meets hr.fits hr.sound hn fun _ _ _ => trivial)
        fun _ s₁ _ _ hs hfits => meets_pure hs (hdeclares hfits)
    | some e =>
      have hp : Place.part ⟨around, scopes, .stmt (.var name (some e))⟩ 0 =
          some ⟨around, (scopes.declare name).1, .expr e⟩ := rfl
      simp only [linkStmt, linkExpr?, Linked.map_tree, execute]
      refine hr.bind_part hV hk (fun _ _ _ hn => absurd hn (by simp)) .first hp rfl
        fun v s₁ _ _ he hs hv => ?_
      exact Meets.bind (defineIn_meets (hr.fits.mono he) hs hn fun s' he' _ => ValueSound.mono he' hv)
        fun _ s₂ _ _ hs₂ hfits => meets_pure hs₂ (hdeclares hfits)
  | block body =>
    obtain ⟨inner, hinner⟩ := hr.block hV
    simp only [linkStmt, execute]
    refine ((meets_map.mp (hk.run hinner)).mono fun c s' _ he _ hc => ?_).after (.push s .empty)
    cases c with
    | carryOn => exact hdeclares (hr.fits.mono ((Extends.push s .empty).trans he))
    | returned v => exact hc
  | ifThen condition thenPart =>
    have hp : ∀ i, Place.part ⟨around, scopes, .stmt (.ifThen condition thenPart)⟩ i =
        (Node.part (.stmt (.ifThen condition thenPart)) i).map fun n => ⟨around, scopes, n⟩ :=
      fun _ => rfl
    have hclass : ∀ name superclass methods, Node.stmt (.ifThen condition thenPart) ≠
        .stmt (.classDecl name superclass methods) := fun _ _ _ hn => absurd hn (by simp)
    simp only [linkStmt, execute]
    refine hr.bind_part hV hk hclass .first (hp 0) rfl fun v s₁ _ hnext he hs _ => ?_
    refine meets_ite (fun hv => ?_) fun _ => carryOn_meets hproper rfl hs (hr.fits.mono he)
    have hst := hnext 1 (by simp only [Place.linked, linkStmt, Node.next?, hv, if_true])
    refine (meets_map.mp (hr.meets hV hk hclass hst (hp 1))).mono fun c s' _ _ _ hc => ?_
    cases c with
    | returned w => exact hc
    | carryOn =>
      cases hproper with
      | ifThen _ ht hd =>
        have hafter : Fits s' (linkStmt around scopes thenPart).scopes chain := hc
        rw [scopes_linkStmt_guarded ht hd] at hafter
        exact hdeclares hafter
  | ifElse condition thenPart elsePart =>
    have hp : ∀ i, Place.part ⟨around, scopes, .stmt (.ifElse condition thenPart elsePart)⟩ i =
        (Node.part (.stmt (.ifElse condition thenPart elsePart)) i).map
          fun n => ⟨around, scopes, n⟩ := fun _ => rfl
    have hclass : ∀ name superclass methods, Node.stmt (.ifElse condition thenPart elsePart) ≠
        .stmt (.classDecl name superclass methods) := fun _ _ _ hn => absurd hn (by simp)
    cases hproper with
    | ifElse _ ht hd he hd' =>
      have hscopes : (linkStmt around scopes thenPart).scopes = scopes :=
        scopes_linkStmt_guarded ht hd scopes
      have hbranch : ∀ {part : Stmt Unit}, part.Proper → part.declares = [] → ∀ {o : Outcome Completion}
          {s₁ : Store}, Meets V s₁ (o.map .completion) (Gives V ⟨around, scopes, .stmt part⟩ chain) →
          Meets V s₁ o fun c s' => Gives V
            ⟨around, scopes, .stmt (.ifElse condition thenPart elsePart)⟩ chain (.completion c) s' := by
        intro part hpart hnone o s₁ ho
        refine (meets_map.mp ho).mono fun c s' _ _ _ hc => ?_
        cases c with
        | returned w => exact hc
        | carryOn =>
          have hafter : Fits s' (linkStmt around scopes part).scopes chain := hc
          rw [scopes_linkStmt_guarded hpart hnone] at hafter
          exact hdeclares hafter
      have hlinked : (linkStmt around scopes (.ifElse condition thenPart elsePart)).tree = .ifElse
          (linkExpr around scopes condition).tree (linkStmt around scopes thenPart).tree
          (linkStmt around scopes elsePart).tree := by
        simp only [linkStmt, hscopes]
      rw [hlinked, execute]
      refine hr.bind_part hV hk hclass .first (hp 0) rfl fun v s₁ _ hnext _ _ _ => ?_
      refine meets_ite (fun hv => ?_) fun hv => ?_
      · have hst := hnext 1 (by simp only [Place.linked, hlinked, Node.next?, hv, if_true])
        exact hbranch ht hd (hr.meets hV hk hclass hst (hp 1))
      · have hst := hnext 2 (by simp only [Place.linked, hlinked, Node.next?, if_neg hv])
        exact hbranch he hd' (hr.meets hV hk hclass hst (hp 2))
  | whileDo condition body =>
    have hp : Place.part ⟨around, scopes, .stmt (.whileDo condition body)⟩ 0 =
        some ⟨around, scopes, .loop condition body⟩ := rfl
    simp only [linkStmt, execute]
    refine (meets_map.mp (hr.meets hV hk (fun _ _ _ hn => absurd hn (by simp)) .first hp)).mono
      fun c s' _ _ _ hc => ?_
    cases c with
    | returned w => exact hc
    | carryOn => exact hdeclares hc
  | function f =>
    have hvisited := hr.visited
    rw [hr.levels_eq] at hvisited
    have hlevels : chain = Level.chain (Level.declare levels [f.name.text]) := by
      rw [Level.chain_declare, hr.levels_eq]
    have hf : f.Proper := by
      cases hproper with
      | function hf => exact hf
    have he : Extends s { s with fresh := s.fresh + 1 } := .of_frames rfl
    have hlinked : (linkStmt around scopes (.function f)).tree = .function
        (linkFunction { around with function := .function } (scopes.add f.name.text) f).tree := by
      simp only [linkStmt, Scopes.introduce_fst]
    have hname : (linkFunction { around with function := .function } (scopes.add f.name.text)
        f).tree.name = f.name := by
      obtain ⟨name, params, body⟩ := f
      rw [linkFunction]
      rfl
    rw [hlinked, execute, hname]
    refine Meets.after ?_ he
    refine Meets.bind (defineIn_meets (hr.fits.mono he) (hr.sound.congr rfl rfl) hf.plain_name
      fun s' he' hfits => ?_) fun _ s₁ _ _ hs hfits => meets_pure hs (hdeclares hfits)
    exact ClosureSound.mk (.function hr.account rfl hvisited) rfl hlevels hfits
      (fun hinit => absurd hinit (by simp)) ((hr.hold.mono (he.trans he')).declare _)
  | giveBack keyword value =>
    have hfunction : around.function ≠ .none := by
      intro hnone
      simp only [Place.issues, linkStmt, returnIssues, hnone] at hclean
      exact absurd hclean (by simp)
    cases value with
    | none =>
      simp only [linkStmt, linkExpr?, execute]
      exact ⟨.refl s, hr.sound, trivial, hfunction⟩
    | some e =>
      have hp : Place.part ⟨around, scopes, .stmt (.giveBack keyword (some e))⟩ 0 =
          some ⟨around, scopes, .expr e⟩ := rfl
      simp only [linkStmt, linkExpr?, Linked.map_tree, execute]
      exact hr.bind_part hV hk (fun _ _ _ hn => absurd hn (by simp)) .first hp rfl
        fun v s₁ _ _ _ hs hv => meets_pure hs ⟨hv, hfunction⟩

end Steps

/-! ## Calls -/

section Calls

variable {fuel depth : Nat} {s : Store} {args : List Value}

/-- The body of a function, behind the entry of a call. -/
theorem Running.body (hV : ∀ {m m'}, V m → Calls h m m' → V m') {c : Closure}
    (hv : V (.invoke c args (fuel + 1) depth s)) (hlen : c.function.params.length = args.length)
    (hs : StoreSound V s) (hc : ClosureSound V s c) (hargs : ∀ v ∈ args, ValueSound V s v) :
    ∃ p levels, p.linked = .stmts c.function.body ∧
      Running V p levels fuel depth (s.frames.size :: c.captured)
        { s with frames := s.frames.push (parameterFrame c.function.params args) } := by
  obtain @⟨around, scopes, f, levels, hacc, hfun, hcap, hfits, -, hhold⟩ := hc
  have hf : f.Proper := hacc.regular.proper
  have hfunction : c.function = (linkFunction around scopes f).tree := by
    injection hfun
  have hparams : c.function.params = f.params := by
    rw [hfunction]
    obtain ⟨name, params, body⟩ := f
    simp only [linkFunction, Function.params]
  have hbody : Place.linked ⟨around, (Scopes.introduceAll (.empty :: scopes) f.params).1,
      .stmts f.body⟩ = .stmts c.function.body := by
    rw [hfunction]
    obtain ⟨name, params, body⟩ := f
    simp only [Place.linked, linkFunction, Function.params, Function.body]
  rw [hparams] at hlen
  refine ⟨_, _, hbody, .call hacc hfun hcap hv, ?_, ?_, ?_, ?_, .of_call rfl,
    hhold.mono (.push s _)⟩
  · rw [Level.chain_cons, ← hcap]
    rfl
  · rw [hbody]
    exact hV hv .body
  · rw [hparams]
    exact hfits.enter_call hs hf.plain_params hlen
  · exact hs.push fun name v hname => hargs v (get?_parameterFrame.1 v hname)

theorem keeps_invoke (hV : ∀ {m m'}, V m → Calls h m m' → V m') (hk : Keeps h V fuel) {c : Closure}
    (hv : V (.invoke c args (fuel + 1) depth s))
    (hlen : c.function.params.length = args.length) (hs : StoreSound V s) (hc : ClosureSound V s c)
    (hargs : ∀ v ∈ args, ValueSound V s v) :
    Meets V s (invoke h (fuel + 1) depth c args s) fun v s' => ValueSound V s' v := by
  obtain ⟨p, levels, hbody, hinner⟩ := Running.body hV hv hlen hs hc hargs
  have hrun := hk.run hinner
  rw [hbody] at hrun
  have he := Extends.push s (parameterFrame c.function.params args)
  rw [invoke]
  refine Meets.after ?_ he
  refine Meets.bind (meets_map.mp hrun) fun completion s₂ _ he₂ hs₂ hcompletion => ?_
  refine meets_ite (fun hi => ?_) fun _ => ?_
  · obtain ⟨-, -, -, hfits, hinit, -⟩ := hc
    have hhead := hinit hi
    obtain ⟨id, hid, hframe⟩ := hfits.getElem? (d := 0) (by rw [← List.head?_eq_getElem?]; exact hhead)
    obtain ⟨o, ho⟩ := hframe.receiver (Bindings.get?_set_self _ _ _)
    have hread := (he.trans he₂).kept id .this _ ho
    have hget := getAt_eq_ok (d := 0) hid hread
    show Meets V s₂ (ofAccess (s₂.frames.getAt c.captured 0 Keyword.this.word) s₂) _
    rw [hget]
    exact meets_pure hs₂ (sound_of_getAt hs₂ hget)
  · refine meets_pure hs₂ ?_
    cases completion with
    | carryOn => trivial
    | returned v => exact hcompletion.1

theorem keeps_apply (hV : ∀ {m m'}, V m → Calls h m m' → V m') (hk : Keeps h V fuel) {f : Value}
    (hv : V (.apply f args (fuel + 1) depth s)) (harity : f.arity? = some args.length)
    (hs : StoreSound V s) (hf : ValueSound V s f) (hargs : ∀ v ∈ args, ValueSound V s v) :
    Meets V s (apply h (fuel + 1) depth f args s) fun v s' => ValueSound V s' v := by
  cases f with
  | closure c =>
    rw [apply]
    exact hk.invoke (hV hv .closure) (Option.some.inj harity) hs hf hargs
  | native n =>
    cases n with
    | clock =>
      rw [apply]
      exact ⟨.of_frames rfl, hs.congr rfl rfl, trivial⟩
  | ofClass k =>
    rw [apply]
    refine Meets.bind (newObject_meets hs hf) fun o s₁ ho he hs₁ hk₁ => ?_
    cases ho
    cases hc : k.findMethod? initName with
    | none =>
      exact meets_pure hs₁ hk₁
    | some c =>
      refine Meets.bind (bindMethod_meets (hV hv (.construct hc)) (ClassSound.findMethod? hk₁ hc) hk₁ hs₁)
        fun c' s₂ hb he₂ hs₂ hc' => ?_
      have hlen : c'.function.params.length = args.length := by
        rw [Value.arity?, hc] at harity
        rw [hc'.2]
        exact Option.some.inj harity
      have hargs₂ : ∀ v ∈ args, ValueSound V s₂ v :=
        fun v hv => ValueSound.mono (he.trans he₂) (hargs v hv)
      refine Meets.bind (hk.invoke (hV hv (.initializer hc hb)) hlen hs₂ hc'.1 hargs₂)
        fun _ s₃ _ he₃ hs₃ _ => meets_pure hs₃ ?_
      exact ClassSound.mono (he₂.trans he₃) hk₁
  | nil | bool | number | string | object => exact absurd harity (by simp [Value.arity?])

end Calls

theorem keeps_succ (hV : ∀ {m m'}, V m → Calls h m m' → V m') {fuel : Nat} (hk : Keeps h V fuel) :
    Keeps h V (fuel + 1) where
  run {p levels depth chain s} hr := by
    obtain ⟨around, scopes, n⟩ := p
    cases n with
    | expr e => exact meets_map.mpr (keeps_expr hV hk hr)
    | exprs es => exact meets_map.mpr (keeps_exprs hV hk hr)
    | stmt st => exact meets_map.mpr (keeps_stmt hV hk hr)
    | stmts sts => exact meets_map.mpr (keeps_stmts hV hk hr)
    | loop condition body => exact meets_map.mpr (keeps_loop hV hk hr)
    | function f => trivial
    | method f => trivial
  apply hv harity hs hf hargs := keeps_apply hV hk hv harity hs hf hargs
  invoke hv hlen hs hc hargs := keeps_invoke hV hk hv hlen hs hc hargs

/-- **Every number of steps keeps a sound store sound.** -/
theorem keeps (hV : ∀ {m m'}, V m → Calls h m m' → V m') (fuel : Nat) : Keeps h V fuel := by
  induction fuel with
  | zero => exact keeps_zero
  | succ fuel ih => exact keeps_succ hV ih

end LoxKit
