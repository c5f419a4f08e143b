import LoxKit.Proofs.Machine.Order

/-!
# Where classes come from

Every class in a state was made by a declaration that ran before: no other action makes one, and
none changes one. The identity of a class is less than the next one to be given out. So a superclass
always has a lesser identity than the classes that are made from it, and a lineage comes to an end.

Headlines:
* `Value.Mentions`, `Store.Mentions`: the classes in a value and in a store.
* `ClassValue.Registered`: a class was made by a declaration that counts.
* `Upholds.bind`: an action behind another.
* **`Moment.upholds`**: what begins among registered classes ends among registered classes.
* `Calls.registered`: and so do the moments that it leads to.
-/

namespace LoxKit

open LoxKit.Action

/-! ## Values in a store -/

/-- A value occurs in a store: a frame or an object has it under a name. -/
inductive Store.Occurs (s : Store) (v : Value) : Prop
  | frame {id : FrameId} {name : String} (hr : s.frames.read id name = some v) : Occurs s v
  | field {id : Nat} {name : String} (hr : (s.objects.getD id .empty).get? name = some v) :
      Occurs s v

namespace Store

variable {s s' : Store} {v w : Value}

theorem Occurs.congr (h : s'.Occurs w) (hf : s'.frames = s.frames) (ho : s'.objects = s.objects) :
    s.Occurs w := by
  cases h with
  | frame hr => exact .frame (hf ▸ hr)
  | field hr => exact .field (ho ▸ hr)

/-- Where no frame was made, nothing is defined. -/
theorem Occurs.of_define {id : FrameId} {name : String}
    (h : Occurs { s with frames := s.frames.define id name v } w) :
    (w = v ∧ id < s.frames.size) ∨ s.Occurs w := by
  cases h with
  | @frame other key hr =>
    by_cases hlt : id < s.frames.size
    · rw [Frames.read_define _ hlt] at hr
      split at hr
      · exact Or.inl ⟨(Option.some.inj hr).symm, hlt⟩
      · exact Or.inr (.frame hr)
    · rw [Frames.define_of_le _ (Nat.not_lt.mp hlt)] at hr
      exact Or.inr (.frame hr)
  | field hr => exact Or.inr (.field hr)

theorem Occurs.of_push {b : Bindings Value}
    (h : Occurs { s with frames := s.frames.push b } w) :
    (∃ name, b.get? name = some w) ∨ s.Occurs w := by
  cases h with
  | frame hr =>
    rw [Frames.read_push] at hr
    split at hr
    · exact Or.inl ⟨_, hr⟩
    · exact Or.inr (.frame hr)
  | field hr => exact Or.inr (.field hr)

/-- An object that is made has no fields. -/
theorem Occurs.of_newObject (h : Occurs { s with objects := s.objects.push .empty } w) :
    s.Occurs w := by
  cases h with
  | frame hr => exact .frame hr
  | field hr =>
    simp only [Array.getD_eq_getD_getElem?, Array.getElem?_push] at hr
    split at hr
    · cases hr
    · exact .field (by rwa [Array.getD_eq_getD_getElem?])

theorem Occurs.of_setField {id : Nat} {name : String}
    (h : Occurs { s with objects := s.objects.modify id fun b => b.set name v } w) :
    w = v ∨ s.Occurs w := by
  cases h with
  | frame hr => exact Or.inr (.frame hr)
  | @field other key hr =>
    simp only [Array.getD_eq_getD_getElem?, Array.getElem?_modify] at hr
    split at hr
    · cases hb : s.objects[other]? with
      | none =>
        rw [hb] at hr
        cases hr
      | some b =>
        rw [hb, Option.map_some, Option.getD_some, Bindings.get?_set] at hr
        split at hr
        · exact Or.inl (Option.some.inj hr).symm
        · exact Or.inr (.field (by rwa [Array.getD_eq_getD_getElem?, hb]))
    · exact Or.inr (.field (by rwa [Array.getD_eq_getD_getElem?]))

theorem Occurs.of_getAt {chain : Chain} {d : Nat} {name : String}
    (h : s.frames.getAt chain d name = .ok v) : s.Occurs v := by
  unfold Frames.getAt at h
  split at h
  · cases h
  · split at h
    · cases h
    · rename_i hr
      cases h
      exact .frame hr

/-- What a reference leads to is in the store. -/
theorem Occurs.of_follow {chain : Chain} {r : Reference Link}
    (h : follow chain r s = .done v s') : s.Occurs v := by
  unfold follow at h
  split at h
  · exact .of_getAt (ofAccess_eq_done h).1
  · split at h
    · rename_i hr
      cases h
      exact .frame (by rwa [get?_globals] at hr)
    · cases h

end Store

/-- A class is part of a value: the class itself or one of its superclasses. -/
def Value.Mentions : Value → ClassValue → Prop
  | .ofClass k', k => k ∈ k'.lineage
  | .object o, k => k ∈ o.ofClass.lineage
  | _, _ => False

/-- A class is part of a value in a store. -/
def Store.Mentions (s : Store) (k : ClassValue) : Prop :=
  ∃ v, s.Occurs v ∧ v.Mentions k

/-! ## Registered classes -/

/-- A class was made by a moment that counts, with an identity less than `n` and greater than that
of its superclass. -/
structure ClassValue.Registered (h : Host) (V : Moment → Prop) (n : Nat) (k : ClassValue) :
    Prop where
  earlier : k.id < n
  made : ∃ m body, V m ∧ Makes h m body k
  older : ∀ above, k.superclass? = some above → above.id < k.id

/-- Every class in a value is registered. -/
def Value.Registered (h : Host) (V : Moment → Prop) (n : Nat) (v : Value) : Prop :=
  ∀ k, v.Mentions k → k.Registered h V n

/-- Every class in a store is registered. -/
def Store.Registered (h : Host) (V : Moment → Prop) (s : Store) : Prop :=
  ∀ v, s.Occurs v → v.Registered h V s.fresh

section Registers

variable {h : Host} {V : Moment → Prop} {n n' : Nat} {s s' : Store} {v : Value}

theorem Value.Registered.mono (hv : v.Registered h V n) (hn : n ≤ n') : v.Registered h V n' :=
  fun k hk => ⟨Nat.lt_of_lt_of_le (hv k hk).earlier hn, (hv k hk).made, (hv k hk).older⟩

theorem ClassValue.self_mem_lineage (k : ClassValue) : k ∈ k.lineage := by
  obtain ⟨id, name, superclass, methods⟩ := k
  cases superclass <;> exact List.mem_cons_self

/-- A lineage consists of the class and the lineage of its superclass. -/
theorem ClassValue.mem_lineage {k k' : ClassValue} (hk : k' ∈ k.lineage) :
    k' = k ∨ ∃ above, k.superclass? = some above ∧ k' ∈ above.lineage := by
  obtain ⟨id, name, superclass, methods⟩ := k
  cases superclass with
  | none => exact Or.inl (List.mem_singleton.mp hk)
  | some above =>
    rcases List.mem_cons.mp hk with rfl | hk
    · exact Or.inl rfl
    · exact Or.inr ⟨above, rfl, hk⟩

/-- A superclass has a lesser identity, and so on. -/
theorem ClassValue.lineage_decreasing {k : ClassValue}
    (hk : ∀ k' ∈ k.lineage, ∀ above, k'.superclass? = some above → above.id < k'.id) :
    (k.lineage.map ClassValue.id).Pairwise (· > ·) := by
  fun_induction ClassValue.lineage k with
  | case1 => exact List.pairwise_singleton _ _
  | case2 id name above methods ih =>
    obtain ⟨hfirst, hrest⟩ := List.forall_mem_cons.mp hk
    have hlast := ih hrest
    refine List.pairwise_cons.mpr ⟨fun i hi => ?_, hlast⟩
    have habove : above.id < id := hfirst above rfl
    rcases List.mem_map.mp hi with ⟨k', hk', rfl⟩
    cases above with
    | mk id' name' above' methods' =>
      cases above' with
      | none =>
        rw [ClassValue.lineage, List.mem_singleton] at hk'
        rw [hk']
        exact habove
      | some above' =>
        rw [ClassValue.lineage, List.map_cons, List.pairwise_cons] at hlast
        rw [ClassValue.lineage, List.mem_cons] at hk'
        rcases hk' with rfl | hk'
        · exact habove
        · exact Nat.lt_trans (hlast.1 _ (List.mem_map_of_mem hk')) habove

namespace Store.Registered

theorem later (hs : s.Registered h V) (hf : s'.frames = s.frames) (ho : s'.objects = s.objects)
    (hn : s.fresh ≤ s'.fresh) : s'.Registered h V :=
  fun v hv => (hs v (hv.congr hf ho)).mono hn

theorem define (hs : s.Registered h V) (id : FrameId) (name : String)
    (hv : id < s.frames.size → v.Registered h V s.fresh) :
    Store.Registered h V { s with frames := s.frames.define id name v } := by
  intro w hw
  rcases hw.of_define with ⟨rfl, hlt⟩ | hw
  · exact hv hlt
  · exact hs w hw

theorem push (hs : s.Registered h V) {b : Bindings Value}
    (hb : ∀ name v, b.get? name = some v → v.Registered h V s.fresh) :
    Store.Registered h V { s with frames := s.frames.push b } := by
  intro w hw
  rcases hw.of_push with ⟨name, hname⟩ | hw
  · exact hb name w hname
  · exact hs w hw

theorem push_single (hs : s.Registered h V) (name : String) (hv : v.Registered h V s.fresh) :
    Store.Registered h V { s with frames := s.frames.push (Bindings.empty.set name v) } := by
  refine hs.push fun key w hw => ?_
  rw [Bindings.get?_set] at hw
  split at hw
  · cases hw
    exact hv
  · cases hw

theorem newObject (hs : s.Registered h V) :
    Store.Registered h V { s with objects := s.objects.push .empty } :=
  fun w hw => hs w hw.of_newObject

theorem setField (hs : s.Registered h V) (id : Nat) (name : String)
    (hv : v.Registered h V s.fresh) :
    Store.Registered h V { s with objects := s.objects.modify id fun b => b.set name v } := by
  intro w hw
  rcases hw.of_setField with rfl | hw
  · exact hv
  · exact hs w hw

/-- Where nothing has run there is no class. -/
theorem initial : Store.initial.Registered h V := by
  intro v hv
  cases hv with
  | frame hr =>
    unfold Store.initial at hr
    simp only [Frames.read_push] at hr
    split at hr
    · rw [Bindings.get?_set] at hr
      split at hr
      · cases hr
        exact fun _ hk => hk.elim
      · exact absurd hr (by simp)
    · rw [Frames.read_of_le _ (Nat.zero_le _)] at hr
      exact absurd hr (by simp)
  | field hr => exact absurd hr (by simp [Store.initial])

end Store.Registered

end Registers

/-! ## Outcomes -/

/-- The values of an answer. -/
def Answer.all : Answer → List Value
  | .value v => [v]
  | .values vs => vs
  | .completion .carryOn => []
  | .completion (.returned v) => [v]

/-- The values that a moment brings along besides its store. -/
def Moment.carried : Moment → List Value
  | run .. => []
  | apply f args _ _ _ => f :: args
  | invoke _ args _ _ _ => args
  | bind _ o _ => [.object o]

/-- Every class in a moment is registered. -/
structure Moment.Registered (h : Host) (V : Moment → Prop) (m : Moment) : Prop where
  store : m.store.Registered h V
  carried : ∀ v ∈ m.carried, v.Registered h V m.store.fresh

/-- An outcome leaves registered classes only, and what it gives is as `Q` says. -/
def Upholds {α : Type} (h : Host) (V : Moment → Prop) (o : Outcome α) (Q : Nat → α → Prop) :
    Prop :=
  match o with
  | .done a s' => s'.Registered h V ∧ Q s'.fresh a
  | .failed _ _ s' => s'.Registered h V
  | .broken _ | .unfinished => True

/-- What begins in a moment leaves registered classes only and gives no others. -/
def Moment.Upholds (h : Host) (V : Moment → Prop) (m : Moment) : Prop :=
  LoxKit.Upholds h V (m.ends h) fun n r => ∀ v ∈ r.all, v.Registered h V n

section Outcomes

variable {α β : Type} {h : Host} {V : Moment → Prop} {n : Nat} {s : Store} {v : Value}
  {Q : Nat → α → Prop} {P : Nat → β → Prop}

theorem Upholds.bind {a : Action α} {f : α → Action β} (ha : Upholds h V (a s) Q)
    (hf : ∀ x s₁, a s = .done x s₁ → s₁.Registered h V → Q s₁.fresh x →
      Upholds h V (f x s₁) P) : Upholds h V ((a >>= f) s) P := by
  show Upholds h V (Action.bind a f s) P
  unfold Action.bind
  cases hd : a s with
  | done x s₁ =>
    rw [hd] at ha
    exact hf x s₁ hd ha.1 ha.2
  | failed error line s₁ =>
    rw [hd] at ha
    exact ha
  | broken | unfinished => trivial

theorem Upholds.of_done {o : Outcome α} {a : α} {s' : Store} (ho : Upholds h V o Q)
    (hd : o = .done a s') : s'.Registered h V ∧ Q s'.fresh a := by
  rw [hd] at ho
  exact ho

theorem Upholds.left {o : Outcome α} {s' : Store} (ho : Upholds h V o Q)
    (hl : o.store? = some s') : s'.Registered h V := by
  cases o with
  | done a s₁ =>
    cases hl
    exact ho.1
  | failed error line s₁ =>
    cases hl
    exact ho
  | broken | unfinished => cases hl

theorem upholds_map {o : Outcome α} {f : α → β} :
    Upholds h V (o.map f) P ↔ Upholds h V o fun n a => P n (f a) := by
  cases o <;> rfl

theorem Upholds.mono {o : Outcome α} {Q' : Nat → α → Prop} (ho : Upholds h V o Q)
    (hQ : ∀ n a, Q n a → Q' n a) : Upholds h V o Q' := by
  cases o with
  | done a s' => exact ⟨ho.1, hQ _ a ho.2⟩
  | failed => exact ho
  | broken | unfinished => trivial

theorem upholds_ite {c : Prop} [Decidable c] {a b : Action α} (ha : c → Upholds h V (a s) Q)
    (hb : ¬c → Upholds h V (b s) Q) : Upholds h V ((if c then a else b) s) Q := by
  split
  · exact ha ‹_›
  · exact hb ‹_›

/-! ### Values without classes -/

theorem registered_nil : Value.nil.Registered h V n :=
  fun _ hk => hk.elim

theorem registered_closure (c : Closure) : (Value.closure c).Registered h V n :=
  fun _ hk => hk.elim

theorem registered_literal (l : Literal) : l.toValue.Registered h V n := by
  cases l <;> exact fun _ hk => hk.elim

/-- Operators give no classes and no objects. -/
theorem registered_unary {op : UnaryOp} {a : Value} (hv : applyUnary op a = .ok v) :
    v.Registered h V n := by
  unfold applyUnary at hv
  split at hv <;> cases hv <;> exact fun _ hk => hk.elim

theorem registered_binary {op : BinaryOp} {a b : Value} (hv : applyBinary op a b = .ok v) :
    v.Registered h V n := by
  have hnumeric : ∀ op x y, (numeric op x y).Registered h V n := fun op x y => by
    cases op <;> exact fun _ hk => hk.elim
  unfold applyBinary at hv
  split at hv <;> cases hv
  · exact fun _ hk => hk.elim
  · exact fun _ hk => hk.elim
  · exact hnumeric _ _ _
  · exact fun _ hk => hk.elim

/-! ### Operations -/

theorem upholds_operator (hs : s.Registered h V) (line : Nat) {r : Except RuntimeError Value}
    (hr : ∀ v, r = .ok v → v.Registered h V s.fresh) :
    Upholds h V (ofOperator line r s) fun n v => v.Registered h V n := by
  cases r with
  | ok v => exact ⟨hs, hr v rfl⟩
  | error e => exact hs

theorem upholds_access (hs : s.Registered h V) {chain : Chain} {d : Nat} {name : String} :
    Upholds h V (ofAccess (s.frames.getAt chain d name) s) fun n v => v.Registered h V n := by
  cases hget : s.frames.getAt chain d name with
  | ok v => exact ⟨hs, hs v (.of_getAt hget)⟩
  | error fault => trivial

theorem upholds_follow (hs : s.Registered h V) (chain : Chain) (r : Reference Link) :
    Upholds h V (follow chain r s) fun n v => v.Registered h V n := by
  cases hf : follow chain r s with
  | done v s' =>
    obtain rfl := follow_done hf
    exact ⟨hs, hs v (.of_follow hf)⟩
  | failed error line s' =>
    unfold follow at hf
    split at hf
    · cases hget : s.frames.getAt chain _ r.name.text <;> rw [hget] at hf <;> cases hf
    · split at hf <;> cases hf
      exact hs
  | broken | unfinished => trivial

theorem upholds_defineIn (hs : s.Registered h V) (chain : Chain) (name : String)
    (hv : v.Registered h V s.fresh) : Upholds h V (defineIn chain name v s) fun _ _ => True := by
  cases chain with
  | nil => trivial
  | cons id rest => exact ⟨hs.define id name fun _ => hv, trivial⟩

theorem upholds_store (hs : s.Registered h V) (chain : Chain) (r : Reference Link)
    (hv : v.Registered h V s.fresh) : Upholds h V (store chain r v s) fun _ _ => True := by
  unfold store
  split
  · split
    · trivial
    · exact ⟨hs.define _ _ fun _ => hv, trivial⟩
  · split
    · exact hs
    · exact ⟨hs.define _ _ fun _ => hv, trivial⟩

theorem upholds_bindMethod (hs : s.Registered h V) (c : Closure) {o : Object}
    (ho : (Value.object o).Registered h V s.fresh) :
    Upholds h V (bindMethod c o s) fun _ _ => True :=
  ⟨(hs.push_single _ ho).later rfl rfl (Nat.le_succ _), trivial⟩

theorem upholds_boundMethod (hs : s.Registered h V) (c : Closure) {o : Object}
    (ho : (Value.object o).Registered h V s.fresh) :
    Upholds h V ((Value.closure <$> bindMethod c o : Action Value) s)
      fun n v => v.Registered h V n :=
  Upholds.bind (upholds_bindMethod hs c ho) fun _ _ _ hs₁ _ => ⟨hs₁, registered_closure _⟩

/-- A field of an object, or a method of its class made for it. -/
theorem upholds_getProperty (hs : s.Registered h V) {o : Object} (name : Name)
    (ho : (Value.object o).Registered h V s.fresh) :
    Upholds h V (getProperty o name s) fun n v => v.Registered h V n := by
  unfold getProperty
  cases hf : (fields s o).get? name.text with
  | some v => exact ⟨hs, hs v (.field hf)⟩
  | none =>
    cases o.ofClass.findMethod? name.text with
    | none => exact hs
    | some c => exact upholds_boundMethod hs c ho

end Outcomes

/-! ## Nodes -/

/-- A moment is among registered classes, and whatever it leads to leaves no others if it finds no
others. -/
structure Moment.Entrusts (h : Host) (V : Moment → Prop) (m : Moment) : Prop where
  registered : m.Registered h V
  upholds : ∀ m', Calls h m m' → m'.Registered h V → m'.Upholds h V

/-- The value that a statement returns, if it returns one, is registered. -/
def Completion.Registered (h : Host) (V : Moment → Prop) (n : Nat) (c : Completion) : Prop :=
  ∀ v ∈ (Answer.completion c).all, v.Registered h V n

section Parts

variable {h : Host} {V : Moment → Prop} {m m' : Moment} {n n' : Node Link} {fuel depth i : Nat}
  {chain : Chain} {s s₁ : Store}

theorem Store.Registered.run (hs : s.Registered h V) :
    Moment.Registered h V (.run n fuel depth chain s) :=
  ⟨hs, fun _ hv => absurd hv List.not_mem_nil⟩

/-- Every part of a node begins among registered classes. -/
theorem Moment.Entrusts.stage (hm : Moment.Entrusts h V (.run n (fuel + 1) depth chain s))
    (hst : Stage h n fuel depth chain s i s₁) : s₁.Registered h V := by
  -- by induction on the parts that have run before it
  induction hst with
  | first => exact hm.registered.store
  | next hi hn hr _ ih => exact ((hm.upholds _ (.part hi hn) ih.run).of_done hr).1

theorem upholds_part (hm : Moment.Entrusts h V (.run n (fuel + 1) depth chain s))
    (hst : Stage h n fuel depth chain s i s₁) (hn : n.part i = some n') :
    Upholds h V (n'.run h fuel depth chain s₁) fun n r => ∀ v ∈ r.all, v.Registered h V n :=
  hm.upholds _ (.part hst hn) (hm.stage hst).run

theorem upholds_expr {e : Expr Link} (hm : Moment.Entrusts h V (.run n (fuel + 1) depth chain s))
    (hst : Stage h n fuel depth chain s i s₁) (hn : n.part i = some (.expr e)) :
    Upholds h V (evaluate h fuel depth chain e s₁) fun n v => v.Registered h V n :=
  (upholds_map.mp (upholds_part hm hst hn)).mono fun _ v hv => hv v (List.mem_singleton_self v)

theorem upholds_exprs {es : List (Expr Link)}
    (hm : Moment.Entrusts h V (.run n (fuel + 1) depth chain s))
    (hst : Stage h n fuel depth chain s i s₁) (hn : n.part i = some (.exprs es)) :
    Upholds h V (evaluateAll h fuel depth chain es s₁) fun n vs => ∀ v ∈ vs, v.Registered h V n :=
  upholds_map.mp (upholds_part hm hst hn)

theorem upholds_stmt {st : Stmt Link} (hm : Moment.Entrusts h V (.run n (fuel + 1) depth chain s))
    (hst : Stage h n fuel depth chain s i s₁) (hn : n.part i = some (.stmt st)) :
    Upholds h V (execute h fuel depth chain st s₁) (Completion.Registered h V) :=
  (upholds_map (f := Answer.completion)).mp (upholds_part hm hst hn)

theorem upholds_stmts {sts : List (Stmt Link)}
    (hm : Moment.Entrusts h V (.run n (fuel + 1) depth chain s))
    (hst : Stage h n fuel depth chain s i s₁) (hn : n.part i = some (.stmts sts)) :
    Upholds h V (executeAll h fuel depth chain sts s₁) (Completion.Registered h V) :=
  (upholds_map (f := Answer.completion)).mp (upholds_part hm hst hn)

theorem upholds_loop {condition : Expr Link} {body : Stmt Link}
    (hm : Moment.Entrusts h V (.run n (fuel + 1) depth chain s))
    (hst : Stage h n fuel depth chain s i s₁) (hn : n.part i = some (.loop condition body)) :
    Upholds h V (repeatWhile h fuel depth chain condition body s₁) (Completion.Registered h V) :=
  (upholds_map (f := Answer.completion)).mp (upholds_part hm hst hn)

/-- Whatever a moment leads to begins among registered classes, -/
theorem Moment.Entrusts.calls (hm : m.Entrusts h V) (hc : Calls h m m') : m'.Registered h V := by
  have hs := hm.registered.store
  have hcarried := hm.registered.carried
  cases hc with
  | part hst hn => exact (hm.stage hst).run
  | block => exact (hs.push fun _ _ hget => by cases hget).run
  | get ho hf hc =>
    have hobject := (upholds_expr hm .first rfl).of_done ho
    exact ⟨hobject.1, List.forall_mem_singleton.mpr hobject.2⟩
  | super ht hk ho hc => exact ⟨hs, List.forall_mem_singleton.mpr (hs _ (.of_getAt ho))⟩
  | @call callee args paren fuel depth chain s s₁ s₂ f vs hf ha hv hd =>
    have hcallee := (upholds_expr hm .first rfl).of_done hf
    have hargs := (upholds_exprs hm (.expr .first rfl hf rfl) rfl).of_done ha
    have hle : s₁.fresh ≤ s₂.fresh := grows_evaluateAll args s₁ s₂ (by rw [ha]; rfl)
    exact ⟨hargs.1, List.forall_mem_cons.mpr ⟨hcallee.2.mono hle, hargs.2⟩⟩
  | closure => exact ⟨hs, (List.forall_mem_cons.mp hcarried).2⟩
  | construct hc =>
    exact ⟨hs.newObject, List.forall_mem_singleton.mpr (List.forall_mem_cons.mp hcarried).1⟩
  | @initializer k args fuel depth s s₁ c c' hc hb =>
    obtain ⟨hk, hargs⟩ := List.forall_mem_cons.mp hcarried
    have hbound := (upholds_bindMethod (o := ⟨s.objects.size, k⟩) hs.newObject c hk).of_done hb
    have hle := grows_bindMethod _ _ _ s₁ (by rw [hb]; rfl)
    exact ⟨hbound.1, fun v hv => (hargs v hv).mono hle⟩
  | body => exact (hs.push fun _ v hv => hcarried v (get?_parameterFrame.1 v hv)).run

/-- and leaves no others. -/
theorem Moment.Entrusts.called (hm : m.Entrusts h V) (hc : Calls h m m') : m'.Upholds h V :=
  hm.upholds m' hc (hm.calls hc)

end Parts

/-! ### Expressions -/

section Expressions

variable {h : Host} {V : Moment → Prop} {fuel depth : Nat} {chain : Chain} {s : Store}

theorem upholds_super {target : Reference Link} {method : Name} (hs : s.Registered h V) :
    Upholds h V (evaluate h (fuel + 1) depth chain (.super target method) s)
      fun n v => v.Registered h V n := by
  rw [evaluate]
  cases target.link with
  | none => trivial
  | some hops =>
    refine .bind (upholds_access hs) fun above s₁ habove _ _ => ?_
    obtain ⟨-, rfl⟩ := ofAccess_eq_done habove
    refine .bind (upholds_access hs) fun receiver s₂ hreceiver _ hv => ?_
    obtain ⟨-, rfl⟩ := ofAccess_eq_done hreceiver
    cases above with
    | ofClass k =>
      dsimp only
      cases k.findMethod? method.text with
      | none => exact hs
      | some c =>
        cases receiver with
        | object o => exact upholds_boundMethod hs c hv
        | _ => trivial
    | _ => trivial

theorem upholds_evaluate {e : Expr Link}
    (hm : Moment.Entrusts h V (.run (.expr e) (fuel + 1) depth chain s)) :
    Upholds h V (evaluate h (fuel + 1) depth chain e s) fun n v => v.Registered h V n := by
  have hs : s.Registered h V := hm.registered.store
  cases e with
  | literal value token =>
    rw [evaluate]
    exact ⟨hs, registered_literal value⟩
  | grouping inner =>
    rw [evaluate]
    exact upholds_expr hm .first rfl
  | unary op pos arg =>
    rw [evaluate]
    exact .bind (upholds_expr hm .first rfl) fun a s₁ _ hs₁ _ =>
      upholds_operator hs₁ _ fun _ => registered_unary
  | binary op pos lhs rhs =>
    rw [evaluate]
    refine .bind (upholds_expr hm .first rfl) fun a s₁ ha hs₁ _ => ?_
    exact .bind (upholds_expr hm (.expr .first rfl ha rfl) rfl) fun b s₂ _ hs₂ _ =>
      upholds_operator hs₂ _ fun _ => registered_binary
  | logical op pos lhs rhs =>
    rw [evaluate]
    refine .bind (upholds_expr hm .first rfl) fun a s₁ ha hs₁ hv =>
      upholds_ite (fun _ => ⟨hs₁, hv⟩) fun hop => ?_
    have hj : Node.next? (.expr (.logical op pos lhs rhs)) 0 (.value a) = some 1 := by
      simp [Node.next?, hop]
    exact upholds_expr hm (.expr .first rfl ha hj) rfl
  | var target =>
    rw [evaluate]
    exact upholds_follow hs chain target
  | assign target value =>
    rw [evaluate]
    refine .bind (upholds_expr hm .first rfl) fun v s₁ _ hs₁ hv => ?_
    refine .bind (upholds_store hs₁ chain target hv) fun _ s₂ hd hs₂ _ => ⟨hs₂, hv.mono ?_⟩
    exact grows_store chain target v s₁ s₂ (by rw [hd]; rfl)
  | call callee args paren =>
    rw [evaluate]
    refine .bind (upholds_expr hm .first rfl) fun f s₁ hf _ _ => ?_
    refine .bind (upholds_exprs hm (.expr .first rfl hf rfl) rfl) fun vs s₂ ha hs₂ _ => ?_
    cases hv : f.arity? with
    | none => exact hs₂
    | some arity =>
      refine upholds_ite (fun _ => hs₂) fun hlen => upholds_ite (fun _ => hs₂) fun hd => ?_
      have harity : f.arity? = some vs.length := by rw [hv, not_not.mp hlen]
      have hcall := hm.called (.call hf ha harity (Nat.not_le.mp hd))
      exact (upholds_map.mp hcall).mono fun _ v hv => hv v (List.mem_singleton_self v)
  | get object field =>
    rw [evaluate]
    refine .bind (upholds_expr hm .first rfl) fun v s₁ _ hs₁ hv => ?_
    cases v with
    | object o => exact upholds_getProperty hs₁ field hv
    | _ => exact hs₁
  | set object field value =>
    rw [evaluate]
    refine .bind (upholds_expr hm .first rfl) fun v s₁ hv hs₁ _ => ?_
    cases v with
    | object o =>
      refine .bind (upholds_expr hm (.expr .first rfl hv rfl) rfl) fun w s₂ _ hs₂ hw => ?_
      exact ⟨hs₂.setField o.id field.text hw, hw⟩
    | _ => exact hs₁
  | this target =>
    rw [evaluate]
    exact upholds_follow hs chain target
  | super target method => exact upholds_super hs

theorem upholds_evaluateAll {es : List (Expr Link)}
    (hm : Moment.Entrusts h V (.run (.exprs es) (fuel + 1) depth chain s)) :
    Upholds h V (evaluateAll h (fuel + 1) depth chain es s)
      fun n vs => ∀ v ∈ vs, v.Registered h V n := by
  cases es with
  | nil =>
    rw [evaluateAll]
    exact ⟨hm.registered.store, fun _ hv => absurd hv List.not_mem_nil⟩
  | cons e es =>
    rw [evaluateAll]
    refine .bind (upholds_expr hm .first rfl) fun v s₁ hd hs₁ hv => ?_
    refine .bind (upholds_exprs hm (.expr .first rfl hd rfl) rfl) fun vs s₂ hd' hs₂ hvs => ?_
    have hv₂ := hv.mono (grows_evaluateAll es s₁ s₂ (by rw [hd']; rfl))
    exact ⟨hs₂, List.forall_mem_cons.mpr ⟨hv₂, hvs⟩⟩

end Expressions

/-! ### Calls -/

section Calling

variable {h : Host} {V : Moment → Prop} {fuel depth : Nat} {s : Store} {args : List Value}

theorem upholds_apply {f : Value} (hm : Moment.Entrusts h V (.apply f args (fuel + 1) depth s)) :
    Upholds h V (apply h (fuel + 1) depth f args s) fun n v => v.Registered h V n := by
  have hs : s.Registered h V := hm.registered.store
  have hf : f.Registered h V s.fresh := hm.registered.carried f List.mem_cons_self
  cases f with
  | closure c =>
    rw [apply]
    exact (upholds_map.mp (hm.called .closure)).mono fun _ v hv => hv v (List.mem_singleton_self v)
  | native n =>
    cases n
    rw [apply]
    exact ⟨Store.Registered.later hs rfl rfl (Nat.le_refl _), fun _ hk => hk.elim⟩
  | ofClass k =>
    cases hc : k.findMethod? initName with
    | none =>
      rw [apply]
      refine Upholds.bind (Q := fun _ o => o = ⟨s.objects.size, k⟩) ⟨hs.newObject, rfl⟩ ?_
      rintro o s₁ ho hs₁ rfl
      cases ho
      rw [hc]
      exact ⟨hs₁, hf⟩
    | some c =>
      rw [apply_initializes hc]
      refine .bind (upholds_bindMethod hs.newObject c hf) fun c' s₁ hb _ _ => ?_
      have hinvoke := hm.called (.initializer hc hb)
      refine .bind (upholds_map.mp hinvoke) fun w s₂ hd hs₂ _ => ⟨hs₂, ?_⟩
      have hle := grows_bindMethod c _ _ s₁ (by rw [hb]; rfl)
      have hle' := grows_invoke c' args s₁ s₂ (by rw [hd]; rfl)
      exact Value.Registered.mono hf (Nat.le_trans hle hle')
  | _ =>
    rw [apply] <;> first | exact ⟨hs, registered_nil⟩ | simp

theorem upholds_invoke {c : Closure}
    (hm : Moment.Entrusts h V (.invoke c args (fuel + 1) depth s)) :
    Upholds h V (invoke h (fuel + 1) depth c args s) fun n v => v.Registered h V n := by
  rw [invoke, Action.bind_of_done (newFrame_done _ _)]
  refine .bind (upholds_map.mp (hm.called .body)) fun completion s₁ _ hs₁ hv => ?_
  refine upholds_ite (fun _ => ?_) fun _ => ⟨hs₁, ?_⟩
  · refine Upholds.bind (Q := fun _ s => s = s₁) ⟨hs₁, rfl⟩ ?_
    rintro _ s₂ hread hs₂ rfl
    cases hread
    exact upholds_access hs₂
  · cases completion with
    | carryOn => exact registered_nil
    | returned v => exact hv v (List.mem_singleton_self v)

end Calling

/-! ### Statements -/

section Statements

variable {h : Host} {V : Moment → Prop} {fuel depth : Nat} {chain inner : Chain} {s s₁ : Store}
  {name : Name} {superclass : Option (Reference Link)} {body : List (Function Link)}
  {above : Option ClassValue}

theorem registered_carryOn {n : Nat} : Completion.carryOn.Registered h V n :=
  fun _ hv => absurd hv List.not_mem_nil

theorem upholds_declared (hs : s.Registered h V) (chain : Chain) (name : String) {v : Value}
    (hv : v.Registered h V s.fresh) :
    Upholds h V ((defineIn chain name v >>= fun _ => pure .carryOn : Action Completion) s)
      (Completion.Registered h V) :=
  .bind (upholds_defineIn hs chain name hv) fun _ _ _ hs₁ _ => ⟨hs₁, registered_carryOn⟩

/-- The second half of a class declaration makes a registered class. -/
theorem upholds_declareClass
    (hv : V (.run (.stmt (.classDecl name superclass body)) fuel depth chain s))
    (hrun : execute h fuel depth chain (.classDecl name superclass body) s =
      declareClass chain inner name above body s₁)
    (hs : s₁.Registered h V)
    (habove : ∀ k, above = some k → (Value.ofClass k).Registered h V s₁.fresh) :
    Upholds h V (declareClass chain inner name above body s₁) (Completion.Registered h V) := by
  -- the methods and the class use up identities, all of them later than that of the superclass
  obtain ⟨table, htable, -⟩ := newMethods_table inner body .empty s₁
  cases chain with
  | nil =>
    have hnone : declareClass [] inner name above body s₁ = .broken (.access .pastTheEnd) := by
      unfold declareClass
      rw [Action.bind_of_done htable]
      rfl
    rw [hnone]
    trivial
  | cons id rest =>
    rw [declareClass_eq rfl htable] at hrun ⊢
    have hlast : Store.Registered h V { s₁ with fresh := s₁.fresh + body.length + 1 } :=
      hs.later rfl rfl (Nat.le_trans (Nat.le_add_right _ _) (Nat.le_succ _))
    refine ⟨hlast.define id name.text fun hlt k hk => ?_, registered_carryOn⟩
    rcases ClassValue.mem_lineage hk with rfl | ⟨a, ha, hk⟩
    · refine ⟨Nat.lt_succ_self _, ⟨_, body, hv, .mk hrun ?_⟩, fun a ha => ?_⟩
      · exact getAt_define (s := { s₁ with fresh := s₁.fresh + body.length }) rfl hlt name.text _
      · exact Nat.lt_of_lt_of_le (habove a ha a a.self_mem_lineage).earlier (Nat.le_add_right _ _)
    · exact (habove a ha).mono (Nat.le_trans (Nat.le_add_right _ _) (Nat.le_succ _)) k hk

theorem upholds_class
    (hv : V (.run (.stmt (.classDecl name superclass body)) (fuel + 1) depth chain s))
    (hs : s.Registered h V) :
    Upholds h V (execute h (fuel + 1) depth chain (.classDecl name superclass body) s)
      (Completion.Registered h V) := by
  have hdefine := upholds_defineIn hs chain name.text registered_nil
  rw [execute]
  cases superclass with
  | none =>
    change Upholds h V ((defineIn chain name.text .nil >>= fun _ =>
      declareClass chain chain name none body) s) _
    refine .bind hdefine fun _ s₁ hd hs₁ _ => ?_
    refine upholds_declareClass hv ?_ hs₁ fun _ ha => by cases ha
    rw [execute]
    exact Action.bind_of_done hd
  | some r =>
    refine Upholds.bind (a := follow chain r) (upholds_follow hs chain r) fun v s₀ hf _ hk => ?_
    obtain rfl := follow_done hf
    cases v with
    | ofClass k =>
      change Upholds h V ((defineIn chain name.text .nil >>= fun _ =>
        newFrame (Bindings.empty.set Keyword.super.word (.ofClass k)) >>= fun frame =>
          declareClass chain (frame :: chain) name (some k) body) s₀) _
      refine .bind hdefine fun _ s₁ hd hs₁ _ => ?_
      replace hk := hk.mono (Nat.le_of_eq (defineIn_fresh hd).symm)
      refine Upholds.bind (Q := fun _ _ => True) ⟨hs₁.push_single _ hk, trivial⟩ ?_
      intro frame s₂ hframe hs₂ _
      cases hframe
      refine upholds_declareClass hv (execute_classDecl hf hd) hs₂ fun k' hk' => ?_
      cases hk'
      exact hk
    | _ => exact hs

theorem upholds_execute {st : Stmt Link}
    (hm : Moment.Entrusts h V (.run (.stmt st) (fuel + 1) depth chain s))
    (hv : V (.run (.stmt st) (fuel + 1) depth chain s)) :
    Upholds h V (execute h (fuel + 1) depth chain st s) (Completion.Registered h V) := by
  have hs : s.Registered h V := hm.registered.store
  cases st with
  | expression e =>
    rw [execute]
    exact .bind (upholds_expr hm .first rfl) fun _ _ _ hs₁ _ => ⟨hs₁, registered_carryOn⟩
  | print e =>
    rw [execute]
    exact .bind (upholds_expr hm .first rfl) fun v s₁ _ hs₁ _ =>
      ⟨hs₁.later rfl rfl (Nat.le_refl _), registered_carryOn⟩
  | var name initializer =>
    cases initializer with
    | none =>
      rw [execute]
      exact upholds_declared hs chain name.text registered_nil
    | some e =>
      rw [execute]
      exact .bind (upholds_expr hm .first rfl) fun v s₁ _ hs₁ hval =>
        upholds_declared hs₁ chain name.text hval
  | block body =>
    rw [execute]
    exact (upholds_map (f := Answer.completion)).mp (hm.called .block)
  | ifThen condition thenPart =>
    rw [execute]
    refine .bind (upholds_expr hm .first rfl) fun v s₁ hd hs₁ _ =>
      upholds_ite (fun htrue => ?_) fun _ => ⟨hs₁, registered_carryOn⟩
    have hj : Node.next? (.stmt (.ifThen condition thenPart)) 0 (.value v) = some 1 := if_pos htrue
    exact upholds_stmt hm (.expr .first rfl hd hj) rfl
  | ifElse condition thenPart elsePart =>
    rw [execute]
    refine .bind (upholds_expr hm .first rfl) fun v s₁ hd hs₁ _ =>
      upholds_ite (fun htrue => ?_) fun hfalse => ?_
    · have hj : Node.next? (.stmt (.ifElse condition thenPart elsePart)) 0 (.value v) = some 1 :=
        if_pos htrue
      exact upholds_stmt hm (.expr .first rfl hd hj) rfl
    · have hj : Node.next? (.stmt (.ifElse condition thenPart elsePart)) 0 (.value v) = some 2 :=
        if_neg hfalse
      exact upholds_stmt hm (.expr .first rfl hd hj) rfl
  | whileDo condition body =>
    rw [execute]
    exact upholds_loop hm .first rfl
  | function f =>
    rw [execute]
    refine Upholds.bind (Q := fun _ _ => True) ⟨hs.later rfl rfl (Nat.le_succ _), trivial⟩ ?_
    exact fun c s₁ _ hs₁ _ => upholds_declared hs₁ chain f.name.text (registered_closure c)
  | giveBack keyword value =>
    cases value with
    | none =>
      rw [execute]
      exact ⟨hs, List.forall_mem_singleton.mpr registered_nil⟩
    | some e =>
      rw [execute]
      exact .bind (upholds_expr hm .first rfl) fun v s₁ _ hs₁ hval =>
        ⟨hs₁, List.forall_mem_singleton.mpr hval⟩
  | classDecl name superclass body => exact upholds_class hv hs

theorem upholds_executeAll {sts : List (Stmt Link)}
    (hm : Moment.Entrusts h V (.run (.stmts sts) (fuel + 1) depth chain s)) :
    Upholds h V (executeAll h (fuel + 1) depth chain sts s) (Completion.Registered h V) := by
  cases sts with
  | nil =>
    rw [executeAll]
    exact ⟨hm.registered.store, registered_carryOn⟩
  | cons st sts =>
    rw [executeAll]
    refine .bind (upholds_stmt hm .first rfl) fun c s₁ hc hs₁ hval => ?_
    cases c with
    | carryOn => exact upholds_stmts hm (.stmt .first rfl hc rfl) rfl
    | returned v => exact ⟨hs₁, hval⟩

theorem upholds_repeatWhile {condition : Expr Link} {body : Stmt Link}
    (hm : Moment.Entrusts h V (.run (.loop condition body) (fuel + 1) depth chain s)) :
    Upholds h V (repeatWhile h (fuel + 1) depth chain condition body s)
      (Completion.Registered h V) := by
  rw [repeatWhile]
  refine .bind (upholds_expr hm .first rfl) fun v s₁ hv hs₁ _ =>
    upholds_ite (fun htrue => ?_) fun _ => ⟨hs₁, registered_carryOn⟩
  have hj : Node.next? (.loop condition body) 0 (.value v) = some 1 := if_pos htrue
  have hbody := Stage.expr .first rfl hv hj
  refine .bind (upholds_stmt hm hbody rfl) fun c s₂ hc hs₂ hval => ?_
  cases c with
  | carryOn => exact upholds_loop hm (.stmt hbody rfl hc rfl) rfl
  | returned v => exact ⟨hs₂, hval⟩

end Statements

/-! ## Moments -/

section Moments

variable {h : Host} {V : Moment → Prop} {m m' : Moment} {s' : Store}

theorem Moment.ends_store? (m : Moment) : (m.ends h).store? = m.leaves? h := by
  cases m with
  | run n fuel depth chain s => rfl
  | apply f args fuel depth s => exact Outcome.store?_map _ _
  | invoke c args fuel depth s => exact Outcome.store?_map _ _
  | bind c o s => rfl

/-- Where no steps are left, nothing ends. -/
theorem run_exhausted (n : Node Link) (depth : Nat) (chain : Chain) (s : Store) :
    n.run h 0 depth chain s = .unfinished := by
  cases n with
  | expr e => rw [Node.run, evaluate, Outcome.map]
  | exprs es => rw [Node.run, evaluateAll, Outcome.map]
  | stmt st => rw [Node.run, execute, Outcome.map]
  | stmts sts => rw [Node.run, executeAll, Outcome.map]
  | loop condition body => rw [Node.run, repeatWhile, Outcome.map]
  | function | method => rfl

theorem upholds_node {n : Node Link} {fuel depth : Nat} {chain : Chain} {s : Store}
    (hm : Moment.Entrusts h V (.run n (fuel + 1) depth chain s))
    (hv : V (.run n (fuel + 1) depth chain s)) :
    Upholds h V (n.run h (fuel + 1) depth chain s) fun n r => ∀ v ∈ r.all, v.Registered h V n := by
  cases n with
  | expr e =>
    exact upholds_map.mpr ((upholds_evaluate hm).mono fun _ _ => List.forall_mem_singleton.mpr)
  | exprs es => exact upholds_map.mpr (upholds_evaluateAll hm)
  | stmt st => exact upholds_map.mpr (upholds_execute hm hv)
  | stmts sts => exact upholds_map.mpr (upholds_executeAll hm)
  | loop condition body => exact upholds_map.mpr (upholds_repeatWhile hm)
  | function | method => trivial

/-- What begins among registered classes ends among registered classes, if what it leads to does. -/
theorem Moment.Entrusts.ends (hm : m.Entrusts h V) (hv : V m) : m.Upholds h V := by
  cases m with
  | run n fuel depth chain s =>
    rcases fuel with - | fuel
    · rw [Moment.Upholds, Moment.ends, run_exhausted]
      trivial
    · exact upholds_node hm hv
  | apply f args fuel depth s =>
    refine upholds_map.mpr (Upholds.mono ?_ fun _ _ => List.forall_mem_singleton.mpr)
    rcases fuel with - | fuel
    · rw [LoxKit.apply]
      trivial
    · exact upholds_apply hm
  | invoke c args fuel depth s =>
    refine upholds_map.mpr (Upholds.mono ?_ fun _ _ => List.forall_mem_singleton.mpr)
    rcases fuel with - | fuel
    · rw [LoxKit.invoke]
      trivial
    · exact upholds_invoke hm
  | bind c o s =>
    have ho : (Value.object o).Registered h V s.fresh :=
      hm.registered.carried _ (List.mem_singleton_self _)
    exact ⟨(upholds_bindMethod hm.registered.store c ho).1,
      List.forall_mem_singleton.mpr (registered_closure _)⟩

variable (hV : ∀ {m m'}, V m → Calls h m m' → V m')

include hV

/-- **What begins among registered classes ends among registered classes.** -/
theorem Moment.upholds (hv : V m) (hr : m.Registered h V) : m.Upholds h V := by
  -- by induction on the steps allowed: what is called has fewer
  induction hfuel : m.fuel using Nat.strongRecOn generalizing m with
  | ind fuel ih =>
    refine Moment.Entrusts.ends ⟨hr, fun m' hc hr' => ?_⟩ hv
    exact ih m'.fuel (hfuel ▸ hc.fuel_lt) (hV hv hc) hr' rfl

theorem Moment.Registered.entrusts (hr : m.Registered h V) (hv : V m) : m.Entrusts h V :=
  ⟨hr, fun _ hc => Moment.upholds hV (hV hv hc)⟩

/-- So does all that it leads to. -/
theorem Calls.registered (hc : Calls h m m') (hv : V m) (hr : m.Registered h V) :
    m'.Registered h V :=
  (hr.entrusts hV hv).calls hc

theorem Moment.Registered.leaves (hr : m.Registered h V) (hv : V m) (hl : m.leaves? h = some s') :
    s'.Registered h V :=
  (Moment.upholds hV hv hr).left (m.ends_store?.trans hl)

end Moments

end LoxKit
