import LoxKit.Proofs.Machine.Provenance
import LoxKit.Proofs.Session.Returns

/-!
# The classes of a session

A name can come to be bound to another class, but no class ever changes, and a class is made from
one that was made before it. So a chain of superclasses comes to an end whatever becomes of the
names, and what an object has under a name is settled: a field of its own, or else the last method
of that name in the body of the nearest class that declares one.

Headlines:
* `Session.Holds`: the values that a session comes to hold.
* `Session.Declares`, `Session.Above`: which body a class has, and which class is above it.
* `PropertyOf`, `Constructs`: what an object has under a name, and what a class does when called.
* `Session.HasClass.registered`: a declaration made every class of a session, after its superclass.
* `Session.Declares.eq_of_id`: no two classes of a session have the same identity.
* **`Session.classes_settled`**: what is true of all classes of a session.
-/

namespace LoxKit

open LoxKit.Action

/-! ## Programs -/

section Programs

variable {h : Host} {V : Moment → Prop} {fuel : Nat} {program : List (Stmt Link)} {s s' : Store}
  {b b' : Moment}

theorem Onward.fresh_le (hs : Onward h s s') : s.fresh ≤ s'.fresh :=
  hs.keeps kept_fresh

/-- A statement of a program has ended when the program has. -/
theorem Begins.ended (hb : Begins h fuel program s b)
    (hl : (runProgram h fuel program s).store? = some s') :
    ∃ s₁, b.leaves? h = some s₁ ∧ Onward h s₁ s' := by
  induction hb with
  | first =>
    obtain ⟨s₁, hleaves, rfl | ⟨-, hl⟩⟩ := runProgram_left hl
    · exact ⟨s₁, hleaves, .refl⟩
    · exact ⟨s₁, hleaves, runProgram_onward .refl hl⟩
  | later he _ ih =>
    rw [runProgram, he] at hl
    exact ih hl

/-- Of two statements of a program, one has ended when the other begins. -/
theorem Begins.compare (hb : Begins h fuel program s b) (hb' : Begins h fuel program s b') :
    b = b' ∨ b.Precedes h b' ∨ b'.Precedes h b := by
  induction hb with
  | first =>
    cases hb' with
    | first => exact .inl rfl
    | later he hb' => exact .inr (.inl ⟨_, leaves_of_execute he, (hb'.onward .refl).fresh_le⟩)
  | later he hb ih =>
    cases hb' with
    | first => exact .inr (.inr ⟨_, leaves_of_execute he, (hb.onward .refl).fresh_le⟩)
    | later he' hb' =>
      cases he.symm.trans he'
      exact ih hb'

variable (hV : ∀ {m m'}, V m → Calls h m m' → V m')

include hV

/-- A program that finds registered classes leaves no others. -/
theorem runProgram_registered (hs : s.Registered h V) (hb : ∀ m, Begins h fuel program s m → V m)
    (hl : (runProgram h fuel program s).store? = some s') : s'.Registered h V := by
  induction program generalizing s with
  | nil =>
    cases hl
    exact hs
  | cons stmt stmts ih =>
    obtain ⟨s₁, hleaves, hrest⟩ := runProgram_left hl
    have hs₁ : s₁.Registered h V := hs.run.leaves hV (hb _ .first) hleaves
    rcases hrest with rfl | ⟨he, hl⟩
    · exact hs₁
    · exact ih hs₁ (fun m hm => hb m (.later he hm)) hl

/-- All its statements begin among registered classes. -/
theorem Begins.registered (hb : Begins h fuel program s b) (hs : s.Registered h V)
    (hv : ∀ m, Begins h fuel program s m → V m) : b.Registered h V := by
  induction hb with
  | first => exact hs.run
  | later he _ ih =>
    have hs₁ := hs.run.leaves hV (hv _ .first) (leaves_of_execute he)
    exact ih hs₁ fun m hm => hv m (.later he hm)

end Programs

/-! ## What a session holds -/

/-- The stores that a session comes to. -/
inductive Session.Reaches (session : Session) (h : Host) (turns : List Turn) : Store → Prop
  | between {before later : List Turn} (ht : turns = before ++ later) :
      Reaches session h turns (session.after h before).store
  | finds {m : Moment} (hm : Visited h session turns m) : Reaches session h turns m.store
  | leaves {m : Moment} {s : Store} (hm : Visited h session turns m) (hl : m.leaves? h = some s) :
      Reaches session h turns s

/-- The values that a session comes to hold: in a store, brought along to a moment, or given by
what begins in one. -/
inductive Session.Holds (session : Session) (h : Host) (turns : List Turn) : Value → Prop
  | kept {s : Store} {v : Value} (hs : session.Reaches h turns s) (hv : s.Occurs v) :
      Holds session h turns v
  | carried {m : Moment} {v : Value} (hm : Visited h session turns m) (hv : v ∈ m.carried) :
      Holds session h turns v
  | given {m : Moment} {r : Answer} {s : Store} {v : Value} (hm : Visited h session turns m)
      (hd : m.ends h = .done r s) (hv : v ∈ r.all) : Holds session h turns v

/-- The classes that a session comes to hold. -/
def Session.HasClass (session : Session) (h : Host) (turns : List Turn) (k : ClassValue) : Prop :=
  ∃ v, session.Holds h turns v ∧ v.Mentions k

/-- A declaration with a body makes a class in a session. -/
def Session.Declares (session : Session) (h : Host) (turns : List Turn) (k : ClassValue)
    (body : List (Function Link)) : Prop :=
  ∃ m, Visited h session turns m ∧ Makes h m body k

/-- In a session, the class with the identity `i` is the superclass of the one with `j`. -/
def Session.Above (session : Session) (h : Host) (turns : List Turn) (i j : Nat) : Prop :=
  ∃ k above, session.HasClass h turns k ∧ k.superclass? = some above ∧ above.id = i ∧ k.id = j

/-- No turn but the last is cut off for want of steps: a turn that never ends is the last of its
session. -/
def Session.Completes (session : Session) (h : Host) (turns : List Turn) : Prop :=
  ∀ before turn later, turns = before ++ turn :: later → later ≠ [] →
    ((session.after h before).run h turn.fuel turn.text turn.checkOnly).2 ≠ .unfinished

section Sessions

variable {h : Host} {verbose : Bool} {limit : Option Int} {turns : List Turn} {m d d' : Moment}
  {body body' : List (Function Link)} {k k' : ClassValue} {v : Value}

/-- The store of a session has registered classes only after each of its turns. -/
theorem registered_after (before : List Turn) :
    ∀ later, turns = before ++ later →
      ((Session.start verbose limit).after h before).store.Registered h
        (Visited h (.start verbose limit) turns) := by
  induction before using List.reverseRecOn with
  | nil => exact fun _ _ => .initial
  | append_singleton before turn ih =>
    intro later ht
    rw [List.append_assoc, List.singleton_append] at ht
    have hs := ih (turn :: later) ht
    rw [Session.after_append]
    rcases Session.run_left _ h turn.fuel turn.text turn.checkOnly with
      hstore | ⟨report, program, hr, hc, hl⟩
    · rwa [hstore]
    · exact runProgram_registered .calls hs (fun m hm => .begins ht hc hr hm) hl

/-- Every moment that a session comes to is among registered classes. -/
theorem Visited.registered (hm : Visited h (.start verbose limit) turns m) :
    m.Registered h (Visited h (.start verbose limit) turns) := by
  induction hm with
  | begins ht hc hr hb =>
    exact hb.registered .calls (registered_after _ _ ht) fun m hm => .begins ht hc hr hm
  | calls hm hc ih => exact hc.registered .calls hm ih

/-- Every class that a session holds is registered. -/
theorem Session.HasClass.registered (hk : (Session.start verbose limit).HasClass h turns k) :
    ∃ n, k.Registered h (Visited h (.start verbose limit) turns) n := by
  obtain ⟨v, hv, hmentions⟩ := hk
  cases hv with
  | kept hs hv =>
    cases hs with
    | between ht => exact ⟨_, registered_after _ _ ht v hv k hmentions⟩
    | finds hm => exact ⟨_, hm.registered.store v hv k hmentions⟩
    | leaves hm hl => exact ⟨_, hm.registered.leaves .calls hm hl v hv k hmentions⟩
  | carried hm hv => exact ⟨_, hm.registered.carried v hv k hmentions⟩
  | given hm hd hv =>
    exact ⟨_, ((Moment.upholds .calls hm hm.registered).of_done hd).2 v hv k hmentions⟩

/-! ## One declaration after the other -/

/-- A statement of a turn begins. -/
inductive Session.Starts (session : Session) (h : Host) (before : List Turn) (turn : Turn) :
    Moment → Prop
  | mk {report : Report} {program : List (Stmt Link)} {b : Moment} (hc : turn.checkOnly = false)
      (hr : (session.after h before).compiled turn.text = (report, .ready program))
      (hb : Begins h turn.fuel program (session.after h before).store b) :
      Starts session h before turn b

/-- What a session comes to belongs to a statement of a turn. -/
theorem Visited.started {session : Session} (hm : Visited h session turns m) :
    ∃ before turn later b, turns = before ++ turn :: later ∧ session.Starts h before turn b ∧
      Relation.ReflTransGen (Calls h) b m := by
  induction hm with
  | begins ht hc hr hb => exact ⟨_, _, _, _, ht, .mk hc hr hb, .refl⟩
  | calls _ hc ih =>
    obtain ⟨before, turn, later, b, ht, hb, hm⟩ := ih
    exact ⟨before, turn, later, b, ht, hb, hm.tail hc⟩

/-- A program that is not cut off leaves the store that the turn leaves. -/
theorem Session.run_ended {before : List Turn} {text : String} {report : Report}
    {program : List (Stmt Link)} {fuel : Nat}
    (hr : ((Session.start verbose limit).after h before).compiled text = (report, .ready program))
    (hends : (((Session.start verbose limit).after h before).run h fuel text false).2 ≠
      .unfinished) :
    (runProgram h fuel program ((Session.start verbose limit).after h before).store).store? =
      some (((Session.start verbose limit).after h before).run h fuel text false).1.store := by
  have hbroken := runProgram_not_broken before hr fuel
  unfold Session.compiled at hr
  simp only [Session.run, hr, Bool.false_eq_true, if_false, Session.execute] at hends ⊢
  cases ho : runProgram h fuel program ((Session.start verbose limit).after h before).store with
  | done u s' => rfl
  | failed error line s' => rfl
  | broken breakage => exact absurd ho (hbroken breakage)
  | unfinished =>
    rw [ho] at hends
    exact absurd rfl hends

/-- A statement has ended when one of a later turn begins. -/
theorem Session.Starts.precedes {before rest : List Turn} {turn turn' : Turn} {b b' : Moment}
    (hb : (Session.start verbose limit).Starts h before turn b)
    (hb' : (Session.start verbose limit).Starts h (before ++ turn :: rest) turn' b')
    (hends : (((Session.start verbose limit).after h before).run h turn.fuel turn.text
      turn.checkOnly).2 ≠ .unfinished) : b.Precedes h b' := by
  obtain ⟨hc, hr, hb⟩ := hb
  obtain ⟨-, -, hb'⟩ := hb'
  have hafter : (Session.start verbose limit).after h (before ++ turn :: rest) =
      (((Session.start verbose limit).after h before).run h turn.fuel turn.text
        turn.checkOnly).1.after h rest := List.foldl_append
  rw [hc] at hends hafter
  rw [hafter] at hb'
  obtain ⟨s, hs, hle⟩ := hb.ended (Session.run_ended hr hends)
  exact ⟨s, hs, (hb'.onward (Session.after_onward rest hle)).fresh_le⟩

theorem Session.Starts.compare_within {session : Session} {before : List Turn} {turn : Turn}
    {b b' : Moment} (hb : session.Starts h before turn b) (hb' : session.Starts h before turn b') :
    b = b' ∨ b.Precedes h b' ∨ b'.Precedes h b := by
  obtain ⟨-, hr, hb⟩ := hb
  obtain ⟨-, hr', hb'⟩ := hb'
  cases hr.symm.trans hr'
  exact hb.compare hb'

/-- Of two statements that a session comes to, one has ended when the other begins. -/
theorem Session.Starts.compare {before before' later later' : List Turn} {turn turn' : Turn}
    {b b' : Moment} (hturns : (Session.start verbose limit).Completes h turns)
    (ht : turns = before ++ turn :: later) (ht' : turns = before' ++ turn' :: later')
    (hb : (Session.start verbose limit).Starts h before turn b)
    (hb' : (Session.start verbose limit).Starts h before' turn' b') :
    b = b' ∨ b.Precedes h b' ∨ b'.Precedes h b := by
  -- the turns are the same, or the earlier one is not the last, so that it was not cut off
  rcases List.append_eq_append_iff.mp (ht.symm.trans ht') with
    ⟨rest, rfl, hrest⟩ | ⟨rest, rfl, hrest⟩
  · rcases rest with - | ⟨first, rest⟩
    · rw [List.append_nil] at hb'
      cases hrest
      exact hb.compare_within hb'
    · cases hrest
      exact .inr (.inl (hb.precedes hb' (hturns _ _ _ ht (by simp))))
  · rcases rest with - | ⟨first, rest⟩
    · rw [List.append_nil] at hb
      cases hrest
      exact hb.compare_within hb'
    · cases hrest
      exact .inr (.inr (hb'.precedes hb (hturns _ _ _ ht' (by simp))))

/-- Two declarations of a session never give out the same identity to two classes. -/
theorem Session.Declares.eq_of_id (hturns : (Session.start verbose limit).Completes h turns)
    (hk : (Session.start verbose limit).Declares h turns k body)
    (hk' : (Session.start verbose limit).Declares h turns k' body') (hid : k.id = k'.id) :
    k = k' := by
  obtain ⟨d, hd, hmakes⟩ := hk
  obtain ⟨d', hd', hmakes'⟩ := hk'
  obtain ⟨before, turn, later, b, ht, hb, hm⟩ := hd.started
  obtain ⟨before', turn', later', b', ht', hb', hm'⟩ := hd'.started
  rcases hb.compare hturns ht ht' hb' with rfl | hprecedes | hprecedes
  · exact hmakes.of_id_eq hmakes' hm hm' hid
  · exact absurd hid (Nat.ne_of_lt (Moment.Before.id_lt ⟨hm, hm', hprecedes⟩ hmakes hmakes'))
  · exact absurd hid.symm (Nat.ne_of_lt (Moment.Before.id_lt ⟨hm', hm, hprecedes⟩ hmakes' hmakes))

end Sessions

/-! ## What is settled -/

/-- What an object has under a name, where `B` says which body a class has: a field of its own, or
else the method that the bodies along its lineage say, which sees the object as `this`. -/
inductive PropertyOf (B : ClassValue → List (Function Link) → Prop) (s : Store) (o : Object)
    (name : Name) : Outcome Value → Prop
  | field {v : Value} (hf : (fields s o).get? name.text = some v) :
      PropertyOf B s o name (.done v s)
  | method {f : Function Link} {c : Closure} (hf : (fields s o).get? name.text = none)
      (hl : Lookup B name.text o.ofClass.lineage (some f))
      (hc : o.ofClass.findMethod? name.text = some c) :
      PropertyOf B s o name
        (.done (.closure ⟨s.fresh, f, s.frames.size :: c.captured, name.text == initName⟩) { s with
          frames := s.frames.push (Bindings.empty.set Keyword.this.word (.object o))
          fresh := s.fresh + 1 })
  | missing (hf : (fields s o).get? name.text = none)
      (hl : Lookup B name.text o.ofClass.lineage none) :
      PropertyOf B s o name (.failed (.undefinedProperty name.text) name.pos.line s)

/-- What a class takes when it is called, and what it does: it makes an object and calls its
initializer for it, if it has one. -/
inductive Constructs (h : Host) (k : ClassValue) : Option (Function Link) → Prop
  | plain (ha : Value.arity? (.ofClass k) = some 0)
      (hd : ∀ args fuel depth s, apply h (fuel + 1) depth (.ofClass k) args s =
        .done (.object ⟨s.objects.size, k⟩) { s with objects := s.objects.push .empty }) :
      Constructs h k none
  | initializes {f : Function Link} {c : Closure}
      (ha : Value.arity? (.ofClass k) = some f.params.length)
      (hc : k.findMethod? initName = some c)
      (hd : ∀ args fuel depth s, apply h (fuel + 1) depth (.ofClass k) args s =
        (invoke h fuel depth ⟨s.fresh, f, s.frames.size :: c.captured, true⟩ args { s with
          frames := s.frames.push
            (Bindings.empty.set Keyword.this.word (.object ⟨s.objects.size, k⟩))
          objects := s.objects.push .empty
          fresh := s.fresh + 1 }).map fun _ => .object ⟨s.objects.size, k⟩) :
      Constructs h k (some f)

theorem bind_pure_eq_map {α β : Type} (a : Action α) (x : β) (s : Store) :
    (a >>= fun _ => Pure.pure x) s = (a s).map fun _ => x := by
  show Action.bind a _ s = _
  unfold Action.bind
  cases a s <;> rfl

section Settling

variable {h : Host} {B : ClassValue → List (Function Link) → Prop} {k : ClassValue}

/-- What the bodies say settles what an object has under a name. -/
theorem propertyOf_getProperty (hB : ∀ k body, B k body → ∃ inner, TableOf inner body k.methods)
    {o : Object} (ho : ∀ k ∈ o.ofClass.lineage, ∃ body, B k body) (name : Name) (s : Store) :
    PropertyOf B s o name (getProperty o name s) := by
  unfold getProperty
  cases hf : (fields s o).get? name.text with
  | some v => exact .field hf
  | none =>
    rcases lookup_findMethod? hB name.text ho with ⟨hl, hfind⟩ | ⟨f, c, inner, hl, hc, hfind⟩
    · rw [hfind]
      exact .missing hf hl
    · rw [hfind]
      have hbound := PropertyOf.method hf hl hfind
      rw [← hl.name_eq, ← hc.initializer_eq, ← hc.function_eq] at hbound
      exact hbound

/-- What the bodies say about initializers settles what a class does. -/
theorem constructs_lookup (hB : ∀ k body, B k body → ∃ inner, TableOf inner body k.methods)
    (hk : ∀ k' ∈ k.lineage, ∃ body, B k' body) :
    ∃ r, Lookup B initName k.lineage r ∧ Constructs h k r := by
  rcases lookup_findMethod? hB initName hk with ⟨hl, hfind⟩ | ⟨f, c, inner, hl, hc, hfind⟩
  · refine ⟨none, hl, .plain ?_ fun args fuel depth s => ?_⟩
    · rw [Value.arity?, hfind]
    · rw [apply]
      refine (Action.bind_of_done (m := newObject k) rfl).trans ?_
      rw [hfind]
      rfl
  · refine ⟨some f, hl, .initializes ?_ hfind fun args fuel depth s => ?_⟩
    · rw [Value.arity?, hfind, ← hc.function_eq]
    · have hinit : c.isInitializer = true := by
        rw [hc.initializer_eq, hl.name_eq]
        exact beq_self_eq_true initName
      rw [apply_initializes hfind, ← hc.function_eq, ← hinit]
      exact bind_pure_eq_map _ _ _

end Settling

/-- What is true of the classes of a session. -/
structure ClassesSettled (h : Host) (session : Session) (turns : List Turn) : Prop where
  /-- Every class was made by a declaration, -/
  declared : ∀ k, session.HasClass h turns k → ∃ body, session.Declares h turns k body
  /-- and what a declaration makes is there. -/
  held : ∀ k body, session.Declares h turns k body → session.HasClass h turns k
  /-- Its superclass is the class that the declaration finds. -/
  superclass : ∀ name r body fuel depth chain s k,
    Makes h (.run (.stmt (.classDecl name r body)) fuel depth chain s) body k →
    SuperclassOf chain s r k.superclass?
  /-- Every chain of superclasses comes to an end, -/
  wellFounded : WellFounded (session.Above h turns)
  /-- no class is above itself, -/
  acyclic : ∀ i, ¬Relation.TransGen (session.Above h turns) i i
  /-- and along a lineage all classes are different. -/
  distinct : ∀ k, session.HasClass h turns k → (k.lineage.map ClassValue.id).Nodup
  /-- A method is found where the bodies along the lineage say, -/
  lookup : ∀ k name, session.HasClass h turns k →
    Lookup (session.Declares h turns) name k.lineage ((k.findMethod? name).map Closure.function)
  /-- and they say one thing only. -/
  unique : ∀ name ks r r', Lookup (session.Declares h turns) name ks r →
    Lookup (session.Declares h turns) name ks r' → r = r'
  /-- An object has its fields, and besides them what the bodies say. -/
  properties : ∀ o, session.Holds h turns (.object o) → ∀ name s,
    PropertyOf (session.Declares h turns) s o name (getProperty o name s)
  /-- A reference to a property gives what the object has. -/
  references : ∀ object field fuel depth chain s s₁ o,
    Visited h session turns (.run (.expr (.get object field)) (fuel + 1) depth chain s) →
    evaluate h fuel depth chain object s = .done (.object o) s₁ →
    PropertyOf (session.Declares h turns) s₁ o field
      (evaluate h (fuel + 1) depth chain (.get object field) s)
  /-- What a class takes and what it does come from one initializer. -/
  calls : ∀ k, session.HasClass h turns k →
    ∃ r, Lookup (session.Declares h turns) initName k.lineage r ∧ Constructs h k r
  /-- The class that a declaration makes never changes: what has its identity has its name, its
  superclass and its methods. -/
  lasting : session.Completes h turns → ∀ k k' body, session.Declares h turns k body →
    session.HasClass h turns k' → k'.id = k.id → k' = k

section Classes

variable {h : Host} {verbose : Bool} {limit : Option Int} {turns : List Turn}
  {k k' above : ClassValue} {body : List (Function Link)} {i j : Nat}

/-- The superclasses of a class are held with it. -/
theorem Session.HasClass.lineage {session : Session} (hk : session.HasClass h turns k)
    (hk' : k' ∈ k.lineage) : session.HasClass h turns k' := by
  obtain ⟨v, hv, hmentions⟩ := hk
  refine ⟨v, hv, ?_⟩
  cases v with
  | ofClass | object => exact ClassValue.lineage_trans hmentions hk'
  | _ => exact hmentions.elim

theorem Session.HasClass.older (hk : (Session.start verbose limit).HasClass h turns k)
    (habove : k.superclass? = some above) : above.id < k.id := by
  obtain ⟨n, hregistered⟩ := hk.registered
  exact hregistered.older above habove

theorem Session.HasClass.declared (hk : (Session.start verbose limit).HasClass h turns k) :
    ∃ body, (Session.start verbose limit).Declares h turns k body := by
  obtain ⟨n, hregistered⟩ := hk.registered
  obtain ⟨m, body, hm, hmakes⟩ := hregistered.made
  exact ⟨body, m, hm, hmakes⟩

theorem Session.HasClass.bodies (hk : (Session.start verbose limit).HasClass h turns k) :
    ∀ k' ∈ k.lineage, ∃ body, (Session.start verbose limit).Declares h turns k' body :=
  fun _ hk' => (hk.lineage hk').declared

theorem Session.Declares.table {session : Session} (hk : session.Declares h turns k body) :
    ∃ inner, TableOf inner body k.methods := by
  obtain ⟨m, -, hmakes⟩ := hk
  exact hmakes.methods

/-- The class that a declaration makes is bound to its name. -/
theorem Session.Declares.hasClass {session : Session} (hk : session.Declares h turns k body) :
    session.HasClass h turns k := by
  obtain ⟨m, hm, hmakes⟩ := hk
  obtain ⟨hrun, hmade⟩ := hmakes
  exact ⟨.ofClass k, .kept (.leaves hm (leaves_of_execute hrun)) (.of_getAt hmade),
    k.self_mem_lineage⟩

theorem Session.Above.lt (ha : (Session.start verbose limit).Above h turns i j) : i < j := by
  obtain ⟨k, above, hk, habove, rfl, rfl⟩ := ha
  exact hk.older habove

theorem Session.not_above_self (i : Nat) :
    ¬Relation.TransGen ((Session.start verbose limit).Above h turns) i i := by
  have hlt : ∀ j, Relation.TransGen ((Session.start verbose limit).Above h turns) i j → i < j := by
    intro j hij
    induction hij with
    | single ha => exact ha.lt
    | tail _ ha ih => exact Nat.lt_trans ih ha.lt
  exact fun hi => Nat.lt_irrefl i (hlt i hi)

/-- **A class of a session has a finite lineage and never changes, and what its objects have and
what it does when it is called is what the bodies along its lineage say.** -/
theorem Session.classes_settled (h : Host) (verbose : Bool) (limit : Option Int)
    (turns : List Turn) : ClassesSettled h (.start verbose limit) turns where
  declared _ hk := hk.declared
  held _ _ hk := hk.hasClass
  superclass _ _ _ _ _ _ _ _ hm := hm.superclassOf
  wellFounded := Subrelation.wf Session.Above.lt Nat.lt_wfRel.wf
  acyclic := Session.not_above_self
  distinct _ hk :=
    (ClassValue.lineage_decreasing fun _ hk' _ habove => (hk.lineage hk').older habove).imp
      fun hgt => Nat.ne_of_gt hgt
  lookup k name hk := by
    rw [ClassValue.findMethod?_eq]
    rcases lookup_findSome? (fun _ _ hb => hb.table) name hk.bodies with
      ⟨hl, hfind⟩ | ⟨f, c, inner, hl, hc, hfind⟩
    · rwa [hfind]
    · rw [hfind, Option.map_some, hc.function_eq]
      exact hl
  unique _ _ _ _ hl hl' := by
    rw [← hl.findSome?_eq fun _ _ hb => hb.table, hl'.findSome?_eq fun _ _ hb => hb.table]
  properties o ho name s := by
    have hk : (Session.start verbose limit).HasClass h turns o.ofClass :=
      ⟨.object o, ho, o.ofClass.self_mem_lineage⟩
    exact propertyOf_getProperty (fun _ _ hb => hb.table) hk.bodies name s
  references object field fuel depth chain s s₁ o hm hd := by
    have ho : (Session.start verbose limit).Holds h turns (.object o) :=
      .given (hm.calls (.part .first rfl)) (r := .value (.object o))
        (by rw [Moment.ends, Node.run, hd]; rfl) (List.mem_singleton_self _)
    have hk : (Session.start verbose limit).HasClass h turns o.ofClass :=
      ⟨.object o, ho, o.ofClass.self_mem_lineage⟩
    rw [evaluate, Action.bind_of_done hd]
    exact propertyOf_getProperty (fun _ _ hb => hb.table) hk.bodies field s₁
  calls k hk := constructs_lookup (fun _ _ hb => hb.table) hk.bodies
  lasting hturns k k' body hk hk' hid := by
    obtain ⟨body', hk'⟩ := hk'.declared
    exact hk'.eq_of_id hturns hk hid

/-- In `class A {} class B < A {} class A < B {}` the last class has the first one behind it. -/
example : (((Session.start false none).run ⟨fun _ => 0, 1000⟩ 2
      "class A {} class B < A {} class A < B {}" false).1.store.frames.read 0 "A").map
    (fun v => match v with
      | .ofClass k => k.lineage.map fun k => (k.name, k.id)
      | _ => []) = some [("A", 2), ("B", 1), ("A", 0)] := by
  cbv

end Classes

end LoxKit
