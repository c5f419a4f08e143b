import LoxKit.Proofs.Machine.Order
import LoxKit.Proofs.Session.Dispatch
import LoxKit.Proofs.Session.Safety

/-!
# Calls of a session

What the calls of a session give. A call of a function gives what a return gives that it comes to,
or nil; a call of an initializer its object; a call of a class an object that no earlier call made.
The statements of a program return nothing.

Headlines:
* `Onward`: a run leads from one store to a later one.
* `Onward.objects_le`: objects are never lost.
* **`Session.calls_return`**: what calls give.
-/

namespace LoxKit

open LoxKit.Action

/-! ## Objects -/

/-- A run leads from one store to a later one. -/
inductive Onward (h : Host) (s : Store) : Store → Prop
  | refl : Onward h s s
  /-- A moment leads to another. -/
  | calls {m m' : Moment} (hm : Onward h s m.store) (hc : Calls h m m') : Onward h s m'.store
  /-- What begins in a moment ends. -/
  | leaves {m : Moment} {s' : Store} (hm : Onward h s m.store) (hl : m.leaves? h = some s') :
    Onward h s s'

section Objects

variable {h : Host} {s s' : Store}

/-- A run keeps what every change of a store keeps. -/
theorem Onward.keeps {R : Store → Store → Prop} (hR : Kept R) (hs : Onward h s s') : R s s' := by
  induction hs with
  | refl => exact hR.refl s
  | calls _ hc ih => exact hR.trans ih (hc.keeps hR)
  | leaves _ hl ih => exact hR.trans ih (Moment.keeps hR hl)

theorem kept_objects : Kept fun s s' => s.objects.size ≤ s'.objects.size where
  refl _ := Nat.le_refl _
  trans := Nat.le_trans
  aside _ ho _ := ho
  pushed _ _ := Nat.le_refl _
  defined _ _ _ _ := Nat.le_refl _

/-- **Objects are never lost.** -/
theorem Onward.objects_le (hs : Onward h s s') : s.objects.size ≤ s'.objects.size :=
  hs.keeps kept_objects

/-- The call of a class makes an object of it. -/
theorem apply_class {k : ClassValue} {args : List Value} {fuel depth : Nat} {v : Value}
    (hd : apply h fuel depth (.ofClass k) args s = .done v s') :
    v = .object ⟨s.objects.size, k⟩ := by
  rcases fuel with - | fuel
  · rw [apply] at hd
    cases hd
  · rw [apply] at hd
    obtain ⟨o, s₁, ho, hd⟩ := Action.bind_eq_done hd
    cases ho
    cases hc : k.findMethod? initName with
    | none =>
      rw [hc] at hd
      cases hd
      rfl
    | some c =>
      rw [hc] at hd
      obtain ⟨initializer, s₂, -, hd⟩ := Action.bind_eq_done hd
      obtain ⟨_, s₃, -, hd⟩ := Action.bind_eq_done hd
      cases hd
      rfl

/-- It is none of the objects that were made earlier. -/
theorem apply_class_new {k k' : ClassValue} {args args' : List Value}
    {fuel fuel' depth depth' : Nat} {s₁ s₁' : Store} {v v' : Value}
    (hd : apply h fuel depth (.ofClass k) args s = .done v s')
    (hs : Onward h { s with objects := s.objects.push .empty } s₁)
    (hd' : apply h fuel' depth' (.ofClass k') args' s₁ = .done v' s₁') : v.equal v' = false := by
  have hlt : s.objects.size < s₁.objects.size := by
    have hle := hs.objects_le
    rwa [Array.size_push] at hle
  rw [apply_class hd, apply_class hd']
  exact beq_eq_false_iff_ne.mpr (Nat.ne_of_lt hlt)

end Objects

/-! ## Programs and turns -/

section Programs

variable {h : Host} {fuel : Nat} {program : List (Stmt Link)} {s s₀ : Store} {m : Moment}

theorem Begins.onward (hb : Begins h fuel program s m) (hs : Onward h s₀ s) :
    Onward h s₀ m.store := by
  induction hb with
  | first => exact hs
  | @later stmt stmts s s' m he _ ih =>
    exact ih (.leaves (m := .run (.stmt stmt) fuel 0 globals s) hs (leaves_of_execute he))

/-- A program leaves what its first statement leaves, or else what the others leave behind it. -/
theorem runProgram_left {stmt : Stmt Link} {stmts : List (Stmt Link)} {s' : Store}
    (hl : (runProgram h fuel (stmt :: stmts) s).store? = some s') :
    ∃ s₁, Moment.leaves? h (.run (.stmt stmt) fuel 0 globals s) = some s₁ ∧
      (s₁ = s' ∨ execute h fuel 0 globals stmt s = .done .carryOn s₁ ∧
        (runProgram h fuel stmts s₁).store? = some s') := by
  rw [runProgram] at hl
  cases he : execute h fuel 0 globals stmt s with
  | done completion s₁ =>
    rw [he] at hl
    refine ⟨s₁, leaves_of_execute he, ?_⟩
    cases completion with
    | carryOn => exact .inr ⟨rfl, hl⟩
    | returned v => cases hl
  | failed error line s₁ =>
    rw [he] at hl
    refine ⟨s₁, by rw [Moment.leaves?, Node.run, he]; rfl, .inl ?_⟩
    exact Option.some.inj hl
  | broken | unfinished =>
    rw [he] at hl
    cases hl

/-- What a program leaves comes behind what it finds. -/
theorem runProgram_onward {s' : Store} (hs : Onward h s₀ s)
    (hl : (runProgram h fuel program s).store? = some s') : Onward h s₀ s' := by
  induction program generalizing s with
  | nil =>
    cases hl
    exact hs
  | cons stmt stmts ih =>
    obtain ⟨s₁, hleaves, rfl | ⟨-, hl⟩⟩ := runProgram_left hl
    · exact .leaves (m := .run (.stmt stmt) fuel 0 globals s) hs hleaves
    · exact ih (.leaves (m := .run (.stmt stmt) fuel 0 globals s) hs hleaves) hl

/-- What a turn leaves comes behind what it finds. -/
theorem Session.run_onward {session : Session} {text : String} {checkOnly : Bool}
    (hs : Onward h s₀ session.store) :
    Onward h s₀ (session.run h fuel text checkOnly).1.store := by
  rcases session.run_left h fuel text checkOnly with hstore | ⟨report, program, -, -, hl⟩
  · rwa [hstore]
  · exact runProgram_onward hs hl

/-- What turns leave comes behind what they find. -/
theorem Session.after_onward {session : Session} (turns : List Turn)
    (hs : Onward h s₀ session.store) : Onward h s₀ (session.after h turns).store := by
  induction turns using List.reverseRecOn with
  | nil => exact hs
  | append_singleton before turn ih =>
    rw [Session.after_append]
    exact Session.run_onward ih

/-- If a statement of a program returns, the program is broken. -/
theorem Begins.strayReturn (hb : Begins h fuel program s m) {v : Value} {s' : Store}
    (hd : m.ends h = .done (.completion (.returned v)) s') :
    runProgram h fuel program s = .broken .strayReturn := by
  induction hb with
  | first =>
    obtain ⟨completion, hcompletion, he⟩ := Outcome.map_eq_done hd
    cases hcompletion
    simp only [runProgram, he]
  | later he _ ih =>
    simp only [runProgram, he]
    exact ih hd

end Programs

/-! ## Sessions -/

section Sessions

variable {h : Host} {verbose : Bool} {limit : Option Int} {turns : List Turn}

/-- What a frame binds to a keyword is found there for good. -/
theorem Extends.getAt_word {s s' : Store} (he : Extends s s') {chain : Chain} {d : Nat}
    {k : Keyword} {v : Value} (hv : s.frames.getAt chain d k.word = .ok v) :
    s'.frames.getAt chain d k.word = .ok v := by
  unfold Frames.getAt at hv
  split at hv
  · cases hv
  next id hid =>
    split at hv
    · cases hv
    next hread =>
      cases hv
      exact getAt_eq_ok hid (he.kept id k _ hread)

/-- The call of an initializer gives its object. -/
theorem Visited.initializer {c : Closure} {args : List Value} {fuel depth : Nat} {s s' : Store}
    {v : Value} (hm : Visited h (.start verbose limit) turns (.invoke c args fuel depth s))
    (hinit : c.isInitializer = true) (hd : invoke h fuel depth c args s = .done v s') :
    ∃ o, s.frames.getAt c.captured 0 Keyword.this.word = .ok (.object o) ∧ v = .object o := by
  obtain ⟨o, ho⟩ := hm.good.initializer_secure hinit
  refine ⟨o, ho, ?_⟩
  rcases fuel with - | fuel
  · rw [invoke] at hd
    cases hd
  · obtain ⟨completion, hbody, -, hget⟩ := invoke_eq_done hd
    have hl : (Moment.body c args fuel depth s).leaves? h = some s' :=
      congrArg Outcome.store? hbody
    have hextends : Extends s s' := (Extends.push s _).trans ((hm.calls .body).leaves hl)
    exact Except.ok.inj ((hget hinit).symm.trans (hextends.getAt_word ho))

/-- A statement of a program never returns. -/
theorem begins_not_returned (before : List Turn) {text : String} {report : Report}
    {program : List (Stmt Link)} {fuel : Nat} {m : Moment}
    (hr : ((Session.start verbose limit).after h before).compiled text = (report, .ready program))
    (hb : Begins h fuel program ((Session.start verbose limit).after h before).store m) (v : Value)
    (s' : Store) : m.ends h ≠ .done (.completion (.returned v)) s' :=
  fun hd => runProgram_not_broken before hr fuel .strayReturn (hb.strayReturn hd)

/-- What the calls in some turns of a session give. -/
structure CallsReturn (h : Host) (session : Session) (turns : List Turn) : Prop where
  /-- A return is an exception that passes everything by up to the nearest call. -/
  raising : ∀ fuel, Raising.Agrees h fuel
  /-- Nothing of an activation comes after a return. -/
  last : ∀ r m, r.IsReturn → ¬Later h r m
  /-- A return that gives its value ends the call with it. -/
  ends : ∀ c args fuel depth s r w s', Inside h (.body c args fuel depth s) r → r.Returns h w s' →
    c.isInitializer = false → invoke h (fuel + 1) depth c args s = .done w s'
  /-- A call that ends gives what a return gives that it comes to, or nil. -/
  calls : ∀ c args fuel depth s v s', invoke h (fuel + 1) depth c args s = .done v s' →
    Unwinds h c args fuel depth s v s'
  /-- The call of an initializer gives its object. -/
  initializers : ∀ c args fuel depth s v s', Visited h session turns (.invoke c args fuel depth s) →
    c.isInitializer = true → invoke h fuel depth c args s = .done v s' →
    ∃ o, s.frames.getAt c.captured 0 Keyword.this.word = .ok (.object o) ∧ v = .object o
  /-- The call of a class makes an object of it. -/
  classes : ∀ k args fuel depth s v s', apply h fuel depth (.ofClass k) args s = .done v s' →
    v = .object ⟨s.objects.size, k⟩
  /-- What is called later makes another one. -/
  distinct : ∀ k k' args args' fuel fuel' depth depth' s s' s₁ s₁' v v',
    apply h fuel depth (.ofClass k) args s = .done v s' →
    Onward h { s with objects := s.objects.push .empty } s₁ →
    apply h fuel' depth' (.ofClass k') args' s₁ = .done v' s₁' → v.equal v' = false
  /-- A statement of a program returns nothing. -/
  statements : ∀ before turn later report program m v s', turns = before ++ turn :: later →
    (session.after h before).compiled turn.text = (report, .ready program) →
    Begins h turn.fuel program (session.after h before).store m →
    m.ends h ≠ .done (.completion (.returned v)) s'
  /-- It comes behind all that came before it, -/
  begins : ∀ before turn later report program m s₀, turns = before ++ turn :: later →
    (session.after h before).compiled turn.text = (report, .ready program) →
    Begins h turn.fuel program (session.after h before).store m →
    Onward h s₀ (session.after h before).store → Onward h s₀ m.store
  /-- and so do the turns that follow. -/
  passes : ∀ before later s₀, turns = before ++ later →
    Onward h s₀ (session.after h before).store → Onward h s₀ (session.after h turns).store

/-- **A call gives what its return gives, an initializer its object, a class a new one.** -/
theorem Session.calls_return (h : Host) (verbose : Bool) (limit : Option Int) (turns : List Turn) :
    CallsReturn h (.start verbose limit) turns where
  raising := Raising.raising_agrees h
  last _ _ hr := hr.last
  ends _ _ _ _ _ _ _ _ hin hr hinit := hr.ends_invoke hin hinit
  calls _ _ _ _ _ _ _ hd := unwinds_invoke hd
  initializers _ _ _ _ _ _ _ hm hinit hd := hm.initializer hinit hd
  classes _ _ _ _ _ _ _ hd := apply_class hd
  distinct _ _ _ _ _ _ _ _ _ _ _ _ _ _ hd hs hd' := apply_class_new hd hs hd'
  statements before _ _ _ _ _ v s' _ hr hb := begins_not_returned before hr hb v s'
  begins _ _ _ _ _ _ _ _ _ hb hs := hb.onward hs
  passes before later s₀ ht hs := by
    subst ht
    have hafter : (Session.start verbose limit).after h (before ++ later) =
        ((Session.start verbose limit).after h before).after h later := List.foldl_append
    rw [hafter]
    exact Session.after_onward later hs

end Sessions

end LoxKit
