import LoxKit.Proofs.Renaming.Operations

/-!
# Two runs side by side

A program and a renamed one run in step: from stores that differ by names, with as many steps, they
come to stores that do. The induction is on the steps, so it does not matter whether the runs end.

Headlines:
* `Parallel`: what the induction is about.
* **`runProgram_same`**: both runs print the same, and end in the same way.
-/

namespace LoxKit

open LoxKit.Action

variable {ρ : String → String} {h : Host} {fuel depth : Nat} {g flags : List Bool} {chain : Chain}
  {s s' : Store}

/-- Completions that differ by names. -/
inductive CompletionAlike (ρ : String → String) (g : List Bool) : Completion → Completion → Prop
  | carryOn : CompletionAlike ρ g .carryOn .carryOn
  | returned {v v' : Value} (hv : ValueAlike ρ g v v') :
      CompletionAlike ρ g (.returned v) (.returned v')

theorem CompletionAlike.value {c c' : Completion} (h : CompletionAlike ρ g c c') :
    ValueAlike ρ g c.value c'.value := by
  cases h with
  | carryOn => exact .nil
  | returned hv => exact hv

/-- A number of steps with which everything runs side by side. -/
structure Parallel (ρ : String → String) (h : Host) (fuel : Nat) : Prop where
  evaluate : ∀ {g flags depth chain s s' e}, Expr.Proper e → Alike ρ g s s' →
    FlagsOf g flags chain → Same ρ g (fun g' => ValueAlike ρ g')
      (evaluate h fuel depth chain e s) (evaluate h fuel depth chain (e.rename ρ flags) s')
  evaluateAll : ∀ {g flags depth chain s s' es}, (∀ e ∈ es, Expr.Proper e) → Alike ρ g s s' →
    FlagsOf g flags chain → Same ρ g (fun g' => List.Forall₂ (ValueAlike ρ g'))
      (evaluateAll h fuel depth chain es s)
      (evaluateAll h fuel depth chain (es.map (Expr.rename ρ flags)) s')
  apply : ∀ {g depth s s' f f' args args'}, ValueAlike ρ g f f' →
    List.Forall₂ (ValueAlike ρ g) args args' → Alike ρ g s s' →
    Same ρ g (fun g' => ValueAlike ρ g') (apply h fuel depth f args s)
      (apply h fuel depth f' args' s')
  invoke : ∀ {g depth s s' c c' args args'}, ClosureAlike ρ g c c' →
    List.Forall₂ (ValueAlike ρ g) args args' → Alike ρ g s s' →
    Same ρ g (fun g' => ValueAlike ρ g') (invoke h fuel depth c args s)
      (invoke h fuel depth c' args' s')
  execute : ∀ {g flags depth chain s s' st st'}, Renames ρ flags (.stmt st) (.stmt st') →
    Alike ρ g s s' → FlagsOf g flags chain → Same ρ g (fun g' => CompletionAlike ρ g')
      (execute h fuel depth chain st s) (execute h fuel depth chain st' s')
  executeAll : ∀ {g flags depth chain s s' sts sts'}, Renames ρ flags (.stmts sts) (.stmts sts') →
    Alike ρ g s s' → FlagsOf g flags chain → Same ρ g (fun g' => CompletionAlike ρ g')
      (executeAll h fuel depth chain sts s) (executeAll h fuel depth chain sts' s')
  repeatWhile : ∀ {g flags depth chain s s' condition body body'}, Expr.Proper condition →
    Renames ρ flags (.stmt body) (.stmt body') → Alike ρ g s s' → FlagsOf g flags chain →
    Same ρ g (fun g' => CompletionAlike ρ g') (repeatWhile h fuel depth chain condition body s)
      (repeatWhile h fuel depth chain (condition.rename ρ flags) body' s')

theorem parallel_zero : Parallel ρ h 0 where
  evaluate _ _ _ := by
    rw [LoxKit.evaluate, LoxKit.evaluate]
    exact .unfinished
  evaluateAll _ _ _ := by
    rw [LoxKit.evaluateAll, LoxKit.evaluateAll]
    exact .unfinished
  apply _ _ _ := by
    rw [LoxKit.apply, LoxKit.apply]
    exact .unfinished
  invoke _ _ _ := by
    rw [LoxKit.invoke, LoxKit.invoke]
    exact .unfinished
  execute _ _ _ := by
    rw [LoxKit.execute, LoxKit.execute]
    exact .unfinished
  executeAll _ _ _ := by
    rw [LoxKit.executeAll, LoxKit.executeAll]
    exact .unfinished
  repeatWhile _ _ _ _ := by
    rw [LoxKit.repeatWhile, LoxKit.repeatWhile]
    exact .unfinished

theorem forall₂_mono {g' : List Bool} (hg : g <+: g') {vs vs' : List Value}
    (h : List.Forall₂ (ValueAlike ρ g) vs vs') : List.Forall₂ (ValueAlike ρ g') vs vs' :=
  h.imp fun _ _ hv => hv.mono hg

/-! ## Expressions -/

/-- A method of the superclass, made for the receiver. -/
theorem super_same (hk : ∀ k : Keyword, ρ k.word = k.word) (hs : Alike ρ g s s')
    (hflags : FlagsOf g flags chain) (target : Reference Link) (method : Name) :
    Same ρ g (fun g' => ValueAlike ρ g')
      (evaluate h (fuel + 1) depth chain (.super target method) s)
      (evaluate h (fuel + 1) depth chain (.super target method) s') := by
  rw [evaluate, evaluate]
  cases target.link with
  | none => exact .broken _
  | some hops =>
    have habove := getAt_alike hs hflags hops Keyword.super.word
    have hreceiver := getAt_alike hs hflags (hops - 1) Keyword.this.word
    rw [changeIf_keyword hk] at habove hreceiver
    rcases habove with ⟨v, v', hv, hv', hva⟩ | ⟨fault, hf, hf'⟩
    · simp only [hv, hv']
      refine Same.bind (Q := fun g' => ValueAlike ρ g') (.of_done hs hva)
        fun g₁ a a' t t' hg ht ha => ?_
      rcases hreceiver with ⟨w, w', hw, hw', hwa⟩ | ⟨fault, hf, hf'⟩
      · simp only [hw, hw']
        refine Same.bind (Q := fun g' => ValueAlike ρ g') (.of_done ht (hwa.mono hg))
          fun g₂ b b' u u' hg' hu hb => ?_
        have ha' := ha.mono hg'
        cases ha' with
        | @ofClass k k' hclass =>
          have hmethod := hclass.findMethod? method.text
          cases hc : k.findMethod? method.text with
          | none =>
            rw [hc] at hmethod
            simp only [hc, optionRel_none hmethod]
            exact .failed _ _ hu.output
          | some c =>
            rw [hc] at hmethod
            obtain ⟨c', hc', hca⟩ := optionRel_some hmethod
            simp only [hc, hc']
            have hb' := hb
            cases hb with
            | object id _ =>
              exact (bindMethod_same hu hca hb').bind
                fun _ _ _ _ _ _ ht hq => .of_done ht (.closure hq)
            | _ => exact .broken _
        | _ => exact .broken _
      · simp only [hf, hf']
        exact .broken _
    · simp only [hf, hf']
      exact .broken _

theorem Parallel.evaluate_succ (hp : Parallel ρ h fuel) (hρ : Function.Injective ρ)
    (hk : ∀ k : Keyword, ρ k.word = k.word) {e : Expr Link} (he : e.Proper) (hs : Alike ρ g s s')
    (hflags : FlagsOf g flags chain) :
    Same ρ g (fun g' => ValueAlike ρ g') (LoxKit.evaluate h (fuel + 1) depth chain e s)
      (LoxKit.evaluate h (fuel + 1) depth chain (e.rename ρ flags) s') := by
  cases he with
  | literal value token =>
    rw [Expr.rename, LoxKit.evaluate, LoxKit.evaluate]
    refine .of_done hs ?_
    cases value with
    | nil => exact .nil
    | bool b => exact .bool b
    | number x => exact .number x
    | string s => exact .string s
  | grouping he =>
    rw [Expr.rename, LoxKit.evaluate, LoxKit.evaluate]
    exact hp.evaluate he hs hflags
  | unary op pos he =>
    rw [Expr.rename, LoxKit.evaluate, LoxKit.evaluate]
    exact (hp.evaluate he hs hflags).bind fun g₁ v v' t t' _ ht hv =>
      applyUnary_same ht pos.line op hv
  | binary op pos hl hr =>
    rw [Expr.rename, LoxKit.evaluate, LoxKit.evaluate]
    refine (hp.evaluate hl hs hflags).bind fun g₁ v v' t t' hg₁ ht hv => ?_
    refine (hp.evaluate hr ht (hflags.mono hg₁)).bind fun g₂ w w' u u' hg₂ hu hw => ?_
    exact applyBinary_same hu pos.line op (hv.mono hg₂) hw
  | logical op pos hl hr =>
    rw [Expr.rename, LoxKit.evaluate, LoxKit.evaluate]
    refine (hp.evaluate hl hs hflags).bind fun g₁ v v' t t' hg₁ ht hv => ?_
    refine Same.ite (Iff.of_eq (by rw [hv.decides])) (.of_done ht hv) ?_
    exact hp.evaluate hr ht (hflags.mono hg₁)
  | var _ =>
    rw [Expr.rename, LoxKit.evaluate, LoxKit.evaluate]
    exact follow_same hs hflags _
  | assign _ hv =>
    rw [Expr.rename, LoxKit.evaluate, LoxKit.evaluate]
    refine (hp.evaluate hv hs hflags).bind fun g₁ v v' t t' hg₁ ht hva => ?_
    refine (store_same hρ ht (hflags.mono hg₁) _ hva).bind fun g₂ _ _ u u' hg₂ hu _ => ?_
    exact .of_done hu (hva.mono hg₂)
  | call paren hc ha =>
    rw [Expr.rename, LoxKit.evaluate, LoxKit.evaluate]
    refine (hp.evaluate hc hs hflags).bind fun g₁ f f' t t' hg₁ ht hf => ?_
    refine (hp.evaluateAll ha ht (hflags.mono hg₁)).bind fun g₂ vs vs' u u' hg₂ hu hvs => ?_
    rw [hf.arity, hvs.length_eq]
    cases f.arity? with
    | none => exact .failed _ _ hu.output
    | some arity =>
      exact .ite Iff.rfl (.failed _ _ hu.output) (.ite Iff.rfl (.failed _ _ hu.output)
        (hp.apply (hf.mono hg₂) hvs hu))
  | get field ho =>
    rw [Expr.rename, LoxKit.evaluate, LoxKit.evaluate]
    refine (hp.evaluate ho hs hflags).bind fun g₁ v v' t t' hg₁ ht hv => ?_
    have hv' := hv
    cases hv with
    | object id _ => exact getProperty_same ht hv' field
    | _ => exact .failed _ _ ht.output
  | set field ho hval =>
    rw [Expr.rename, LoxKit.evaluate, LoxKit.evaluate]
    refine (hp.evaluate ho hs hflags).bind fun g₁ o o' t t' hg₁ ht hobj => ?_
    have hobj' := hobj
    cases hobj with
    | object id _ =>
      refine (hp.evaluate hval ht (hflags.mono hg₁)).bind fun g₂ v v' u u' hg₂ hu hv => ?_
      refine (setField_same hu (hobj'.mono hg₂) field.text hv).bind
        fun g₃ _ _ w w' hg₃ hw _ => ?_
      exact .of_done hw (hv.mono hg₃)
    | _ => exact .failed _ _ ht.output
  | this ht =>
    rw [Expr.rename, LoxKit.evaluate, LoxKit.evaluate]
    exact follow_this_same hk hs hflags ht
  | super method _ =>
    rw [Expr.rename]
    exact super_same hk hs hflags _ method

theorem Parallel.evaluateAll_succ (hp : Parallel ρ h fuel) {es : List (Expr Link)}
    (he : ∀ e ∈ es, e.Proper) (hs : Alike ρ g s s') (hflags : FlagsOf g flags chain) :
    Same ρ g (fun g' => List.Forall₂ (ValueAlike ρ g'))
      (LoxKit.evaluateAll h (fuel + 1) depth chain es s)
      (LoxKit.evaluateAll h (fuel + 1) depth chain (es.map (Expr.rename ρ flags)) s') := by
  cases es with
  | nil =>
    rw [List.map_nil, LoxKit.evaluateAll, LoxKit.evaluateAll]
    exact .of_done hs .nil
  | cons e es =>
    rw [List.forall_mem_cons] at he
    rw [List.map_cons, LoxKit.evaluateAll, LoxKit.evaluateAll]
    refine (hp.evaluate he.1 hs hflags).bind fun g₁ v v' t t' hg₁ ht hv => ?_
    refine (hp.evaluateAll he.2 ht (hflags.mono hg₁)).bind fun g₂ vs vs' u u' hg₂ hu hvs => ?_
    exact .of_done hu (.cons (hv.mono hg₂) hvs)

/-! ## Calls -/

theorem Parallel.apply_succ (hp : Parallel ρ h fuel) {f f' : Value} {args args' : List Value}
    (hf : ValueAlike ρ g f f') (ha : List.Forall₂ (ValueAlike ρ g) args args')
    (hs : Alike ρ g s s') :
    Same ρ g (fun g' => ValueAlike ρ g') (LoxKit.apply h (fuel + 1) depth f args s)
      (LoxKit.apply h (fuel + 1) depth f' args' s') := by
  cases hf with
  | closure hc =>
    rw [LoxKit.apply, LoxKit.apply]
    exact hp.invoke hc ha hs
  | @ofClass k k' hclass =>
    rw [LoxKit.apply, LoxKit.apply]
    refine (newObject_same hs hclass).bind fun g₁ o o' t t' hg₁ ht ho => ?_
    have hinit := hclass.findMethod? initName
    cases hc : k.findMethod? initName with
    | none =>
      rw [hc] at hinit
      rw [optionRel_none hinit]
      exact .of_done ht ho
    | some c =>
      rw [hc] at hinit
      obtain ⟨c', hc', hca⟩ := optionRel_some hinit
      rw [hc']
      refine (bindMethod_same ht (hca.mono hg₁) ho).bind fun g₂ d d' u u' hg₂ hu hd => ?_
      have ha₂ := forall₂_mono (hg₁.trans hg₂) ha
      refine (hp.invoke hd ha₂ hu).bind fun g₃ _ _ w w' hg₃ hw _ => ?_
      exact .of_done hw ((ho.mono hg₂).mono hg₃)
  | native n =>
    cases n
    rw [LoxKit.apply, LoxKit.apply]
    refine .of_done hs.tick ?_
    rw [hs.readings]
    exact .number _
  | nil | bool | number | string | object =>
    rw [LoxKit.apply, LoxKit.apply]
    · exact .of_done hs .nil
    all_goals simp

theorem Parallel.invoke_succ (hp : Parallel ρ h fuel) (hρ : Function.Injective ρ)
    (hk : ∀ k : Keyword, ρ k.word = k.word) {c c' : Closure} {args args' : List Value}
    (hc : ClosureAlike ρ g c c') (ha : List.Forall₂ (ValueAlike ρ g) args args')
    (hs : Alike ρ g s s') :
    Same ρ g (fun g' => ValueAlike ρ g') (LoxKit.invoke h (fuel + 1) depth c args s)
      (LoxKit.invoke h (fuel + 1) depth c' args' s') := by
  obtain ⟨-, hcap, hinit, hflags, hf⟩ := hc
  obtain ⟨id, f, captured, isInitializer⟩ := c
  obtain ⟨id', f', captured', isInitializer'⟩ := c'
  cases hcap
  cases hinit
  rw [LoxKit.invoke, LoxKit.invoke]
  cases hf with
  | @mk _ name params flag body body' hbody =>
    refine (newFrame_same hs flag (parameterFrame_alike hρ params ha)).bind
      fun g₁ frame frame' t t' hg₁ ht hframe => ?_
    obtain ⟨rfl, hframe⟩ := hframe
    have hflags₁ := hflags.mono hg₁
    refine (hp.executeAll hbody ht (.cons hframe hflags₁)).bind
      fun g₂ completion completion' u u' hg₂ hu hcompletion => ?_
    refine .ite Iff.rfl ?_ (.of_done hu hcompletion.value)
    have hreceiver := getAt_same hu (hflags₁.mono hg₂) 0 Keyword.this.word
    rwa [changeIf_keyword hk] at hreceiver

/-! ## Statements -/

/-- A class gets its methods and its name. -/
theorem nameClass_same (hρ : Function.Injective ρ) {name : Name} {above above' : Option ClassValue}
    {methods methods' : List (Function Link)} {methodFlags : List Bool} {methodChain : Chain}
    (hn : changeIf ρ (flags.getD 0 false) name.text = name.text)
    (habove : Option.Rel (ClassAlike ρ g) above above')
    (hm : List.Forall₂ (fun f f' => Renames ρ methodFlags (.method f) (.method f')) methods methods')
    (hs : Alike ρ g s s') (hflags : FlagsOf g flags chain)
    (hflags' : FlagsOf g methodFlags methodChain) :
    Same ρ g (fun g' => CompletionAlike ρ g')
      ((do
        let table ← newMethods methodChain methods .empty
        let id ← newId
        defineIn chain name.text (.ofClass (.mk id name.text above table))
        pure .carryOn : Action Completion) s)
      ((do
        let table ← newMethods methodChain methods' .empty
        let id ← newId
        defineIn chain name.text (.ofClass (.mk id name.text above' table))
        pure .carryOn : Action Completion) s') := by
  refine (newMethods_same hs hflags' hm fun _ => .none).bind
    fun g₁ table table' t t' hg₁ ht htable => ?_
  refine (newId_same ht).bind fun g₂ id id' u u' hg₂ hu hid => ?_
  subst hid
  have hflags₂ := (hflags.mono hg₁).mono hg₂
  have hclass : ClassAlike ρ g₂ (.mk id' name.text above table)
      (.mk id' name.text above' table') := by
    have htable₂ := fun key => optionRel_mono (fun _ _ hc => MethodAlike.mono hg₂ hc) (htable key)
    cases habove with
    | none => exact .root htable₂
    | some hk => exact .derived ((hk.mono hg₁).mono hg₂) htable₂
  have hdefine := defineIn_same hρ hu hflags₂ name.text (.ofClass hclass)
  rw [hn] at hdefine
  exact hdefine.bind fun g₃ _ _ w w' _ hw _ => .of_done hw .carryOn

theorem declareClass_same (hρ : Function.Injective ρ) {name : Name}
    {superclass : Option (Reference Link)} {methods methods' : List (Function Link)}
    (hn : changeIf ρ (flags.getD 0 false) name.text = name.text)
    (hm : List.Forall₂ (fun f f' => Renames ρ (if superclass.isSome then false :: flags else flags)
      (.method f) (.method f')) methods methods')
    (hs : Alike ρ g s s') (hflags : FlagsOf g flags chain) :
    Same ρ g (fun g' => CompletionAlike ρ g')
      (execute h (fuel + 1) depth chain (.classDecl name superclass methods) s)
      (execute h (fuel + 1) depth chain
        (.classDecl name (superclass.map (Reference.rename ρ flags)) methods') s') := by
  rw [execute, execute]
  cases superclass with
  | none =>
    refine Same.bind (Q := fun _ a b => a = none ∧ b = none) (.of_done hs ⟨rfl, rfl⟩)
      fun g₁ a b t t' hg₁ ht hab => ?_
    obtain ⟨rfl, rfl⟩ := hab
    have hflags₁ := hflags.mono hg₁
    have hdefine := defineIn_same hρ ht hflags₁ name.text .nil
    rw [hn] at hdefine
    refine hdefine.bind fun g₂ _ _ u u' hg₂ hu _ => ?_
    have hflags₂ := hflags₁.mono hg₂
    exact nameClass_same hρ hn .none hm hu hflags₂ hflags₂
  | some r =>
    refine (follow_same hs hflags r).bind fun g₁ v v' t t' hg₁ ht hv => ?_
    cases hv with
    | ofClass hk =>
      have hflags₁ := hflags.mono hg₁
      have hdefine := defineIn_same hρ ht hflags₁ name.text .nil
      rw [hn] at hdefine
      refine hdefine.bind fun g₂ _ _ u u' hg₂ hu _ => ?_
      have hflags₂ := hflags₁.mono hg₂
      have hk₂ := hk.mono hg₂
      refine (newFrame_same hu false (single_alike _ (.ofClass hk₂))).bind
        fun g₃ frame frame' w w' hg₃ hw hframe => ?_
      obtain ⟨rfl, hframe⟩ := hframe
      have hflags₃ := hflags₂.mono hg₃
      exact nameClass_same hρ hn (.some (hk₂.mono hg₃)) hm hw hflags₃ (.cons hframe hflags₃)
    | _ =>
      rw [show (r.rename ρ flags).name.pos = r.name.pos from Name.renameIf_pos _]
      exact .failed _ _ ht.output

theorem Parallel.execute_succ (hp : Parallel ρ h fuel) (hρ : Function.Injective ρ)
    {st st' : Stmt Link} (hst : Renames ρ flags (.stmt st) (.stmt st')) (hs : Alike ρ g s s')
    (hflags : FlagsOf g flags chain) :
    Same ρ g (fun g' => CompletionAlike ρ g') (LoxKit.execute h (fuel + 1) depth chain st s)
      (LoxKit.execute h (fuel + 1) depth chain st' s') := by
  cases hst with
  | expression he =>
    rw [LoxKit.execute, LoxKit.execute]
    exact (hp.evaluate he hs hflags).bind fun _ _ _ _ _ _ ht _ => .of_done ht .carryOn
  | print he =>
    rw [LoxKit.execute, LoxKit.execute]
    refine (hp.evaluate he hs hflags).bind fun g₁ v v' t t' hg₁ ht hv => ?_
    rw [hv.text]
    exact (printLine_same ht v.text).bind fun _ _ _ _ _ _ hu _ => .of_done hu .carryOn
  | @var _ name initializer he =>
    cases initializer with
    | none =>
      rw [Option.map_none, LoxKit.execute, LoxKit.execute, Name.renameIf_text]
      exact (defineIn_same hρ hs hflags name.text .nil).bind
        fun _ _ _ _ _ _ ht _ => .of_done ht .carryOn
    | some e =>
      rw [Option.map_some, LoxKit.execute, LoxKit.execute, Name.renameIf_text]
      refine (hp.evaluate (he e rfl) hs hflags).bind fun g₁ v v' t t' hg₁ ht hv => ?_
      exact (defineIn_same hρ ht (hflags.mono hg₁) name.text hv).bind
        fun _ _ _ _ _ _ hu _ => .of_done hu .carryOn
  | @block _ flag body body' hbody =>
    rw [LoxKit.execute, LoxKit.execute]
    refine (newFrame_same hs flag fun _ => .none).bind
      fun g₁ frame frame' t t' hg₁ ht hframe => ?_
    obtain ⟨rfl, hframe⟩ := hframe
    exact hp.executeAll hbody ht (.cons hframe (hflags.mono hg₁))
  | ifThen he hthen =>
    rw [LoxKit.execute, LoxKit.execute]
    refine (hp.evaluate he hs hflags).bind fun g₁ v v' t t' hg₁ ht hv => ?_
    exact .ite (Iff.of_eq (by rw [hv.truthy])) (hp.execute hthen ht (hflags.mono hg₁))
      (.of_done ht .carryOn)
  | ifElse he hthen helse =>
    rw [LoxKit.execute, LoxKit.execute]
    refine (hp.evaluate he hs hflags).bind fun g₁ v v' t t' hg₁ ht hv => ?_
    exact .ite (Iff.of_eq (by rw [hv.truthy])) (hp.execute hthen ht (hflags.mono hg₁))
      (hp.execute helse ht (hflags.mono hg₁))
  | whileDo he hbody =>
    rw [LoxKit.execute, LoxKit.execute]
    exact hp.repeatWhile he hbody hs hflags
  | @function _ f f' hn hf =>
    rw [LoxKit.execute, LoxKit.execute, hf.function_name]
    refine (newClosure_same hs hflags hf false).bind fun g₁ c c' t t' hg₁ ht hc => ?_
    have hdefine := defineIn_same hρ ht (hflags.mono hg₁) f.name.text (.closure hc)
    rw [hn] at hdefine
    exact hdefine.bind fun _ _ _ _ _ _ hu _ => .of_done hu .carryOn
  | @giveBack _ keyword value he =>
    cases value with
    | none =>
      rw [Option.map_none, LoxKit.execute, LoxKit.execute]
      exact .of_done hs (.returned .nil)
    | some e =>
      rw [Option.map_some, LoxKit.execute, LoxKit.execute]
      exact (hp.evaluate (he e rfl) hs hflags).bind
        fun _ _ _ _ _ _ ht hv => .of_done ht (.returned hv)
  | @classDecl _ name superclass methods methods' hn hlen hm =>
    refine declareClass_same hρ hn (List.forall₂_iff_get.mpr ⟨hlen.symm, fun i hi hi' => ?_⟩) hs
      hflags
    exact hm i _ _ (List.getElem?_eq_getElem hi) (List.getElem?_eq_getElem hi')

theorem Parallel.executeAll_succ (hp : Parallel ρ h fuel) {sts sts' : List (Stmt Link)}
    (hsts : Renames ρ flags (.stmts sts) (.stmts sts')) (hs : Alike ρ g s s')
    (hflags : FlagsOf g flags chain) :
    Same ρ g (fun g' => CompletionAlike ρ g') (LoxKit.executeAll h (fuel + 1) depth chain sts s)
      (LoxKit.executeAll h (fuel + 1) depth chain sts' s') := by
  cases hsts with
  | nil =>
    rw [LoxKit.executeAll, LoxKit.executeAll]
    exact .of_done hs .carryOn
  | cons hst hsts =>
    rw [LoxKit.executeAll, LoxKit.executeAll]
    refine (hp.execute hst hs hflags).bind fun g₁ c c' t t' hg₁ ht hc => ?_
    cases hc with
    | carryOn => exact hp.executeAll hsts ht (hflags.mono hg₁)
    | returned hv => exact .of_done ht (.returned hv)

theorem Parallel.repeatWhile_succ (hp : Parallel ρ h fuel) {condition : Expr Link}
    {body body' : Stmt Link} (he : condition.Proper)
    (hbody : Renames ρ flags (.stmt body) (.stmt body')) (hs : Alike ρ g s s')
    (hflags : FlagsOf g flags chain) :
    Same ρ g (fun g' => CompletionAlike ρ g')
      (LoxKit.repeatWhile h (fuel + 1) depth chain condition body s)
      (LoxKit.repeatWhile h (fuel + 1) depth chain (condition.rename ρ flags) body' s') := by
  rw [LoxKit.repeatWhile, LoxKit.repeatWhile]
  refine (hp.evaluate he hs hflags).bind fun g₁ v v' t t' hg₁ ht hv => ?_
  refine .ite (Iff.of_eq (by rw [hv.truthy])) ?_ (.of_done ht .carryOn)
  refine (hp.execute hbody ht (hflags.mono hg₁)).bind fun g₂ c c' u u' hg₂ hu hc => ?_
  cases hc with
  | carryOn => exact hp.repeatWhile he hbody hu ((hflags.mono hg₁).mono hg₂)
  | returned hv => exact .of_done hu (.returned hv)

/-! ## Runs -/

theorem parallel (hρ : Function.Injective ρ) (hk : ∀ k : Keyword, ρ k.word = k.word) (h : Host)
    (fuel : Nat) : Parallel ρ h fuel := by
  induction fuel with
  | zero => exact parallel_zero
  | succ fuel ih =>
    exact ⟨ih.evaluate_succ hρ hk, ih.evaluateAll_succ, ih.apply_succ, ih.invoke_succ hρ hk,
      ih.execute_succ hρ, ih.executeAll_succ, ih.repeatWhile_succ⟩

/-- **Both runs print the same, and end in the same way.** -/
theorem runProgram_same (hρ : Function.Injective ρ) (hk : ∀ k : Keyword, ρ k.word = k.word)
    (h : Host) (fuel : Nat) {program program' : List (Stmt Link)}
    (hp : Renames ρ [] (.stmts program) (.stmts program')) (hs : Alike ρ g s s')
    (hg : g[0]? = some false) :
    Same ρ g (fun _ _ _ => True) (runProgram h fuel program s) (runProgram h fuel program' s') := by
  induction program generalizing program' g s s' with
  | nil =>
    cases hp
    rw [runProgram, runProgram]
    exact .of_done hs trivial
  | cons st program ih =>
    cases hp with
    | cons hst hsts =>
      rw [runProgram, runProgram]
      have hsame : Same ρ g (fun g' => CompletionAlike ρ g') (execute h fuel 0 globals st s)
          (execute h fuel 0 globals _ s') := (parallel hρ hk h fuel).execute hst hs (.globals hg)
      generalize execute h fuel 0 globals st s = o at hsame
      generalize execute h fuel 0 globals _ s' = o' at hsame
      cases hsame with
      | done hg' ht hc =>
        cases hc with
        | carryOn => exact (ih hsts ht (getElem?_of_extension hg' hg)).earlier hg'
        | returned _ => exact .broken _
      | failed error line ho => exact .failed error line ho
      | broken breakage => exact .broken breakage
      | unfinished => exact .unfinished

end LoxKit
