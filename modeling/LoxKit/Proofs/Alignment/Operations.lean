import LoxKit.Proofs.Alignment.Twins
import LoxKit.Proofs.Renaming.Operations

/-!
# Operations on twins

One lemma for each operation that a run is made of: from stores that are twins it comes to twins,
with values that are twins. Frames that are made on both sides become partners.

Headlines:
* `InStep.bind`: two actions and the two behind them.
* `Twins.push`, `Twins.push_left`, `Twins.push_right`: frames that are made on both sides or on one.
* `Aligned.follow`, `Aligned.store`: the links of a name lead to the same variable.
-/

namespace LoxKit

open LoxKit.Action

variable {α β γ δ : Type} {P P' : Pairing} {s s' : Store}

/-! ## Outcomes -/

/-- Outcomes in step: they end in the same way and leave twins, whose partners are those from the
beginning and others. `Q` relates the values. -/
inductive InStep (P : Pairing) (Q : Pairing → α → β → Prop) : Outcome α → Outcome β → Prop
  | done {P' : Pairing} {a : α} {b : β} {s s' : Store} (hP : P ≤ P') (hs : Twins P' s s')
      (hq : Q P' a b) : InStep P Q (.done a s) (.done b s')
  | failed {P' : Pairing} {s s' : Store} (error : RuntimeError) (line : Nat) (hP : P ≤ P')
      (hs : Twins P' s s') : InStep P Q (.failed error line s) (.failed error line s')
  | broken (breakage : Breakage) : InStep P Q (.broken breakage) (.broken breakage)
  | unfinished : InStep P Q .unfinished .unfinished

section InStep

variable {Q : Pairing → α → β → Prop} {R : Pairing → γ → δ → Prop}

theorem InStep.of_done (hs : Twins P s s') {a : α} {b : β} (hq : Q P a b) :
    InStep P Q (.done a s) (.done b s') :=
  .done (le_refl P) hs hq

theorem InStep.of_failed (hs : Twins P s s') (error : RuntimeError) (line : Nat) :
    InStep P Q (.failed error line s) (.failed error line s') :=
  .failed error line (le_refl P) hs

theorem InStep.earlier (hP : P ≤ P') {o : Outcome α} {o' : Outcome β} (h : InStep P' Q o o') :
    InStep P Q o o' := by
  cases h with
  | done hP' hs hq => exact .done (le_trans hP hP') hs hq
  | failed error line hP' hs => exact .failed error line (le_trans hP hP') hs
  | broken breakage => exact .broken breakage
  | unfinished => exact .unfinished

theorem InStep.bind {m : Action α} {m' : Action β} {f : α → Action γ} {f' : β → Action δ}
    (hm : InStep P Q (m s) (m' s'))
    (hf : ∀ P' a b t t', P ≤ P' → Twins P' t t' → Q P' a b → InStep P' R (f a t) (f' b t')) :
    InStep P R ((m >>= f) s) ((m' >>= f') s') := by
  show InStep P R (Action.bind m f s) (Action.bind m' f' s')
  rw [Action.bind, Action.bind]
  generalize m s = o at hm
  generalize m' s' = o' at hm
  cases hm with
  | done hP hs hq => exact (hf _ _ _ _ _ hP hs hq).earlier hP
  | failed error line hP hs => exact .failed error line hP hs
  | broken breakage => exact .broken breakage
  | unfinished => exact .unfinished

theorem InStep.ite {c c' : Prop} [Decidable c] [Decidable c'] {m n : Action α} {m' n' : Action β}
    (hc : c' ↔ c) (hm : InStep P Q (m s) (m' s')) (hn : InStep P Q (n s) (n' s')) :
    InStep P Q ((if c then m else n) s) ((if c' then m' else n') s') := by
  by_cases h : c
  · rw [if_pos h, if_pos (hc.mpr h)]
    exact hm
  · rw [if_neg h, if_neg fun h' => h (hc.mp h')]
    exact hn

end InStep

/-! ## Frames -/

section Frames

variable {v v' : Value} {b b' : Bindings Value}

/-- Frames that are made on both sides become partners. -/
theorem Twins.push (hs : Twins P s s')
    (hb : ∀ name, Option.Rel (ValueTwin P) (b.get? name) (b'.get? name)) :
    Twins (P.add s.frames.size s'.frames.size) { s with frames := s.frames.push b }
      { s' with frames := s'.frames.push b' } := by
  have hmono : ∀ v v', ValueTwin P v v' → ValueTwin (P.add s.frames.size s'.frames.size) v v' :=
    fun _ _ h => h.mono (P.le_add _ _)
  have hlt : ∀ i j, P i j → i < s.frames.size ∧ j < s'.frames.size := hs.made
  refine ⟨?_, ?_, ?_, ?_, hs.objects, fun id name => optionRel_mono hmono (hs.fields id name),
    hs.fresh, hs.readings, hs.output⟩
  · rintro i j (h | ⟨rfl, rfl⟩) <;> rw [Frames.size_push, Frames.size_push]
    · exact ⟨Nat.lt_succ_of_lt (hlt i j h).1, Nat.lt_succ_of_lt (hlt i j h).2⟩
    · exact ⟨Nat.lt_succ_self _, Nat.lt_succ_self _⟩
  · rintro i j j' (h | ⟨rfl, rfl⟩) (h' | ⟨hi, rfl⟩)
    · exact hs.unique i j j' h h'
    · exact absurd (hi ▸ (hlt i j h).1) (lt_irrefl _)
    · exact absurd (hlt _ j' h').1 (lt_irrefl _)
    · rfl
  · rintro i i' j (h | ⟨rfl, rfl⟩) (h' | ⟨rfl, hj⟩)
    · exact hs.unique' i i' j h h'
    · exact absurd (hj ▸ (hlt i j h).2) (lt_irrefl _)
    · exact absurd (hlt i' _ h').2 (lt_irrefl _)
    · rfl
  · rintro i j (h | ⟨rfl, rfl⟩) name <;> rw [Frames.read_push, Frames.read_push]
    · rw [if_neg (Nat.ne_of_lt (hlt i j h).1), if_neg (Nat.ne_of_lt (hlt i j h).2)]
      exact optionRel_mono hmono (hs.frames i j h name)
    · rw [if_pos rfl, if_pos rfl]
      exact optionRel_mono hmono (hb name)

/-- A frame that is made on the left has no partner. -/
theorem Twins.push_left (hs : Twins P s s') (b : Bindings Value) :
    Twins P { s with frames := s.frames.push b } s' := by
  refine ⟨fun i j h => ?_, hs.unique, hs.unique', fun i j h name => ?_, hs.objects, hs.fields,
    hs.fresh, hs.readings, hs.output⟩
  · rw [Frames.size_push]
    exact ⟨Nat.lt_succ_of_lt (hs.made i j h).1, (hs.made i j h).2⟩
  · rw [Frames.read_push, if_neg (Nat.ne_of_lt (hs.made i j h).1)]
    exact hs.frames i j h name

/-- Nor has one that is made on the right. -/
theorem Twins.push_right (hs : Twins P s s') (b : Bindings Value) :
    Twins P s { s' with frames := s'.frames.push b } := by
  refine ⟨fun i j h => ?_, hs.unique, hs.unique', fun i j h name => ?_, hs.objects, hs.fields,
    hs.fresh, hs.readings, hs.output⟩
  · rw [Frames.size_push]
    exact ⟨(hs.made i j h).1, Nat.lt_succ_of_lt (hs.made i j h).2⟩
  · rw [Frames.read_push, if_neg (Nat.ne_of_lt (hs.made i j h).2)]
    exact hs.frames i j h name

theorem newFrame_inStep (hs : Twins P s s')
    (hb : ∀ name, Option.Rel (ValueTwin P) (b.get? name) (b'.get? name)) :
    InStep P (fun P' i j => P' i j) (newFrame b s) (newFrame b' s') :=
  .done (P.le_add _ _) (hs.push hb) (P.add_self _ _)

/-- Frames that bind one name. -/
theorem single_twins (w : String) (hv : ValueTwin P v v') (name : String) :
    Option.Rel (ValueTwin P) ((Bindings.empty.set w v).get? name)
      ((Bindings.empty.set w v').get? name) := by
  rw [Bindings.get?_set, Bindings.get?_set]
  split
  · exact .some hv
  · exact .none

/-- A name gets a value in partners. -/
theorem Twins.define (hs : Twins P s s') {i j : FrameId} (h : P i j) (name : String)
    (hv : ValueTwin P v v') : Twins P { s with frames := s.frames.define i name v }
      { s' with frames := s'.frames.define j name v' } := by
  refine ⟨fun a b hab => ?_, hs.unique, hs.unique', fun a b hab key => ?_, hs.objects, hs.fields,
    hs.fresh, hs.readings, hs.output⟩
  · rw [Frames.size_define, Frames.size_define]
    exact hs.made a b hab
  · rw [Frames.read_define _ (hs.made i j h).1, Frames.read_define _ (hs.made i j h).2]
    have hiff : a = i ↔ b = j :=
      ⟨fun ha => hs.unique i b j (ha ▸ hab) h, fun hb => hs.unique' a i j (hb ▸ hab) h⟩
    by_cases hkey : a = i ∧ key = name
    · rw [if_pos hkey, if_pos ⟨hiff.mp hkey.1, hkey.2⟩]
      exact .some hv
    · rw [if_neg hkey, if_neg fun hk => hkey ⟨hiff.mpr hk.1, hk.2⟩]
      exact hs.frames a b hab key

end Frames

/-! ## References -/

section References

variable {scopes scopes' : Scopes} {chain chain' : Chain} {v v' : Value}

theorem Flush.defineIn (ha : Flush P scopes chain scopes' chain') (hs : Twins P s s')
    (name : String) (hv : ValueTwin P v v') :
    InStep P (fun _ _ _ => True) (defineIn chain name v s) (defineIn chain' name v' s') := by
  obtain ⟨i, j, _, _, rfl, rfl, h⟩ := ha.heads
  exact .of_done (hs.define h name hv) trivial

/-- Links that lead to partners find twins, or make the same mistake. -/
theorem getAt_twins {d d' : Nat} (hl : Leads P chain chain' (some d) (some d')) (hs : Twins P s s')
    (name : String) :
    (∃ v v', s.frames.getAt chain d name = .ok v ∧ s'.frames.getAt chain' d' name = .ok v' ∧
      ValueTwin P v v') ∨
    ∃ fault, s.frames.getAt chain d name = .error fault ∧
      s'.frames.getAt chain' d' name = .error fault := by
  cases hl with
  | @some _ _ i j hi hj h =>
    unfold Frames.getAt
    rw [hi, hj]
    have hread := hs.frames i j h name
    cases hv : s.frames.read i name with
    | none =>
      rw [hv] at hread
      exact Or.inr ⟨.unbound, by simp only [hv], by simp only [optionRel_none hread]⟩
    | some v =>
      rw [hv] at hread
      obtain ⟨v', hv', hva⟩ := optionRel_some hread
      exact Or.inl ⟨v, v', by simp only [hv], by simp only [hv'], hva⟩

theorem getAt_inStep {d d' : Nat} (hl : Leads P chain chain' (some d) (some d')) (hs : Twins P s s')
    (name : String) : InStep P (fun P' => ValueTwin P') (ofAccess (s.frames.getAt chain d name) s)
      (ofAccess (s'.frames.getAt chain' d' name) s') := by
  rcases getAt_twins hl hs name with ⟨v, v', hv, hv', hva⟩ | ⟨fault, hf, hf'⟩
  · rw [hv, hv']
    exact .of_done hs hva
  · rw [hf, hf']
    exact .broken _

/-- The links of a name lead to the same variable. -/
theorem Aligned.follow (ha : Aligned P scopes chain scopes' chain') (hs : Twins P s s')
    {link link' : Link} (hl : Leads P chain chain' link link') (name : Name) :
    InStep P (fun P' => ValueTwin P') (follow chain ⟨name, link⟩ s)
      (follow chain' ⟨name, link'⟩ s') := by
  unfold LoxKit.Action.follow
  cases hl with
  | some hi hj h => exact getAt_inStep (.some hi hj h) hs name.text
  | none =>
    simp only [get?_globals]
    have hread := hs.frames 0 0 ha.globals_paired name.text
    cases hv : s.frames.read 0 name.text with
    | none =>
      rw [hv] at hread
      rw [optionRel_none hread]
      exact .of_failed hs _ _
    | some v =>
      rw [hv] at hread
      obtain ⟨v', hv', hva⟩ := optionRel_some hread
      rw [hv']
      exact .of_done hs hva

/-- The links of a name change the same variable. -/
theorem Aligned.store (ha : Aligned P scopes chain scopes' chain') (hs : Twins P s s')
    {link link' : Link} (hl : Leads P chain chain' link link') (name : Name)
    (hv : ValueTwin P v v') :
    InStep P (fun _ _ _ => True) (store chain ⟨name, link⟩ v s) (store chain' ⟨name, link'⟩ v' s') := by
  unfold LoxKit.Action.store
  cases hl with
  | some hi hj h =>
    simp only [hi, hj]
    exact .of_done (hs.define h name.text hv) trivial
  | none =>
    simp only [holder?_globals]
    have hread := hs.frames 0 0 ha.globals_paired name.text
    cases hw : s.frames.read 0 name.text with
    | none =>
      rw [hw] at hread
      rw [optionRel_none hread]
      exact .of_failed hs _ _
    | some w =>
      rw [hw] at hread
      obtain ⟨w', hw', -⟩ := optionRel_some hread
      rw [hw']
      exact .of_done (hs.define ha.globals_paired name.text hv) trivial

end References

/-! ## Functions, classes and objects -/

section Objects

variable {around : Surroundings} {scopes scopes' : Scopes} {names : List (List String)}
  {chain chain' : Chain} {o o' : Object} {v v' : Value}

theorem Twins.count (hs : Twins P s s') :
    Twins P { s with fresh := s.fresh + 1 } { s' with fresh := s'.fresh + 1 } :=
  ⟨hs.made, hs.unique, hs.unique', hs.frames, hs.objects, hs.fields, congrArg (· + 1) hs.fresh,
    hs.readings, hs.output⟩

theorem Twins.tick (hs : Twins P s s') :
    Twins P { s with readings := s.readings + 1 } { s' with readings := s'.readings + 1 } :=
  ⟨hs.made, hs.unique, hs.unique', hs.frames, hs.objects, hs.fields, hs.fresh,
    congrArg (· + 1) hs.readings, hs.output⟩

theorem newClosure_inStep (hs : Twins P s s') (ha : Flush P scopes chain scopes' chain')
    {f : Function Unit} (hr : Regular ⟨around, scopes, .function f⟩ names) (isInitializer : Bool) :
    InStep P (fun P' => ClosureTwin P')
      (newClosure (linkFunction around scopes f).tree chain isInitializer s)
      (newClosure (linkFunction around scopes' f).tree chain' isInitializer s') :=
  .of_done hs.count ⟨hs.fresh, rfl, hr, rfl, rfl, ha⟩

theorem newId_inStep (hs : Twins P s s') :
    InStep P (fun _ id id' => id' = id) (newId s) (newId s') :=
  .of_done hs.count hs.fresh

theorem Twins.addObject (hs : Twins P s s') :
    Twins P { s with objects := s.objects.push .empty }
      { s' with objects := s'.objects.push .empty } := by
  refine ⟨hs.made, hs.unique, hs.unique', hs.frames, ?_, fun id name => ?_, hs.fresh, hs.readings,
    hs.output⟩
  · rw [Array.size_push, Array.size_push, hs.objects]
  · have hold := hs.fields id name
    simp only [Array.getD_eq_getD_getElem?, Array.getElem?_push, hs.objects] at hold ⊢
    split
    · exact .none
    · exact hold

theorem newObject_inStep (hs : Twins P s s') {k k' : ClassValue} (hk : ClassTwin P k k') :
    InStep P (fun P' o o' => ValueTwin P' (.object o) (.object o')) (newObject k s)
      (newObject k' s') := by
  refine .of_done hs.addObject ?_
  rw [hs.objects]
  exact .object _ hk

/-- A method is made for an object. -/
theorem bindMethod_inStep (hs : Twins P s s') {c c' : Closure} (hc : MethodTwin P c c')
    (ho : ValueTwin P (.object o) (.object o')) :
    InStep P (fun P' => ClosureTwin P') (bindMethod c o s) (bindMethod c' o' s') := by
  obtain ⟨hinit, hr, hf, hf', ha⟩ := hc
  unfold bindMethod
  rw [hinit, hf, hf']
  refine (newFrame_inStep hs (single_twins _ ho)).bind fun P' i j t t' hP ht h => ?_
  exact newClosure_inStep ht (.both h (ha.mono hP)) hr.bind _

/-- A property of an object. -/
theorem getProperty_inStep (hs : Twins P s s') (ho : ValueTwin P (.object o) (.object o'))
    (name : Name) :
    InStep P (fun P' => ValueTwin P') (getProperty o name s) (getProperty o' name s') := by
  have ho' := ho
  cases ho with
  | @object k k' id hk =>
    have hfield := hs.fields id name.text
    unfold getProperty fields
    cases hv : (s.objects.getD id .empty).get? name.text with
    | some v =>
      rw [hv] at hfield
      obtain ⟨v', hv', hva⟩ := optionRel_some hfield
      simp only [hv']
      exact .of_done hs hva
    | none =>
      rw [hv] at hfield
      simp only [optionRel_none hfield]
      have hmethod := hk.findMethod? name.text
      cases hc : k.findMethod? name.text with
      | none =>
        rw [hc] at hmethod
        simp only [optionRel_none hmethod]
        exact .of_failed hs _ _
      | some c =>
        rw [hc] at hmethod
        obtain ⟨c', hc', hca⟩ := optionRel_some hmethod
        simp only [hc']
        exact (bindMethod_inStep hs hca ho').bind
          fun _ _ _ _ _ _ ht hq => .of_done ht (.closure hq)

theorem Twins.setField (hs : Twins P s s') (id : Nat) (name : String) (hv : ValueTwin P v v') :
    Twins P { s with objects := s.objects.modify id fun b => b.set name v }
      { s' with objects := s'.objects.modify id fun b => b.set name v' } := by
  refine ⟨hs.made, hs.unique, hs.unique', hs.frames, ?_, fun other key => ?_, hs.fresh, hs.readings,
    hs.output⟩
  · rw [Array.size_modify, Array.size_modify, hs.objects]
  · have hold := hs.fields other key
    simp only [Array.getD_eq_getD_getElem?, Array.getElem?_modify] at hold ⊢
    by_cases hid : id = other
    · rw [if_pos hid, if_pos hid]
      by_cases hlt : other < s.objects.size
      · have hlt' : other < s'.objects.size := by rwa [hs.objects]
        rw [Array.getElem?_eq_getElem hlt, Array.getElem?_eq_getElem hlt'] at hold ⊢
        simp only [Option.map_some, Option.getD_some, Bindings.get?_set] at hold ⊢
        split
        · exact .some hv
        · exact hold
      · have hge' : ¬other < s'.objects.size := by rwa [hs.objects]
        rw [Array.getElem?_eq_none (Nat.le_of_not_lt hlt),
          Array.getElem?_eq_none (Nat.le_of_not_lt hge')]
        exact .none
    · rw [if_neg hid, if_neg hid]
      exact hold

theorem setField_inStep (hs : Twins P s s') (ho : ValueTwin P (.object o) (.object o'))
    (name : String) (hv : ValueTwin P v v') :
    InStep P (fun _ _ _ => True) (setField o name v s) (setField o' name v' s') := by
  cases ho with
  | object id hk => exact .of_done (hs.setField id name hv) trivial

/-- The methods of a class. -/
theorem newMethods_inStep (ha : Aligned P scopes chain scopes' chain')
    (aroundOf : Function Unit → Surroundings) {fs : List (Function Unit)}
    (hr : ∀ f ∈ fs, Regular ⟨aroundOf f, scopes, .method f⟩ names) (hs : Twins P s s')
    {methods methods' : Bindings Closure}
    (hm : ∀ key, Option.Rel (MethodTwin P) (methods.get? key) (methods'.get? key)) :
    InStep P (fun P' table table' =>
        ∀ key, Option.Rel (MethodTwin P') (table.get? key) (table'.get? key))
      (newMethods chain (fs.map fun f =>
        (linkFunction (aroundOf f) (.single Keyword.this.word :: scopes) f).tree) methods s)
      (newMethods chain' (fs.map fun f =>
        (linkFunction (aroundOf f) (.single Keyword.this.word :: scopes') f).tree) methods' s') := by
  induction fs generalizing methods methods' s s' with
  | nil => exact .of_done hs hm
  | cons f fs ih =>
    rw [List.forall_mem_cons] at hr
    rw [List.map_cons, List.map_cons, newMethods, newMethods, linkFunction_name, linkFunction_name]
    refine InStep.bind (Q := fun P' c c' => P' = P ∧ MethodTwin P c c')
      (.of_done hs.count ⟨rfl, rfl, hr.1, rfl, rfl, ha⟩) fun P' c c' t t' _ ht hq => ?_
    obtain ⟨rfl, hc⟩ := hq
    refine ih hr.2 ht fun key => ?_
    rw [Bindings.get?_set, Bindings.get?_set]
    split
    · exact .some hc
    · exact hm key

/-- The frame of a call. -/
theorem parameterFrame_twins (params : List Name) {args args' : List Value}
    (hargs : List.Forall₂ (ValueTwin P) args args') (name : String) :
    Option.Rel (ValueTwin P) ((parameterFrame params args).get? name)
      ((parameterFrame params args').get? name) := by
  have hgeneral : ∀ b b' : Bindings Value,
      (∀ key, Option.Rel (ValueTwin P) (b.get? key) (b'.get? key)) →
      Option.Rel (ValueTwin P)
        (((params.zip args).foldl (fun b pair => b.set pair.1.text pair.2) b).get? name)
        (((params.zip args').foldl (fun b pair => b.set pair.1.text pair.2) b').get? name) := by
    induction hargs generalizing params with
    | nil =>
      intro b b' hb
      rw [List.zip_nil_right]
      exact hb name
    | @cons v v' args args' hv _ ih =>
      intro b b' hb
      cases params with
      | nil => exact hb name
      | cons p params =>
        refine ih params _ _ fun key => ?_
        show Option.Rel (ValueTwin P) ((b.set p.text v).get? key) ((b'.set p.text v').get? key)
        rw [Bindings.get?_set, Bindings.get?_set]
        split
        · exact .some hv
        · exact hb key
  exact hgeneral .empty .empty fun _ => .none

end Objects

/-! ## Values -/

section Values

variable {v v' w w' : Value}

theorem Twins.print (hs : Twins P s s') (line : String) :
    Twins P { s with output := s.output ++ line ++ "\n" }
      { s' with output := s'.output ++ line ++ "\n" } :=
  ⟨hs.made, hs.unique, hs.unique', hs.frames, hs.objects, hs.fields, hs.fresh, hs.readings,
    congrArg (· ++ line ++ "\n") hs.output⟩

theorem printLine_inStep (hs : Twins P s s') (line : String) :
    InStep P (fun _ _ _ => True) (printLine line s) (printLine line s') :=
  .of_done (hs.print line) trivial

theorem applyUnary_inStep (hs : Twins P s s') (line : Nat) (op : UnaryOp) (hv : ValueTwin P v v') :
    InStep P (fun P' => ValueTwin P') (ofOperator line (applyUnary op v) s)
      (ofOperator line (applyUnary op v') s') := by
  cases op with
  | not =>
    rw [applyUnary, applyUnary, hv.truthy]
    exact .of_done hs (.bool _)
  | negate =>
    cases hv with
    | number x => exact .of_done hs (.number _)
    | nil | bool | string | closure | native | ofClass | object => exact .of_failed hs _ _

theorem numeric_twin (op : BinaryOp) (x y : Float) :
    ValueTwin P (numeric op x y) (numeric op x y) := by
  cases op with
  | equal | notEqual | greater | greaterEqual | less | lessEqual => exact .bool _
  | minus | plus | divide | times => exact .number _

theorem applyBinary_inStep (hs : Twins P s s') (line : Nat) (op : BinaryOp)
    (hv : ValueTwin P v v') (hw : ValueTwin P w w') :
    InStep P (fun P' => ValueTwin P') (ofOperator line (applyBinary op v w) s)
      (ofOperator line (applyBinary op v' w') s') := by
  cases op with
  | equal | notEqual =>
    rw [applyBinary, applyBinary, hv.equal hw]
    exact .of_done hs (.bool _)
  | plus =>
    cases hv with
    | number x =>
      cases hw with
      | number y => exact .of_done hs (.number _)
      | _ => exact .of_failed hs _ _
    | string x =>
      cases hw with
      | string y => exact .of_done hs (.string _)
      | _ => exact .of_failed hs _ _
    | _ => exact .of_failed hs _ _
  | greater | greaterEqual | less | lessEqual | minus | divide | times =>
    cases hv with
    | number x =>
      cases hw with
      | number y => exact .of_done hs (numeric_twin _ x y)
      | _ => exact .of_failed hs _ _
    | _ => exact .of_failed hs _ _

end Values

end LoxKit
