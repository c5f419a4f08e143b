import LoxKit.Proofs.Machine.Effects
import LoxKit.Proofs.Renaming.Alike

/-!
# Operations on stores that differ by names

One lemma for each operation that a run is made of: from stores that differ by names it comes to
stores that do, with values that do. New frames get a flag; all others keep theirs.

Headlines:
* `Same.bind`: two actions and the two behind them.
* `Alike.push`, `Alike.define`: new frames and new values.
* `follow_same`, `store_same`: a renamed reference leads to the same variable.
-/

namespace LoxKit

open LoxKit.Action

variable {α β γ δ : Type} {ρ : String → String} {g : List Bool} {s s' : Store}

/-! ## Outcomes -/

/-- Outcomes that differ by names. The flags of the frames at the end go on from those at the
beginning, and `Q` relates the values. -/
inductive Same (ρ : String → String) (g : List Bool) (Q : List Bool → α → β → Prop) :
    Outcome α → Outcome β → Prop
  | done {g' : List Bool} {a : α} {b : β} {s s' : Store} (hg : g <+: g') (hs : Alike ρ g' s s')
      (hq : Q g' a b) : Same ρ g Q (.done a s) (.done b s')
  | failed {s s' : Store} (error : RuntimeError) (line : Nat) (ho : s'.output = s.output) :
      Same ρ g Q (.failed error line s) (.failed error line s')
  | broken (breakage : Breakage) : Same ρ g Q (.broken breakage) (.broken breakage)
  | unfinished : Same ρ g Q .unfinished .unfinished

section Same

variable {g' : List Bool} {Q : List Bool → α → β → Prop} {R : List Bool → γ → δ → Prop}

theorem Same.of_done (hs : Alike ρ g s s') {a : α} {b : β} (hq : Q g a b) :
    Same ρ g Q (.done a s) (.done b s') :=
  .done (List.prefix_refl g) hs hq

theorem Same.earlier (hg : g <+: g') {o : Outcome α} {o' : Outcome β} (h : Same ρ g' Q o o') :
    Same ρ g Q o o' := by
  cases h with
  | done hg' hs hq => exact .done (hg.trans hg') hs hq
  | failed error line ho => exact .failed error line ho
  | broken breakage => exact .broken breakage
  | unfinished => exact .unfinished

theorem Same.bind {m : Action α} {m' : Action β} {f : α → Action γ} {f' : β → Action δ}
    (hm : Same ρ g Q (m s) (m' s'))
    (hf : ∀ g' a b t t', g <+: g' → Alike ρ g' t t' → Q g' a b →
      Same ρ g' R (f a t) (f' b t')) :
    Same ρ g R ((m >>= f) s) ((m' >>= f') s') := by
  show Same ρ g R (Action.bind m f s) (Action.bind m' f' s')
  rw [Action.bind, Action.bind]
  generalize m s = o at hm
  generalize m' s' = o' at hm
  cases hm with
  | done hg hs hq => exact (hf _ _ _ _ _ hg hs hq).earlier hg
  | failed error line ho => exact .failed error line ho
  | broken breakage => exact .broken breakage
  | unfinished => exact .unfinished

theorem Same.ite {c c' : Prop} [Decidable c] [Decidable c'] {m n : Action α} {m' n' : Action β}
    (hc : c' ↔ c) (hm : Same ρ g Q (m s) (m' s')) (hn : Same ρ g Q (n s) (n' s')) :
    Same ρ g Q ((if c then m else n) s) ((if c' then m' else n') s') := by
  by_cases h : c
  · rw [if_pos h, if_pos (hc.mpr h)]
    exact hm
  · rw [if_neg h, if_neg fun h' => h (hc.mp h')]
    exact hn

end Same

/-! ## Frames -/

section Frames

variable {v v' : Value}

/-- A new frame gets a flag. -/
theorem Alike.push (hs : Alike ρ g s s') (flag : Bool) {b b' : Bindings Value}
    (hb : ∀ name, Option.Rel (ValueAlike ρ g) (b.get? name) (b'.get? (changeIf ρ flag name))) :
    Alike ρ (g ++ [flag]) { s with frames := s.frames.push b }
      { s' with frames := s'.frames.push b' } := by
  have hg : g <+: g ++ [flag] := List.prefix_append g [flag]
  have hmono : ∀ v v', ValueAlike ρ g v v' → ValueAlike ρ (g ++ [flag]) v v' := fun _ _ h => h.mono hg
  refine ⟨?_, ?_, fun id other hid name => ?_, hs.objects, fun id name => ?_, hs.fresh, hs.readings,
    hs.output⟩
  · rw [Frames.size_push, hs.size, List.length_append, List.length_singleton]
  · rw [Frames.size_push, hs.size', List.length_append, List.length_singleton]
  · rw [Frames.read_push, Frames.read_push, hs.size, hs.size']
    by_cases hlast : id = g.length
    · subst hlast
      rw [List.getElem?_concat_length] at hid
      cases hid
      rw [if_pos rfl, if_pos rfl]
      exact optionRel_mono hmono (hb name)
    · rw [if_neg hlast, if_neg hlast]
      have hlt : id < g.length := by
        have hlt := (List.getElem?_eq_some_iff.mp hid).1
        rw [List.length_append, List.length_singleton] at hlt
        exact Nat.lt_of_le_of_ne (Nat.le_of_lt_succ hlt) hlast
      rw [List.getElem?_append_left hlt] at hid
      exact optionRel_mono hmono (hs.frames id other hid name)
  · exact optionRel_mono hmono (hs.fields id name)

theorem newFrame_same (hs : Alike ρ g s s') (flag : Bool) {b b' : Bindings Value}
    (hb : ∀ name, Option.Rel (ValueAlike ρ g) (b.get? name) (b'.get? (changeIf ρ flag name))) :
    Same ρ g (fun g' id id' => id' = id ∧ g'[id]? = some flag) (newFrame b s) (newFrame b' s') := by
  refine .done (List.prefix_append g [flag]) (hs.push flag hb) ⟨?_, ?_⟩
  · rw [hs.size, hs.size']
  · rw [hs.size]
    exact List.getElem?_concat_length

/-- A frame that binds one name, which is a keyword. -/
theorem single_alike (w : String) (hv : ValueAlike ρ g v v') (name : String) :
    Option.Rel (ValueAlike ρ g) ((Bindings.empty.set w v).get? name)
      ((Bindings.empty.set w v').get? (changeIf ρ false name)) := by
  rw [changeIf_false, Bindings.get?_set, Bindings.get?_set]
  split
  · exact .some hv
  · exact .none

/-- A name gets a value in a frame. -/
theorem Alike.define (hρ : Function.Injective ρ) (hs : Alike ρ g s s') {id : FrameId} {flag : Bool}
    (hid : g[id]? = some flag) (name : String) (hv : ValueAlike ρ g v v') :
    Alike ρ g { s with frames := s.frames.define id name v }
      { s' with frames := s'.frames.define id (changeIf ρ flag name) v' } := by
  have hlt : id < g.length := (List.getElem?_eq_some_iff.mp hid).1
  refine ⟨?_, ?_, fun other flag' hother key => ?_, hs.objects, hs.fields, hs.fresh, hs.readings,
    hs.output⟩
  · exact (Frames.size_define _ _ _ _).trans hs.size
  · exact (Frames.size_define _ _ _ _).trans hs.size'
  · rw [Frames.read_define _ (by rwa [hs.size]), Frames.read_define _ (by rwa [hs.size'])]
    by_cases ho : other = id
    · subst ho
      rw [hid] at hother
      cases hother
      simp only [true_and, changeIf_inj hρ]
      split
      · exact .some hv
      · exact hs.frames other flag hid key
    · rw [if_neg fun h => ho h.1, if_neg fun h => ho h.1]
      exact hs.frames other flag' hother key

theorem defineIn_same (hρ : Function.Injective ρ) (hs : Alike ρ g s s') {flags : List Bool}
    {chain : Chain} (hflags : FlagsOf g flags chain) (name : String) (hv : ValueAlike ρ g v v') :
    Same ρ g (fun _ _ _ => True) (defineIn chain name v s)
      (defineIn chain (changeIf ρ (flags.getD 0 false) name) v' s') := by
  have hflag : ∀ id, chain[0]? = some id → g[id]? = some (flags.getD 0 false) :=
    fun id hid => hflags.getElem? hid
  cases chain with
  | nil => exact .broken _
  | cons id chain => exact .of_done (hs.define hρ (hflag id rfl) name hv) trivial

end Frames

/-! ## References -/

section References

variable {flags : List Bool} {chain : Chain} {v v' : Value}

/-- A name is looked for in the frame behind a number of others. -/
theorem getAt_alike (hs : Alike ρ g s s') (hflags : FlagsOf g flags chain) (d : Nat)
    (name : String) :
    (∃ v v', s.frames.getAt chain d name = .ok v ∧
      s'.frames.getAt chain d (changeIf ρ (flags.getD d false) name) = .ok v' ∧
        ValueAlike ρ g v v') ∨
      ∃ fault, s.frames.getAt chain d name = .error fault ∧
        s'.frames.getAt chain d (changeIf ρ (flags.getD d false) name) = .error fault := by
  unfold Frames.getAt
  cases hid : chain[d]? with
  | none => exact Or.inr ⟨_, rfl, rfl⟩
  | some id =>
    have hread := hs.frames id _ (hflags.getElem? hid) name
    cases hv : s.frames.read id name with
    | none =>
      rw [hv] at hread
      simp only [hv, optionRel_none hread]
      exact Or.inr ⟨_, rfl, rfl⟩
    | some v =>
      rw [hv] at hread
      obtain ⟨v', hv', hva⟩ := optionRel_some hread
      simp only [hv, hv']
      exact Or.inl ⟨v, v', rfl, rfl, hva⟩

theorem getAt_same (hs : Alike ρ g s s') (hflags : FlagsOf g flags chain) (d : Nat)
    (name : String) :
    Same ρ g (fun g' => ValueAlike ρ g') (ofAccess (s.frames.getAt chain d name) s)
      (ofAccess (s'.frames.getAt chain d (changeIf ρ (flags.getD d false) name)) s') := by
  rcases getAt_alike hs hflags d name with ⟨v, v', hv, hv', hva⟩ | ⟨fault, hf, hf'⟩
  · rw [hv, hv']
    exact .of_done hs hva
  · rw [hf, hf']
    exact .broken _

theorem Reference.rename_of_some {r : Reference Link} {d : Nat} (h : r.link = some d) :
    (r.rename ρ flags).name.text = changeIf ρ (flags.getD d false) r.name.text := by
  unfold Reference.rename Link.flagged
  rw [Name.renameIf_text, h, Option.any_some]

theorem Reference.rename_of_none {r : Reference Link} (h : r.link = none) :
    r.rename ρ flags = r := by
  obtain ⟨name, link⟩ := r
  cases h
  rfl

/-- A renamed reference leads to the same variable. -/
theorem follow_same (hs : Alike ρ g s s') (hflags : FlagsOf g flags chain) (r : Reference Link) :
    Same ρ g (fun g' => ValueAlike ρ g') (follow chain r s)
      (follow chain (r.rename ρ flags) s') := by
  cases hl : r.link with
  | some d =>
    unfold follow
    rw [Reference.rename_of_some hl, show (r.rename ρ flags).link = some d from hl, hl]
    exact getAt_same hs hflags d r.name.text
  | none =>
    unfold follow
    rw [Reference.rename_of_none hl, hl, get?_globals, get?_globals]
    have hread := hs.frames 0 false hflags.globals_flag r.name.text
    rw [changeIf_false] at hread
    cases hv : s.frames.read 0 r.name.text with
    | none =>
      rw [hv] at hread
      rw [optionRel_none hread]
      exact .failed _ _ hs.output
    | some v =>
      rw [hv] at hread
      obtain ⟨v', hv', hva⟩ := optionRel_some hread
      rw [hv']
      exact .of_done hs hva

/-- Where `this` is meant, nothing is renamed. -/
theorem follow_this_same (hk : ∀ k : Keyword, ρ k.word = k.word) (hs : Alike ρ g s s')
    (hflags : FlagsOf g flags chain) {r : Reference Link}
    (hr : r.name.text = Keyword.this.word) :
    Same ρ g (fun g' => ValueAlike ρ g') (follow chain r s) (follow chain r s') := by
  have hrename : r.rename ρ flags = r := by
    unfold Reference.rename Name.renameIf
    split
    · rw [hr, hk, ← hr]
    · rfl
  have hsame := follow_same hs hflags r
  rwa [hrename] at hsame

theorem holder?_globals (fs : Frames Value) (name : String) :
    fs.holder? globals name = if (fs.read 0 name).isSome then some 0 else none := by
  unfold Frames.holder? globals
  rw [List.find?_singleton]
  rfl

/-- A renamed reference changes the same variable. -/
theorem store_same (hρ : Function.Injective ρ) (hs : Alike ρ g s s')
    (hflags : FlagsOf g flags chain) (r : Reference Link) (hv : ValueAlike ρ g v v') :
    Same ρ g (fun _ _ _ => True) (store chain r v s) (store chain (r.rename ρ flags) v' s') := by
  cases hl : r.link with
  | some d =>
    unfold store
    rw [Reference.rename_of_some hl, show (r.rename ρ flags).link = some d from hl, hl]
    cases hid : chain[d]? with
    | none =>
      simp only [hid]
      exact .broken _
    | some id =>
      simp only [hid]
      exact .of_done (hs.define hρ (hflags.getElem? hid) _ hv) trivial
  | none =>
    unfold store
    rw [Reference.rename_of_none hl, hl, holder?_globals, holder?_globals]
    have hread := hs.frames 0 false hflags.globals_flag r.name.text
    rw [changeIf_false] at hread
    cases hv₀ : s.frames.read 0 r.name.text with
    | none =>
      rw [hv₀] at hread
      rw [optionRel_none hread]
      exact .failed _ _ hs.output
    | some w =>
      rw [hv₀] at hread
      obtain ⟨w', hw', -⟩ := optionRel_some hread
      rw [hw']
      exact .of_done (hs.define hρ hflags.globals_flag r.name.text hv) trivial

end References

/-! ## Functions, classes and objects -/

section Objects

variable {flags : List Bool} {chain : Chain} {o o' : Object} {v v' : Value}

theorem Alike.count (hs : Alike ρ g s s') :
    Alike ρ g { s with fresh := s.fresh + 1 } { s' with fresh := s'.fresh + 1 } :=
  ⟨hs.size, hs.size', hs.frames, hs.objects, hs.fields, congrArg (· + 1) hs.fresh, hs.readings,
    hs.output⟩

theorem Alike.tick (hs : Alike ρ g s s') :
    Alike ρ g { s with readings := s.readings + 1 } { s' with readings := s'.readings + 1 } :=
  ⟨hs.size, hs.size', hs.frames, hs.objects, hs.fields, hs.fresh, congrArg (· + 1) hs.readings,
    hs.output⟩

theorem newClosure_same (hs : Alike ρ g s s') (hflags : FlagsOf g flags chain)
    {f f' : Function Link} (hf : Renames ρ flags (.function f) (.function f'))
    (isInitializer : Bool) :
    Same ρ g (fun g' => ClosureAlike ρ g') (newClosure f chain isInitializer s)
      (newClosure f' chain isInitializer s') :=
  .of_done hs.count ⟨hs.fresh, rfl, rfl, hflags, hf⟩

theorem newId_same (hs : Alike ρ g s s') :
    Same ρ g (fun _ id id' => id' = id) (newId s) (newId s') :=
  .of_done hs.count hs.fresh

theorem Alike.addObject (hs : Alike ρ g s s') :
    Alike ρ g { s with objects := s.objects.push .empty }
      { s' with objects := s'.objects.push .empty } := by
  refine ⟨hs.size, hs.size', hs.frames, ?_, fun id name => ?_, hs.fresh, hs.readings, hs.output⟩
  · rw [Array.size_push, Array.size_push, hs.objects]
  · have hold := hs.fields id name
    simp only [Array.getD_eq_getD_getElem?, Array.getElem?_push, hs.objects] at hold ⊢
    split
    · exact .none
    · exact hold

theorem newObject_same (hs : Alike ρ g s s') {k k' : ClassValue} (hk : ClassAlike ρ g k k') :
    Same ρ g (fun g' o o' => ValueAlike ρ g' (.object o) (.object o')) (newObject k s)
      (newObject k' s') := by
  refine .of_done hs.addObject ?_
  rw [hs.objects]
  exact .object _ hk

/-- A method is made for an object. -/
theorem bindMethod_same (hs : Alike ρ g s s') {c c' : Closure} (hc : MethodAlike ρ g c c')
    (ho : ValueAlike ρ g (.object o) (.object o')) :
    Same ρ g (fun g' => ClosureAlike ρ g') (bindMethod c o s) (bindMethod c' o' s') := by
  obtain ⟨hcap, hinit, hflags, hf⟩ := hc
  unfold bindMethod
  rw [hcap, hinit]
  refine (newFrame_same hs false (single_alike _ ho)).bind fun g' id id' t t' hg ht hq => ?_
  obtain ⟨rfl, hid⟩ := hq
  cases hf with
  | method hf => exact newClosure_same ht (.cons hid (hflags.mono hg)) hf _

/-- A property of an object: fields and methods go by names that are not renamed. -/
theorem getProperty_same (hs : Alike ρ g s s') (ho : ValueAlike ρ g (.object o) (.object o'))
    (name : Name) :
    Same ρ g (fun g' => ValueAlike ρ g') (getProperty o name s) (getProperty o' name s') := by
  have ho' := ho
  cases ho with
  | @object k k' id hk =>
    have hfield := hs.fields id name.text
    unfold getProperty fields
    cases hv : (s.objects.getD id .empty).get? name.text with
    | some v =>
      rw [hv] at hfield
      obtain ⟨v', hv', hva⟩ := optionRel_some hfield
      simp only [hv']
      exact .of_done hs hva
    | none =>
      rw [hv] at hfield
      simp only [optionRel_none hfield]
      have hmethod := hk.findMethod? name.text
      cases hc : k.findMethod? name.text with
      | none =>
        rw [hc] at hmethod
        simp only [optionRel_none hmethod]
        exact .failed _ _ hs.output
      | some c =>
        rw [hc] at hmethod
        obtain ⟨c', hc', hca⟩ := optionRel_some hmethod
        simp only [hc']
        exact (bindMethod_same hs hca ho').bind fun _ _ _ _ _ _ ht hq => .of_done ht (.closure hq)

theorem Alike.setField (hs : Alike ρ g s s') (id : Nat) (name : String)
    (hv : ValueAlike ρ g v v') :
    Alike ρ g { s with objects := s.objects.modify id fun b => b.set name v }
      { s' with objects := s'.objects.modify id fun b => b.set name v' } := by
  refine ⟨hs.size, hs.size', hs.frames, ?_, fun other key => ?_, hs.fresh, hs.readings, hs.output⟩
  · rw [Array.size_modify, Array.size_modify, hs.objects]
  · have hold := hs.fields other key
    simp only [Array.getD_eq_getD_getElem?, Array.getElem?_modify] at hold ⊢
    by_cases hid : id = other
    · rw [if_pos hid, if_pos hid]
      by_cases hlt : other < s.objects.size
      · have hlt' : other < s'.objects.size := by rwa [hs.objects]
        rw [Array.getElem?_eq_getElem hlt, Array.getElem?_eq_getElem hlt'] at hold ⊢
        simp only [Option.map_some, Option.getD_some, Bindings.get?_set] at hold ⊢
        split
        · exact .some hv
        · exact hold
      · have hge' : ¬other < s'.objects.size := by rwa [hs.objects]
        rw [Array.getElem?_eq_none (Nat.le_of_not_lt hlt),
          Array.getElem?_eq_none (Nat.le_of_not_lt hge')]
        exact .none
    · rw [if_neg hid, if_neg hid]
      exact hold

theorem setField_same (hs : Alike ρ g s s') (ho : ValueAlike ρ g (.object o) (.object o'))
    (name : String) (hv : ValueAlike ρ g v v') :
    Same ρ g (fun _ _ _ => True) (setField o name v s) (setField o' name v' s') := by
  cases ho with
  | object id hk => exact .of_done (hs.setField id name hv) trivial

/-- The methods of a class. -/
theorem newMethods_same (hs : Alike ρ g s s') (hflags : FlagsOf g flags chain)
    {fs fs' : List (Function Link)}
    (hf : List.Forall₂ (fun f f' => Renames ρ flags (.method f) (.method f')) fs fs')
    {methods methods' : Bindings Closure}
    (hm : ∀ key, Option.Rel (MethodAlike ρ g) (methods.get? key) (methods'.get? key)) :
    Same ρ g (fun g' table table' =>
        ∀ key, Option.Rel (MethodAlike ρ g') (table.get? key) (table'.get? key))
      (newMethods chain fs methods s) (newMethods chain fs' methods' s') := by
  induction hf generalizing methods methods' s s' with
  | nil =>
    rw [newMethods, newMethods]
    exact .of_done hs hm
  | @cons f f' fs fs' hf _ ih =>
    have hname : f'.name = f.name := by
      cases hf with
      | method hf => exact hf.function_name
    rw [newMethods, newMethods, hname]
    refine Same.bind (Q := fun g' c c' => g' = g ∧ MethodAlike ρ g c c')
      (.of_done hs.count ⟨rfl, rfl, rfl, hflags, hf⟩) fun g' c c' t t' _ ht hq => ?_
    obtain ⟨rfl, hc⟩ := hq
    refine ih ht fun key => ?_
    rw [Bindings.get?_set, Bindings.get?_set]
    split
    · exact .some hc
    · exact hm key

/-- The frame of a call: the parameters may be renamed, and stay different from each other. -/
theorem parameterFrame_alike (hρ : Function.Injective ρ) {flag : Bool} (params : List Name)
    {args args' : List Value} (ha : List.Forall₂ (ValueAlike ρ g) args args') (name : String) :
    Option.Rel (ValueAlike ρ g) ((parameterFrame params args).get? name)
      ((parameterFrame (params.map (Name.renameIf ρ flag)) args').get? (changeIf ρ flag name)) := by
  have hgeneral : ∀ b b' : Bindings Value,
      (∀ key, Option.Rel (ValueAlike ρ g) (b.get? key) (b'.get? (changeIf ρ flag key))) →
      Option.Rel (ValueAlike ρ g)
        (((params.zip args).foldl (fun b pair => b.set pair.1.text pair.2) b).get? name)
        ((((params.map (Name.renameIf ρ flag)).zip args').foldl
          (fun b pair => b.set pair.1.text pair.2) b').get? (changeIf ρ flag name)) := by
    induction ha generalizing params with
    | nil =>
      intro b b' hb
      rw [List.zip_nil_right, List.zip_nil_right]
      exact hb name
    | @cons v v' args args' hv _ ih =>
      intro b b' hb
      cases params with
      | nil => exact hb name
      | cons p params =>
        refine ih params _ _ fun key => ?_
        show Option.Rel (ValueAlike ρ g) ((b.set p.text v).get? key)
          ((b'.set (p.renameIf ρ flag).text v').get? (changeIf ρ flag key))
        rw [Name.renameIf_text, Bindings.get?_set, Bindings.get?_set]
        simp only [changeIf_inj hρ]
        split
        · exact .some hv
        · exact hb key
  exact hgeneral .empty .empty fun _ => .none

end Objects

/-! ## Values -/

section Values

variable {v v' w w' : Value}

theorem Alike.print (hs : Alike ρ g s s') (line : String) :
    Alike ρ g { s with output := s.output ++ line ++ "\n" }
      { s' with output := s'.output ++ line ++ "\n" } :=
  ⟨hs.size, hs.size', hs.frames, hs.objects, hs.fields, hs.fresh, hs.readings,
    congrArg (· ++ line ++ "\n") hs.output⟩

theorem printLine_same (hs : Alike ρ g s s') (line : String) :
    Same ρ g (fun _ _ _ => True) (printLine line s) (printLine line s') :=
  .of_done (hs.print line) trivial

theorem ValueAlike.decides (hv : ValueAlike ρ g v v') (op : LogicalOp) :
    op.decides v' = op.decides v := by
  unfold LogicalOp.decides
  rw [hv.truthy]

theorem applyUnary_same (hs : Alike ρ g s s') (line : Nat) (op : UnaryOp)
    (hv : ValueAlike ρ g v v') :
    Same ρ g (fun g' => ValueAlike ρ g') (ofOperator line (applyUnary op v) s)
      (ofOperator line (applyUnary op v') s') := by
  cases op with
  | not =>
    rw [applyUnary, applyUnary, hv.truthy]
    exact .of_done hs (.bool _)
  | negate =>
    cases hv with
    | number x => exact .of_done hs (.number _)
    | nil | bool | string | closure | native | ofClass | object => exact .failed _ _ hs.output

/-- Numbers compare and add up to values without names. -/
theorem numeric_alike (op : BinaryOp) (x y : Float) :
    ValueAlike ρ g (numeric op x y) (numeric op x y) := by
  cases op with
  | equal | notEqual | greater | greaterEqual | less | lessEqual => exact .bool _
  | minus | plus | divide | times => exact .number _

theorem applyBinary_same (hs : Alike ρ g s s') (line : Nat) (op : BinaryOp)
    (hv : ValueAlike ρ g v v') (hw : ValueAlike ρ g w w') :
    Same ρ g (fun g' => ValueAlike ρ g') (ofOperator line (applyBinary op v w) s)
      (ofOperator line (applyBinary op v' w') s') := by
  cases op with
  | equal | notEqual =>
    rw [applyBinary, applyBinary, hv.equal hw]
    exact .of_done hs (.bool _)
  | plus =>
    cases hv with
    | number x =>
      cases hw with
      | number y => exact .of_done hs (.number _)
      | _ => exact .failed _ _ hs.output
    | string x =>
      cases hw with
      | string y => exact .of_done hs (.string _)
      | _ => exact .failed _ _ hs.output
    | _ => exact .failed _ _ hs.output
  | greater | greaterEqual | less | lessEqual | minus | divide | times =>
    cases hv with
    | number x =>
      cases hw with
      | number y => exact .of_done hs (numeric_alike _ x y)
      | _ => exact .failed _ _ hs.output
    | _ => exact .failed _ _ hs.output

end Values

end LoxKit
