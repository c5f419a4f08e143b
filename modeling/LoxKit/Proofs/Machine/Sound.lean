import LoxKit.Proofs.Machine.Origin

/-!
# Sound stores

What stays true of a store while programs run. A store only grows: frames stay, names that are bound
stay bound, and names that are keywords keep their value (`Extends`). The frames of a chain fit the
scopes of a place (`Fits`): what a scope declares completely is bound in its frame, `this` to an
object and `super` to a class. A value is sound if every function in it has an account and a chain
that fits; a store is sound if all the values in it are.

Headlines:
* `Extends.define`, `Extends.push`: the changes that a run makes to frames only let a store grow.
* `Fits.mono`, `ValueSound.mono`: what fits or is sound stays so when the store grows.
* `Meets.bind`: what an action and the one behind it keep.
-/

namespace LoxKit

/-! ## Frames -/

namespace Frames

variable {α : Type}

theorem size_push (fs : Frames α) (b : Bindings α) : (fs.push b).size = fs.size + 1 :=
  Array.size_push b

theorem size_define (fs : Frames α) (id : FrameId) (name : String) (value : α) :
    (fs.define id name value).size = fs.size :=
  Array.size_modify

theorem read_push (fs : Frames α) (b : Bindings α) (id : FrameId) (name : String) :
    (fs.push b).read id name = if id = fs.size then b.get? name else fs.read id name := by
  unfold read frame push size
  simp only [Array.getD_eq_getD_getElem?, Array.getElem?_push]
  split <;> rfl

/-- A frame that was never made binds nothing. -/
theorem read_of_le (fs : Frames α) {id : FrameId} (h : fs.size ≤ id) (name : String) :
    fs.read id name = none := by
  unfold read frame
  rw [Array.getD_eq_getD_getElem?, Array.getElem?_eq_none h]
  rfl

theorem define_of_le (fs : Frames α) {id : FrameId} (h : fs.size ≤ id) (name : String) (value : α) :
    ∀ other key, (fs.define id name value).read other key = fs.read other key := by
  intro other key
  unfold read
  rw [frame_define, if_neg]
  rintro ⟨-, hlt⟩
  exact absurd hlt (Nat.not_lt.mpr h)

end Frames

/-! ## Stores that grow -/

/-- A store that has grown out of another. -/
structure Extends (s s' : Store) : Prop where
  size : s.frames.size ≤ s'.frames.size
  bound : ∀ id name, (s.frames.read id name).isSome = true → (s'.frames.read id name).isSome = true
  kept : ∀ id (k : Keyword) v, s.frames.read id k.word = some v → s'.frames.read id k.word = some v

namespace Extends

theorem refl (s : Store) : Extends s s :=
  ⟨Nat.le_refl _, fun _ _ h => h, fun _ _ _ h => h⟩

theorem trans {s₁ s₂ s₃ : Store} (h : Extends s₁ s₂) (h' : Extends s₂ s₃) : Extends s₁ s₃ :=
  ⟨Nat.le_trans h.size h'.size, fun id name hb => h'.bound id name (h.bound id name hb),
    fun id k v hk => h'.kept id k v (h.kept id k v hk)⟩

/-- Only the frames matter. -/
theorem of_frames {s s' : Store} (h : s'.frames = s.frames) : Extends s s' := by
  refine ⟨Nat.le_of_eq (by rw [h]), fun id name hb => ?_, fun id k v hk => ?_⟩
  · rwa [h]
  · rwa [h]

theorem push (s : Store) (b : Bindings Value) :
    Extends s { s with frames := s.frames.push b } := by
  have hne : ∀ id name v, s.frames.read id name = some v → id ≠ s.frames.size := by
    rintro id name v hr rfl
    rw [Frames.read_of_le _ (Nat.le_refl _)] at hr
    exact absurd hr (by simp)
  refine ⟨?_, fun id name hb => ?_, fun id k v hk => ?_⟩
  · rw [Frames.size_push]
    exact Nat.le_succ _
  · obtain ⟨v, hv⟩ := Option.isSome_iff_exists.mp hb
    rw [Frames.read_push, if_neg (hne id name v hv), hv]
    rfl
  · rw [Frames.read_push, if_neg (hne id k.word v hk), hk]

theorem define (s : Store) (id : FrameId) {name : String} (hn : Plain name) (v : Value) :
    Extends s { s with frames := s.frames.define id name v } := by
  by_cases hlt : id < s.frames.size
  · refine ⟨Nat.le_of_eq (Frames.size_define ..).symm, fun other key hb => ?_,
      fun other k w hk => ?_⟩
    · rw [Frames.read_define _ hlt]
      split
      · rfl
      · exact hb
    · rw [Frames.read_define _ hlt, if_neg fun h => hn.ne_word k h.2.symm]
      exact hk
  · have hread := Frames.define_of_le s.frames (Nat.not_lt.mp hlt) name v
    refine ⟨Nat.le_of_eq (Frames.size_define ..).symm, fun other key hb => ?_,
      fun other k w hk => ?_⟩
    · rw [hread]
      exact hb
    · rw [hread]
      exact hk

end Extends

theorem Level.Holds.mono {s s' : Store} (he : Extends s s') {l : Level} {outer : List Level}
    (h : l.Holds s outer) : l.Holds s' outer := by
  refine ⟨fun c o s₀ hl => ?_, fun name r methods fuel depth chain s₀ hl => ?_⟩
  · obtain ⟨hr, hk⟩ := h.receiver c o s₀ hl
    exact ⟨he.kept _ .this _ hr, hk⟩
  · obtain ⟨above, made, hf, hr⟩ := h.superclass name r methods fuel depth chain s₀ hl
    exact ⟨above, made, hf, he.kept _ .super _ hr⟩

theorem Level.AllHold.mono {s s' : Store} (he : Extends s s') {levels : List Level}
    (h : AllHold s levels) : AllHold s' levels := by
  induction levels with
  | nil => trivial
  | cons l outer ih => exact ⟨h.1.mono he, ih h.2⟩

/-! ## Chains that fit scopes -/

/-- A frame binds what a scope declares completely. -/
structure FrameFits (s : Store) (scope : Scope) (id : FrameId) : Prop where
  /-- It is not the frame of the globals. -/
  pos : 0 < id
  made : id < s.frames.size
  bound : ∀ name, scope.get? name = some true → (s.frames.read id name).isSome = true
  receiver : scope.get? Keyword.this.word = some true →
    ∃ o, s.frames.read id Keyword.this.word = some (.object o)
  superclass : scope.get? Keyword.super.word = some true →
    ∃ k, s.frames.read id Keyword.super.word = some (.ofClass k)

theorem FrameFits.mono {s s' : Store} (he : Extends s s') {scope : Scope} {id : FrameId}
    (h : FrameFits s scope id) : FrameFits s' scope id where
  pos := h.pos
  made := Nat.lt_of_lt_of_le h.made he.size
  bound name hn := he.bound id name (h.bound name hn)
  receiver hs := (h.receiver hs).imp fun _ ho => he.kept id .this _ ho
  superclass hs := (h.superclass hs).imp fun _ hk => he.kept id .super _ hk

/-- The frames of a chain fit the scopes, and the globals are behind them. -/
inductive Fits (s : Store) : Scopes → Chain → Prop
  | globals : Fits s [] Action.globals
  | cons {scope : Scope} {scopes : Scopes} {id : FrameId} {chain : Chain}
      (hf : FrameFits s scope id) (h : Fits s scopes chain) : Fits s (scope :: scopes) (id :: chain)

theorem Fits.mono {s s' : Store} (he : Extends s s') {scopes : Scopes} {chain : Chain}
    (h : Fits s scopes chain) : Fits s' scopes chain := by
  induction h with
  | globals => exact .globals
  | cons hf _ ih => exact .cons (hf.mono he) ih

theorem Fits.getElem? {s : Store} {scopes : Scopes} {chain : Chain} (h : Fits s scopes chain)
    {d : Nat} {scope : Scope} (hd : scopes[d]? = some scope) :
    ∃ id, chain[d]? = some id ∧ FrameFits s scope id := by
  induction h generalizing d with
  | globals => exact absurd hd (by simp)
  | @cons first scopes id chain hf _ ih =>
    cases d with
    | zero =>
      cases hd
      exact ⟨id, rfl, hf⟩
    | succ d => exact ih hd

theorem Fits.head? {s : Store} {scopes : Scopes} {chain : Chain} (h : Fits s scopes chain) :
    ∃ id, chain.head? = some id := by
  cases h with
  | globals => exact ⟨_, rfl⟩
  | cons => exact ⟨_, rfl⟩

/-- There is a frame for each scope, and that of the globals. -/
theorem Fits.length {s : Store} {scopes : Scopes} {chain : Chain} (h : Fits s scopes chain) :
    chain.length = scopes.length + 1 := by
  induction h with
  | globals => rfl
  | cons _ _ ih => rw [List.length_cons, ih, List.length_cons]

/-- A declaration that begins asks nothing of the frame. -/
theorem Fits.declare {s : Store} {scopes : Scopes} {chain : Chain} (h : Fits s scopes chain)
    {name : Name} (hn : Plain name.text) : Fits s (scopes.declare name).1 chain := by
  cases h with
  | globals => exact .globals
  | @cons scope scopes id chain hf ht =>
    refine .cons ⟨hf.pos, hf.made, fun other ho => ?_, fun ho => ?_, fun ho => ?_⟩ ht
    · rw [Bindings.get?_set] at ho
      split at ho
      · exact absurd ho (by simp)
      · exact hf.bound other ho
    · rw [Bindings.get?_set_of_ne _ _ (Ne.symm (hn.ne_word .this))] at ho
      exact hf.receiver ho
    · rw [Bindings.get?_set_of_ne _ _ (Ne.symm (hn.ne_word .super))] at ho
      exact hf.superclass ho

/-- A name that is bound in the innermost frame may be declared. -/
theorem Fits.add {s : Store} {scopes : Scopes} {chain : Chain} (h : Fits s scopes chain)
    {name : String} (hn : Plain name)
    (hb : ∀ id, chain.head? = some id → 0 < id → (s.frames.read id name).isSome = true) :
    Fits s (scopes.add name) chain := by
  cases h with
  | globals => exact .globals
  | @cons scope scopes id chain hf ht =>
    refine .cons ⟨hf.pos, hf.made, fun other ho => ?_, fun ho => ?_, fun ho => ?_⟩ ht
    · by_cases hne : other = name
      · rw [hne]
        exact hb id rfl hf.pos
      · rw [Bindings.get?_set_of_ne _ _ hne, Bindings.get?_set_of_ne _ _ hne] at ho
        exact hf.bound other ho
    · have hne := Ne.symm (hn.ne_word .this)
      rw [Bindings.get?_set_of_ne _ _ hne, Bindings.get?_set_of_ne _ _ hne] at ho
      exact hf.receiver ho
    · have hne := Ne.symm (hn.ne_word .super)
      rw [Bindings.get?_set_of_ne _ _ hne, Bindings.get?_set_of_ne _ _ hne] at ho
      exact hf.superclass ho

theorem Fits.addAll {s : Store} {names : List String} (hn : ∀ n ∈ names, Plain n) :
    ∀ {scopes : Scopes} {chain : Chain}, Fits s scopes chain →
      (∀ id, chain.head? = some id → 0 < id → ∀ n ∈ names, (s.frames.read id n).isSome = true) →
      Fits s (names.foldl Scopes.add scopes) chain := by
  induction names with
  | nil => exact fun h _ => h
  | cons name names ih =>
    intro scopes chain h hb
    rw [List.forall_mem_cons] at hn
    refine ih hn.2 (h.add hn.1 fun id hid hpos => ?_) fun id hid hpos n hmem => ?_
    · exact hb id hid hpos name List.mem_cons_self
    · exact hb id hid hpos n (List.mem_cons_of_mem _ hmem)

/-- A scope without names fits any new frame. -/
theorem FrameFits.empty {s : Store} {id : FrameId} (hpos : 0 < id) (hlt : id < s.frames.size) :
    FrameFits s .empty id := by
  refine ⟨hpos, hlt, fun name h => ?_, fun h => ?_, fun h => ?_⟩ <;>
    · rw [Bindings.get?_empty] at h
      exact absurd h (by simp)

theorem FrameFits.single {s : Store} {id : FrameId} (hpos : 0 < id) (hlt : id < s.frames.size)
    {w : String} {v : Value} (hr : s.frames.read id w = some v)
    (hthis : w = Keyword.this.word → ∃ o, v = .object o)
    (hsuper : w = Keyword.super.word → ∃ k, v = .ofClass k) : FrameFits s (.single w) id := by
  have hw : ∀ name, (Scope.single w).get? name = some true → name = w := by
    intro name h
    unfold Scope.single at h
    rw [Bindings.get?_set] at h
    split at h
    · assumption
    · rw [Bindings.get?_empty] at h
      exact absurd h (by simp)
  refine ⟨hpos, hlt, fun name h => ?_, fun h => ?_, fun h => ?_⟩
  · rw [hw name h, hr]
    rfl
  · have hn := hw _ h
    obtain ⟨o, rfl⟩ := hthis hn.symm
    exact ⟨o, hn ▸ hr⟩
  · have hn := hw _ h
    obtain ⟨k, rfl⟩ := hsuper hn.symm
    exact ⟨k, hn ▸ hr⟩

/-! ## Sound values -/

section Values

variable (V : Moment → Prop)

/-- A function that can be called: it has an account, its chain fits, and if it is an initializer
the innermost scope is that of `this`. The frames of its levels hold what they have to. -/
inductive ClosureSound (s : Store) (c : Closure) : Prop
  | mk {around : Surroundings} {scopes : Scopes} {f : Function Unit} {levels : List Level}
      (h : Account V ⟨around, scopes, .function f⟩ levels)
      (hc : .function c.function = Place.linked ⟨around, scopes, .function f⟩)
      (hcap : c.captured = Level.chain levels) (hfit : Fits s scopes c.captured)
      (hinit : c.isInitializer = true → scopes.head? = some (.single Keyword.this.word))
      (hhold : Level.AllHold s levels)

/-- A method of a class: it has an account, its chain fits, and the declaration that it stands in
made the class. -/
inductive MethodSound (s : Store) (k : ClassValue) (c : Closure) : Prop
  | mk {around : Surroundings} {scopes : Scopes} {f : Function Unit} {levels : List Level}
      (h : Account V ⟨around, scopes, .method f⟩ levels)
      (hc : .method c.function = Place.linked ⟨around, scopes, .method f⟩)
      (hcap : c.captured = Level.chain levels) (hfit : Fits s scopes c.captured)
      (hclass : Level.OfClass levels k) (hhold : Level.AllHold s levels)

/-- A class all of whose methods are sound, those of its superclasses included. -/
def ClassSound (s : Store) (k : ClassValue) : Prop :=
  ∀ k' ∈ k.lineage, ∀ name c, k'.methods.get? name = some c → MethodSound V s k' c

/-- A value in which every function is sound. -/
def ValueSound (s : Store) : Value → Prop
  | .closure c => ClosureSound V s c
  | .ofClass k => ClassSound V s k
  | .object o => ClassSound V s o.ofClass
  | _ => True

/-- A store in which every value is sound. -/
structure StoreSound (s : Store) : Prop where
  globals : 0 < s.frames.size
  frames : ∀ id name v, s.frames.read id name = some v → ValueSound V s v
  fields : ∀ id name v, (s.objects.getD id .empty).get? name = some v → ValueSound V s v

end Values

variable {V : Moment → Prop} {s s' : Store}

theorem ClosureSound.mono (he : Extends s s') {c : Closure} (h : ClosureSound V s c) :
    ClosureSound V s' c := by
  obtain ⟨h, hc, hcap, hfit, hinit, hhold⟩ := h
  exact ⟨h, hc, hcap, hfit.mono he, hinit, hhold.mono he⟩

theorem MethodSound.mono (he : Extends s s') {k : ClassValue} {c : Closure}
    (h : MethodSound V s k c) : MethodSound V s' k c := by
  obtain ⟨h, hc, hcap, hfit, hclass, hhold⟩ := h
  exact ⟨h, hc, hcap, hfit.mono he, hclass, hhold.mono he⟩

theorem ClassSound.mono (he : Extends s s') {k : ClassValue} (h : ClassSound V s k) :
    ClassSound V s' k :=
  fun k' hk' name c hc => (h k' hk' name c hc).mono he

theorem ValueSound.mono (he : Extends s s') {v : Value} (h : ValueSound V s v) :
    ValueSound V s' v := by
  cases v with
  | closure => exact ClosureSound.mono he h
  | ofClass => exact ClassSound.mono he h
  | object => exact ClassSound.mono he h
  | nil | bool | number | string | native => trivial

/-- The method that is found belongs to a class of the lineage. -/
theorem ClassSound.findMethod? {k : ClassValue} (h : ClassSound V s k) {name : String}
    {c : Closure} (hc : k.findMethod? name = some c) :
    ∃ k' ∈ k.lineage, k'.Has c ∧ MethodSound V s k' c := by
  obtain ⟨k', hk', key, hm⟩ := ClassValue.has_of_findMethod? hc
  exact ⟨k', hk', ⟨key, hm⟩, h k' hk' key c hm⟩

/-- A class is sound if its own methods and its superclass are. -/
theorem classSound_mk {id : Nat} {name : String} {above : Option ClassValue}
    {methods : Bindings Closure}
    (hm : ∀ key c, methods.get? key = some c → MethodSound V s (.mk id name above methods) c)
    (ha : ∀ k, above = some k → ClassSound V s k) :
    ClassSound V s (.mk id name above methods) := by
  intro k' hk' method c hc
  cases above with
  | none =>
    rw [ClassValue.lineage, List.mem_singleton] at hk'
    subst hk'
    exact hm method c hc
  | some k =>
    rw [ClassValue.lineage, List.mem_cons] at hk'
    rcases hk' with rfl | hk'
    · exact hm method c hc
    · exact ha k rfl k' hk' method c hc

namespace StoreSound

theorem push (h : StoreSound V s) {b : Bindings Value}
    (hb : ∀ name v, b.get? name = some v → ValueSound V s v) :
    StoreSound V { s with frames := s.frames.push b } := by
  have he := Extends.push s b
  refine ⟨Nat.lt_of_lt_of_le h.globals he.size, fun id name v hr => ?_, fun id name v hr => ?_⟩
  · rw [Frames.read_push] at hr
    split at hr
    · exact (hb name v hr).mono he
    · exact (h.frames id name v hr).mono he
  · exact (h.fields id name v hr).mono he

theorem push_single (h : StoreSound V s) {w : String} {v : Value} (hv : ValueSound V s v) :
    StoreSound V { s with frames := s.frames.push (Bindings.empty.set w v) } := by
  refine h.push fun name v' hname => ?_
  rw [Bindings.get?_set] at hname
  split at hname
  · cases hname
    exact hv
  · rw [Bindings.get?_empty] at hname
    exact absurd hname (by simp)

theorem define (h : StoreSound V s) {id : FrameId} {name : String} (hn : Plain name) {v : Value}
    (hv : ValueSound V { s with frames := s.frames.define id name v } v) :
    StoreSound V { s with frames := s.frames.define id name v } := by
  have he := Extends.define s id hn v
  refine ⟨Nat.lt_of_lt_of_le h.globals he.size, fun other key w hr => ?_, fun other key w hr => ?_⟩
  · by_cases hlt : id < s.frames.size
    · rw [Frames.read_define _ hlt] at hr
      split at hr
      · cases hr
        exact hv
      · exact (h.frames other key w hr).mono he
    · rw [Frames.define_of_le _ (Nat.not_lt.mp hlt)] at hr
      exact (h.frames other key w hr).mono he
  · exact (h.fields other key w hr).mono he

/-- Only frames and fields matter. -/
theorem congr (h : StoreSound V s) (hf : s'.frames = s.frames) (ho : s'.objects = s.objects) :
    StoreSound V s' := by
  have he := Extends.of_frames hf
  refine ⟨Nat.lt_of_lt_of_le h.globals he.size, fun id name v hr => ?_, fun id name v hr => ?_⟩
  · rw [hf] at hr
    exact (h.frames id name v hr).mono he
  · rw [ho] at hr
    exact (h.fields id name v hr).mono he

theorem newObject (h : StoreSound V s) :
    StoreSound V { s with objects := s.objects.push .empty } := by
  have he : Extends s { s with objects := s.objects.push .empty } := .of_frames rfl
  refine ⟨h.globals, fun id name v hr => (h.frames id name v hr).mono he, fun id name v hr => ?_⟩
  simp only [Array.getD_eq_getD_getElem?, Array.getElem?_push] at hr
  split at hr
  · rw [Option.getD_some, Bindings.get?_empty] at hr
    exact absurd hr (by simp)
  · rw [← Array.getD_eq_getD_getElem?] at hr
    exact (h.fields id name v hr).mono he

theorem setField (h : StoreSound V s) (o : Object) (name : String) {v : Value}
    (hv : ValueSound V s v) :
    StoreSound V { s with objects := s.objects.modify o.id fun b => b.set name v } := by
  have he : Extends s { s with objects := s.objects.modify o.id fun b => b.set name v } :=
    .of_frames rfl
  refine ⟨h.globals, fun id key w hr => (h.frames id key w hr).mono he, fun id key w hr => ?_⟩
  simp only [Array.getD_eq_getD_getElem?, Array.getElem?_modify] at hr
  by_cases hid : o.id = id
  · rw [if_pos hid] at hr
    cases hb : s.objects[id]? with
    | none =>
      rw [hb] at hr
      exact absurd hr (by simp)
    | some b =>
      rw [hb, Option.map_some, Option.getD_some, Bindings.get?_set] at hr
      split at hr
      · cases hr
        exact hv.mono he
      · refine (h.fields id key w ?_).mono he
        rw [Array.getD_eq_getD_getElem?, hb]
        exact hr
  · rw [if_neg hid, ← Array.getD_eq_getD_getElem?] at hr
    exact (h.fields id key w hr).mono he

end StoreSound

/-! ## What actions keep -/

/-- An action that ends so in a store that began as `s` has kept the store sound and let it only
grow; its value is as `Q` says; and it is not broken. -/
def Meets {α : Type} (V : Moment → Prop) (s : Store) (o : Outcome α) (Q : α → Store → Prop) :
    Prop :=
  match o with
  | .done a s' => Extends s s' ∧ StoreSound V s' ∧ Q a s'
  | .failed _ _ s' => Extends s s' ∧ StoreSound V s'
  | .broken _ => False
  | .unfinished => True

section Meets

variable {α β : Type}

theorem meets_pure (h : StoreSound V s) {a : α} {Q : α → Store → Prop} (hq : Q a s) :
    Meets V s ((pure a : Action α) s) Q :=
  ⟨.refl s, h, hq⟩

theorem meets_fail (h : StoreSound V s) (error : RuntimeError) (line : Nat)
    (Q : α → Store → Prop) : Meets V s (Action.fail error line s) Q :=
  ⟨.refl s, h⟩

/-- What an action keeps that begins in a store that has grown already. -/
theorem Meets.after {s₁ : Store} {o : Outcome α} {Q : α → Store → Prop} (h : Meets V s₁ o Q)
    (he : Extends s s₁) : Meets V s o Q := by
  cases o with
  | done a s₂ => exact ⟨he.trans h.1, h.2⟩
  | failed error line s₂ => exact ⟨he.trans h.1, h.2⟩
  | broken breakage => exact h
  | unfinished => trivial

/-- What is left is sound, also by an action that fails. -/
theorem Meets.left {s' : Store} {o : Outcome α} {Q : α → Store → Prop} (h : Meets V s o Q)
    (ho : o.store? = some s') : Extends s s' ∧ StoreSound V s' := by
  cases o with
  | done a s₁ =>
    cases ho
    exact ⟨h.1, h.2.1⟩
  | failed error line s₁ =>
    cases ho
    exact h
  | broken | unfinished => cases ho

/-- What an action and the one behind it keep. The second runs in the store that the first leaves. -/
theorem Meets.bind {m : Action α} {f : α → Action β} {P : α → Store → Prop}
    {Q : β → Store → Prop} (hm : Meets V s (m s) P)
    (hf : ∀ a s₁, m s = .done a s₁ → Extends s s₁ → StoreSound V s₁ → P a s₁ →
      Meets V s₁ (f a s₁) Q) : Meets V s ((m >>= f) s) Q := by
  show Meets V s (Action.bind m f s) Q
  cases ho : m s with
  | done a s₁ =>
    rw [ho] at hm
    rw [Action.bind, ho]
    exact (hf a s₁ ho hm.1 hm.2.1 hm.2.2).after hm.1
  | failed error line s₁ =>
    rw [ho] at hm
    rw [Action.bind, ho]
    exact hm
  | broken breakage =>
    rw [ho] at hm
    exact hm.elim
  | unfinished =>
    rw [Action.bind, ho]
    trivial

theorem Meets.mono {o : Outcome α} {P Q : α → Store → Prop} (h : Meets V s o P)
    (hq : ∀ a s', o = .done a s' → Extends s s' → StoreSound V s' → P a s' → Q a s') :
    Meets V s o Q := by
  cases o with
  | done a s' => exact ⟨h.1, h.2.1, hq a s' rfl h.1 h.2.1 h.2.2⟩
  | failed => exact h
  | broken => exact h
  | unfinished => trivial

theorem meets_ite {c : Prop} [Decidable c] {m m' : Action α} {Q : α → Store → Prop}
    (hm : c → Meets V s (m s) Q) (hm' : ¬c → Meets V s (m' s) Q) :
    Meets V s ((if c then m else m') s) Q := by
  split
  · exact hm ‹_›
  · exact hm' ‹_›

theorem meets_map {f : α → β} {o : Outcome α} {Q : β → Store → Prop} :
    Meets V s (o.map f) Q ↔ Meets V s o fun a s' => Q (f a) s' := by
  cases o <;> rfl

end Meets

end LoxKit
