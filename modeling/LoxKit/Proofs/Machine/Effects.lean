import LoxKit.Proofs.Machine.Sound

/-!
# What the operations keep

One lemma for each operation on a store that a run is made of: it keeps a sound store sound, is not
broken, and gives a sound value. What a chain has to offer is said by `Ready`: its frames fit the
scopes of the place, with one exception. The name of a class is declared before its superclass is
looked up, and bound after that; a class cannot be its own superclass, so that this does no harm.

Headlines:
* `Ready.found`: where a reference leads, there is a frame.
* `follow_meets`, `store_meets`: following and changing a reference.
* `bindMethod_meets`: a method that is made for an object can be called.
-/

namespace LoxKit

open LoxKit.Action

variable {V : Moment → Prop} {s : Store} {chain : Chain} {around : Surroundings} {scopes : Scopes}

/-! ## References -/

/-- A chain in which a node at a place may begin to run. -/
inductive Ready (s : Store) (chain : Chain) : Place → Prop
  | fits {p : Place} (h : Fits s p.scopes chain) : Ready s chain p
  /-- The superclass of a class whose name is not bound yet. -/
  | superclass {around : Surroundings} {scopes : Scopes} {name : String} {r : Reference Unit}
      (h : Fits s scopes chain) (hne : r.name.text ≠ name) :
      Ready s chain ⟨around, scopes.add name, .expr (.var r)⟩

/-- Where a reference leads, there is a frame other than that of the globals, and it binds the name
if the declaration is complete. -/
theorem Ready.found {e : Expr Unit} (h : Ready s chain ⟨around, scopes, .expr e⟩)
    {raw : Reference Unit} (hr : e.reference? = some raw) {d : Nat} {scope : Scope}
    (hd : scopes[d]? = some scope) :
    ∃ id, chain[d]? = some id ∧ 0 < id ∧ id < s.frames.size ∧
      (scope.get? raw.name.text = some true → (s.frames.read id raw.name.text).isSome = true) := by
  cases h with
  | fits hfits =>
    obtain ⟨id, hid, hf⟩ := hfits.getElem? hd
    exact ⟨id, hid, hf.pos, hf.made, hf.bound _⟩
  | @superclass _ scopes name r hfits hne =>
    cases hr
    cases scopes with
    | nil => exact absurd hd (by simp [Scopes.add])
    | cons first outer =>
      cases d with
      | zero =>
        obtain ⟨id, hid, hf⟩ := hfits.getElem? (d := 0) rfl
        cases hd
        refine ⟨id, hid, hf.pos, hf.made, fun hget => hf.bound _ ?_⟩
        rwa [Bindings.get?_set_of_ne _ _ hne, Bindings.get?_set_of_ne _ _ hne] at hget
      | succ d =>
        obtain ⟨id, hid, hf⟩ := hfits.getElem? (d := d + 1) hd
        exact ⟨id, hid, hf.pos, hf.made, hf.bound _⟩

/-- As many scopes are open as there are frames before that of the globals. -/
theorem Ready.length {p : Place} (h : Ready s chain p) : chain.length = p.scopes.length + 1 := by
  cases h with
  | fits h => exact h.length
  | @superclass _ scopes name _ h _ =>
    rw [h.length]
    cases scopes <;> rfl

namespace Regular

variable {names : List (List String)} {e : Expr Unit} {raw : Reference Unit} {d : Nat}

/-- What is read is bound where its reference leads. -/
theorem bound (h : Regular ⟨around, scopes, .expr e⟩ names)
    (hready : Ready s chain ⟨around, scopes, .expr e⟩) (hreads : e.reads = true)
    (hr : e.reference? = some raw) (hd : scopes.hops? raw.name.text = some d) :
    ∃ id v, chain[d]? = some id ∧ s.frames.read id raw.name.text = some v := by
  obtain ⟨scope, hscope, hcomplete⟩ := h.complete_of_reads hreads hr hd
  obtain ⟨id, hid, -, -, hbound⟩ := hready.found hr hscope
  obtain ⟨v, hv⟩ := Option.isSome_iff_exists.mp (hbound hcomplete)
  exact ⟨id, v, hid, hv⟩

end Regular

theorem getAt_eq_ok {fs : Frames Value} {d : Nat} {id : FrameId} {name : String} {v : Value}
    (hid : chain[d]? = some id) (hv : fs.read id name = some v) : fs.getAt chain d name = .ok v := by
  unfold Frames.getAt
  rw [hid]
  simp only [hv]

theorem sound_of_getAt (hs : StoreSound V s) {d : Nat} {name : String} {v : Value}
    (hv : s.frames.getAt chain d name = .ok v) : ValueSound V s v := by
  unfold Frames.getAt at hv
  split at hv
  · exact absurd hv (by simp)
  · split at hv
    · exact absurd hv (by simp)
    · rename_i hread
      cases hv
      exact hs.frames _ _ _ hread

/-- Where a receiver is named, it is the object that the method around was made for. -/
theorem Account.this_origin {p : Place} {levels : List Level} (hacc : Account V p levels)
    (hhold : Level.AllHold s levels) {d : Nat} (hd : p.scopes.hops? Keyword.this.word = some d) :
    ∃ l c o s₀, levels[d]? = some l ∧ l.entered = .bind c o s₀ ∧
      s.frames.read l.frame Keyword.this.word = some (.object o) ∧
      ∃ k ∈ o.ofClass.lineage, k.Has c ∧ Level.OfClass (levels.drop (d + 1)) k := by
  obtain ⟨l, hl, hmem, -⟩ := hacc.declaring hd
  obtain ⟨c, o, s₀, he⟩ := (hacc.rooted l (List.mem_of_getElem? hl)).receiver hmem
  obtain ⟨hread, hk⟩ := (hhold.getElem? hl).receiver c o s₀ he
  exact ⟨l, c, o, s₀, hl, he, hread, hk⟩

/-- Where a superclass is named, it is the one that the declaration around found, and the class that
the declaration made is on the lineage of the receiver. -/
theorem Account.super_origin {p : Place} {levels : List Level} (hacc : Account V p levels)
    (hhold : Level.AllHold s levels) {d : Nat} (hthis : p.scopes.hops? Keyword.this.word = some d)
    (hsuper : p.scopes.hops? Keyword.super.word = some (d + 1)) :
    ∃ l l' c o s₀ above made, levels[d]? = some l ∧ levels[d + 1]? = some l' ∧
      l.entered = .bind c o s₀ ∧ Founds l'.entered above made ∧
      s.frames.read l.frame Keyword.this.word = some (.object o) ∧
      s.frames.read l'.frame Keyword.super.word = some (.ofClass above) ∧
      made ∈ o.ofClass.lineage ∧ made.Has c := by
  obtain ⟨l, c, o, s₀, hl, he, hread, k, hk, hhas, hclass⟩ := hacc.this_origin hhold hthis
  obtain ⟨l', hl', hmem', -⟩ := hacc.declaring hsuper
  obtain ⟨name, r, methods, fuel, depth, chain₀, s₁, he'⟩ :=
    (hacc.rooted l' (List.mem_of_getElem? hl')).superclass hmem'
  obtain ⟨above, made, hf, hread'⟩ :=
    (hhold.getElem? hl').superclass name r methods fuel depth chain₀ s₁ he'
  have hmade : made = k := hclass l' (by rw [List.head?_drop]; exact hl') above made hf
  exact ⟨l, l', c, o, s₀, above, made, hl, hl', he, hf, hread, hread', hmade ▸ hk, hmade ▸ hhas⟩

theorem get?_globals (fs : Frames Value) (name : String) :
    fs.get? globals name = fs.read 0 name := by
  unfold Frames.get? globals
  rw [List.findSome?_singleton]

/-- Following a reference changes nothing. -/
theorem follow_done {r : Reference Link} {v : Value} {s' : Store}
    (h : follow chain r s = .done v s') : s' = s := by
  unfold follow at h
  split at h
  · rename_i hops _
    cases hget : s.frames.getAt chain hops r.name.text with
    | ok w =>
      rw [hget] at h
      cases h
      rfl
    | error fault =>
      rw [hget] at h
      exact absurd h (by simp [ofAccess, breakWith])
  · split at h
    · cases h
      rfl
    · exact absurd h (by simp)

/-- Following a reference that is read. -/
theorem follow_meets {names : List (List String)} {e : Expr Unit} {raw : Reference Unit}
    (h : Regular ⟨around, scopes, .expr e⟩ names)
    (hready : Ready s chain ⟨around, scopes, .expr e⟩) (hs : StoreSound V s)
    (hreads : e.reads = true) (hr : e.reference? = some raw) :
    Meets V s (follow chain ⟨raw.name, scopes.hops? raw.name.text⟩ s)
      fun v s' => ValueSound V s' v := by
  cases hd : scopes.hops? raw.name.text with
  | some d =>
    obtain ⟨id, v, hid, hv⟩ := h.bound hready hreads hr hd
    have hdone : follow chain ⟨raw.name, some d⟩ s = .done v s := by
      unfold follow
      simp only [getAt_eq_ok hid hv]
      rfl
    rw [hdone]
    exact ⟨.refl s, hs, hs.frames id _ v hv⟩
  | none =>
    unfold follow
    simp only [get?_globals]
    cases hv : s.frames.read 0 raw.name.text with
    | some v => exact ⟨.refl s, hs, hs.frames 0 _ v hv⟩
    | none => exact ⟨.refl s, hs⟩

/-- Changing what a reference leads to. -/
theorem store_meets {e : Expr Unit} {raw : Reference Unit}
    (hready : Ready s chain ⟨around, scopes, .expr e⟩) (hs : StoreSound V s)
    (hr : e.reference? = some raw) (hplain : Plain raw.name.text) {v : Value}
    (hv : ValueSound V s v) :
    Meets V s (store chain ⟨raw.name, scopes.hops? raw.name.text⟩ v s) fun _ _ => True := by
  have hdefine : ∀ id, Meets V s (Outcome.done ()
      { s with frames := s.frames.define id raw.name.text v }) fun _ _ => True := by
    intro id
    have he := Extends.define s id hplain v
    exact ⟨he, hs.define hplain (hv.mono he), trivial⟩
  unfold store
  cases hd : scopes.hops? raw.name.text with
  | some d =>
    obtain ⟨scope, hscope, -⟩ := Regular.hops?_eq_some hd
    obtain ⟨id, hid, -⟩ := hready.found hr hscope
    simp only [hid]
    exact hdefine id
  | none =>
    cases hh : s.frames.holder? globals raw.name.text with
    | some id => exact hdefine id
    | none => exact ⟨.refl s, hs⟩

/-! ## Declarations -/

theorem Fits.head_made (h : Fits s scopes chain) (hs : StoreSound V s) {id : FrameId}
    (hid : chain.head? = some id) : id < s.frames.size := by
  cases h with
  | globals =>
    cases hid
    exact hs.globals
  | cons hf _ =>
    cases hid
    exact hf.made

/-- A name that is bound in the innermost frame is declared completely. -/
theorem defineIn_meets (h : Fits s scopes chain) (hs : StoreSound V s) {name : String}
    (hn : Plain name) {v : Value}
    (hv : ∀ s', Extends s s' → Fits s' (scopes.add name) chain → ValueSound V s' v) :
    Meets V s (defineIn chain name v s) fun _ s' => Fits s' (scopes.add name) chain := by
  cases hchain : chain with
  | nil =>
    rw [hchain] at h
    exact absurd h (by rintro ⟨⟩)
  | cons id rest =>
    have hlt : id < s.frames.size := h.head_made hs (by rw [hchain]; rfl)
    have he := Extends.define s id hn v
    have hfits : Fits { s with frames := s.frames.define id name v } (scopes.add name) chain := by
      refine (h.mono he).add hn fun id' hid' _ => ?_
      rw [hchain] at hid'
      cases hid'
      rw [Frames.read_define _ hlt, if_pos ⟨rfl, rfl⟩]
      rfl
    rw [← hchain]
    have hdone : defineIn chain name v s =
        .done () { s with frames := s.frames.define id name v } := by
      rw [hchain]
      rfl
    rw [hdone]
    exact ⟨he, hs.define hn (hv _ he hfits), hfits⟩

/-- A declaration makes no frame. -/
theorem defineIn_size {name : String} {v : Value} {s' : Store}
    (h : defineIn chain name v s = .done () s') : s'.frames.size = s.frames.size := by
  cases chain with
  | nil => exact absurd h (by simp [defineIn, breakWith])
  | cons id rest =>
    cases h
    exact Frames.size_define _ _ _ _

/-! ## Calls -/

theorem get?_parameterFrame {params : List Name} {args : List Value} {name : String} :
    (∀ v, (parameterFrame params args).get? name = some v → v ∈ args) ∧
      (params.length = args.length → name ∈ params.map Name.text →
        ((parameterFrame params args).get? name).isSome = true) := by
  have hgeneral : ∀ (pairs : List (Name × Value)) (b : Bindings Value),
      (∀ v, (pairs.foldl (fun b pair => b.set pair.1.text pair.2) b).get? name = some v →
        v ∈ pairs.map Prod.snd ∨ b.get? name = some v) ∧
      ((name ∈ pairs.map (·.1.text) ∨ (b.get? name).isSome = true) →
        ((pairs.foldl (fun b pair => b.set pair.1.text pair.2) b).get? name).isSome = true) := by
    intro pairs
    induction pairs with
    | nil => exact fun b => ⟨fun v h => Or.inr h, fun h => h.resolve_left (by simp)⟩
    | cons pair pairs ih =>
      intro b
      obtain ⟨hvalues, hbound⟩ := ih (b.set pair.1.text pair.2)
      refine ⟨fun v hv => ?_, fun h => hbound ?_⟩
      · rcases hvalues v hv with h | h
        · exact Or.inl (List.mem_cons_of_mem _ h)
        · rw [Bindings.get?_set] at h
          split at h
          · cases h
            exact Or.inl List.mem_cons_self
          · exact Or.inr h
      · rw [List.map_cons, List.mem_cons] at h
        rw [Bindings.get?_set]
        split
        · exact Or.inr rfl
        · rename_i hne
          rcases h with (h | h) | h
          · exact absurd h hne
          · exact Or.inl h
          · exact Or.inr h
  obtain ⟨hvalues, hbound⟩ := hgeneral (params.zip args) .empty
  refine ⟨fun v hv => ?_, fun hlen hname => hbound (Or.inl ?_)⟩
  · rcases hvalues v hv with h | h
    · obtain ⟨pair, hpair, rfl⟩ := List.mem_map.mp h
      exact (List.of_mem_zip hpair).2
    · rw [Bindings.get?_empty] at h
      exact absurd h (by simp)
  · obtain ⟨p, hp, rfl⟩ := List.mem_map.mp hname
    have hfst : (params.zip args).map Prod.fst = params :=
      List.map_fst_zip (Nat.le_of_eq hlen)
    rw [← hfst] at hp
    obtain ⟨pair, hpair, rfl⟩ := List.mem_map.mp hp
    exact List.mem_map.mpr ⟨pair, hpair, rfl⟩

/-- The chain of a new frame without names. -/
theorem Fits.enter (h : Fits s scopes chain) (hs : StoreSound V s) (b : Bindings Value) :
    Fits { s with frames := s.frames.push b } (.empty :: scopes) (s.frames.size :: chain) := by
  refine .cons (.empty hs.globals ?_) (h.mono (.push s b))
  rw [Frames.size_push]
  exact Nat.lt_succ_self _

theorem Fits.enter_single (h : Fits s scopes chain) (hs : StoreSound V s) {w : String} {v : Value}
    (hthis : w = Keyword.this.word → ∃ o, v = .object o)
    (hsuper : w = Keyword.super.word → ∃ k, v = .ofClass k) :
    Fits { s with frames := s.frames.push (Bindings.empty.set w v) } (.single w :: scopes)
      (s.frames.size :: chain) := by
  refine .cons (.single hs.globals ?_ (v := v) ?_ hthis hsuper) (h.mono (.push s _))
  · rw [Frames.size_push]
    exact Nat.lt_succ_self _
  · rw [Frames.read_push, if_pos rfl, Bindings.get?_set_self]

theorem Fits.enter_call (h : Fits s scopes chain) (hs : StoreSound V s) {params : List Name}
    (hplain : ∀ p ∈ params, Plain p.text) {args : List Value} (hlen : params.length = args.length) :
    Fits { s with frames := s.frames.push (parameterFrame params args) }
      (Scopes.introduceAll (.empty :: scopes) params).1 (s.frames.size :: chain) := by
  rw [Scopes.introduceAll_fst]
  refine (h.enter hs _).addAll (fun n hn => ?_) fun id hid _ n hn => ?_
  · obtain ⟨p, hp, rfl⟩ := List.mem_map.mp hn
    exact hplain p hp
  · cases hid
    rw [Frames.read_push, if_pos rfl]
    exact get?_parameterFrame.2 hlen hn

/-! ## Functions, objects and classes -/

/-- What a new frame holds that binds one name. -/
theorem read_push_single (fs : Frames Value) (w : String) (v : Value) :
    (fs.push (Bindings.empty.set w v)).read fs.size w = some v := by
  rw [Frames.read_push, if_pos rfl, Bindings.get?_set_self]

/-- A method that is made for an object of its class can be called. -/
theorem bindMethod_meets {c : Closure} {o : Object} (hv : V (.bind c o s))
    (hc : ∃ k ∈ o.ofClass.lineage, k.Has c ∧ MethodSound V s k c) (ho : ClassSound V s o.ofClass)
    (hs : StoreSound V s) :
    Meets V s (bindMethod c o s) fun c' s' => ClosureSound V s' c' ∧ c'.function = c.function := by
  obtain ⟨k, hk, hhas, hacc, hfun, hcap, hfits, hclass, hhold⟩ := hc
  have hpush := Extends.push s (Bindings.empty.set Keyword.this.word (.object o))
  have hlast : ∀ t : Store, Extends t { t with fresh := t.fresh + 1 } := fun t => .of_frames rfl
  have he := hpush.trans (hlast _)
  refine ⟨he, ?_, ?_, rfl⟩
  · exact StoreSound.congr (s := { s with frames := s.frames.push _ })
      (hs.push_single (v := .object o) ho) rfl rfl
  · refine .mk (hacc.bind hfun hcap hv) ?_ ?_ ?_ (fun _ => rfl) ⟨⟨?_, ?_⟩, hhold.mono he⟩
    · injection hfun with hfun
      exact congrArg Node.function hfun
    · rw [Level.chain_cons, ← hcap]
      rfl
    · refine Fits.mono (hlast _) (hfits.enter_single hs (fun _ => ⟨o, rfl⟩) fun h => ?_)
      exact absurd h (by decide)
    · rintro c₀ o₀ s₀ ⟨⟩
      exact ⟨read_push_single _ _ _, k, hk, hhas, hclass⟩
    · exact fun _ _ _ _ _ _ _ hl => absurd hl (by simp)

/-- A property of an object. -/
theorem getProperty_meets {o : Object} {field : Name} (ho : ClassSound V s o.ofClass)
    (hs : StoreSound V s)
    (hv : ∀ c, (fields s o).get? field.text = none → o.ofClass.findMethod? field.text = some c →
      V (.bind c o s)) :
    Meets V s (getProperty o field s) fun v s' => ValueSound V s' v := by
  unfold getProperty
  cases hf : (fields s o).get? field.text with
  | some v => exact ⟨.refl s, hs, hs.fields o.id _ v hf⟩
  | none =>
    cases hc : o.ofClass.findMethod? field.text with
    | none => exact ⟨.refl s, hs⟩
    | some c =>
      have hbind := bindMethod_meets (hv c hf hc) (ClassSound.findMethod? ho hc) ho hs
      exact ⟨hbind.1, hbind.2.1, hbind.2.2.1⟩

theorem setField_meets (hs : StoreSound V s) (o : Object) (name : String) {v : Value}
    (hv : ValueSound V s v) : Meets V s (setField o name v s) fun _ _ => True :=
  ⟨.of_frames rfl, hs.setField o name hv, trivial⟩

theorem newObject_meets (hs : StoreSound V s) {k : ClassValue} (hk : ClassSound V s k) :
    Meets V s (newObject k s) fun o s' => ClassSound V s' o.ofClass := by
  have he : Extends s { s with objects := s.objects.push .empty } := .of_frames rfl
  exact ⟨he, hs.newObject, ClassSound.mono he hk⟩

/-- The methods of a class, each with an account. -/
theorem newMethods_meets {fs : List (Function Unit)} {aroundOf : Function Unit → Surroundings}
    {levels : List Level}
    (hacc : ∀ f ∈ fs, Account V ⟨aroundOf f, scopes, .method f⟩ levels)
    (hchain : chain = Level.chain levels) :
    ∀ {s : Store} {table : Bindings Closure}, Fits s scopes chain → Level.AllHold s levels →
      StoreSound V s →
      (∀ k, Level.OfClass levels k → ∀ name c, table.get? name = some c → MethodSound V s k c) →
      Meets V s (newMethods chain (fs.map fun f =>
          (linkFunction (aroundOf f) (.single Keyword.this.word :: scopes) f).tree) table s)
        fun table' s' => ∀ k, Level.OfClass levels k →
          ∀ name c, table'.get? name = some c → MethodSound V s' k c := by
  induction fs with
  | nil => exact fun hfits hhold hs htable => ⟨.refl _, hs, htable⟩
  | cons f fs ih =>
    intro s table hfits hhold hs htable
    have he : Extends s { s with fresh := s.fresh + 1 } := .of_frames rfl
    refine (ih (fun g hg => hacc g (List.mem_cons_of_mem _ hg)) (hfits.mono he) (hhold.mono he)
      (hs.congr rfl rfl) fun k hk name c hc => ?_).after he
    rw [Bindings.get?_set] at hc
    split at hc
    · cases hc
      exact .mk (hacc f List.mem_cons_self) rfl hchain (hfits.mono he) hk (hhold.mono he)
    · exact (htable k hk name c hc).mono he

/-- Making methods takes nothing but identities. -/
theorem newMethods_done (chain : Chain) (fs : List (Function Link)) :
    ∀ (table : Bindings Closure) (s : Store), ∃ table' fresh,
      newMethods chain fs table s = .done table' { s with fresh } := by
  induction fs with
  | nil => exact fun table s => ⟨table, s.fresh, rfl⟩
  | cons f fs ih =>
    intro table s
    exact ih (table.set f.name.text ⟨s.fresh, f, chain, f.name.text == initName⟩)
      { s with fresh := s.fresh + 1 }

end LoxKit
