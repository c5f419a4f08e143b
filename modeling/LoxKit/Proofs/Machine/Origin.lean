import LoxKit.Proofs.Machine.Account

/-!
# Where receivers and superclasses come from

Two kinds of levels bind a keyword: that of a method made for an object binds `this`, and that of a
class with a superclass binds `super`. What they bind was settled when they were entered, and it is
said here in terms of those moments: the object that the method was made for, and the class that the
declaration found as its superclass.

Headlines:
* `Founds`: a class declaration finds its superclass and makes its class.
* `Level.Holds`: what the frame of a level has bound ever since it was entered.
* `Account.rooted`: what was entered where `this` or `super` is declared.
-/

namespace LoxKit

open LoxKit.Action

/-- A class declaration that begins finds a superclass and makes a class: behind it, the innermost
frame binds its name to that class. None of this depends on the host. -/
inductive Founds : Moment → ClassValue → ClassValue → Prop
  | mk {name : Name} {r : Reference Link} {methods : List (Function Link)} {fuel depth : Nat}
      {chain : Chain} {s s' : Store} {above made : ClassValue}
      (habove : follow chain r s = .done (.ofClass above) s)
      (hrun : ∀ h, execute h fuel depth chain (.classDecl name (some r) methods) s =
        .done .carryOn s')
      (hmade : s'.frames.getAt chain 0 name.text = .ok (.ofClass made))
      (hsuper : made.superclass? = some above) :
      Founds (.run (.stmt (.classDecl name (some r) methods)) fuel depth chain s) above made

/-- A declaration that begins makes one class from one superclass. -/
theorem Founds.unique {m : Moment} {above above' made made' : ClassValue}
    (h : Founds m above made) (h' : Founds m above' made') : above = above' ∧ made = made' := by
  obtain ⟨habove, hrun, hmade, -⟩ := h
  obtain ⟨habove', hrun', hmade', -⟩ := h'
  rw [habove] at habove'
  cases habove'
  have hstore := (hrun ⟨fun _ => 0, 0⟩).symm.trans (hrun' ⟨fun _ => 0, 0⟩)
  cases hstore
  rw [hmade] at hmade'
  cases hmade'
  exact ⟨rfl, rfl⟩

namespace ClassValue

/-- A superclass is on the lineage, with all that is behind it. -/
theorem lineage_superclass {k above : ClassValue} (h : k.superclass? = some above) :
    ∀ k' ∈ above.lineage, k' ∈ k.lineage := by
  obtain ⟨id, name, superclass, methods⟩ := k
  cases h
  exact fun k' hk' => List.mem_cons_of_mem _ hk'

/-- What is behind a class of a lineage is on that lineage too. -/
theorem lineage_trans {k k' k'' : ClassValue} (h : k' ∈ k.lineage) (h' : k'' ∈ k'.lineage) :
    k'' ∈ k.lineage := by
  fun_induction lineage k with
  | case1 id name methods =>
    rw [List.mem_singleton.mp h] at h'
    exact h'
  | case2 id name above methods ih =>
    rcases List.mem_cons.mp h with rfl | h
    · exact h'
    · exact List.mem_cons_of_mem _ (ih h)

/-- A method belongs to a class of its own. -/
def Has (k : ClassValue) (c : Closure) : Prop :=
  ∃ name, k.methods.get? name = some c

theorem has_of_findMethod? {k : ClassValue} {name : String} {c : Closure}
    (h : k.findMethod? name = some c) : ∃ k' ∈ k.lineage, k'.Has c := by
  rw [findMethod?_eq] at h
  obtain ⟨k', hk', hc⟩ := List.exists_of_findSome?_eq_some h
  exact ⟨k', hk', name, hc⟩

end ClassValue

/-- The class that a declaration makes has the lineage of its superclass behind it. -/
theorem Founds.lineage {m : Moment} {above made : ClassValue} (h : Founds m above made) :
    ∀ k ∈ above.lineage, k ∈ made.lineage := by
  obtain ⟨-, -, -, hsuper⟩ := h
  exact ClassValue.lineage_superclass hsuper

/-! ## Levels -/

namespace Level

/-- If the innermost level is that of a class, it is the class that the declaration makes. -/
def OfClass (levels : List Level) (k : ClassValue) : Prop :=
  ∀ l, levels.head? = some l → ∀ above made, Founds l.entered above made → made = k

/-- What the frame of a level has bound ever since it was entered. -/
structure Holds (s : Store) (l : Level) (outer : List Level) : Prop where
  /-- The object that a method was made for. It has the method from a class of its lineage, and that
  class is the one around the method. -/
  receiver : ∀ c o s₀, l.entered = .bind c o s₀ →
    s.frames.read l.frame Keyword.this.word = some (.object o) ∧
      ∃ k ∈ o.ofClass.lineage, k.Has c ∧ OfClass outer k
  /-- The superclass that a declaration found. -/
  superclass : ∀ name r methods fuel depth chain s₀,
    l.entered = .run (.stmt (.classDecl name (some r) methods)) fuel depth chain s₀ →
    ∃ above made, Founds l.entered above made ∧
      s.frames.read l.frame Keyword.super.word = some (.ofClass above)

/-- What is entered where a keyword is declared: `this` belongs to a method that is made for an object,
and `super` to a class with a superclass. -/
structure Rooted (l : Level) : Prop where
  receiver : Keyword.this.word ∈ l.declared → ∃ c o s₀, l.entered = .bind c o s₀
  superclass : Keyword.super.word ∈ l.declared → ∃ name r methods fuel depth chain s₀,
    l.entered = .run (.stmt (.classDecl name (some r) methods)) fuel depth chain s₀

/-- Plain names are no keywords. -/
theorem Rooted.of_plain {l : Level} (h : ∀ n ∈ l.declared, Plain n) : l.Rooted :=
  ⟨fun hm => absurd rfl ((h _ hm).ne_word .this), fun hm => absurd rfl ((h _ hm).ne_word .super)⟩

theorem Rooted.declare {levels : List Level} (h : ∀ l ∈ levels, l.Rooted) {names : List String}
    (hn : ∀ n ∈ names, Plain n) : ∀ l ∈ declare levels names, l.Rooted := by
  intro l hl
  cases levels with
  | nil => exact absurd hl List.not_mem_nil
  | cons first outer =>
    rw [List.forall_mem_cons] at h
    rcases List.mem_cons.mp hl with rfl | hl
    · refine ⟨fun hm => h.1.receiver ?_, fun hm => h.1.superclass ?_⟩
      · exact (List.mem_append.mp hm).resolve_right fun hm => (hn _ hm).ne_word .this rfl
      · exact (List.mem_append.mp hm).resolve_right fun hm => (hn _ hm).ne_word .super rfl
    · exact h.2 l hl

/-- What the frames of levels have bound ever since they were entered. -/
def AllHold (s : Store) : List Level → Prop
  | [] => True
  | l :: outer => l.Holds s outer ∧ AllHold s outer

theorem head?_declare (levels : List Level) (names : List String) :
    (declare levels names).head? =
      levels.head?.map fun l => { l with declared := l.declared ++ names } := by
  cases levels <;> rfl

theorem OfClass.declare {levels : List Level} {k : ClassValue} (h : OfClass levels k)
    (names : List String) : OfClass (Level.declare levels names) k := by
  intro l hl above made hf
  rw [head?_declare, Option.map_eq_some_iff] at hl
  obtain ⟨l', hl', rfl⟩ := hl
  exact h l' hl' above made hf

variable {s : Store}

/-- Names make no difference. -/
theorem AllHold.declare {levels : List Level} (h : AllHold s levels) (names : List String) :
    AllHold s (Level.declare levels names) := by
  cases levels with
  | nil => trivial
  | cons l outer => exact ⟨⟨h.1.receiver, h.1.superclass⟩, h.2⟩

theorem AllHold.getElem? {levels : List Level} (h : AllHold s levels) {d : Nat} {l : Level}
    (hd : levels[d]? = some l) : l.Holds s (levels.drop (d + 1)) := by
  induction levels generalizing d with
  | nil => exact absurd hd (by simp)
  | cons first outer ih =>
    cases d with
    | zero =>
      cases hd
      exact h.1
    | succ d => exact ih h.2 hd

/-- A level that was entered by a block or a call binds no keyword. -/
theorem Holds.of_block {l : Level} {outer : List Level} {p : Place} {body : List (Stmt Unit)}
    (hn : p.node = .stmt (.block body)) {fuel depth : Nat} {chain : Chain} {s₀ : Store}
    (hl : l.entered = .run p.linked fuel depth chain s₀) : l.Holds s outer := by
  obtain ⟨around, scopes, node⟩ := p
  cases hn
  simp only [Place.linked, linkStmt] at hl
  refine ⟨fun c o s₁ h => ?_, fun name r methods _ _ _ s₁ h => ?_⟩
  · exact absurd (hl.symm.trans h) (by simp)
  · exact absurd (hl.symm.trans h) (by simp)

theorem Holds.of_call {l : Level} {outer : List Level} {c : Closure} {args : List Value}
    {fuel depth : Nat} {s₀ : Store} (hl : l.entered = .invoke c args fuel depth s₀) :
    l.Holds s outer := by
  refine ⟨fun c o s₁ h => ?_, fun name r methods _ _ _ s₁ h => ?_⟩
  · exact absurd (hl.symm.trans h) (by simp)
  · exact absurd (hl.symm.trans h) (by simp)

end Level

/-! ## Accounts -/

section Accounts

variable {V : Moment → Prop} {p : Place} {levels : List Level}

/-- Only a method stands right inside of the level of a class. -/
theorem Account.not_founds (hacc : Account V p levels) (hp : ∀ f, p.node ≠ .method f) :
    ∀ l, levels.head? = some l → ∀ above made, ¬ Founds l.entered above made := by
  have hdeclare : ∀ {levels : List Level} {names : List String},
      (∀ l, levels.head? = some l → ∀ above made, ¬ Founds l.entered above made) →
      ∀ l, (Level.declare levels names).head? = some l →
        ∀ above made, ¬ Founds l.entered above made := by
    intro levels names h l hl
    rw [Level.head?_declare, Option.map_eq_some_iff] at hl
    obtain ⟨l', hl', rfl⟩ := hl
    exact h l' hl'
  induction hacc with
  | text => exact fun l hl => absurd hl (by simp)
  | part h hpart ih =>
    refine hdeclare (ih fun f hf => ?_)
    obtain ⟨n, hn, -⟩ := Place.part_eq_some.mp hpart
    rw [hf] at hn
    exact absurd hn (by simp [Node.part])
  | @block q levels body fuel depth s h hn _ _ =>
    rintro l ⟨⟩ above made hf
    obtain ⟨around, scopes, node⟩ := q
    cases hn
    simp only [Place.linked, linkStmt] at hf
    cases hf
  | function h hn _ ih => exact hdeclare (ih fun f hf => by rw [hn] at hf; cases hf)
  | method => exact absurd rfl (hp _)
  | inherited => exact absurd rfl (hp _)
  | bind =>
    rintro l ⟨⟩ above made hf
    cases hf
  | call =>
    rintro l ⟨⟩ above made hf
    cases hf

/-- What was entered where a keyword is declared. -/
theorem Account.rooted (hacc : Account V p levels) : ∀ l ∈ levels, l.Rooted := by
  induction hacc with
  | text => exact fun l hl => absurd hl List.not_mem_nil
  | @part q _ levels i h _ ih =>
    refine Level.Rooted.declare ih ?_
    rcases Place.scopesAt_cases h.regular.proper i with ⟨name, _, -, -, hn, -, hd⟩ | ⟨-, hn⟩
    · rw [hd]
      exact List.forall_mem_singleton.mpr hn
    · exact hn
  | block _ _ _ ih =>
    exact List.forall_mem_cons.mpr ⟨.of_plain fun _ h => absurd h List.not_mem_nil, ih⟩
  | @function q levels f _ _ _ h hn _ ih =>
    refine Level.Rooted.declare ih (List.forall_mem_singleton.mpr ?_)
    have hproper := h.regular.proper
    rw [hn] at hproper
    cases hproper with
    | function hf => exact hf.plain_name
  | @method q levels name methods f _ _ _ h hn _ _ ih =>
    refine Level.Rooted.declare ih (List.forall_mem_singleton.mpr ?_)
    have hproper := h.regular.proper
    rw [hn] at hproper
    cases hproper with
    | classDecl hname _ _ => exact hname
  | @inherited q levels name r methods f _ _ _ h hn _ _ ih =>
    have hproper := h.regular.proper
    obtain ⟨around, scopes, node⟩ := q
    cases hn
    refine List.forall_mem_cons.mpr ⟨⟨fun hm => ?_, fun _ => ?_⟩, ?_⟩
    · exact absurd (List.mem_singleton.mp hm) (by decide)
    · simp only [Place.linked, linkStmt]
      exact ⟨_, _, _, _, _, _, _, rfl⟩
    · cases hproper with
      | classDecl hname _ _ => exact Level.Rooted.declare ih (List.forall_mem_singleton.mpr hname)
  | bind _ _ _ _ ih =>
    refine List.forall_mem_cons.mpr ⟨⟨fun _ => ⟨_, _, _, rfl⟩, fun hm => ?_⟩, ih⟩
    exact absurd (List.mem_singleton.mp hm) (by decide)
  | @call _ _ f levels _ _ _ _ _ h _ _ _ ih =>
    have hf : f.Proper := h.regular.proper
    exact List.forall_mem_cons.mpr ⟨.of_plain (List.forall_mem_map.mpr hf.plain_params), ih⟩

end Accounts

end LoxKit
