import LoxKit.Proofs.Alignment.Twins

/-!
# A store is its own twin

In a store that is sound every function comes from a place in a program without issues, and its chain
fits the scopes there. So the store is its own twin, with each frame as its own partner.

Headlines:
* `Pairing.upTo`: the frames of a store as their own partners.
* `Fits.aligned`: a chain that fits its scopes is aligned with itself.
* **`StoreSound.twins`**: a sound store is its own twin.
-/

namespace LoxKit

open LoxKit.Action

/-- The frames of a store, each its own partner. -/
def Pairing.upTo (s : Store) : Pairing := fun i j =>
  i = j ∧ i < s.frames.size

variable {V : Moment → Prop} {s : Store} {scopes : Scopes} {chain : Chain}

theorem Fits.aligned (hg : 0 < s.frames.size) (h : Fits s scopes chain) :
    Aligned (.upTo s) scopes chain scopes chain := by
  induction h with
  | globals => exact .globals ⟨rfl, hg⟩
  | cons hf _ ih => exact .both ⟨rfl, hf.made⟩ ih

theorem Fits.flush (hg : 0 < s.frames.size) (h : Fits s scopes chain) :
    Flush (.upTo s) scopes chain scopes chain := by
  cases h with
  | globals => exact .globals ⟨rfl, hg⟩
  | cons hf h => exact .both ⟨rfl, hf.made⟩ (h.aligned hg)

theorem ClosureSound.twin (hg : 0 < s.frames.size) {c : Closure} (h : ClosureSound V s c) :
    ClosureTwin (.upTo s) c c := by
  obtain ⟨hacc, hc, -, hfits, -, -⟩ := h
  have hf := Node.function.inj hc
  exact ⟨rfl, rfl, hacc.regular, hf, hf, hfits.flush hg⟩

theorem MethodSound.twin (hg : 0 < s.frames.size) {k : ClassValue} {c : Closure}
    (h : MethodSound V s k c) : MethodTwin (.upTo s) c c := by
  obtain ⟨hacc, hc, -, hfits, -, -⟩ := h
  have hf := Node.method.inj hc
  exact ⟨rfl, hacc.regular, hf, hf, hfits.aligned hg⟩

/-- What may be there is related to itself if it is whenever it is there. -/
theorem optionRel_self {α : Type} {r : α → α → Prop} {a : Option α} (h : ∀ x, a = some x → r x x) :
    Option.Rel r a a := by
  cases a with
  | none => exact .none
  | some x => exact .some (h x rfl)

theorem ClassSound.twin (hg : 0 < s.frames.size) {k : ClassValue} (h : ClassSound V s k) :
    ClassTwin (.upTo s) k k := by
  unfold ClassSound at h
  fun_induction ClassValue.lineage k with
  | case1 id name methods =>
    exact .root fun key => optionRel_self fun c hc => (h _ List.mem_cons_self key c hc).twin hg
  | case2 id name superclass methods ih =>
    refine .derived (ih fun k' hk' => h k' (List.mem_cons_of_mem _ hk')) fun key => ?_
    exact optionRel_self fun c hc => (h _ List.mem_cons_self key c hc).twin hg

theorem ValueSound.twin (hg : 0 < s.frames.size) {v : Value} (h : ValueSound V s v) :
    ValueTwin (.upTo s) v v := by
  cases v with
  | nil => exact .nil
  | bool b => exact .bool b
  | number x => exact .number x
  | string x => exact .string x
  | closure c => exact .closure (ClosureSound.twin hg h)
  | native n => exact .native n
  | ofClass k => exact .ofClass (ClassSound.twin hg h)
  | object o => exact .object o.id (ClassSound.twin hg h)

/-- **A sound store is its own twin.** -/
theorem StoreSound.twins (h : StoreSound V s) : Twins (.upTo s) s s where
  made := by
    rintro i _ ⟨rfl, hi⟩
    exact ⟨hi, hi⟩
  unique i j j' hj hj' := hj.1.symm.trans hj'.1
  unique' i i' j hi hi' := hi.1.trans hi'.1.symm
  frames := by
    rintro i _ ⟨rfl, -⟩ name
    exact optionRel_self fun v hv => (h.frames i name v hv).twin h.globals
  objects := rfl
  fields id name := optionRel_self fun v hv => (h.fields id name v hv).twin h.globals
  fresh := rfl
  readings := rfl
  output := rfl

end LoxKit
