import LoxKit.Proofs.Machine.Sound

/-!
# Searching a chain

A variable is reached in two ways: by its name, in the first frame of a chain that binds it, or by
the number of frames to leave. Evaluation mixes the two on one store, in which many chains have
frames in common. With the number of that first frame they come to the same: they read the same
value, they change the same frame, and nothing that any chain can see changes but this one variable.

Headlines:
* `Action.lookUp`, `Action.assign` and `Action.lookUpAt`, `Action.assignAt`: the two ways.
* `Action.follow_eq`, `Action.store_eq`: a reference is followed in one of them.
* `Frames.Replaces`: one variable of one frame has another value, as every chain sees it.
* **`Action.search_agrees`**: when a search is successful, and which number it comes to.
-/

namespace LoxKit

/-! ## Frames -/

namespace Frames

variable {α : Type}

/-- Some frame of a chain binds a name. -/
def Binds (fs : Frames α) (chain : Chain) (name : String) : Prop :=
  ∃ id ∈ chain, (fs.frame id).contains name = true

/-- How many frames of a chain lie before the first that binds a name. -/
def hops? (fs : Frames α) (chain : Chain) (name : String) : Option Nat :=
  chain.findIdx? fun id => (fs.frame id).contains name

/-- The second frames are the first but for the value of one name in one frame, where the name is
bound in both. -/
structure Replaces (fs fs' : Frames α) (id : FrameId) (name : String) (value : α) : Prop where
  size : fs'.size = fs.size
  bound : (fs.frame id).contains name = true
  here : fs'.read id name = some value
  elsewhere : ∀ other key, (other, key) ≠ (id, name) → fs'.read other key = fs.read other key

theorem contains_eq_isSome_read (fs : Frames α) (id : FrameId) (name : String) :
    (fs.frame id).contains name = (fs.read id name).isSome := rfl

/-- Only a frame that was made binds names. -/
theorem lt_size_of_contains {fs : Frames α} {id : FrameId} {name : String}
    (h : (fs.frame id).contains name = true) : id < fs.size := by
  by_contra hge
  rw [contains_eq_isSome_read, read_of_le fs (Nat.not_lt.mp hge)] at h
  exact absurd h (by simp)

theorem replaces_define {fs : Frames α} {id : FrameId} {name : String}
    (h : (fs.frame id).contains name = true) (value : α) :
    fs.Replaces (fs.define id name value) id name value := by
  have hread := read_define fs (lt_size_of_contains h)
  constructor
  · exact size_define fs id name value
  · exact h
  · rw [hread, if_pos ⟨rfl, rfl⟩]
  · intro other key hne
    rw [hread, if_neg fun heq => hne (Prod.ext heq.1 heq.2)]

/-- A search by name comes to the end of a chain exactly if no frame of it binds the name. -/
theorem get?_eq_none_iff {fs : Frames α} {chain : Chain} {name : String} :
    fs.get? chain name = none ↔ ¬fs.Binds chain name := by
  unfold get? Binds
  simp only [List.findSome?_eq_none_iff, contains_eq_isSome_read, not_exists, not_and,
    Bool.not_eq_true, Option.isSome_eq_false_iff, Option.isNone_iff_eq_none]

theorem assign?_eq_none_iff {fs : Frames α} {chain : Chain} {name : String} {value : α} :
    fs.assign? chain name value = none ↔ ¬fs.Binds chain name := by
  unfold assign? holder? Binds
  simp only [Option.map_eq_none_iff, List.find?_eq_none, not_exists, not_and]

theorem binds_iff_hops? {fs : Frames α} {chain : Chain} {name : String} :
    fs.Binds chain name ↔ ∃ d, fs.hops? chain name = some d := by
  unfold Binds hops?
  rw [← Option.isSome_iff_exists, List.findIdx?_isSome, List.any_eq_true]

/-- The frame that a search by name comes to. -/
theorem getElem?_of_hops? {fs : Frames α} {chain : Chain} {name : String} {d : Nat}
    (h : fs.hops? chain name = some d) :
    ∃ id, chain[d]? = some id ∧ (fs.frame id).contains name = true ∧
      ∀ id' ∈ chain.take d, (fs.frame id').contains name = false := by
  obtain ⟨hlt, hbinds, hbefore⟩ := List.findIdx?_eq_some_iff_getElem.mp h
  refine ⟨chain[d], List.getElem?_eq_getElem hlt, hbinds, fun id' hid' => ?_⟩
  obtain ⟨j, hj, rfl⟩ := List.mem_take_iff_getElem.mp hid'
  exact Bool.not_eq_true _ ▸ hbefore j (by omega)

namespace Replaces

variable {fs fs' : Frames α} {id : FrameId} {name : String} {value : α}

theorem read_eq (h : fs.Replaces fs' id name value) (other : FrameId) (key : String) :
    fs'.read other key = if other = id ∧ key = name then some value else fs.read other key := by
  by_cases heq : other = id ∧ key = name
  · obtain ⟨rfl, rfl⟩ := heq
    rw [if_pos ⟨rfl, rfl⟩, h.here]
  · rw [if_neg heq, h.elsewhere other key fun hp => heq (Prod.ext_iff.mp hp)]

/-- The same names are bound as before. -/
theorem contains_eq (h : fs.Replaces fs' id name value) (other : FrameId) (key : String) :
    (fs'.frame other).contains key = (fs.frame other).contains key := by
  have hbound := h.bound
  simp only [contains_eq_isSome_read, h.read_eq] at hbound ⊢
  by_cases heq : other = id ∧ key = name
  · obtain ⟨rfl, rfl⟩ := heq
    rw [if_pos ⟨rfl, rfl⟩, hbound, Option.isSome_some]
  · rw [if_neg heq]

theorem hops?_eq (h : fs.Replaces fs' id name value) (chain : Chain) (key : String) :
    fs'.hops? chain key = fs.hops? chain key := by
  unfold hops?
  congr 1
  funext other
  exact h.contains_eq other key

/-- Every chain reads by number what it has read before, but for that name in that frame. -/
theorem getAt_eq (h : fs.Replaces fs' id name value) (chain : Chain) (d : Nat) (key : String) :
    fs'.getAt chain d key =
      if chain[d]? = some id ∧ key = name then .ok value else fs.getAt chain d key := by
  unfold getAt
  cases chain[d]? with
  | none => simp
  | some other =>
    simp only [h.read_eq, Option.some.injEq]
    by_cases heq : other = id ∧ key = name
    · simp only [if_pos heq]
    · simp only [if_neg heq]

/-- Every chain finds by name what it has found before, but for that name where it is that frame in
which the chain finds it. -/
theorem get?_eq (h : fs.Replaces fs' id name value) (chain : Chain) (key : String) :
    fs'.get? chain key =
      if fs.holder? chain key = some id ∧ key = name then some value else fs.get? chain key := by
  unfold get? holder?
  induction chain with
  | nil => simp
  | cons other chain ih =>
    simp only [List.findSome?_cons, List.find?_cons, h.read_eq]
    by_cases hbinds : (fs.frame other).contains key = true
    · obtain ⟨v, hv⟩ := Option.isSome_iff_exists.mp hbinds
      have hread : fs.read other key = some v := hv
      simp only [hbinds, hread, Option.some.injEq]
      by_cases heq : other = id ∧ key = name
      · simp only [if_pos heq]
      · simp only [if_neg heq]
    · have hread : fs.read other key = none := by
        simpa [contains_eq_isSome_read] using hbinds
      have hne : ¬(other = id ∧ key = name) := by
        rintro ⟨rfl, rfl⟩
        exact hbinds h.bound
      rw [Bool.not_eq_true] at hbinds
      simpa only [hbinds, hread, if_neg hne, h.read_eq] using ih

end Replaces

end Frames

/-! ## The two ways -/

namespace Action

/-- The value of a name in a chain. -/
def lookUp (chain : Chain) (name : Name) : Action Value := fun s =>
  match s.frames.get? chain name.text with
  | some v => .done v s
  | none => .failed (.undefinedVariable name.text) name.pos.line s

/-- Changes the value of a name in a chain. -/
def assign (chain : Chain) (name : Name) (value : Value) : Action Unit := fun s =>
  match s.frames.assign? chain name.text value with
  | some frames => .done () { s with frames }
  | none => .failed (.undefinedVariable name.text) name.pos.line s

/-- The value of a name in the frame behind a number of others. -/
def lookUpAt (chain : Chain) (hops : Nat) (name : String) : Action Value := fun s =>
  ofAccess (s.frames.getAt chain hops name) s

/-- Changes the value of a name in the frame behind a number of others. -/
def assignAt (chain : Chain) (hops : Nat) (name : String) (value : Value) : Action Unit := fun s =>
  match s.frames.assignAt chain hops name value with
  | .ok frames => .done () { s with frames }
  | .error fault => .broken (.access fault)

/-- A reference with a link is followed by number in the chain, and one without by name among the
globals. -/
theorem follow_eq (chain : Chain) (r : Reference Link) :
    follow chain r = match r.link with
      | some hops => lookUpAt chain hops r.name.text
      | none => lookUp globals r.name := by
  funext s
  unfold follow
  cases r.link with
  | some hops => rfl
  | none => rfl

theorem store_eq (chain : Chain) (r : Reference Link) (value : Value) :
    store chain r value = match r.link with
      | some hops => assignAt chain hops r.name.text value
      | none => assign globals r.name value := by
  funext s
  unfold store
  cases r.link with
  | some hops =>
    simp only [assignAt, Frames.assignAt]
    cases chain[hops]? with
    | some id => rfl
    | none => rfl
  | none =>
    simp only [assign, Frames.assign?]
    cases s.frames.holder? globals r.name.text with
    | some id => rfl
    | none => rfl

section Searching

variable {s : Store} {chain : Chain} {name : Name}

theorem lookUp_of_not_binds (h : ¬s.frames.Binds chain name.text) :
    lookUp chain name s = .failed (.undefinedVariable name.text) name.pos.line s := by
  unfold lookUp
  rw [Frames.get?_eq_none_iff.mpr h]

theorem assign_of_not_binds (h : ¬s.frames.Binds chain name.text) (value : Value) :
    assign chain name value s = .failed (.undefinedVariable name.text) name.pos.line s := by
  unfold assign
  rw [Frames.assign?_eq_none_iff.mpr h]

/-- With the number of the first frame that binds a name, both ways read its value. -/
theorem lookUp_of_hops? {d : Nat} (h : s.frames.hops? chain name.text = some d) :
    ∃ v, lookUp chain name s = .done v s ∧ lookUpAt chain d name.text s = .done v s := by
  obtain ⟨id, hid, hbinds, -⟩ := Frames.getElem?_of_hops? h
  obtain ⟨v, hv⟩ := Option.isSome_iff_exists.mp hbinds
  have hread : s.frames.read id name.text = some v := hv
  have hat : s.frames.getAt chain d name.text = .ok v := by
    simp only [Frames.getAt, hid, hread]
  have hget : s.frames.get? chain name.text = some v := by
    rw [Frames.get?_eq_getAt h, hat]
    rfl
  refine ⟨v, ?_, ?_⟩
  · simp only [lookUp, hget]
  · simp only [lookUpAt, hat]
    rfl

/-- With the number of the first frame that binds a name, both ways change its value there. -/
theorem assign_of_hops? {d : Nat} (h : s.frames.hops? chain name.text = some d) (value : Value) :
    ∃ id frames, chain[d]? = some id ∧ s.frames.Replaces frames id name.text value ∧
      assign chain name value s = .done () { s with frames } ∧
      assignAt chain d name.text value s = .done () { s with frames } := by
  obtain ⟨id, hid, hbinds, -⟩ := Frames.getElem?_of_hops? h
  have hat : s.frames.assignAt chain d name.text value =
      .ok (s.frames.define id name.text value) := by
    simp only [Frames.assignAt, hid]
  have hassign : s.frames.assign? chain name.text value =
      some (s.frames.define id name.text value) := by
    rw [Frames.assign?_eq_assignAt h, hat]
    rfl
  refine ⟨id, _, hid, Frames.replaces_define hbinds value, ?_, ?_⟩
  · simp only [assign, hassign]
  · simp only [assignAt, hat]

/-- What an assignment replaces is what the same chain reads next. -/
theorem lookUp_of_replaces {d : Nat} (h : s.frames.hops? chain name.text = some d) {id : FrameId}
    (hid : chain[d]? = some id) {frames : Frames Value} {value : Value}
    (hr : s.frames.Replaces frames id name.text value) :
    lookUp chain name { s with frames } = .done value { s with frames } := by
  obtain ⟨v, hlookUp, hat⟩ := lookUp_of_hops? (s := { s with frames }) ((hr.hops?_eq _ _).trans h)
  have hvalue : frames.getAt chain d name.text = .ok value := by
    rw [hr.getAt_eq, if_pos ⟨hid, rfl⟩]
  simp only [lookUpAt, hvalue] at hat
  cases hat
  exact hlookUp

end Searching

/-- What searching a chain for a name comes to, and assigning a value to it. -/
structure Searched (s : Store) (chain : Chain) (name : Name) (value : Value) : Prop where
  /-- A name is read exactly if some frame of the chain binds it. -/
  reads : (∃ v s', lookUp chain name s = .done v s') ↔ s.frames.Binds chain name.text
  /-- Under the same condition it is assigned. -/
  assigns : (∃ s', assign chain name value s = .done () s') ↔ s.frames.Binds chain name.text
  /-- Otherwise both are the same error, and the store is as before. -/
  fails : ¬s.frames.Binds chain name.text →
    lookUp chain name s = .failed (.undefinedVariable name.text) name.pos.line s ∧
      assign chain name value s = .failed (.undefinedVariable name.text) name.pos.line s
  /-- If the name is bound, some frame is the first to bind it. -/
  first : s.frames.Binds chain name.text ↔ ∃ d id, s.frames.hops? chain name.text = some d ∧
    chain[d]? = some id ∧ (s.frames.frame id).contains name.text = true ∧
    ∀ id' ∈ chain.take d, (s.frames.frame id').contains name.text = false
  /-- With the number of that frame the name is read and assigned as by a search. -/
  byNumber : ∀ d, s.frames.hops? chain name.text = some d →
    lookUp chain name s = lookUpAt chain d name.text s ∧
      assign chain name value s = assignAt chain d name.text value s
  /-- What is assigned is read next. Nothing else has changed: no name of another frame and no other
  name of this one, and so nothing that any chain reads, be it by name or by number. -/
  changes : ∀ d, s.frames.hops? chain name.text = some d →
    ∃ id frames, chain[d]? = some id ∧ assign chain name value s = .done () { s with frames } ∧
      lookUp chain name { s with frames } = .done value { s with frames } ∧
      s.frames.Replaces frames id name.text value ∧
      (∀ other key, frames.get? other key =
        if s.frames.holder? other key = some id ∧ key = name.text then some value
        else s.frames.get? other key) ∧
      ∀ other k key, frames.getAt other k key =
        if other[k]? = some id ∧ key = name.text then .ok value else s.frames.getAt other k key
  /-- Evaluation follows a reference with that number for its link as if it searched the chain. -/
  linked : ∀ d, s.frames.hops? chain name.text = some d →
    follow chain ⟨name, some d⟩ s = lookUp chain name s ∧
      store chain ⟨name, some d⟩ value s = assign chain name value s
  /-- A reference without a link it follows by a search among the globals. -/
  unlinked : follow chain ⟨name, none⟩ s = lookUp globals name s ∧
    store chain ⟨name, none⟩ value s = assign globals name value s

/-- **Searching a chain by name and leaving a number of its frames agree.** Reading and assigning by
name are successful under the same condition and fail in the same way; with the number of the first
frame that binds the name, access by number does the same as they do; and an assignment changes
that one variable, whatever other chains have its frame in common. -/
theorem search_agrees (s : Store) (chain : Chain) (name : Name) (value : Value) :
    Searched s chain name value := by
  have hbound : s.frames.Binds chain name.text → ∃ d, s.frames.hops? chain name.text = some d :=
    Frames.binds_iff_hops?.mp
  have hnumber : ∀ d, s.frames.hops? chain name.text = some d →
      lookUp chain name s = lookUpAt chain d name.text s ∧
        assign chain name value s = assignAt chain d name.text value s := by
    intro d hd
    obtain ⟨v, hlookUp, hlookUpAt⟩ := lookUp_of_hops? hd
    obtain ⟨id, frames, -, -, hassign, hassignAt⟩ := assign_of_hops? hd value
    exact ⟨hlookUp.trans hlookUpAt.symm, hassign.trans hassignAt.symm⟩
  constructor
  case reads =>
    constructor
    · rintro ⟨v, s', hdone⟩
      by_contra hfree
      rw [lookUp_of_not_binds hfree] at hdone
      cases hdone
    · intro hbinds
      obtain ⟨d, hd⟩ := hbound hbinds
      obtain ⟨v, hv, -⟩ := lookUp_of_hops? hd
      exact ⟨v, s, hv⟩
  case assigns =>
    constructor
    · rintro ⟨s', hdone⟩
      by_contra hfree
      rw [assign_of_not_binds hfree] at hdone
      cases hdone
    · intro hbinds
      obtain ⟨d, hd⟩ := hbound hbinds
      obtain ⟨id, frames, -, -, hassign, -⟩ := assign_of_hops? hd value
      exact ⟨_, hassign⟩
  case fails => exact fun hfree => ⟨lookUp_of_not_binds hfree, assign_of_not_binds hfree value⟩
  case first =>
    constructor
    · intro hbinds
      obtain ⟨d, hd⟩ := hbound hbinds
      obtain ⟨id, hid⟩ := Frames.getElem?_of_hops? hd
      exact ⟨d, id, hd, hid⟩
    · rintro ⟨d, id, hd, -⟩
      exact Frames.binds_iff_hops?.mpr ⟨d, hd⟩
  case byNumber => exact hnumber
  case changes =>
    intro d hd
    obtain ⟨id, frames, hid, hr, hassign, -⟩ := assign_of_hops? hd value
    exact ⟨id, frames, hid, hassign, lookUp_of_replaces hd hid hr, hr, hr.get?_eq, hr.getAt_eq⟩
  case linked =>
    intro d hd
    rw [follow_eq, store_eq]
    exact ⟨(hnumber d hd).1.symm, (hnumber d hd).2.symm⟩
  case unlinked =>
    rw [follow_eq, store_eq]
    exact ⟨rfl, rfl⟩

end Action

end LoxKit
