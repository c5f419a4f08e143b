import LoxKit.Bindings

/-!
# Frames and chains

A frame holds the variables of one activation of a scope. Frames are numbered in the order in which
they are made and last as long as some chain holds them. A chain is what a place in a program can
see: its own frame first, then the frames around it, the globals last.

A variable is reached in two ways: by name, in the first frame of the chain that binds it, or by
the number of frames to leave.

Headlines:
* `Frames.read_define`: defining a name changes that name in that frame and nothing else.
* `Frames.get?_eq_getAt`: reading by name is reading at the first frame that binds the name.
* `Frames.assign?_eq_assignAt`: assigning by name is assigning at that frame.
-/

namespace LoxKit

/-- The number of a frame. -/
abbrev FrameId := Nat

/-- Frames from the inside to the outside. -/
abbrev Chain := List FrameId

/-- The chain behind a number of frames, unless it ends before that. -/
def Chain.ancestor? (chain : Chain) (hops : Nat) : Option Chain :=
  if hops ≤ chain.length then some (chain.drop hops) else none

/-- What can be wrong with an access by number. -/
inductive AccessFault where
  /-- The chain has no such frame. -/
  | pastTheEnd
  /-- The frame does not bind the name. -/
  | unbound
  deriving Repr, DecidableEq

/-- All the frames made so far. -/
structure Frames (α : Type) where
  cells : Array (Bindings α)

namespace Frames

variable {α : Type}

/-- No frames. -/
def empty : Frames α :=
  ⟨#[]⟩

/-- The number that the next frame will have. -/
def size (fs : Frames α) : Nat :=
  fs.cells.size

/-- Makes a frame. -/
def push (fs : Frames α) (b : Bindings α) : Frames α :=
  ⟨fs.cells.push b⟩

/-- The bindings of a frame. A frame that was never made binds nothing. -/
def frame (fs : Frames α) (id : FrameId) : Bindings α :=
  fs.cells.getD id .empty

/-- The value of a name in a frame. -/
def read (fs : Frames α) (id : FrameId) (name : String) : Option α :=
  (fs.frame id).get? name

/-- Binds a name in a frame. -/
def define (fs : Frames α) (id : FrameId) (name : String) (value : α) : Frames α :=
  ⟨fs.cells.modify id fun b => b.set name value⟩

/-- The first frame of a chain that binds a name. -/
def holder? (fs : Frames α) (chain : Chain) (name : String) : Option FrameId :=
  chain.find? fun id => (fs.frame id).contains name

/-- The value of a name in a chain. -/
def get? (fs : Frames α) (chain : Chain) (name : String) : Option α :=
  chain.findSome? fun id => fs.read id name

/-- Changes the value of a name in a chain, unless no frame of it binds the name. -/
def assign? (fs : Frames α) (chain : Chain) (name : String) (value : α) : Option (Frames α) :=
  (fs.holder? chain name).map fun id => fs.define id name value

/-- The value of a name in the frame behind a number of others. -/
def getAt (fs : Frames α) (chain : Chain) (hops : Nat) (name : String) : Except AccessFault α :=
  match chain[hops]? with
  | none => .error .pastTheEnd
  | some id =>
    match fs.read id name with
    | none => .error .unbound
    | some value => .ok value

/-- Binds a name in the frame behind a number of others. -/
def assignAt (fs : Frames α) (chain : Chain) (hops : Nat) (name : String) (value : α) :
    Except AccessFault (Frames α) :=
  match chain[hops]? with
  | none => .error .pastTheEnd
  | some id => .ok (fs.define id name value)

theorem frame_define (fs : Frames α) (id other : FrameId) (name : String) (value : α) :
    (fs.define id name value).frame other =
      if other = id ∧ id < fs.size then (fs.frame id).set name value else fs.frame other := by
  unfold define frame size
  simp only [Array.getD_eq_getD_getElem?, Array.getElem?_modify]
  by_cases h : id = other
  · subst h
    by_cases hs : id < fs.cells.size
    · simp [hs]
    · simp [hs]
  · simp [h, Ne.symm h]

/-- Defining a name changes that name in that frame and nothing else. -/
theorem read_define (fs : Frames α) {id : FrameId} (h : id < fs.size) (other : FrameId)
    (name key : String) (value : α) :
    (fs.define id name value).read other key =
      if other = id ∧ key = name then some value else fs.read other key := by
  unfold read
  rw [frame_define]
  by_cases ho : other = id
  · subst ho
    simp [h, Bindings.get?_set]
  · simp [ho]

/-- Reading by name is reading at the first frame that binds the name. -/
theorem get?_eq_getAt {fs : Frames α} {chain : Chain} {name : String} {hops : Nat}
    (h : chain.findIdx? (fun id => (fs.frame id).contains name) = some hops) :
    fs.get? chain name = (fs.getAt chain hops name).toOption := by
  induction chain generalizing hops with
  | nil => simp at h
  | cons id rest ih =>
    rw [List.findIdx?_cons] at h
    by_cases hc : (fs.frame id).contains name
    · simp only [hc, if_true, Option.some.injEq] at h
      subst h
      obtain ⟨v, hv⟩ := Option.isSome_iff_exists.1 hc
      simp [get?, getAt, read, hv, Except.toOption]
    · simp only [hc, Bool.false_eq_true, if_false, Option.map_eq_some_iff] at h
      obtain ⟨k, hk, rfl⟩ := h
      have hn : fs.read id name = none := by simpa [Bindings.contains, read] using hc
      have := ih hk
      simpa [get?, getAt, hn] using this

/-- Assigning by name is assigning at the first frame that binds the name. -/
theorem assign?_eq_assignAt {fs : Frames α} {chain : Chain} {name : String} {hops : Nat}
    (h : chain.findIdx? (fun id => (fs.frame id).contains name) = some hops) (value : α) :
    fs.assign? chain name value = (fs.assignAt chain hops name value).toOption := by
  obtain ⟨hlt, hp, hmin⟩ := List.findIdx?_eq_some_iff_getElem.1 h
  have hf : chain.find? (fun id => (fs.frame id).contains name) = some chain[hops] := by
    rw [List.find?_eq_some_iff_getElem]
    exact ⟨hp, hops, hlt, rfl, fun j hj => by simpa using hmin j hj⟩
  simp [assign?, holder?, hf, assignAt, hlt, Except.toOption]

end Frames

end LoxKit
