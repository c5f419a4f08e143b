import LoxKit.Machine.Operation
import LoxKit.Proofs.Scope.Place
import Mathlib.Order.Basic

/-!
# Aligned chains

The same text may stand in scopes that differ only by scopes without names, and run in chains that
differ by the frames for these. The other frames of the chains are partners. So wherever the text
names something, both links lead to partners, though not over the same number of frames.

Headlines:
* `Aligned`: scopes and chains that differ by scopes without names.
* `Aligned.leads`: a name is linked to partners.
* `Aligned.super`: a superclass is found next to the receiver in both.
* `Flush`: where a declaration may stand.
-/

namespace LoxKit

open LoxKit.Action

/-- Which frames of two stores are partners. -/
abbrev Pairing :=
  FrameId → FrameId → Prop

/-- Two more frames that are partners. -/
def Pairing.add (P : Pairing) (i j : FrameId) : Pairing := fun a b =>
  P a b ∨ a = i ∧ b = j

theorem Pairing.le_add (P : Pairing) (i j : FrameId) : P ≤ P.add i j :=
  fun _ _ => Or.inl

theorem Pairing.add_self (P : Pairing) (i j : FrameId) : P.add i j i j :=
  Or.inr ⟨rfl, rfl⟩

/-- Links that lead to partners, or both to no scope. -/
inductive Leads (P : Pairing) (chain chain' : Chain) : Link → Link → Prop
  | none : Leads P chain chain' none none
  | some {d d' : Nat} {i j : FrameId} (hi : chain[d]? = some i) (hj : chain'[d']? = some j)
      (h : P i j) : Leads P chain chain' (some d) (some d')

/-- Scopes with chains that differ by scopes without names. On the right there is none just inside of
the scope of `super`. -/
inductive Aligned (P : Pairing) : Scopes → Chain → Scopes → Chain → Prop
  | globals (h : P 0 0) : Aligned P [] globals [] globals
  | both {scope : Scope} {scopes scopes' : Scopes} {chain chain' : Chain} {i j : FrameId}
      (h : P i j) (ha : Aligned P scopes chain scopes' chain') :
      Aligned P (scope :: scopes) (i :: chain) (scope :: scopes') (j :: chain')
  | left {scopes scopes' : Scopes} {chain chain' : Chain} {i : FrameId}
      (ha : Aligned P scopes chain scopes' chain') :
      Aligned P (.empty :: scopes) (i :: chain) scopes' chain'
  | right {scopes scopes' : Scopes} {chain chain' : Chain} {j : FrameId}
      (hs : scopes.hops? Keyword.super.word ≠ some 0)
      (ha : Aligned P scopes chain scopes' chain') :
      Aligned P scopes chain (.empty :: scopes') (j :: chain')

section Aligned

variable {P P' : Pairing} {scopes scopes' : Scopes} {chain chain' : Chain} {link link' : Link}

theorem Leads.cons (h : Leads P chain chain' link link') (i j : FrameId) :
    Leads P (i :: chain) (j :: chain') (link.map (· + 1)) (link'.map (· + 1)) := by
  cases h with
  | none => exact .none
  | some hi hj h => exact .some hi hj h

theorem Leads.cons_left (h : Leads P chain chain' link link') (i : FrameId) :
    Leads P (i :: chain) chain' (link.map (· + 1)) link' := by
  cases h with
  | none => exact .none
  | some hi hj h => exact .some hi hj h

theorem Leads.cons_right (h : Leads P chain chain' link link') (j : FrameId) :
    Leads P chain (j :: chain') link (link'.map (· + 1)) := by
  cases h with
  | none => exact .none
  | some hi hj h => exact .some hi hj h

theorem Scopes.hops?_empty_cons (scopes : Scopes) (name : String) :
    Scopes.hops? (.empty :: scopes) name = (scopes.hops? name).map (· + 1) := by
  rw [Scopes.hops?_cons]
  rfl

theorem Aligned.mono (hP : P ≤ P') (h : Aligned P scopes chain scopes' chain') :
    Aligned P' scopes chain scopes' chain' := by
  induction h with
  | globals h => exact .globals (hP _ _ h)
  | both h _ ih => exact .both (hP _ _ h) ih
  | left _ ih => exact .left ih
  | right hs _ ih => exact .right hs ih

/-- The globals are partners. -/
theorem Aligned.globals_paired (h : Aligned P scopes chain scopes' chain') : P 0 0 := by
  induction h with
  | globals h => exact h
  | both _ _ ih | left _ ih | right _ _ ih => exact ih

/-- A name is linked to partners. -/
theorem Aligned.leads (h : Aligned P scopes chain scopes' chain') (name : String) :
    Leads P chain chain' (scopes.hops? name) (scopes'.hops? name) := by
  induction h with
  | globals => exact .none
  | @both scope _ _ _ _ i j h _ ih =>
    rw [Scopes.hops?_cons, Scopes.hops?_cons]
    split
    · exact .some rfl rfl h
    · exact ih.cons i j
  | @left _ _ _ _ i _ ih =>
    rw [Scopes.hops?_empty_cons]
    exact ih.cons_left i
  | @right _ _ _ _ j _ _ ih =>
    rw [Scopes.hops?_empty_cons]
    exact ih.cons_right j

/-- The scope of `super` is innermost in both or in none. -/
theorem Aligned.super_head (h : Aligned P scopes chain scopes' chain')
    (hs : scopes.hops? Keyword.super.word = some 0) :
    ∃ i j, scopes'.hops? Keyword.super.word = some 0 ∧ chain[0]? = some i ∧ chain'[0]? = some j ∧
      P i j := by
  cases h with
  | globals => cases hs
  | @both scope _ _ _ _ i j h _ =>
    rw [Scopes.hops?_cons] at hs ⊢
    split at hs
    · next hc => exact ⟨i, j, if_pos hc, rfl, rfl, h⟩
    · obtain ⟨d, -, hd⟩ := Option.map_eq_some_iff.mp hs
      cases hd
  | left =>
    rw [Scopes.hops?_empty_cons] at hs
    obtain ⟨d, -, hd⟩ := Option.map_eq_some_iff.mp hs
    cases hd
  | right hne => exact absurd hs hne

/-- A superclass is found next to the receiver in both. -/
theorem Aligned.super (h : Aligned P scopes chain scopes' chain') {d : Nat}
    (hthis : scopes.hops? Keyword.this.word = some d)
    (hsuper : scopes.hops? Keyword.super.word = some (d + 1)) :
    ∃ d', scopes'.hops? Keyword.super.word = some (d' + 1) ∧
      Leads P chain chain' (some d) (some d') ∧
      Leads P chain chain' (some (d + 1)) (some (d' + 1)) := by
  induction h generalizing d with
  | globals => cases hthis
  | @both scope scopes scopes' chain chain' i j h ha ih =>
    rw [Scopes.hops?_cons] at hthis hsuper ⊢
    split at hsuper
    · cases hsuper
    next hc =>
      obtain ⟨e, he, hd⟩ := Option.map_eq_some_iff.mp hsuper
      cases hd
      rw [if_neg hc]
      split at hthis
      · cases hthis
        obtain ⟨i', j', hs', hi', hj', h'⟩ := ha.super_head he
        exact ⟨0, by rw [hs']; rfl, .some rfl rfl h, .some hi' hj' h'⟩
      · obtain ⟨d, hd, rfl⟩ := Option.map_eq_some_iff.mp hthis
        obtain ⟨d', hs', hl, hl'⟩ := ih hd he
        exact ⟨d' + 1, by rw [hs']; rfl, hl.cons i j, hl'.cons i j⟩
  | @left _ _ _ _ i _ ih =>
    rw [Scopes.hops?_empty_cons] at hthis hsuper
    obtain ⟨d, hd, rfl⟩ := Option.map_eq_some_iff.mp hthis
    obtain ⟨e, he, heq⟩ := Option.map_eq_some_iff.mp hsuper
    cases heq
    obtain ⟨d', hs', hl, hl'⟩ := ih hd he
    exact ⟨d', hs', hl.cons_left i, hl'.cons_left i⟩
  | @right _ _ _ _ j _ _ ih =>
    obtain ⟨d', hs', hl, hl'⟩ := ih hthis hsuper
    rw [Scopes.hops?_empty_cons, hs']
    exact ⟨d' + 1, rfl, hl.cons_right j, hl'.cons_right j⟩

end Aligned

/-! ## Where declarations stand -/

/-- Aligned chains whose innermost frames are partners, so that a declaration may stand there. -/
inductive Flush (P : Pairing) : Scopes → Chain → Scopes → Chain → Prop
  | globals (h : P 0 0) : Flush P [] globals [] globals
  | both {scope : Scope} {scopes scopes' : Scopes} {chain chain' : Chain} {i j : FrameId}
      (h : P i j) (ha : Aligned P scopes chain scopes' chain') :
      Flush P (scope :: scopes) (i :: chain) (scope :: scopes') (j :: chain')

namespace Flush

variable {P P' : Pairing} {scopes scopes' : Scopes} {chain chain' : Chain}

theorem aligned (h : Flush P scopes chain scopes' chain') : Aligned P scopes chain scopes' chain' := by
  cases h with
  | globals h => exact .globals h
  | both h ha => exact .both h ha

theorem mono (hP : P ≤ P') (h : Flush P scopes chain scopes' chain') :
    Flush P' scopes chain scopes' chain' := by
  cases h with
  | globals h => exact .globals (hP _ _ h)
  | both h ha => exact .both (hP _ _ h) (ha.mono hP)

theorem heads (h : Flush P scopes chain scopes' chain') :
    ∃ i j outer outer', chain = i :: outer ∧ chain' = j :: outer' ∧ P i j := by
  cases h with
  | globals h => exact ⟨0, 0, [], [], rfl, rfl, h⟩
  | both h _ => exact ⟨_, _, _, _, rfl, rfl, h⟩

theorem declare (h : Flush P scopes chain scopes' chain') (name : Name) :
    Flush P (scopes.declare name).1 chain (scopes'.declare name).1 chain' := by
  cases h with
  | globals h => exact .globals h
  | both h ha => exact .both h ha

theorem add (h : Flush P scopes chain scopes' chain') (name : String) :
    Flush P (scopes.add name) chain (scopes'.add name) chain' := by
  cases h with
  | globals h => exact .globals h
  | both h ha => exact .both h ha

theorem addAll {names : List String} : ∀ {scopes scopes' : Scopes},
    Flush P scopes chain scopes' chain' →
    Flush P (names.foldl Scopes.add scopes) chain (names.foldl Scopes.add scopes') chain' := by
  induction names with
  | nil => exact id
  | cons name names ih => exact fun h => ih (h.add name)

theorem introduceAll (h : Flush P scopes chain scopes' chain') (params : List Name) :
    Flush P (scopes.introduceAll params).1 chain (scopes'.introduceAll params).1 chain' := by
  rw [Scopes.introduceAll_fst, Scopes.introduceAll_fst]
  exact h.addAll

end Flush

end LoxKit
