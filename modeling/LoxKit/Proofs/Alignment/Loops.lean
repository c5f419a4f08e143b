import LoxKit.Proofs.Alignment.Abreast
import LoxKit.Proofs.Alignment.Enough

/-!
# The loop and the for statement

The loop that the parser makes of a for statement differs from it by scopes without names: there is
one around the body and the increment, and where there is no initializer, there is none around the
loop. With enough steps the loop goes round by round (`nested`), and the rounds are abreast of those
of the for statement.

Headlines:
* `desugared_agree`: how the loop goes.
* `nested_inStep`: it is abreast of the for statement.
* **`ForStatement.desugared_inStep`**: the loop does what the for statement does.
-/

namespace LoxKit

open LoxKit.Action Filter

section Rounds

variable {P : Pairing} {s s' : Store}

theorem andThen_inStep {m m' next next' : Action Completion}
    (hm : InStep P (fun P' => CompletionTwin P') (m s) (m' s'))
    (hnext : ∀ P' t t', P ≤ P' → Twins P' t t' →
      InStep P' (fun P' => CompletionTwin P') (next t) (next' t')) :
    InStep P (fun P' => CompletionTwin P') (m.andThen next s) (m'.andThen next' s') := by
  refine hm.bind fun P' c c' t t' hP ht hc => ?_
  cases hc with
  | carryOn => exact hnext P' t t' hP ht
  | returned hv => exact .of_done ht (.returned hv)

/-- As many rounds on both sides. -/
theorem rounds_inStep {condition condition' : Action Value} {round round' : Action Completion}
    (hc : ∀ P' t t', P ≤ P' → Twins P' t t' →
      InStep P' (fun P' => ValueTwin P') (condition t) (condition' t'))
    (hr : ∀ P' t t', P ≤ P' → Twins P' t t' →
      InStep P' (fun P' => CompletionTwin P') (round t) (round' t'))
    (fuel : Nat) (hs : Twins P s s') :
    InStep P (fun P' => CompletionTwin P') (rounds condition round fuel s)
      (rounds condition' round' fuel s') := by
  induction fuel generalizing P s s' with
  | zero => exact .unfinished
  | succ fuel ih =>
    refine (hc P s s' (le_refl P) hs).bind fun P₁ v v' t t' hP₁ ht hv => ?_
    refine .ite (Iff.of_eq (by rw [hv.truthy])) ?_ (.of_done ht .carryOn)
    refine andThen_inStep (hr P₁ t t' hP₁ ht) fun P₂ u u' hP₂ hu => ?_
    have hP := le_trans hP₁ hP₂
    exact ih (fun P' t t' hP' => hc P' t t' (le_trans hP hP'))
      (fun P' t t' hP' => hr P' t t' (le_trans hP hP')) hu

end Rounds

namespace ForStatement

/-! ## How the loop goes -/

section Nested

variable (h : Host) (fuel depth : Nat) (around : Surroundings)

/-- A round of the loop. The increment follows the body in a scope of their own. -/
def nestedRound (scopes : Scopes) (chain : Chain) (f : ForStatement Unit) : Action Completion :=
  f.increment.elim (execute h fuel depth chain (linkStmt around scopes f.body).tree) fun e => do
    let frame ← newFrame .empty
    Action.andThen
      (execute h fuel depth (frame :: chain) (linkStmt around (.empty :: scopes) f.body).tree) do
        let _ ← (evaluate h fuel depth (frame :: chain)
          (linkExpr around (.empty :: scopes) e).tree : Action Value)
        pure .carryOn

/-- The loop behind the initializer. -/
def nestedLoop (scopes : Scopes) (chain : Chain) (f : ForStatement Unit) : Action Completion :=
  rounds
    (f.condition.elim (pure (.bool true)) fun e =>
      evaluate h fuel depth chain (linkExpr around scopes e).tree)
    (f.nestedRound h fuel depth around scopes chain) fuel

/-- The loop and its initializer, which has a scope if it is there. -/
def nested (scopes : Scopes) (chain : Chain) (f : ForStatement Unit) : Action Completion :=
  f.initializer.elim (f.nestedLoop h fuel depth around scopes chain) fun st => do
    let frame ← newFrame .empty
    Action.andThen
      (execute h fuel depth (frame :: chain) (linkStmt around (.empty :: scopes) st).tree)
      (f.nestedLoop h fuel depth around (linkStmt around (.empty :: scopes) st).scopes
        (frame :: chain))

end Nested

/-- What the loop repeats. -/
def loopBody (f : ForStatement Unit) : Stmt Unit :=
  f.increment.elim f.body fun e => .block [f.body, .expression e]

/-- The loop itself. -/
def loop (f : ForStatement Unit) : Stmt Unit :=
  .whileDo (f.condition.getD (Grammar.alwaysTrue f.keyword)) f.loopBody

theorem desugared_eq (f : ForStatement Unit) :
    f.desugared = f.initializer.elim f.loop fun st => .block [st, f.loop] := by
  obtain ⟨keyword, initializer, condition, increment, body⟩ := f
  cases initializer <;> cases increment <;> rfl

theorem proper_body {f : ForStatement Unit} (h : f.desugared.Proper) : f.body.Proper := by
  have hloop : f.loop.Proper := by
    rw [desugared_eq] at h
    cases hinit : f.initializer with
    | none =>
      rw [hinit] at h
      exact h
    | some st =>
      rw [hinit] at h
      cases h with
      | block hb => exact hb _ (List.mem_cons_of_mem _ List.mem_cons_self)
  cases hloop with
  | whileDo _ hb _ =>
    unfold loopBody at hb
    cases hinc : f.increment with
    | none =>
      rw [hinc] at hb
      exact hb
    | some e =>
      rw [hinc] at hb
      cases hb with
      | block hb => exact hb _ List.mem_cons_self

section Agree

open Runs

variable {h : Host} {depth : Nat} {around : Surroundings} {scopes : Scopes} {chain : Chain}
  {f : ForStatement Unit}

theorem nestedRound_growing : Growing fun n => f.nestedRound h n depth around scopes chain := by
  unfold nestedRound
  cases f.increment with
  | none => exact execute_growing
  | some e =>
    exact (Growing.const _).bind fun _ => execute_growing.andThen
      (evaluate_growing.bind fun _ => .const _)

theorem test_growing : Growing fun n =>
    f.condition.elim (pure (.bool true)) fun e =>
      (evaluate h n depth chain (linkExpr around scopes e).tree : Action Value) := by
  cases f.condition with
  | none => exact .const _
  | some e => exact evaluate_growing

theorem nestedLoop_growing : Growing fun n => f.nestedLoop h n depth around scopes chain :=
  test_growing.rounds nestedRound_growing

theorem nested_growing : Growing fun n => f.nested h n depth around scopes chain := by
  unfold nested
  cases f.initializer with
  | none => exact nestedLoop_growing
  | some st => exact (Growing.const _).bind fun _ => execute_growing.andThen nestedLoop_growing

theorem loopBody_agree (hb : f.body.Proper) (hd : f.body.declares = []) :
    Agree (fun n => execute h n depth chain (linkStmt around scopes f.loopBody).tree)
      fun n => f.nestedRound h n depth around scopes chain := by
  unfold loopBody nestedRound
  cases f.increment with
  | none => exact .refl execute_growing
  | some e =>
    simp only [Option.elim_some, linkStmt, linkStmts, scopes_linkStmt_guarded hb hd]
    exact execute_pair_agree.trans ((Agree.refl (.const _)).bind fun _ =>
      (Agree.refl execute_growing).andThen execute_expression_agree)

theorem loop_agree (hb : f.body.Proper) (hd : f.body.declares = []) :
    Agree (fun n => execute h n depth chain (linkStmt around scopes f.loop).tree)
      fun n => f.nestedLoop h n depth around scopes chain := by
  have htest : Agree (fun n => evaluate h n depth chain
      (linkExpr around scopes (f.condition.getD (Grammar.alwaysTrue f.keyword))).tree)
      fun n => f.condition.elim (pure (.bool true)) fun e =>
        (evaluate h n depth chain (linkExpr around scopes e).tree : Action Value) := by
    cases f.condition with
    | none =>
      simp only [Option.getD_none, Grammar.alwaysTrue, linkExpr]
      exact evaluate_literal_agree (.bool true) _
    | some e => exact .refl evaluate_growing
  unfold loop nestedLoop
  simp only [linkStmt]
  exact execute_whileDo_agree.trans (htest.rounds (loopBody_agree hb hd))

/-- How the loop goes. -/
theorem desugared_agree (hb : f.body.Proper) (hd : f.body.declares = []) :
    Agree (fun n => execute h n depth chain (linkStmt around scopes f.desugared).tree)
      fun n => f.nested h n depth around scopes chain := by
  rw [desugared_eq]
  unfold nested
  cases f.initializer with
  | none => exact loop_agree hb hd
  | some st =>
    simp only [Option.elim_some, linkStmt, linkStmts]
    exact execute_pair_agree.trans ((Agree.refl (.const _)).bind fun _ =>
      (Agree.refl execute_growing).andThen (loop_agree hb hd))

end Agree

/-! ## Abreast of the for statement -/

section InStep

variable {h : Host} {fuel depth : Nat} {P : Pairing} {around : Surroundings}
  {scopes scopes' : Scopes} {names : List (List String)} {chain chain' : Chain} {s s' : Store}
  {f : ForStatement Unit}

/-- The scope around the body and the increment makes no difference. -/
theorem nestedRound_inStep (hr : Regular ⟨around, scopes, .stmt f.loopBody⟩ names)
    (hd : f.body.declares = [])
    (ha : Aligned P scopes chain (f.inside around scopes') chain') (hs : Twins P s s') :
    InStep P (fun P' => CompletionTwin P') (f.nestedRound h fuel depth around scopes chain s)
      ((f.link around scopes').round h fuel depth chain' s') := by
  unfold loopBody at hr
  unfold nestedRound round step link
  cases hinc : f.increment with
  | none =>
    rw [hinc] at hr
    have hlast := congrFun (Action.andThen_pure
      (execute h fuel depth chain' (linkStmt around (f.inside around scopes') f.body).tree)) s'
    exact hlast.symm ▸ (abreast h fuel).execute hr ha (absurd hd) hs
  | some e =>
    rw [hinc] at hr
    have hblock := hr.block rfl
    have hbody := hblock.part (i := 0) rfl
    have hincrement := ((hblock.part (i := 1) rfl).part (i := 0) rfl).part (i := 0) rfl
    simp only [Place.scopesAt, scopes_linkStmt_guarded hbody.proper hd] at hincrement
    simp only [Option.map_some, Option.elim_some]
    -- the frame around the body and the increment has no partner
    have hleft := ha.left (i := s.frames.size)
    refine andThen_inStep ((abreast h fuel).execute hbody hleft (absurd hd) (hs.push_left .empty))
      fun P' t t' hP ht => ?_
    exact ((abreast h fuel).evaluate hincrement (hleft.mono hP) ht).bind
      fun _ _ _ _ _ _ hu _ => .of_done hu .carryOn

theorem nestedLoop_inStep (hr : Regular ⟨around, scopes, .stmt f.loop⟩ names)
    (hd : f.body.declares = [])
    (ha : Aligned P scopes chain (f.inside around scopes') chain') (hs : Twins P s s') :
    InStep P (fun P' => CompletionTwin P') (f.nestedLoop h fuel depth around scopes chain s)
      (rounds ((f.link around scopes').test h fuel depth chain')
        ((f.link around scopes').round h fuel depth chain') fuel s') := by
  have hloop := hr.part (i := 0) rfl
  refine rounds_inStep (fun P' t t' hP ht => ?_) (fun P' t t' hP ht => ?_) fuel hs
  · have hcondition := hloop.part (i := 0) rfl
    unfold test link
    cases hc : f.condition with
    | none => exact .of_done ht (.bool true)
    | some e =>
      rw [hc] at hcondition
      exact (abreast h fuel).evaluate hcondition (ha.mono hP) ht
  · exact nestedRound_inStep (hloop.part (i := 1) rfl) hd (ha.mono hP) ht

/-- Nor does the scope of the initializer. -/
theorem nested_inStep (hr : Regular ⟨around, scopes, .stmt f.desugared⟩ names)
    (hd : f.body.declares = []) (hsuper : scopes.hops? Keyword.super.word ≠ some 0)
    (ha : Aligned P scopes chain scopes' chain') (hs : Twins P s s') :
    InStep P (fun P' => CompletionTwin P') (f.nested h fuel depth around scopes chain s)
      ((f.link around scopes').run h fuel depth chain' s') := by
  rw [desugared_eq] at hr
  unfold nested run
  cases hinit : f.initializer with
  | none =>
    rw [hinit] at hr
    have hinside : f.inside around scopes' = .empty :: scopes' := by rw [inside, hinit]; rfl
    -- nor has the frame of the for statement, if there is nothing to declare in it
    have hright : Aligned P scopes chain (f.inside around scopes') (s'.frames.size :: chain') := by
      rw [hinside]
      exact .right hsuper ha
    unfold start
    rw [show (f.link around scopes').initializer = none by rw [link, hinit]; rfl]
    exact nestedLoop_inStep hr hd hright (hs.push_right .empty)
  | some st =>
    rw [hinit] at hr
    have hblock := hr.block rfl
    have hfirst := hblock.part (i := 0) rfl
    have hinside : f.inside around scopes' = (linkStmt around (.empty :: scopes') st).scopes := by
      rw [inside, hinit]
      rfl
    unfold start
    rw [show (f.link around scopes').initializer =
      some (linkStmt around (.empty :: scopes') st).tree by rw [link, hinit]; rfl]
    refine (newFrame_inStep hs fun _ => .none).bind fun P₁ i j t t' hP₁ ht hij => ?_
    have hflush : Flush P₁ (.empty :: scopes) (i :: chain) (.empty :: scopes') (j :: chain') :=
      .both hij (ha.mono hP₁)
    refine andThen_inStep ((abreast h fuel).execute hfirst hflush.aligned (fun _ => hflush) ht)
      fun P₂ u u' hP₂ hu => ?_
    refine nestedLoop_inStep ((hblock.part (i := 1) rfl).part (i := 0) rfl) hd ?_ hu
    show Aligned P₂ (linkStmt around (.empty :: scopes) st).scopes (i :: chain)
      (f.inside around scopes') (j :: chain')
    rw [hinside, scopes_linkStmt around hfirst.proper, scopes_linkStmt around hfirst.proper]
    exact (hflush.mono hP₂).addAll.aligned

/-- **The loop that the parser makes of a for statement does what the for statement does.** -/
theorem desugared_inStep (hr : Regular ⟨around, scopes, .stmt f.desugared⟩ names)
    (hd : f.body.declares = []) (hsuper : scopes.hops? Keyword.super.word ≠ some 0)
    (ha : Aligned P scopes chain scopes' chain') (hs : Twins P s s') :
    ∀ᶠ fuel in atTop, InStep P (fun P' => CompletionTwin P')
      (execute h fuel depth chain (linkStmt around scopes f.desugared).tree s)
      ((f.link around scopes').run h fuel depth chain' s') := by
  have hagree : ∀ᶠ fuel in atTop,
      execute h fuel depth chain (linkStmt around scopes f.desugared).tree s =
        f.nested h fuel depth around scopes chain s :=
    (desugared_agree (proper_body hr.proper) hd).eventually execute_growing nested_growing s
  filter_upwards [hagree] with fuel heq
  rw [heq]
  exact nested_inStep hr hd hsuper ha hs

end InStep

end ForStatement

end LoxKit
