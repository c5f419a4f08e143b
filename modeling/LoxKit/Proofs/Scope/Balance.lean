import LoxKit.Proofs.Scope.Linker

/-!
# Balance

What a linker does on its way into a construct it undoes on its way out, so a visit leaves its state
as it was, but for the names that go to the innermost scope, the links of what it visits and the
issues. This holds for every part of a tree, be it right or wrong, and for every state.

Headlines:
* `Linker.Balanced`: what a visit may change of a state, and how.
* `Visit.Follows.ends`: a visit is balanced if it goes back to where it came from.
* **`Linker.visits_balanced`**: so all visits to expressions, statements and programs are.
-/

namespace LoxKit

/-! ## Scopes with more names -/

/-- A scope to which names have gone: none is lost, no other is new, and these are complete. -/
structure Scope.Grown (names : List String) (scope scope' : Scope) : Prop where
  kept : ∀ n, scope.contains n = true → scope'.contains n = true
  gained : ∀ n, scope'.contains n = true → scope.contains n = true ∨ n ∈ names
  complete : ∀ n ∈ names, scope'.get? n = some true
  unchanged : ∀ n, n ∉ names → scope'.get? n = scope.get? n

theorem Scopes.grown_addAll (names : List String) (scope : Scope) (outer : Scopes) :
    ∃ scope', (names.foldl Scopes.add (scope :: outer)).head? = some scope' ∧
      Scope.Grown names scope scope' := by
  obtain ⟨top, htop, hget⟩ := addAll_cons scope outer names
  refine ⟨top, by rw [htop]; rfl, ?_⟩
  constructor
  case kept =>
    intro n hn
    unfold Bindings.contains at hn ⊢
    rw [hget]
    split
    · rfl
    · exact hn
  case gained =>
    intro n hn
    unfold Bindings.contains at hn ⊢
    rw [hget] at hn
    by_cases hmem : n ∈ names
    · exact Or.inr hmem
    · rw [if_neg hmem] at hn
      exact Or.inl hn
  case complete =>
    intro n hn
    rw [hget, if_pos hn]
  case unchanged =>
    intro n hn
    rw [hget, if_neg hn]

theorem Scopes.length_addAll (names : List String) (scopes : Scopes) :
    (names.foldl Scopes.add scopes).length = scopes.length := by
  induction names generalizing scopes with
  | nil => rfl
  | cons name names ih =>
    rw [List.foldl_cons, ih]
    cases scopes <;> rfl

section Balance

variable {κ : Type}

/-! ## What a visit may change -/

/-- What a visit to a part of a tree leaves of a linker, if the part declares the names and makes
the references. -/
structure Linker.Balanced (l : Linker κ) (names : List String) (refs : List (Mention × κ))
    (l' : Linker κ) : Prop where
  height : l'.scopes.length = l.scopes.length
  below : l'.scopes.tail = l.scopes.tail
  top : ∀ scope ∈ l.scopes.head?, ∃ scope' ∈ l'.scopes.head?, Scope.Grown names scope scope'
  function : l'.around.function = l.around.function
  enclosingClass : l'.around.enclosingClass = l.around.enclosingClass
  table : ∀ k, k ∉ refs.map Prod.snd → l'.table k = l.table k

/-- The table has the links of references that linking gives them, provided that they are different
and have not been met before. -/
def Linker.Agrees (l : Linker κ) (refs : List (Mention × κ)) (links : List (Mention × Link))
    (l' : Linker κ) : Prop :=
  (refs.map Prod.snd).Nodup → (∀ r ∈ refs, l.table r.2 = none) →
    links = refs.map fun r => (r.1, l'.table r.2)

/-- A visit comes to an end exactly if the report takes all the issues without getting full, and
then the linker has a property. -/
def Visit.Ends (v : Visit κ Unit) (l : Linker κ) (issues : List Issue) (P : Linker κ → Prop) :
    Prop :=
  match v l with
  | none => (l.report.noteAll issues).2 = true
  | some (_, l') => l.report.noteAll issues = (l'.report, false) ∧ P l'

theorem Visit.Ends.imp {v : Visit κ Unit} {l : Linker κ} {issues : List Issue}
    {P Q : Linker κ → Prop} (h : v.Ends l issues P) (hpq : ∀ l', P l' → Q l') :
    v.Ends l issues Q := by
  unfold Visit.Ends at h ⊢
  split at h
  · exact h
  · exact ⟨h.1, hpq _ h.2⟩

variable [DecidableEq κ]

theorem recordAll_of_not_mem {k : κ} (met : List (Encounter κ)) : ∀ table : κ → Link,
    k ∉ met.map Encounter.key → recordAll table met k = table k := by
  induction met with
  | nil => exact fun _ _ => rfl
  | cons e met ih =>
    intro table hk
    rw [List.map_cons, List.mem_cons, not_or] at hk
    rw [recordAll, List.foldl_cons]
    exact (ih _ hk.2).trans (if_neg hk.1)

theorem recordAll_of_mem (met : List (Encounter κ)) : ∀ table : κ → Link,
    (met.map Encounter.key).Nodup → (∀ e ∈ met, table e.key = none) →
      ∀ e ∈ met, recordAll table met e.key = e.link := by
  induction met with
  | nil => exact fun _ _ _ _ he => absurd he List.not_mem_nil
  | cons e met ih =>
    intro table hnodup hfresh e' he'
    rw [List.map_cons, List.nodup_cons] at hnodup
    rw [List.forall_mem_cons] at hfresh
    rw [recordAll, List.foldl_cons]
    rcases List.mem_cons.mp he' with rfl | he'
    · refine (recordAll_of_not_mem met _ hnodup.1).trans ?_
      rw [record, if_pos rfl, hfresh.1, Option.or_none]
    · refine ih _ hnodup.2 (fun i hi => ?_) e' he'
      have hne : i.key ≠ e.key := fun h => hnodup.1 (h ▸ List.mem_map_of_mem hi)
      rw [record, if_neg hne]
      exact hfresh.2 i hi

/-! ## Visits to trees -/

/-- A visit that goes back to where it came from, but for names in the innermost scope. -/
theorem Visit.Follows.ends {v : Visit κ Unit} {l : Linker κ} {refs : List (Mention × κ)}
    {names : List String} {links : List (Mention × Link)} {issues : List Issue}
    (h : v.Follows l.around l.scopes refs
      ⟨l.around, names.foldl Scopes.add l.scopes, links, issues⟩) :
    v.Ends l issues fun l' => l.Balanced names refs l' ∧ l.Agrees refs links l' ∧
      l'.scopes = names.foldl Scopes.add l.scopes := by
  obtain ⟨scopes, around, table, report⟩ := l
  obtain ⟨met, hkeyed, hlinked, hv⟩ := h
  dsimp only at hlinked hv
  have hkeys : refs.map Prod.snd = met.map Encounter.key := by
    rw [← hkeyed, List.map_map]
    rfl
  unfold Visit.Ends
  rw [hv, Linker.after]
  dsimp only
  generalize report.noteAll issues = noted
  obtain ⟨report', full⟩ := noted
  cases full with
  | true => rfl
  | false =>
    refine ⟨rfl, ⟨Scopes.length_addAll names scopes, Scopes.tail_addAll names scopes, ?_, rfl, rfl,
      fun k hk => recordAll_of_not_mem met table (hkeys ▸ hk)⟩, fun hnodup hfresh => ?_, rfl⟩
    · intro scope hscope
      cases scopes with
      | nil => exact absurd hscope (by simp)
      | cons top outer =>
        cases hscope
        exact Scopes.grown_addAll names scope outer
    · have hmem : ∀ e ∈ met, e.keyed ∈ refs := fun e he => hkeyed ▸ List.mem_map_of_mem he
      have hfound := recordAll_of_mem met table (hkeys ▸ hnodup) fun e he => hfresh _ (hmem e he)
      rw [← hlinked, ← hkeyed, List.map_map]
      exact List.map_congr_left fun e he => Prod.ext rfl (hfound e he).symm

/-- **Every visit leaves the linker balanced.** Whatever the linker was before, and whatever is
wrong with the part of the tree that it visits: afterwards there are as many scopes, those below the
innermost one are as before, and the innermost one has lost no name, has gained only the names that
the statement declares, and has all of these as complete. The kinds of function and class around
are as before, and so is what the table says of references elsewhere. Only a full report keeps a
visit from its end. A visit to a program ends without scopes, functions and classes around it, and
what all these visits find is what linking finds. -/
theorem Linker.visits_balanced :
    (∀ (l : Linker κ) (e : Expr κ),
      e.visit.Ends l (linkExpr l.around l.scopes e.erase).issues fun l' =>
        l.Balanced [] e.references l' ∧
          l.Agrees e.references (linkExpr l.around l.scopes e.erase).tree.references l' ∧
          l'.scopes = l.scopes) ∧
      (∀ (l : Linker κ) (stmt : Stmt κ),
        stmt.visit.Ends l (linkStmt l.around l.scopes stmt.erase).issues fun l' =>
          l.Balanced stmt.erase.introduces stmt.references l' ∧
            l.Agrees stmt.references (linkStmt l.around l.scopes stmt.erase).tree.references l' ∧
            l'.scopes = (linkStmt l.around l.scopes stmt.erase).scopes) ∧
      (∀ stmt : Stmt κ, stmt.Proper → stmt.erase.introduces = stmt.declares) ∧
      ∀ (report : Report) (stmts : List (Stmt κ)),
        (Stmt.visitAll stmts).Ends (start report) (linkProgram (stmts.map Stmt.erase)).issues
          fun l' =>
            l'.scopes = [] ∧ l'.around.function = .none ∧ l'.around.enclosingClass = .none ∧
              (start report).Agrees (Stmt.referencesOfAll stmts)
                (Stmt.referencesOfAll (linkProgram (stmts.map Stmt.erase)).tree) l' := by
  refine ⟨fun l e => e.visit_follows.ends, fun l stmt => ?_, fun stmt h => h.introduces_eq,
    fun report stmts => ?_⟩
  · have hfollows := stmt.visit_follows (a := l.around) (s := l.scopes)
    rw [linkStmt_scopes] at hfollows ⊢
    exact hfollows.ends
  · have hfollows := Stmt.visitAll_follows (a := .topLevel) (s := []) stmts
    rw [linkStmts_scopes] at hfollows
    refine (hfollows.ends (l := start report)).imp fun l' ⟨hbalanced, hagrees, _⟩ => ?_
    exact ⟨List.eq_nil_of_length_eq_zero hbalanced.height, hbalanced.function,
      hbalanced.enclosingClass, hagrees⟩

end Balance

end LoxKit
