import LoxKit.Proofs.Renaming.Rename

/-!
# Local variables have their own places

Each declaration of a local variable or a parameter comes from one token of the text, and no two
tokens begin at the same place. So a name with its place tells which declaration it is.

Headlines:
* `Tokens.pairwise_offset`: the tokens of a text begin one after the other.
* `Phrase.count_declared`: a phrase declares a name at most as often as it stands in its tokens.
* **`nodup_locals`**: no variable of a local scope is declared twice at one place.
-/

namespace LoxKit

/-! ## Tokens -/

namespace Tokens

/-- The tokens of pieces that are not empty begin one after the other. -/
theorem offsets_ofPieces {ps : List Piece} (h : ∀ p ∈ ps, p.text ≠ []) (start : Pos) :
    (∀ t ∈ (ofPieces start ps).tokens, start.offset ≤ t.pos.offset) ∧
      (ofPieces start ps).tokens.Pairwise fun t u => t.pos.offset < u.pos.offset := by
  induction ps generalizing start with
  | nil => exact ⟨fun t ht => absurd ht List.not_mem_nil, .nil⟩
  | cons p ps ih =>
    rw [List.forall_mem_cons] at h
    obtain ⟨hlater, hpairwise⟩ := ih h.2 (start.after p.text)
    have hlt : start.offset < (start.after p.text).offset :=
      Nat.lt_add_of_pos_right (List.length_pos_iff.mpr h.1)
    have hfirst : ∀ t ∈ (p.token? start).toList, t.pos.offset = start.offset := by
      intro t ht
      obtain ⟨kind, -, rfl⟩ := Option.map_eq_some_iff.mp (Option.mem_toList.mp ht)
      rfl
    have hsingle : (p.token? start).toList.Pairwise fun t u => t.pos.offset < u.pos.offset := by
      cases p.token? start with
      | none => exact .nil
      | some t => exact List.pairwise_singleton _ t
    constructor
    · intro t ht
      rcases List.mem_append.mp ht with ht | ht
      · exact Nat.le_of_eq (hfirst t ht).symm
      · exact Nat.le_trans (Nat.le_of_lt hlt) (hlater t ht)
    · refine List.pairwise_append.mpr ⟨hsingle, hpairwise, fun t ht u hu => ?_⟩
      rw [hfirst t ht]
      exact Nat.lt_of_lt_of_le hlt (hlater u hu)

theorem pieces_text_ne_nil (cs : List Char) : ∀ p ∈ pieces cs, p.text ≠ [] := by
  fun_induction pieces cs with
  | case1 => exact fun p hp => absurd hp List.not_mem_nil
  | case2 c cs ih => exact List.forall_mem_cons.mpr ⟨Piece.next_text_ne_nil c cs, ih⟩

/-- The tokens of a text begin one after the other. -/
theorem pairwise_offset (text : String) :
    (ofText text).tokens.Pairwise fun t u => t.pos.offset < u.pos.offset :=
  (offsets_ofPieces (pieces_text_ne_nil text.toList) .start).2

theorem nodup_names (text : String) : ((ofText text).tokens.map Grammar.nameOf).Nodup := by
  rw [List.nodup_iff_pairwise_ne, List.pairwise_map]
  refine (pairwise_offset text).imp fun {t u} hlt heq => ?_
  have hpos : t.pos = u.pos := congrArg Name.pos heq
  rw [hpos] at hlt
  exact Nat.lt_irrefl _ hlt

end Tokens

/-! ## Phrases -/

namespace Grammar

/-- The variables and parameters that a phrase declares: those of the scopes inside it and, for
statements, that of the scope they stand in. -/
def declaredIn : (sort : PhraseSort) → sort.Tree → List Name
  | .statement _, st => (Stmt.declaredVar? st).toList ++ Stmt.locals st
  | .declaration _, st => (Stmt.declaredVar? st).toList ++ Stmt.locals st
  | .declarations, sts => List.filterMap Stmt.declaredVar? sts ++ List.flatMap Stmt.locals sts
  | .function, f => Function.locals f
  | .methods, fs => List.flatMap Function.locals fs

/-- How often a name stands among the names of tokens. -/
def occurrences (n : Name) (ts : List Token) : Nat :=
  (ts.map nameOf).count n

section Occurrences

variable (n : Name)

@[simp]
theorem occurrences_nil : occurrences n [] = 0 := rfl

@[simp]
theorem occurrences_cons (t : Token) (ts : List Token) :
    occurrences n (t :: ts) = [nameOf t].count n + occurrences n ts := by
  rw [occurrences, occurrences, ← List.count_append]
  rfl

@[simp]
theorem occurrences_append (ts us : List Token) :
    occurrences n (ts ++ us) = occurrences n ts + occurrences n us := by
  rw [occurrences, List.map_append, List.count_append]
  rfl

theorem count_declarations_cons (st : RawStmt) (sts : List RawStmt) :
    (declaredIn .declarations (st :: sts)).count n =
      (declaredIn (.declaration false) st).count n + (declaredIn .declarations sts).count n := by
  have hvar : (st :: sts).filterMap Stmt.declaredVar? =
      (Stmt.declaredVar? st).toList ++ sts.filterMap Stmt.declaredVar? := by
    rw [List.filterMap_cons]
    cases Stmt.declaredVar? st <;> rfl
  simp only [declaredIn, hvar, List.flatMap_cons, List.count_append]
  omega

theorem count_expression (e : RawExpr) :
    (declaredIn (.declaration false) (.expression e)).count n = 0 := by
  simp only [declaredIn, Stmt.declaredVar?, Stmt.locals, Option.toList_none, List.append_nil,
    List.count_nil]

theorem ExpressionStatement.count_declared {ts : List Token} {stmt : RawStmt} {is : List Issue}
    (h : ExpressionStatement ts stmt is) : (declaredIn (.declaration false) stmt).count n = 0 := by
  obtain ⟨-, -⟩ := h
  exact count_expression n _

theorem VariableDeclaration.count_declared {ts : List Token} {stmt : RawStmt} {is : List Issue}
    (h : VariableDeclaration ts stmt is) :
    (declaredIn (.declaration false) stmt).count n ≤ occurrences n ts := by
  cases h <;>
    simp only [declaredIn, Stmt.declaredVar?, Stmt.locals, Option.toList_some, List.append_nil,
      occurrences_cons, occurrences_append] <;>
    omega

theorem Initializer.count_declared {ts : List Token} {stmt : Option RawStmt} {is : List Issue}
    (h : Initializer ts stmt is) :
    (declaredIn .declarations stmt.toList).count n ≤ occurrences n ts := by
  cases h with
  | absent => exact Nat.zero_le _
  | var _ hd =>
    have hcount := hd.count_declared n
    rw [Option.toList_some, count_declarations_cons, occurrences_cons]
    exact Nat.le_trans hcount (Nat.le_add_left _ _)
  | expression he =>
    rw [Option.toList_some, count_declarations_cons, he.count_declared]
    exact Nat.zero_le _

theorem Parameters.count_le {count : Nat} {ts : List Token} {names : List Name} {is : List Issue}
    (h : Parameters count ts names is) : names.count n ≤ occurrences n ts := by
  induction h with
  | last =>
    rw [occurrences_cons]
    exact Nat.le_add_right _ _
  | @more _ name _ _ names _ _ _ _ ih =>
    rw [← List.singleton_append, List.count_append, occurrences_cons, occurrences_cons]
    omega

theorem OptionalParameters.count_le {ts : List Token} {names : List Name} {is : List Issue}
    (h : OptionalParameters ts names is) : names.count n ≤ occurrences n ts := by
  cases h with
  | absent => exact Nat.zero_le _
  | present hp => exact hp.count_le n

theorem count_block (body : List RawStmt) :
    (declaredIn (.declaration false) (.block body)).count n =
      (declaredIn .declarations body).count n := by
  simp only [declaredIn, Stmt.declaredVar?, Stmt.locals, Option.toList_none, List.nil_append]

theorem count_while (condition : RawExpr) (body : RawStmt) :
    (declaredIn (.declaration false) (.whileDo condition body)).count n = body.locals.count n := by
  simp only [declaredIn, Stmt.declaredVar?, Stmt.locals, Option.toList_none, List.nil_append]

theorem count_locals_le (stmt : RawStmt) :
    stmt.locals.count n ≤ (declaredIn (.declaration false) stmt).count n := by
  rw [declaredIn, List.count_append]
  exact Nat.le_add_left _ _

/-- The loop that a for statement stands for declares what its initializer and its body do. -/
theorem count_forLoop (keyword : Pos) (initializer : Option RawStmt)
    (condition increment : Option RawExpr) (body : RawStmt) :
    (declaredIn (.declaration false) (forLoop keyword initializer condition increment body)).count n ≤
      (declaredIn .declarations initializer.toList).count n +
        (declaredIn (.declaration false) body).count n := by
  have hbody := count_locals_le n body
  have hinner : ∀ e : RawExpr, (Stmt.block [body, .expression e]).locals.count n =
      (declaredIn (.declaration false) body).count n := by
    intro e
    have hlocals : (Stmt.block [body, .expression e]).locals =
        declaredIn .declarations [body, .expression e] := by
      rw [Stmt.locals, declaredIn]
    rw [hlocals, count_declarations_cons, count_declarations_cons, count_expression, Nat.zero_add]
    rfl
  have hloop : ∀ inner : RawStmt,
      inner.locals.count n ≤ (declaredIn (.declaration false) body).count n →
      (declaredIn (.declaration false)
          (.whileDo (condition.getD (alwaysTrue keyword)) inner)).count n ≤
        (declaredIn (.declaration false) body).count n := by
    intro inner hle
    rwa [count_while]
  have hblock : ∀ first inner : RawStmt,
      inner.locals.count n ≤ (declaredIn (.declaration false) body).count n →
      (declaredIn (.declaration false)
          (.block [first, .whileDo (condition.getD (alwaysTrue keyword)) inner])).count n ≤
        (declaredIn .declarations [first]).count n +
          (declaredIn (.declaration false) body).count n := by
    intro first inner hle
    rw [count_block, count_declarations_cons, count_declarations_cons, count_while,
      count_declarations_cons]
    omega
  cases increment with
  | none =>
    cases initializer with
    | none => exact Nat.le_trans (hloop _ hbody) (Nat.le_add_left _ _)
    | some first => exact hblock first _ hbody
  | some e =>
    cases initializer with
    | none => exact Nat.le_trans (hloop _ (Nat.le_of_eq (hinner e))) (Nat.le_add_left _ _)
    | some first => exact hblock first _ (Nat.le_of_eq (hinner e))

/-- A phrase declares a name at most as often as it stands in its tokens. -/
theorem Phrase.count_declared {sort : PhraseSort} {ts : List Token} {tree : sort.Tree}
    {is : List Issue} (h : Phrase sort ts tree is) :
    (declaredIn sort tree).count n ≤ occurrences n ts := by
  induction h with
  | expression he => exact Nat.le_trans (Nat.le_of_eq (he.count_declared n)) (Nat.zero_le _)
  | print | giveBack =>
    simp only [declaredIn, Stmt.declaredVar?, Stmt.locals, Option.toList_none, List.append_nil,
      List.count_nil, Nat.zero_le]
  | block _ _ _ ih =>
    simp only [occurrences_cons, occurrences_append]
    have hblock := count_block n
    simp only [declaredIn] at hblock ih ⊢
    rw [hblock]
    omega
  | ifThen _ _ _ _ _ ih | whileDo _ _ _ _ _ ih =>
    simp only [declaredIn, Stmt.declaredVar?, Stmt.locals, Option.toList_none, List.nil_append,
      List.count_append, occurrences_cons, occurrences_append] at ih ⊢
    omega
  | ifElse _ _ _ _ _ _ _ ih ih' =>
    simp only [declaredIn, Stmt.declaredVar?, Stmt.locals, Option.toList_none, List.nil_append,
      List.count_append, occurrences_cons, occurrences_append] at ih ih' ⊢
    omega
  | @forDo t l semi r ts us vs ws initializer condition increment body _ _ _ _ _ _ _ hi _ _ _ _ _ ih =>
    have hloop := count_forLoop n t.pos initializer condition increment body
    have hinit := hi.count_declared n
    simp only [occurrences_cons, occurrences_append]
    simp only [declaredIn] at hloop hinit ih ⊢
    omega
  | statement _ ih => exact ih
  | varDecl _ hd =>
    rw [occurrences_cons]
    exact Nat.le_trans (hd.count_declared n) (Nat.le_add_left _ _)
  | function _ _ ih =>
    simp only [declaredIn, Stmt.declaredVar?, Stmt.locals, Option.toList_none, List.nil_append,
      occurrences_cons] at ih ⊢
    omega
  | classDecl _ _ _ _ _ _ ih =>
    simp only [declaredIn, Stmt.declaredVar?, Stmt.locals, Option.toList_none, List.nil_append,
      occurrences_cons, occurrences_append] at ih ⊢
    omega
  | routine _ _ hp _ _ _ _ ih =>
    have hparams := hp.count_le n
    simp only [declaredIn, Function.locals, List.count_append, occurrences_cons,
      occurrences_append] at ih ⊢
    omega
  | noDeclarations | noMethods => exact Nat.zero_le _
  | declarations _ _ ih ihrest =>
    rw [count_declarations_cons, occurrences_append]
    exact Nat.add_le_add ih ihrest
  | methods _ _ ih ihrest =>
    simp only [declaredIn, List.flatMap_cons, List.count_append, occurrences_append] at ih ihrest ⊢
    exact Nat.add_le_add ih ihrest

end Occurrences

/-- **No variable of a local scope is declared twice at one place.** -/
theorem nodup_locals {text : String} {stmts : List RawStmt}
    (h : parse (Tokens.ofText text) = ⟨stmts, []⟩) : (stmts.flatMap Stmt.locals).Nodup := by
  have hd := derivation_of_parse h
  refine List.nodup_iff_count_le_one.mpr fun n => ?_
  have hdeclared := hd.count_declared n
  have htokens : occurrences n (Tokens.ofText text).tokens ≤ 1 :=
    List.nodup_iff_count_le_one.mp (Tokens.nodup_names text) n
  rw [declaredIn, List.count_append] at hdeclared
  omega

end Grammar

end LoxKit
