import LoxKit.Proofs.Grammar.Confinement

/-!
# What a mistake costs

Programs are read one declaration after the other, so what is read of two pieces of a text is what
is read of the first and then of the second, wherever a declaration ends with the first piece. A
sentence that holds no other statement ends with its semicolon, even if it is broken: the reader
gives up before it has taken the semicolon, and skipping stops behind it.

Headlines:
* `parsed_cons`, `parsed_append`: a declaration, or a program, with more behind it.
* `Sentence.reads`: a sentence is taken as a whole, and alone.
* **`parsed_sentence`**: a broken sentence spoils nothing around it.
-/

namespace LoxKit.Grammar

open LoxKit.Parser

/-! ## Programs in pieces -/

/-- What is read of tokens up to their ending. -/
def parsed (ts : List Token) (ending : Token) : Parsed :=
  parse ⟨ts, ending, []⟩

instance : Append Parsed where
  append first second :=
    ⟨first.statements ++ second.statements, first.issues ++ second.issues⟩

theorem Parsed.mk_append (stmts stmts' : List RawStmt) (is is' : List Issue) :
    (⟨stmts, is⟩ ++ ⟨stmts', is'⟩ : Parsed) = ⟨stmts ++ stmts', is ++ is'⟩ := rfl

@[simp]
theorem Parsed.statements_append (r s : Parsed) :
    (r ++ s).statements = r.statements ++ s.statements := rfl

@[simp]
theorem Parsed.issues_append (r s : Parsed) : (r ++ s).issues = r.issues ++ s.issues := rfl

theorem Parsed.append_assoc (r s t : Parsed) : r ++ s ++ t = r ++ (s ++ t) := by
  obtain ⟨stmts, is⟩ := r
  obtain ⟨stmts', is'⟩ := s
  obtain ⟨stmts'', is''⟩ := t
  simp only [mk_append, List.append_assoc]

theorem parsed_nil (ending : Token) : parsed [] ending = ⟨[], []⟩ := rfl

theorem map_of_eq {α β : Type} {p : Parser α} {s rest : Stream} {is : List Issue} {a : α}
    (f : α → β) (h : p s = ⟨is, rest, some a⟩) : (f <$> p) s = ⟨is, rest, some (f a)⟩ := by
  show Parser.bind p (fun a => Parser.pure (f a)) s = _
  simp only [Parser.bind, h, Parser.pure, List.append_nil]

/-- Reading declarations does not depend on how many steps it may take, if these are enough. -/
theorem collect_enough {rounds rounds' : List Token} : ∀ (count count' : Nat) (s : Stream),
    s.tokens.length ≤ rounds.length → s.tokens.length ≤ rounds'.length →
      collect (eachUntil Stream.atEnd declaration) rounds count s =
        collect (eachUntil Stream.atEnd declaration) rounds' count' s := by
  have hend : ∀ (rounds : List Token) (count : Nat) (ending : Token),
      collect (eachUntil Stream.atEnd declaration) rounds count ⟨[], ending⟩ =
        ⟨[], ⟨[], ending⟩, some []⟩ := fun rounds count ending => by
    cases rounds <;> rfl
  induction rounds generalizing rounds' with
  | nil =>
    intro count count' s hs _
    obtain ⟨tokens, ending⟩ := s
    obtain rfl := List.length_eq_zero_iff.mp (Nat.le_zero.mp hs)
    rw [hend, hend]
  | cons _ rounds ih =>
    intro count count' s hs hs'
    obtain ⟨_ | ⟨t, ts⟩, ending⟩ := s
    · rw [hend, hend]
    cases rounds' with
    | nil => exact absurd hs' (Nat.not_succ_le_zero _)
    | cons _ rounds' =>
      obtain ⟨taken, rest, is, stmt?, htokens, hsome, -, hr⟩ :=
        declaration_spec (s := ⟨t :: ts, ending⟩) rfl
      have hlen := congrArg List.length htokens
      have hpos := List.length_pos_iff.mpr hsome
      simp only [List.length_cons, List.length_append] at hs hs' hlen
      have hstep : ∀ count, eachUntil Stream.atEnd declaration count ⟨t :: ts, ending⟩ =
          ⟨is, ⟨rest, ending⟩, some (some stmt?)⟩ := fun count => by
        rw [eachUntil_go (s := ⟨t :: ts, ending⟩) rfl]
        exact map_of_eq some hr
      have hrest : collect (eachUntil Stream.atEnd declaration) rounds (count + 1) ⟨rest, ending⟩ =
          collect (eachUntil Stream.atEnd declaration) rounds' (count' + 1) ⟨rest, ending⟩ :=
        ih _ _ _ (by dsimp only; omega) (by dsimp only; omega)
      simp only [collect, Parser.bind, hstep, hrest]

/-- What is read is what the reader of declarations gives up to the end. -/
theorem parsed_of_many {ts : List Token} {ending : Token} {is : List Issue} {rest : Stream}
    {body : List (Option RawStmt)}
    (h : many (eachUntil Stream.atEnd declaration) ⟨ts, ending⟩ = ⟨is, rest, some body⟩) :
    parsed ts ending = ⟨body.filterMap id, is⟩ := by
  have hprogram : program ⟨ts, ending⟩ = ⟨is, rest, some (body.filterMap id)⟩ := by
    rw [program_over]
    exact map_of_eq (·.filterMap id) h
  rw [parsed, parse, hprogram, Option.getD_some]

/-- A declaration with more behind it. -/
theorem parsed_cons {t : Token} {ts rest : List Token} {stmt? : Option RawStmt} {is : List Issue}
    (h : Reads declaration (t :: ts) rest stmt? is) (ending : Token) :
    parsed (t :: ts ++ rest) ending = ⟨stmt?.toList, is⟩ ++ parsed rest ending := by
  obtain ⟨taken, rest', js, body, -, -, -, hrest, -⟩ :=
    declarations_spec Stream.atEnd (fun _ => rfl) (fun _ h => h) ⟨rest, ending⟩
  have hcollect : collect (eachUntil Stream.atEnd declaration) (ts ++ rest) 1 ⟨rest, ending⟩ =
      ⟨js, ⟨rest', ending⟩, some body⟩ := by
    rw [← hrest]
    refine collect_enough 1 0 _ ?_ (Nat.le_refl _)
    rw [List.length_append]
    exact Nat.le_add_left _ _
  have hstep : eachUntil Stream.atEnd declaration 0 ⟨t :: ts ++ rest, ending⟩ =
      ⟨is, ⟨rest, ending⟩, some (some stmt?)⟩ := by
    rw [eachUntil_go (s := ⟨t :: ts ++ rest, ending⟩) rfl]
    exact h.map (f := some) ending
  have hmany : many (eachUntil Stream.atEnd declaration) ⟨t :: ts ++ rest, ending⟩ =
      ⟨is ++ js, ⟨rest', ending⟩, some (stmt? :: body)⟩ := by
    show collect _ (t :: (ts ++ rest)) 0 _ = _
    simp only [collect, Parser.bind, hstep, Nat.zero_add, hcollect, Parser.pure, List.append_nil]
  rw [parsed_of_many hmany, parsed_of_many hrest, Parsed.mk_append]
  cases stmt? <;> rfl

/-- A program of the grammar with more behind it that is no `else`. -/
theorem parsed_append {ts rest : List Token} {stmts : List RawStmt} {is : List Issue}
    (h : Phrase .declarations ts stmts is) (hrest : HeadAvoids (· = .keyword .else) rest)
    (ending : Token) : parsed (ts ++ rest) ending = ⟨stmts, is⟩ ++ parsed rest ending := by
  have heach := h.readable declaration ((ts ++ rest).length + 1) rest (covers_declaration _)
    (Nat.lt_succ_self _) hrest
  have hparsed : ∀ {ts : List Token} {os : List (Option RawStmt)} {is : List Issue},
      ReadsEach declaration (· = .symbol .rightBrace) rest ts os is →
        parsed (ts ++ rest) ending = ⟨os.filterMap id, is⟩ ++ parsed rest ending := by
    intro ts os is heach
    induction heach with
    | nil => rfl
    | @cons t ts us o os is js hfirst _ _ ih =>
      rw [List.append_assoc, parsed_cons hfirst, ih, ← Parsed.append_assoc, Parsed.mk_append]
      cases o <;> rfl
  rw [hparsed heach, filterMap_id_map_some]

/-- A program without issues is one of the grammar. -/
theorem derivation_of_parsed {ts : List Token} {ending : Token}
    (h : (parsed ts ending).issues = []) :
    Phrase .declarations ts (parsed ts ending).statements [] := by
  have hparse : parse ⟨ts, ending, []⟩ = ⟨(parsed ts ending).statements, []⟩ := by
    rw [← h]
    rfl
  exact derivation_of_parse hparse

/-! ## Skipping -/

/-- Skipping goes on behind the semicolon if no statement begins before it. -/
theorem skip_semicolon {left : List Token} {semi : Token} (hsemi : semi.kind = .symbol .semicolon)
    (hleft : Unbroken left) (hstarts : ∀ t ∈ left.tail, startsStatement t = false)
    (rest : List Token) : skip (left ++ semi :: rest) = rest := by
  have hbehind : skipFrom semi rest = rest := by
    cases rest with
    | nil => rfl
    | cons t ts => rw [skipFrom, if_pos (Or.inl hsemi)]
  have hfrom : ∀ (ts : List Token) (last : Token), Unbroken (last :: ts) →
      (∀ t ∈ ts, startsStatement t = false) → skipFrom last (ts ++ semi :: rest) = rest := by
    intro ts
    induction ts with
    | nil =>
      intro last hlast _
      have hgo : ¬(last.kind = .symbol .semicolon ∨ startsStatement semi = true) := by
        rintro (h | h)
        · exact hlast last List.mem_cons_self h
        · simp [startsStatement, hsemi] at h
      rw [List.nil_append, skipFrom, if_neg hgo, hbehind]
    | cons t ts ih =>
      intro last hlast hts
      have hgo : ¬(last.kind = .symbol .semicolon ∨ startsStatement t = true) := by
        rintro (h | h)
        · exact hlast last List.mem_cons_self h
        · rw [hts t List.mem_cons_self] at h
          exact absurd h Bool.false_ne_true
      rw [List.cons_append, skipFrom, if_neg hgo]
      exact ih t hlast.of_cons fun u hu => hts u (List.mem_cons_of_mem t hu)
  cases left with
  | nil => exact hbehind
  | cons t ts => exact hfrom ts t hleft hstarts

/-! ## Sentences -/

/-- Tokens that end with their only semicolon, and that hold no other statement: they do not begin
as a statement with others inside of it does, and no keyword that begins a statement follows. -/
structure Sentence (front : List Token) (semi : Token) : Prop where
  ends : semi.kind = .symbol .semicolon
  unbroken : Unbroken front
  head : HeadAvoids (· ∈ nestingKinds) (front ++ [semi])
  inside : ∀ t ∈ (front ++ [semi]).tail, startsStatement t = false

/-- The reader of declarations takes a sentence as a whole, and alone. It leaves the sentence out
exactly if it finds a syntax error in it, and then it finds one and stops at that. -/
theorem Sentence.reads {front : List Token} {semi : Token} (h : Sentence front semi) :
    ∃ stmt? is, (∀ rest, Reads declaration (front ++ [semi]) rest stmt? is) ∧ Settled is stmt? := by
  rw [declaration_eq]
  cases endsBy_declarationOver h.ends h.unbroken h.head with
  | @gives stmt is his hreads =>
    refine ⟨some stmt, is, fun rest ending => ?_, .gives his⟩
    simp only [recovering, hreads rest ending]
  | @givesUp taken left is htokens hsettled hgives =>
    refine ⟨none, is, fun rest ending => ?_, ?_⟩
    · have hinside : ∀ t ∈ left.tail, startsStatement t = false := fun t ht => by
        refine h.inside t ?_
        rw [htokens]
        cases left with
        | nil => exact absurd ht List.not_mem_nil
        | cons u us =>
          cases taken with
          | nil => exact List.mem_append_left _ ht
          | cons v vs =>
            refine List.mem_append_left _ (List.mem_append_right vs ?_)
            exact List.mem_cons_of_mem u ht
      have hskip := skip_semicolon h.ends (htokens ▸ h.unbroken).of_append hinside rest
      have hstop := hgives rest ending
      rw [htokens, List.append_assoc, List.append_assoc]
      simp only [recovering, List.singleton_append, hstop, hskip]
    · obtain ⟨js, e, rfl, hjs, he⟩ := hsettled.givenUp
      exact .givesUp hjs he

/-- A program of one declaration is that declaration. -/
theorem Phrase.of_single {ts : List Token} {stmt : RawStmt} {is : List Issue}
    (h : Phrase .declarations ts [stmt] is) :
    ∃ dangling, Phrase (.declaration dangling) ts stmt is := by
  cases h with
  | declarations first rest =>
    cases rest with
    | noDeclarations =>
      rw [List.append_nil, List.append_nil]
      exact ⟨_, first⟩

/-- **A broken sentence spoils only itself.** Between a program without issues and any tokens at all,
a sentence is read as it is alone, and so is what stands behind it. If it is no declaration of the
grammar, no statement comes of it, and exactly one syntax error, behind issues that a text of the
grammar may have too. -/
theorem parsed_sentence {p q front : List Token} {semi : Token} (ending ending₁ ending₂ : Token)
    (hp : (parsed p ending₁).issues = []) (hb : Sentence front semi) :
    parsed (p ++ (front ++ [semi]) ++ q) ending =
        parsed p ending₁ ++ parsed (front ++ [semi]) ending₂ ++ parsed q ending ∧
      ((¬∃ dangling stmt is, Phrase (.declaration dangling) (front ++ [semi]) stmt is) →
        ∃ is e, parsed (front ++ [semi]) ending₂ = ⟨[], is ++ [e]⟩ ∧ Tolerated is ∧
          e.IsSyntaxError) := by
  obtain ⟨stmt?, is, hreads, hsettled⟩ := hb.reads
  have hone : ∀ (rest : List Token) (ending : Token),
      parsed (front ++ [semi] ++ rest) ending = ⟨stmt?.toList, is⟩ ++ parsed rest ending := by
    intro rest ending
    obtain ⟨t, ts, hts⟩ : ∃ t ts, front ++ [semi] = t :: ts := by
      cases front <;> exact ⟨_, _, rfl⟩
    have hread := hreads rest
    rw [hts] at hread ⊢
    exact parsed_cons hread ending
  have halone : parsed (front ++ [semi]) ending₂ = ⟨stmt?.toList, is⟩ := by
    have h := hone [] ending₂
    rwa [List.append_nil, parsed_nil, Parsed.mk_append, List.append_nil, List.append_nil] at h
  refine ⟨?_, fun hno => ?_⟩
  · have hnot : HeadAvoids (· = .keyword .else) (front ++ [semi] ++ q) := fun t ht hk => by
      refine hb.head t ?_ (hk ▸ (by decide))
      cases front <;> exact ht
    rw [List.append_assoc, parsed_append (derivation_of_parsed hp) hnot, hone q ending,
      halone, Parsed.append_assoc, ← hp]
  · cases stmt? with
    | none =>
      obtain ⟨js, e, rfl, hjs, he⟩ := hsettled.givenUp
      exact ⟨js, e, halone, hjs, he⟩
    | some stmt =>
      refine absurd ?_ hno
      have hclean : ¬Faulty (parse ⟨front ++ [semi], ending₂, []⟩).issues := by
        show ¬Faulty (parsed _ _).issues
        rw [halone]
        exact hsettled.tolerated.not_faulty
      obtain ⟨stmts, js, hderived⟩ := (parse_exact _).2.mpr hclean
      have heq : (⟨stmts, js⟩ : Parsed) = ⟨[stmt], is⟩ :=
        ((parse_exact ⟨front ++ [semi], ending₂, []⟩).1 stmts js hderived).1.symm.trans halone
      cases heq
      obtain ⟨dangling, hone⟩ := Phrase.of_single hderived
      exact ⟨dangling, stmt, is, hone⟩

/-- The name `a` as a token of the first line. -/
def nameAt (offset : Nat) : Token :=
  ⟨.identifier, "a", ⟨1, offset⟩⟩

/-- A semicolon as a token of the first line. -/
def semicolonAt (offset : Nat) : Token :=
  ⟨.symbol .semicolon, ";", ⟨1, offset⟩⟩

/-- In `a; a a; a;` the second sentence is broken, and the others are read. -/
theorem parsed_name_between :
    (parsed [nameAt 0, semicolonAt 1] (Tokens.endingAt ⟨1, 2⟩)).issues = [] ∧
      Sentence [nameAt 3, nameAt 5] (semicolonAt 6) ∧
      parsed [nameAt 0, semicolonAt 1, nameAt 3, nameAt 5, semicolonAt 6, nameAt 8, semicolonAt 9]
          (Tokens.endingAt ⟨1, 10⟩) =
        ⟨[.expression (.var (referenceAt (nameAt 0))), .expression (.var (referenceAt (nameAt 8)))],
          [.atToken (nameAt 5) (.expected .expressionEnd)]⟩ := by
  have hp : (parsed [nameAt 0, semicolonAt 1] (Tokens.endingAt ⟨1, 2⟩)).issues = [] := rfl
  have hb : Sentence [nameAt 3, nameAt 5] (semicolonAt 6) :=
    ⟨rfl, by unfold Unbroken; decide, headAvoids_cons (by decide), by decide⟩
  exact ⟨hp, hb, (parsed_sentence (q := [nameAt 8, semicolonAt 9]) (Tokens.endingAt ⟨1, 10⟩) _
    (Tokens.endingAt ⟨1, 7⟩) hp hb).1⟩

end LoxKit.Grammar
