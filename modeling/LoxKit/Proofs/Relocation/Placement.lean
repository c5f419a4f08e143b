import LoxKit.Proofs.Relocation.Linking
import LoxKit.Proofs.Session.Limit
import LoxKit.Proofs.Token.Joining

/-!
# One text below another

Texts that are joined line by line read as each of them does at the place where it comes to lie, and
so do their statements and their programs.

Headlines:
* `placed`: lists one behind the other, each moved to a place of its own.
* `CleanText.program_congr`: nothing of a program but its tokens has a place.
* **`cleanText_joined`**: nothing is wrong with the joined text, and its program is that of the texts.
-/

namespace LoxKit

/-! ## Lists one behind the other -/

section Placed

variable {α : Type} {move : (Pos → Pos) → α → α} {place : Nat → Pos → Pos}

/-- Lists one behind the other. The places in each are moved in its own way. -/
def placed (move : (Pos → Pos) → α → α) (place : Nat → Pos → Pos) (ass : List (List α)) : List α :=
  (ass.mapIdx fun k as => as.map (move (place k))).flatten

theorem placed_nil : placed move place [] = [] := rfl

theorem placed_cons (as : List α) (ass : List (List α)) :
    placed move place (as :: ass) =
      as.map (move (place 0)) ++ placed move (fun k => place (k + 1)) ass := by
  unfold placed
  rw [List.mapIdx_cons, List.flatten_cons]

theorem mem_placed {a : α} {ass : List (List α)} {k : Nat} {as : List α} (hk : ass[k]? = some as)
    (ha : a ∈ as) : move (place k) a ∈ placed move place ass := by
  obtain ⟨hlt, rfl⟩ := List.getElem?_eq_some_iff.mp hk
  exact List.mem_flatten.mpr
    ⟨_, List.mem_mapIdx.mpr ⟨k, hlt, rfl⟩, List.mem_map.mpr ⟨a, ha, rfl⟩⟩

/-- Lists that are moved once more. -/
theorem map_placed (f : Pos → Pos) {ass : List (List α)}
    (h : ∀ g, ∀ as ∈ ass, (List.map (move g) as).map (move f) = List.map (move (f ∘ g)) as) :
    (placed move place ass).map (move f) = placed move (fun k => f ∘ place k) ass := by
  induction ass generalizing place with
  | nil => rfl
  | cons as ass ih =>
    rw [placed_cons, placed_cons, List.map_append, h _ _ List.mem_cons_self,
      ih fun g as has => h g as (List.mem_cons_of_mem _ has)]

end Placed

/-! ## Statements -/

/-- From tokens only one list of statements is derived. -/
theorem Grammar.Phrase.unique {ts : List Token} {stmts stmts' : List (Stmt Unit)} {is is' : List Issue}
    (h : Phrase .declarations ts stmts is) (h' : Phrase .declarations ts stmts' is') :
    stmts = stmts' := by
  have hparse : parse ⟨ts, Tokens.endingAt .start, []⟩ = ⟨stmts, is⟩ := parse_of_derivation h
  have hparse' : parse ⟨ts, Tokens.endingAt .start, []⟩ = ⟨stmts', is'⟩ := parse_of_derivation h'
  exact congrArg Parsed.statements (hparse.symm.trans hparse')

/-- Declarations that are moved, one behind the other. -/
theorem Grammar.Phrase.placed {α : Type} {tokens : α → List Token} {stmts : α → List (Stmt Unit)}
    {place : Nat → Pos → Pos} {as : List α}
    (h : ∀ a ∈ as, Phrase .declarations (tokens a) (stmts a) []) :
    Phrase .declarations (LoxKit.placed Token.move place (as.map tokens))
      (LoxKit.placed Stmt.move place (as.map stmts)) [] := by
  induction as generalizing place with
  | nil => exact .noDeclarations
  | cons a as ih =>
    rw [List.forall_mem_cons] at h
    rw [List.map_cons, List.map_cons, placed_cons, placed_cons]
    exact h.1.move.append (ih h.2)

/-- Programs that are moved, one behind the other. -/
theorem linkProgram_placed {place : Nat → Pos → Pos} {stmtss : List (List (Stmt Unit))}
    (hp : ∀ st ∈ placed Stmt.move place stmtss, st.Proper)
    (hlinked : ∀ stmts ∈ stmtss, (linkProgram stmts).issues = []) :
    linkProgram (placed Stmt.move place stmtss) =
      ⟨placed Stmt.move place (stmtss.map fun stmts => (linkProgram stmts).tree), []⟩ := by
  induction stmtss generalizing place with
  | nil => simp only [List.map_nil, placed_nil, linkProgram, linkStmts]
  | cons stmts stmtss ih =>
    rw [List.forall_mem_cons] at hlinked
    rw [placed_cons, List.forall_mem_append] at hp
    rw [placed_cons, linkProgram_append hp.1, linkProgram_move, ih hp.2 hlinked.2, List.map_cons,
      placed_cons]
    simp only [Linked.move, hlinked.1, List.map_nil, List.append_nil]

/-! ## Programs -/

namespace CleanText

variable {text : String} {stmts : List (Stmt Unit)} {f g : Pos → Pos}

theorem derived (h : CleanText text stmts) :
    Grammar.Phrase .declarations (Tokens.ofText text).tokens stmts [] :=
  Grammar.derivation_of_parse h.read

theorem programOf_eq (h : CleanText text stmts) : programOf text = (linkProgram stmts).tree := by
  rw [programOf, h.read]

/-- Statements that are derived from the tokens of a text, moved, link to its program, moved. -/
theorem linked_of_derived (h : CleanText text stmts) {stmts' : List (Stmt Unit)} {is : List Issue}
    (hd : Grammar.Phrase .declarations ((Tokens.ofText text).tokens.map (Token.move f)) stmts' is) :
    (linkProgram stmts').tree = (programOf text).map (Stmt.move f) := by
  obtain rfl := hd.unique h.derived.move
  have hlink := congrArg Linked.tree (linkProgram_move (f := f) stmts)
  rw [h.programOf_eq]
  exact hlink

/-- Nothing of a program but its tokens has a place. -/
theorem program_congr (h : CleanText text stmts)
    (hfg : ∀ t ∈ (Tokens.ofText text).tokens, f t.pos = g t.pos) :
    (programOf text).map (Stmt.move f) = (programOf text).map (Stmt.move g) := by
  have htokens : (Tokens.ofText text).tokens.map (Token.move f) =
      (Tokens.ofText text).tokens.map (Token.move g) :=
    List.map_congr_left fun t ht => by rw [Token.move, Token.move, hfg t ht]
  rw [← h.linked_of_derived (h.derived.move (f := f)),
    h.linked_of_derived (htokens ▸ h.derived.move (f := f))]

theorem program_move_id (h : CleanText text stmts) :
    (programOf text).map (Stmt.move id) = programOf text := by
  have htokens : (Tokens.ofText text).tokens.map (Token.move id) = (Tokens.ofText text).tokens :=
    List.map_id _
  rw [← h.linked_of_derived (htokens.symm ▸ h.derived), h.programOf_eq]

theorem program_move_move (h : CleanText text stmts) :
    ((programOf text).map (Stmt.move f)).map (Stmt.move g) =
      (programOf text).map (Stmt.move (g ∘ f)) := by
  have hd := (h.derived.move (f := f)).move (f := g)
  rw [List.map_map] at hd
  have hlink := h.linked_of_derived (f := g ∘ f) hd
  rw [← hlink]
  simp only [Grammar.PhraseSort.move, linkProgram_move, Linked.move, h.programOf_eq]

end CleanText

/-- Nothing is wrong with a text exactly if it is clean. -/
theorem issuesOf_eq_nil {text : String} :
    Report.issuesOf text = [] ↔ ∃ stmts, CleanText text stmts := by
  constructor
  · intro h
    unfold Report.issuesOf at h
    split at h
    · rename_i hreading
      obtain ⟨hscanned, hread⟩ := List.append_eq_nil_iff.mp hreading
      exact ⟨_, hscanned, by rw [← hread], h⟩
    · rename_i hreading
      exact absurd h hreading
  · rintro ⟨stmts, hscanned, hread, hlinked⟩
    unfold Report.issuesOf Report.issuesOfReading
    rw [hscanned, hread, if_pos (List.append_nil []), hlinked]

/-! ## Texts -/

/-- Texts, one below the other. -/
def joined (texts : List String) : String :=
  "\n".intercalate texts

/-- Where a place in the k-th text comes to lie when texts are joined: behind the texts before it
and the ends of their last lines. -/
def joinedPlace (texts : List String) (k : Nat) (p : Pos) : Pos :=
  p.after ((texts.take k).flatMap fun text => text.toList ++ ['\n'])

theorem joinedPlace_zero (texts : List String) : joinedPlace texts 0 = id := rfl

theorem joinedPlace_succ (text : String) (texts : List String) (k : Nat) :
    joinedPlace (text :: texts) (k + 1) =
      (fun p => p.after (text.toList ++ ['\n'])) ∘ joinedPlace texts k := by
  funext p
  simp only [joinedPlace, List.take_succ_cons, List.flatMap_cons, Function.comp_apply,
    Tokens.after_append _ (text.toList ++ ['\n']), Pos.after_comm]

/-- What joined texts read as. -/
theorem ofText_joined {texts : List String}
    (hclean : ∀ text ∈ texts, (Tokens.ofText text).issues = [])
    (hclosed : ∀ text ∈ texts, ∀ p ∈ pieces text.toList, ¬ p.Open) :
    (Tokens.ofText (joined texts)).tokens =
        placed Token.move (joinedPlace texts) (texts.map fun text => (Tokens.ofText text).tokens) ∧
      (Tokens.ofText (joined texts)).issues = [] := by
  induction texts with
  | nil =>
    have hempty : Tokens.ofText (joined []) = ⟨[], Tokens.endingAt .start, []⟩ := by
      rw [joined, String.intercalate_nil, Tokens.ofText, String.toList_empty, pieces, Tokens.ofPieces]
    rw [hempty]
    exact ⟨rfl, rfl⟩
  | cons text texts ih =>
    rw [List.forall_mem_cons] at hclean hclosed
    have hfirst : (Tokens.ofText text).tokens.map (Token.move id) = (Tokens.ofText text).tokens :=
      List.map_id _
    obtain ⟨htokens, hissues⟩ := ih hclean.2 hclosed.2
    rw [List.map_cons, placed_cons, joinedPlace_zero, hfirst]
    cases texts with
    | nil => exact ⟨(List.append_nil _).symm, hclean.1⟩
    | cons text' texts =>
      have hbelow := Tokens.ofText_append_newline hclosed.1 (joined (text' :: texts))
      have hmoves : ∀ g, ∀ ts ∈ (text' :: texts).map fun text => (Tokens.ofText text).tokens,
          (ts.map (Token.move g)).map (Token.move fun p => p.after (text.toList ++ ['\n'])) =
            ts.map (Token.move ((fun p => p.after (text.toList ++ ['\n'])) ∘ g)) :=
        fun g ts _ => List.map_map
      rw [joined, String.intercalate_cons_cons, ← joined, hbelow]
      simp only [Tokens.move, htokens, hissues, hclean.1, List.map_nil, List.append_nil,
        map_placed _ hmoves, joinedPlace_succ, and_self]

section Joined

variable {texts : List String} (hclean : ∀ text ∈ texts, Report.issuesOf text = [])
  (hclosed : ∀ text ∈ texts, ∀ body, Piece.blockComment body false ∉ pieces text.toList)
include hclean hclosed

theorem tokens_joined :
    (Tokens.ofText (joined texts)).tokens =
        placed Token.move (joinedPlace texts) (texts.map fun text => (Tokens.ofText text).tokens) ∧
      (Tokens.ofText (joined texts)).issues = [] := by
  have hscanned : ∀ text ∈ texts, (Tokens.ofText text).issues = [] := by
    intro text htext
    obtain ⟨stmts, hstmts⟩ := issuesOf_eq_nil.mp (hclean text htext)
    exact hstmts.scanned
  exact ofText_joined hscanned fun text htext =>
    Tokens.not_open (hscanned text htext) (hclosed text htext)

/-- **Nothing is wrong with texts that are joined.** Their statements are those of the texts. -/
theorem cleanText_joined :
    CleanText (joined texts) (placed Stmt.move (joinedPlace texts)
      (texts.map fun text => (Grammar.parse (Tokens.ofText text)).statements)) ∧
    programOf (joined texts) = placed Stmt.move (joinedPlace texts) (texts.map programOf) := by
  obtain ⟨htokens, hissues⟩ := tokens_joined hclean hclosed
  have hderived : ∀ text ∈ texts, Grammar.Phrase .declarations (Tokens.ofText text).tokens
      (Grammar.parse (Tokens.ofText text)).statements [] := by
    intro text htext
    obtain ⟨stmts, hstmts⟩ := issuesOf_eq_nil.mp (hclean text htext)
    rw [hstmts.read]
    exact hstmts.derived
  have hlinked : ∀ stmts ∈ texts.map fun text => (Grammar.parse (Tokens.ofText text)).statements,
      (linkProgram stmts).issues = [] := by
    intro stmts hmem
    obtain ⟨text, htext, rfl⟩ := List.mem_map.mp hmem
    obtain ⟨stmts, hstmts⟩ := issuesOf_eq_nil.mp (hclean text htext)
    rw [hstmts.read]
    exact hstmts.linked
  have hread : Grammar.parse (Tokens.ofText (joined texts)) = ⟨placed Stmt.move (joinedPlace texts)
      (texts.map fun text => (Grammar.parse (Tokens.ofText text)).statements), []⟩ :=
    Grammar.parse_of_derivation (htokens ▸ Grammar.Phrase.placed hderived)
  have hproper : ∀ stmt ∈ (Grammar.parse (Tokens.ofText (joined texts))).statements, stmt.Proper :=
    Grammar.proper_parse (by rw [hread])
  rw [hread] at hproper
  have hlink := linkProgram_placed hproper hlinked
  rw [List.map_map] at hlink
  refine ⟨⟨hissues, hread, by rw [hlink]⟩, ?_⟩
  rw [programOf, hread, hlink]
  rfl

end Joined

end LoxKit
