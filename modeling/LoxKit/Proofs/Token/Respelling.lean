import LoxKit.Proofs.Token.Lexicon

/-!
# Tokens that are spelled out

The lexemes of a text, written one after the other with a space between, are a text again. It reads
as the same tokens, and nothing is wrong with it: a space ends every token there is, whatever stood
behind it in the first text, and begins none. So the comments, the blanks and the faults of a text
do no more than to keep tokens apart.

Headlines:
* `Piece.Longest.before_space`: a token may stand before a space, and at the end of a text.
* `pieces_spaced`: how tokens with spaces between are cut.
* **`Tokens.scan_spelled`**: how they read.
-/

namespace LoxKit

/-! ## Pieces -/

/-- The end of a text, or a space. -/
def Spaced (rest : List Char) : Prop :=
  ∀ c, rest.head? = some c → c = ' '

theorem spaced_nil : Spaced [] :=
  fun _ h => absurd h (by simp)

theorem spaced_cons (rest : List Char) : Spaced (' ' :: rest) :=
  fun _ h => (Option.some.inj h).symm

namespace Piece

/-- A token may stand before a space, and at the end of a text. -/
theorem Longest.before_space {p : Piece} {kind : Kind} {rest more : List Char} (h : p.Longest rest)
    (hk : p.HasKind kind) (hmore : Spaced more) : p.Longest more := by
  have hdigit : ∀ c, more.head? = some c → ¬ IsDigit c := by
    intro c hc
    rw [hmore c hc]
    unfold IsDigit
    decide
  cases hk with
  | string body =>
    cases h with
    | string hb => exact .string hb
  | number whole fraction =>
    cases h with
    | integer hne hw _ _ =>
      refine .integer hne hw hdigit fun c rest hc => ?_
      exact absurd (hmore '.' (by rw [hc]; rfl)) (by decide)
    | decimal hne hw hne' hf _ => exact .decimal hne hw hne' hf hdigit
  | keyword k | identifier hword =>
    generalize hchars : Piece.word _ = p at h ⊢
    cases h with
    | word hc hw _ =>
      refine .word hc hw fun c hmem => ?_
      rw [hmore c hmem]
      unfold IsLetter IsDigit
      decide
    | _ => exact absurd hchars (by simp)
  | symbol s =>
    have hhead : ∀ c, c ≠ ' ' → more.head? ≠ some c := fun c hne hc => hne (hmore c hc)
    exact .symbol ⟨fun _ => hhead _ (by decide), fun _ => ⟨hhead _ (by decide), hhead _ (by decide)⟩⟩

/-- The kind of a piece and what is written there, if it is a token. -/
def spelling? (p : Piece) : Option (Kind × String) :=
  p.kind?.map fun kind => (kind, String.ofList p.text)

/-- Pieces that are tokens, each of which stands somewhere. -/
def Tokenlike (p : Piece) : Prop :=
  (∃ rest, p.Longest rest) ∧ ∃ kind, p.HasKind kind

theorem Tokenlike.longest {p : Piece} (h : p.Tokenlike) {more : List Char} (hmore : Spaced more) :
    p.Longest more := by
  obtain ⟨⟨rest, hp⟩, kind, hk⟩ := h
  exact hp.before_space hk hmore

/-- Nothing is wrong with a token. -/
theorem Tokenlike.complaint {p : Piece} (h : p.Tokenlike) : p.complaint? = none := by
  obtain ⟨-, kind, hk⟩ := h
  cases hk <;> rfl

end Piece

/-- The pieces of a text that are tokens. -/
def words (cs : List Char) : List Piece :=
  (pieces cs).filter fun p => p.kind?.isSome

theorem tokenlike_words (cs : List Char) : ∀ p ∈ words cs, p.Tokenlike := by
  have hstands : ∀ p ∈ pieces cs, ∃ rest, p.Longest rest := by
    fun_induction pieces cs with
    | case1 => exact fun p hp => absurd hp List.not_mem_nil
    | case2 c cs ih => exact List.forall_mem_cons.mpr ⟨⟨_, Piece.longest_next c cs⟩, ih⟩
  intro p hp
  obtain ⟨hmem, hkind⟩ := List.mem_filter.mp hp
  obtain ⟨kind, hk⟩ := Option.isSome_iff_exists.mp hkind
  exact ⟨hstands p hmem, kind, Piece.kind?_eq_some.mp hk⟩

/-- Tokens with spaces between are cut into these tokens and these spaces. -/
theorem pieces_spaced {ps : List Piece} (h : ∀ p ∈ ps, p.Tokenlike) :
    pieces ([' '].intercalate (ps.map Piece.text)) = ps.intersperse (.blank ' ') := by
  induction ps with
  | nil => simp [pieces]
  | cons p ps ih =>
    rw [List.forall_mem_cons] at h
    cases ps with
    | nil =>
      have hp := pieces_of_longest (h.1.longest spaced_nil)
      rw [List.append_nil, pieces] at hp
      simpa using hp
    | cons q ps =>
      have hspace : (Piece.blank ' ').Longest ([' '].intercalate ((q :: ps).map Piece.text)) :=
        .blank (Or.inl rfl)
      have hfirst := pieces_of_longest (h.1.longest (spaced_cons
        ([' '].intercalate ((q :: ps).map Piece.text))))
      rw [List.intersperse_cons_cons, ← ih h.2, ← pieces_of_longest hspace, Piece.text.eq_1,
        List.singleton_append, ← hfirst, List.map_cons, List.map_cons, List.intercalate_cons_cons,
        List.append_assoc, List.singleton_append]

/-! ## Tokens -/

namespace Tokens

/-- The lexemes of a text with spaces between. -/
def spelled (text : String) : String :=
  " ".intercalate ((ofText text).tokens.map Token.lexeme)

/-- The kinds and the lexemes of tokens do not depend on where they stand. -/
theorem spellings_ofPieces (ps : List Piece) : ∀ start : Pos,
    (ofPieces start ps).tokens.map (fun t => (t.kind, t.lexeme)) =
      ps.filterMap Piece.spelling? := by
  induction ps with
  | nil => exact fun _ => rfl
  | cons p ps ih =>
    intro start
    rw [ofPieces, List.filterMap_cons, List.map_append, ih, Piece.token?, Piece.spelling?]
    cases p.kind? <;> rfl

theorem issues_ofPieces {ps : List Piece} (h : ∀ p ∈ ps, p.complaint? = none) : ∀ start : Pos,
    (ofPieces start ps).issues = [] := by
  induction ps with
  | nil => exact fun _ => rfl
  | cons p ps ih =>
    intro start
    rw [List.forall_mem_cons] at h
    rw [ofPieces, Piece.issue?, h.1, ih h.2]
    rfl

theorem mem_of_mem_intersperse {sep : Piece} {ps : List Piece} :
    ∀ p ∈ ps.intersperse sep, p ∈ ps ∨ p = sep := by
  induction ps with
  | nil => exact fun p hp => absurd hp List.not_mem_nil
  | cons q ps ih =>
    cases ps with
    | nil => exact fun p hp => Or.inl hp
    | cons r ps =>
      rw [List.intersperse_cons_cons, List.forall_mem_cons, List.forall_mem_cons]
      exact ⟨Or.inl List.mem_cons_self, Or.inr rfl,
        fun p hp => (ih p hp).imp_left (List.mem_cons_of_mem q)⟩

/-- Spaces are no tokens. -/
theorem spellings_intersperse (ps : List Piece) :
    (ps.intersperse (.blank ' ')).filterMap Piece.spelling? = ps.filterMap Piece.spelling? := by
  induction ps with
  | nil => rfl
  | cons p ps ih =>
    cases ps with
    | nil => rfl
    | cons q ps =>
      have hblank : (Piece.blank ' ').spelling? = none := rfl
      rw [List.intersperse_cons_cons, List.filterMap_cons, List.filterMap_cons_none hblank, ih,
        List.filterMap_cons (a := p)]

/-- Nor is what is left out between them. -/
theorem spellings_words (cs : List Char) :
    (words cs).filterMap Piece.spelling? = (pieces cs).filterMap Piece.spelling? := by
  rw [words, List.filterMap_filter]
  congr 1
  funext p
  rw [Piece.spelling?]
  cases p.kind? <;> rfl

theorem lexemes_filterMap (ps : List Piece) :
    (ps.filterMap Piece.spelling?).map (fun s => s.2.toList) =
      (ps.filter fun p => p.kind?.isSome).map Piece.text := by
  induction ps with
  | nil => rfl
  | cons p ps ih =>
    rw [List.filterMap_cons, List.filter_cons, Piece.spelling?]
    cases p.kind? with
    | none => exact ih
    | some kind => simpa using ih

/-- The lexemes of a text with spaces between are cut into its tokens and these spaces. -/
theorem pieces_spelled (text : String) :
    pieces (spelled text).toList = (words text.toList).intersperse (.blank ' ') := by
  have hlexemes : ((ofText text).tokens.map Token.lexeme).map String.toList =
      (words text.toList).map Piece.text := by
    rw [words, ← lexemes_filterMap, ← spellings_ofPieces _ .start, List.map_map, List.map_map]
    rfl
  rw [spelled, String.toList_intercalate, hlexemes, ← pieces_spaced (tokenlike_words _)]
  rfl

/-- The value of a literal is a function of how it is spelled. -/
def valueOf? (s : Kind × String) : Option Literal :=
  (⟨s.1, s.2, .start⟩ : Token).literal?

/-- **What is spelled out reads as what it was.** There is no issue with the lexemes of a text that
are written with spaces between, and the tokens are of the same kinds, with the same lexemes and the
same values, up to the one that marks the end. -/
theorem scan_spelled (text : String) :
    (ofText (spelled text)).issues = [] ∧
      (ofText (spelled text)).tokens.map (fun t => (t.kind, t.lexeme, t.literal?)) =
        (ofText text).tokens.map (fun t => (t.kind, t.lexeme, t.literal?)) ∧
      (ofText (spelled text)).all = (ofText (spelled text)).tokens ++
        [⟨.eof, "", ⟨1 + (spelled text).toList.count '\n', (spelled text).length⟩⟩] := by
  have hspellings : (ofText (spelled text)).tokens.map (fun t => (t.kind, t.lexeme)) =
      (ofText text).tokens.map (fun t => (t.kind, t.lexeme)) := by
    rw [ofText, ofText, spellings_ofPieces, spellings_ofPieces, pieces_spelled,
      spellings_intersperse, spellings_words]
  refine ⟨?_, ?_, ?_⟩
  · refine issues_ofPieces (fun p hp => ?_) _
    rw [pieces_spelled] at hp
    rcases mem_of_mem_intersperse p hp with hp | rfl
    · exact (tokenlike_words _ p hp).complaint
    · rfl
  · have hvalues := congrArg (List.map fun s => (s.1, s.2, valueOf? s)) hspellings
    rw [List.map_map, List.map_map] at hvalues
    exact hvalues
  · rw [all, ofText_ending, endingAt, Pos.after, Pos.start, Nat.zero_add, String.length_toList]

end Tokens

end LoxKit
