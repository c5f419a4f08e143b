import LoxKit.Proofs.Relocation.Tree
import LoxKit.Proofs.Token.Lexicon

/-!
# Texts that are joined

The end of a line ends whatever stands before it, except for a comment or a string that is still
open. If nothing in a text is open at its end, what stands on further lines below it reads as it
does on its own, only further down.

Headlines:
* `Piece.Open`: the pieces that the end of a line does not end.
* `pieces_append_newline`: how a text is cut that stands above another.
* **`Tokens.ofText_append_newline`**: how it reads.
* `getLast?_of_open`: only the last piece of a text can be open.
* **`Tokens.scan_below`**: the tokens and the issues of a text above another, if it does not end
  within a piece that is open.
-/

namespace LoxKit

/-! ## Pieces -/

namespace Piece

/-- A comment or a string that is not closed. -/
inductive Open : Piece → Prop
  | comment (body : List Char) : Open (.blockComment body false)
  | string (body : List Char) : Open (.openString body)

theorem head?_append_newline {rest more : List Char} {c : Char}
    (h : (rest ++ '\n' :: more).head? = some c) : rest.head? = some c ∨ c = '\n' := by
  cases rest with
  | nil => exact Or.inr (Option.some.inj h).symm
  | cons d rest => exact Or.inl h

theorem not_letter_or_digit_newline : ¬ (IsLetter '\n' ∨ IsDigit '\n') := by
  unfold IsLetter IsDigit
  decide

/-- What may stand before a text may stand before the same text with more lines below it. -/
theorem Longest.append_newline {p : Piece} {rest : List Char} (h : p.Longest rest)
    (hp : ¬ p.Open) (more : List Char) : p.Longest (rest ++ '\n' :: more) := by
  have hdigit : ¬ IsDigit '\n' := fun h => not_letter_or_digit_newline (Or.inr h)
  cases h with
  | blank hc => exact .blank hc
  | newline => exact .newline
  | lineComment hb hr =>
    exact .lineComment hb fun c hc => (head?_append_newline hc).elim (hr c) id
  | closedComment hb => exact .closedComment hb
  | @openComment body hb => exact absurd (.comment body) hp
  | string hb => exact .string hb
  | @openString body hb => exact absurd (.string body) hp
  | integer hne hw hr hpoint =>
    refine .integer hne hw (fun c hc => ?_) fun c more' hc => ?_
    · rcases head?_append_newline hc with hc | rfl
      · exact hr c hc
      · exact hdigit
    · match rest, hc with
      | [], hc => exact absurd hc (by simp)
      | [_], hc =>
        cases hc
        exact hdigit
      | _ :: _ :: rest, hc =>
        cases hc
        exact hpoint c rest rfl
  | decimal hne hw hne' hf hr =>
    refine .decimal hne hw hne' hf fun c hc => ?_
    rcases head?_append_newline hc with hc | rfl
    · exact hr c hc
    · exact hdigit
  | word hc hw hr =>
    refine .word hc hw fun c hc => ?_
    rcases head?_append_newline hc with hc | rfl
    · exact hr c hc
    · exact not_letter_or_digit_newline
  | symbol hs =>
    have hhead : ∀ c, c ≠ '\n' → rest.head? ≠ some c → (rest ++ '\n' :: more).head? ≠ some c :=
      fun c hne hc hhead => (head?_append_newline hhead).elim hc hne
    exact .symbol ⟨fun hmem => hhead _ (by decide) (hs.1 hmem), fun hslash =>
      ⟨hhead _ (by decide) (hs.2 hslash).1, hhead _ (by decide) (hs.2 hslash).2⟩⟩
  | stray hb hn hq hd hl hs => exact .stray hb hn hq hd hl hs

end Piece

/-- How a text is cut that stands above another. -/
theorem pieces_append_newline {cs : List Char} (h : ∀ p ∈ pieces cs, ¬ p.Open) (more : List Char) :
    pieces (cs ++ '\n' :: more) = pieces cs ++ .newline :: pieces more := by
  fun_induction pieces cs with
  | case1 => exact pieces_of_longest .newline
  | case2 c cs ih =>
    rw [List.forall_mem_cons] at h
    have hlongest := (Piece.longest_next c cs).append_newline h.1 more
    rw [← Piece.next_text c cs, List.append_assoc, pieces_of_longest hlongest, ih h.2]
    rfl

/-! ## Tokens -/

theorem Pos.after_comm (p : Pos) (xs ys : List Char) : (p.after xs).after ys = (p.after ys).after xs := by
  rw [after, after, after, after, Pos.mk.injEq]
  exact ⟨Nat.add_right_comm _ _ _, Nat.add_right_comm _ _ _⟩

namespace Tokens

/-- What a text reads as, at other places. -/
def move (f : Pos → Pos) (t : Tokens) : Tokens :=
  ⟨t.tokens.map (Token.move f), t.ending.move f, t.issues.map (Issue.move f)⟩

/-- Pieces further down read as they do further up. -/
theorem ofPieces_after (before : List Char) (ps : List Piece) : ∀ start : Pos,
    ofPieces (start.after before) ps = (ofPieces start ps).move fun p => p.after before := by
  induction ps with
  | nil => exact fun _ => rfl
  | cons p ps ih =>
    intro start
    have hmark : p.mark (start.after before) = (p.mark start).after before := by
      simp only [Piece.mark, Pos.after, Pos.mk.injEq, and_true]
      exact Nat.add_right_comm _ _ _
    have htoken : p.token? (start.after before) =
        (p.token? start).map (Token.move fun p => p.after before) := by
      unfold Piece.token?
      rw [hmark, Option.map_map]
      rfl
    have hissue : p.issue? (start.after before) =
        (p.issue? start).map (Issue.move fun p => p.after before) := by
      unfold Piece.issue?
      rw [hmark, Option.map_map]
      rfl
    simp only [ofPieces, Pos.after_comm start before, ih, htoken, hissue, move, List.map_append,
      Option.toList_map]

/-- **A text below another reads as it does on its own, further down.** -/
theorem ofText_append_newline {text : String} (h : ∀ p ∈ pieces text.toList, ¬ p.Open)
    (more : String) :
    ofText (text ++ "\n" ++ more) =
      let below := (ofText more).move fun p => p.after (text.toList ++ ['\n'])
      ⟨(ofText text).tokens ++ below.tokens, below.ending, (ofText text).issues ++ below.issues⟩ := by
  have hlist : (text ++ "\n" ++ more).toList = text.toList ++ '\n' :: more.toList := by
    rw [String.toList_append, String.toList_append, List.append_assoc]
    rfl
  have hbelow : ofPieces (Pos.start.after text.toList) (.newline :: pieces more.toList) =
      (ofText more).move fun p => p.after (text.toList ++ ['\n']) := by
    have hnewline : (Pos.start.after text.toList).after Piece.newline.text =
        Pos.start.after (text.toList ++ ['\n']) := (after_append _ _ _).symm
    simp only [ofPieces, hnewline, ofPieces_after]
    rfl
  simp only [ofText, hlist, pieces_append_newline h, ofPieces_append, pieces_flatten, hbelow]

/-- Where there is no issue, nothing is wrong with any piece. -/
theorem complaint?_of_issues {ps : List Piece} : ∀ {start : Pos},
    (ofPieces start ps).issues = [] → ∀ p ∈ ps, p.complaint? = none := by
  induction ps with
  | nil => exact fun _ p hp => absurd hp List.not_mem_nil
  | cons p ps ih =>
    intro start h
    obtain ⟨hfirst, hrest⟩ := List.append_eq_nil_iff.mp h
    refine List.forall_mem_cons.mpr ⟨?_, ih hrest⟩
    rwa [Option.toList_eq_nil_iff, Piece.issue?, Option.map_eq_none_iff] at hfirst

/-- In a text without issues a comment may be open at the end, but no string. -/
theorem not_open {text : String} (hissues : (ofText text).issues = [])
    (hclosed : ∀ body, Piece.blockComment body false ∉ pieces text.toList) :
    ∀ p ∈ pieces text.toList, ¬ p.Open := by
  rintro p hp (body | body)
  · exact hclosed body hp
  · exact absurd (complaint?_of_issues hissues _ hp) (by simp [Piece.complaint?])

end Tokens

/-! ## Texts that end within a piece -/

/-- What is not closed reaches to the end of the text. -/
theorem Piece.Open.rest_eq_nil {p : Piece} (hp : p.Open) {rest : List Char} (h : p.Longest rest) :
    rest = [] := by
  cases hp <;> cases h <;> rfl

/-- Only the last piece of a text can be open. -/
theorem getLast?_of_open {cs : List Char} {p : Piece} (hp : p.Open) (hmem : p ∈ pieces cs) :
    (pieces cs).getLast? = some p := by
  fun_induction pieces cs with
  | case1 => exact absurd hmem List.not_mem_nil
  | case2 c cs ih =>
    rcases List.mem_cons.mp hmem with rfl | hmem
    · rw [hp.rest_eq_nil (Piece.longest_next c cs), pieces]
      rfl
    · rw [List.getLast?_cons, ih hmem]
      rfl

namespace Tokens

/-- The end of a text stands within a comment or a string that is not closed. -/
def EndsOpen (text : String) : Prop :=
  ∃ p, (pieces text.toList).getLast? = some p ∧ p.Open

/-- Where the places of a text are if it stands on the lines below another one. -/
def placeBelow (above : String) (p : Pos) : Pos :=
  ⟨p.line + (above.toList.count '\n' + 1), p.offset + (above.length + 1)⟩

/-- **Scanning is compositional at the ends of lines.** If the end of a text stands within no comment
and no string, a text on the lines below adds its own tokens, with the one that marks the end, and
its own issues, and their places alone change: by the lines and the characters of the text above,
and by one of each for the end of the line between. -/
theorem scan_below {text : String} (h : ¬ EndsOpen text) (more : String) :
    (ofText (text ++ "\n" ++ more)).all =
        (ofText text).tokens ++ (ofText more).all.map (Token.move (placeBelow text)) ∧
      (ofText (text ++ "\n" ++ more)).issues =
        (ofText text).issues ++ (ofText more).issues.map (Issue.move (placeBelow text)) := by
  have hclosed : ∀ p ∈ pieces text.toList, ¬ p.Open :=
    fun p hmem hp => h ⟨p, getLast?_of_open hp hmem, hp⟩
  have hplace : (fun p : Pos => p.after (text.toList ++ ['\n'])) = placeBelow text := by
    funext p
    rw [Pos.after, placeBelow, List.count_append, List.length_append, String.length_toList]
    rfl
  rw [ofText_append_newline hclosed, hplace]
  refine ⟨?_, rfl⟩
  rw [all, all, List.map_append, List.append_assoc]
  rfl

/-- A number before a point, a string over two lines and a comment with a quote in it are all closed
at the end of a text, so what stands below it stands in line three. -/
theorem scan_below_comment :
    ¬ EndsOpen "1.\"\n\" // \"" ∧
      (ofText ("1.\"\n\" // \"" ++ "\n" ++ "@;")).all = (ofText "1.\"\n\" // \"").tokens ++
        [⟨.symbol .semicolon, ";", ⟨3, 12⟩⟩, ⟨.eof, "", ⟨3, 13⟩⟩] ∧
      (ofText ("1.\"\n\" // \"" ++ "\n" ++ "@;")).issues = [.lexical ⟨3, 11⟩ (.unexpectedCharacter '@')] := by
  have hpieces : pieces "1.\"\n\" // \"".toList = [.number ['1'] [], .symbol .dot, .string ['\n'],
      .blank ' ', .lineComment [' ', '"']] := by decide +kernel
  have hends : ¬ EndsOpen "1.\"\n\" // \"" := by
    rintro ⟨p, hp, hopen⟩
    rw [hpieces] at hp
    cases hp
    cases hopen
  obtain ⟨hall, hissues⟩ := scan_below hends "@;"
  exact ⟨hends, hall.trans (by decide +kernel), hissues.trans (by decide +kernel)⟩

end Tokens

end LoxKit
