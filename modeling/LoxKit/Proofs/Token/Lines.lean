import LoxKit.Proofs.Token.Lexicon

/-!
# Places and lines

Where tokens and faulty pieces stand in a text, and which line is named for them. A line is not read
off the text again for each token: a counter goes on at the ends of lines, and inside of the comments
and the strings that may go over several lines, and nowhere else. No other piece has a line feed in
it, so the counter misses none and takes none twice.

Headlines:
* `Scanned.token_piece`, `Scanned.issue_stands`: which pieces tokens and issues are about, and where
  they stand in a text.
* `Piece.feeds`: how far the counter goes on at a piece.
* `Piece.Longest.count_newlines`, `count_newlines_pieces`: that is how many line feeds are in it.
* **`Tokens.lines_exact`**: the lines of tokens and issues.
-/

namespace LoxKit

/-! ## Ranges of a text -/

/-- Characters stand in a text at a place: at the offset of their first one, in the line of their
last one. -/
def Stands (text : List Char) (pos : Pos) (marked : List Char) : Prop :=
  ∃ before after, text = before ++ marked ++ after ∧
    pos = ⟨1 + (before ++ marked).count '\n', before.length⟩

/-- What stands at a place is found there, and the line of the place is that of its end. -/
theorem Stands.found {text : List Char} {pos : Pos} {marked : List Char}
    (h : Stands text pos marked) :
    (text.drop pos.offset).take marked.length = marked ∧
      pos.line = 1 + (text.take (pos.offset + marked.length)).count '\n' := by
  obtain ⟨before, after, rfl, rfl⟩ := h
  have hend : before.length + marked.length = (before ++ marked).length :=
    List.length_append.symm
  refine ⟨?_, ?_⟩
  · rw [List.append_assoc, List.drop_left, List.take_left]
  · rw [hend, List.take_left]

theorem Piece.Longest.text_ne_nil {p : Piece} {rest : List Char} (h : p.Longest rest) :
    p.text ≠ [] := by
  obtain ⟨c, cs, -, hnext⟩ := Piece.next_of_longest h
  have hne := Piece.next_text_ne_nil c cs
  rwa [hnext] at hne

/-- A token is a piece that is as long as its kind allows, and it stands where the piece does. -/
theorem Scanned.token_piece {before cs : List Char} {ps : List Piece} {ts : List Token}
    {is : List Issue} (h : Scanned before cs ps ts is) :
    ∀ t ∈ ts, ∃ (p : Piece) (kind : Kind) (ahead behind : List Char),
      p.HasKind kind ∧ p.Longest behind ∧ before ++ cs = ahead ++ p.text ++ behind ∧
        t = ⟨kind, String.ofList p.text, ⟨1 + (ahead ++ p.text).count '\n', ahead.length⟩⟩ := by
  induction h with
  | ends => exact fun t ht => absurd ht List.not_mem_nil
  | @token before rest p kind ps ts is hp hk _ ih =>
    rw [List.append_assoc] at ih
    refine List.forall_mem_cons.mpr ⟨⟨p, kind, before, rest, hk, hp, ?_, rfl⟩, ih⟩
    rw [List.append_assoc]
  | issue _ _ _ ih | skipped _ _ _ _ ih =>
    rw [List.append_assoc] at ih
    exact ih

/-- A token stands where it says, and it is not empty. -/
theorem Scanned.token_stands {before cs : List Char} {ps : List Piece} {ts : List Token}
    {is : List Issue} (h : Scanned before cs ps ts is) :
    ∀ t ∈ ts, t.lexeme.toList ≠ [] ∧ Stands (before ++ cs) t.pos t.lexeme.toList := by
  intro t ht
  obtain ⟨p, kind, ahead, behind, -, hp, htext, rfl⟩ := h.token_piece t ht
  rw [String.toList_ofList]
  exact ⟨hp.text_ne_nil, ahead, behind, htext, rfl⟩

/-- A faulty piece stands where its issue says, and it is as long as its kind allows. -/
theorem Scanned.issue_stands {before cs : List Char} {ps : List Piece} {ts : List Token}
    {is : List Issue} (h : Scanned before cs ps ts is) :
    ∀ i ∈ is, ∃ (p : Piece) (complaint : Complaint) (ahead behind : List Char),
      p.HasFault complaint ∧ p.Longest behind ∧ before ++ cs = ahead ++ p.text ++ behind ∧
        i = .lexical ⟨1 + (ahead ++ p.text).count '\n', ahead.length⟩ complaint := by
  induction h with
  | ends => exact fun t ht => absurd ht List.not_mem_nil
  | @issue before rest p complaint ps ts is hp hf _ ih =>
    rw [List.append_assoc] at ih
    refine List.forall_mem_cons.mpr ⟨⟨p, complaint, before, rest, hf, hp, ?_, rfl⟩, ih⟩
    rw [List.append_assoc]
  | token _ _ _ ih | skipped _ _ _ _ ih =>
    rw [List.append_assoc] at ih
    exact ih

/-! ## The counter -/

namespace Piece

/-- How far the counter of lines goes on at a piece: once at the end of a line, and once for each
line feed between the marks of a comment or the quotes of a string. It stands still at all else. -/
def feeds : Piece → Nat
  | newline => 1
  | blockComment body _ | string body | openString body => body.count '\n'
  | _ => 0

/-- At a piece of a text the counter goes on by its line feeds. -/
theorem Longest.count_newlines {p : Piece} {rest : List Char} (h : p.Longest rest) :
    p.text.count '\n' = p.feeds := by
  have hdigits : ∀ ds : List Char, (∀ c ∈ ds, IsDigit c) → ds.count '\n' = 0 := by
    refine fun ds hds => List.count_eq_zero.mpr fun hmem => absurd (hds _ hmem) ?_
    unfold IsDigit
    decide
  cases h with
  | blank hc => rcases hc with rfl | rfl | rfl <;> rfl
  | newline => rfl
  | lineComment hb _ => simpa [text, feeds] using List.count_eq_zero.mpr hb
  | closedComment | openComment | string | openString => simp [text, feeds]
  | integer _ hw _ _ => simpa [text, feeds] using hdigits _ hw
  | decimal _ hw hne' hf _ => simp [text, feeds, hdigits _ hw, hdigits _ hf, hne']
  | @word c chars _ hc hw _ =>
    refine List.count_eq_zero.mpr fun hmem => ?_
    have hword : IsLetter '\n' ∨ IsDigit '\n' :=
      (List.mem_cons.mp hmem).elim (fun h => Or.inl (h ▸ hc)) (hw _)
    unfold IsLetter IsDigit at hword
    exact absurd hword (by decide)
  | @symbol s _ _ => cases s <;> rfl
  | stray _ hn _ _ _ _ => exact List.count_eq_zero.mpr fun hmem => hn (List.mem_singleton.mp hmem).symm

end Piece

/-- At the pieces of a text the counter goes on by the line feeds of the text. -/
theorem count_newlines_pieces (cs : List Char) : ∀ p ∈ pieces cs, p.text.count '\n' = p.feeds := by
  fun_induction pieces cs with
  | case1 => exact fun p hp => absurd hp List.not_mem_nil
  | case2 c cs ih =>
    exact List.forall_mem_cons.mpr ⟨(Piece.longest_next c cs).count_newlines, ih⟩

namespace Tokens

/-- The line that is named for a piece is what the counter says behind it. -/
theorem mark_line {text : List Char} {before after : List Piece} {p : Piece}
    (h : pieces text = before ++ p :: after) :
    (p.mark (Pos.start.after (before.map Piece.text).flatten)).line =
      1 + ((before ++ [p]).map Piece.feeds).sum := by
  have hfeeds : ∀ q ∈ before ++ [p], q.text.count '\n' = q.feeds := by
    refine fun q hq => count_newlines_pieces text q ?_
    rw [h, List.append_cons]
    exact List.mem_append_left _ hq
  have hcount : ((before ++ [p]).map Piece.text).flatten.count '\n' =
      ((before ++ [p]).map Piece.feeds).sum := by
    rw [List.count_flatten, List.map_map]
    exact congrArg List.sum (List.map_congr_left hfeeds)
  rw [← hcount, mark_behind, List.map_append, List.flatten_append]
  simp

/-- **The lines of tokens and issues are exact.** A token, the one at the end included, stands at its
offset, in the line of its end: the number of line feeds before that and one. A character that
starts nothing is in the line of its offset, a string without end in the last line of the text. For
each piece this is what a counter says that goes on at the ends of lines and inside of comments and
strings, whatever stands before the piece. -/
theorem lines_exact (text : String) :
    (∀ t ∈ (ofText text).all,
      (text.toList.drop t.pos.offset).take t.lexeme.length = t.lexeme.toList ∧
        t.pos.line = 1 + (text.toList.take (t.pos.offset + t.lexeme.length)).count '\n') ∧
    (∀ i ∈ (ofText text).issues,
      (∃ c, i.complaint = .unexpectedCharacter c ∧ text.toList[i.pos.offset]? = some c ∧
          i.pos.line = 1 + (text.toList.take i.pos.offset).count '\n') ∨
        (i.complaint = .unterminatedString ∧ text.toList[i.pos.offset]? = some '"' ∧
          i.pos.line = 1 + text.toList.count '\n')) ∧
    ∀ before p after, pieces text.toList = before ++ p :: after →
      (p.mark (Pos.start.after (before.map Piece.text).flatten)).line =
        1 + ((before ++ [p]).map Piece.feeds).sum := by
  have hscanned := scanned_pieces text.toList []
  refine ⟨fun t ht => ?_, fun i hi => ?_, fun before p after h => mark_line h⟩
  · rw [← String.length_toList]
    rcases List.mem_append.mp ht with ht | ht
    · exact (hscanned.token_stands t ht).2.found
    · rw [List.mem_singleton.mp ht, ofText_ending]
      simp [endingAt, Pos.after, Pos.start]
  · obtain ⟨p, complaint, before, after, hf, hp, htext, rfl⟩ := hscanned.issue_stands i hi
    rw [List.nil_append] at htext
    rw [htext]
    cases hf with
    | openString body =>
      cases hp
      exact Or.inr ⟨rfl, by simp [Issue.lexical, Piece.text], by rw [List.append_nil]; rfl⟩
    | stray c =>
      have hcount : (Piece.stray c).text.count '\n' = 0 := hp.count_newlines
      refine Or.inl ⟨c, rfl, by simp [Issue.lexical, Piece.text], ?_⟩
      rw [Issue.lexical, List.append_assoc, List.take_left, List.count_append, hcount, Nat.add_zero]

end Tokens

end LoxKit
