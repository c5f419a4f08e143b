import LoxKit.Proofs.Syntax.ReadingBack
import LoxKit.Proofs.Token.Lines

/-!
# Statements on display

Statements of texts that are written alike have the same outline: they are the same node by node, up
to the places of their tokens and the spelling of their numbers. How operators group, which `if` an
`else` belongs to, and whether a variable or a field is assigned to can be seen. Strings stand in the
way of this, as they are written without quotes, and so do numbers that are infinite, as these are
written like names. Without both, the tokens of a text show.

Headlines:
* `Token.Transparent`: neither a string nor an infinite number.
* `Tokens.shows`: the tokens of a text without these show.
* **`Grammar.render_unambiguous`**: the writing of a statement determines its outline.
-/

namespace LoxKit

/-! ## Tokens -/

open Decimal in
/-- A token is neither a string nor a number that is too large to be finite. -/
def Token.Transparent (t : Token) : Prop :=
  t.kind ≠ .string ∧ (t.kind = .number → ∀ negative,
    Double.ofFloat (readNumeral t.lexeme.toList) ≠ .infinite negative)

instance (t : Token) : Decidable t.Transparent :=
  inferInstanceAs (Decidable (_ ∧ _))

/-- An identifier begins with a letter, goes on with letters and digits, and is no keyword. -/
theorem Tokens.isName {text : String} {t : Token} (ht : t ∈ (ofText text).tokens)
    (hk : t.kind = .identifier) : IsName t.lexeme := by
  have hplain := (worded_ofText text t ht).2 hk
  obtain ⟨p, kind, ahead, behind, hkind, hp, -, rfl⟩ :=
    (scanned_pieces text.toList []).token_piece t ht
  cases hkind with
  | identifier h =>
    cases hp with
    | @word c chars _ hc hchars _ =>
      exact ⟨hplain, c, chars, String.toList_ofList, hc, hchars⟩
  | _ => exact absurd hk (by simp)

/-- The tokens of a text show if they are transparent, and so does the one that marks the end. -/
theorem Tokens.shows {text : String} (h : ∀ t ∈ (ofText text).tokens, t.Transparent) :
    ∀ t ∈ (ofText text).all, t.Shows := by
  intro t ht
  rcases List.mem_append.mp ht with ht | ht
  · obtain ⟨hstring, hnumber⟩ := h t ht
    refine ⟨(worded_ofText text t ht).1, isName ht, hstring, fun hk => ?_⟩
    cases hx : Decimal.Double.ofFloat (Decimal.readNumeral t.lexeme.toList) with
    | nan => exact absurd hx (Decimal.ofFloat_readNumeral _)
    | infinite negative => exact absurd hx (hnumber hk negative)
    | finite negative mantissa scale => exact ⟨negative, mantissa, scale, rfl⟩
  · rw [List.mem_singleton.mp ht, ofText_ending]
    exact ⟨by simp [endingAt], by simp [endingAt], by simp [endingAt], by simp [endingAt]⟩

/-! ## Statements -/

/-- Statements that are made of tokens that show are written alike if and only if they have the same
outline. -/
theorem Stmt.MadeOf.render_eq_iff {stmt stmt' : Stmt Unit} (h : stmt.MadeOf Token.Shows)
    (h' : stmt'.MadeOf Token.Shows) :
    stmt.render = stmt'.render ↔ stmt.outline = stmt'.outline := by
  rw [← Stmt.text_term, ← Stmt.text_term]
  constructor
  · intro htext
    have hterm := h.legible.text_injective h'.legible htext
    rw [← h.read, ← h'.read, hterm]
  · intro houtline
    rw [← Stmt.term_outline stmt, houtline, Stmt.term_outline]

namespace Grammar

/-- **The writing of statements is unambiguous.** Two statements of texts without strings and infinite
numbers are written alike if and only if they are the same node by node, with the same operators and
names, up to the places of their tokens, where numbers are the same if they are written alike. -/
theorem render_unambiguous {text text' : String}
    (h : ∀ t ∈ (Tokens.ofText text).tokens, t.Transparent)
    (h' : ∀ t ∈ (Tokens.ofText text').tokens, t.Transparent) {stmt stmt' : RawStmt}
    (hs : stmt ∈ (parse (Tokens.ofText text)).statements)
    (hs' : stmt' ∈ (parse (Tokens.ofText text')).statements) :
    stmt.render = stmt'.render ↔ stmt.outline = stmt'.outline :=
  ((parse_madeOf (Tokens.shows h)).2 stmt hs).render_eq_iff
    ((parse_madeOf (Tokens.shows h')).2 stmt' hs')

/-- A loop without end that prints a variable, with the places of its condition and the variable. -/
def printingLoop (condition target : Pos) : RawStmt :=
  .whileDo (alwaysTrue condition) (.print (.var ⟨⟨"a", target⟩, ()⟩))

/-- A for loop without condition is written as a loop while `true`, and has the same outline. -/
theorem render_unambiguous_loop :
    (∀ t ∈ (Tokens.ofText "for(;;)print a;").tokens, t.Transparent) ∧
      (∀ t ∈ (Tokens.ofText "while(true)print a;").tokens, t.Transparent) ∧
      printingLoop ⟨1, 0⟩ ⟨1, 13⟩ ∈ (parse (Tokens.ofText "for(;;)print a;")).statements ∧
      printingLoop ⟨1, 6⟩ ⟨1, 17⟩ ∈ (parse (Tokens.ofText "while(true)print a;")).statements ∧
      (printingLoop ⟨1, 0⟩ ⟨1, 13⟩).render = (printingLoop ⟨1, 6⟩ ⟨1, 17⟩).render ∧
      (printingLoop ⟨1, 0⟩ ⟨1, 13⟩).outline = (printingLoop ⟨1, 6⟩ ⟨1, 17⟩).outline := by
  have hfor : ∀ t ∈ (Tokens.ofText "for(;;)print a;").tokens, t.Transparent := by decide +kernel
  have hwhile : ∀ t ∈ (Tokens.ofText "while(true)print a;").tokens, t.Transparent := by
    decide +kernel
  have hparse : (parse (Tokens.ofText "for(;;)print a;")).statements =
      [printingLoop ⟨1, 0⟩ ⟨1, 13⟩] := by cbv
  have hparse' : (parse (Tokens.ofText "while(true)print a;")).statements =
      [printingLoop ⟨1, 6⟩ ⟨1, 17⟩] := by cbv
  have hs := hparse ▸ List.mem_singleton_self (printingLoop ⟨1, 0⟩ ⟨1, 13⟩)
  have hs' := hparse' ▸ List.mem_singleton_self (printingLoop ⟨1, 6⟩ ⟨1, 17⟩)
  have hrender : (printingLoop ⟨1, 0⟩ ⟨1, 13⟩).render = (printingLoop ⟨1, 6⟩ ⟨1, 17⟩).render := by
    simp only [printingLoop, Stmt.render, Expr.render, alwaysTrue]
  exact ⟨hfor, hwhile, hs, hs', hrender, (render_unambiguous hfor hwhile hs hs').mp hrender⟩

end Grammar

end LoxKit
