import LoxKit.Proofs.Token.Lexicon
import LoxKit.Report

/-!
# Scanning with a cursor

A scanner goes through a text character by character and looks one or two characters ahead. It has a
counter of lines, which goes on at the ends of lines and inside of strings and block comments, and
stands still inside of line comments, as these stop before the end of their line. It notes an issue
as soon as it finds it, and a full report ends it. What it comes to are the pieces of the text.

Headlines:
* `Cursor.advanceWhile_eq`: what all the loops of the scanner come to.
* `Piece.Longest.found`: a step of the scanner finds a piece that is as long as its kind allows.
* **`Cursor.scan_eq`**: the scanner finds the tokens of a text, and notes its issues in their order.
-/

namespace LoxKit

/-! ## The scanner -/

/-- Where a scanner stands: the characters ahead, and how far it has counted. -/
structure Cursor where
  ahead : List Char
  pos : Pos

namespace Cursor

/-- Goes on behind the next character, if there is one, and does not look at it. -/
def advance (here : Cursor) : Cursor :=
  match here.ahead with
  | [] => here
  | _ :: cs => ⟨cs, { here.pos with offset := here.pos.offset + 1 }⟩

/-- Goes on behind the next character if it is the expected one. -/
def accept (here : Cursor) (expected : Char) : Option Cursor :=
  if here.ahead.head? = some expected then some here.advance else none

/-- Counts a line. -/
def feed (here : Cursor) : Cursor :=
  { here with pos := { here.pos with line := here.pos.line + 1 } }

/-- Goes on as long as the characters ahead pass a test, and counts lines if it is told to. -/
def advanceWhile (test : List Char → Bool) (counting : Bool) : (ahead : List Char) → Pos → Cursor
  | [], pos => ⟨[], pos⟩
  | c :: cs, pos =>
    if test (c :: cs) then
      let line := if counting ∧ c = '\n' then pos.line + 1 else pos.line
      advanceWhile test counting cs ⟨line, pos.offset + 1⟩
    else ⟨c :: cs, pos⟩

/-- Goes on to the end of the line. -/
def lineComment (here : Cursor) : Cursor :=
  advanceWhile (fun cs => cs.head?.any (· != '\n')) false here.ahead here.pos

/-- Goes on behind the end of a comment, or to the end of the text. -/
def blockComment (here : Cursor) : Cursor :=
  let stop := advanceWhile (fun cs => !(cs.head? == some '*' && cs.tail.head? == some '/')) true
    here.ahead here.pos
  stop.advance.advance

/-- Goes on to a quote, or to the end of the text. -/
def quoted (here : Cursor) : Cursor :=
  advanceWhile (fun cs => cs.head?.any (· != '"')) true here.ahead here.pos

/-- Goes on behind digits. -/
def digits (here : Cursor) : Cursor :=
  advanceWhile (fun cs => cs.head?.any Char.isDigit) false here.ahead here.pos

/-- Goes on behind digits, and behind a point and more digits if a digit follows the point. -/
def number (here : Cursor) : Cursor :=
  let point := here.digits
  if point.ahead.head? = some '.' ∧ point.ahead.tail.head?.any Char.isDigit then
    point.advance.digits
  else point

/-- Goes on to the end of a word. -/
def word (here : Cursor) : Cursor :=
  advanceWhile (fun cs => cs.head?.any Piece.continuesWord) false here.ahead here.pos

/-- The text from one cursor to another. -/
def lexeme (start behind : Cursor) : String :=
  String.ofList (start.ahead.take (behind.pos.offset - start.pos.offset))

/-- The place of what is found from one cursor to another. -/
def mark (start behind : Cursor) : Pos :=
  ⟨behind.pos.line, start.pos.offset⟩

/-- What a scanner comes to in a step. -/
structure Step where
  token : Option Token
  issue : Option Issue
  behind : Cursor

/-- Finds a token. -/
def add (start behind : Cursor) (kind : Kind) : Step :=
  ⟨some ⟨kind, start.lexeme behind, start.mark behind⟩, none, behind⟩

/-- Finds an issue. -/
def complain (start behind : Cursor) (complaint : Complaint) : Step :=
  ⟨none, some (.lexical (start.mark behind) complaint), behind⟩

/-- Finds nothing. -/
def pass (behind : Cursor) : Step :=
  ⟨none, none, behind⟩

/-- Scans what begins with a character. -/
def scanToken (c : Char) (cs : List Char) (pos : Pos) : Step :=
  let start : Cursor := ⟨c :: cs, pos⟩
  let here := start.advance
  if c = '/' then
    match here.accept '/', here.accept '*' with
    | some body, _ => pass body.lineComment
    | none, some body => pass body.blockComment
    | none, none => start.add here (.symbol .slash)
  else
    match Piece.symbolOf? c with
    | some (alone, none) => start.add here (.symbol alone)
    | some (alone, some withEquals) =>
      match here.accept '=' with
      | some behind => start.add behind (.symbol withEquals)
      | none => start.add here (.symbol alone)
    | none =>
      if c = ' ' ∨ c = '\t' ∨ c = '\r' then pass here
      else if c = '\n' then pass here.feed
      else if c = '"' then
        let stop := here.quoted
        if stop.ahead = [] then start.complain stop .unterminatedString
        else start.add stop.advance .string
      else if c.isDigit then start.add here.number .number
      else if Piece.startsWord c then
        let behind := here.word
        match Keyword.ofWord? (start.lexeme behind) with
        | some k => start.add behind (.keyword k)
        | none => start.add behind .identifier
      else start.complain here (.unexpectedCharacter c)

/-! ## Loops -/

theorem after_cons (pos : Pos) (c : Char) (cs : List Char) :
    pos.after (c :: cs) =
      (⟨if c = '\n' then pos.line + 1 else pos.line, pos.offset + 1⟩ : Pos).after cs := by
  simp only [Pos.after, List.count_cons, List.length_cons, beq_iff_eq, Pos.mk.injEq]
  constructor
  · split <;> omega
  · omega

/-- A loop takes characters as long as those ahead pass its test. If it does not count the lines on
its way, there are none. -/
theorem advanceWhile_eq {test : List Char → Bool} {counting : Bool} {taken rest : List Char}
    (htest : ∀ c after, c :: after <:+ taken → test (c :: after ++ rest) = true)
    (hstop : rest ≠ [] → test rest = false) (hcount : counting = false → '\n' ∉ taken) :
    ∀ pos, advanceWhile test counting (taken ++ rest) pos = ⟨rest, pos.after taken⟩ := by
  induction taken with
  | nil =>
    intro pos
    cases rest with
    | nil => rfl
    | cons c rest =>
      rw [List.nil_append, advanceWhile, hstop (List.cons_ne_nil c rest)]
      rfl
  | cons c taken ih =>
    intro pos
    have hline : (counting ∧ c = '\n') ↔ c = '\n' := by
      refine and_iff_right_of_imp fun hc => ?_
      by_contra hno
      exact hcount (Bool.not_eq_true _ ▸ hno) (hc ▸ List.mem_cons_self)
    have hrest := ih (fun d after hd => htest d after (hd.trans (List.suffix_cons c taken)))
      (fun h hmem => hcount h (List.mem_cons_of_mem c hmem))
    rw [List.cons_append, advanceWhile, ← List.cons_append, htest c taken (List.suffix_refl _),
      if_pos rfl, hrest, after_cons]
    simp only [hline]

/-- A loop whose test looks at the next character alone. -/
theorem advanceWhile_head {test : Char → Bool} {counting : Bool} {taken rest : List Char}
    (htest : ∀ c ∈ taken, test c = true) (hstop : ∀ c, rest.head? = some c → test c = false)
    (hcount : counting = false → '\n' ∉ taken) (pos : Pos) :
    advanceWhile (fun cs => cs.head?.any test) counting (taken ++ rest) pos =
      ⟨rest, pos.after taken⟩ := by
  refine advanceWhile_eq (fun c after hc => htest c (hc.subset List.mem_cons_self)) ?_ hcount pos
  cases rest with
  | nil => exact fun h => absurd rfl h
  | cons c rest => exact fun _ => hstop c rfl

theorem lineComment_append {body rest : List Char} (hb : '\n' ∉ body)
    (hr : ∀ c, rest.head? = some c → c = '\n') (pos : Pos) :
    lineComment ⟨body ++ rest, pos⟩ = ⟨rest, pos.after body⟩ :=
  advanceWhile_head (fun _ hc => bne_iff_ne.mpr (ne_of_mem_of_not_mem hc hb))
    (fun c hc => by rw [hr c hc]; rfl) (fun _ => hb) pos

/-- Where no end of a comment stands, the loop goes on. -/
theorem advanceWhile_comment {body rest : List Char} (hb : ¬ ['*', '/'] <:+: body)
    (hr : rest.head? ≠ some '/') (hstop : rest ≠ [] → ∃ more, rest = '*' :: '/' :: more) (pos : Pos) :
    advanceWhile (fun cs => !(cs.head? == some '*' && cs.tail.head? == some '/')) true (body ++ rest)
      pos = ⟨rest, pos.after body⟩ := by
  refine advanceWhile_eq (fun c after hc => ?_) (fun hne => ?_) (fun h => absurd h (by decide)) pos
  · rw [Bool.not_eq_true', Bool.and_eq_false_iff, List.cons_append, List.tail_cons, beq_eq_false_iff_ne,
      beq_eq_false_iff_ne]
    by_contra hend
    rw [not_or, not_ne_iff, not_ne_iff] at hend
    obtain ⟨hstar, hslash⟩ := hend
    cases hstar
    cases after with
    | nil => exact hr hslash
    | cons d after =>
      cases hslash
      exact hb (List.IsInfix.trans ⟨[], after, rfl⟩ hc.isInfix)
  · obtain ⟨more, rfl⟩ := hstop hne
    rfl

theorem blockComment_closed {body : List Char} (hb : ¬ ['*', '/'] <:+: body ++ ['*'])
    (rest : List Char) (pos : Pos) :
    blockComment ⟨body ++ '*' :: '/' :: rest, pos⟩ = ⟨rest, (pos.after body).after ['*', '/']⟩ := by
  have hbody : ¬ ['*', '/'] <:+: body := fun h => hb (h.trans (List.prefix_append body _).isInfix)
  rw [blockComment, advanceWhile_comment hbody (by simp) fun _ => ⟨rest, rfl⟩]
  rfl

theorem blockComment_open {body : List Char} (hb : ¬ ['*', '/'] <:+: body) (pos : Pos) :
    blockComment ⟨body, pos⟩ = ⟨[], pos.after body⟩ := by
  have hnil : ([] : List Char).head? ≠ some '/' := by decide
  have hloop := advanceWhile_comment hb hnil (fun h => absurd rfl h) pos
  rw [List.append_nil] at hloop
  rw [blockComment, hloop]
  rfl

theorem quoted_append {body rest : List Char} (hb : '"' ∉ body)
    (hr : ∀ c, rest.head? = some c → c = '"') (pos : Pos) :
    quoted ⟨body ++ rest, pos⟩ = ⟨rest, pos.after body⟩ :=
  advanceWhile_head (fun _ hc => bne_iff_ne.mpr (ne_of_mem_of_not_mem hc hb))
    (fun c hc => by rw [hr c hc]; rfl) (fun h => absurd h (by decide)) pos

theorem digits_append {ds rest : List Char} (hd : ∀ c ∈ ds, IsDigit c)
    (hr : ∀ c, rest.head? = some c → ¬ IsDigit c) (pos : Pos) :
    digits ⟨ds ++ rest, pos⟩ = ⟨rest, pos.after ds⟩ := by
  refine advanceWhile_head (fun c hc => isDigit_iff.mpr (hd c hc))
    (fun c hc => Bool.eq_false_iff.mpr (mt isDigit_iff.mp (hr c hc))) (fun _ hmem => ?_) pos
  exact absurd (hd _ hmem) (by unfold IsDigit; decide)

theorem number_integer {ds rest : List Char} (hd : ∀ c ∈ ds, IsDigit c)
    (hr : ∀ c, rest.head? = some c → ¬ IsDigit c)
    (hp : ∀ c more, rest = '.' :: c :: more → ¬ IsDigit c) (pos : Pos) :
    number ⟨ds ++ rest, pos⟩ = ⟨rest, pos.after ds⟩ := by
  have hpoint : ¬(rest.head? = some '.' ∧ rest.tail.head?.any Char.isDigit = true) := by
    rintro ⟨hhead, hdigit⟩
    match rest, hhead, hdigit with
    | _ :: c :: more, rfl, hdigit => exact hp c more rfl (isDigit_iff.mp hdigit)
  rw [number, digits_append hd hr, if_neg hpoint]

theorem number_decimal {ds fraction rest : List Char} (hd : ∀ c ∈ ds, IsDigit c)
    (hne : fraction ≠ []) (hf : ∀ c ∈ fraction, IsDigit c)
    (hr : ∀ c, rest.head? = some c → ¬ IsDigit c) (pos : Pos) :
    number ⟨ds ++ '.' :: fraction ++ rest, pos⟩ = ⟨rest, pos.after (ds ++ '.' :: fraction)⟩ := by
  have hpoint : ∀ c, ('.' :: fraction ++ rest).head? = some c → ¬ IsDigit c := by
    rintro c ⟨⟩
    unfold IsDigit
    decide
  obtain ⟨c, fraction, rfl⟩ := List.exists_cons_of_ne_nil hne
  have hdigit : c.isDigit = true := isDigit_iff.mpr (hf c List.mem_cons_self)
  rw [number, List.append_assoc, digits_append hd hpoint, if_pos ⟨rfl, hdigit⟩]
  show digits ⟨c :: fraction ++ rest, (pos.after ds).after ['.']⟩ = _
  rw [digits_append hf hr, ← Tokens.after_append, ← Tokens.after_append]
  rfl

theorem word_append {chars rest : List Char} (hw : ∀ c ∈ chars, IsLetter c ∨ IsDigit c)
    (hr : ∀ c, rest.head? = some c → ¬ (IsLetter c ∨ IsDigit c)) (pos : Pos) :
    word ⟨chars ++ rest, pos⟩ = ⟨rest, pos.after chars⟩ := by
  refine advanceWhile_head (fun c hc => continuesWord_iff.mpr (hw c hc))
    (fun c hc => Bool.eq_false_iff.mpr (mt continuesWord_iff.mp (hr c hc))) (fun _ hmem => ?_) pos
  exact absurd (hw _ hmem) (by unfold IsLetter IsDigit; decide)

/-! ## Steps -/

theorem lexeme_after (text rest rest' : List Char) (pos : Pos) :
    lexeme ⟨text ++ rest, pos⟩ ⟨rest', pos.after text⟩ = String.ofList text := by
  rw [lexeme, Pos.after, Nat.add_sub_cancel_left, List.take_left]

theorem scanToken_quote (cs : List Char) (pos : Pos) :
    scanToken '"' cs pos =
      let start : Cursor := ⟨'"' :: cs, pos⟩
      let stop := quoted ⟨cs, pos.after ['"']⟩
      if stop.ahead = [] then start.complain stop .unterminatedString
      else start.add stop.advance .string := rfl

/-- Before a symbol that is longer with an equals sign behind it. -/
theorem scanToken_alone {c : Char} {alone withEquals : Symbol} {rest : List Char}
    (hc : Piece.symbolOf? c = some (alone, some withEquals)) (hslash : c ≠ '/') (hnewline : c ≠ '\n')
    (hr : rest.head? ≠ some '=') (pos : Pos) :
    scanToken c rest pos = add ⟨[c] ++ rest, pos⟩ ⟨rest, pos.after [c]⟩ (.symbol alone) := by
  have hafter : pos.after [c] = { pos with offset := pos.offset + 1 } := by
    rw [after_cons, if_neg hnewline]
    rfl
  have hnone : accept ⟨rest, { pos with offset := pos.offset + 1 }⟩ '=' = none := if_neg hr
  simp only [scanToken, advance, hc, if_neg hslash, hnone, hafter, List.singleton_append]

/-- Before a character that starts neither a symbol nor anything that is skipped, nor a string. -/
theorem scanToken_plain {c : Char} (hsymbol : Piece.symbolOf? c = none) (hq : c ≠ '"')
    (hslash : c ≠ '/') (hblank : ¬ IsBlank c) (hnewline : c ≠ '\n') (cs : List Char) (pos : Pos) :
    scanToken c cs pos =
      let start : Cursor := ⟨c :: cs, pos⟩
      let here : Cursor := ⟨cs, pos.after [c]⟩
      if c.isDigit then start.add here.number .number
      else if Piece.startsWord c then
        match Keyword.ofWord? (start.lexeme here.word) with
        | some k => start.add here.word (.keyword k)
        | none => start.add here.word .identifier
      else start.complain here (.unexpectedCharacter c) := by
  have hafter : advance ⟨c :: cs, pos⟩ = ⟨cs, pos.after [c]⟩ := by
    simp only [advance, after_cons, if_neg hnewline]
    rfl
  have hblank' : ¬(c = ' ' ∨ c = '\t' ∨ c = '\r') := hblank
  simp only [scanToken, hafter, hsymbol, if_neg hslash, if_neg hblank', if_neg hnewline, if_neg hq]

end Cursor

namespace Piece

open Cursor (scanToken)

/-- Before a text a step of the scanner finds the piece and goes on behind it. -/
def Found (p : Piece) (rest : List Char) : Prop :=
  ∀ c cs pos, p.text = c :: cs →
    scanToken c (cs ++ rest) pos = ⟨p.token? pos, p.issue? pos, ⟨rest, pos.after p.text⟩⟩

/-- From the beginning of a piece to its end the scanner finds the token that the piece is. -/
theorem add_eq {p : Piece} {kind : Kind} (hk : p.kind? = some kind) {c : Char} {cs : List Char}
    (htext : p.text = c :: cs) (rest : List Char) (pos : Pos) :
    Cursor.add ⟨c :: (cs ++ rest), pos⟩ ⟨rest, pos.after (c :: cs)⟩ kind =
      ⟨p.token? pos, p.issue? pos, ⟨rest, pos.after p.text⟩⟩ := by
  have hissue : p.issue? pos = none := by
    cases p <;> first | rfl | exact absurd hk (by simp [kind?])
  rw [Cursor.add, ← List.cons_append, ← htext, Cursor.lexeme_after, hissue, token?, hk]
  rfl

section Found

variable {c : Char} {rest body : List Char}

theorem found_lineComment (hb : '\n' ∉ body) (hr : ∀ c, rest.head? = some c → c = '\n') :
    (lineComment body).Found rest := by
  rintro c cs pos ⟨⟩
  show Cursor.pass (Cursor.lineComment ⟨body ++ rest, pos.after ['/', '/']⟩) = _
  rw [Cursor.lineComment_append hb hr, ← Tokens.after_append]
  rfl

theorem found_closedComment (hb : ¬ ['*', '/'] <:+: body ++ ['*']) :
    (blockComment body true).Found rest := by
  rintro c cs pos ⟨⟩
  show Cursor.pass (Cursor.blockComment ⟨body ++ ['*', '/'] ++ rest, pos.after ['/', '*']⟩) = _
  rw [List.append_assoc]
  show Cursor.pass (Cursor.blockComment ⟨body ++ '*' :: '/' :: rest, pos.after ['/', '*']⟩) = _
  rw [Cursor.blockComment_closed hb, ← Tokens.after_append, ← Tokens.after_append]
  rfl

theorem found_openComment (hb : ¬ ['*', '/'] <:+: body) : (blockComment body false).Found [] := by
  rintro c cs pos ⟨⟩
  show Cursor.pass (Cursor.blockComment ⟨body ++ [] ++ [], pos.after ['/', '*']⟩) = _
  rw [List.append_nil, Cursor.blockComment_open (by rwa [List.append_nil]), ← Tokens.after_append]
  rfl

theorem found_string (hb : '"' ∉ body) : (string body).Found rest := by
  rintro c cs pos ⟨⟩
  have hquoted : Cursor.quoted ⟨body ++ ['"'] ++ rest, pos.after ['"']⟩ =
      ⟨'"' :: rest, (pos.after ['"']).after body⟩ := by
    rw [List.append_assoc]
    exact Cursor.quoted_append hb (by simp) _
  show scanToken '"' (body ++ ['"'] ++ rest) pos = _
  rw [← add_eq (p := .string body) rfl rfl, Cursor.scanToken_quote, hquoted]
  show Cursor.add _ ⟨rest, ((pos.after ['"']).after body).after ['"']⟩ _ = _
  rw [← Tokens.after_append, ← Tokens.after_append]
  rfl

theorem found_openString (hb : '"' ∉ body) : (openString body).Found [] := by
  rintro c cs pos ⟨⟩
  rw [Cursor.scanToken_quote, Cursor.quoted_append hb (by simp), ← Tokens.after_append]
  rfl

/-- A number that the loops behind its first digit take. -/
theorem found_number {whole fraction : List Char} (hc : IsDigit c)
    (htext : (number whole fraction).text = c :: body)
    (hloop : ∀ pos, Cursor.number ⟨body ++ rest, pos⟩ = ⟨rest, pos.after body⟩) :
    (number whole fraction).Found rest := by
  intro d cs pos hcs
  obtain ⟨rfl, rfl⟩ := List.cons.inj (htext.symm.trans hcs)
  obtain ⟨hsymbol, hq, hslash, hblank, hnewline⟩ := plain_of_digit hc
  rw [Cursor.scanToken_plain hsymbol hq hslash hblank hnewline, ← add_eq rfl htext]
  dsimp only
  rw [if_pos (isDigit_iff.mpr hc), hloop, ← Tokens.after_append, List.singleton_append]

theorem found_word (hc : IsLetter c) (hw : ∀ c ∈ body, IsLetter c ∨ IsDigit c)
    (hr : ∀ c, rest.head? = some c → ¬ (IsLetter c ∨ IsDigit c)) : (word (c :: body)).Found rest := by
  rintro _ _ pos ⟨⟩
  obtain ⟨hsymbol, hq, hslash, hblank, hnewline, hdigit⟩ := plain_of_letter hc
  have hlexeme : Cursor.lexeme ⟨c :: (body ++ rest), pos⟩ ⟨rest, pos.after (c :: body)⟩ =
      String.ofList (c :: body) := Cursor.lexeme_after (c :: body) rest rest pos
  rw [Cursor.scanToken_plain hsymbol hq hslash hblank hnewline]
  dsimp only
  rw [if_neg (mt isDigit_iff.mp hdigit), if_pos (startsWord_iff.mpr hc), Cursor.word_append hw hr,
    ← Tokens.after_append, List.singleton_append, hlexeme]
  cases hk : Keyword.ofWord? (String.ofList (c :: body)) with
  | some k => exact add_eq (p := .word (c :: body)) (by simp only [kind?, hk]) rfl rest pos
  | none => exact add_eq (p := .word (c :: body)) (by simp only [kind?, hk]) rfl rest pos

theorem found_symbol {s : Symbol} (hs : s.Ends rest) : (symbol s).Found rest := by
  intro c cs pos htext
  rw [← add_eq (p := .symbol s) rfl htext]
  cases s with
  | bang | equal | less | greater =>
    cases htext
    exact Cursor.scanToken_alone rfl (by decide) (by decide) (hs.1 (by decide)) pos
  | slash =>
    obtain ⟨hline, hblock⟩ := hs.2 rfl
    obtain ⟨rfl, rfl⟩ : c = '/' ∧ cs = [] := by
      cases htext
      exact ⟨rfl, rfl⟩
    have hno : ∀ here d, rest.head? ≠ some d → Cursor.accept ⟨rest, here⟩ d = none :=
      fun _ _ h => if_neg h
    simp only [scanToken, List.nil_append, Cursor.advance, hno _ _ hline, hno _ _ hblock]
    rfl
  | _ =>
    cases htext
    rfl

theorem found_stray (hblank : ¬ IsBlank c) (hnewline : c ≠ '\n') (hq : c ≠ '"') (hd : ¬ IsDigit c)
    (hl : ¬ IsLetter c) (hs : ∀ s : Symbol, s.text.toList.head? ≠ some c) :
    (stray c).Found rest := by
  rintro _ _ pos ⟨⟩
  have hslash : c ≠ '/' := fun h => hs .slash (by rw [h]; rfl)
  rw [Cursor.scanToken_plain (symbolOf?_eq_none_iff.mpr hs) hq hslash hblank hnewline]
  dsimp only
  rw [if_neg (mt isDigit_iff.mp hd), if_neg (mt startsWord_iff.mp hl)]
  rfl

end Found

/-- **A step of the scanner finds a piece that is as long as its kind allows.** -/
theorem Longest.found {p : Piece} {rest : List Char} (h : p.Longest rest) : p.Found rest := by
  cases h with
  | blank hc =>
    rintro c cs pos ⟨⟩
    rcases hc with rfl | rfl | rfl <;> rfl
  | newline =>
    rintro c cs pos ⟨⟩
    rfl
  | lineComment hb hr => exact found_lineComment hb hr
  | closedComment hb => exact found_closedComment hb
  | openComment hb => exact found_openComment hb
  | string hb => exact found_string hb
  | openString hb => exact found_openString hb
  | @integer whole _ hne hw hr hp =>
    obtain ⟨c, ds, rfl⟩ := List.exists_cons_of_ne_nil hne
    rw [List.forall_mem_cons] at hw
    exact found_number hw.1 (List.append_nil _) (Cursor.number_integer hw.2 hr hp)
  | @decimal whole fraction _ hne hw hne' hf hr =>
    obtain ⟨c, ds, rfl⟩ := List.exists_cons_of_ne_nil hne
    rw [List.forall_mem_cons] at hw
    exact found_number hw.1 (by rw [text, if_neg hne']; rfl)
      (Cursor.number_decimal hw.2 hne' hf hr)
  | word hc hw hr => exact found_word hc hw hr
  | symbol hs => exact found_symbol hs
  | stray hb hn hq hd hl hs => exact found_stray hb hn hq hd hl hs

end Piece

/-! ## Scanning a text -/

namespace Cursor

/-- A step of the scanner finds the first piece of the text ahead. -/
theorem scanToken_next (c : Char) (cs : List Char) (pos : Pos) :
    scanToken c cs pos = ⟨(Piece.next c cs).1.token? pos, (Piece.next c cs).1.issue? pos,
      ⟨(Piece.next c cs).2, pos.after (Piece.next c cs).1.text⟩⟩ := by
  obtain ⟨d, body, hbody⟩ := List.exists_cons_of_ne_nil (Piece.next_text_ne_nil c cs)
  have htext := Piece.next_text c cs
  rw [hbody, List.cons_append, List.cons.injEq] at htext
  obtain ⟨rfl, hcs⟩ := htext
  rw [← (Piece.longest_next d cs).found d body pos hbody, hcs]

/-- Scans on from a cursor. Issues are noted as they are found, and a full report ends it. -/
def scanFrom (report : Report) (tokens : List Token) : Cursor → Report × Option (List Token × Token)
  | ⟨[], pos⟩ => (report, some (tokens, Tokens.endingAt pos))
  | ⟨c :: cs, pos⟩ =>
    let step := scanToken c cs pos
    match report.noteAll step.issue.toList with
    | (report, true) => (report, none)
    | (report, false) => scanFrom report (tokens ++ step.token.toList) step.behind
termination_by here => here.ahead.length
decreasing_by
  rw [scanToken_next]
  exact Piece.next_rest_lt c cs

/-- Scans a text. -/
def scan (report : Report) (text : String) : Report × Option (List Token × Token) :=
  scanFrom report [] ⟨text.toList, .start⟩

theorem scanFrom_eq (cs : List Char) : ∀ (report : Report) (tokens : List Token) (pos : Pos),
    scanFrom report tokens ⟨cs, pos⟩ =
      match report.noteAll (Tokens.ofPieces pos (pieces cs)).issues with
      | (report, true) => (report, none)
      | (report, false) => (report, some (tokens ++ (Tokens.ofPieces pos (pieces cs)).tokens,
          (Tokens.ofPieces pos (pieces cs)).ending)) := by
  fun_induction pieces cs with
  | case1 =>
    intro report tokens pos
    rw [scanFrom, Tokens.ofPieces, List.append_nil]
    rfl
  | case2 c cs ih =>
    intro report tokens pos
    rw [scanFrom, scanToken_next]
    simp only [Tokens.ofPieces, Report.noteAll_append, ih]
    generalize report.noteAll ((Piece.next c cs).1.issue? pos).toList = noted
    obtain ⟨report', full⟩ := noted
    cases full with
    | true => rfl
    | false => simp only [Bool.false_eq_true, if_false, List.append_assoc]

/-- **The scanner finds the tokens of a text and notes its issues.** They are those of the pieces of
the text, in the same order, unless the report gets full: then the scanner stops at once. -/
theorem scan_eq (report : Report) (text : String) :
    scan report text =
      match report.noteAll (Tokens.ofText text).issues with
      | (report, true) => (report, none)
      | (report, false) => (report, some ((Tokens.ofText text).tokens, (Tokens.ofText text).ending)) :=
  scanFrom_eq text.toList report [] .start

/-- The counter goes on inside of the comment, and the stray character is left out. -/
example : (scan (.empty false none) "/*\n*/ a @;").2 =
    some ([⟨.identifier, "a", ⟨2, 6⟩⟩, ⟨.symbol .semicolon, ";", ⟨2, 9⟩⟩], Tokens.endingAt ⟨2, 10⟩) := by
  rw [scan_eq]
  decide +kernel

end Cursor

end LoxKit
