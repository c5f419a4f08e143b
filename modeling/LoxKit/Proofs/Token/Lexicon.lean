import LoxKit.Token.Sequence
import Mathlib

/-!
# The lexicon

What the pieces of a text are, said without reading it. A piece of each kind consists of certain
characters and is as long as its kind allows before what follows it. A text can be cut in only one
way into such pieces, and this is how it is read: every token of the text is a piece, every issue is
one, and no character is lost.

Headlines:
* `Piece.Longest`: which pieces may stand before which texts.
* `Piece.longest_next`, `pieces_of_longest`: the first piece of a text is the one that may stand there.
* `Scanned`: how a text is cut, with the tokens and the issues of the pieces.
* **`Tokens.scan_exact`**: a text is read in the only way in which it can be cut.
-/

namespace LoxKit

/-! ## Characters -/

/-- The digits of a number. -/
def IsDigit (c : Char) : Prop :=
  '0' ≤ c ∧ c ≤ '9'

/-- The characters that a word can start with. -/
def IsLetter (c : Char) : Prop :=
  ('a' ≤ c ∧ c ≤ 'z') ∨ ('A' ≤ c ∧ c ≤ 'Z') ∨ c = '_'

/-- The characters that are skipped. -/
def IsBlank (c : Char) : Prop :=
  c = ' ' ∨ c = '\t' ∨ c = '\r'

instance (c : Char) : Decidable (IsDigit c) :=
  inferInstanceAs (Decidable (_ ∧ _))

instance (c : Char) : Decidable (IsLetter c) :=
  inferInstanceAs (Decidable (_ ∨ _))

instance (c : Char) : Decidable (IsBlank c) :=
  inferInstanceAs (Decidable (_ ∨ _))

theorem isDigit_iff {c : Char} : c.isDigit = true ↔ IsDigit c := by
  unfold Char.isDigit IsDigit
  rw [Bool.and_eq_true, decide_eq_true_iff, decide_eq_true_iff]
  exact Iff.rfl

theorem startsWord_iff {c : Char} : Piece.startsWord c = true ↔ IsLetter c := by
  unfold Piece.startsWord Char.isAlpha Char.isUpper Char.isLower IsLetter
  simp only [Bool.or_eq_true, Bool.and_eq_true, decide_eq_true_iff, beq_iff_eq]
  rw [or_assoc, or_left_comm]
  exact Iff.rfl

theorem continuesWord_iff {c : Char} : Piece.continuesWord c = true ↔ IsLetter c ∨ IsDigit c := by
  rw [Piece.continuesWord, Bool.or_eq_true, startsWord_iff, isDigit_iff]

/-! ## Pieces -/

/-- What follows a symbol so that no longer symbol and no comment stands there. -/
def Symbol.Ends (s : Symbol) (rest : List Char) : Prop :=
  (s ∈ [bang, equal, less, greater] → rest.head? ≠ some '=') ∧
    (s = slash → rest.head? ≠ some '/' ∧ rest.head? ≠ some '*')

namespace Piece

/-- The pieces that may stand before a text. Each is as long as its kind allows. -/
inductive Longest : Piece → (rest : List Char) → Prop
  | blank {c : Char} {rest : List Char} (hc : IsBlank c) : Longest (.blank c) rest
  | newline {rest : List Char} : Longest .newline rest
  /-- A comment up to the end of its line. -/
  | lineComment {body rest : List Char} (hb : '\n' ∉ body) (hr : ∀ c, rest.head? = some c → c = '\n') :
      Longest (.lineComment body) rest
  /-- A comment whose end is the first one behind its beginning. -/
  | closedComment {body rest : List Char} (hb : ¬ ['*', '/'] <:+: body ++ ['*']) :
      Longest (.blockComment body true) rest
  /-- A comment without end reaches to the end of the text. -/
  | openComment {body : List Char} (hb : ¬ ['*', '/'] <:+: body) :
      Longest (.blockComment body false) []
  | string {body rest : List Char} (hb : '"' ∉ body) : Longest (.string body) rest
  /-- A string without end reaches to the end of the text. -/
  | openString {body : List Char} (hb : '"' ∉ body) : Longest (.openString body) []
  /-- Digits without a point that a digit follows. -/
  | integer {whole rest : List Char} (hne : whole ≠ []) (hw : ∀ c ∈ whole, IsDigit c)
      (hr : ∀ c, rest.head? = some c → ¬ IsDigit c)
      (hp : ∀ c more, rest = '.' :: c :: more → ¬ IsDigit c) : Longest (.number whole []) rest
  /-- Digits before and behind a point. -/
  | decimal {whole fraction rest : List Char} (hne : whole ≠ []) (hw : ∀ c ∈ whole, IsDigit c)
      (hne' : fraction ≠ []) (hf : ∀ c ∈ fraction, IsDigit c)
      (hr : ∀ c, rest.head? = some c → ¬ IsDigit c) : Longest (.number whole fraction) rest
  | word {c : Char} {chars rest : List Char} (hc : IsLetter c)
      (hw : ∀ c ∈ chars, IsLetter c ∨ IsDigit c)
      (hr : ∀ c, rest.head? = some c → ¬ (IsLetter c ∨ IsDigit c)) : Longest (.word (c :: chars)) rest
  | symbol {s : Symbol} {rest : List Char} (hs : s.Ends rest) : Longest (.symbol s) rest
  /-- A character that starts nothing else. -/
  | stray {c : Char} {rest : List Char} (hb : ¬ IsBlank c) (hn : c ≠ '\n') (hq : c ≠ '"')
      (hd : ¬ IsDigit c) (hl : ¬ IsLetter c) (hs : ∀ s : Symbol, s.text.toList.head? ≠ some c) :
      Longest (.stray c) rest

/-! ### The first piece may stand there -/

theorem head?_dropWhile {test : Char → Bool} {cs : List Char} {c : Char}
    (h : (cs.dropWhile test).head? = some c) : test c = false := by
  have hnot := List.head?_dropWhile_not test cs
  rwa [h] at hnot

/-- The end of a comment stands nowhere in a text if it neither begins there nor stands later. -/
theorem not_infix_cons {c : Char} {cs : List Char}
    (hc : ∀ more, c = '*' → cs = '/' :: more → False) (hcs : ¬ ['*', '/'] <:+: cs) :
    ¬ ['*', '/'] <:+: c :: cs := by
  rw [List.infix_cons_iff, not_or]
  refine ⟨fun hbegins => ?_, hcs⟩
  obtain ⟨hstar, more, hmore⟩ := List.cons_prefix_cons.mp hbegins
  exact hc more hstar.symm hmore.symm

theorem not_infix_splitBlockEnd {cs body rest : List Char}
    (h : splitBlockEnd cs = some (body, rest)) : ¬ ['*', '/'] <:+: body ++ ['*'] := by
  fun_induction splitBlockEnd cs generalizing body rest with
  | case1 => exact absurd h (by simp)
  | case2 r =>
    cases h
    exact fun hinfix => absurd hinfix.length_le (by simp)
  | case3 c r hno ih =>
    obtain ⟨⟨b, a⟩, hb, he⟩ := Option.map_eq_some_iff.mp h
    cases he
    refine not_infix_cons (fun more hstar hslash => ?_) (ih hb)
    have hr : r = b ++ ['*'] ++ '/' :: rest := by
      rw [splitBlockEnd_eq_some hb, List.append_assoc, List.singleton_append]
    exact hno (more ++ '/' :: rest) hstar (by rw [hr, ← List.cons_append, ← hslash]; rfl)

theorem not_infix_of_splitBlockEnd {cs : List Char} (h : splitBlockEnd cs = none) :
    ¬ ['*', '/'] <:+: cs := by
  fun_induction splitBlockEnd cs with
  | case1 => exact fun hinfix => absurd hinfix.length_le (by simp)
  | case2 r => exact absurd h (by simp)
  | case3 c r hno ih => exact not_infix_cons hno (ih (Option.map_eq_none_iff.mp h))

theorem not_mem_splitQuote {cs body rest : List Char} (h : splitQuote cs = some (body, rest)) :
    '"' ∉ body := by
  fun_induction splitQuote cs generalizing body rest with
  | case1 => exact absurd h (by simp)
  | case2 r =>
    cases h
    exact List.not_mem_nil
  | case3 c r hc ih =>
    obtain ⟨⟨b, a⟩, hb, he⟩ := Option.map_eq_some_iff.mp h
    cases he
    exact List.not_mem_cons_of_ne_of_not_mem (Ne.symm hc) (ih hb)

theorem not_mem_of_splitQuote {cs : List Char} (h : splitQuote cs = none) : '"' ∉ cs := by
  fun_induction splitQuote cs with
  | case1 => exact List.not_mem_nil
  | case2 r => exact absurd h (by simp)
  | case3 c r hc ih =>
    exact List.not_mem_cons_of_ne_of_not_mem (Ne.symm hc) (ih (Option.map_eq_none_iff.mp h))

theorem longest_number (c : Char) (cs : List Char) (hc : c.isDigit = true) :
    Longest (.number (c :: cs.takeWhile Char.isDigit) (splitFraction (cs.dropWhile Char.isDigit)).1)
      (splitFraction (cs.dropWhile Char.isDigit)).2 := by
  have hwhole : ∀ d ∈ c :: cs.takeWhile Char.isDigit, IsDigit d :=
    List.forall_mem_cons.mpr ⟨isDigit_iff.mp hc, fun d hd => isDigit_iff.mp (List.mem_takeWhile_imp hd)⟩
  have hbehind : ∀ d, (cs.dropWhile Char.isDigit).head? = some d → ¬ IsDigit d := by
    intro d hd hdigit
    exact absurd (head?_dropWhile hd) (by rw [isDigit_iff.mpr hdigit]; simp)
  generalize cs.dropWhile Char.isDigit = rest at hbehind ⊢
  fun_cases splitFraction rest with
  | case1 d more hd =>
    refine .decimal (by simp) hwhole (by simp) ?_ ?_
    · exact List.forall_mem_cons.mpr
        ⟨isDigit_iff.mp hd, fun d hd => isDigit_iff.mp (List.mem_takeWhile_imp hd)⟩
    · intro d hd hdigit
      exact absurd (head?_dropWhile hd) (by rw [isDigit_iff.mpr hdigit]; simp)
  | case2 d more hd =>
    refine .integer (by simp) hwhole hbehind ?_
    rintro e more' he hdigit
    cases he
    exact hd (isDigit_iff.mpr hdigit)
  | case3 cs hno =>
    exact .integer (by simp) hwhole hbehind fun d more he => absurd he (hno d more)

/-! ### Symbols -/

/-- A character is no symbol on its own exactly if no symbol starts with it. -/
theorem symbolOf?_eq_none_iff {c : Char} :
    symbolOf? c = none ↔ ∀ s : Symbol, s.text.toList.head? ≠ some c := by
  constructor
  · intro hnone s hs
    have hstarts : ∃ d, s.text.toList.head? = some d ∧ (symbolOf? d).isSome = true := by
      cases s <;> exact ⟨_, rfl, rfl⟩
    obtain ⟨d, hd, hsome⟩ := hstarts
    obtain rfl := Option.some.inj (hd.symm.trans hs)
    exact absurd hsome (by simp [hnone])
  · intro hno
    cases hs : symbolOf? c with
    | none => rfl
    | some p => exact absurd (by rw [(symbolOf?_text hs).1, List.head?_cons]) (hno p.1)

/-- A digit starts nothing but a number. -/
theorem plain_of_digit {c : Char} (h : IsDigit c) :
    symbolOf? c = none ∧ c ≠ '"' ∧ c ≠ '/' ∧ ¬ IsBlank c ∧ c ≠ '\n' := by
  refine ⟨?_, ?_, ?_, ?_, ?_⟩
  · unfold symbolOf?
    split
    all_goals first | rfl | exact absurd h (by decide)
  · rintro rfl
    exact absurd h (by decide)
  · rintro rfl
    exact absurd h (by decide)
  · rintro (rfl | rfl | rfl) <;> exact absurd h (by decide)
  · rintro rfl
    exact absurd h (by decide)

/-- A letter starts nothing but a word. -/
theorem plain_of_letter {c : Char} (h : IsLetter c) :
    symbolOf? c = none ∧ c ≠ '"' ∧ c ≠ '/' ∧ ¬ IsBlank c ∧ c ≠ '\n' ∧ ¬ IsDigit c := by
  refine ⟨?_, ?_, ?_, ?_, ?_, ?_⟩
  · unfold symbolOf?
    split
    all_goals first | rfl | exact absurd h (by decide)
  · rintro rfl
    exact absurd h (by decide)
  · rintro rfl
    exact absurd h (by decide)
  · rintro (rfl | rfl | rfl) <;> exact absurd h (by decide)
  · rintro rfl
    exact absurd h (by decide)
  · rintro ⟨hzero, hnine⟩
    rcases h with h | h | rfl
    · exact absurd (le_trans h.1 hnine) (by decide)
    · exact absurd (le_trans h.1 hnine) (by decide)
    · exact absurd hnine (by decide)

theorem ends_alone {c : Char} {alone : Symbol} {rest : List Char}
    (h : symbolOf? c = some (alone, none))
    (hs : c = '/' → rest.head? ≠ some '/' ∧ rest.head? ≠ some '*') : alone.Ends rest := by
  unfold symbolOf? at h
  split at h <;> cases h
  all_goals refine ⟨fun hmem => absurd hmem (by decide), fun hslash => ?_⟩
  all_goals first | exact absurd hslash (by decide) | exact hs rfl

theorem ends_withEquals {c : Char} {alone withEquals : Symbol}
    (h : symbolOf? c = some (alone, some withEquals)) :
    (∀ rest, withEquals.Ends rest) ∧ ∀ rest, rest.head? ≠ some '=' → alone.Ends rest := by
  unfold symbolOf? at h
  split at h <;> cases h
  all_goals exact ⟨fun _ => ⟨fun hmem => absurd hmem (by decide), fun hslash => absurd hslash (by decide)⟩,
      fun _ hrest => ⟨fun _ => hrest, fun hslash => absurd hslash (by decide)⟩⟩

theorem longest_nextPlain {c : Char} {cs : List Char} (hq : c ≠ '"')
    (hs : c = '/' → cs.head? ≠ some '/' ∧ cs.head? ≠ some '*') :
    (nextPlain c cs).1.Longest (nextPlain c cs).2 := by
  unfold nextPlain
  split
  · rename_i alone h
    exact .symbol (ends_alone h hs)
  · rename_i alone withEquals h
    split
    · exact .symbol ((ends_withEquals h).1 _)
    · rename_i hequals
      refine .symbol ((ends_withEquals h).2 cs fun hhead => ?_)
      obtain ⟨more, hmore⟩ := List.head?_eq_some_iff.mp hhead
      exact hequals more hmore
  · rename_i h
    split
    · rename_i hblank
      exact .blank hblank
    · rename_i hblank
      split
      · exact .newline
      · rename_i hnewline
        split
        · rename_i hdigit
          exact longest_number c cs hdigit
        · rename_i hdigit
          split
          · rename_i hletter
            refine .word (startsWord_iff.mp hletter)
              (fun d hd => continuesWord_iff.mp (List.mem_takeWhile_imp hd)) fun d hd hmore => ?_
            exact absurd (head?_dropWhile hd) (by rw [continuesWord_iff.mpr hmore]; simp)
          · rename_i hletter
            exact .stray hblank hnewline hq (mt isDigit_iff.mpr hdigit)
              (mt startsWord_iff.mpr hletter) (symbolOf?_eq_none_iff.mp h)

/-- The first piece of a text may stand before what follows it. -/
theorem longest_next (c : Char) (cs : List Char) : (next c cs).1.Longest (next c cs).2 := by
  fun_cases next c cs with
  | case1 cs =>
    refine .lineComment (fun hmem => ?_) fun c hc => ?_
    · exact absurd (List.mem_takeWhile_imp hmem) (by simp)
    · simpa using head?_dropWhile hc
  | case2 cs body rest h => exact .closedComment (not_infix_splitBlockEnd h)
  | case3 cs h => exact .openComment (not_infix_of_splitBlockEnd h)
  | case4 cs body rest h => exact .string (not_mem_splitQuote h)
  | case5 cs h => exact .openString (not_mem_of_splitQuote h)
  | case6 c cs hline hblock hquote =>
    refine longest_nextPlain hquote fun hslash => ?_
    cases cs with
    | nil => simp
    | cons d more =>
      rw [List.head?_cons]
      constructor
      · rintro ⟨⟩
        exact hline more hslash rfl
      · rintro ⟨⟩
        exact hblock more hslash rfl

/-! ### What may stand there is the first piece -/

/-- A stretch of characters of a class, before one that is not in it. -/
theorem span_exact {test : Char → Bool} {body rest : List Char} (hb : ∀ c ∈ body, test c = true)
    (hr : ∀ c, rest.head? = some c → test c = false) :
    (body ++ rest).takeWhile test = body ∧ (body ++ rest).dropWhile test = rest := by
  rw [List.takeWhile_append_of_pos hb, List.dropWhile_append_of_pos hb]
  cases rest with
  | nil => exact ⟨List.append_nil body, rfl⟩
  | cons c rest =>
    have hc := hr c rfl
    rw [List.takeWhile_cons_of_neg (by simp [hc]), List.dropWhile_cons_of_neg (by simp [hc])]
    exact ⟨List.append_nil body, rfl⟩

theorem splitQuote_append {body : List Char} (hb : '"' ∉ body) (rest : List Char) :
    splitQuote (body ++ '"' :: rest) = some (body, rest) := by
  induction body with
  | nil => rfl
  | cons c body ih =>
    obtain ⟨hc, hb⟩ := List.ne_and_not_mem_of_not_mem_cons hb
    rw [List.cons_append, splitQuote, if_neg (Ne.symm hc), ih hb]
    rfl

theorem splitQuote_eq_none {body : List Char} (hb : '"' ∉ body) : splitQuote body = none := by
  induction body with
  | nil => rfl
  | cons c body ih =>
    obtain ⟨hc, hb⟩ := List.ne_and_not_mem_of_not_mem_cons hb
    rw [splitQuote, if_neg (Ne.symm hc), ih hb]
    rfl

theorem splitBlockEnd_cons {c : Char} {cs : List Char}
    (hc : ∀ more, c = '*' → cs = '/' :: more → False) :
    splitBlockEnd (c :: cs) = (splitBlockEnd cs).map fun (body, after) => (c :: body, after) :=
  splitBlockEnd.eq_3 c cs hc

theorem splitBlockEnd_append {body : List Char} (hb : ¬ ['*', '/'] <:+: body ++ ['*'])
    (rest : List Char) : splitBlockEnd (body ++ '*' :: '/' :: rest) = some (body, rest) := by
  induction body with
  | nil => rfl
  | cons c body ih =>
    rw [List.cons_append, List.infix_cons_iff, not_or] at hb
    rw [List.cons_append, splitBlockEnd_cons, ih hb.2]
    · rfl
    · intro more hstar hslash
      refine hb.1 (List.cons_prefix_cons.mpr ⟨hstar.symm, ?_⟩)
      cases body with
      | nil => exact absurd hslash (by simp)
      | cons d body =>
        cases hslash
        exact ⟨_, rfl⟩

theorem splitBlockEnd_eq_none {body : List Char} (hb : ¬ ['*', '/'] <:+: body) :
    splitBlockEnd body = none := by
  induction body with
  | nil => rfl
  | cons c body ih =>
    rw [List.infix_cons_iff, not_or] at hb
    rw [splitBlockEnd_cons, ih hb.2]
    · rfl
    · rintro more rfl rfl
      exact hb.1 ⟨more, rfl⟩

theorem splitFraction_point {fraction rest : List Char} (hne : fraction ≠ [])
    (hf : ∀ c ∈ fraction, IsDigit c) (hr : ∀ c, rest.head? = some c → ¬ IsDigit c) :
    splitFraction ('.' :: (fraction ++ rest)) = (fraction, rest) := by
  obtain ⟨d, fraction, rfl⟩ := List.exists_cons_of_ne_nil hne
  rw [List.forall_mem_cons] at hf
  obtain ⟨htake, hdrop⟩ := span_exact (fun c hc => isDigit_iff.mpr (hf.2 c hc))
    (fun c hc => Bool.eq_false_iff.mpr (mt isDigit_iff.mp (hr c hc)))
  rw [List.cons_append, splitFraction, if_pos (isDigit_iff.mpr hf.1), htake, hdrop]

theorem splitFraction_none {rest : List Char}
    (hp : ∀ c more, rest = '.' :: c :: more → ¬ IsDigit c) : splitFraction rest = ([], rest) := by
  fun_cases splitFraction rest with
  | case1 d more hd => exact absurd (isDigit_iff.mp hd) (hp d more rfl)
  | case2 d more hd => rfl
  | case3 cs hno => rfl

/-- A character that starts neither a comment nor a string. -/
theorem next_eq_nextPlain {c : Char} {cs : List Char} (hq : c ≠ '"')
    (hs : c = '/' → cs.head? ≠ some '/' ∧ cs.head? ≠ some '*') : next c cs = nextPlain c cs := by
  fun_cases next c cs with
  | case1 more => exact absurd rfl (hs rfl).1
  | case2 more | case3 more => exact absurd rfl (hs rfl).2
  | case4 | case5 => exact absurd rfl hq
  | case6 => rfl

/-- A character that starts neither a symbol nor anything that is skipped, nor a string. -/
theorem next_plain {c : Char} (hsymbol : symbolOf? c = none) (hq : c ≠ '"') (hslash : c ≠ '/')
    (hblank : ¬ IsBlank c) (hnewline : c ≠ '\n') (cs : List Char) :
    next c cs =
      if c.isDigit = true then
        (.number (c :: cs.takeWhile Char.isDigit) (splitFraction (cs.dropWhile Char.isDigit)).1,
          (splitFraction (cs.dropWhile Char.isDigit)).2)
      else if startsWord c = true then
        (.word (c :: cs.takeWhile continuesWord), cs.dropWhile continuesWord)
      else (.stray c, cs) := by
  rw [next_eq_nextPlain hq fun h => absurd h hslash, nextPlain, hsymbol]
  exact (if_neg hblank).trans (if_neg hnewline)

/-- A symbol that is longer with an equals sign behind it, without one. -/
theorem next_alone {c : Char} {alone withEquals : Symbol} {rest : List Char}
    (hc : symbolOf? c = some (alone, some withEquals)) (hq : c ≠ '"') (hslash : c ≠ '/')
    (hr : rest.head? ≠ some '=') : next c rest = (.symbol alone, rest) := by
  rw [next_eq_nextPlain hq fun h => absurd h hslash, nextPlain, hc]
  dsimp only
  split
  · exact absurd rfl hr
  · rfl

theorem next_symbol {s : Symbol} {rest : List Char} (hs : s.Ends rest) :
    ∃ c cs, s.text.toList ++ rest = c :: cs ∧ next c cs = (.symbol s, rest) := by
  cases s with
  | bang => exact ⟨'!', rest, rfl, next_alone rfl (by decide) (by decide) (hs.1 (by decide))⟩
  | equal => exact ⟨'=', rest, rfl, next_alone rfl (by decide) (by decide) (hs.1 (by decide))⟩
  | less => exact ⟨'<', rest, rfl, next_alone rfl (by decide) (by decide) (hs.1 (by decide))⟩
  | greater => exact ⟨'>', rest, rfl, next_alone rfl (by decide) (by decide) (hs.1 (by decide))⟩
  | slash =>
    refine ⟨'/', rest, rfl, ?_⟩
    rw [next_eq_nextPlain (by decide) fun _ => hs.2 rfl]
    rfl
  | _ => exact ⟨_, _, rfl, rfl⟩

theorem next_digits {whole rest : List Char} (hne : whole ≠ []) (hw : ∀ c ∈ whole, IsDigit c)
    (hr : ∀ c, rest.head? = some c → ¬ IsDigit c) :
    ∃ c cs, whole ++ rest = c :: cs ∧
      next c cs = (.number whole (splitFraction rest).1, (splitFraction rest).2) := by
  obtain ⟨c, whole, rfl⟩ := List.exists_cons_of_ne_nil hne
  rw [List.forall_mem_cons] at hw
  obtain ⟨hsymbol, hq, hslash, hblank, hnewline⟩ := plain_of_digit hw.1
  obtain ⟨htake, hdrop⟩ := span_exact (fun c hc => isDigit_iff.mpr (hw.2 c hc))
    (fun c hc => Bool.eq_false_iff.mpr (mt isDigit_iff.mp (hr c hc)))
  refine ⟨c, whole ++ rest, rfl, ?_⟩
  rw [next_plain hsymbol hq hslash hblank hnewline, if_pos (isDigit_iff.mpr hw.1), htake, hdrop]

theorem next_word {c : Char} {chars rest : List Char} (hc : IsLetter c)
    (hw : ∀ c ∈ chars, IsLetter c ∨ IsDigit c)
    (hr : ∀ c, rest.head? = some c → ¬ (IsLetter c ∨ IsDigit c)) :
    next c (chars ++ rest) = (.word (c :: chars), rest) := by
  obtain ⟨hsymbol, hq, hslash, hblank, hnewline, hdigit⟩ := plain_of_letter hc
  obtain ⟨htake, hdrop⟩ := span_exact (fun c hc => continuesWord_iff.mpr (hw c hc))
    (fun c hc => Bool.eq_false_iff.mpr (mt continuesWord_iff.mp (hr c hc)))
  rw [next_plain hsymbol hq hslash hblank hnewline, if_neg (mt isDigit_iff.mp hdigit),
    if_pos (startsWord_iff.mpr hc), htake, hdrop]

theorem next_stray {c : Char} (hb : ¬ IsBlank c) (hn : c ≠ '\n') (hq : c ≠ '"') (hd : ¬ IsDigit c)
    (hl : ¬ IsLetter c) (hs : ∀ s : Symbol, s.text.toList.head? ≠ some c) (rest : List Char) :
    next c rest = (.stray c, rest) := by
  have hslash : c ≠ '/' := fun h => hs .slash (by rw [h]; rfl)
  rw [next_plain (symbolOf?_eq_none_iff.mpr hs) hq hslash hb hn, if_neg (mt isDigit_iff.mp hd),
    if_neg (mt startsWord_iff.mp hl)]

/-- What may stand before a text is the first piece of both together. -/
theorem next_of_longest {p : Piece} {rest : List Char} (h : p.Longest rest) :
    ∃ c cs, p.text ++ rest = c :: cs ∧ next c cs = (p, rest) := by
  cases h with
  | @blank c _ hc =>
    refine ⟨c, rest, rfl, ?_⟩
    rcases hc with rfl | rfl | rfl <;> rfl
  | newline => exact ⟨'\n', rest, rfl, rfl⟩
  | @lineComment body _ hb hr =>
    refine ⟨'/', '/' :: (body ++ rest), rfl, ?_⟩
    have hin : ∀ c ∈ body, (c != '\n') = true :=
      fun c hc => bne_iff_ne.mpr (ne_of_mem_of_not_mem hc hb)
    have hout : ∀ c, rest.head? = some c → (c != '\n') = false :=
      fun c hc => by simpa using hr c hc
    obtain ⟨htake, hdrop⟩ := span_exact hin hout
    rw [next, htake, hdrop]
  | @closedComment body _ hb =>
    refine ⟨'/', '*' :: (body ++ '*' :: '/' :: rest), by simp [text], ?_⟩
    rw [next, splitBlockEnd_append hb]
  | @openComment body hb =>
    refine ⟨'/', '*' :: body, by simp [text], ?_⟩
    rw [next, splitBlockEnd_eq_none hb]
  | @string body _ hb =>
    refine ⟨'"', body ++ '"' :: rest, by simp [text], ?_⟩
    rw [next, splitQuote_append hb]
  | @openString body hb =>
    refine ⟨'"', body, by simp [text], ?_⟩
    rw [next, splitQuote_eq_none hb]
  | @integer whole _ hne hw hr hp =>
    obtain ⟨c, cs, htext, hnext⟩ := next_digits hne hw hr
    refine ⟨c, cs, by simpa [text] using htext, ?_⟩
    rw [hnext, splitFraction_none hp]
  | @decimal whole fraction _ hne hw hne' hf hr =>
    have hpoint : ∀ c, ('.' :: (fraction ++ rest)).head? = some c → ¬ IsDigit c := by
      rintro c ⟨⟩
      unfold IsDigit
      decide
    obtain ⟨c, cs, htext, hnext⟩ := next_digits hne hw hpoint
    refine ⟨c, cs, by simpa [text, hne'] using htext, ?_⟩
    rw [hnext, splitFraction_point hne' hf hr]
  | @word c chars _ hc hw hr =>
    exact ⟨c, chars ++ rest, rfl, next_word hc hw hr⟩
  | symbol hs => exact next_symbol hs
  | @stray c _ hb hn hq hd hl hs =>
    exact ⟨c, rest, rfl, next_stray hb hn hq hd hl hs rest⟩

end Piece

/-- The pieces of a text begin with the one that may stand before the rest. -/
theorem pieces_of_longest {p : Piece} {rest : List Char} (h : p.Longest rest) :
    pieces (p.text ++ rest) = p :: pieces rest := by
  obtain ⟨c, cs, htext, hnext⟩ := Piece.next_of_longest h
  rw [htext, pieces, hnext]

/-! ## Cutting a text -/

/-- The kind of token that a piece is. -/
inductive Piece.HasKind : Piece → Kind → Prop
  | string (body : List Char) : HasKind (.string body) .string
  | number (whole fraction : List Char) : HasKind (.number whole fraction) .number
  | keyword (k : Keyword) : HasKind (.word k.word.toList) (.keyword k)
  | identifier {chars : List Char} (h : ∀ k : Keyword, chars ≠ k.word.toList) :
      HasKind (.word chars) .identifier
  | symbol (s : Symbol) : HasKind (.symbol s) (.symbol s)

/-- What is wrong with a piece. -/
inductive Piece.HasFault : Piece → Complaint → Prop
  | openString (body : List Char) : HasFault (.openString body) .unterminatedString
  | stray (c : Char) : HasFault (.stray c) (.unexpectedCharacter c)

/-- How a text behind another is cut into pieces, and the tokens and the issues that the pieces are.
Each is at the offset of its first character and in the line of its last one. -/
inductive Scanned :
    (before rest : List Char) → List Piece → List Token → List Issue → Prop
  | ends {before : List Char} : Scanned before [] [] [] []
  | token {before rest : List Char} {p : Piece} {kind : Kind} {ps : List Piece} {ts : List Token}
      {is : List Issue} (hp : p.Longest rest) (hk : p.HasKind kind)
      (h : Scanned (before ++ p.text) rest ps ts is) :
      Scanned before (p.text ++ rest) (p :: ps)
        (⟨kind, String.ofList p.text, ⟨1 + (before ++ p.text).count '\n', before.length⟩⟩ :: ts) is
  | issue {before rest : List Char} {p : Piece} {complaint : Complaint} {ps : List Piece}
      {ts : List Token} {is : List Issue} (hp : p.Longest rest) (hf : p.HasFault complaint)
      (h : Scanned (before ++ p.text) rest ps ts is) :
      Scanned before (p.text ++ rest) (p :: ps) ts
        (⟨⟨1 + (before ++ p.text).count '\n', before.length⟩, 1, .character, complaint⟩ :: is)
  | skipped {before rest : List Char} {p : Piece} {ps : List Piece} {ts : List Token}
      {is : List Issue} (hp : p.Longest rest) (hk : ∀ kind, ¬ p.HasKind kind)
      (hf : ∀ complaint, ¬ p.HasFault complaint) (h : Scanned (before ++ p.text) rest ps ts is) :
      Scanned before (p.text ++ rest) (p :: ps) ts is

namespace Piece

theorem kind?_eq_some {p : Piece} {kind : Kind} : p.kind? = some kind ↔ p.HasKind kind := by
  constructor
  · intro h
    cases p with
    | word chars =>
      simp only [kind?] at h
      split at h
      · rename_i k hk
        cases h
        have hword := Keyword.eq_word_of_ofWord? hk
        rw [String.ofList_eq] at hword
        rw [hword]
        exact .keyword k
      · rename_i hk
        cases h
        refine .identifier fun k hchars => ?_
        rw [hchars, String.ofList_toList, k.ofWord?_word] at hk
        exact absurd hk (by simp)
    | string body =>
      cases h
      exact .string body
    | number whole fraction =>
      cases h
      exact .number whole fraction
    | symbol s =>
      cases h
      exact .symbol s
    | blank | newline | lineComment | blockComment | openString | stray =>
      exact absurd h (by simp [kind?])
  · intro h
    cases h with
    | string | number | symbol => rfl
    | keyword k => rw [kind?, String.ofList_toList, k.ofWord?_word]
    | @identifier chars h =>
      rw [kind?]
      cases hk : Keyword.ofWord? (String.ofList chars) with
      | none => rfl
      | some k =>
        have hword := Keyword.eq_word_of_ofWord? hk
        rw [String.ofList_eq] at hword
        exact absurd hword (h k)

theorem complaint?_eq_some {p : Piece} {complaint : Complaint} :
    p.complaint? = some complaint ↔ p.HasFault complaint := by
  constructor
  · intro h
    cases p with
    | openString body =>
      cases h
      exact .openString body
    | stray c =>
      cases h
      exact .stray c
    | _ => exact absurd h (by simp [complaint?])
  · intro h
    cases h <;> rfl

end Piece

namespace Tokens

/-- What pieces read as that stand behind a text. -/
abbrev behind (before : List Char) (ps : List Piece) : Tokens :=
  ofPieces (Pos.start.after before) ps

theorem mark_behind (before : List Char) (p : Piece) :
    p.mark (Pos.start.after before) = ⟨1 + (before ++ p.text).count '\n', before.length⟩ := by
  rw [Piece.mark, ← after_append]
  simp only [Pos.after, Pos.start, Nat.zero_add]

section Behind

variable (before : List Char) {p : Piece} (ps : List Piece)

theorem behind_token {kind : Kind} (hk : p.HasKind kind) :
    (behind before (p :: ps)).tokens =
        ⟨kind, String.ofList p.text, ⟨1 + (before ++ p.text).count '\n', before.length⟩⟩ ::
          (behind (before ++ p.text) ps).tokens ∧
      (behind before (p :: ps)).issues = (behind (before ++ p.text) ps).issues := by
  have hfault : p.complaint? = none := by cases hk <;> rfl
  simp only [behind, ofPieces, Piece.token?, Piece.issue?, Piece.kind?_eq_some.mpr hk, hfault,
    after_append, mark_behind]
  exact ⟨rfl, rfl⟩

theorem behind_issue {complaint : Complaint} (hf : p.HasFault complaint) :
    (behind before (p :: ps)).tokens = (behind (before ++ p.text) ps).tokens ∧
      (behind before (p :: ps)).issues =
        ⟨⟨1 + (before ++ p.text).count '\n', before.length⟩, 1, .character, complaint⟩ ::
          (behind (before ++ p.text) ps).issues := by
  have hkind : p.kind? = none := by cases hf <;> rfl
  simp only [behind, ofPieces, Piece.token?, Piece.issue?, Piece.complaint?_eq_some.mpr hf, hkind,
    after_append, mark_behind]
  exact ⟨rfl, rfl⟩

theorem behind_skipped (hk : ∀ kind, ¬ p.HasKind kind) (hf : ∀ complaint, ¬ p.HasFault complaint) :
    (behind before (p :: ps)).tokens = (behind (before ++ p.text) ps).tokens ∧
      (behind before (p :: ps)).issues = (behind (before ++ p.text) ps).issues := by
  have hkind : p.kind? = none :=
    Option.eq_none_iff_forall_ne_some.mpr fun kind h => hk kind (Piece.kind?_eq_some.mp h)
  have hfault : p.complaint? = none :=
    Option.eq_none_iff_forall_ne_some.mpr fun c h => hf c (Piece.complaint?_eq_some.mp h)
  simp only [behind, ofPieces, Piece.token?, Piece.issue?, hkind, hfault, after_append]
  exact ⟨rfl, rfl⟩

end Behind

/-- A text can be cut as it is read. -/
theorem scanned_pieces (cs : List Char) : ∀ before,
    Scanned before cs (pieces cs) (behind before (pieces cs)).tokens
      (behind before (pieces cs)).issues := by
  fun_induction pieces cs with
  | case1 => exact fun before => .ends
  | case2 c cs ih =>
    intro before
    have hp := Piece.longest_next c cs
    have hrest := ih (before ++ (Piece.next c cs).1.text)
    rw [← Piece.next_text c cs]
    by_cases hk : ∃ kind, (Piece.next c cs).1.HasKind kind
    · obtain ⟨kind, hk⟩ := hk
      obtain ⟨htokens, hissues⟩ := behind_token before (pieces (Piece.next c cs).2) hk
      rw [htokens, hissues]
      exact .token hp hk hrest
    · by_cases hf : ∃ complaint, (Piece.next c cs).1.HasFault complaint
      · obtain ⟨complaint, hf⟩ := hf
        obtain ⟨htokens, hissues⟩ := behind_issue before (pieces (Piece.next c cs).2) hf
        rw [htokens, hissues]
        exact .issue hp hf hrest
      · have hk := not_exists.mp hk
        have hf := not_exists.mp hf
        obtain ⟨htokens, hissues⟩ :=
          behind_skipped before (pieces (Piece.next c cs).2) hk hf
        rw [htokens, hissues]
        exact .skipped hp hk hf hrest

end Tokens

/-- A text can be cut in no other way. -/
theorem Scanned.unique {before cs : List Char} {ps : List Piece} {ts : List Token} {is : List Issue}
    (h : Scanned before cs ps ts is) :
    ps = pieces cs ∧ ts = (Tokens.behind before ps).tokens ∧
      is = (Tokens.behind before ps).issues := by
  induction h with
  | ends => exact ⟨by rw [pieces], rfl, rfl⟩
  | @token _ _ p _ ps _ _ hp hk _ ih =>
    obtain ⟨hps, hts, his⟩ := ih
    obtain ⟨htokens, hissues⟩ := Tokens.behind_token _ ps hk
    exact ⟨by rw [pieces_of_longest hp, hps], by rw [htokens, hts], by rw [hissues, his]⟩
  | @issue _ _ p _ ps _ _ hp hf _ ih =>
    obtain ⟨hps, hts, his⟩ := ih
    obtain ⟨htokens, hissues⟩ := Tokens.behind_issue _ ps hf
    exact ⟨by rw [pieces_of_longest hp, hps], by rw [htokens, hts], by rw [hissues, his]⟩
  | @skipped _ _ p ps _ _ hp hk hf _ ih =>
    obtain ⟨hps, hts, his⟩ := ih
    obtain ⟨htokens, hissues⟩ := Tokens.behind_skipped _ ps hk hf
    exact ⟨by rw [pieces_of_longest hp, hps], by rw [htokens, hts], by rw [hissues, his]⟩

theorem Scanned.kind_ne_eof {before cs : List Char} {ps : List Piece} {ts : List Token}
    {is : List Issue} (h : Scanned before cs ps ts is) : ∀ t ∈ ts, t.kind ≠ .eof := by
  induction h with
  | ends => exact fun t ht => absurd ht List.not_mem_nil
  | token _ hk _ ih =>
    refine List.forall_mem_cons.mpr ⟨?_, ih⟩
    rintro rfl
    cases hk
  | issue _ _ _ ih | skipped _ _ _ _ ih => exact ih

/-- **A text is read in the only way in which it can be cut.** Its pieces make up the text; its
tokens are the pieces that are tokens, in their order, and one that marks the end of the text; its
issues are the faulty pieces. The value of a string is what stands between its quotes. -/
theorem Tokens.scan_exact (text : String) :
    (∀ ps ts is, Scanned [] text.toList ps ts is ↔
      ps = pieces text.toList ∧ ts = (ofText text).tokens ∧ is = (ofText text).issues) ∧
    ((pieces text.toList).map Piece.text).flatten = text.toList ∧
    (ofText text).all = (ofText text).tokens ++
      [⟨.eof, "", ⟨1 + text.toList.count '\n', text.length⟩⟩] ∧
    (∀ t ∈ (ofText text).tokens, t.kind ≠ .eof) ∧
    ∀ body pos, (⟨.string, String.ofList (Piece.string body).text, pos⟩ : Token).literal? =
      some (.string (String.ofList body)) := by
  have hread : behind [] (pieces text.toList) = ofText text := rfl
  refine ⟨fun ps ts is => ⟨fun h => ?_, ?_⟩, pieces_flatten _, ?_, ?_, fun body pos => ?_⟩
  · obtain ⟨rfl, hts, his⟩ := h.unique
    rw [hread] at hts his
    exact ⟨rfl, hts, his⟩
  · rintro ⟨rfl, rfl, rfl⟩
    exact hread ▸ scanned_pieces text.toList []
  · rw [all, ofText_ending, endingAt, Pos.after, Pos.start, Nat.zero_add, String.length_toList]
  · exact hread ▸ (scanned_pieces text.toList []).kind_ne_eof
  · simp [Token.literal?, Piece.text]

end LoxKit
