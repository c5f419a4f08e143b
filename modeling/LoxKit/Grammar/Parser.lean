import LoxKit.Issue

/-!
# Readers of tokens

A reader takes tokens from the front of a stream and gives a value, or gives up. Either way it says
what issues it found and which tokens are left. A reader that gives up has said why.

The loops of this module take at most one step for each token of the stream that they start on; the
list of these tokens counts the steps. That is enough where every step takes a token.

Headlines:
* `Parser.bind_assoc`, `Parser.pure_bind`, `Parser.bind_pure`: the laws of sequence.
-/

namespace LoxKit

/-- Tokens still to be read, and the token that marks their end. -/
structure Stream where
  tokens : List Token
  ending : Token
  deriving Repr, DecidableEq

/-- The next token, which at the end is the one that marks it. -/
def Stream.next (s : Stream) : Token :=
  s.tokens.headD s.ending

/-- Whether no token is left. -/
def Stream.atEnd (s : Stream) : Bool :=
  s.tokens.isEmpty

/-- Whether the next token is of a kind. -/
def Stream.nextIs (s : Stream) (kind : Kind) : Bool :=
  s.tokens.head?.any (·.kind == kind)

/-- The tokens of a stream with the one that marks the end. -/
def Stream.all (s : Stream) : List Token :=
  s.ending :: s.tokens

/-- The stream without its next token. -/
def Stream.drop (s : Stream) : Stream :=
  { s with tokens := s.tokens.tail }

/-- What a reader answers: the issues it found, the tokens it left, and its value unless it gave
up. -/
structure Reply (α : Type) where
  issues : List Issue
  rest : Stream
  value : Option α

/-- A reader of tokens. -/
def Parser (α : Type) : Type :=
  Stream → Reply α

namespace Parser

variable {α β γ : Type}

/-- Gives a value and reads nothing. -/
protected def pure (a : α) : Parser α := fun s =>
  ⟨[], s, some a⟩

/-- Reads on behind a reader that did not give up. -/
protected def bind (p : Parser α) (f : α → Parser β) : Parser β := fun s =>
  let first := p s
  match first.value with
  | none => ⟨first.issues, first.rest, none⟩
  | some a =>
    let second := f a first.rest
    ⟨first.issues ++ second.issues, second.rest, second.value⟩

instance : Monad Parser where
  pure := Parser.pure
  bind := Parser.bind

/-- The stream as it stands. -/
def look : Parser Stream := fun s =>
  ⟨[], s, some s⟩

/-- Reports an issue and reads on. -/
def report (i : Issue) : Parser Unit := fun s =>
  ⟨[i], s, some ()⟩

/-- Gives up without a word. -/
def giveUp : Parser α := fun s =>
  ⟨[], s, none⟩

/-- Gives up because the next token is not what the grammar asks for. -/
def refuse (what : Expectation) : Parser α := fun s =>
  ⟨[.atToken s.next (.expected what)], s, none⟩

/-- Takes the next token if a test has a value for it. -/
def take? (test : Token → Option α) : Parser (Option α) := fun s =>
  match s.tokens with
  | [] => ⟨[], s, some none⟩
  | t :: _ =>
    match test t with
    | none => ⟨[], s, some none⟩
    | some a => ⟨[], s.drop, some (some a)⟩

/-- Takes the next token if it is of a kind. -/
def accept (kind : Kind) : Parser (Option Token) :=
  take? fun t => if t.kind = kind then some t else none

/-- Takes the next token, which has to be of a kind. -/
def expect (kind : Kind) (what : Expectation) : Parser Token := fun s =>
  match s.tokens with
  | [] => refuse what s
  | t :: _ => if t.kind = kind then ⟨[], s.drop, some t⟩ else refuse what s

/-- Takes a symbol, which has to be the next token. -/
def symbol (s : Symbol) (what : Expectation) : Parser Token :=
  expect (.symbol s) what

/-- Takes steps from a value on as long as they lead further, at most as many as `rounds` has
tokens. -/
def iterate (step : α → Parser (Option α)) : (rounds : List Token) → α → Parser α
  | [], a => Parser.pure a
  | _ :: rounds, a =>
    (step a).bind fun
      | none => Parser.pure a
      | some b => iterate step rounds b

/-- Takes steps from a value on as long as they lead further. -/
def chain (step : α → Parser (Option α)) (a : α) : Parser α := fun s =>
  iterate step s.tokens a s

/-- Collects what a reader gives until it gives nothing more, at most as often as `rounds` has
tokens. The reader is told how often it was asked before. -/
def collect (item : Nat → Parser (Option α)) : (rounds : List Token) → (count : Nat) →
    Parser (List α)
  | [], _ => Parser.pure []
  | _ :: rounds, count =>
    (item count).bind fun
      | none => Parser.pure []
      | some a => (collect item rounds (count + 1)).bind fun as => Parser.pure (a :: as)

/-- Collects what a reader gives until it gives nothing more. -/
def many (item : Nat → Parser (Option α)) : Parser (List α) := fun s =>
  collect item s.tokens 0 s

/-- Collects what a reader gives up to a token of a kind or the end. -/
def manyUntil (kind : Kind) (item : Parser α) : Parser (List α) :=
  many fun _ => look.bind fun s =>
    if s.nextIs kind || s.atEnd then Parser.pure none else item.bind fun a => Parser.pure (some a)

/-- Reads one or more items with commas between them. The reader of an item is told how many were
read before. -/
def commaSeparated (item : Nat → Parser α) : Parser (List α) :=
  (item 0).bind fun first =>
    (many fun count => (accept (.symbol .comma)).bind fun
      | none => Parser.pure none
      | some _ => (item (count + 1)).bind fun a => Parser.pure (some a)).bind fun rest =>
    Parser.pure (first :: rest)

theorem pure_bind (a : α) (f : α → Parser β) : (Parser.pure a).bind f = f a := by
  funext s
  simp [Parser.bind, Parser.pure]

theorem bind_pure (p : Parser α) : p.bind Parser.pure = p := by
  funext s
  unfold Parser.bind Parser.pure
  rcases h : p s with ⟨issues, rest, _ | a⟩ <;> simp

theorem bind_assoc (p : Parser α) (f : α → Parser β) (g : β → Parser γ) :
    (p.bind f).bind g = p.bind fun a => (f a).bind g := by
  funext s
  unfold Parser.bind
  rcases p s with ⟨issues, rest, _ | a⟩
  · rfl
  · dsimp only
    rcases f a rest with ⟨issues', rest', _ | b⟩
    · rfl
    · simp

end Parser

end LoxKit
