import LoxKit.Decimal.Style
import LoxKit.Text.Quoted

/-!
# Tokens

The vocabulary of Lox: symbols, keywords, and the tokens that a text is made of. The lexeme of a
symbol or a keyword is fixed by its kind, and the value of a literal is a function of its lexeme.

Headlines:
* `Keyword.ofWord?_word`: a keyword is found under its own word.
* `Keyword.eq_word_of_ofWord?`: and under no other.
-/

namespace LoxKit

/-- A place in a text: the line, counted from one, and the number of characters before it. -/
structure Pos where
  line : Nat
  offset : Nat
  deriving Repr, DecidableEq, Inhabited

/-- Punctuation and operators. -/
inductive Symbol where
  | leftParen | rightParen | leftBrace | rightBrace | comma | dot | minus | plus | semicolon
  | slash | star
  | bang | bangEqual | equal | equalEqual | greater | greaterEqual | less | lessEqual
  deriving Repr, DecidableEq

/-- Words that are no identifiers. -/
inductive Keyword where
  | and | «class» | «else» | «false» | «fun» | «for» | «if» | nil | or | print | «return» | super
  | this | «true» | var | «while»
  deriving Repr, DecidableEq

namespace Symbol

/-- How a symbol is written. -/
def text : Symbol → String
  | leftParen => "("
  | rightParen => ")"
  | leftBrace => "\x7b"
  | rightBrace => "\x7d"
  | comma => ","
  | dot => "."
  | minus => "-"
  | plus => "+"
  | semicolon => ";"
  | slash => "/"
  | star => "*"
  | bang => "!"
  | bangEqual => "!="
  | equal => "="
  | equalEqual => "=="
  | greater => ">"
  | greaterEqual => ">="
  | less => "<"
  | lessEqual => "<="

/-- What a symbol is called. -/
def label : Symbol → String
  | leftParen => "LEFT_PAREN"
  | rightParen => "RIGHT_PAREN"
  | leftBrace => "LEFT_BRACE"
  | rightBrace => "RIGHT_BRACE"
  | comma => "COMMA"
  | dot => "DOT"
  | minus => "MINUS"
  | plus => "PLUS"
  | semicolon => "SEMICOLON"
  | slash => "SLASH"
  | star => "STAR"
  | bang => "BANG"
  | bangEqual => "BANG_EQUAL"
  | equal => "EQUAL"
  | equalEqual => "EQUAL_EQUAL"
  | greater => "GREATER"
  | greaterEqual => "GREATER_EQUAL"
  | less => "LESS"
  | lessEqual => "LESS_EQUAL"

end Symbol

namespace Keyword

/-- How a keyword is written. -/
def word : Keyword → String
  | and => "and"
  | «class» => "class"
  | «else» => "else"
  | «false» => "false"
  | «fun» => "fun"
  | «for» => "for"
  | «if» => "if"
  | nil => "nil"
  | or => "or"
  | print => "print"
  | «return» => "return"
  | super => "super"
  | this => "this"
  | «true» => "true"
  | var => "var"
  | «while» => "while"

/-- What a keyword is called. -/
def label : Keyword → String
  | and => "AND"
  | «class» => "CLASS"
  | «else» => "ELSE"
  | «false» => "FALSE"
  | «fun» => "FUN"
  | «for» => "FOR"
  | «if» => "IF"
  | nil => "NIL"
  | or => "OR"
  | print => "PRINT"
  | «return» => "RETURN"
  | super => "SUPER"
  | this => "THIS"
  | «true» => "TRUE"
  | var => "VAR"
  | «while» => "WHILE"

/-- All the keywords. -/
def all : List Keyword :=
  [and, «class», «else», «false», «fun», «for», «if», nil, or, print, «return», super, this,
    «true», var, «while»]

/-- The keyword that is written so, if there is one. -/
def ofWord? (w : String) : Option Keyword :=
  all.find? fun k => k.word == w

/-- The keywords that can begin a statement and nothing else. -/
def starters : List Keyword :=
  [«class», «fun», var, «for», «if», «while», print, «return»]

/-- Whether a keyword begins a statement. -/
def startsStatement (k : Keyword) : Bool :=
  starters.contains k

/-- A keyword is found under its own word. -/
theorem ofWord?_word (k : Keyword) : ofWord? k.word = some k := by
  cases k <;> decide

/-- A keyword is found under no other word than its own. -/
theorem eq_word_of_ofWord? {w : String} {k : Keyword} (h : ofWord? w = some k) : w = k.word := by
  have := List.find?_some h
  exact (by simpa using this : k.word = w).symm

end Keyword

/-- What a token is. -/
inductive Kind where
  | symbol (s : Symbol)
  | keyword (k : Keyword)
  | identifier
  | string
  | number
  | eof
  deriving Repr, DecidableEq

/-- What a kind of token is called. -/
def Kind.label : Kind → String
  | .symbol s => s.label
  | .keyword k => k.label
  | .identifier => "IDENTIFIER"
  | .string => "STRING"
  | .number => "NUMBER"
  | .eof => "EOF"

/-- A token: its kind, the characters it was made from, and its place. The offset is that of its
first character, the line that of its last. -/
structure Token where
  kind : Kind
  lexeme : String
  pos : Pos
  deriving Repr, DecidableEq

/-- The value that a literal stands for. -/
inductive Literal where
  | nil
  | bool (b : Bool)
  | number (x : Float)
  | string (s : String)

namespace Token

/-- The value of a number or string token. -/
def literal? (t : Token) : Option Literal :=
  match t.kind with
  | .number => some (.number (Decimal.readNumeral t.lexeme.toList))
  | .string => some (.string (String.ofList (t.lexeme.toList.drop 1).dropLast))
  | _ => none

/-- A token for display: its kind and its quoted lexeme. -/
def display (t : Token) : String :=
  "<" ++ t.kind.label ++ " " ++ Text.quoted t.lexeme ++ ">"

end Token

end LoxKit
