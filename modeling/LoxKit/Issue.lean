import LoxKit.Token.Basic

/-!
# Issues

What can be wrong with a program before it runs. An issue says where it is, what it is about and
what the complaint is; the words of a complaint are fixed in one place, `Complaint.message`.

Headlines:
* `Issue.headline`: the line that reports an issue.
* `Issue.atToken`, `Issue.lexical`: an issue about a token, and one about a single character.
-/

namespace LoxKit

/-- The two kinds of routine that a program declares. -/
inductive Routine where
  | function
  | method
  deriving Repr, DecidableEq

/-- What a kind of routine is called. -/
def Routine.word : Routine → String
  | .function => "function"
  | .method => "method"

/-- What the grammar asks for at a place where the text has something else. -/
inductive Expectation where
  | className
  | superclassName
  | classBodyStart
  | classBodyEnd
  | routineName (r : Routine)
  | parametersStart (r : Routine)
  | parameterName
  | parametersEnd
  | routineBodyStart (r : Routine)
  | variableName
  | variableEnd
  | forStart
  | loopConditionEnd
  | forClausesEnd
  | ifStart
  | ifConditionEnd
  | printEnd
  | returnEnd
  | whileStart
  | whileConditionEnd
  | blockEnd
  | expressionEnd
  | propertyName
  | argumentsEnd
  | superDot
  | superclassMethodName
  | groupEnd
  | expression
  deriving Repr, DecidableEq

/-- What is asked for, in words. -/
def Expectation.words : Expectation → String
  | className => "class name"
  | superclassName => "superclass name"
  | classBodyStart => "'\x7b' before class body"
  | classBodyEnd => "'\x7d' after class body"
  | routineName r => r.word ++ " name"
  | parametersStart r => "'(' after " ++ r.word ++ " name"
  | parameterName => "parameter name"
  | parametersEnd => "')' after parameters"
  | routineBodyStart r => "'\x7b' before " ++ r.word ++ " body"
  | variableName => "variable name"
  | variableEnd => "';' after variable declaration"
  | forStart => "'(' after 'for'"
  | loopConditionEnd => "';' after loop condition"
  | forClausesEnd => "')' after for clauses"
  | ifStart => "'(' after 'if'"
  | ifConditionEnd => "')' after if condition"
  | printEnd => "';' after value"
  | returnEnd => "';' after return value"
  | whileStart => "'(' after 'while'"
  | whileConditionEnd => "')' after condition"
  | blockEnd => "'\x7d' after block"
  | expressionEnd => "';' after expression"
  | propertyName => "property name after '.'"
  | argumentsEnd => "')' after arguments"
  | superDot => "'.' after 'super'"
  | superclassMethodName => "superclass method name"
  | groupEnd => "')' after expression"
  | expression => "expression"

/-- What an issue complains about. -/
inductive Complaint where
  /-- No token starts with this character. -/
  | unexpectedCharacter (c : Char)
  /-- A string has no closing quote. -/
  | unterminatedString
  /-- The grammar asks for something else. -/
  | expected (what : Expectation)
  /-- The left side of an assignment can not be assigned to. -/
  | invalidTarget
  /-- A list of arguments or parameters is too long. -/
  | tooMany (what : String)
  /-- A name is declared twice in one local scope. -/
  | alreadyDeclared
  /-- A local variable is read in its own initializer. -/
  | readInOwnInitializer
  /-- A return stands outside every function. -/
  | returnAtTopLevel
  /-- A return with a value stands in an initializer. -/
  | returnValueFromInitializer
  /-- A receiver is named outside every class. -/
  | thisOutsideClass
  /-- A superclass is named outside every class. -/
  | superOutsideClass
  /-- A superclass is named in a class that has none. -/
  | superWithoutSuperclass
  /-- A class names itself as its superclass. -/
  | inheritsFromItself
  /-- A complaint in the caller's own words. -/
  | worded (message : String)
  deriving Repr, DecidableEq

/-- A complaint in words. -/
def Complaint.message : Complaint → String
  | unexpectedCharacter c => "Unexpected character " ++ Text.quoted (String.ofList [c]) ++ "."
  | unterminatedString => "Unterminated string."
  | expected what => "Expect " ++ what.words ++ "."
  | invalidTarget => "Invalid assignment target."
  | tooMany what => "Can't have more than 255 " ++ what ++ "."
  | alreadyDeclared => "Already a variable with this name in this scope."
  | readInOwnInitializer => "Can't read local variable in its own initializer."
  | returnAtTopLevel => "Can't return from top-level code."
  | returnValueFromInitializer => "Can't return a value from an initializer."
  | thisOutsideClass => "Can't use 'this' outside of a class."
  | superOutsideClass => "Can't use 'super' outside of a class."
  | superWithoutSuperclass => "Can't use 'super' in a class with no superclass."
  | inheritsFromItself => "A class can't inherit from itself."
  | worded message => message

/-- What an issue is about. -/
inductive Subject where
  /-- One character of the text. -/
  | character
  /-- The end of the text. -/
  | ending
  /-- A token with this lexeme. -/
  | lexeme (text : String)
  deriving Repr, DecidableEq

/-- How a headline names what the issue is about. -/
def Subject.words : Subject → String
  | character => ""
  | ending => " at end"
  | lexeme text => " at '" ++ text ++ "'"

/-- Something wrong with a program before it runs. It concerns `width` characters of the text. -/
structure Issue where
  pos : Pos
  width : Nat
  subject : Subject
  complaint : Complaint
  deriving Repr, DecidableEq

namespace Issue

/-- An issue about a single character. -/
def lexical (pos : Pos) (complaint : Complaint) : Issue :=
  ⟨pos, 1, .character, complaint⟩

/-- An issue about a lexeme. -/
def atLexeme (pos : Pos) (text : String) (complaint : Complaint) : Issue :=
  ⟨pos, text.length, .lexeme text, complaint⟩

/-- An issue about a token. -/
def atToken (t : Token) (complaint : Complaint) : Issue :=
  match t.kind with
  | .eof => ⟨t.pos, t.lexeme.length, .ending, complaint⟩
  | _ => .atLexeme t.pos t.lexeme complaint

/-- The line that reports an issue. -/
def headline (i : Issue) : String :=
  "[line " ++ toString i.pos.line ++ "] Error" ++ i.subject.words ++ ": " ++ i.complaint.message

end Issue

end LoxKit
