import Lox.Token.Scan

/-!
Reading a program with one token of lookahead.

A cursor holds the current token, the line it ends on and the items not read yet. A parser consumes
tokens from a cursor and stops at the first error; there is no recovery. Running out of fuel is an
ending of its own, apart from success and error.
-/

namespace Lox

/-- What is wrong with a program that does not parse. -/
inductive SyntaxProblem where
  | lexical (e : LexicalError)
  | unexpectedToken (found expected : Token)
  | invalidAssignmentTarget
  | expectedExpression (found : Token)
  | expectedIdentifier (found : Token)
  deriving DecidableEq

/-- The first problem of a program and the line it is reported on. -/
structure SyntaxError where
  line : Nat
  problem : SyntaxProblem
  deriving DecidableEq

/-- The text of a lexical error. -/
def LexicalError.message : LexicalError → String
  | .unexpectedChar c => "unexpected character: " ++ c.toString
  | .unterminatedString => "unterminated string"

/-- The text of a problem. -/
def SyntaxProblem.message : SyntaxProblem → String
  | .lexical e => e.message
  | .unexpectedToken found expected =>
    "unexpected token '" ++ found.text ++ "', expected '" ++ expected.text ++ "'"
  | .invalidAssignmentTarget => "invalid assignment target"
  | .expectedExpression found => "expected expression, found '" ++ found.text ++ "'"
  | .expectedIdentifier found => "expected identifier, found '" ++ found.text ++ "'"

/-- The text of a syntax error. -/
def SyntaxError.message (e : SyntaxError) : String :=
  "syntax error: line " ++ toString e.line ++ ": " ++ e.problem.message

/-- A position in the items of a program. -/
structure Cursor where
  token : Token
  line : Nat
  rest : List Item

/-- How a parser ends. -/
inductive Parse.Result (α : Type) where
  | ok (value : α) (cursor : Cursor)
  | error (e : SyntaxError)
  | outOfFuel

/-- A parser reads from a cursor. -/
abbrev Parser (α : Type) := Cursor → Parse.Result α

namespace Parse

/-- Give a value and read nothing. -/
@[inline] def succeed {α : Type} (a : α) : Parser α := fun c => .ok a c

/-- Run a parser, then the one its value selects. -/
@[inline] def andThen {α β : Type} (p : Parser α) (f : α → Parser β) : Parser β := fun c =>
  match p c with
  | .ok a c => f a c
  | .error e => .error e
  | .outOfFuel => .outOfFuel

instance : Monad Parser where
  pure := succeed
  bind := andThen

/-- The current token. -/
@[inline] def current : Parser Token := fun c => .ok c.token c

/-- Stop with a problem on the line of the current token. -/
@[inline] def fail {α : Type} (problem : SyntaxProblem) : Parser α := fun c =>
  .error ⟨c.line, problem⟩

/-- Out of fuel. -/
@[inline] def exhausted {α : Type} : Parser α := fun _ => .outOfFuel

/-- Read the next item. A lexical error stops the parser; the end of the text stays the end. -/
def advance : Parser Unit := fun c =>
  match c.rest with
  | [] => .ok () { c with token := .eof }
  | ⟨line, .ok token⟩ :: rest => .ok () ⟨token, line, rest⟩
  | ⟨line, .error e⟩ :: _ => .error ⟨line, .lexical e⟩

/-- Read the expected token. The end of the text is checked and not passed. -/
def expect (expected : Token) : Parser Unit := do
  let found ← current
  if found = expected then
    if expected = .eof then succeed () else advance
  else fail (.unexpectedToken found expected)

/-- Read an identifier. -/
def identifier : Parser Name := do
  match ← current with
  | .identifier name =>
    advance
    succeed name
  | found => fail (.expectedIdentifier found)

end Parse

end Lox
