import Lox.Parse.Progress

/-!
Parsing a text: a whole program, or a single expression. The fuel that `Lox.Parse.Progress` shows to
be enough is supplied here, so that a text either parses or has a first error.
-/

namespace Lox

/-- What a parser found, where it did not run out of fuel. -/
def Parse.Result.finding {α : Type} :
    (r : Parse.Result α) → r ≠ .outOfFuel → Except SyntaxError α
  | .ok a _, _ => .ok a
  | .error e, _ => .error e
  | .outOfFuel, h => (h rfl).elim

/-- Parse the items of a program. -/
def programOfItems (items : List Item) : Except SyntaxError (List Stmt) :=
  (Parse.program (Parse.fuelFor items) (Parse.start items)).finding
    (Parse.ends_program items).ne_outOfFuel

/-- Parse the items of a single expression. -/
def expressionOfItems (items : List Item) : Except SyntaxError Expr :=
  (Parse.wholeExpression (Parse.fuelFor items) (Parse.start items)).finding
    (Parse.ends_wholeExpression items).ne_outOfFuel

/-- Parse a program. -/
def parseProgram (text : String) : Except SyntaxError (List Stmt) := programOfItems (scan text)

/-- Parse a single expression that is the whole text. -/
def parseExpression (text : String) : Except SyntaxError Expr := expressionOfItems (scan text)

end Lox
