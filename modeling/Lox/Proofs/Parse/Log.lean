import Lox.Parse.Program

/-!
Parsers that keep a record of what they ask the scanner for.

A logged parser does what the parser does and notes every item that it asks the scanner for, and
every pass through a loop with the items asked for in it. The parsers are written once more as
logged parsers (`Logged.expression` and the others); that they do the same is shown in
`Lox.Proofs.Parse.Account`.

A pass is a run of the body of the loop. Looking at the current token to see whether there is
another pass asks for nothing and is not one.
-/

namespace Lox

/-- The item that the scanner gives next. Behind the end of the text it gives the end again. -/
def Cursor.next (c : Cursor) : Item := c.rest.head?.getD ⟨c.line, .ok .eof⟩

namespace Parse

/-- The loops of the parser. -/
inductive Loop where
  | declarations
  | block
  | methods
  | parameters
  | arguments
  | operators (level : Level)
  | suffixes
  deriving DecidableEq, Repr

/-- A pass through a loop: the token at which it begins, the items asked for in it, and whether it
ends parsing with an error. -/
structure Pass where
  loop : Loop
  first : Token
  asked : List Item
  stopped : Bool

/-- What a run of a parser notes: the items asked for, in order, and the passes through loops, in
the order in which they end. -/
structure Log where
  asked : List Item
  passes : List Pass

namespace Log

def empty : Log := ⟨[], []⟩

/-- What two runs note, one behind the other. -/
def append (l l' : Log) : Log := ⟨l.asked ++ l'.asked, l.passes ++ l'.passes⟩

instance : Append Log := ⟨append⟩

end Log

/-- The parser has stopped at an error. -/
def Result.isError {α : Type} : Result α → Bool
  | .error _ => true
  | _ => false

/-- A parser with its record. -/
abbrev Logged (α : Type) := Cursor → Log × Result α

namespace Logged

section

variable {α β : Type}

/-- A parser that asks for nothing. -/
def quiet (p : Parser α) : Logged α := fun c => (.empty, p c)

/-- Run a parser, then the one its value selects. -/
def andThen (p : Logged α) (f : α → Logged β) : Logged β := fun c =>
  match p c with
  | (log, .ok a c') => (log ++ (f a c').1, (f a c').2)
  | (log, .error e) => (log, .error e)
  | (log, .outOfFuel) => (log, .outOfFuel)

instance : Monad Logged where
  pure a := quiet (Parse.succeed a)
  bind := andThen

def succeed (a : α) : Logged α := quiet (Parse.succeed a)

def current : Logged Token := quiet Parse.current

def fail (problem : SyntaxProblem) : Logged α := quiet (Parse.fail problem)

def exhausted : Logged α := quiet Parse.exhausted

/-- Read the next item, and note it. -/
def advance : Logged Unit := fun c => (⟨[c.next], []⟩, Parse.advance c)

/-- Run the body of a loop, and note the pass. -/
def pass (loop : Loop) (body : Logged α) : Logged α := fun c =>
  ((body c).1 ++ ⟨[], [⟨loop, c.token, (body c).1.asked, (body c).2.isError⟩]⟩, (body c).2)

/-- An item of a list, and whether a comma stands behind it. -/
def listed (p : Logged α) : Logged (α × Bool) := do
  let a ← p
  if (← current) = .mark .comma then
    advance
    succeed (a, true)
  else succeed (a, false)

end

/-- Read the expected token. -/
def expect (expected : Token) : Logged Unit := do
  let found ← current
  if found = expected then
    if expected = .eof then succeed () else advance
  else fail (.unexpectedToken found expected)

/-- Read an identifier. -/
def identifier : Logged Name := do
  match ← current with
  | .identifier name =>
    advance
    succeed name
  | found => fail (.expectedIdentifier found)

/-! ### Expressions -/

/-- The operands of a level, given how to read the levels and the unary expressions. -/
def operand (level : Level) (binary : Level → Logged Expr) (unary : Logged Expr) : Logged Expr :=
  match level.tighter? with
  | some tighter => binary tighter
  | none => unary

mutual

/-- An expression: an assignment, or what may stand on the left of one. -/
def expression : Nat → Logged Expr
  | 0 => exhausted
  | fuel + 1 => do
    let target ← binary fuel .or
    if (← current) = .mark .equal then
      advance
      let value ← expression fuel
      match assignment? target value with
      | some e => succeed e
      | none => fail .invalidAssignmentTarget
    else succeed target

/-- A chain of operands joined by the operators of a level. -/
def binary : Nat → Level → Logged Expr
  | 0, _ => exhausted
  | fuel + 1, level => do
    let left ← operand level (binary fuel) (unary fuel)
    binaryRest fuel level left

/-- The rest of a chain, behind its operands read so far. -/
def binaryRest : Nat → Level → Expr → Logged Expr
  | 0, _, _ => exhausted
  | fuel + 1, level, left => do
    match level.operator? (← current) with
    | some node =>
      let right ← pass (.operators level) do
        advance
        operand level (binary fuel) (unary fuel)
      binaryRest fuel level (node left right)
    | none => succeed left

/-- Any number of unary operators before a call. -/
def unary : Nat → Logged Expr
  | 0 => exhausted
  | fuel + 1 => do
    match unaryOperator? (← current) with
    | some op =>
      advance
      let operand ← unary fuel
      succeed (.unary op operand)
    | none =>
      let callee ← primary fuel
      callRest fuel callee

/-- Calls and property accesses behind an expression. -/
def callRest : Nat → Expr → Logged Expr
  | 0, _ => exhausted
  | fuel + 1, callee => do
    match ← current with
    | .mark .leftParen =>
      let args ← pass .suffixes do
        advance
        if (← current) = .mark .rightParen then
          advance
          succeed []
        else
          let args ← arguments fuel
          expect (.mark .rightParen)
          succeed args
      callRest fuel (.call callee args)
    | .mark .dot =>
      let name ← pass .suffixes do
        advance
        identifier
      callRest fuel (.get callee name)
    | _ => succeed callee

/-- One argument or several, separated by commas. -/
def arguments : Nat → Logged (List Expr)
  | 0 => exhausted
  | fuel + 1 => do
    let item ← pass .arguments (listed (expression fuel))
    if item.2 then
      let more ← arguments fuel
      succeed (item.1 :: more)
    else succeed [item.1]

/-- A literal, a name, `this`, `super.name` or an expression in parentheses. -/
def primary : Nat → Logged Expr
  | 0 => exhausted
  | fuel + 1 => do
    let token ← current
    match atom? token with
    | some e =>
      advance
      succeed e
    | none =>
      match token with
      | .keyword .super =>
        advance
        expect (.mark .dot)
        let method ← identifier
        succeed (.super method)
      | .mark .leftParen =>
        advance
        let e ← expression fuel
        expect (.mark .rightParen)
        succeed (.group e)
      | found => fail (.expectedExpression found)

end

/-! ### Statements -/

/-- An expression and the semicolon behind it. -/
def expressionLine (fuel : Nat) : Logged Expr := do
  let e ← expression fuel
  expect (.mark .semicolon)
  succeed e

/-- A condition in parentheses. -/
def condition (fuel : Nat) : Logged Expr := do
  expect (.mark .leftParen)
  let cond ← expression fuel
  expect (.mark .rightParen)
  succeed cond

/-- A variable declaration, at its keyword. -/
def varDecl (fuel : Nat) : Logged Stmt := do
  advance
  let name ← identifier
  if (← current) = .mark .equal then
    advance
    let init ← expressionLine fuel
    succeed (.varDecl name init)
  else
    expect (.mark .semicolon)
    succeed (.varDecl name .nil)

/-- One parameter or several, separated by commas. -/
def parameters : Nat → Logged (List Name)
  | 0 => exhausted
  | fuel + 1 => do
    let item ← pass .parameters (listed identifier)
    if item.2 then
      let more ← parameters fuel
      succeed (item.1 :: more)
    else succeed [item.1]

/-- The parameters of a function, with their parentheses. -/
def parameterList (fuel : Nat) : Logged (List Name) := do
  expect (.mark .leftParen)
  if (← current) = .mark .rightParen then
    advance
    succeed []
  else
    let params ← parameters fuel
    expect (.mark .rightParen)
    succeed params

/-- The name of a superclass behind `<`, if there is one. -/
def superclass : Logged (Option Name) := do
  if (← current) = .mark .less then
    advance
    let name ← identifier
    succeed (some name)
  else succeed none

/-- An expression unless the given token stands in its place. -/
def optionalExpression (fuel : Nat) (absent : Token) : Logged (Option Expr) := do
  if (← current) = absent then succeed none
  else
    let e ← expression fuel
    succeed (some e)

/-- The first part of a loop's head, with its semicolon. -/
def loopInit (fuel : Nat) : Logged (Option Stmt) := do
  match ← current with
  | .mark .semicolon =>
    advance
    succeed none
  | .keyword .var =>
    let init ← varDecl fuel
    succeed (some init)
  | _ =>
    let e ← expressionLine fuel
    succeed (some (.expr e))

mutual

/-- A declaration or a statement. -/
def declaration : Nat → Logged Stmt
  | 0 => exhausted
  | fuel + 1 => do
    match ← current with
    | .keyword .var => varDecl fuel
    | .keyword .fun =>
      advance
      let decl ← function fuel
      succeed (.funDecl decl)
    | .keyword .cls =>
      advance
      let name ← identifier
      let superclass ← superclass
      expect (.mark .leftCurly)
      let methods ← methods fuel
      succeed (.classDecl ⟨name, superclass, methods⟩)
    | _ => statement fuel

/-- A function or method, from its name on. -/
def function : Nat → Logged FunctionDecl
  | 0 => exhausted
  | fuel + 1 => do
    let name ← identifier
    let params ← parameterList fuel
    expect (.mark .leftCurly)
    let body ← blockRest fuel
    succeed ⟨name, params, body⟩

/-- Methods up to the closing brace of their class. -/
def methods : Nat → Logged (List FunctionDecl)
  | 0 => exhausted
  | fuel + 1 => do
    if (← current) = .mark .rightCurly then
      advance
      succeed []
    else
      let method ← pass .methods (function fuel)
      let more ← methods fuel
      succeed (method :: more)

/-- Declarations and statements up to the closing brace of their block. The brace is read, and the
end of the text refused, inside the loop. -/
def blockRest : Nat → Logged (List Stmt)
  | 0 => exhausted
  | fuel + 1 => do
    match ← current with
    | .mark .rightCurly =>
      pass .block advance
      succeed []
    | .eof => pass .block (fail (.unexpectedToken .eof (.mark .rightCurly)))
    | _ =>
      let stmt ← pass .block (declaration fuel)
      let more ← blockRest fuel
      succeed (stmt :: more)

/-- A statement. -/
def statement : Nat → Logged Stmt
  | 0 => exhausted
  | fuel + 1 => do
    match ← current with
    | .keyword .print =>
      advance
      let e ← expressionLine fuel
      succeed (.print e)
    | .mark .leftCurly =>
      advance
      let body ← blockRest fuel
      succeed (.block body)
    | .keyword .if =>
      advance
      let cond ← condition fuel
      let thenBranch ← statement fuel
      if (← current) = .keyword .else then
        advance
        let elseBranch ← statement fuel
        succeed (.ite cond thenBranch elseBranch)
      else succeed (.ite cond thenBranch (.block []))
    | .keyword .while =>
      advance
      let cond ← condition fuel
      let body ← statement fuel
      succeed (.while cond body)
    | .keyword .for =>
      advance
      expect (.mark .leftParen)
      let init ← loopInit fuel
      let cond ← optionalExpression fuel (.mark .semicolon)
      expect (.mark .semicolon)
      let incr ← optionalExpression fuel (.mark .rightParen)
      expect (.mark .rightParen)
      let body ← statement fuel
      succeed (.for init cond incr body)
    | .mark .semicolon =>
      advance
      succeed .nop
    | .keyword .return =>
      advance
      if (← current) = .mark .semicolon then
        advance
        succeed (.return .nil)
      else
        let value ← expressionLine fuel
        succeed (.return value)
    | _ =>
      let e ← expressionLine fuel
      succeed (.expr e)

end

/-- Declarations and statements up to the end of the text. -/
def declarations : Nat → Logged (List Stmt)
  | 0 => exhausted
  | fuel + 1 => do
    if (← current) = .eof then succeed []
    else
      let stmt ← pass .declarations (declaration fuel)
      let more ← declarations fuel
      succeed (stmt :: more)

/-- A whole program. -/
def program (fuel : Nat) : Logged (List Stmt) := do
  advance
  declarations fuel

/-- A single expression that is the whole text. -/
def wholeExpression (fuel : Nat) : Logged Expr := do
  advance
  let e ← expression fuel
  expect .eof
  succeed e

end Logged

end Parse

end Lox
