import Lox.Stmt
import Lox.Parse.Expr

/-!
Parsing statements, declarations and whole programs.
-/

namespace Lox.Parse

/-- An expression and the semicolon behind it. -/
def expressionLine (fuel : Nat) : Parser Expr := do
  let e ← expression fuel
  expect (.mark .semicolon)
  succeed e

/-- A condition in parentheses. -/
def condition (fuel : Nat) : Parser Expr := do
  expect (.mark .leftParen)
  let cond ← expression fuel
  expect (.mark .rightParen)
  succeed cond

/-- A variable declaration, at its keyword. Without an initialiser the variable is `nil`. -/
def varDecl (fuel : Nat) : Parser Stmt := do
  advance
  let name ← identifier
  if (← current) = .mark .equal then
    advance
    let init ← expressionLine fuel
    succeed (.varDecl name init)
  else
    expect (.mark .semicolon)
    succeed (.varDecl name .nil)

/-- One parameter or several, separated by commas. -/
def parameters : Nat → Parser (List Name)
  | 0 => exhausted
  | fuel + 1 => do
    let param ← identifier
    if (← current) = .mark .comma then
      advance
      let more ← parameters fuel
      succeed (param :: more)
    else succeed [param]

/-- The parameters of a function, with their parentheses. -/
def parameterList (fuel : Nat) : Parser (List Name) := do
  expect (.mark .leftParen)
  if (← current) = .mark .rightParen then
    advance
    succeed []
  else
    let params ← parameters fuel
    expect (.mark .rightParen)
    succeed params

/-- The name of a superclass behind `<`, if there is one. -/
def superclass : Parser (Option Name) := do
  if (← current) = .mark .less then
    advance
    let name ← identifier
    succeed (some name)
  else succeed none

/-- An expression unless the given token stands in its place. -/
def optionalExpression (fuel : Nat) (absent : Token) : Parser (Option Expr) := do
  if (← current) = absent then succeed none
  else
    let e ← expression fuel
    succeed (some e)

/-- The first part of a loop's head, with its semicolon: nothing, a variable declaration or an
expression. -/
def loopInit (fuel : Nat) : Parser (Option Stmt) := do
  match ← current with
  | .mark .semicolon =>
    advance
    succeed none
  | .keyword .var =>
    let init ← varDecl fuel
    succeed (some init)
  | _ =>
    let e ← expressionLine fuel
    succeed (some (.expr e))

mutual

/-- A declaration or a statement. -/
def declaration : Nat → Parser Stmt
  | 0 => exhausted
  | fuel + 1 => do
    match ← current with
    | .keyword .var => varDecl fuel
    | .keyword .fun =>
      advance
      let decl ← function fuel
      succeed (.funDecl decl)
    | .keyword .cls =>
      advance
      let name ← identifier
      let superclass ← superclass
      expect (.mark .leftCurly)
      let methods ← methods fuel
      succeed (.classDecl ⟨name, superclass, methods⟩)
    | _ => statement fuel

/-- A function or method, from its name on. -/
def function : Nat → Parser FunctionDecl
  | 0 => exhausted
  | fuel + 1 => do
    let name ← identifier
    let params ← parameterList fuel
    expect (.mark .leftCurly)
    let body ← blockRest fuel
    succeed ⟨name, params, body⟩

/-- Methods up to the closing brace of their class. -/
def methods : Nat → Parser (List FunctionDecl)
  | 0 => exhausted
  | fuel + 1 => do
    if (← current) = .mark .rightCurly then
      advance
      succeed []
    else
      let method ← function fuel
      let more ← methods fuel
      succeed (method :: more)

/-- Declarations and statements up to the closing brace of their block. -/
def blockRest : Nat → Parser (List Stmt)
  | 0 => exhausted
  | fuel + 1 => do
    match ← current with
    | .mark .rightCurly =>
      advance
      succeed []
    | .eof => fail (.unexpectedToken .eof (.mark .rightCurly))
    | _ =>
      let stmt ← declaration fuel
      let more ← blockRest fuel
      succeed (stmt :: more)

/-- A statement. -/
def statement : Nat → Parser Stmt
  | 0 => exhausted
  | fuel + 1 => do
    match ← current with
    | .keyword .print =>
      advance
      let e ← expressionLine fuel
      succeed (.print e)
    | .mark .leftCurly =>
      advance
      let body ← blockRest fuel
      succeed (.block body)
    | .keyword .if =>
      advance
      let cond ← condition fuel
      let thenBranch ← statement fuel
      if (← current) = .keyword .else then
        advance
        let elseBranch ← statement fuel
        succeed (.ite cond thenBranch elseBranch)
      else succeed (.ite cond thenBranch (.block []))
    | .keyword .while =>
      advance
      let cond ← condition fuel
      let body ← statement fuel
      succeed (.while cond body)
    | .keyword .for =>
      advance
      expect (.mark .leftParen)
      let init ← loopInit fuel
      let cond ← optionalExpression fuel (.mark .semicolon)
      expect (.mark .semicolon)
      let incr ← optionalExpression fuel (.mark .rightParen)
      expect (.mark .rightParen)
      let body ← statement fuel
      succeed (.for init cond incr body)
    | .mark .semicolon =>
      advance
      succeed .nop
    | .keyword .return =>
      advance
      if (← current) = .mark .semicolon then
        advance
        succeed (.return .nil)
      else
        let value ← expressionLine fuel
        succeed (.return value)
    | _ =>
      let e ← expressionLine fuel
      succeed (.expr e)

end

/-- Declarations and statements up to the end of the text. -/
def declarations : Nat → Parser (List Stmt)
  | 0 => exhausted
  | fuel + 1 => do
    if (← current) = .eof then succeed []
    else
      let stmt ← declaration fuel
      let more ← declarations fuel
      succeed (stmt :: more)

/-- A whole program. -/
def program (fuel : Nat) : Parser (List Stmt) := do
  advance
  declarations fuel

/-- A single expression that is the whole text. -/
def wholeExpression (fuel : Nat) : Parser Expr := do
  advance
  let e ← expression fuel
  expect .eof
  succeed e

/-- Where reading starts: before the first item. -/
def start (items : List Item) : Cursor := ⟨.eof, 1, items⟩

/-- Fuel for a number of items: at most sixteen calls pass between two tokens. -/
def fuelFor (items : List Item) : Nat := 16 * items.length + 16

end Lox.Parse
