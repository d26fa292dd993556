import Lox.Expr
import Lox.Parse.Cursor

/-!
Parsing expressions.

Binary operators stand on six levels, from `or`, which binds loosest, to `*` and `/`; each level is
a left-associative chain of operands of the next tighter level. Assignment is right-associative and
decided after its left side has been read: a variable or a property may stand there, anything else
is an invalid target.
-/

namespace Lox.Parse

/-- The levels of binary operators, loosest first. -/
inductive Level where
  | or
  | and
  | equality
  | comparison
  | term
  | factor
  deriving DecidableEq, Repr

/-- The level of the operands; those of the tightest level are unary expressions. -/
def Level.tighter? : Level → Option Level
  | .or => some .and
  | .and => some .equality
  | .equality => some .comparison
  | .comparison => some .term
  | .term => some .factor
  | .factor => none

/-- The operands of a level, given how to read the levels and the unary expressions. -/
def Level.operand (level : Level) (binary : Level → Parser Expr) (unary : Parser Expr) :
    Parser Expr :=
  match level.tighter? with
  | some tighter => binary tighter
  | none => unary

/-- The node built by an operator of a level. -/
def Level.operator? : Level → Token → Option (Expr → Expr → Expr)
  | .or, .keyword .or => some (.logic .or)
  | .and, .keyword .and => some (.logic .and)
  | .equality, .mark .equalEqual => some (.binary .equal)
  | .equality, .mark .bangEqual => some (.binary .notEqual)
  | .comparison, .mark .less => some (.binary .less)
  | .comparison, .mark .lessEqual => some (.binary .lessEqual)
  | .comparison, .mark .greater => some (.binary .greater)
  | .comparison, .mark .greaterEqual => some (.binary .greaterEqual)
  | .term, .mark .plus => some (.binary .add)
  | .term, .mark .minus => some (.binary .sub)
  | .factor, .mark .star => some (.binary .mul)
  | .factor, .mark .slash => some (.binary .div)
  | _, _ => none

/-- The operator that a token stands for in front of an operand. -/
def unaryOperator? : Token → Option UnaryOp
  | .mark .minus => some .minus
  | .mark .bang => some .not
  | _ => none

/-- The expression that a token is by itself. -/
def atom? : Token → Option Expr
  | .identifier name => some (.var name)
  | .keyword .nil => some .nil
  | .number x => some (.number x)
  | .string s => some (.string s)
  | .keyword .true => some (.bool true)
  | .keyword .false => some (.bool false)
  | .keyword .this => some .this
  | _ => none

/-- The assignment to an expression, if it can be assigned to. -/
def assignment? (target value : Expr) : Option Expr :=
  match target with
  | .var name => some (.assign name value)
  | .get object name => some (.set object name value)
  | _ => none

mutual

/-- An expression: an assignment, or what may stand on the left of one. -/
def expression : Nat → Parser Expr
  | 0 => exhausted
  | fuel + 1 => do
    let target ← binary fuel .or
    if (← current) = .mark .equal then
      advance
      let value ← expression fuel
      match assignment? target value with
      | some e => succeed e
      | none => fail .invalidAssignmentTarget
    else succeed target

/-- A chain of operands joined by the operators of a level. -/
def binary : Nat → Level → Parser Expr
  | 0, _ => exhausted
  | fuel + 1, level => do
    let left ← level.operand (binary fuel) (unary fuel)
    binaryRest fuel level left

/-- The rest of a chain, behind its operands read so far. -/
def binaryRest : Nat → Level → Expr → Parser Expr
  | 0, _, _ => exhausted
  | fuel + 1, level, left => do
    match level.operator? (← current) with
    | some node =>
      advance
      let right ← level.operand (binary fuel) (unary fuel)
      binaryRest fuel level (node left right)
    | none => succeed left

/-- Any number of unary operators before a call. -/
def unary : Nat → Parser Expr
  | 0 => exhausted
  | fuel + 1 => do
    match unaryOperator? (← current) with
    | some op =>
      advance
      let operand ← unary fuel
      succeed (.unary op operand)
    | none =>
      let callee ← primary fuel
      callRest fuel callee

/-- Calls and property accesses behind an expression. -/
def callRest : Nat → Expr → Parser Expr
  | 0, _ => exhausted
  | fuel + 1, callee => do
    match ← current with
    | .mark .leftParen =>
      advance
      if (← current) = .mark .rightParen then
        advance
        callRest fuel (.call callee [])
      else
        let args ← arguments fuel
        expect (.mark .rightParen)
        callRest fuel (.call callee args)
    | .mark .dot =>
      advance
      let name ← identifier
      callRest fuel (.get callee name)
    | _ => succeed callee

/-- One argument or several, separated by commas. -/
def arguments : Nat → Parser (List Expr)
  | 0 => exhausted
  | fuel + 1 => do
    let arg ← expression fuel
    if (← current) = .mark .comma then
      advance
      let more ← arguments fuel
      succeed (arg :: more)
    else succeed [arg]

/-- A literal, a name, `this`, `super.name` or an expression in parentheses. -/
def primary : Nat → Parser Expr
  | 0 => exhausted
  | fuel + 1 => do
    let token ← current
    match atom? token with
    | some e =>
      advance
      succeed e
    | none =>
      match token with
      | .keyword .super =>
        advance
        expect (.mark .dot)
        let method ← identifier
        succeed (.super method)
      | .mark .leftParen =>
        advance
        let e ← expression fuel
        expect (.mark .rightParen)
        succeed (.group e)
      | found => fail (.expectedExpression found)

end

end Lox.Parse
