import Lox.Keyword
import Lox.Number.Double

/-!
Expressions. Parentheses are kept as `Expr.group`, so that a tree shows how it was written.
-/

namespace Lox

/-- Operators with one operand. -/
inductive UnaryOp where
  | not
  | minus
  deriving DecidableEq, Repr

/-- Operators that evaluate both operands. -/
inductive BinaryOp where
  | equal
  | notEqual
  | less
  | lessEqual
  | greater
  | greaterEqual
  | add
  | sub
  | mul
  | div
  deriving DecidableEq, Repr

/-- Operators that may leave out their right operand. -/
inductive LogicOp where
  | and
  | or
  deriving DecidableEq, Repr

/-- An expression. -/
inductive Expr where
  | nil
  | number (x : Double)
  | bool (b : Bool)
  | string (s : String)
  | var (name : Name)
  | unary (op : UnaryOp) (operand : Expr)
  | binary (op : BinaryOp) (left right : Expr)
  | logic (op : LogicOp) (left right : Expr)
  | group (e : Expr)
  | assign (name : Name) (value : Expr)
  | call (callee : Expr) (args : List Expr)
  | get (object : Expr) (name : Name)
  | set (object : Expr) (name : Name) (value : Expr)
  | this
  | super (method : Name)
  deriving Inhabited

end Lox
