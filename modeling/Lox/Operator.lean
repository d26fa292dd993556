import Lox.RuntimeError

/-!
The operators on values, and the builtins on numbers.
-/

namespace Lox

namespace Value

/-- An operation on two numbers. -/
def onNumbers (f : Float → Float → Value) : Value → Value → Except RuntimeError Value
  | .number a, .number b => .ok (f a b)
  | l, r => .error (.typeMismatch .numbers [l.kind, r.kind])

/-- The sum of two numbers, or two strings one behind the other. -/
def add : Value → Value → Except RuntimeError Value
  | .number a, .number b => .ok (.number (a + b))
  | .string a, .string b => .ok (.string (a ++ b))
  | l, r => .error (.typeMismatch .addends [l.kind, r.kind])

/-- The quotient of two numbers. A divisor of either zero is an error. -/
def div : Value → Value → Except RuntimeError Value
  | .number a, .number b => if b == 0 then .error .divisionByZero else .ok (.number (a / b))
  | l, r => .error (.typeMismatch .numbers [l.kind, r.kind])

/-- The negation of a number. -/
def neg : Value → Except RuntimeError Value
  | .number a => .ok (.number (-a))
  | v => .error (.typeMismatch .number [v.kind])

end Value

/-- The meaning of an operator with two operands. -/
def BinaryOp.apply : BinaryOp → Value → Value → Except RuntimeError Value
  | .equal, l, r => .ok (.bool (l.equals r))
  | .notEqual, l, r => .ok (.bool (!l.equals r))
  | .less, l, r => Value.onNumbers (fun a b => .bool (a < b)) l r
  | .lessEqual, l, r => Value.onNumbers (fun a b => .bool (a ≤ b)) l r
  | .greater, l, r => Value.onNumbers (fun a b => .bool (b < a)) l r
  | .greaterEqual, l, r => Value.onNumbers (fun a b => .bool (b ≤ a)) l r
  | .add, l, r => Value.add l r
  | .sub, l, r => Value.onNumbers (fun a b => .number (a - b)) l r
  | .mul, l, r => Value.onNumbers (fun a b => .number (a * b)) l r
  | .div, l, r => Value.div l r

/-- The meaning of an operator with one operand. -/
def UnaryOp.apply : UnaryOp → Value → Except RuntimeError Value
  | .not, v => .ok (.bool (!v.isTruthy))
  | .minus, v => Value.neg v

/-- Whether a logical operator takes its left operand as the result. -/
def LogicOp.stopsAt : LogicOp → Value → Bool
  | .and, left => !left.isTruthy
  | .or, left => left.isTruthy

namespace Builtin

/-- The name a builtin is bound to. -/
def name : Builtin → Name
  | .clock => "clock"
  | .sqrt => "sqrt"
  | .max => "max"

/-- How many arguments a builtin takes. -/
def arity : Builtin → Arity
  | .clock => .exactly 0
  | .sqrt => .exactly 1
  | .max => .atLeast 1

/-- All builtins. -/
def all : List Builtin := [.clock, .sqrt, .max]

/-- A builtin as a native function. -/
def toNative (b : Builtin) : Native := ⟨0, b.name, b.arity, .builtin b⟩

/-- The numbers among the arguments of a builtin, all of which must be. -/
def numbers? : List Value → Option (List Float)
  | [] => some []
  | .number x :: rest => (numbers? rest).map (x :: ·)
  | _ :: _ => none

/-- The greater of two numbers. A number is preferred to NaN; of two equal numbers, such as the two
zeros, the second is taken. -/
def greater (a b : Float) : Float := if a.isNaN || a ≤ b then b else a

/-- The error of a builtin whose arguments it cannot take. -/
def mismatch (args : List Value) : RuntimeError :=
  .typeMismatch .numericArguments (args.map Value.kind)

/-- The meaning of a builtin, at a given time in seconds. -/
def apply (time : Float) (b : Builtin) (args : List Value) : Except RuntimeError Value :=
  match b, numbers? args with
  | .clock, _ => .ok (.number time)
  | .sqrt, some [x] => .ok (.number x.sqrt)
  | .max, some (x :: rest) => .ok (.number (rest.foldl greater x))
  | _, _ => .error (mismatch args)

end Builtin

end Lox
