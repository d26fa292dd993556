import Lox.Value

/-!
What can go wrong while a program runs.
-/

namespace Lox

/-- What an operation asks of the values it is given. -/
inductive TypeRule where
  /-- The operands of an addition. -/
  | addends
  /-- The operands of any other arithmetic or ordering operator. -/
  | numbers
  /-- The operand of a negation. -/
  | number
  /-- The arguments of a builtin on numbers. -/
  | numericArguments
  /-- The value a property is read from. -/
  | propertyOwner
  /-- The value a field is written to. -/
  | fieldOwner
  /-- The value named as superclass by a class declaration. -/
  | superclass
  /-- The values bound to `super` and `this` where a superclass's method is asked for. -/
  | superBinding
  deriving DecidableEq, Repr

/-- The wording of a rule. -/
def TypeRule.text : TypeRule → String
  | .addends => "Operands must be two numbers or two strings."
  | .numbers => "Operands must be numbers."
  | .number => "Operand must be a number."
  | .numericArguments => "Operands must be numbers."
  | .propertyOwner => "Only instances have properties."
  | .fieldOwner => "Only instances have fields."
  | .superclass => "Superclass must be a class."
  | .superBinding => "Superclass must be a class."

/-- What stands between the kinds found: operands are joined by `and`, arguments by a comma. -/
def TypeRule.separator : TypeRule → String
  | .numericArguments => ", "
  | _ => " and "

/-- An error that stops a running program. -/
inductive RuntimeError where
  | undefinedName (name : Name)
  | undefinedProperty (cls name : Name)
  | typeMismatch (rule : TypeRule) (found : List Kind)
  | divisionByZero
  | arity (callee : String) (expected : Arity) (got : Nat)
  | notCallable (kind : Kind)
  | duplicateDefinition (name : Name)
  | returnOutsideFunction
  | outputFull
  deriving DecidableEq, Repr

namespace RuntimeError

/-- The description of an error. -/
def description : RuntimeError → String
  | .undefinedName name => "Undefined variable '" ++ name ++ "'."
  | .undefinedProperty cls name => "Undefined property '" ++ name ++ "' on " ++ cls ++ " instance."
  | .typeMismatch rule found =>
    rule.text ++ " (got " ++ rule.separator.intercalate (found.map Kind.name) ++ ")"
  | .divisionByZero => "Division by zero."
  | .arity callee expected got =>
    callee ++ ": expected " ++ expected.text ++ " arguments but got " ++ toString got ++ "."
  | .notCallable kind => "Can only call functions and classes, not " ++ kind.name ++ "."
  | .duplicateDefinition name => "Already a variable named '" ++ name ++ "' in this scope."
  | .returnOutsideFunction => "'return' outside of any function."
  | .outputFull => "I/O error: sink full"

/-- The text of an error. -/
def message (e : RuntimeError) : String := "runtime error: " ++ e.description

end RuntimeError

end Lox
