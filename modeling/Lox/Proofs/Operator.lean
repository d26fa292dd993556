import Lox.Operator

/-!
What comes out of operators and builtins: a value without identity and without a name, or an error
that mentions no name. `Scalar` says so of a result.
-/

namespace Lox

/-- A value that is all there is to it: neither a function nor a class nor an instance. -/
def Value.IsScalar : Value → Prop
  | .nil | .bool _ | .number _ | .string _ => True
  | _ => False

/-- An error that mentions no identifier. -/
def RuntimeError.IsNameless : RuntimeError → Prop
  | .typeMismatch _ _ | .divisionByZero => True
  | _ => False

/-- A scalar, or an error without names. -/
def Scalar : Except RuntimeError Value → Prop
  | .ok v => v.IsScalar
  | .error e => e.IsNameless

theorem Value.scalar_onNumbers {f : Float → Float → Value} (h : ∀ a b, (f a b).IsScalar)
    (l r : Value) : Scalar (Value.onNumbers f l r) := by
  unfold Value.onNumbers
  split
  · exact h _ _
  · trivial

theorem UnaryOp.scalar_apply (op : UnaryOp) (v : Value) : Scalar (op.apply v) := by
  cases op with
  | not => trivial
  | minus => cases v <;> trivial

theorem BinaryOp.scalar_apply (op : BinaryOp) (l r : Value) : Scalar (op.apply l r) := by
  cases op with
  | equal | notEqual => trivial
  | add =>
    change Scalar (Value.add l r)
    unfold Value.add
    split <;> trivial
  | div =>
    change Scalar (Value.div l r)
    unfold Value.div
    split
    · split <;> trivial
    · trivial
  | _ =>
    refine Value.scalar_onNumbers ?_ l r
    exact fun _ _ => trivial

theorem Builtin.scalar_apply (time : Float) (b : Builtin) (args : List Value) :
    Scalar (b.apply time args) := by
  unfold Builtin.apply
  split <;> trivial

end Lox
