/-!
How a computation on a state ends: with a value, with an error, or by running out of fuel. The first
two come with the state at that point. Running out of fuel is no result: with more fuel the same
computation may end in either of the other ways.
-/

namespace Lox

/-- The end of a computation. -/
inductive Outcome (ε σ α : Type) where
  | ok (value : α) (state : σ)
  | error (e : ε) (state : σ)
  | outOfFuel

end Lox
