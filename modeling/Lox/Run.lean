import Lox.Store

/-!
Computations on a store, and how they are put together: a value is passed on with the store as it
is at that point, an error or a lack of fuel ends the whole. An error undoes nothing.
-/

namespace Lox

/-- A computation that may change the store or fail. -/
abbrev Run (α : Type) := Store → Outcome RuntimeError Store α

namespace Run

/-- Give a value and change nothing. -/
@[always_inline, inline] def succeed {α : Type} (a : α) : Run α := fun s => .ok a s

/-- Run a computation, then the one its value selects. -/
@[always_inline, inline] def andThen {α β : Type} (x : Run α) (f : α → Run β) : Run β := fun s =>
  match x s with
  | .ok a s => f a s
  | .error e s => .error e s
  | .outOfFuel => .outOfFuel

instance : Monad Run where
  pure := succeed
  bind := andThen

/-- Fail and change nothing. -/
@[always_inline, inline] def fail {α : Type} (e : RuntimeError) : Run α := fun s => .error e s

/-- Run out of fuel. -/
@[always_inline, inline] def exhausted {α : Type} : Run α := fun _ => .outOfFuel

/-- The value of a check that needs no store. -/
@[always_inline, inline] def ofExcept {α : Type} (x : Except RuntimeError α) : Run α := fun s =>
  match x with
  | .ok a => .ok a s
  | .error e => .error e s

/-- Read the store. -/
@[always_inline, inline] def read {α : Type} (f : Store → α) : Run α := fun s => .ok (f s) s

/-- Change the store and give a value. -/
@[always_inline, inline] def change {α : Type} (f : Store → α × Store) : Run α := fun s =>
  let (a, s) := f s
  .ok a s

/-- Write a line to the output. If it does not fit, what fits of it is written. -/
def printLine (text : String) : Run Unit := fun s =>
  let line := text ++ "\n"
  if s.output.fits line then .ok () (s.write line) else .error .outputFull (s.write line)

end Run

end Lox
