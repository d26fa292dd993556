import Lox.Store

/-!
A listing of a scope for a reader: one line for each frame, the innermost first, numbered from the
root, with the frame's bindings in the order of their names. The root is only named.
-/

namespace Lox.Store

/-- A frame's number, in at least two columns. -/
def frameLabel (index : Nat) : String :=
  let digits := toString index
  (if digits.length < 2 then " " ++ digits else digits) ++ ": "

/-- The bindings of a frame on one line. -/
def bindingsText (b : Bindings) : String :=
  if b.isEmpty then "<empty>"
  else "; ".intercalate (b.sorted.map fun e => e.1 ++ " = " ++ e.2.text)

/-- The lines for some frames, the last of which is the root. -/
def frameLines (s : Store) : List FrameId → List String
  | [] => []
  | [_] => [frameLabel 0 ++ "BUILTINS"]
  | f :: rest => (frameLabel rest.length ++ bindingsText (s.frame f)) :: s.frameLines rest

/-- The listing of a scope. -/
def listing (s : Store) (scope : Scope) : String := "\n".intercalate (s.frameLines scope.chain)

end Lox.Store
