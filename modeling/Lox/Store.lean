import Lox.Bindings
import Lox.Outcome
import Lox.Output
import Lox.RuntimeError

/-!
What a running program changes: the frames of its scopes, the fields of its instances, and its
output. Frames and instances are numbered in the order they are made and never removed; functions
and classes take their identity from a counter. A second counter tells apart the moments at which
builtins are called.

A name is looked up frame by frame along a scope. Assignment changes the nearest binding and never
makes one. A definition binds in the innermost frame; it may replace a binding only in the root and
global frames.
-/

namespace Lox

/-- The state of a running program. -/
structure Store where
  frames : Array Bindings
  fields : Array Bindings
  nextId : Nat
  moment : Nat
  output : Output

namespace Store

/-- A store with no frames and no instances. -/
def empty (limit : Option Nat) : Store := ⟨#[], #[], 0, 0, .empty limit⟩

/-! ### Frames -/

/-- The bindings of a frame. -/
def frame (s : Store) (f : FrameId) : Bindings := s.frames[f]?.getD []

/-- Bind a name in a frame, in place of an earlier binding. -/
def bind (s : Store) (f : FrameId) (name : Name) (value : Value) : Store :=
  { s with frames := s.frames.modify f (Bindings.insert name value) }

/-- Make a frame that nothing is around. -/
def newRoot (s : Store) (bindings : Bindings) : Scope × Store :=
  (⟨s.frames.size, []⟩, { s with frames := s.frames.push bindings })

/-- Make a frame inside a scope. -/
def push (s : Store) (scope : Scope) (bindings : Bindings) : Scope × Store :=
  (⟨s.frames.size, scope.chain⟩, { s with frames := s.frames.push bindings })

/-- The nearest of some frames that binds a name. -/
def binder? (s : Store) (name : Name) (chain : List FrameId) : Option FrameId :=
  chain.find? (fun f => (s.frame f).contains name)

/-- The value of a name in the nearest of some frames that binds it. -/
def lookup? (s : Store) (name : Name) : List FrameId → Option Value
  | [] => none
  | f :: rest =>
    match (s.frame f).get? name with
    | some value => some value
    | none => s.lookup? name rest

/-- The value of a name in a scope. -/
def get (s : Store) (scope : Scope) (name : Name) : Outcome RuntimeError Store Value :=
  match s.lookup? name scope.chain with
  | some value => .ok value s
  | none => .error (.undefinedName name) s

/-- Give a name a new value where it is bound nearest. -/
def assign (s : Store) (scope : Scope) (name : Name) (value : Value) :
    Outcome RuntimeError Store Unit :=
  match s.binder? name scope.chain with
  | some f => .ok () (s.bind f name value)
  | none => .error (.undefinedName name) s

/-- Bind a name in the innermost frame of a scope. -/
def define (s : Store) (scope : Scope) (name : Name) (value : Value) :
    Outcome RuntimeError Store Unit :=
  if !(scope.isRoot || scope.isGlobal) && (s.frame scope.frame).contains name then
    .error (.duplicateDefinition name) s
  else .ok () (s.bind scope.frame name value)

/-- Whether a name is bound in a scope. -/
def contains (s : Store) (scope : Scope) (name : Name) : Bool :=
  scope.chain.any (fun f => (s.frame f).contains name)

/-- The bindings of a scope's innermost frame. -/
def own (s : Store) (scope : Scope) : Bindings := s.frame scope.frame

/-- All bindings visible in a scope, built from the outermost frame inwards; nearer ones hide outer
ones. -/
def visible (s : Store) (scope : Scope) : Bindings :=
  scope.chain.foldr (fun f outer => (s.frame f).foldl (fun b e => b.insert e.1 e.2) outer) []

/-! ### Instances and identity -/

/-- Make an instance without fields. -/
def newObject (s : Store) (cls : Class) : Object × Store :=
  (⟨cls, s.fields.size⟩, { s with fields := s.fields.push [] })

/-- The fields of an instance. -/
def fieldsOf (s : Store) (o : Object) : Bindings := s.fields[o.address]?.getD []

/-- Give a field of an instance a value. -/
def setField (s : Store) (o : Object) (name : Name) (value : Value) : Store :=
  { s with fields := s.fields.modify o.address (Bindings.insert name value) }

/-- A number not given to a function or class before. -/
def freshId (s : Store) : Nat × Store := (s.nextId, { s with nextId := s.nextId + 1 })

/-! ### Time -/

/-- The present moment, which passes. -/
def passMoment (s : Store) : Nat × Store := (s.moment, { s with moment := s.moment + 1 })

/-! ### Output -/

/-- Write a text to the output. -/
def write (s : Store) (text : String) : Store := { s with output := s.output.write text }

end Store

end Lox
