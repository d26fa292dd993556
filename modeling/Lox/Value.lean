import Lox.Number.Text
import Lox.Stmt

/-!
The values a program computes with.

Functions, classes and instances are compared by identity. A function or class carries the number
it was given when it was made, an instance the address of its fields; everything else about them is
fixed when they are made, so values hold it directly. Only the frames of a scope and the fields of
an instance change, and those are in the store.
-/

namespace Lox

/-- The number of a frame in the store. -/
abbrev FrameId := Nat

/-- A scope: the frame in which names are bound, and the frames around it, nearest first. The last
frame of all is the root, and the one before it the global frame. -/
structure Scope where
  frame : FrameId
  outer : List FrameId
  deriving DecidableEq, Repr

namespace Scope

/-- The frames in which a name is looked up, innermost first. -/
def chain (s : Scope) : List FrameId := s.frame :: s.outer

/-- Whether the scope is the root frame alone. -/
def isRoot (s : Scope) : Bool := s.outer.isEmpty

/-- Whether the scope is a global frame: the only frame around it is the root. -/
def isGlobal (s : Scope) : Bool := s.outer.length == 1

end Scope

/-- How many arguments a callable value takes. -/
inductive Arity where
  | exactly (n : Nat)
  | atLeast (n : Nat)
  deriving DecidableEq, Repr

/-- Whether a number of arguments is acceptable. -/
def Arity.accepts : Arity → Nat → Bool
  | .exactly n, count => count == n
  | .atLeast n, count => n ≤ count

/-- An arity as a message shows it. -/
def Arity.text : Arity → String
  | .exactly n => toString n
  | .atLeast n => "at least " ++ toString n

/-- The functions that every program finds defined. -/
inductive Builtin where
  | clock
  | sqrt
  | max
  deriving DecidableEq, Repr

/-- What runs when a native function is called: a builtin, or one of the functions supplied from
outside, by its number. -/
inductive NativeBody where
  | builtin (b : Builtin)
  | supplied (index : Nat)
  deriving DecidableEq, Repr

/-- A function that is not written in the language. Of supplied functions, two that are to differ are
given different numbers. -/
structure Native where
  id : Nat
  name : String
  arity : Arity
  body : NativeBody
  deriving DecidableEq, Repr

/-- A declared function or method together with the scope it was declared in. -/
structure Closure where
  decl : FunctionDecl
  scope : Scope
  isInitializer : Bool

/-- One class declaration that has been run: its name and its methods in the order they are
written. -/
structure ClassBody where
  id : Nat
  name : Name
  methods : List Closure

/-- A class: its own declaration, and those of its superclass, of the superclass's superclass and
so on. -/
structure Class where
  body : ClassBody
  ancestors : List ClassBody

/-- An instance: the class it was made from and the address of its fields. -/
structure Object where
  cls : Class
  address : Nat

/-- A value. -/
inductive Value where
  | nil
  | bool (b : Bool)
  | number (x : Float)
  | string (s : String)
  | function (id : Nat) (closure : Closure)
  | native (f : Native)
  | cls (c : Class)
  | object (o : Object)
  deriving Inhabited

/-- How many arguments a function takes. -/
def Closure.arity (f : Closure) : Arity := .exactly f.decl.params.length

namespace ClassBody

/-- The method that a declaration defines under a name; the last one counts. -/
def method? (c : ClassBody) (name : Name) : Option Closure :=
  (c.methods.filter (·.decl.name = name)).getLast?

end ClassBody

namespace Class

/-- The name of a class. -/
def name (c : Class) : Name := c.body.name

/-- A class followed by its ancestors, nearest first. -/
def lineage (c : Class) : List ClassBody := c.body :: c.ancestors

/-- The superclass, if there is one. -/
def superclass? (c : Class) : Option Class :=
  match c.ancestors with
  | [] => none
  | body :: ancestors => some ⟨body, ancestors⟩

/-- The method under a name of the nearest class, from this one upwards, that defines it. -/
def method? (c : Class) (name : Name) : Option Closure :=
  c.lineage.findSome? (·.method? name)

/-- The number of arguments that making an instance takes: that of the initializer, none without
one. -/
def arity (c : Class) (initializer : Name) : Arity :=
  match c.method? initializer with
  | some init => init.arity
  | none => .exactly 0

end Class

/-- The kinds of values that messages tell apart. -/
inductive Kind where
  | nil
  | boolean
  | number
  | string
  | function
  | cls
  | object
  deriving DecidableEq, Repr

/-- The name of a kind. -/
def Kind.name : Kind → String
  | .nil => "nil"
  | .boolean => "boolean"
  | .number => "number"
  | .string => "string"
  | .function => "function"
  | .cls => "class"
  | .object => "instance"

namespace Value

/-- The kind of a value. -/
def kind : Value → Kind
  | .nil => .nil
  | .bool _ => .boolean
  | .number _ => .number
  | .string _ => .string
  | .function _ _ => .function
  | .native _ => .function
  | .cls _ => .cls
  | .object _ => .object

/-- Everything but `nil` and `false` counts as true. -/
def isTruthy : Value → Bool
  | .nil => false
  | .bool b => b
  | _ => true

/-- The text that `print` writes for a value. -/
def text : Value → String
  | .nil => "nil"
  | .bool true => "true"
  | .bool false => "false"
  | .number x => Number.text (.ofFloat x)
  | .string s => s
  | .function _ f => "<fn " ++ f.decl.name ++ ">"
  | .native _ => "<native fn>"
  | .cls c => c.name
  | .object o => o.cls.name ++ " instance"

/-- Equality of values: of numbers as IEEE 754 has it, of strings by their contents, of functions,
classes and instances by identity. Values of different kinds differ. -/
def equals : Value → Value → Bool
  | .nil, .nil => true
  | .bool a, .bool b => a == b
  | .number a, .number b => a == b
  | .string a, .string b => a == b
  | .function a _, .function b _ => a == b
  | .native a, .native b => a == b
  | .cls a, .cls b => a.body.id == b.body.id
  | .object a, .object b => a.address == b.address
  | _, _ => false

end Value

end Lox
