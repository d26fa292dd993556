import Lox.Session

/-!
A closer look at functions, classes and instances than `print` gives. The names that appear are
identifiers, so that nothing in them needs escaping.
-/

namespace Lox

namespace Inspect

/-- A name as a symbol. -/
def symbol (name : Name) : String := "Symbol(\"" ++ name ++ "\")"

/-- Several names, in the order given. -/
def symbols (names : List Name) : String := "[" ++ ", ".intercalate (names.map symbol) ++ "]"

/-- Names in order, each once. -/
def sortedNames (names : List Name) : List Name := names.eraseDups.mergeSort (fun x y => x ≤ y)

/-- An arity. -/
def arity : Arity → String
  | .exactly n => "Exactly(" ++ toString n ++ ")"
  | .atLeast n => "AtLeast(" ++ toString n ++ ")"

/-- A record: its type and its fields. -/
def record (type : String) (fields : List (String × String)) : String :=
  type ++ " \x7b " ++ ", ".intercalate (fields.map fun f => f.1 ++ ": " ++ f.2) ++ " \x7d"

/-- A function or method. -/
def function (f : Closure) : String :=
  record "LoxFunction" [("name", symbol f.decl.name), ("params", symbols f.decl.params),
    ("is_initializer", if f.isInitializer then "true" else "false")]

/-- A native function. -/
def nativeFunction (f : Native) : String :=
  record "NativeFunction" [("name", "\"" ++ f.name ++ "\""), ("arity", arity f.arity)]

/-- A class, with the methods of its own. -/
def cls (c : Class) : String :=
  let parent := match c.superclass? with
    | some s => "Some(" ++ symbol s.name ++ ")"
    | none => "None"
  record "LoxClass" [("name", symbol c.name), ("superclass", parent),
    ("methods", symbols (sortedNames (c.body.methods.map (·.decl.name))))]

/-- An instance with its fields. -/
def object (o : Object) (fields : Bindings) : String :=
  record "LoxInstance" [("class", symbol o.cls.name),
    ("fields", symbols (sortedNames fields.names))]

/-- A function, class or instance. -/
def value? (s : Store) : Value → Option String
  | .function _ f => some ("Function(" ++ function f ++ ")")
  | .native f => some ("Native(" ++ nativeFunction f ++ ")")
  | .cls c => some ("Class(" ++ cls c ++ ")")
  | .object o => some ("Instance(" ++ object o (s.fieldsOf o) ++ ")")
  | _ => none

end Inspect

/-- A closer look at a global, if it is a function, a class or an instance. -/
def Session.inspect? (s : Session) (name : Name) : Option String :=
  (s.global? name).bind (Inspect.value? s.store)

end Lox
