import Lox.Eval
import Lox.Parse.Program
import Lox.Store.Listing

/-!
A session: an interpreter that runs programs one after the other in the same global scope, so that
each program sees what the ones before it defined.

A program goes through three phases, and each can reject it: it is parsed, its rules are checked,
and it is run. Only the last phase changes the session.
-/

namespace Lox

/-- Why a program was not carried out to its end. -/
inductive Failure where
  | syntactic (e : SyntaxError)
  | semantic (e : SemanticError)
  | runtime (e : RuntimeError)
  deriving DecidableEq

/-- The text of a failure. -/
def Failure.message : Failure → String
  | .syntactic e => e.message
  | .semantic e => e.message
  | .runtime e => e.message

/-- An interpreter with what was defined so far. -/
structure Session where
  host : Host
  /-- The global scope, inside the scope of the builtins. -/
  scope : Scope
  store : Store

namespace Session

/-- The bindings that every session starts with. -/
def builtins : Bindings := .ofList (Builtin.all.map fun b => (b.name, .native b.toNative))

/-- A session in which nothing is defined but the builtins. -/
def new (host : Host) (limit : Option Nat) : Session :=
  let (root, store) := (Store.empty limit).newRoot builtins
  let (scope, store) := store.push root []
  ⟨host, scope, store⟩

/-- Bind a name in the global scope. -/
def bind (s : Session) (name : Name) (value : Value) : Session :=
  { s with store := s.store.bind s.scope.frame name value }

/-- A session that starts with some globals, bound in order, besides the builtins. -/
def withGlobals (host : Host) (limit : Option Nat) (globals : List (Name × Value)) : Session :=
  globals.foldl (fun s g => s.bind g.1 g.2) (new host limit)

/-- Carry out a computation on the store of a session. -/
def perform {α : Type} : Session → Run α → Outcome Failure Session α
  | ⟨host, scope, store⟩, x =>
    match x store with
    | .ok a store => .ok a ⟨host, scope, store⟩
    | .error e store => .error (.runtime e) ⟨host, scope, store⟩
    | .outOfFuel => .outOfFuel

/-- Parse a program. -/
def parse (text : String) : Except Failure Program :=
  match parseProgram text with
  | .ok stmts => .ok (.ofStmts stmts)
  | .error e => .error (.syntactic e)

/-- Check a program and run it. -/
def run (fuel : Nat) (program : Program) (s : Session) : Outcome Failure Session Value :=
  match program.check with
  | .ok () => s.perform (execProgram s.host fuel s.scope .nil program.stmts)
  | .error e => .error (.semantic e) s

/-- Parse a program, check it and run it. -/
def eval (fuel : Nat) (text : String) (s : Session) : Outcome Failure Session Value :=
  match parse text with
  | .ok program => s.run fuel program
  | .error e => .error e s

/-- Parse an expression, check it and evaluate it in the global scope. -/
def evalExpression (fuel : Nat) (text : String) (s : Session) : Outcome Failure Session Value :=
  match parseExpression text with
  | .ok e =>
    match e.check with
    | .ok () => s.perform (evalExpr s.host fuel s.scope e)
    | .error e => .error (.semantic e) s
  | .error e => .error (.syntactic e) s

/-- The value of a name in the global scope, builtins included. -/
def global? (s : Session) (name : Name) : Option Value :=
  s.store.lookup? name s.scope.chain

/-- The bindings of the global frame, in the order of their names. -/
def globals (s : Session) : List (Name × Value) := (s.store.own s.scope).sorted

/-- A listing of the global scope. -/
def listing (s : Session) : String := s.store.listing s.scope

/-- The field of an instance bound to a global name. -/
def field? (s : Session) (name field : Name) : Option Value :=
  match s.global? name with
  | some (.object o) => (s.store.fieldsOf o).get? field
  | _ => none

/-- Whether two globals are equal. Two unbound names are. -/
def same (s : Session) (a b : Name) : Bool :=
  match s.global? a, s.global? b with
  | some x, some y => x.equals y
  | none, none => true
  | _, _ => false

/-- Write a text to the output of a session. -/
def write (s : Session) (text : String) : Session := { s with store := s.store.write text }

/-- The bytes written to the output so far. -/
def written (s : Session) : ByteArray := s.store.output.bytes

end Session

end Lox
