import Lox.Session.Inspect

/-!
A session driven step by step: programs are run, parsed and kept, and the session is asked what it
holds. Each step has an answer.
-/

namespace Lox

/-- A step of a script. Parsed programs are kept under the name of a slot. -/
inductive Step where
  | eval (text : String)
  | expression (text : String)
  | parse (slot : String) (text : String)
  | run (slot : String)
  | global (name : Name)
  | globals
  | listing
  | inspect (name : Name)
  | field (name field : Name)
  | same (a b : Name)
  deriving DecidableEq, Repr

/-- The answer to a step. -/
inductive Answer where
  /-- What a program gave and what it wrote. -/
  | result (r : Except Failure Value) (written : ByteArray)
  /-- How many statements a parsed program has. -/
  | parsed (r : Except Failure Nat)
  /-- No program is kept under the slot. -/
  | unknownSlot
  | global (value : Option Value)
  | globals (entries : List (Name × Value))
  | listing (text : String)
  | inspected (text : Option String)
  | field (value : Option Value)
  | same (equal : Bool)

/-- A session and the programs kept so far, the latest first. -/
structure Script where
  session : Session
  slots : List (String × Program)

namespace Script

/-- A script at its start. -/
def start (session : Session) : Script := ⟨session, []⟩

/-- The answer and the script after a program has been run in a session that had written a number of
bytes before. -/
def finish (slots : List (String × Program)) (before : Nat) :
    Outcome Failure Session Value → Option (Answer × Script)
  | .ok v session =>
    some (.result (.ok v) (session.written.extract before session.written.size), ⟨session, slots⟩)
  | .error e session =>
    some (.result (.error e) (session.written.extract before session.written.size),
      ⟨session, slots⟩)
  | .outOfFuel => none

/-- Take a step. There is no answer if the fuel does not suffice. -/
def step (fuel : Nat) : Script → Step → Option (Answer × Script)
  | ⟨session, slots⟩, .eval text =>
    finish slots session.written.size (session.eval fuel text)
  | ⟨session, slots⟩, .expression text =>
    finish slots session.written.size (session.evalExpression fuel text)
  | ⟨session, slots⟩, .parse slot text =>
    match Session.parse text with
    | .ok program =>
      some (.parsed (.ok program.stmts.length), ⟨session, (slot, program) :: slots⟩)
    | .error e => some (.parsed (.error e), ⟨session, slots⟩)
  | ⟨session, slots⟩, .run slot =>
    match slots.lookup slot with
    | some program => finish slots session.written.size (session.run fuel program)
    | none => some (.unknownSlot, ⟨session, slots⟩)
  | s, .global name => some (.global (s.session.global? name), s)
  | s, .globals => some (.globals s.session.globals, s)
  | s, .listing => some (.listing s.session.listing, s)
  | s, .inspect name => some (.inspected (s.session.inspect? name), s)
  | s, .field name field => some (.field (s.session.field? name field), s)
  | s, .same a b => some (.same (s.session.same a b), s)

/-- Take steps in order. -/
def run (fuel : Nat) (s : Script) : List Step → Option (List Answer × Script)
  | [] => some ([], s)
  | step :: rest =>
    match s.step fuel step with
    | some (answer, s) =>
      match s.run fuel rest with
      | some (answers, s) => some (answer :: answers, s)
      | none => none
    | none => none

end Script

end Lox
