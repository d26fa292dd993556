import Lox.Eval

/-!
Runs that keep a record of what they print.

A traced computation does what the computation does and notes, for each line that is printed, the
store in which it is printed: the one that evaluating the operand has left. The evaluator is written
once more on traced computations (`Traced.evalExpr` and the others); that it does the same is
`evalRecords` in `Lox.Proofs.Output.Records`.
-/

namespace Lox

/-- A line that is printed, and the store just before. -/
structure Printed where
  before : Store
  line : String

/-- A computation with the lines that it prints, in order. -/
abbrev Traced (α : Type) := Store → List Printed × Outcome RuntimeError Store α

namespace Traced

/-- A computation that prints nothing. -/
def silent {α : Type} (x : Run α) : Traced α := fun s => ([], x s)

/-- Run a computation, then the one its value selects. -/
def andThen {α β : Type} (x : Traced α) (f : α → Traced β) : Traced β := fun s =>
  match x s with
  | (lines, .ok a s) => (lines ++ (f a s).1, (f a s).2)
  | (lines, .error e s) => (lines, .error e s)
  | (lines, .outOfFuel) => (lines, .outOfFuel)

instance : Monad Traced where
  pure a := silent (Run.succeed a)
  bind := andThen

/-- Write a line to the output, and note it. -/
def printLine (text : String) : Traced Unit := fun s => ([⟨s, text ++ "\n"⟩], Run.printLine text s)

/-- Evaluate expressions from left to right. -/
def values (eval : Expr → Traced Value) : List Expr → Traced (List Value)
  | [] => pure []
  | e :: rest => do
    let v ← eval e
    let vs ← values eval rest
    pure (v :: vs)

/-- Execute statements in order, up to the first `return`. -/
def statements (exec : Stmt → Traced Flow) : List Stmt → Traced Flow
  | [] => pure .normal
  | s :: rest => do
    match ← exec s with
    | .normal => statements exec rest
    | .return v => pure (.return v)

/-- Repeat a body while a condition holds, up to a `return`; at most as often as there is fuel. -/
def loop (cond : Traced Value) (body : Traced Flow) : Nat → Traced Flow
  | 0 => silent Run.exhausted
  | fuel + 1 => do
    let c ← cond
    if c.isTruthy then
      match ← body with
      | .normal => loop cond body fuel
      | .return v => pure (.return v)
    else pure .normal

mutual

/-- Evaluate an expression. -/
def evalExpr (host : Host) : Nat → Scope → Expr → Traced Value
  | 0, _, _ => silent Run.exhausted
  | fuel + 1, scope, e => do
    match e with
    | .unary op operand =>
      let v ← evalExpr host fuel scope operand
      silent (Run.ofExcept (op.apply v))
    | .binary op left right =>
      let l ← evalExpr host fuel scope left
      let r ← evalExpr host fuel scope right
      silent (Run.ofExcept (op.apply l r))
    | .logic op left right =>
      let l ← evalExpr host fuel scope left
      if op.stopsAt l then pure l else evalExpr host fuel scope right
    | .group e => evalExpr host fuel scope e
    | .assign name value =>
      let v ← evalExpr host fuel scope value
      silent (Run.assign scope name v)
      pure v
    | .call callee args =>
      let c ← evalExpr host fuel scope callee
      let vs ← values (evalExpr host fuel scope) args
      call host fuel c vs
    | .get object name =>
      let o ← evalExpr host fuel scope object
      silent (Run.getProperty o name)
    | .set object name value =>
      let o ← evalExpr host fuel scope object
      let v ← evalExpr host fuel scope value
      silent (Run.setProperty o name v)
      pure v
    | .nil => pure .nil
    | .number x => pure (.number x.toFloat)
    | .bool b => pure (.bool b)
    | .string s => pure (.string s)
    | .var name => silent (Run.get scope name)
    | .this => silent (Run.get scope thisName)
    | .super method => silent (Run.getSuperMethod scope method)

/-- Call a value. -/
def call (host : Host) : Nat → Value → List Value → Traced Value
  | 0, _, _ => silent Run.exhausted
  | fuel + 1, callee, args => do
    match callee with
    | .function _ f =>
      silent (Run.checkArity f.decl.name f.arity args)
      callClosure host fuel f args
    | .native f =>
      silent (Run.checkArity f.name f.arity args)
      match f.body with
      | .builtin b => silent (Run.callBuiltin host b args)
      | .supplied index => silent (Run.ofExcept (host.supplied index args))
    | .cls c =>
      silent (Run.checkArity c.name (c.arity initializerName) args)
      let o ← silent (Run.change (·.newObject c))
      match c.method? initializerName with
      | some method =>
        let bound ← silent (Run.bindMethod method o)
        let _ ← callClosure host fuel bound args
        pure (.object o)
      | none => pure (.object o)
    | v => silent (Run.fail (.notCallable v.kind))

/-- Run the body of a function with its parameters bound. -/
def callClosure (host : Host) : Nat → Closure → List Value → Traced Value
  | 0, _, _ => silent Run.exhausted
  | fuel + 1, f, args => do
    let frame ← silent (Run.push f.scope (.ofList (f.decl.params.zip args)))
    let flow ← statements (exec host fuel frame) f.decl.body
    if f.isInitializer then silent (Run.get f.scope thisName)
    else
      match flow with
      | .normal => pure .nil
      | .return v => pure v

/-- Execute a statement. Only a `print` notes a line. -/
def exec (host : Host) : Nat → Scope → Stmt → Traced Flow
  | 0, _, _ => silent Run.exhausted
  | fuel + 1, scope, stmt => do
    match stmt with
    | .nop => pure .normal
    | .expr e =>
      let _ ← evalExpr host fuel scope e
      pure .normal
    | .print e =>
      let v ← evalExpr host fuel scope e
      printLine v.text
      pure .normal
    | .varDecl name init =>
      let v ← evalExpr host fuel scope init
      silent (Run.define scope name v)
      pure .normal
    | .funDecl decl =>
      let f ← silent (Run.newFunction ⟨decl, scope, false⟩)
      silent (Run.define scope decl.name f)
      pure .normal
    | .classDecl decl =>
      silent (Run.declareClass scope decl)
      pure .normal
    | .block body =>
      let inner ← silent (Run.push scope [])
      statements (exec host fuel inner) body
    | .ite cond thenBranch elseBranch =>
      let c ← evalExpr host fuel scope cond
      if c.isTruthy then exec host fuel scope thenBranch else exec host fuel scope elseBranch
    | .while cond body =>
      loop (evalExpr host fuel scope cond) (exec host fuel scope body) fuel
    | .for init cond incr body => exec host fuel scope (.ofFor init cond incr body.desugar)
    | .return value =>
      let v ← evalExpr host fuel scope value
      pure (.return v)

end

/-- Execute the statements of a program in order, outside all functions. -/
def execProgram (host : Host) (fuel : Nat) (scope : Scope) (last : Value) :
    List Stmt → Traced Value
  | [] => pure last
  | .expr e :: rest => do
    let v ← evalExpr host fuel scope e
    execProgram host fuel scope v rest
  | stmt :: rest => do
    match ← exec host fuel scope stmt with
    | .normal => execProgram host fuel scope .nil rest
    | .return _ => silent (Run.fail .returnOutsideFunction)

end Traced

end Lox
