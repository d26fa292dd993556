import Lox.Check
import Lox.Operator
import Lox.Run

/-!
Running programs.

Expressions are evaluated and statements executed in a scope, on a store. Functions keep the scope
they were declared in, and a call runs the body in a frame inside that scope, not inside the
caller's. A method is bound to its instance by a frame that holds `this`; the methods of a class
with a superclass are declared inside a frame that holds `super`.

Fuel bounds the nesting of evaluation and the number of iterations of each loop. It is not part of
the language: running out of it is neither a result nor an error.
-/

namespace Lox

/-- What a program is given from outside: the time at each moment, in seconds, and the functions
supplied to it. -/
structure Host where
  time : Nat → Float
  supplied : Nat → List Value → Except RuntimeError Value

/-- How a statement completes: normally, or by a `return` on its way to the innermost call. -/
inductive Flow where
  | normal
  | return (value : Value)

/-- The name of the instance a method runs on. -/
def thisName : Name := "this"

/-- The name of the superclass of the class a method belongs to. -/
def superName : Name := "super"

namespace Run

/-- The value of a name. -/
def get (scope : Scope) (name : Name) : Run Value := fun s => s.get scope name

/-- Give a bound name a new value. -/
def assign (scope : Scope) (name : Name) (value : Value) : Run Unit := fun s =>
  s.assign scope name value

/-- Bind a name. -/
def define (scope : Scope) (name : Name) (value : Value) : Run Unit := fun s =>
  s.define scope name value

/-- A scope inside another one. -/
def push (scope : Scope) (bindings : Bindings) : Run Scope := change (·.push scope bindings)

/-- A function value of its own identity. -/
def newFunction (f : Closure) : Run Value := do
  let id ← change Store.freshId
  succeed (.function id f)

/-- A method as a function of an instance: its scope sees the instance as `this`. -/
def bindMethod (method : Closure) (o : Object) : Run Closure := do
  let scope ← push method.scope [(thisName, .object o)]
  succeed { method with scope }

/-- The property of a value: a field of an instance, or else a method bound to it. -/
def getProperty (value : Value) (name : Name) : Run Value := do
  match value with
  | .object o =>
    match ← read (fun s => (s.fieldsOf o).get? name) with
    | some v => succeed v
    | none =>
      match o.cls.method? name with
      | some method =>
        let bound ← bindMethod method o
        newFunction bound
      | none => fail (.undefinedProperty o.cls.name name)
  | v => fail (.typeMismatch .propertyOwner [v.kind])

/-- Write a field of a value, which has to be an instance. -/
def setProperty (owner : Value) (name : Name) (value : Value) : Run Unit := do
  match owner with
  | .object o => change (fun s => ((), s.setField o name value))
  | v => fail (.typeMismatch .fieldOwner [v.kind])

/-- A method of the superclass, bound to the current instance. -/
def getSuperMethod (scope : Scope) (name : Name) : Run Value := do
  let parent ← get scope superName
  let this ← get scope thisName
  match parent, this with
  | .cls c, .object o =>
    match c.method? name with
    | some method =>
      let bound ← bindMethod method o
      newFunction bound
    | none => fail (.undefinedProperty c.name name)
  | parent, _ => fail (.typeMismatch .superBinding [parent.kind])

/-- The class a declaration names as superclass. -/
def superclassOf (scope : Scope) : Option Name → Run (Option Class)
  | none => succeed none
  | some name => do
    match ← get scope name with
    | .cls c => succeed (some c)
    | v => fail (.typeMismatch .superclass [v.kind])

/-- The scope of the methods of a class: with a superclass, a frame that holds it as `super`. -/
def methodScope (scope : Scope) : Option Class → Run Scope
  | none => succeed scope
  | some c => push scope [(superName, .cls c)]

/-- Run a class declaration. -/
def declareClass (scope : Scope) (decl : ClassDecl) : Run Unit := do
  let parent ← superclassOf scope decl.superclass
  let inner ← methodScope scope parent
  let methods := decl.methods.map fun m => ⟨m, inner, m.name = initializerName⟩
  let id ← change Store.freshId
  let ancestors := match parent with
    | some c => c.lineage
    | none => []
  define scope decl.name (.cls ⟨⟨id, decl.name, methods⟩, ancestors⟩)

/-- Check the number of arguments of a call. -/
def checkArity (name : String) (arity : Arity) (args : List Value) : Run Unit :=
  if arity.accepts args.length then succeed () else fail (.arity name arity args.length)

/-- Call a builtin. Each call has a moment of its own. -/
def callBuiltin (host : Host) (b : Builtin) (args : List Value) : Run Value := do
  let moment ← change Store.passMoment
  ofExcept (b.apply (host.time moment) args)

/-- Evaluate expressions from left to right. -/
def values (eval : Expr → Run Value) : List Expr → Run (List Value)
  | [] => succeed []
  | e :: rest => do
    let v ← eval e
    let vs ← values eval rest
    succeed (v :: vs)

/-- Execute statements in order, up to the first `return`. -/
def statements (exec : Stmt → Run Flow) : List Stmt → Run Flow
  | [] => succeed .normal
  | s :: rest => do
    match ← exec s with
    | .normal => statements exec rest
    | .return v => succeed (.return v)

/-- Repeat a body while a condition holds, up to a `return`; at most as often as there is fuel. -/
def loop (cond : Run Value) (body : Run Flow) : Nat → Run Flow
  | 0 => exhausted
  | fuel + 1 => do
    let c ← cond
    if c.isTruthy then
      match ← body with
      | .normal => loop cond body fuel
      | .return v => succeed (.return v)
    else succeed .normal

end Run

open Run

mutual

/-- Evaluate an expression. -/
def evalExpr (host : Host) : Nat → Scope → Expr → Run Value
  | 0, _, _ => exhausted
  | fuel + 1, scope, e => do
    match e with
    | .nil => succeed .nil
    | .number x => succeed (.number x.toFloat)
    | .bool b => succeed (.bool b)
    | .string s => succeed (.string s)
    | .var name => get scope name
    | .unary op operand =>
      let v ← evalExpr host fuel scope operand
      ofExcept (op.apply v)
    | .binary op left right =>
      let l ← evalExpr host fuel scope left
      let r ← evalExpr host fuel scope right
      ofExcept (op.apply l r)
    | .logic op left right =>
      let l ← evalExpr host fuel scope left
      if op.stopsAt l then succeed l else evalExpr host fuel scope right
    | .group e => evalExpr host fuel scope e
    | .assign name value =>
      let v ← evalExpr host fuel scope value
      assign scope name v
      succeed v
    | .call callee args =>
      let c ← evalExpr host fuel scope callee
      let vs ← values (evalExpr host fuel scope) args
      call host fuel c vs
    | .get object name =>
      let o ← evalExpr host fuel scope object
      getProperty o name
    | .set object name value =>
      let o ← evalExpr host fuel scope object
      let v ← evalExpr host fuel scope value
      setProperty o name v
      succeed v
    | .this => get scope thisName
    | .super method => getSuperMethod scope method

/-- Call a value. -/
def call (host : Host) : Nat → Value → List Value → Run Value
  | 0, _, _ => exhausted
  | fuel + 1, callee, args => do
    match callee with
    | .function _ f =>
      checkArity f.decl.name f.arity args
      callClosure host fuel f args
    | .native f =>
      checkArity f.name f.arity args
      match f.body with
      | .builtin b => callBuiltin host b args
      | .supplied index => ofExcept (host.supplied index args)
    | .cls c =>
      checkArity c.name (c.arity initializerName) args
      let o ← change (·.newObject c)
      match c.method? initializerName with
      | some method =>
        let bound ← bindMethod method o
        let _ ← callClosure host fuel bound args
        succeed (.object o)
      | none => succeed (.object o)
    | v => fail (.notCallable v.kind)

/-- Run the body of a function with its parameters bound. An initializer gives its instance, however
its body completes. -/
def callClosure (host : Host) : Nat → Closure → List Value → Run Value
  | 0, _, _ => exhausted
  | fuel + 1, f, args => do
    let frame ← push f.scope (.ofList (f.decl.params.zip args))
    let flow ← statements (exec host fuel frame) f.decl.body
    if f.isInitializer then get f.scope thisName
    else
      match flow with
      | .normal => succeed .nil
      | .return v => succeed v

/-- Execute a statement. -/
def exec (host : Host) : Nat → Scope → Stmt → Run Flow
  | 0, _, _ => exhausted
  | fuel + 1, scope, stmt => do
    match stmt with
    | .nop => succeed .normal
    | .expr e =>
      let _ ← evalExpr host fuel scope e
      succeed .normal
    | .print e =>
      let v ← evalExpr host fuel scope e
      printLine v.text
      succeed .normal
    | .varDecl name init =>
      let v ← evalExpr host fuel scope init
      define scope name v
      succeed .normal
    | .funDecl decl =>
      let f ← newFunction ⟨decl, scope, false⟩
      define scope decl.name f
      succeed .normal
    | .classDecl decl =>
      declareClass scope decl
      succeed .normal
    | .block body =>
      let inner ← push scope []
      statements (exec host fuel inner) body
    | .ite cond thenBranch elseBranch =>
      let c ← evalExpr host fuel scope cond
      if c.isTruthy then exec host fuel scope thenBranch else exec host fuel scope elseBranch
    | .while cond body =>
      loop (evalExpr host fuel scope cond) (exec host fuel scope body) fuel
    | .for init cond incr body => exec host fuel scope (.ofFor init cond incr body.desugar)
    | .return value =>
      let v ← evalExpr host fuel scope value
      succeed (.return v)

end

/-- Execute the statements of a program in order, outside all functions. The result is the value of
the last statement if it is an expression, and `nil` otherwise; `last` is the result so far. -/
def execProgram (host : Host) (fuel : Nat) (scope : Scope) (last : Value) :
    List Stmt → Run Value
  | [] => succeed last
  | .expr e :: rest => do
    let v ← evalExpr host fuel scope e
    execProgram host fuel scope v rest
  | stmt :: rest => do
    match ← exec host fuel scope stmt with
    | .normal => execProgram host fuel scope .nil rest
    | .return _ => fail .returnOutsideFunction

theorem execProgram_of_ne_expr (host : Host) (fuel : Nat) (scope : Scope) (last : Value)
    {stmt : Stmt} (rest : List Stmt) (ne : ∀ e, stmt ≠ .expr e) :
    execProgram host fuel scope last (stmt :: rest) = (do
      match ← exec host fuel scope stmt with
      | .normal => execProgram host fuel scope .nil rest
      | .return _ => fail .returnOutsideFunction) := by
  cases stmt with
  | expr e => exact absurd rfl (ne e)
  | _ => rfl

end Lox
