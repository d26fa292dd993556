import Lox.Desugar

/-!
The rules a program has to keep before it is run.

A tree is visited in the order it is written: a declaration's name before what it contains, a
function's name, then its parameters, then its body, and for each statement of a block the rules
about the name it declares before the statement itself. The first violation met is the one reported.
-/

namespace Lox

/-- A violated rule, with the name it concerns. -/
inductive SemanticError where
  | reservedWord (name : Name)
  | duplicateParameter (name : Name)
  | duplicateLocal (name : Name)
  | shadowsParameter (name : Name)
  | returnOutsideFunction
  | returnFromInitializer
  | thisOutsideClass
  | superOutsideClass
  | superWithoutSuperclass
  | inheritFromSelf (name : Name)
  deriving DecidableEq, Repr

namespace SemanticError

/-- The rule that is violated. -/
def rule : SemanticError → String
  | .reservedWord _ => "reserved word used as a name"
  | .duplicateParameter _ => "duplicate parameter"
  | .duplicateLocal _ => "variable already declared in this block"
  | .shadowsParameter _ => "local variable shadows a parameter"
  | .returnOutsideFunction => "cannot return from top-level code"
  | .returnFromInitializer => "cannot return a value from an initializer"
  | .thisOutsideClass => "cannot use 'this' outside of a class"
  | .superOutsideClass => "cannot use 'super' outside of a class"
  | .superWithoutSuperclass => "cannot use 'super' in a class with no superclass"
  | .inheritFromSelf _ => "a class cannot inherit from itself"

/-- The identifier or keyword at fault. -/
def name : SemanticError → Name
  | .reservedWord name => name
  | .duplicateParameter name => name
  | .duplicateLocal name => name
  | .shadowsParameter name => name
  | .returnOutsideFunction => "return"
  | .returnFromInitializer => "return"
  | .thisOutsideClass => "this"
  | .superOutsideClass => "super"
  | .superWithoutSuperclass => "super"
  | .inheritFromSelf name => name

/-- The text of a violation. -/
def message (e : SemanticError) : String :=
  "semantic error: " ++ e.rule ++ ": '" ++ e.name ++ "'"

end SemanticError

/-- The method that makes a new instance ready. -/
def initializerName : Name := "init"

namespace Check

/-- The innermost function around a place. -/
inductive FunctionKind where
  | none
  | function
  | method
  | initializer
  deriving DecidableEq, Repr

/-- The innermost class around a place: none, one without a superclass, or one with. -/
inductive ClassKind where
  | none
  | base
  | derived
  deriving DecidableEq, Repr

/-- What surrounds a place in a program. -/
structure Place where
  function : FunctionKind
  cls : ClassKind
  deriving DecidableEq, Repr

/-- Code outside all functions and classes. -/
def Place.topLevel : Place := ⟨.none, .none⟩

/-- The kind of a method with the given name. -/
def FunctionKind.ofMethod (name : Name) : FunctionKind :=
  if name = initializerName then .initializer else .method

/-- The kind of a class with the given superclass. -/
def ClassKind.ofSuperclass : Option Name → ClassKind
  | some _ => .derived
  | .none => .base

/-- Check a name that is about to be bound. -/
def bindingName (name : Name) : Except SemanticError Unit :=
  if name.isReserved then .error (.reservedWord name) else .ok ()

/-- Check parameters from left to right, behind those already seen. -/
def params (seen : List Name) : List Name → Except SemanticError Unit
  | [] => .ok ()
  | param :: rest => do
    bindingName param
    if param ∈ seen then .error (.duplicateParameter param)
    else params (param :: seen) rest

/-- Check `this`. -/
def this : ClassKind → Except SemanticError Unit
  | .none => .error .thisOutsideClass
  | _ => .ok ()

/-- Check `super`. -/
def super : ClassKind → Except SemanticError Unit
  | .none => .error .superOutsideClass
  | .base => .error .superWithoutSuperclass
  | .derived => .ok ()

mutual

/-- Check an expression, its parts from left to right. -/
def expr (cls : ClassKind) : Expr → Except SemanticError Unit
  | .nil | .number _ | .bool _ | .string _ | .var _ => .ok ()
  | .unary _ operand => expr cls operand
  | .group e => expr cls e
  | .assign _ value => expr cls value
  | .binary _ left right => do
    expr cls left
    expr cls right
  | .logic _ left right => do
    expr cls left
    expr cls right
  | .call callee args => do
    expr cls callee
    exprs cls args
  | .get object _ => expr cls object
  | .set object _ value => do
    expr cls object
    expr cls value
  | .this => this cls
  | .super _ => super cls

/-- Check expressions from left to right. -/
def exprs (cls : ClassKind) : List Expr → Except SemanticError Unit
  | [] => .ok ()
  | e :: rest => do
    expr cls e
    exprs cls rest

end

/-- Check an expression that may be absent. -/
def expr? (cls : ClassKind) : Option Expr → Except SemanticError Unit
  | some e => expr cls e
  | none => .ok ()

/-- Check that a value may be returned. A bare `return` gives `nil` and is allowed in an
initializer. -/
def returned : FunctionKind → Expr → Except SemanticError Unit
  | .none, _ => .error .returnOutsideFunction
  | .initializer, .nil => .ok ()
  | .initializer, _ => .error .returnFromInitializer
  | _, _ => .ok ()

/-- Check the name a statement declares against the parameters of the function whose body it
stands in and the names declared before it in the same block. -/
def declaration (params declared : List Name) : Option Name → Except SemanticError Unit
  | none => .ok ()
  | some name =>
    if name ∈ params then .error (.shadowsParameter name)
    else if name ∈ declared then .error (.duplicateLocal name)
    else .ok ()

mutual

/-- Check a statement. -/
def stmt (place : Place) : Stmt → Except SemanticError Unit
  | .nop => .ok ()
  | .expr e => expr place.cls e
  | .print e => expr place.cls e
  | .varDecl name init => do
    bindingName name
    expr place.cls init
  | .funDecl decl => function place.cls .function decl
  | .classDecl decl => classDecl decl
  | .block body => block place [] [] body
  | .ite cond thenBranch elseBranch => do
    expr place.cls cond
    stmt place thenBranch
    stmt place elseBranch
  | .while cond body => do
    expr place.cls cond
    stmt place body
  | .for init cond incr body => do
    stmt? place init
    expr? place.cls cond
    expr? place.cls incr
    stmt place body
  | .return value => do
    returned place.function value
    expr place.cls value

/-- Check a statement that may be absent. -/
def stmt? (place : Place) : Option Stmt → Except SemanticError Unit
  | some s => stmt place s
  | none => .ok ()

/-- Check the statements of a block, given the parameters it must not declare again and the names
it has declared so far. -/
def block (place : Place) (params declared : List Name) : List Stmt → Except SemanticError Unit
  | [] => .ok ()
  | s :: rest => do
    declaration params declared s.declaredName?
    stmt place s
    block place params (s.declaredName?.toList ++ declared) rest

/-- Check a function or method of the given kind. -/
def function (cls : ClassKind) (kind : FunctionKind) : FunctionDecl → Except SemanticError Unit
  | ⟨name, ps, body⟩ => do
    bindingName name
    params [] ps
    block ⟨kind, cls⟩ ps [] body

/-- Check the methods of a class. -/
def methods (cls : ClassKind) : List FunctionDecl → Except SemanticError Unit
  | [] => .ok ()
  | decl :: rest => do
    function cls (.ofMethod decl.name) decl
    methods cls rest

/-- Check a class. -/
def classDecl : ClassDecl → Except SemanticError Unit
  | ⟨name, superclass, ms⟩ => do
    bindingName name
    if superclass = some name then .error (.inheritFromSelf name)
    else methods (.ofSuperclass superclass) ms

end

/-- Check top-level statements. They may declare a name again. -/
def stmts : List Stmt → Except SemanticError Unit
  | [] => .ok ()
  | s :: rest => do
    stmt .topLevel s
    stmts rest

end Check

/-- Check a program. -/
def Program.check (program : Program) : Except SemanticError Unit := Check.stmts program.stmts

/-- Check an expression that stands outside all functions and classes. -/
def Expr.check (e : Expr) : Except SemanticError Unit := Check.expr .none e

end Lox
