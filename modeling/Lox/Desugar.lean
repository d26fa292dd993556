import Lox.Stmt

/-!
The `for` loop in terms of the other statements.

`for (init; cond; incr) body` stands for a block that runs `init` and then a `while` loop, whose body
is a block of `body` and `incr`. Without `init` the loop stands alone; a missing condition is `true`.
A `Program` is a statement list whose loops have been replaced, in function and method bodies too.
-/

namespace Lox

/-- The loop that `for (init; cond; incr) body` stands for. -/
def Stmt.ofFor (init : Option Stmt) (cond incr : Option Expr) (body : Stmt) : Stmt :=
  let step := match incr with
    | some e => [.expr e]
    | none => []
  let loop := .while (cond.getD (.bool true)) (.block (body :: step))
  match init with
  | some first => .block [first, loop]
  | none => loop

mutual

/-- Replace the loops of a statement. The initialiser of a loop is kept as it is. -/
def Stmt.desugar : Stmt → Stmt
  | .for init cond incr body => .ofFor init cond incr body.desugar
  | .block body => .block (Stmt.desugarAll body)
  | .ite cond thenBranch elseBranch => .ite cond thenBranch.desugar elseBranch.desugar
  | .while cond body => .while cond body.desugar
  | .funDecl decl => .funDecl decl.desugar
  | .classDecl decl => .classDecl decl.desugar
  | .nop => .nop
  | .expr e => .expr e
  | .print e => .print e
  | .varDecl name init => .varDecl name init
  | .return value => .return value

/-- Replace the loops of a statement list. -/
def Stmt.desugarAll : List Stmt → List Stmt
  | [] => []
  | stmt :: rest => stmt.desugar :: Stmt.desugarAll rest

/-- Replace the loops of a function's body. -/
def FunctionDecl.desugar : FunctionDecl → FunctionDecl
  | ⟨name, params, body⟩ => ⟨name, params, Stmt.desugarAll body⟩

/-- Replace the loops of several functions. -/
def FunctionDecl.desugarAll : List FunctionDecl → List FunctionDecl
  | [] => []
  | decl :: rest => decl.desugar :: FunctionDecl.desugarAll rest

/-- Replace the loops of a class's methods. -/
def ClassDecl.desugar : ClassDecl → ClassDecl
  | ⟨name, superclass, methods⟩ => ⟨name, superclass, FunctionDecl.desugarAll methods⟩

end

theorem Stmt.desugarAll_eq_map (stmts : List Stmt) :
    Stmt.desugarAll stmts = stmts.map Stmt.desugar := by
  induction stmts with
  | nil => rfl
  | cons stmt rest ih => simp [Stmt.desugarAll, ih]

theorem FunctionDecl.desugarAll_eq_map (decls : List FunctionDecl) :
    FunctionDecl.desugarAll decls = decls.map FunctionDecl.desugar := by
  induction decls with
  | nil => rfl
  | cons decl rest ih => simp [FunctionDecl.desugarAll, ih]

/-- A program ready to be checked and run. -/
structure Program where
  stmts : List Stmt

/-- The program that a statement list stands for. -/
def Program.ofStmts (stmts : List Stmt) : Program := ⟨Stmt.desugarAll stmts⟩

end Lox
