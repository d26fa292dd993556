import Lox.Expr

/-!
Statements and declarations.

A missing `else` is an empty block, a missing initialiser and a missing return value are `nil`. The
`for` loop is a node of its own here; `Lox.Desugar` turns it into the other forms.
-/

namespace Lox

mutual

/-- A statement or declaration. -/
inductive Stmt where
  | nop
  | expr (e : Expr)
  | print (e : Expr)
  | varDecl (name : Name) (init : Expr)
  | funDecl (decl : FunctionDecl)
  | classDecl (decl : ClassDecl)
  | block (body : List Stmt)
  | ite (cond : Expr) (thenBranch elseBranch : Stmt)
  | while (cond : Expr) (body : Stmt)
  | for (init : Option Stmt) (cond incr : Option Expr) (body : Stmt)
  | return (value : Expr)

/-- A function or method: its name, its parameters and its body. -/
structure FunctionDecl where
  name : Name
  params : List Name
  body : List Stmt

/-- A class: its name, the name of its superclass, if it has one, and its methods. -/
structure ClassDecl where
  name : Name
  superclass : Option Name
  methods : List FunctionDecl

end

instance : Inhabited Stmt := ⟨.nop⟩

/-- The name that a statement binds in the scope it stands in. -/
def Stmt.declaredName? : Stmt → Option Name
  | .varDecl name _ => some name
  | .funDecl decl => some decl.name
  | .classDecl decl => some decl.name
  | _ => none

end Lox
