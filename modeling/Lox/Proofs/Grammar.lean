import Lox.Stmt
import Lox.Token

/-!
The grammar of the language, over the tokens of a text.

A category derives lists of tokens, each with the tree that its derivation stands for. A rule that
repeats an operator or a suffix is written with the repetition on the left, so that `a - b - c` is
derived in one way, as `(a - b) - c`. An `if` without `else` cannot stand before an `else`: the flag
of `Statement` says whether a statement ends with such an `if`, and every `else` belongs to the
nearest `if` that is still open.
-/

namespace Lox.Grammar

/-- The categories of expressions, the loosest first. -/
inductive Category where
  | expression
  | logicOr
  | logicAnd
  | equality
  | comparison
  | term
  | factor
  | unary
  | call
  | primary
  deriving DecidableEq, Repr

/-- `Contains a b`: the rule `a → b`. -/
inductive Contains : Category → Category → Prop where
  | expression : Contains .expression .logicOr
  | logicOr : Contains .logicOr .logicAnd
  | logicAnd : Contains .logicAnd .equality
  | equality : Contains .equality .comparison
  | comparison : Contains .comparison .term
  | term : Contains .term .factor
  | factor : Contains .factor .unary
  | unary : Contains .unary .call
  | call : Contains .call .primary

/-- `Operator a token b node`: the rule `a → a token b`, with the node it builds. -/
inductive Operator : Category → Token → Category → (Expr → Expr → Expr) → Prop where
  | or : Operator .logicOr (.keyword .or) .logicAnd (.logic .or)
  | and : Operator .logicAnd (.keyword .and) .equality (.logic .and)
  | notEqual : Operator .equality (.mark .bangEqual) .comparison (.binary .notEqual)
  | equal : Operator .equality (.mark .equalEqual) .comparison (.binary .equal)
  | greater : Operator .comparison (.mark .greater) .term (.binary .greater)
  | greaterEqual : Operator .comparison (.mark .greaterEqual) .term (.binary .greaterEqual)
  | less : Operator .comparison (.mark .less) .term (.binary .less)
  | lessEqual : Operator .comparison (.mark .lessEqual) .term (.binary .lessEqual)
  | sub : Operator .term (.mark .minus) .factor (.binary .sub)
  | add : Operator .term (.mark .plus) .factor (.binary .add)
  | div : Operator .factor (.mark .slash) .unary (.binary .div)
  | mul : Operator .factor (.mark .star) .unary (.binary .mul)

/-- `Atom token e`: the rule `primary → token`, for the expression `e`. -/
inductive Atom : Token → Expr → Prop where
  | true : Atom (.keyword .true) (.bool true)
  | false : Atom (.keyword .false) (.bool false)
  | nil : Atom (.keyword .nil) .nil
  | this : Atom (.keyword .this) .this
  | number {x} : Atom (.number x) (.number x)
  | string {s} : Atom (.string s) (.string s)
  | variable {name} : Atom (.identifier name) (.var name)

mutual

/-- `Expression a toks e`: the category `a` derives `toks`, which stand for `e`. -/
inductive Expression : Category → List Token → Expr → Prop where
  | tighter {a b toks e} : Contains a b → Expression b toks e → Expression a toks e
  | assign {name toks value} : Expression .expression toks value →
      Expression .expression (.identifier name :: .mark .equal :: toks) (.assign name value)
  | set {name toks object toks' value} : Expression .call toks object →
      Expression .expression toks' value →
      Expression .expression (toks ++ .mark .dot :: .identifier name :: .mark .equal :: toks')
        (.set object name value)
  | operator {a op b node toks left toks' right} : Operator a op b node →
      Expression a toks left → Expression b toks' right →
      Expression a (toks ++ op :: toks') (node left right)
  | not {toks e} : Expression .unary toks e →
      Expression .unary (.mark .bang :: toks) (.unary .not e)
  | minus {toks e} : Expression .unary toks e →
      Expression .unary (.mark .minus :: toks) (.unary .minus e)
  | call {toks callee toks' args} : Expression .call toks callee → Arguments toks' args →
      Expression .call (toks ++ .mark .leftParen :: (toks' ++ [.mark .rightParen]))
        (.call callee args)
  | get {toks object name} : Expression .call toks object →
      Expression .call (toks ++ [.mark .dot, .identifier name]) (.get object name)
  | atom {token e} : Atom token e → Expression .primary [token] e
  | group {toks e} : Expression .expression toks e →
      Expression .primary (.mark .leftParen :: (toks ++ [.mark .rightParen])) (.group e)
  | super {name} :
      Expression .primary [.keyword .super, .mark .dot, .identifier name] (.super name)

/-- The arguments of a call: none, or expressions separated by commas. -/
inductive Arguments : List Token → List Expr → Prop where
  | none : Arguments [] []
  | some {toks args} : ArgumentList toks args → Arguments toks args

/-- One expression or several, separated by commas. -/
inductive ArgumentList : List Token → List Expr → Prop where
  | last {toks e} : Expression .expression toks e → ArgumentList toks [e]
  | more {toks e toks' es} : Expression .expression toks e → ArgumentList toks' es →
      ArgumentList (toks ++ .mark .comma :: toks') (e :: es)

end

/-- An expression that may be absent. -/
inductive OptionalExpression : List Token → Option Expr → Prop where
  | none : OptionalExpression [] none
  | some {toks e} : Expression .expression toks e → OptionalExpression toks (some e)

/-- One name or several, separated by commas. -/
inductive NameList : List Token → List Name → Prop where
  | last {name} : NameList [.identifier name] [name]
  | more {name toks names} : NameList toks names →
      NameList (.identifier name :: .mark .comma :: toks) (name :: names)

/-- The parameters of a function: none, or names separated by commas. -/
inductive Parameters : List Token → List Name → Prop where
  | none : Parameters [] []
  | some {toks names} : NameList toks names → Parameters toks names

/-- The superclass of a class, which may be absent. -/
inductive Superclass : List Token → Option Name → Prop where
  | none : Superclass [] none
  | some {name} : Superclass [.mark .less, .identifier name] (some name)

/-- A variable declaration. Without an initialiser the variable is `nil`. -/
inductive VarDecl : List Token → Stmt → Prop where
  | bare {name} :
      VarDecl [.keyword .var, .identifier name, .mark .semicolon] (.varDecl name .nil)
  | init {name toks e} : Expression .expression toks e →
      VarDecl (.keyword .var :: .identifier name :: .mark .equal :: (toks ++ [.mark .semicolon]))
        (.varDecl name e)

/-- An expression statement. -/
inductive ExprStmt : List Token → Stmt → Prop where
  | mk {toks e} : Expression .expression toks e →
      ExprStmt (toks ++ [.mark .semicolon]) (.expr e)

/-- The first part of a loop's head, with its semicolon. -/
inductive LoopInit : List Token → Option Stmt → Prop where
  | none : LoopInit [.mark .semicolon] none
  | var {toks stmt} : VarDecl toks stmt → LoopInit toks (some stmt)
  | expr {toks stmt} : ExprStmt toks stmt → LoopInit toks (some stmt)

mutual

/-- `Statement isOpen toks stmt`: `toks` are a statement, which stand for `stmt`. The flag says
whether the statement ends with an `if` that has no `else`. -/
inductive Statement : Bool → List Token → Stmt → Prop where
  | expr {toks stmt} : ExprStmt toks stmt → Statement false toks stmt
  | print {toks e} : Expression .expression toks e →
      Statement false (.keyword .print :: (toks ++ [.mark .semicolon])) (.print e)
  | returnNil : Statement false [.keyword .return, .mark .semicolon] (.return .nil)
  | return {toks e} : Expression .expression toks e →
      Statement false (.keyword .return :: (toks ++ [.mark .semicolon])) (.return e)
  | nop : Statement false [.mark .semicolon] .nop
  | block {toks body} : Declarations toks body →
      Statement false (.mark .leftCurly :: (toks ++ [.mark .rightCurly])) (.block body)
  | ifElse {isOpen toks cond toks₁ thenBranch toks₂ elseBranch} :
      Expression .expression toks cond → Statement false toks₁ thenBranch →
      Statement isOpen toks₂ elseBranch →
      Statement isOpen
        (.keyword .if :: .mark .leftParen ::
          (toks ++ .mark .rightParen :: (toks₁ ++ .keyword .else :: toks₂)))
        (.ite cond thenBranch elseBranch)
  | if {isOpen toks cond toks₁ thenBranch} :
      Expression .expression toks cond → Statement isOpen toks₁ thenBranch →
      Statement true (.keyword .if :: .mark .leftParen :: (toks ++ .mark .rightParen :: toks₁))
        (.ite cond thenBranch (.block []))
  | while {isOpen toks cond toks₁ body} :
      Expression .expression toks cond → Statement isOpen toks₁ body →
      Statement isOpen
        (.keyword .while :: .mark .leftParen :: (toks ++ .mark .rightParen :: toks₁))
        (.while cond body)
  | for {isOpen toks₀ init toks₁ cond toks₂ incr toks₃ body} : LoopInit toks₀ init →
      OptionalExpression toks₁ cond → OptionalExpression toks₂ incr →
      Statement isOpen toks₃ body →
      Statement isOpen
        (.keyword .for :: .mark .leftParen ::
          (toks₀ ++ (toks₁ ++ .mark .semicolon :: (toks₂ ++ .mark .rightParen :: toks₃))))
        (.for init cond incr body)

/-- A declaration, or any statement in its place. -/
inductive Declaration : List Token → Stmt → Prop where
  | var {toks stmt} : VarDecl toks stmt → Declaration toks stmt
  | fun {toks decl} : Function toks decl → Declaration (.keyword .fun :: toks) (.funDecl decl)
  | cls {name toks superclass toks' methods} : Superclass toks superclass →
      Functions toks' methods →
      Declaration
        (.keyword .cls :: .identifier name ::
          (toks ++ .mark .leftCurly :: (toks' ++ [.mark .rightCurly])))
        (.classDecl ⟨name, superclass, methods⟩)
  | statement {isOpen toks stmt} : Statement isOpen toks stmt → Declaration toks stmt

/-- Any number of declarations. -/
inductive Declarations : List Token → List Stmt → Prop where
  | nil : Declarations [] []
  | cons {toks stmt toks' stmts} : Declaration toks stmt → Declarations toks' stmts →
      Declarations (toks ++ toks') (stmt :: stmts)

/-- A function or method, from its name on. -/
inductive Function : List Token → FunctionDecl → Prop where
  | mk {name toks params toks' body} : Parameters toks params → Declarations toks' body →
      Function
        (.identifier name :: .mark .leftParen ::
          (toks ++ .mark .rightParen :: .mark .leftCurly :: (toks' ++ [.mark .rightCurly])))
        ⟨name, params, body⟩

/-- Any number of methods. -/
inductive Functions : List Token → List FunctionDecl → Prop where
  | nil : Functions [] []
  | cons {toks decl toks' decls} : Function toks decl → Functions toks' decls →
      Functions (toks ++ toks') (decl :: decls)

end

end Lox.Grammar
