import Lox.Proofs.Grammar

/-!
How a tree is written.

The words of a tree (`Stmt.tokensAll`) are those of its text with nothing left out: an `if` has its
`else`, a variable its initialiser and a `return` its value. A tree is printable if these words are
derived as that tree: no operand is looser than its place allows, declarations stand in statement
lists only, and its names and literals can be written. What can be written is left open
(`Lexicon`).
-/

namespace Lox

open Grammar

/-! ### The words of a tree -/

/-- The word for an operator with one operand. -/
def UnaryOp.token : UnaryOp → Token
  | .not => .mark .bang
  | .minus => .mark .minus

/-- The word for an operator with two operands. -/
def BinaryOp.token : BinaryOp → Token
  | .equal => .mark .equalEqual
  | .notEqual => .mark .bangEqual
  | .less => .mark .less
  | .lessEqual => .mark .lessEqual
  | .greater => .mark .greater
  | .greaterEqual => .mark .greaterEqual
  | .add => .mark .plus
  | .sub => .mark .minus
  | .mul => .mark .star
  | .div => .mark .slash

/-- The word for an operator that may leave out its right operand. -/
def LogicOp.token : LogicOp → Token
  | .and => .keyword .and
  | .or => .keyword .or

mutual

/-- The words of an expression. -/
def Expr.tokens : Expr → List Token
  | .nil => [.keyword .nil]
  | .number x => [.number x]
  | .bool true => [.keyword .true]
  | .bool false => [.keyword .false]
  | .string s => [.string s]
  | .var name => [.identifier name]
  | .unary op operand => op.token :: operand.tokens
  | .binary op left right => left.tokens ++ op.token :: right.tokens
  | .logic op left right => left.tokens ++ op.token :: right.tokens
  | .group e => .mark .leftParen :: (e.tokens ++ [.mark .rightParen])
  | .assign name value => .identifier name :: .mark .equal :: value.tokens
  | .call callee args =>
    callee.tokens ++ .mark .leftParen :: (Expr.argumentTokens args ++ [.mark .rightParen])
  | .get object name => object.tokens ++ [.mark .dot, .identifier name]
  | .set object name value =>
    object.tokens ++ .mark .dot :: .identifier name :: .mark .equal :: value.tokens
  | .this => [.keyword .this]
  | .super method => [.keyword .super, .mark .dot, .identifier method]

/-- The words of the arguments of a call, with commas between them. -/
def Expr.argumentTokens : List Expr → List Token
  | [] => []
  | e :: rest => e.tokens ++ Expr.furtherTokens rest

/-- The words of further arguments, each behind a comma. -/
def Expr.furtherTokens : List Expr → List Token
  | [] => []
  | e :: rest => .mark .comma :: (e.tokens ++ Expr.furtherTokens rest)

end

/-- The words of an expression that may be absent. -/
def Expr.tokens? : Option Expr → List Token
  | some e => e.tokens
  | none => []

/-- The words of names with commas between them. -/
def Name.tokens (names : List Name) : List Token :=
  (names.map Token.identifier).intersperse (.mark .comma)

/-- The words that name the superclass of a class. -/
def Name.superclassTokens : Option Name → List Token
  | some name => [.mark .less, .identifier name]
  | none => []

mutual

/-- The words of a statement. -/
def Stmt.tokens : Stmt → List Token
  | .nop => [.mark .semicolon]
  | .expr e => e.tokens ++ [.mark .semicolon]
  | .print e => .keyword .print :: (e.tokens ++ [.mark .semicolon])
  | .varDecl name init =>
    .keyword .var :: .identifier name :: .mark .equal :: (init.tokens ++ [.mark .semicolon])
  | .funDecl decl => .keyword .fun :: decl.tokens
  | .classDecl decl => .keyword .cls :: decl.tokens
  | .block body => .mark .leftCurly :: (Stmt.tokensAll body ++ [.mark .rightCurly])
  | .ite cond thenBranch elseBranch =>
    .keyword .if :: .mark .leftParen ::
      (cond.tokens ++ .mark .rightParen ::
        (thenBranch.tokens ++ .keyword .else :: elseBranch.tokens))
  | .while cond body =>
    .keyword .while :: .mark .leftParen :: (cond.tokens ++ .mark .rightParen :: body.tokens)
  | .for init cond incr body =>
    .keyword .for :: .mark .leftParen ::
      (Stmt.initTokens init ++
        (Expr.tokens? cond ++ .mark .semicolon ::
          (Expr.tokens? incr ++ .mark .rightParen :: body.tokens)))
  | .return value => .keyword .return :: (value.tokens ++ [.mark .semicolon])

/-- The words of the first part of a loop's head, with its semicolon. -/
def Stmt.initTokens : Option Stmt → List Token
  | some stmt => stmt.tokens
  | none => [.mark .semicolon]

/-- The words of a statement list. -/
def Stmt.tokensAll : List Stmt → List Token
  | [] => []
  | stmt :: rest => stmt.tokens ++ Stmt.tokensAll rest

/-- The words of a function, from its name on. -/
def FunctionDecl.tokens : FunctionDecl → List Token
  | ⟨name, params, body⟩ =>
    .identifier name :: .mark .leftParen ::
      (Name.tokens params ++ .mark .rightParen :: .mark .leftCurly ::
        (Stmt.tokensAll body ++ [.mark .rightCurly]))

/-- The words of several functions. -/
def FunctionDecl.tokensAll : List FunctionDecl → List Token
  | [] => []
  | decl :: rest => decl.tokens ++ FunctionDecl.tokensAll rest

/-- The words of a class, from its name on. -/
def ClassDecl.tokens : ClassDecl → List Token
  | ⟨name, superclass, methods⟩ =>
    .identifier name ::
      (Name.superclassTokens superclass ++ .mark .leftCurly ::
        (FunctionDecl.tokensAll methods ++ [.mark .rightCurly]))

end

/-! ### Levels -/

/-- How tight a category of expressions is. -/
def Grammar.Category.rank : Category → Nat
  | .expression => 0
  | .logicOr => 1
  | .logicAnd => 2
  | .equality => 3
  | .comparison => 4
  | .term => 5
  | .factor => 6
  | .unary => 7
  | .call => 8
  | .primary => 9

/-- The category of an operator's expressions. -/
def BinaryOp.category : BinaryOp → Category
  | .equal | .notEqual => .equality
  | .less | .lessEqual | .greater | .greaterEqual => .comparison
  | .add | .sub => .term
  | .mul | .div => .factor

/-- The category of a logical operator's expressions. -/
def LogicOp.category : LogicOp → Category
  | .and => .logicAnd
  | .or => .logicOr

/-- The tightest category that an expression belongs to by its outermost form. -/
def Expr.category : Expr → Category
  | .assign _ _ | .set _ _ _ => .expression
  | .logic op _ _ => op.category
  | .binary op _ _ => op.category
  | .unary _ _ => .unary
  | .call _ _ | .get _ _ => .call
  | .nil | .number _ | .bool _ | .string _ | .var _ | .group _ | .this | .super _ => .primary

/-- The expression may stand without parentheses where the category is expected. -/
def Expr.Suits (e : Expr) (a : Category) : Prop := a.rank ≤ e.category.rank

/-- The expression may stand without parentheses where an expression tighter than the category is
expected. -/
def Expr.Exceeds (e : Expr) (a : Category) : Prop := a.rank < e.category.rank

instance (e : Expr) (a : Category) : Decidable (e.Suits a) := inferInstanceAs (Decidable (_ ≤ _))

instance (e : Expr) (a : Category) : Decidable (e.Exceeds a) := inferInstanceAs (Decidable (_ < _))

/-! ### Printable trees -/

/-- What can be written: which names, which numbers and which strings. -/
structure Lexicon where
  name : Name → Prop
  number : Double → Prop
  string : String → Prop

section

variable (l : Lexicon)

mutual

/-- The operands of an expression suit their places, and its names and literals can be written. -/
def Expr.Printable : Expr → Prop
  | .nil | .bool _ | .this => True
  | .number x => l.number x
  | .string s => l.string s
  | .var name => l.name name
  | .unary _ operand => operand.Suits .unary ∧ operand.Printable
  | .binary op left right =>
    (left.Suits op.category ∧ left.Printable) ∧ right.Exceeds op.category ∧ right.Printable
  | .logic op left right =>
    (left.Suits op.category ∧ left.Printable) ∧ right.Exceeds op.category ∧ right.Printable
  | .group e => e.Printable
  | .assign name value => l.name name ∧ value.Printable
  | .call callee args => (callee.Suits .call ∧ callee.Printable) ∧ Expr.PrintableAll args
  | .get object name => (object.Suits .call ∧ object.Printable) ∧ l.name name
  | .set object name value =>
    (object.Suits .call ∧ object.Printable) ∧ l.name name ∧ value.Printable
  | .super method => l.name method

/-- All expressions of a list are printable. -/
def Expr.PrintableAll : List Expr → Prop
  | [] => True
  | e :: rest => e.Printable ∧ Expr.PrintableAll rest

end

/-- A printable expression that may be absent. -/
def Expr.Printable? : Option Expr → Prop
  | some e => e.Printable l
  | none => True

/-- A printable first part of a loop's head: absent, a variable declaration or an expression. -/
def Stmt.PrintableInit : Option Stmt → Prop
  | none => True
  | some (.varDecl name init) => l.name name ∧ init.Printable l
  | some (.expr e) => e.Printable l
  | some _ => False

mutual

/-- The parts of a statement are printable, and its branches are not declarations. -/
def Stmt.Printable : Stmt → Prop
  | .nop => True
  | .expr e => e.Printable l
  | .print e => e.Printable l
  | .varDecl name init => l.name name ∧ init.Printable l
  | .funDecl decl => decl.Printable
  | .classDecl decl => decl.Printable
  | .block body => Stmt.PrintableAll body
  | .ite cond thenBranch elseBranch =>
    cond.Printable l ∧ (thenBranch.declaredName? = none ∧ thenBranch.Printable) ∧
      elseBranch.declaredName? = none ∧ elseBranch.Printable
  | .while cond body => cond.Printable l ∧ body.declaredName? = none ∧ body.Printable
  | .for init cond incr body =>
    Stmt.PrintableInit l init ∧ Expr.Printable? l cond ∧ Expr.Printable? l incr ∧
      body.declaredName? = none ∧ body.Printable
  | .return value => value.Printable l

/-- All statements of a list are printable. -/
def Stmt.PrintableAll : List Stmt → Prop
  | [] => True
  | stmt :: rest => stmt.Printable ∧ Stmt.PrintableAll rest

/-- A function with a printable body, whose name and parameters can be written. -/
def FunctionDecl.Printable : FunctionDecl → Prop
  | ⟨name, params, body⟩ =>
    l.name name ∧ (∀ param ∈ params, l.name param) ∧ Stmt.PrintableAll body

/-- All functions of a list are printable. -/
def FunctionDecl.PrintableAll : List FunctionDecl → Prop
  | [] => True
  | decl :: rest => decl.Printable ∧ FunctionDecl.PrintableAll rest

/-- A class with printable methods, whose name and superclass can be written. -/
def ClassDecl.Printable : ClassDecl → Prop
  | ⟨name, superclass, methods⟩ =>
    l.name name ∧ (∀ parent ∈ superclass, l.name parent) ∧ FunctionDecl.PrintableAll methods

end

/-- The word can be written. The end of the text is not written. -/
def Token.Admitted : Token → Prop
  | .identifier name => l.name name
  | .number x => l.number x
  | .string contents => l.string contents
  | .mark _ | .keyword _ => True
  | .eof => False

end

end Lox
