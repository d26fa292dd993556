import Lox.Proofs.Printing.Tree

/-!
Printable trees are the derived ones.

The words of a printable tree are derived as this tree (`declarations_of_printable`), and all of
them can be written (`admits_stmts`). Whatever is derived from words that can be written is
printable (`printableAll_of_declarations`), also where words of the tree have been left out.
-/

namespace Lox

open Grammar

/-! ### Levels -/

theorem Grammar.Category.eq_of_rank {a b : Category} (h : a.rank = b.rank) : a = b := by
  cases a <;> cases b <;> first | rfl | cases h

/-- Below the tightest category, every category contains one that is a level tighter. -/
theorem Grammar.Category.exists_contains {a b : Category} (h : a.rank < b.rank) :
    ∃ c, Contains a c ∧ c.rank = a.rank + 1 := by
  cases a with
  | primary => cases b <;> exact absurd h (by decide)
  | _ => exact ⟨_, by constructor, rfl⟩

/-- What a category derives is derived by every looser one. -/
theorem Grammar.Expression.looser {a b : Category} {toks : List Token} {e : Expr}
    (h : Expression b toks e) (le : a.rank ≤ b.rank) : Expression a toks e := by
  obtain ⟨n, same⟩ := Nat.exists_eq_add_of_le le
  induction n generalizing a with
  | zero =>
    obtain rfl := Category.eq_of_rank same
    exact h
  | succ n ih =>
    obtain ⟨c, contains, rank⟩ := Category.exists_contains (a := a) (b := b) (by omega)
    exact .tighter contains (ih (by omega) (by omega))

theorem rank_of_contains {a b : Category} (h : Contains a b) : b.rank = a.rank + 1 := by
  cases h <;> rfl

/-- The right operand of an operator is a level tighter. -/
theorem rank_of_operator {a b : Category} {op : Token} {node : Expr → Expr → Expr}
    (rule : Operator a op b node) : b.rank = a.rank + 1 := by
  cases rule <;> rfl

theorem BinaryOp.operator (op : BinaryOp) :
    ∃ b, Operator op.category op.token b (.binary op) := by
  cases op <;> exact ⟨_, by constructor⟩

theorem LogicOp.operator (op : LogicOp) :
    ∃ b, Operator op.category op.token b (.logic op) := by
  cases op <;> exact ⟨_, by constructor⟩

/-! ### Printable trees are derived -/

section

variable {l : Lexicon}

mutual

/-- A printable expression is derived from its words. -/
theorem derived_of_printable : ∀ {e : Expr}, e.Printable l → Expression e.category e.tokens e
  | .nil, _ => .atom .nil
  | .number _, _ => .atom .number
  | .bool true, _ => .atom .true
  | .bool false, _ => .atom .false
  | .string _, _ => .atom .string
  | .var _, _ => .atom .variable
  | .this, _ => .atom .this
  | .super _, _ => .super
  | .unary .not _, ⟨suits, operand⟩ => .not ((derived_of_printable operand).looser suits)
  | .unary .minus _, ⟨suits, operand⟩ => .minus ((derived_of_printable operand).looser suits)
  | .binary op _ _, ⟨⟨suits, left⟩, exceeds, right⟩ => by
    obtain ⟨b, rule⟩ := op.operator
    have rank := Nat.le_of_eq (rank_of_operator rule)
    exact .operator rule ((derived_of_printable left).looser suits)
      ((derived_of_printable right).looser (Nat.le_trans rank exceeds))
  | .logic op _ _, ⟨⟨suits, left⟩, exceeds, right⟩ => by
    obtain ⟨b, rule⟩ := op.operator
    have rank := Nat.le_of_eq (rank_of_operator rule)
    exact .operator rule ((derived_of_printable left).looser suits)
      ((derived_of_printable right).looser (Nat.le_trans rank exceeds))
  | .group e, inner => .group ((@derived_of_printable e inner).looser (Nat.zero_le _))
  | .assign _ _, ⟨_, value⟩ => .assign ((derived_of_printable value).looser (Nat.zero_le _))
  | .call _ _, ⟨⟨suits, callee⟩, args⟩ =>
    .call ((derived_of_printable callee).looser suits) (arguments_of_printable args)
  | .get _ _, ⟨⟨suits, object⟩, _⟩ => .get ((derived_of_printable object).looser suits)
  | .set _ _ _, ⟨⟨suits, object⟩, _, value⟩ =>
    .set ((derived_of_printable object).looser suits)
      ((derived_of_printable value).looser (Nat.zero_le _))

theorem arguments_of_printable : ∀ {args : List Expr}, Expr.PrintableAll l args →
    Arguments (Expr.argumentTokens args) args
  | [], _ => .none
  | _ :: _, ⟨first, rest⟩ =>
    .some (argumentList_of_printable ((derived_of_printable first).looser (Nat.zero_le _)) rest)

theorem argumentList_of_printable : ∀ {rest : List Expr} {toks e}, Expression .expression toks e →
    Expr.PrintableAll l rest → ArgumentList (toks ++ Expr.furtherTokens rest) (e :: rest)
  | [], toks, _, first, _ => by
    rw [Expr.furtherTokens, List.append_nil]
    exact .last first
  | _ :: _, _, _, first, ⟨second, others⟩ =>
    .more first (argumentList_of_printable ((derived_of_printable second).looser (Nat.zero_le _))
      others)

end

theorem expression_of_printable {e : Expr} (h : e.Printable l) :
    Expression .expression e.tokens e :=
  (derived_of_printable h).looser (Nat.zero_le _)

theorem optional_of_printable {e : Option Expr} (h : Expr.Printable? l e) :
    OptionalExpression (Expr.tokens? e) e := by
  cases e with
  | none => exact .none
  | some e => exact .some (expression_of_printable h)

theorem nameList (names : List Name) (name : Name) :
    NameList (Name.tokens (name :: names)) (name :: names) := by
  induction names generalizing name with
  | nil => exact .last
  | cons second rest ih => exact .more (ih second)

theorem parameters (names : List Name) : Parameters (Name.tokens names) names := by
  cases names with
  | nil => exact .none
  | cons name rest => exact .some (nameList rest name)

theorem superclass (parent : Option Name) :
    Superclass (Name.superclassTokens parent) parent := by
  cases parent with
  | none => exact .none
  | some name => exact .some

theorem loopInit_of_printable {init : Option Stmt} (h : Stmt.PrintableInit l init) :
    LoopInit (Stmt.initTokens init) init := by
  match init, h with
  | none, _ => exact .none
  | some (.varDecl _ _), ⟨_, value⟩ => exact .var (.init (expression_of_printable value))
  | some (.expr _), value => exact .expr (.mk (expression_of_printable value))

mutual

/-- A printable statement is derived from its words. Since every `else` is written, the statement
is not open. -/
theorem statement_of_printable : ∀ {stmt : Stmt}, stmt.declaredName? = none → stmt.Printable l →
    Statement false stmt.tokens stmt
  | .nop, _, _ => .nop
  | .expr _, _, h => .expr (.mk (expression_of_printable h))
  | .print _, _, h => .print (expression_of_printable h)
  | .return _, _, h => .return (expression_of_printable h)
  | .block body, _, h => .block (@declarations_of_printable body h)
  | .ite _ _ _, _, ⟨cond, ⟨yes, thenBranch⟩, no, elseBranch⟩ =>
    .ifElse (expression_of_printable cond) (statement_of_printable yes thenBranch)
      (statement_of_printable no elseBranch)
  | .while _ _, _, ⟨cond, binds, body⟩ =>
    .while (expression_of_printable cond) (statement_of_printable binds body)
  | .for _ _ _ _, _, ⟨init, cond, incr, binds, body⟩ =>
    .for (loopInit_of_printable init) (optional_of_printable cond) (optional_of_printable incr)
      (statement_of_printable binds body)

theorem declaration_of_printable : ∀ {stmt : Stmt}, stmt.Printable l → Declaration stmt.tokens stmt
  | .varDecl _ _, ⟨_, init⟩ => .var (.init (expression_of_printable init))
  | .funDecl decl, h => .fun (@function_of_printable decl h)
  | .classDecl ⟨_, parent, _⟩, ⟨_, _, methods⟩ =>
    .cls (superclass parent) (functions_of_printable methods)
  | .nop, h => .statement (statement_of_printable rfl h)
  | .expr e, h => .statement (statement_of_printable rfl h)
  | .print _, h | .return _, h | .block _, h | .ite _ _ _, h
  | .while _ _, h | .for _ _ _ _, h => .statement (statement_of_printable rfl h)

theorem declarations_of_printable : ∀ {stmts : List Stmt}, Stmt.PrintableAll l stmts →
    Declarations (Stmt.tokensAll stmts) stmts
  | [], _ => .nil
  | _ :: _, ⟨first, rest⟩ => .cons (declaration_of_printable first) (declarations_of_printable rest)

theorem function_of_printable : ∀ {decl : FunctionDecl}, decl.Printable l →
    Function decl.tokens decl
  | ⟨_, params, _⟩, ⟨_, _, body⟩ => .mk (parameters params) (declarations_of_printable body)

theorem functions_of_printable : ∀ {decls : List FunctionDecl}, FunctionDecl.PrintableAll l decls →
    Functions (FunctionDecl.tokensAll decls) decls
  | [], _ => .nil
  | _ :: _, ⟨first, rest⟩ => .cons (function_of_printable first) (functions_of_printable rest)

end

/-! ### The words of printable trees can be written -/

/-- Words that can all be written. -/
def Admits (l : Lexicon) (toks : List Token) : Prop := ∀ token ∈ toks, token.Admitted l

@[simp] theorem admits_nil : Admits l [] := fun _ mem => nomatch mem

@[simp] theorem admits_cons {token : Token} {toks : List Token} :
    Admits l (token :: toks) ↔ token.Admitted l ∧ Admits l toks := List.forall_mem_cons

@[simp] theorem admits_append {toks toks' : List Token} :
    Admits l (toks ++ toks') ↔ Admits l toks ∧ Admits l toks' := List.forall_mem_append

@[simp] theorem admitted_mark (m : Mark) : (Token.mark m).Admitted l := trivial

@[simp] theorem admitted_keyword (k : Keyword) : (Token.keyword k).Admitted l := trivial

@[simp] theorem admitted_identifier {name : Name} :
    (Token.identifier name).Admitted l ↔ l.name name := Iff.rfl

@[simp] theorem UnaryOp.admitted_token (op : UnaryOp) : op.token.Admitted l := by
  cases op <;> trivial

@[simp] theorem BinaryOp.admitted_token (op : BinaryOp) : op.token.Admitted l := by
  cases op <;> trivial

@[simp] theorem LogicOp.admitted_token (op : LogicOp) : op.token.Admitted l := by
  cases op <;> trivial

mutual

theorem admits_expr : ∀ {e : Expr}, e.Printable l → Admits l e.tokens
  | .nil, _ | .this, _ | .bool true, _ | .bool false, _ => by simp [Expr.tokens]
  | .number _, h | .string _, h | .var _, h => admits_cons.mpr ⟨h, admits_nil⟩
  | .super _, h => by
    have name := admitted_identifier.mpr h
    simpa [Expr.tokens] using name
  | .unary _ _, ⟨_, operand⟩ => by
    simp [Expr.tokens, admits_expr operand]
  | .binary _ _ _, ⟨⟨_, left⟩, _, right⟩ | .logic _ _ _, ⟨⟨_, left⟩, _, right⟩ => by
    simp [Expr.tokens, admits_expr left, admits_expr right]
  | .group e, inner => by
    have inner := @admits_expr e inner
    simp [Expr.tokens, inner]
  | .assign _ _, ⟨name, value⟩ => by
    simp [Expr.tokens, name, admits_expr value]
  | .call _ _, ⟨⟨_, callee⟩, args⟩ => by
    simp [Expr.tokens, admits_expr callee, admits_arguments args]
  | .get _ _, ⟨⟨_, object⟩, name⟩ => by
    simp [Expr.tokens, admits_expr object, name]
  | .set _ _ _, ⟨⟨_, object⟩, name, value⟩ => by
    simp [Expr.tokens, admits_expr object, name, admits_expr value]

theorem admits_arguments : ∀ {args : List Expr}, Expr.PrintableAll l args →
    Admits l (Expr.argumentTokens args)
  | [], _ => admits_nil
  | _ :: _, ⟨first, rest⟩ => by
    simp [Expr.argumentTokens, admits_expr first, admits_furtherTokens rest]

theorem admits_furtherTokens : ∀ {args : List Expr}, Expr.PrintableAll l args →
    Admits l (Expr.furtherTokens args)
  | [], _ => admits_nil
  | _ :: _, ⟨first, rest⟩ => by
    simp [Expr.furtherTokens, admits_expr first, admits_furtherTokens rest]

end

theorem admits_optional {e : Option Expr} (h : Expr.Printable? l e) :
    Admits l (Expr.tokens? e) := by
  cases e with
  | none => exact admits_nil
  | some e => exact admits_expr h

theorem admits_names : ∀ {names : List Name}, (∀ name ∈ names, l.name name) →
    Admits l (Name.tokens names)
  | [], _ => admits_nil
  | [name], h => by simpa [Name.tokens] using h
  | name :: second :: rest, h => by
    obtain ⟨first, others⟩ := List.forall_mem_cons.mp h
    have further : Admits l (Name.tokens (second :: rest)) := admits_names others
    exact admits_cons.mpr ⟨first, admits_cons.mpr ⟨trivial, further⟩⟩

theorem admits_superclass {parent : Option Name} (h : ∀ name ∈ parent, l.name name) :
    Admits l (Name.superclassTokens parent) := by
  cases parent with
  | none => exact admits_nil
  | some name => simp [Name.superclassTokens, h name rfl]

theorem admits_init {init : Option Stmt} (h : Stmt.PrintableInit l init) :
    Admits l (Stmt.initTokens init) := by
  match init, h with
  | none, _ => simp [Stmt.initTokens]
  | some (.varDecl _ _), ⟨name, value⟩ =>
    simp [Stmt.initTokens, Stmt.tokens, name, admits_expr value]
  | some (.expr _), value => simp [Stmt.initTokens, Stmt.tokens, admits_expr value]

mutual

theorem admits_stmt : ∀ {stmt : Stmt}, stmt.Printable l → Admits l stmt.tokens
  | .nop, _ => by simp [Stmt.tokens]
  | .expr e, h | .print e, h | .return e, h => by
    have value := @admits_expr _ e h
    simp [Stmt.tokens, value]
  | .varDecl _ _, ⟨name, init⟩ => by
    simp [Stmt.tokens, name, admits_expr init]
  | .funDecl decl, h => by
    have function := @admits_function decl h
    simp [Stmt.tokens, function]
  | .classDecl decl, h => by
    have cls := @admits_class decl h
    simp [Stmt.tokens, cls]
  | .block body, h => by
    have inner := @admits_stmts body h
    simp [Stmt.tokens, inner]
  | .ite _ _ _, ⟨cond, ⟨_, yes⟩, _, no⟩ => by
    simp [Stmt.tokens, admits_expr cond, admits_stmt yes,
      admits_stmt no]
  | .while _ _, ⟨cond, _, body⟩ => by
    simp [Stmt.tokens, admits_expr cond, admits_stmt body]
  | .for _ _ _ _, ⟨init, cond, incr, _, body⟩ => by
    simp [Stmt.tokens, admits_init init, admits_optional cond, admits_optional incr,
      admits_stmt body]

theorem admits_stmts : ∀ {stmts : List Stmt}, Stmt.PrintableAll l stmts →
    Admits l (Stmt.tokensAll stmts)
  | [], _ => admits_nil
  | _ :: _, ⟨first, rest⟩ => by
    simp [Stmt.tokensAll, admits_stmt first, admits_stmts rest]

theorem admits_function : ∀ {decl : FunctionDecl}, decl.Printable l →
    Admits l decl.tokens
  | ⟨_, _, _⟩, ⟨name, params, body⟩ => by
    simp [FunctionDecl.tokens, name, admits_names params, admits_stmts body]

theorem admits_functions : ∀ {decls : List FunctionDecl},
    FunctionDecl.PrintableAll l decls → Admits l (FunctionDecl.tokensAll decls)
  | [], _ => admits_nil
  | _ :: _, ⟨first, rest⟩ => by
    simp [FunctionDecl.tokensAll, admits_function first,
      admits_functions rest]

theorem admits_class : ∀ {decl : ClassDecl}, decl.Printable l →
    Admits l decl.tokens
  | ⟨_, _, _⟩, ⟨name, parent, methods⟩ => by
    simp [ClassDecl.tokens, name, admits_superclass parent, admits_functions methods]

end

/-! ### What is derived is printable -/

theorem Expr.printable_operator {a b : Category} {op : Token} {node : Expr → Expr → Expr}
    {left right : Expr} (rule : Operator a op b node)
    (h : left.Suits a ∧ left.Printable l) (h' : right.Exceeds a ∧ right.Printable l) :
    (node left right).Suits a ∧ (node left right).Printable l := by
  cases rule <;> exact ⟨Nat.le_refl _, h, h'⟩

theorem Expr.printable_atom {token : Token} {e : Expr} (h : Atom token e)
    (admitted : token.Admitted l) : e.Suits .primary ∧ e.Printable l := by
  cases h <;> exact ⟨Nat.le_refl _, admitted⟩

mutual

/-- An expression derived from words that can be written is printable, and suits every category
that derives it. -/
theorem printable_of_expression : ∀ {a toks e}, Expression a toks e → Admits l toks →
    e.Suits a ∧ e.Printable l
  | _, _, _, .tighter contains h, admits => by
    obtain ⟨suits, printable⟩ := printable_of_expression h admits
    unfold Expr.Suits at suits ⊢
    exact ⟨by have := rank_of_contains contains; omega, printable⟩
  | _, _, _, .assign h, admits => by
    simp only [admits_cons, admitted_identifier] at admits
    exact ⟨Nat.le_refl _, admits.1, (printable_of_expression h admits.2.2).2⟩
  | _, _, _, .set h h', admits => by
    simp only [admits_append, admits_cons, admitted_identifier] at admits
    exact ⟨Nat.le_refl _, printable_of_expression h admits.1, admits.2.2.1,
      (printable_of_expression h' admits.2.2.2.2).2⟩
  | _, _, _, @Expression.operator _ _ _ _ _ _ _ _ rule h h', admits => by
    simp only [admits_append, admits_cons] at admits
    obtain ⟨tighter, right⟩ := printable_of_expression h' admits.2.2
    have exceeds := Nat.le_trans (Nat.le_of_eq (rank_of_operator rule).symm) tighter
    exact Expr.printable_operator rule (printable_of_expression h admits.1) ⟨exceeds, right⟩
  | _, _, _, .not h, admits => by
    simp only [admits_cons] at admits
    exact ⟨Nat.le_refl _, printable_of_expression h admits.2⟩
  | _, _, _, .minus h, admits => by
    simp only [admits_cons] at admits
    exact ⟨Nat.le_refl _, printable_of_expression h admits.2⟩
  | _, _, _, .call h h', admits => by
    simp only [admits_append, admits_cons] at admits
    exact ⟨Nat.le_refl _, printable_of_expression h admits.1,
      printableAll_of_arguments h' admits.2.2.1⟩
  | _, _, _, .get h, admits => by
    simp only [admits_append, admits_cons, admitted_identifier] at admits
    exact ⟨Nat.le_refl _, printable_of_expression h admits.1, admits.2.2.1⟩
  | _, _, _, .atom h, admits => Expr.printable_atom h (admits_cons.mp admits).1
  | _, _, _, .group h, admits => by
    simp only [admits_append, admits_cons] at admits
    have inner := (printable_of_expression h admits.2.1).2
    exact ⟨Nat.le_refl _, inner⟩
  | _, _, _, .super, admits => by
    simp only [admits_cons, admitted_identifier] at admits
    exact ⟨Nat.le_refl _, admits.2.2.1⟩

theorem printableAll_of_arguments : ∀ {toks args}, Arguments toks args → Admits l toks →
    Expr.PrintableAll l args
  | _, _, .none, _ => trivial
  | _, _, .some h, admits => printableAll_of_argumentList h admits

theorem printableAll_of_argumentList : ∀ {toks args}, ArgumentList toks args → Admits l toks →
    Expr.PrintableAll l args
  | _, _, .last h, admits => ⟨(printable_of_expression h admits).2, trivial⟩
  | _, _, .more h h', admits => by
    simp only [admits_append, admits_cons] at admits
    exact ⟨(printable_of_expression h admits.1).2, printableAll_of_argumentList h' admits.2.2⟩

end

theorem printable_of_optional {toks : List Token} {e : Option Expr}
    (h : OptionalExpression toks e) (admits : Admits l toks) : Expr.Printable? l e := by
  cases h with
  | none => trivial
  | some h => exact (printable_of_expression h admits).2

theorem name_of_nameList {toks : List Token} {names : List Name} (h : NameList toks names)
    (admits : Admits l toks) : ∀ name ∈ names, l.name name := by
  induction h with
  | last => simpa using admits
  | more _ ih =>
    simp only [admits_cons, admitted_identifier] at admits
    exact List.forall_mem_cons.mpr ⟨admits.1, ih admits.2.2⟩

theorem name_of_parameters {toks : List Token} {names : List Name} (h : Parameters toks names)
    (admits : Admits l toks) : ∀ name ∈ names, l.name name := by
  cases h with
  | none => simp
  | some h => exact name_of_nameList h admits

theorem name_of_superclass {toks : List Token} {parent : Option Name} (h : Superclass toks parent)
    (admits : Admits l toks) : ∀ name ∈ parent, l.name name := by
  cases h with
  | none => nofun
  | some => simpa using admits

theorem printable_of_varDecl {toks : List Token} {stmt : Stmt} (h : VarDecl toks stmt)
    (admits : Admits l toks) : ∃ name init, stmt = .varDecl name init ∧ l.name name ∧
      init.Printable l := by
  cases h with
  | bare =>
    simp only [admits_cons, admitted_identifier] at admits
    exact ⟨_, _, rfl, admits.2.1, trivial⟩
  | init h =>
    simp only [admits_append, admits_cons, admitted_identifier] at admits
    exact ⟨_, _, rfl, admits.2.1, (printable_of_expression h admits.2.2.2.1).2⟩

theorem printable_of_exprStmt {toks : List Token} {stmt : Stmt} (h : ExprStmt toks stmt)
    (admits : Admits l toks) : ∃ e, stmt = .expr e ∧ e.Printable l := by
  obtain ⟨h⟩ := h
  exact ⟨_, rfl, (printable_of_expression h (admits_append.mp admits).1).2⟩

theorem printableInit_of_loopInit {toks : List Token} {init : Option Stmt} (h : LoopInit toks init)
    (admits : Admits l toks) : Stmt.PrintableInit l init := by
  cases h with
  | none => trivial
  | var h =>
    obtain ⟨name, init, rfl, printable⟩ := printable_of_varDecl h admits
    exact printable
  | expr h =>
    obtain ⟨e, rfl, printable⟩ := printable_of_exprStmt h admits
    exact printable

mutual

/-- A derived statement is printable and declares nothing. -/
theorem printable_of_statement : ∀ {isOpen toks stmt}, Statement isOpen toks stmt →
    Admits l toks → stmt.declaredName? = none ∧ stmt.Printable l
  | _, _, _, .expr h, admits => by
    obtain ⟨e, rfl, printable⟩ := printable_of_exprStmt h admits
    exact ⟨rfl, printable⟩
  | _, _, _, .print h, admits => by
    simp only [admits_append, admits_cons] at admits
    exact ⟨rfl, (printable_of_expression h admits.2.1).2⟩
  | _, _, _, .returnNil, _ => ⟨rfl, trivial⟩
  | _, _, _, .return h, admits => by
    simp only [admits_append, admits_cons] at admits
    exact ⟨rfl, (printable_of_expression h admits.2.1).2⟩
  | _, _, _, .nop, _ => ⟨rfl, trivial⟩
  | _, _, _, .block h, admits => by
    simp only [admits_append, admits_cons] at admits
    exact ⟨rfl, printableAll_of_declarations h admits.2.1⟩
  | _, _, _, .ifElse h h₁ h₂, admits => by
    simp only [admits_append, admits_cons] at admits
    exact ⟨rfl, (printable_of_expression h admits.2.2.1).2,
      printable_of_statement h₁ admits.2.2.2.2.1, printable_of_statement h₂ admits.2.2.2.2.2.2⟩
  | _, _, _, .if h h₁, admits => by
    simp only [admits_append, admits_cons] at admits
    exact ⟨rfl, (printable_of_expression h admits.2.2.1).2,
      printable_of_statement h₁ admits.2.2.2.2, rfl, trivial⟩
  | _, _, _, .while h h₁, admits => by
    simp only [admits_append, admits_cons] at admits
    exact ⟨rfl, (printable_of_expression h admits.2.2.1).2,
      printable_of_statement h₁ admits.2.2.2.2⟩
  | _, _, _, .for h₀ h₁ h₂ h₃, admits => by
    simp only [admits_append, admits_cons] at admits
    obtain ⟨-, -, init, cond, -, incr, -, body⟩ := admits
    exact ⟨rfl, printableInit_of_loopInit h₀ init, printable_of_optional h₁ cond,
      printable_of_optional h₂ incr, printable_of_statement h₃ body⟩

theorem printable_of_declaration : ∀ {toks stmt}, Declaration toks stmt → Admits l toks →
    stmt.Printable l
  | _, _, .var h, admits => by
    obtain ⟨name, init, rfl, printable⟩ := printable_of_varDecl h admits
    exact printable
  | _, _, .fun h, admits => by
    simp only [admits_cons] at admits
    exact printable_of_function h admits.2
  | _, _, .cls h h', admits => by
    simp only [admits_append, admits_cons, admitted_identifier] at admits
    exact ⟨admits.2.1, name_of_superclass h admits.2.2.1,
      printableAll_of_functions h' admits.2.2.2.2.1⟩
  | _, _, .statement h, admits => (printable_of_statement h admits).2

/-- A derived statement list is printable. -/
theorem printableAll_of_declarations : ∀ {toks stmts}, Declarations toks stmts → Admits l toks →
    Stmt.PrintableAll l stmts
  | _, _, .nil, _ => trivial
  | _, _, .cons h h', admits => by
    simp only [admits_append] at admits
    exact ⟨printable_of_declaration h admits.1, printableAll_of_declarations h' admits.2⟩

theorem printable_of_function : ∀ {toks decl}, Function toks decl → Admits l toks →
    decl.Printable l
  | _, _, .mk h h', admits => by
    simp only [admits_append, admits_cons, admitted_identifier] at admits
    exact ⟨admits.1, name_of_parameters h admits.2.2.1,
      printableAll_of_declarations h' admits.2.2.2.2.2.1⟩

theorem printableAll_of_functions : ∀ {toks decls}, Functions toks decls → Admits l toks →
    FunctionDecl.PrintableAll l decls
  | _, _, .nil, _ => trivial
  | _, _, .cons h h', admits => by
    simp only [admits_append] at admits
    exact ⟨printable_of_function h admits.1, printableAll_of_functions h' admits.2⟩

end

end

end Lox
