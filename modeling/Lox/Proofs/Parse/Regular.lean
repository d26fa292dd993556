import Lox.Desugar
import Lox.Proofs.Parse
import Lox.Proofs.Scan

/-!
What every parsed tree has in common, once its loops are replaced.

In a regular tree no reserved word stands in the place of a variable, no loop is left to be
replaced, and declarations stand directly in statement lists, not in the branches of an `if` or in
the body of a `while`. None of this is checked after parsing: it is so because the scanner makes
keywords of reserved words, and because of the grammar. The main statements are
`regularAll_of_parse` and `regular_of_parseExpression`.
-/

namespace Lox

open Grammar

/-! ### Regular trees -/

mutual

/-- No reserved word is read or assigned to as a variable. -/
def Expr.Regular : Expr → Prop
  | .nil | .number _ | .bool _ | .string _ | .this | .super _ => True
  | .var name => name.isReserved = false
  | .unary _ operand => operand.Regular
  | .group e => e.Regular
  | .assign name value => name.isReserved = false ∧ value.Regular
  | .binary _ left right => left.Regular ∧ right.Regular
  | .logic _ left right => left.Regular ∧ right.Regular
  | .call callee args => callee.Regular ∧ Expr.RegularAll args
  | .get object _ => object.Regular
  | .set object _ value => object.Regular ∧ value.Regular

/-- All expressions of a list are regular. -/
def Expr.RegularAll : List Expr → Prop
  | [] => True
  | e :: rest => e.Regular ∧ Expr.RegularAll rest

end

mutual

/-- A statement without loops to be replaced, with regular parts and no misplaced declaration. -/
def Stmt.Regular : Stmt → Prop
  | .nop => True
  | .expr e => e.Regular
  | .print e => e.Regular
  | .varDecl _ init => init.Regular
  | .funDecl decl => decl.Regular
  | .classDecl decl => decl.Regular
  | .block body => Stmt.RegularAll body
  | .ite cond thenBranch elseBranch =>
    cond.Regular ∧ (thenBranch.declaredName? = none ∧ thenBranch.Regular) ∧
      elseBranch.declaredName? = none ∧ elseBranch.Regular
  | .while cond body => cond.Regular ∧ body.declaredName? = none ∧ body.Regular
  | .for _ _ _ _ => False
  | .return value => value.Regular

/-- All statements of a list are regular. -/
def Stmt.RegularAll : List Stmt → Prop
  | [] => True
  | stmt :: rest => stmt.Regular ∧ Stmt.RegularAll rest

/-- The body of a function is regular. -/
def FunctionDecl.Regular : FunctionDecl → Prop
  | ⟨_, _, body⟩ => Stmt.RegularAll body

/-- All functions of a list are regular. -/
def FunctionDecl.RegularAll : List FunctionDecl → Prop
  | [] => True
  | decl :: rest => decl.Regular ∧ FunctionDecl.RegularAll rest

/-- The methods of a class are regular, and its superclass is not named by a reserved word. -/
def ClassDecl.Regular : ClassDecl → Prop
  | ⟨_, superclass, methods⟩ =>
    (∀ name, superclass = some name → name.isReserved = false) ∧ FunctionDecl.RegularAll methods

end

theorem FunctionDecl.regular_of_mem {decls : List FunctionDecl}
    (h : FunctionDecl.RegularAll decls) : ∀ decl ∈ decls, decl.Regular := by
  induction decls with
  | nil => simp
  | cons first rest ih =>
    obtain ⟨regular, others⟩ := h
    intro decl mem
    rcases List.mem_cons.mp mem with rfl | mem
    · exact regular
    · exact ih others decl mem

theorem FunctionDecl.Regular.body {decl : FunctionDecl} (h : decl.Regular) :
    Stmt.RegularAll decl.body := by
  cases decl
  exact h

theorem ClassDecl.Regular.superclass {decl : ClassDecl} (h : decl.Regular) :
    ∀ name, decl.superclass = some name → name.isReserved = false := by
  cases decl
  exact h.1

theorem ClassDecl.Regular.methods {decl : ClassDecl} (h : decl.Regular) :
    ∀ m ∈ decl.methods, m.Regular := by
  cases decl
  exact FunctionDecl.regular_of_mem h.2

/-! ### Tokens -/

/-- A token that is not a reserved word taken for an identifier. -/
def Token.Unreserved : Token → Prop
  | .identifier name => name.isReserved = false
  | _ => True

theorem Token.unreserved_ofWord (word : String) : (Token.ofWord word).Unreserved := by
  unfold Token.ofWord
  cases known : Keyword.ofText? word with
  | some k => trivial
  | none => simp [Token.Unreserved, Name.isReserved, known]

theorem Scan.unreserved_piece {line : Nat} {c : Char} {cs : List Char} {token : Token}
    (h : (piece line c cs).content = .ok token) : token.Unreserved := by
  unfold piece at h
  by_cases quote : c = '"'
  · rw [if_pos quote] at h
    unfold stringPiece at h
    split at h <;> cases h
    trivial
  rw [if_neg quote] at h
  by_cases digit : isDigit c = true
  · rw [if_pos digit] at h
    unfold numberPiece at h
    dsimp only at h
    repeat' split at h
    all_goals cases h
    all_goals trivial
  rw [if_neg digit] at h
  by_cases start : isWordStart c = true
  · rw [if_pos start] at h
    cases h
    exact Token.unreserved_ofWord _
  rw [if_neg start] at h
  split at h <;> cases h
  trivial

theorem Scan.Lexes.unreserved {text : List Char} {toks : List Token} (h : Lexes text toks) :
    ∀ token ∈ toks, token.Unreserved := by
  induction h with
  | nil => simp
  | cons _ found _ ih =>
    intro token mem
    rcases List.mem_cons.mp mem with rfl | mem
    · exact unreserved_piece found
    · exact ih token mem

/-! ### Derived trees -/

theorem Expr.regular_node {a b : Category} {op : Token} {node : Expr → Expr → Expr}
    {left right : Expr} (h : Operator a op b node) (hl : left.Regular) (hr : right.Regular) :
    (node left right).Regular := by
  cases h <;> exact ⟨hl, hr⟩

mutual

/-- Derived expressions are regular. -/
theorem regular_of_expression : ∀ {a toks e}, Expression a toks e →
    (∀ token ∈ toks, token.Unreserved) → e.Regular
  | _, _, _, .tighter _ h, ok => regular_of_expression h ok
  | _, _, _, .assign h, ok => by
    simp only [List.forall_mem_cons] at ok
    exact ⟨ok.1, regular_of_expression h ok.2.2⟩
  | _, _, _, .set h h', ok => by
    simp only [List.forall_mem_append, List.forall_mem_cons] at ok
    exact ⟨regular_of_expression h ok.1, regular_of_expression h' ok.2.2.2.2⟩
  | _, _, _, @Expression.operator _ _ _ _ _ _ _ _ op h h', ok => by
    simp only [List.forall_mem_append, List.forall_mem_cons] at ok
    exact Expr.regular_node op (regular_of_expression h ok.1) (regular_of_expression h' ok.2.2)
  | _, _, _, .not h, ok => by
    simp only [List.forall_mem_cons] at ok
    have operand := regular_of_expression h ok.2
    exact operand
  | _, _, _, .minus h, ok => by
    simp only [List.forall_mem_cons] at ok
    have operand := regular_of_expression h ok.2
    exact operand
  | _, _, _, .call h h', ok => by
    simp only [List.forall_mem_append, List.forall_mem_cons] at ok
    exact ⟨regular_of_expression h ok.1, regularAll_of_arguments h' ok.2.2.1⟩
  | _, _, _, .get h, ok => by
    simp only [List.forall_mem_append] at ok
    have object := regular_of_expression h ok.1
    exact object
  | _, _, _, .atom h, ok => by
    simp only [List.forall_mem_cons] at ok
    cases h with
    | «variable» => exact ok.1
    | _ => trivial
  | _, _, _, .group h, ok => by
    simp only [List.forall_mem_append, List.forall_mem_cons] at ok
    have inner := regular_of_expression h ok.2.1
    exact inner
  | _, _, _, .super, _ => trivial

theorem regularAll_of_arguments : ∀ {toks args}, Arguments toks args →
    (∀ token ∈ toks, token.Unreserved) → Expr.RegularAll args
  | _, _, .none, _ => trivial
  | _, _, .some h, ok => regularAll_of_argumentList h ok

theorem regularAll_of_argumentList : ∀ {toks args}, ArgumentList toks args →
    (∀ token ∈ toks, token.Unreserved) → Expr.RegularAll args
  | _, _, .last h, ok => ⟨regular_of_expression h ok, trivial⟩
  | _, _, .more h h', ok => by
    simp only [List.forall_mem_append, List.forall_mem_cons] at ok
    exact ⟨regular_of_expression h ok.1, regularAll_of_argumentList h' ok.2.2⟩

end

theorem regular_of_varDecl {toks : List Token} {stmt : Stmt} (h : VarDecl toks stmt)
    (ok : ∀ token ∈ toks, token.Unreserved) : stmt.desugar = stmt ∧ stmt.Regular := by
  cases h with
  | bare => exact ⟨rfl, trivial⟩
  | init h =>
    simp only [List.forall_mem_append, List.forall_mem_cons] at ok
    exact ⟨rfl, regular_of_expression h ok.2.2.2.1⟩

theorem regular_of_exprStmt {toks : List Token} {stmt : Stmt} (h : ExprStmt toks stmt)
    (ok : ∀ token ∈ toks, token.Unreserved) :
    (stmt.desugar = stmt ∧ stmt.declaredName? = none) ∧ stmt.Regular := by
  obtain ⟨h⟩ := h
  simp only [List.forall_mem_append] at ok
  exact ⟨⟨rfl, rfl⟩, regular_of_expression h ok.1⟩

theorem regular_of_loopInit {toks : List Token} {init : Option Stmt} (h : LoopInit toks init)
    (ok : ∀ token ∈ toks, token.Unreserved) : ∀ stmt, init = some stmt → stmt.Regular := by
  intro stmt same
  cases h with
  | none => cases same
  | var h =>
    cases same
    exact (regular_of_varDecl h ok).2
  | expr h =>
    cases same
    exact (regular_of_exprStmt h ok).2

theorem regular_of_optionalExpression {toks : List Token} {found : Option Expr}
    (h : OptionalExpression toks found) (ok : ∀ token ∈ toks, token.Unreserved) :
    ∀ e, found = some e → e.Regular := by
  intro e same
  cases h with
  | none => cases same
  | some h =>
    cases same
    exact regular_of_expression h ok

theorem regular_of_superclass {toks : List Token} {superclass : Option Name}
    (h : Superclass toks superclass) (ok : ∀ token ∈ toks, token.Unreserved) :
    ∀ name, superclass = some name → name.isReserved = false := by
  intro name same
  cases h with
  | none => cases same
  | some =>
    cases same
    simp only [List.forall_mem_cons] at ok
    exact ok.2.1

/-- What a loop stands for is regular and declares nothing. -/
theorem Stmt.regular_ofFor {init : Option Stmt} {cond incr : Option Expr} {body : Stmt}
    (hinit : ∀ stmt, init = some stmt → stmt.Regular) (hcond : ∀ e, cond = some e → e.Regular)
    (hincr : ∀ e, incr = some e → e.Regular) (hbody : body.Regular) :
    (Stmt.ofFor init cond incr body).declaredName? = none ∧
      (Stmt.ofFor init cond incr body).Regular := by
  have hcond : (cond.getD (.bool true)).Regular := by
    cases cond with
    | none => trivial
    | some e => exact hcond e rfl
  have loop : ∀ rest, Stmt.RegularAll rest →
      (Stmt.while (cond.getD (.bool true)) (.block (body :: rest))).Regular :=
    fun rest h => ⟨hcond, rfl, hbody, h⟩
  cases init with
  | none =>
    cases incr with
    | none => exact ⟨rfl, loop [] trivial⟩
    | some e => exact ⟨rfl, loop [.expr e] ⟨hincr e rfl, trivial⟩⟩
  | some first =>
    have hfirst := hinit first rfl
    cases incr with
    | none => exact ⟨rfl, hfirst, loop [] trivial, trivial⟩
    | some e => exact ⟨rfl, hfirst, loop [.expr e] ⟨hincr e rfl, trivial⟩, trivial⟩

mutual

/-- Derived statements are regular, with their loops replaced, and declare nothing. -/
theorem regular_of_statement : ∀ {isOpen toks stmt}, Statement isOpen toks stmt →
    (∀ token ∈ toks, token.Unreserved) →
    stmt.desugar.declaredName? = none ∧ stmt.desugar.Regular
  | _, _, _, .expr h, ok => by
    obtain ⟨⟨same, none⟩, regular⟩ := regular_of_exprStmt h ok
    exact same.symm ▸ ⟨none, regular⟩
  | _, _, _, .print h, ok => by
    simp only [List.forall_mem_append, List.forall_mem_cons] at ok
    exact ⟨rfl, regular_of_expression h ok.2.1⟩
  | _, _, _, .returnNil, _ => ⟨rfl, trivial⟩
  | _, _, _, .return h, ok => by
    simp only [List.forall_mem_append, List.forall_mem_cons] at ok
    exact ⟨rfl, regular_of_expression h ok.2.1⟩
  | _, _, _, .nop, _ => ⟨rfl, trivial⟩
  | _, _, _, .block h, ok => by
    simp only [List.forall_mem_append, List.forall_mem_cons] at ok
    exact ⟨rfl, regularAll_of_declarations h ok.2.1⟩
  | _, _, _, .ifElse h h₁ h₂, ok => by
    simp only [List.forall_mem_append, List.forall_mem_cons] at ok
    exact ⟨rfl, regular_of_expression h ok.2.2.1, regular_of_statement h₁ ok.2.2.2.2.1,
      regular_of_statement h₂ ok.2.2.2.2.2.2⟩
  | _, _, _, .if h h₁, ok => by
    simp only [List.forall_mem_append, List.forall_mem_cons] at ok
    exact ⟨rfl, regular_of_expression h ok.2.2.1, regular_of_statement h₁ ok.2.2.2.2, rfl, trivial⟩
  | _, _, _, .while h h₁, ok => by
    simp only [List.forall_mem_append, List.forall_mem_cons] at ok
    exact ⟨rfl, regular_of_expression h ok.2.2.1, regular_of_statement h₁ ok.2.2.2.2⟩
  | _, _, _, .for h₀ h₁ h₂ h₃, ok => by
    simp only [List.forall_mem_append, List.forall_mem_cons] at ok
    obtain ⟨-, -, ok₀, ok₁, -, ok₂, -, ok₃⟩ := ok
    exact Stmt.regular_ofFor (regular_of_loopInit h₀ ok₀) (regular_of_optionalExpression h₁ ok₁)
      (regular_of_optionalExpression h₂ ok₂) (regular_of_statement h₃ ok₃).2

/-- Derived declarations are regular, with their loops replaced. -/
theorem regular_of_declaration : ∀ {toks stmt}, Declaration toks stmt →
    (∀ token ∈ toks, token.Unreserved) → stmt.desugar.Regular
  | _, _, .var h, ok => by
    obtain ⟨same, regular⟩ := regular_of_varDecl h ok
    exact same.symm ▸ regular
  | _, _, .fun h, ok => by
    simp only [List.forall_mem_cons] at ok
    exact regular_of_function h ok.2
  | _, _, .cls h h', ok => by
    simp only [List.forall_mem_append, List.forall_mem_cons] at ok
    exact ⟨regular_of_superclass h ok.2.2.1, regularAll_of_functions h' ok.2.2.2.2.1⟩
  | _, _, .statement h, ok => (regular_of_statement h ok).2

theorem regularAll_of_declarations : ∀ {toks stmts}, Declarations toks stmts →
    (∀ token ∈ toks, token.Unreserved) → Stmt.RegularAll (Stmt.desugarAll stmts)
  | _, _, .nil, _ => trivial
  | _, _, .cons h h', ok => by
    simp only [List.forall_mem_append] at ok
    exact ⟨regular_of_declaration h ok.1, regularAll_of_declarations h' ok.2⟩

/-- Derived functions are regular, with their loops replaced. -/
theorem regular_of_function : ∀ {toks decl}, Function toks decl →
    (∀ token ∈ toks, token.Unreserved) → decl.desugar.Regular
  | _, _, .mk _ h', ok => by
    simp only [List.forall_mem_append, List.forall_mem_cons] at ok
    exact regularAll_of_declarations h' ok.2.2.2.2.2.1

theorem regularAll_of_functions : ∀ {toks decls}, Functions toks decls →
    (∀ token ∈ toks, token.Unreserved) →
    FunctionDecl.RegularAll (FunctionDecl.desugarAll decls)
  | _, _, .nil, _ => trivial
  | _, _, .cons h h', ok => by
    simp only [List.forall_mem_append] at ok
    exact ⟨regular_of_function h ok.1, regularAll_of_functions h' ok.2⟩

end

/-! ### Parsed texts -/

theorem regularAll_of_parse {text : String} {tree : List Stmt}
    (h : parseProgram text = .ok tree) : Stmt.RegularAll (Stmt.desugarAll tree) := by
  unfold parseProgram at h
  rw [programOfItems_eq_ok] at h
  obtain ⟨toks, scanned, derived⟩ := h
  exact regularAll_of_declarations derived (tokens_scan_eq_ok.mp scanned).unreserved

theorem regular_of_parseExpression {text : String} {e : Expr}
    (h : parseExpression text = .ok e) : e.Regular := by
  unfold parseExpression at h
  rw [expressionOfItems_eq_ok] at h
  obtain ⟨toks, scanned, derived⟩ := h
  exact regular_of_expression derived (tokens_scan_eq_ok.mp scanned).unreserved

end Lox
