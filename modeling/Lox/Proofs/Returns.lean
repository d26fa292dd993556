import Mathlib.Data.List.Forall2
import Lox.Proofs.Parse
import Lox.Proofs.Rules.Site

/-!
The `return` statements of a program, in its text and in its tree.

A text has something or nothing between `return` and the next semicolon. The tree always has a value
there, and functions around it. Both name the statements in the order in which they are written, and
each value is what the text says it is (`stands_of_declarations`). The tree tells apart what is
returned, but not a bare `return` from one that returns the literal `nil` (`Stands.eq_nil_iff`).
-/

namespace Lox

open Grammar

/-! ### In a tree -/

/-- A `return` of a tree: the innermost function or method around it, and its value. -/
structure Returned where
  owner : Option Part
  value : Expr

mutual

/-- The `return` statements in a statement, as they are written one after the other. -/
def Stmt.returns (owner : Option Part) : Stmt → List Returned
  | .return value => [⟨owner, value⟩]
  | .funDecl decl => decl.returns .function
  | .classDecl decl => decl.returns
  | .block body => Stmt.returnsAll owner body
  | .ite _ thenBranch elseBranch => thenBranch.returns owner ++ elseBranch.returns owner
  | .while _ body => body.returns owner
  | .for init _ _ body => Stmt.returns? owner init ++ body.returns owner
  | .nop | .expr _ | .print _ | .varDecl _ _ => []

/-- The `return` statements in a statement that may be absent. -/
def Stmt.returns? (owner : Option Part) : Option Stmt → List Returned
  | some s => s.returns owner
  | none => []

/-- The `return` statements in a statement list. -/
def Stmt.returnsAll (owner : Option Part) : List Stmt → List Returned
  | [] => []
  | s :: rest => s.returns owner ++ Stmt.returnsAll owner rest

/-- The `return` statements in a function or method, to whose body it is the innermost one. -/
def FunctionDecl.returns (kind : FunctionDecl → Part) : FunctionDecl → List Returned
  | ⟨name, params, body⟩ => Stmt.returnsAll (some (kind ⟨name, params, body⟩)) body

/-- The `return` statements in the methods of a class. -/
def FunctionDecl.returnsAll : List FunctionDecl → List Returned
  | [] => []
  | decl :: rest => decl.returns .method ++ FunctionDecl.returnsAll rest

/-- The `return` statements in a class. -/
def ClassDecl.returns : ClassDecl → List Returned
  | ⟨_, _, methods⟩ => FunctionDecl.returnsAll methods

end

/-! ### In a text -/

/-- What is written behind each `return`, up to the next semicolon. -/
def writtenReturns : List Token → List (List Token)
  | [] => []
  | token :: rest =>
    if token = .keyword .return then
      rest.takeWhile (· ≠ .mark .semicolon) :: writtenReturns rest
    else writtenReturns rest

/-- What is written behind a `return` stands for a value: nothing stands for `nil`, and an
expression for its tree. -/
inductive Stands : List Token → Expr → Prop where
  | nothing : Stands [] .nil
  | expression {toks e} : Expression .expression toks e → Stands toks e

/-- Neither `return` nor a semicolon. -/
def Token.isPlain : Token → Bool
  | .keyword .return | .mark .semicolon => false
  | _ => true

theorem Token.ne_of_isPlain {token : Token} (plain : token.isPlain) :
    token ≠ .keyword .return ∧ token ≠ .mark .semicolon := by
  constructor
  · rintro rfl
    cases plain
  · rintro rfl
    cases plain

/-- All tokens are plain. -/
def PlainTokens (toks : List Token) : Prop := ∀ token ∈ toks, token.isPlain

/-! ### No `return` in an expression -/

section

variable {token : Token} {toks toks' : List Token}

@[simp] theorem plain_nil : PlainTokens [] := fun _ mem => nomatch mem

@[simp] theorem plain_cons : PlainTokens (token :: toks) ↔ token.isPlain ∧ PlainTokens toks :=
  List.forall_mem_cons

@[simp] theorem plain_append : PlainTokens (toks ++ toks') ↔ PlainTokens toks ∧ PlainTokens toks' :=
  List.forall_mem_append

theorem plain_of_operator {a b : Category} {node : Expr → Expr → Expr}
    (rule : Operator a token b node) : token.isPlain := by
  cases rule <;> rfl

theorem plain_of_atom {e : Expr} (rule : Atom token e) : token.isPlain := by
  cases rule <;> rfl

end

mutual

theorem plain_of_expression : ∀ {a : Category} {toks : List Token} {e : Expr},
    Expression a toks e → PlainTokens toks
  | _, _, _, .tighter _ h => plain_of_expression h
  | _, _, _, .assign h => by simp [plain_of_expression h, Token.isPlain]
  | _, _, _, .set h h' => by simp [plain_of_expression h, plain_of_expression h', Token.isPlain]
  | _, _, _, @Expression.operator _ _ _ _ _ _ _ _ rule h h' => by
    simp [plain_of_expression h, plain_of_expression h', plain_of_operator rule]
  | _, _, _, .not h => by simp [plain_of_expression h, Token.isPlain]
  | _, _, _, .minus h => by simp [plain_of_expression h, Token.isPlain]
  | _, _, _, .call h h' => by simp [plain_of_expression h, plain_of_arguments h', Token.isPlain]
  | _, _, _, .get h => by simp [plain_of_expression h, Token.isPlain]
  | _, _, _, .atom rule => by simp [plain_of_atom rule]
  | _, _, _, .group h => by simp [plain_of_expression h, Token.isPlain]
  | _, _, _, .super => by simp [Token.isPlain]

theorem plain_of_arguments : ∀ {toks : List Token} {args : List Expr},
    Arguments toks args → PlainTokens toks
  | _, _, .none => plain_nil
  | _, _, .some h => plain_of_argumentList h

theorem plain_of_argumentList : ∀ {toks : List Token} {args : List Expr},
    ArgumentList toks args → PlainTokens toks
  | _, _, .last h => plain_of_expression h
  | _, _, .more h h' => by
    simp [plain_of_expression h, plain_of_argumentList h', Token.isPlain]

end

section

variable {toks : List Token}

theorem plain_of_optional {e : Option Expr} (h : OptionalExpression toks e) : PlainTokens toks := by
  cases h with
  | none => exact plain_nil
  | some h => exact plain_of_expression h

theorem plain_of_nameList {names : List Name} (h : NameList toks names) : PlainTokens toks := by
  induction h with
  | last => simp [Token.isPlain]
  | more _ ih => simp [ih, Token.isPlain]

theorem plain_of_parameters {names : List Name} (h : Parameters toks names) : PlainTokens toks := by
  cases h with
  | none => exact plain_nil
  | some h => exact plain_of_nameList h

theorem plain_of_superclass {parent : Option Name} (h : Superclass toks parent) : PlainTokens toks := by
  cases h <;> simp [Token.isPlain]

end

/-! ### The two lists -/

/-- Whatever follows the tokens, what is written behind `return` in them stands for the values. -/
def Lists (toks : List Token) (returns : List Returned) : Prop :=
  ∃ written, (∀ rest, writtenReturns (toks ++ rest) = written ++ writtenReturns rest) ∧
    List.Forall₂ (fun w r => Stands w r.value) written returns

section

variable {token : Token} {toks toks' : List Token} {returns returns' : List Returned}

theorem lists_nil : Lists [] [] := ⟨[], fun _ => rfl, .nil⟩

theorem Lists.append (h : Lists toks returns) (h' : Lists toks' returns') :
    Lists (toks ++ toks') (returns ++ returns') := by
  obtain ⟨written, first, stand⟩ := h
  obtain ⟨written', second, stand'⟩ := h'
  refine ⟨written ++ written', fun rest => ?_, List.rel_append stand stand'⟩
  rw [List.append_assoc, first, second, List.append_assoc]

theorem Lists.cons (h : Lists toks returns) (ne : token ≠ .keyword .return := by nofun) :
    Lists (token :: toks) returns := by
  obtain ⟨written, all, stand⟩ := h
  refine ⟨written, fun rest => ?_, stand⟩
  rw [List.cons_append, writtenReturns, if_neg ne, all]

theorem Lists.concat (h : Lists toks returns) (ne : token ≠ .keyword .return := by nofun) :
    Lists (toks ++ [token]) returns := by
  have closed := h.append (lists_nil.cons ne)
  rwa [List.append_nil] at closed

theorem Lists.behind (h : Lists toks returns) {front : List Token} (plain : PlainTokens front) :
    Lists (front ++ toks) returns := by
  induction front with
  | nil => exact h
  | cons token front ih =>
    obtain ⟨first, others⟩ := plain_cons.mp plain
    exact (ih others).cons (Token.ne_of_isPlain first).1

/-- The value of a `return` is written up to the first semicolon behind it. -/
theorem lists_return {owner : Option Part} {value : Expr} (plain : PlainTokens toks)
    (stands : Stands toks value) :
    Lists (.keyword .return :: (toks ++ [.mark .semicolon])) [⟨owner, value⟩] := by
  refine ⟨[toks], fun rest => ?_, .cons stands .nil⟩
  -- No semicolon stands in the value, so that what is written ends where the value does.
  have upTo : ∀ token ∈ toks, decide (token ≠ .mark .semicolon) = true := fun token mem =>
    decide_eq_true (Token.ne_of_isPlain (plain token mem)).2
  have silent : Lists (toks ++ [.mark .semicolon]) [] := lists_nil.cons.behind plain
  obtain ⟨written, all, none⟩ := silent
  cases none
  rw [List.cons_append, writtenReturns, if_pos rfl, all, List.append_assoc,
    List.takeWhile_append_of_pos upTo]
  simp

/-! ### Over the grammar -/

theorem lists_varDecl {s : Stmt} (owner : Option Part) (h : VarDecl toks s) :
    Lists toks (s.returns owner) := by
  cases h with
  | bare => exact lists_nil.cons.cons.cons
  | init h => exact (lists_nil.cons.behind (plain_of_expression h)).cons.cons.cons

theorem lists_exprStmt {s : Stmt} (owner : Option Part) (h : ExprStmt toks s) :
    Lists toks (s.returns owner) := by
  obtain ⟨h⟩ := h
  exact lists_nil.cons.behind (plain_of_expression h)

theorem lists_loopInit {init : Option Stmt} (owner : Option Part) (h : LoopInit toks init) :
    Lists toks (Stmt.returns? owner init) := by
  cases h with
  | none => exact lists_nil.cons
  | var h => exact lists_varDecl owner h
  | expr h => exact lists_exprStmt owner h

end

mutual

theorem lists_statement : ∀ {isOpen : Bool} {toks : List Token} {s : Stmt}
    (owner : Option Part), Statement isOpen toks s → Lists toks (s.returns owner)
  | _, _, _, owner, .expr h => lists_exprStmt owner h
  | _, _, _, _, .print h => (lists_nil.cons.behind (plain_of_expression h)).cons
  | _, _, _, _, .returnNil => lists_return plain_nil .nothing
  | _, _, _, _, .return h => lists_return (plain_of_expression h) (.expression h)
  | _, _, _, _, .nop => lists_nil.cons
  | _, _, _, owner, .block h => (lists_declarations owner h).concat.cons
  | _, _, _, owner, .ifElse h h₁ h₂ =>
    have branches := (lists_statement owner h₁).append (lists_statement owner h₂).cons
    (branches.cons.behind (plain_of_expression h)).cons.cons
  | _, _, _, owner, .if h h₁ => by
    have branches := (lists_statement owner h₁).append lists_nil
    rw [List.append_nil] at branches
    exact (branches.cons.behind (plain_of_expression h)).cons.cons
  | _, _, _, owner, .while h h₁ =>
    ((lists_statement owner h₁).cons.behind (plain_of_expression h)).cons.cons
  | _, _, _, owner, .for h₀ h₁ h₂ h₃ =>
    have step := (lists_statement owner h₃).cons.behind (plain_of_optional h₂)
    have rest := step.cons.behind (plain_of_optional h₁)
    ((lists_loopInit owner h₀).append rest).cons.cons

theorem lists_declaration : ∀ {toks : List Token} {s : Stmt} (owner : Option Part),
    Declaration toks s → Lists toks (s.returns owner)
  | _, _, owner, .var h => lists_varDecl owner h
  | _, _, _, .fun h => (lists_function .function h).cons
  | _, _, _, .cls h h' =>
    ((lists_functions h').concat.cons.behind (plain_of_superclass h)).cons.cons
  | _, _, owner, .statement h => lists_statement owner h

theorem lists_declarations : ∀ {toks : List Token} {stmts : List Stmt} (owner : Option Part),
    Declarations toks stmts → Lists toks (Stmt.returnsAll owner stmts)
  | _, _, _, .nil => lists_nil
  | _, _, owner, .cons h h' => (lists_declaration owner h).append (lists_declarations owner h')

theorem lists_function : ∀ {toks : List Token} {decl : FunctionDecl}
    (kind : FunctionDecl → Part), Function toks decl → Lists toks (decl.returns kind)
  | _, _, _, .mk h h' =>
    ((lists_declarations _ h').concat.cons.cons.behind (plain_of_parameters h)).cons.cons

theorem lists_functions : ∀ {toks : List Token} {decls : List FunctionDecl},
    Functions toks decls → Lists toks (FunctionDecl.returnsAll decls)
  | _, _, .nil => lists_nil
  | _, _, .cons h h' => (lists_function .method h).append (lists_functions h')

end

/-- What is written behind the `return` statements of a program stands for their values in its
tree. -/
theorem stands_of_declarations {toks : List Token} {stmts : List Stmt}
    (derived : Declarations toks stmts) :
    List.Forall₂ (fun w r => Stands w r.value) (writtenReturns toks)
      (Stmt.returnsAll none stmts) := by
  obtain ⟨written, all, stand⟩ := lists_declarations none derived
  have whole := all []
  rw [List.append_nil, writtenReturns, List.append_nil] at whole
  rwa [whole]

/-! ### The literal `nil` -/

/-- Only the literal has its tree. -/
theorem eq_keyword_of_expression : ∀ {a : Category} {toks : List Token} {e : Expr},
    Expression a toks e → e = .nil → toks = [.keyword .nil]
  | _, _, _, .tighter _ h, isNil => eq_keyword_of_expression h isNil
  | _, _, _, .atom .nil, _ => rfl
  | _, _, _, @Expression.operator _ _ _ _ _ _ _ _ rule _ _, isNil => by cases rule <;> cases isNil

/-- The literal has no other tree, since no text has two. -/
theorem eq_nil_of_expression {e : Expr} (h : Expression .expression [.keyword .nil] e) :
    e = .nil := by
  let items : List Item := [⟨1, .ok (.keyword .nil)⟩, ⟨1, .ok .eof⟩]
  have literal : expressionOfItems items = .ok .nil := rfl
  have parsed : expressionOfItems items = .ok e := expressionOfItems_eq_ok.mpr ⟨_, rfl, h⟩
  exact Except.ok.inj (parsed.symm.trans literal)

/-- A `return` has the value `nil` if nothing is written behind it or the literal is. -/
theorem Stands.eq_nil_iff {written : List Token} {value : Expr} (h : Stands written value) :
    value = .nil ↔ written = [] ∨ written = [.keyword .nil] := by
  constructor
  · intro isNil
    cases h with
    | nothing => exact .inl rfl
    | expression h => exact .inr (eq_keyword_of_expression h isNil)
  · rintro (rfl | rfl)
    · cases h with
      | nothing => rfl
      | expression h =>
        obtain ⟨_, _, none, -⟩ := Parse.startsExpression_of_expression h
        cases none
    · cases h with
      | expression h => exact eq_nil_of_expression h

end Lox
