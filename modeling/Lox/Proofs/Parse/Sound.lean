import Lox.Proofs.Grammar
import Lox.Proofs.Parse.Reading

/-!
The parser keeps to the grammar: the tokens it has read derive the tree it gives.

The target of an assignment is read before the `=` behind it is seen. That its tokens are a name, or
a call with a point and a name, is recovered from the tree by `eq_of_expression_var` and
`eq_of_expression_get`. The main statements are `expressionSound` and `statementSound`, each one
induction on the fuel, and `sound_program` and `sound_wholeExpression`.
-/

namespace Lox.Parse

open Grammar

/-! ### Expressions -/

/-- The category of the chains of a level. -/
def Level.category : Level → Category
  | .or => .logicOr
  | .and => .logicAnd
  | .equality => .equality
  | .comparison => .comparison
  | .term => .term
  | .factor => .factor

/-- The category of the operands of a level. -/
def Level.operandCategory (level : Level) : Category :=
  match level.tighter? with
  | some tighter => tighter.category
  | none => .unary

theorem Level.contains (level : Level) : Contains level.category level.operandCategory := by
  cases level <;> constructor

/-- The operators of a level are those of its category, in front of an operand. -/
theorem Level.operator?_eq_some {level : Level} {token : Token} {node : Expr → Expr → Expr} :
    level.operator? token = some node ↔
      Operator level.category token level.operandCategory node := by
  constructor
  · intro h
    unfold Level.operator? at h
    split at h <;> cases h <;> constructor
  · intro h
    cases level <;> cases h <;> rfl

theorem atom?_eq_some {token : Token} {e : Expr} : atom? token = some e ↔ Atom token e := by
  constructor
  · intro h
    unfold atom? at h
    split at h <;> cases h <;> constructor
  · intro h
    cases h <;> rfl

/-- A variable is derived from its name alone. -/
theorem eq_of_expression_var {name : Name} :
    ∀ {a toks e}, Expression a toks e → e = .var name → toks = [.identifier name]
  | _, _, _, .tighter _ h, same => eq_of_expression_var h same
  | _, _, _, @Expression.operator _ _ _ _ _ _ _ _ op _ _, same => by cases op <;> cases same
  | _, _, _, .atom h, same => by
    subst same
    cases h
    rfl

/-- A property is derived from a call, a point and its name. -/
theorem eq_of_expression_get {object : Expr} {name : Name} :
    ∀ {a toks e}, Expression a toks e → e = .get object name →
      ∃ toks', toks = toks' ++ [.mark .dot, .identifier name] ∧ Expression .call toks' object
  | _, _, _, .tighter _ h, same => eq_of_expression_get h same
  | _, _, _, @Expression.operator _ _ _ _ _ _ _ _ op _ _, same => by cases op <;> cases same
  | _, _, _, .atom h, same => by
    subst same
    cases h
  | _, _, _, .get h, same => by
    cases same
    exact ⟨_, rfl, h⟩

/-- Wherever a parser gives a tree, it has read tokens that the grammar derives for it. -/
def Sound {α : Type} (p : Parser α) (G : List Token → α → Prop) : Prop :=
  ∀ c a c', p c = .ok a c' → ∃ toks, Reads c toks c' ∧ G toks a

/-- The parsers of expressions keep to the grammar. -/
structure ExpressionSound (fuel : Nat) : Prop where
  expression : Sound (expression fuel) (Expression .expression)
  binary : ∀ level : Level, Sound (binary fuel level) (Expression level.category)
  binaryRest : ∀ (level : Level) left toks, Expression level.category toks left →
    Sound (binaryRest fuel level left) (fun toks' => Expression level.category (toks ++ toks'))
  unary : Sound (unary fuel) (Expression .unary)
  callRest : ∀ callee toks, Expression .call toks callee →
    Sound (callRest fuel callee) (fun toks' => Expression .call (toks ++ toks'))
  arguments : Sound (arguments fuel) ArgumentList
  primary : Sound (primary fuel) (Expression .primary)

theorem ExpressionSound.operand {fuel : Nat} (ih : ExpressionSound fuel) (level : Level) :
    Sound (level.operand (Parse.binary fuel) (Parse.unary fuel))
      (Expression level.operandCategory) := by
  unfold Level.operand Level.operandCategory
  cases level.tighter? with
  | some tighter => exact ih.binary tighter
  | none => exact ih.unary

/-- An assignment is derived from what was read for its target and for its value. -/
theorem expression_of_assignment? {target value e : Expr} {toks toks' : List Token}
    (found : assignment? target value = some e) (left : Expression .logicOr toks target)
    (right : Expression .expression toks' value) :
    Expression .expression (toks ++ .mark .equal :: toks') e := by
  cases target with
  | var name =>
    cases found
    rw [eq_of_expression_var left rfl]
    exact .assign right
  | get object name =>
    cases found
    obtain ⟨toks, rfl, call⟩ := eq_of_expression_get left rfl
    rw [List.append_assoc]
    exact .set call right
  | _ => cases found

theorem expressionSound (fuel : Nat) : ExpressionSound fuel := by
  induction fuel with
  | zero => constructor <;> intros <;> intro c a c' h <;> cases h
  | succ fuel ih =>
    constructor
    case expression =>
      intro c e c' h
      unfold expression at h
      obtain ⟨target, c₁, read, h⟩ := bind_eq_ok.mp h
      obtain ⟨toks, reads, left⟩ := ih.binary .or _ _ _ read
      rw [current_bind] at h
      split at h
      · rename_i equal
        obtain ⟨_, c₂, step, h⟩ := bind_eq_ok.mp h
        obtain ⟨value, c₃, read, h⟩ := bind_eq_ok.mp h
        obtain ⟨toks', reads', right⟩ := ih.expression _ _ _ read
        cases found : assignment? target value with
        | none => simp [found] at h
        | some assigned =>
          rw [found] at h
          obtain ⟨rfl, rfl⟩ := succeed_eq_ok.mp h
          exact ⟨_, reads.append ((Reads.one (by simp) equal step).append reads'),
            expression_of_assignment? found left right⟩
      · obtain ⟨rfl, rfl⟩ := succeed_eq_ok.mp h
        exact ⟨toks, reads, .tighter .expression left⟩
    case binary =>
      intro level c e c' h
      unfold binary at h
      obtain ⟨left, c₁, read, h⟩ := bind_eq_ok.mp h
      obtain ⟨toks, reads, derived⟩ := ih.operand level _ _ _ read
      obtain ⟨toks', reads', all⟩ :=
        ih.binaryRest level left toks (.tighter level.contains derived) _ _ _ h
      exact ⟨toks ++ toks', reads.append reads', all⟩
    case binaryRest =>
      intro level left toks derived c e c' h
      unfold binaryRest at h
      rw [current_bind] at h
      cases found : level.operator? c.token with
      | none =>
        rw [found] at h
        obtain ⟨rfl, rfl⟩ := succeed_eq_ok.mp h
        exact ⟨[], .nil, by simpa using derived⟩
      | some node =>
        rw [found] at h
        obtain ⟨_, c₁, step, h⟩ := bind_eq_ok.mp h
        obtain ⟨right, c₂, read, h⟩ := bind_eq_ok.mp h
        obtain ⟨toks₁, reads, derived₁⟩ := ih.operand level _ _ _ read
        have operator := Level.operator?_eq_some.mp found
        obtain ⟨toks₂, reads', all⟩ := ih.binaryRest level _ _ (.operator operator derived derived₁)
          _ _ _ h
        have ne : c.token ≠ .eof := by
          intro eof
          simp [eof, Level.operator?_eof] at found
        refine ⟨c.token :: (toks₁ ++ toks₂), .cons ne step (reads.append reads'), ?_⟩
        simpa using all
    case unary =>
      intro c e c' h
      unfold unary at h
      rw [current_bind] at h
      cases found : unaryOperator? c.token with
      | none =>
        rw [found] at h
        obtain ⟨callee, c₁, read, h⟩ := bind_eq_ok.mp h
        obtain ⟨toks, reads, derived⟩ := ih.primary _ _ _ read
        obtain ⟨toks', reads', all⟩ := ih.callRest callee toks (.tighter .call derived) _ _ _ h
        exact ⟨toks ++ toks', reads.append reads', .tighter .unary all⟩
      | some op =>
        rw [found] at h
        obtain ⟨_, c₁, step, h⟩ := bind_eq_ok.mp h
        obtain ⟨operand, c₂, read, h⟩ := bind_eq_ok.mp h
        obtain ⟨rfl, rfl⟩ := succeed_eq_ok.mp h
        obtain ⟨toks, reads, derived⟩ := ih.unary _ _ _ read
        unfold unaryOperator? at found
        split at found
        · rename_i token
          cases found
          exact ⟨_, (Reads.one (by simp) token step).append reads, .minus derived⟩
        · rename_i token
          cases found
          exact ⟨_, (Reads.one (by simp) token step).append reads, .not derived⟩
        · cases found
    case callRest =>
      intro callee toks derived c e c' h
      unfold callRest at h
      obtain ⟨token, here, h⟩ := exists_current h
      split at h
      · obtain ⟨_, c₁, step, h⟩ := bind_eq_ok.mp h
        have opening := Reads.one (by simp) here step
        rw [current_bind] at h
        split at h
        · rename_i paren'
          obtain ⟨_, c₂, step', h⟩ := bind_eq_ok.mp h
          have closing := Reads.one (by simp) paren' step'
          obtain ⟨toks', reads, all⟩ := ih.callRest _ _ (.call derived .none) _ _ _ h
          exact ⟨_, opening.append (closing.append reads), by simpa using all⟩
        · obtain ⟨args, c₂, read, h⟩ := bind_eq_ok.mp h
          obtain ⟨_, c₃, closed, h⟩ := bind_eq_ok.mp h
          obtain ⟨toks₁, reads, derived₁⟩ := ih.arguments _ _ _ read
          have closing := (expect_eq_ok (by simp)).mp closed
          obtain ⟨toks₂, reads', all⟩ := ih.callRest _ _ (.call derived (.some derived₁)) _ _ _ h
          exact ⟨_, opening.append (reads.append (closing.append reads')), by simpa using all⟩
      · obtain ⟨_, c₁, step, h⟩ := bind_eq_ok.mp h
        obtain ⟨name, c₂, read, h⟩ := bind_eq_ok.mp h
        obtain ⟨toks', reads, all⟩ := ih.callRest _ _ (.get derived) _ _ _ h
        exact ⟨_, (Reads.one (by simp) here step).append ((identifier_eq_ok.mp read).append reads),
          by simpa using all⟩
      · obtain ⟨rfl, rfl⟩ := succeed_eq_ok.mp h
        exact ⟨[], .nil, by simpa using derived⟩
    case arguments =>
      intro c es c' h
      unfold arguments at h
      obtain ⟨arg, c₁, read, h⟩ := bind_eq_ok.mp h
      obtain ⟨toks, reads, derived⟩ := ih.expression _ _ _ read
      rw [current_bind] at h
      split at h
      · rename_i comma
        obtain ⟨_, c₂, step, h⟩ := bind_eq_ok.mp h
        obtain ⟨more, c₃, read, h⟩ := bind_eq_ok.mp h
        obtain ⟨rfl, rfl⟩ := succeed_eq_ok.mp h
        obtain ⟨toks', reads', derived'⟩ := ih.arguments _ _ _ read
        exact ⟨_, reads.append ((Reads.one (by simp) comma step).append reads'),
          .more derived derived'⟩
      · obtain ⟨rfl, rfl⟩ := succeed_eq_ok.mp h
        exact ⟨toks, reads, .last derived⟩
    case primary =>
      intro c e c' h
      unfold primary at h
      obtain ⟨token, here, h⟩ := exists_current h
      cases found : atom? token with
      | some e =>
        rw [found] at h
        obtain ⟨_, c₁, step, h⟩ := bind_eq_ok.mp h
        obtain ⟨rfl, rfl⟩ := succeed_eq_ok.mp h
        have ne : token ≠ .eof := by
          rintro rfl
          simp [atom?] at found
        exact ⟨_, .one ne here step, .atom (atom?_eq_some.mp found)⟩
      | none =>
        rw [found] at h
        dsimp only at h
        split at h
        · obtain ⟨_, c₁, step, h⟩ := bind_eq_ok.mp h
          obtain ⟨_, c₂, dot, h⟩ := bind_eq_ok.mp h
          obtain ⟨name, c₃, read, h⟩ := bind_eq_ok.mp h
          obtain ⟨rfl, rfl⟩ := succeed_eq_ok.mp h
          exact ⟨_, (Reads.one (by simp) here step).append
            (((expect_eq_ok (by simp)).mp dot).append (identifier_eq_ok.mp read)), .super⟩
        · obtain ⟨_, c₁, step, h⟩ := bind_eq_ok.mp h
          obtain ⟨e, c₂, read, h⟩ := bind_eq_ok.mp h
          obtain ⟨_, c₃, closed, h⟩ := bind_eq_ok.mp h
          obtain ⟨rfl, rfl⟩ := succeed_eq_ok.mp h
          obtain ⟨toks, reads, derived⟩ := ih.expression _ _ _ read
          exact ⟨_, (Reads.one (by simp) here step).append
            (reads.append ((expect_eq_ok (by simp)).mp closed)), .group derived⟩
        · simp at h

theorem sound_expression (fuel : Nat) : Sound (expression fuel) (Expression .expression) :=
  (expressionSound fuel).expression

/-! ### Statements -/

theorem sound_expressionLine {fuel : Nat} {c c' : Cursor} {e : Expr}
    (h : expressionLine fuel c = .ok e c') :
    ∃ toks, Reads c (toks ++ [.mark .semicolon]) c' ∧ Expression .expression toks e := by
  obtain ⟨value, c₁, read, h⟩ := bind_eq_ok.mp h
  obtain ⟨_, c₂, closed, h⟩ := bind_eq_ok.mp h
  obtain ⟨rfl, rfl⟩ := succeed_eq_ok.mp h
  obtain ⟨toks, reads, derived⟩ := sound_expression fuel _ _ _ read
  exact ⟨toks, reads.append ((expect_eq_ok (by simp)).mp closed), derived⟩

theorem sound_condition {fuel : Nat} {c c' : Cursor} {e : Expr}
    (h : condition fuel c = .ok e c') :
    ∃ toks, Reads c (.mark .leftParen :: (toks ++ [.mark .rightParen])) c' ∧
      Expression .expression toks e := by
  obtain ⟨_, c₁, opened, h⟩ := bind_eq_ok.mp h
  obtain ⟨cond, c₂, read, h⟩ := bind_eq_ok.mp h
  obtain ⟨_, c₃, closed, h⟩ := bind_eq_ok.mp h
  obtain ⟨rfl, rfl⟩ := succeed_eq_ok.mp h
  obtain ⟨toks, reads, derived⟩ := sound_expression fuel _ _ _ read
  exact ⟨toks, ((expect_eq_ok (by simp)).mp opened).append
    (reads.append ((expect_eq_ok (by simp)).mp closed)), derived⟩

theorem sound_varDecl {fuel : Nat} {c c' : Cursor} {stmt : Stmt} (here : c.token = .keyword .var)
    (h : varDecl fuel c = .ok stmt c') : ∃ toks, Reads c toks c' ∧ VarDecl toks stmt := by
  obtain ⟨_, c₁, step, h⟩ := bind_eq_ok.mp h
  obtain ⟨name, c₂, read, h⟩ := bind_eq_ok.mp h
  have front := (Reads.one (by simp) here step).append (identifier_eq_ok.mp read)
  obtain ⟨token, here, h⟩ := exists_current h
  split at h
  · rename_i equal
    obtain ⟨_, c₃, step, h⟩ := bind_eq_ok.mp h
    obtain ⟨init, c₄, line, h⟩ := bind_eq_ok.mp h
    obtain ⟨rfl, rfl⟩ := succeed_eq_ok.mp h
    obtain ⟨toks, reads, derived⟩ := sound_expressionLine line
    exact ⟨_, front.append ((Reads.one (by simp) (here.trans equal) step).append reads),
      .init derived⟩
  · obtain ⟨_, c₃, closed, h⟩ := bind_eq_ok.mp h
    obtain ⟨rfl, rfl⟩ := succeed_eq_ok.mp h
    exact ⟨_, front.append ((expect_eq_ok (by simp)).mp closed), .bare⟩

theorem sound_parameters (fuel : Nat) : Sound (parameters fuel) NameList := by
  induction fuel with
  | zero => intro c a c' h; cases h
  | succ fuel ih =>
    intro c names c' h
    unfold parameters at h
    obtain ⟨param, c₁, read, h⟩ := bind_eq_ok.mp h
    have front := identifier_eq_ok.mp read
    obtain ⟨token, here, h⟩ := exists_current h
    split at h
    · rename_i comma
      obtain ⟨_, c₂, step, h⟩ := bind_eq_ok.mp h
      obtain ⟨more, c₃, read, h⟩ := bind_eq_ok.mp h
      obtain ⟨rfl, rfl⟩ := succeed_eq_ok.mp h
      obtain ⟨toks, reads, derived⟩ := ih _ _ _ read
      exact ⟨_, front.append ((Reads.one (by simp) (here.trans comma) step).append reads),
        .more derived⟩
    · obtain ⟨rfl, rfl⟩ := succeed_eq_ok.mp h
      exact ⟨_, front, .last⟩

theorem sound_parameterList {fuel : Nat} {c c' : Cursor} {names : List Name}
    (h : parameterList fuel c = .ok names c') :
    ∃ toks, Reads c (.mark .leftParen :: (toks ++ [.mark .rightParen])) c' ∧
      Parameters toks names := by
  obtain ⟨_, c₁, opened, h⟩ := bind_eq_ok.mp h
  have opening := (expect_eq_ok (by simp)).mp opened
  obtain ⟨token, here, h⟩ := exists_current h
  split at h
  · rename_i paren
    obtain ⟨_, c₂, step, h⟩ := bind_eq_ok.mp h
    obtain ⟨rfl, rfl⟩ := succeed_eq_ok.mp h
    exact ⟨[], opening.append (.one (by simp) (here.trans paren) step), .none⟩
  · obtain ⟨names, c₂, read, h⟩ := bind_eq_ok.mp h
    obtain ⟨_, c₃, closed, h⟩ := bind_eq_ok.mp h
    obtain ⟨rfl, rfl⟩ := succeed_eq_ok.mp h
    obtain ⟨toks, reads, derived⟩ := sound_parameters fuel _ _ _ read
    exact ⟨toks, opening.append (reads.append ((expect_eq_ok (by simp)).mp closed)),
      .some derived⟩

theorem sound_superclass : Sound superclass Superclass := by
  intro c name c' h
  obtain ⟨token, here, h⟩ := exists_current h
  split at h
  · rename_i less
    obtain ⟨_, c₁, step, h⟩ := bind_eq_ok.mp h
    obtain ⟨name, c₂, read, h⟩ := bind_eq_ok.mp h
    obtain ⟨rfl, rfl⟩ := succeed_eq_ok.mp h
    exact ⟨_, (Reads.one (by simp) (here.trans less) step).append (identifier_eq_ok.mp read),
      .some⟩
  · obtain ⟨rfl, rfl⟩ := succeed_eq_ok.mp h
    exact ⟨[], .nil, .none⟩

theorem sound_optionalExpression (fuel : Nat) (absent : Token) :
    Sound (optionalExpression fuel absent) OptionalExpression := by
  intro c e c' h
  obtain ⟨token, here, h⟩ := exists_current h
  split at h
  · obtain ⟨rfl, rfl⟩ := succeed_eq_ok.mp h
    exact ⟨[], .nil, .none⟩
  · obtain ⟨e, c₁, read, h⟩ := bind_eq_ok.mp h
    obtain ⟨rfl, rfl⟩ := succeed_eq_ok.mp h
    obtain ⟨toks, reads, derived⟩ := sound_expression fuel _ _ _ read
    exact ⟨toks, reads, .some derived⟩

theorem sound_loopInit (fuel : Nat) : Sound (loopInit fuel) LoopInit := by
  intro c init c' h
  obtain ⟨token, here, h⟩ := exists_current h
  split at h
  · obtain ⟨_, c₁, step, h⟩ := bind_eq_ok.mp h
    obtain ⟨rfl, rfl⟩ := succeed_eq_ok.mp h
    exact ⟨_, .one (by simp) here step, .none⟩
  · obtain ⟨init, c₁, read, h⟩ := bind_eq_ok.mp h
    obtain ⟨rfl, rfl⟩ := succeed_eq_ok.mp h
    obtain ⟨toks, reads, derived⟩ := sound_varDecl here read
    exact ⟨toks, reads, .var derived⟩
  · obtain ⟨e, c₁, line, h⟩ := bind_eq_ok.mp h
    obtain ⟨rfl, rfl⟩ := succeed_eq_ok.mp h
    obtain ⟨toks, reads, derived⟩ := sound_expressionLine line
    exact ⟨_, reads, .expr (.mk derived)⟩

/-- The parsers of statements keep to the grammar, and a statement that ends with an open `if` is
never left in front of an `else`. -/
structure StatementSound (fuel : Nat) : Prop where
  declaration : Sound (declaration fuel) Declaration
  function : Sound (function fuel) Function
  methods : Sound (methods fuel) fun toks decls =>
    ∃ toks', toks = toks' ++ [.mark .rightCurly] ∧ Functions toks' decls
  blockRest : Sound (blockRest fuel) fun toks stmts =>
    ∃ toks', toks = toks' ++ [.mark .rightCurly] ∧ Declarations toks' stmts
  statement : ∀ c stmt c', statement fuel c = .ok stmt c' → ∃ isOpen toks,
    Reads c toks c' ∧ Statement isOpen toks stmt ∧ (isOpen = true → c'.token ≠ .keyword .else)

theorem statementSound (fuel : Nat) : StatementSound fuel := by
  induction fuel with
  | zero => constructor <;> intro c a c' h <;> cases h
  | succ fuel ih =>
    constructor
    case declaration =>
      intro c stmt c' h
      unfold declaration at h
      obtain ⟨token, here, h⟩ := exists_current h
      split at h
      · obtain ⟨toks, reads, derived⟩ := sound_varDecl here h
        exact ⟨toks, reads, .var derived⟩
      · obtain ⟨_, c₁, step, h⟩ := bind_eq_ok.mp h
        obtain ⟨decl, c₂, read, h⟩ := bind_eq_ok.mp h
        obtain ⟨rfl, rfl⟩ := succeed_eq_ok.mp h
        obtain ⟨toks, reads, derived⟩ := ih.function _ _ _ read
        exact ⟨_, (Reads.one (by simp) here step).append reads, .fun derived⟩
      · obtain ⟨_, c₁, step, h⟩ := bind_eq_ok.mp h
        obtain ⟨name, c₂, readName, h⟩ := bind_eq_ok.mp h
        obtain ⟨superclass, c₃, readSuperclass, h⟩ := bind_eq_ok.mp h
        obtain ⟨_, c₄, opened, h⟩ := bind_eq_ok.mp h
        obtain ⟨methods, c₅, readMethods, h⟩ := bind_eq_ok.mp h
        obtain ⟨rfl, rfl⟩ := succeed_eq_ok.mp h
        obtain ⟨toks, reads, derived⟩ := sound_superclass _ _ _ readSuperclass
        obtain ⟨_, reads', toks', rfl, derived'⟩ := ih.methods _ _ _ readMethods
        have front := (Reads.one (by simp) here step).append (identifier_eq_ok.mp readName)
        have opening := (expect_eq_ok (by simp)).mp opened
        exact ⟨_, front.append (reads.append (opening.append reads')), .cls derived derived'⟩
      · obtain ⟨isOpen, toks, reads, derived, -⟩ := ih.statement _ _ _ h
        exact ⟨toks, reads, .statement derived⟩
    case function =>
      intro c decl c' h
      unfold function at h
      obtain ⟨name, c₁, readName, h⟩ := bind_eq_ok.mp h
      obtain ⟨params, c₂, readParams, h⟩ := bind_eq_ok.mp h
      obtain ⟨_, c₃, opened, h⟩ := bind_eq_ok.mp h
      obtain ⟨body, c₄, readBody, h⟩ := bind_eq_ok.mp h
      obtain ⟨rfl, rfl⟩ := succeed_eq_ok.mp h
      obtain ⟨toks, reads, derived⟩ := sound_parameterList readParams
      obtain ⟨_, reads', toks', rfl, derived'⟩ := ih.blockRest _ _ _ readBody
      have opening := (expect_eq_ok (by simp)).mp opened
      have all := (identifier_eq_ok.mp readName).append (reads.append (opening.append reads'))
      exact ⟨_, by simpa using all, .mk derived derived'⟩
    case methods =>
      intro c decls c' h
      unfold methods at h
      obtain ⟨token, here, h⟩ := exists_current h
      split at h
      · rename_i curly
        obtain ⟨_, c₁, step, h⟩ := bind_eq_ok.mp h
        obtain ⟨rfl, rfl⟩ := succeed_eq_ok.mp h
        exact ⟨_, .one (by simp) (here.trans curly) step, [], rfl, .nil⟩
      · obtain ⟨decl, c₁, read, h⟩ := bind_eq_ok.mp h
        obtain ⟨more, c₂, read', h⟩ := bind_eq_ok.mp h
        obtain ⟨rfl, rfl⟩ := succeed_eq_ok.mp h
        obtain ⟨toks, reads, derived⟩ := ih.function _ _ _ read
        obtain ⟨_, reads', toks', rfl, derived'⟩ := ih.methods _ _ _ read'
        exact ⟨_, reads.append reads', toks ++ toks', by simp, .cons derived derived'⟩
    case blockRest =>
      intro c stmts c' h
      unfold blockRest at h
      obtain ⟨token, here, h⟩ := exists_current h
      split at h
      · obtain ⟨_, c₁, step, h⟩ := bind_eq_ok.mp h
        obtain ⟨rfl, rfl⟩ := succeed_eq_ok.mp h
        exact ⟨_, .one (by simp) here step, [], rfl, .nil⟩
      · simp at h
      · obtain ⟨stmt, c₁, read, h⟩ := bind_eq_ok.mp h
        obtain ⟨more, c₂, read', h⟩ := bind_eq_ok.mp h
        obtain ⟨rfl, rfl⟩ := succeed_eq_ok.mp h
        obtain ⟨toks, reads, derived⟩ := ih.declaration _ _ _ read
        obtain ⟨_, reads', toks', rfl, derived'⟩ := ih.blockRest _ _ _ read'
        exact ⟨_, reads.append reads', toks ++ toks', by simp, .cons derived derived'⟩
    case statement =>
      intro c stmt c' h
      unfold statement at h
      obtain ⟨token, here, h⟩ := exists_current h
      split at h
      · obtain ⟨_, c₁, step, h⟩ := bind_eq_ok.mp h
        obtain ⟨e, c₂, line, h⟩ := bind_eq_ok.mp h
        obtain ⟨rfl, rfl⟩ := succeed_eq_ok.mp h
        obtain ⟨toks, reads, derived⟩ := sound_expressionLine line
        exact ⟨false, _, (Reads.one (by simp) here step).append reads, .print derived, by simp⟩
      · obtain ⟨_, c₁, step, h⟩ := bind_eq_ok.mp h
        obtain ⟨body, c₂, read, h⟩ := bind_eq_ok.mp h
        obtain ⟨rfl, rfl⟩ := succeed_eq_ok.mp h
        obtain ⟨_, reads, toks, rfl, derived⟩ := ih.blockRest _ _ _ read
        exact ⟨false, _, (Reads.one (by simp) here step).append reads, .block derived, by simp⟩
      · obtain ⟨_, c₁, step, h⟩ := bind_eq_ok.mp h
        obtain ⟨cond, c₂, readCond, h⟩ := bind_eq_ok.mp h
        obtain ⟨thenBranch, c₃, readThen, h⟩ := bind_eq_ok.mp h
        obtain ⟨toks, reads, derived⟩ := sound_condition readCond
        obtain ⟨isOpen, toks₁, reads₁, derived₁, closed⟩ := ih.statement _ _ _ readThen
        have front := (Reads.one (by simp) here step).append (reads.append reads₁)
        obtain ⟨token, here, h⟩ := exists_current h
        split at h
        · rename_i orElse
          obtain ⟨_, c₄, step, h⟩ := bind_eq_ok.mp h
          obtain ⟨elseBranch, c₅, readElse, h⟩ := bind_eq_ok.mp h
          obtain ⟨rfl, rfl⟩ := succeed_eq_ok.mp h
          obtain ⟨isOpen', toks₂, reads₂, derived₂, closed'⟩ := ih.statement _ _ _ readElse
          -- The `then` branch stands before an `else`, so it does not end with an open `if`.
          obtain rfl : isOpen = false := by
            cases isOpen with
            | true => exact absurd (here.trans orElse) (closed rfl)
            | false => rfl
          have all := front.append ((Reads.one (by simp) (here.trans orElse) step).append reads₂)
          exact ⟨isOpen', _, by simpa using all, .ifElse derived derived₁ derived₂, closed'⟩
        · rename_i notElse
          obtain ⟨rfl, rfl⟩ := succeed_eq_ok.mp h
          exact ⟨true, _, by simpa using front, .if derived derived₁, fun _ => here ▸ notElse⟩
      · obtain ⟨_, c₁, step, h⟩ := bind_eq_ok.mp h
        obtain ⟨cond, c₂, readCond, h⟩ := bind_eq_ok.mp h
        obtain ⟨body, c₃, readBody, h⟩ := bind_eq_ok.mp h
        obtain ⟨rfl, rfl⟩ := succeed_eq_ok.mp h
        obtain ⟨toks, reads, derived⟩ := sound_condition readCond
        obtain ⟨isOpen, toks₁, reads₁, derived₁, closed⟩ := ih.statement _ _ _ readBody
        have all := (Reads.one (by simp) here step).append (reads.append reads₁)
        exact ⟨isOpen, _, by simpa using all, .while derived derived₁, closed⟩
      · obtain ⟨_, c₁, step, h⟩ := bind_eq_ok.mp h
        obtain ⟨_, c₂, opened, h⟩ := bind_eq_ok.mp h
        obtain ⟨init, c₃, readInit, h⟩ := bind_eq_ok.mp h
        obtain ⟨cond, c₄, readCond, h⟩ := bind_eq_ok.mp h
        obtain ⟨_, c₅, parted, h⟩ := bind_eq_ok.mp h
        obtain ⟨incr, c₆, readIncr, h⟩ := bind_eq_ok.mp h
        obtain ⟨_, c₇, closing, h⟩ := bind_eq_ok.mp h
        obtain ⟨body, c₈, readBody, h⟩ := bind_eq_ok.mp h
        obtain ⟨rfl, rfl⟩ := succeed_eq_ok.mp h
        obtain ⟨toks₀, reads₀, derived₀⟩ := sound_loopInit fuel _ _ _ readInit
        obtain ⟨toks₁, reads₁, derived₁⟩ := sound_optionalExpression fuel _ _ _ _ readCond
        obtain ⟨toks₂, reads₂, derived₂⟩ := sound_optionalExpression fuel _ _ _ _ readIncr
        obtain ⟨isOpen, toks₃, reads₃, derived₃, closed⟩ := ih.statement _ _ _ readBody
        have front := (Reads.one (by simp) here step).append ((expect_eq_ok (by simp)).mp opened)
        have middle := reads₁.append ((expect_eq_ok (by simp)).mp parted)
        have back := reads₂.append ((expect_eq_ok (by simp)).mp closing)
        have all := front.append (reads₀.append (middle.append (back.append reads₃)))
        exact ⟨isOpen, _, by simpa using all, .for derived₀ derived₁ derived₂ derived₃, closed⟩
      · obtain ⟨_, c₁, step, h⟩ := bind_eq_ok.mp h
        obtain ⟨rfl, rfl⟩ := succeed_eq_ok.mp h
        exact ⟨false, _, .one (by simp) here step, .nop, by simp⟩
      · obtain ⟨_, c₁, step, h⟩ := bind_eq_ok.mp h
        have front := Reads.one (by simp) here step
        obtain ⟨token, here, h⟩ := exists_current h
        split at h
        · rename_i semicolon
          obtain ⟨_, c₂, step, h⟩ := bind_eq_ok.mp h
          obtain ⟨rfl, rfl⟩ := succeed_eq_ok.mp h
          exact ⟨false, _, front.append (.one (by simp) (here.trans semicolon) step), .returnNil,
            by simp⟩
        · obtain ⟨value, c₂, line, h⟩ := bind_eq_ok.mp h
          obtain ⟨rfl, rfl⟩ := succeed_eq_ok.mp h
          obtain ⟨toks, reads, derived⟩ := sound_expressionLine line
          exact ⟨false, _, front.append reads, .return derived, by simp⟩
      · obtain ⟨e, c₁, line, h⟩ := bind_eq_ok.mp h
        obtain ⟨rfl, rfl⟩ := succeed_eq_ok.mp h
        obtain ⟨toks, reads, derived⟩ := sound_expressionLine line
        exact ⟨false, _, reads, .expr (.mk derived), by simp⟩

/-! ### Whole texts -/

/-- Where a program is read, its declarations reach to the end of the text. -/
theorem sound_declarations {fuel : Nat} {c c' : Cursor} {stmts : List Stmt}
    (h : declarations fuel c = .ok stmts c') :
    ∃ toks, tokensFrom c = .ok toks ∧ Declarations toks stmts := by
  suffices ∃ toks, (Reads c toks c' ∧ c'.token = .eof) ∧ Declarations toks stmts by
    obtain ⟨toks, reads, derived⟩ := this
    exact ⟨toks, tokensFrom_eq_ok.mpr ⟨c', reads⟩, derived⟩
  induction fuel generalizing c c' stmts with
  | zero => cases h
  | succ fuel ih =>
    unfold declarations at h
    obtain ⟨token, here, h⟩ := exists_current h
    split at h
    · rename_i eof
      obtain ⟨rfl, rfl⟩ := succeed_eq_ok.mp h
      exact ⟨[], ⟨.nil, here.trans eof⟩, .nil⟩
    · obtain ⟨stmt, c₁, read, h⟩ := bind_eq_ok.mp h
      obtain ⟨more, c₂, read', h⟩ := bind_eq_ok.mp h
      obtain ⟨rfl, rfl⟩ := succeed_eq_ok.mp h
      obtain ⟨toks, reads, derived⟩ := (statementSound fuel).declaration _ _ _ read
      obtain ⟨toks', ⟨reads', eof⟩, derived'⟩ := ih read'
      exact ⟨toks ++ toks', ⟨reads.append reads', eof⟩, .cons derived derived'⟩

theorem sound_program {fuel : Nat} {items : List Item} {stmts : List Stmt} {c' : Cursor}
    (h : program fuel (start items) = .ok stmts c') :
    ∃ toks, Item.tokens items = .ok toks ∧ Declarations toks stmts := by
  obtain ⟨_, c, step, h⟩ := bind_eq_ok.mp h
  obtain ⟨toks, ahead, derived⟩ := sound_declarations h
  exact ⟨toks, tokens_rest_eq_ok.mpr ⟨c, step, ahead⟩, derived⟩

theorem sound_wholeExpression {fuel : Nat} {items : List Item} {e : Expr} {c' : Cursor}
    (h : wholeExpression fuel (start items) = .ok e c') :
    ∃ toks, Item.tokens items = .ok toks ∧ Expression .expression toks e := by
  obtain ⟨_, c, step, h⟩ := bind_eq_ok.mp h
  obtain ⟨e, c₁, read, h⟩ := bind_eq_ok.mp h
  obtain ⟨_, c₂, ended, h⟩ := bind_eq_ok.mp h
  obtain ⟨rfl, rfl⟩ := succeed_eq_ok.mp h
  obtain ⟨toks, reads, derived⟩ := sound_expression fuel _ _ _ read
  have eof : c₁.token = .eof := by
    obtain ⟨token, here, ended⟩ := exists_current ended
    split at ended
    · exact here.trans ‹_›
    · simp at ended
  have ahead := tokensFrom_eq_ok.mpr ⟨c₁, reads, eof⟩
  exact ⟨toks, tokens_rest_eq_ok.mpr ⟨c, step, ahead⟩, derived⟩

end Lox.Parse
