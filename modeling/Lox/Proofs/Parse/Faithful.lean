import Lox.Proofs.Parse.Account

/-!
The logged parsers do what the parsers do and account for every item they ask for.

The main statements are `expressionFaithful` and `statementFaithful`, each one induction on the fuel
for all the parsers that call each other.
-/

namespace Lox.Parse

/-! ### Expressions -/

/-- The parsers of expressions and the logged ones. A parser that always reads has both flags: what
follows another parser need not read. -/
structure ExpressionFaithful (fuel : Nat) : Prop where
  expression : ∀ {reads}, Faithful Anywhere reads (expression fuel) (Logged.expression fuel)
  binary : ∀ {reads} level,
    Faithful Anywhere reads (binary fuel level) (Logged.binary fuel level)
  binaryRest : ∀ level left,
    Faithful Anywhere false (binaryRest fuel level left) (Logged.binaryRest fuel level left)
  unary : ∀ {reads}, Faithful Anywhere reads (unary fuel) (Logged.unary fuel)
  callRest : ∀ callee, Faithful Anywhere false (callRest fuel callee) (Logged.callRest fuel callee)
  arguments : ∀ {reads}, Faithful Anywhere reads (arguments fuel) (Logged.arguments fuel)
  primary : ∀ {reads}, Faithful Anywhere reads (primary fuel) (Logged.primary fuel)

theorem ExpressionFaithful.operand {fuel : Nat} (ih : ExpressionFaithful fuel) {reads : Bool}
    (level : Level) : Faithful Anywhere reads (level.operand (Parse.binary fuel) (Parse.unary fuel))
      (Logged.operand level (Logged.binary fuel) (Logged.unary fuel)) := by
  unfold Level.operand Logged.operand
  cases level.tighter? with
  | some tighter => exact ih.binary tighter
  | none => exact ih.unary

/-- The arguments of a call, with their parentheses, are read in one pass. -/
theorem ExpressionFaithful.closedArguments {fuel : Nat} (ih : ExpressionFaithful fuel) :
    Faithful (· = .mark .leftParen) true (Parse.closedArguments fuel) (do
      Logged.advance
      if (← Logged.current) = .mark .rightParen then
        Logged.advance
        Logged.succeed []
      else
        let args ← Logged.arguments fuel
        Logged.expect (.mark .rightParen)
        Logged.succeed args) := by
  refine faithful_past (by simp) (faithful_current fun token _ => ?_)
  refine faithful_ite (fun found => ?_) fun _ => ?_
  · exact faithful_past (by simp [found]) faithful_succeed
  · refine Faithful.at (faithful_then ih.arguments fun args => ?_)
    exact faithful_expected (by simp) faithful_succeed

/-- Whether an assignment has a target does not depend on its value. -/
theorem assignment?_eq_none_iff (target value other : Expr) :
    assignment? target value = none ↔ assignment? target other = none := by
  cases target <;> simp [assignment?]

/-- The right side of an assignment. Where the left side is no target, no right side leads to a
value. -/
theorem faithful_assigned {fuel : Nat} {reads : Bool} (target : Expr)
    (value : Faithful Anywhere false (expression fuel) (Logged.expression fuel)) :
    Faithful (· = .mark .equal) reads
      (do
        advance
        let value ← expression fuel
        match assignment? target value with
        | some e => succeed e
        | none => fail .invalidAssignmentTarget)
      (do
        Logged.advance
        let value ← Logged.expression fuel
        match assignment? target value with
        | some e => Logged.succeed e
        | none => Logged.fail .invalidAssignmentTarget) := by
  have ne : Token.mark .equal ≠ .eof := by simp
  by_cases never : ∀ v, assignment? target v = none
  · simp only [never]
    constructor
    case toFollows =>
      have stops : Follows Anywhere false (fail .invalidAssignmentTarget : Parser Expr)
        (Logged.fail .invalidAssignmentTarget) := follows_fail fun _ _ => trivial
      have behind := follows_bind_of value.toFollows (fun _ => stops) .inl
      exact follows_bind_of (faithful_advance ne).toFollows (fun _ => behind) .inl
    case doomed =>
      rintro token line used behind log l - run rfl
      refine ⟨Logged.asked_ne_nil run, fun rest a c result => ?_⟩
      obtain ⟨_, _, -, result⟩ := Logged.ok_of_bind result
      obtain ⟨_, _, -, result⟩ := Logged.ok_of_bind result
      cases result
  · refine faithful_past ne (faithful_then value fun v => ?_)
    cases assigned : assignment? target v with
    | some e => exact faithful_succeed
    | none =>
      exact absurd (fun w => (assignment?_eq_none_iff target v w).mp assigned) never

theorem expressionFaithful (fuel : Nat) : ExpressionFaithful fuel := by
  induction fuel with
  | zero => constructor <;> intros <;> exact faithful_exhausted
  | succ fuel ih =>
    constructor
    case expression =>
      intro reads
      unfold expression Logged.expression
      refine faithful_then (ih.binary .or) fun target => faithful_current fun token _ => ?_
      refine faithful_ite (fun found => ?_) fun _ => faithful_succeed
      subst found
      exact faithful_assigned target ih.expression
    case binary =>
      intro reads level
      unfold binary Logged.binary
      exact faithful_then (ih.operand level) fun left => ih.binaryRest level left
    case binaryRest =>
      intro level left
      unfold binaryRest Logged.binaryRest
      refine faithful_current fun token _ => ?_
      cases operator : level.operator? token with
      | some node =>
        dsimp only
        rw [← bind_assoc]
        have ne : token ≠ .eof := by
          rintro rfl
          rw [Level.operator?_eof] at operator
          cases operator
        refine faithful_bind (Faithful.pass (faithful_past ne (ih.operand level)) _) ?_
        exact fun right => ih.binaryRest level (node left right)
      | none => exact faithful_succeed
    case unary =>
      intro reads
      unfold unary Logged.unary
      refine faithful_current fun token _ => ?_
      cases operator : unaryOperator? token with
      | some op =>
        have ne : token ≠ .eof := by
          rintro rfl
          cases operator
        exact faithful_past ne (ih.unary.map _)
      | none => exact (faithful_then ih.primary fun callee => ih.callRest callee).at
    case callRest =>
      intro callee
      unfold callRest Logged.callRest
      refine faithful_current fun token _ => ?_
      cases token with
      | mark m =>
        cases m with
        | leftParen =>
          have call := faithful_bind (ih.closedArguments.pass .suffixes) fun args =>
            ih.callRest (.call callee args)
          rw [closedArguments_bind] at call
          exact call
        | dot =>
          have name : Faithful (· = .mark .dot) true (advance >>= fun _ => identifier)
              (Logged.advance >>= fun _ => Logged.identifier) :=
            faithful_past (by simp) faithful_identifier
          have access := faithful_bind (name.pass .suffixes) fun name =>
            ih.callRest (.get callee name)
          rw [bind_assoc] at access
          exact access
        | _ => exact faithful_succeed
      | _ => exact faithful_succeed
    case arguments =>
      intro reads
      unfold arguments Logged.arguments
      rw [← listed_bind (expression fuel)
        (fun arg => arguments fuel >>= fun more => succeed (arg :: more)) fun arg => succeed [arg]]
      refine faithful_then (ih.expression.listed.pass _) fun item => ?_
      refine faithful_ite (fun _ => ?_) fun _ => faithful_succeed
      exact ih.arguments.map _
    case primary =>
      intro reads
      unfold primary Logged.primary
      refine faithful_current fun token _ => ?_
      cases atom : atom? token with
      | some e =>
        have ne : token ≠ .eof := by
          rintro rfl
          cases atom
        exact faithful_past ne faithful_succeed
      | none =>
        cases token with
        | keyword k =>
          cases k with
          | super =>
            refine faithful_past (by simp) (faithful_expected (by simp) ?_)
            exact faithful_identifier.map _
          | _ => exact faithful_fail (by simp) rfl
        | mark m =>
          cases m with
          | leftParen =>
            refine faithful_past (by simp) (faithful_then ih.expression fun _ => ?_)
            exact faithful_expected (by simp) faithful_succeed
          | _ => exact faithful_fail (by simp) rfl
        | _ => exact faithful_fail (by simp) rfl

/-! ### Statements -/

section

variable {fuel : Nat} {reads : Bool}

theorem faithful_expression :
    Faithful Anywhere reads (expression fuel) (Logged.expression fuel) :=
  (expressionFaithful fuel).expression

theorem faithful_expressionLine :
    Faithful Anywhere reads (expressionLine fuel) (Logged.expressionLine fuel) :=
  faithful_then faithful_expression fun _ => faithful_expected (by simp) faithful_succeed

theorem faithful_condition :
    Faithful Anywhere reads (condition fuel) (Logged.condition fuel) := by
  refine faithful_expected (by simp) (faithful_then faithful_expression fun _ => ?_)
  exact faithful_expected (by simp) faithful_succeed

theorem faithful_varDecl :
    Faithful (· = .keyword .var) reads (varDecl fuel) (Logged.varDecl fuel) := by
  refine faithful_past (by simp) (faithful_then faithful_identifier fun name => ?_)
  refine faithful_current fun token _ => faithful_ite (fun found => ?_) fun _ => ?_
  · refine faithful_past (by simp [found]) ?_
    exact faithful_expressionLine.map _
  · exact faithful_expected (by simp) faithful_succeed

theorem faithful_parameters :
    ∀ {reads}, Faithful Anywhere reads (parameters fuel) (Logged.parameters fuel) := by
  induction fuel with
  | zero => exact faithful_exhausted
  | succ fuel ih =>
    intro reads
    unfold parameters Logged.parameters
    rw [← listed_bind identifier
      (fun param => parameters fuel >>= fun more => succeed (param :: more))
      fun param => succeed [param]]
    refine faithful_then (faithful_identifier.listed.pass _) fun item => ?_
    refine faithful_ite (fun _ => ?_) fun _ => faithful_succeed
    exact ih.map _

theorem faithful_parameterList :
    Faithful Anywhere reads (parameterList fuel) (Logged.parameterList fuel) := by
  refine faithful_expected (by simp) (faithful_current fun token _ => ?_)
  refine faithful_ite (fun found => ?_) fun _ => ?_
  · exact faithful_past (by simp [found]) faithful_succeed
  · refine Faithful.at (faithful_then faithful_parameters fun _ => ?_)
    exact faithful_expected (by simp) faithful_succeed

theorem faithful_superclass : Faithful Anywhere false superclass Logged.superclass := by
  refine faithful_current fun token _ => faithful_ite (fun found => ?_) fun _ => faithful_succeed
  refine faithful_past (by simp [found]) ?_
  exact faithful_identifier.map _

theorem faithful_optionalExpression (absent : Token) :
    Faithful Anywhere false (optionalExpression fuel absent)
      (Logged.optionalExpression fuel absent) := by
  refine faithful_current fun token _ => faithful_ite (fun _ => faithful_succeed) fun _ => ?_
  exact (faithful_expression.map _).at

theorem faithful_loopInit :
    Faithful Anywhere reads (loopInit fuel) (Logged.loopInit fuel) := by
  refine faithful_current fun token _ => ?_
  cases token with
  | mark m =>
    cases m with
    | semicolon => exact faithful_past (by simp) faithful_succeed
    | _ => exact (faithful_expressionLine.map (some ∘ Stmt.expr)).at
  | keyword k =>
    cases k with
    | var => exact faithful_varDecl.map _
    | _ => exact (faithful_expressionLine.map (some ∘ Stmt.expr)).at
  | _ => exact (faithful_expressionLine.map (some ∘ Stmt.expr)).at

end

/-- The parsers of statements and the logged ones. -/
structure StatementFaithful (fuel : Nat) : Prop where
  declaration : ∀ {reads},
    Faithful Anywhere reads (declaration fuel) (Logged.declaration fuel)
  function : ∀ {reads}, Faithful Anywhere reads (function fuel) (Logged.function fuel)
  methods : ∀ {reads}, Faithful Anywhere reads (methods fuel) (Logged.methods fuel)
  blockRest : ∀ {reads}, Faithful Anywhere reads (blockRest fuel) (Logged.blockRest fuel)
  statement : ∀ {reads}, Faithful Anywhere reads (statement fuel) (Logged.statement fuel)

theorem statementFaithful (fuel : Nat) : StatementFaithful fuel := by
  induction fuel with
  | zero => constructor <;> exact faithful_exhausted
  | succ fuel ih =>
    constructor
    case declaration =>
      intro reads
      unfold declaration Logged.declaration
      refine faithful_current fun token _ => ?_
      cases token with
      | keyword k =>
        cases k with
        | var => exact faithful_varDecl
        | «fun» =>
          exact faithful_past (by simp) (ih.function.map _)
        | cls =>
          refine faithful_past (by simp) (faithful_then faithful_identifier fun name => ?_)
          refine faithful_bind faithful_superclass fun superclass => ?_
          refine faithful_expected (by simp) ?_
          exact ih.methods.map _
        | _ => exact ih.statement.at
      | _ => exact ih.statement.at
    case function =>
      intro reads
      unfold function Logged.function
      refine faithful_then faithful_identifier fun name => ?_
      refine faithful_then faithful_parameterList fun params => ?_
      exact faithful_expected (by simp) (ih.blockRest.map _)
    case methods =>
      intro reads
      unfold methods Logged.methods
      refine faithful_current fun token _ => faithful_ite (fun found => ?_) fun _ => ?_
      · exact faithful_past (by simp [found]) faithful_succeed
      · refine Faithful.at (faithful_then (ih.function.pass _) fun method => ?_)
        exact ih.methods.map _
    case blockRest =>
      intro reads
      unfold blockRest Logged.blockRest
      refine faithful_current fun token _ => ?_
      have further : Faithful Anywhere reads
          (do
            let stmt ← declaration fuel
            let more ← blockRest fuel
            succeed (stmt :: more))
          (do
            let stmt ← Logged.pass .block (Logged.declaration fuel)
            let more ← Logged.blockRest fuel
            Logged.succeed (stmt :: more)) :=
        faithful_then (ih.declaration.pass _) fun _ =>
          ih.blockRest.map _
      cases token with
      | mark m =>
        cases m with
        | rightCurly =>
          exact faithful_then ((faithful_advance (by simp)).pass _) fun _ => faithful_succeed
        | _ => exact further.at
      | eof =>
        refine Faithful.pass ?_ .block
        exact faithful_fail (by simp) rfl
      | _ => exact further.at
    case statement =>
      intro reads
      unfold statement Logged.statement
      refine faithful_current fun token _ => ?_
      cases token with
      | mark m =>
        cases m with
        | leftCurly =>
          exact faithful_past (by simp) (ih.blockRest.map _)
        | semicolon => exact faithful_past (by simp) faithful_succeed
        | _ => exact (faithful_expressionLine.map Stmt.expr).at
      | keyword k =>
        cases k with
        | print =>
          refine faithful_past (by simp) ?_
          exact faithful_expressionLine.map _
        | «if» =>
          refine faithful_past (by simp) (faithful_then faithful_condition fun cond => ?_)
          refine faithful_then ih.statement fun thenBranch => faithful_current fun token _ => ?_
          refine faithful_ite (fun found => ?_) fun _ => faithful_succeed
          refine faithful_past (by simp [found]) ?_
          exact ih.statement.map _
        | «while» =>
          refine faithful_past (by simp) (faithful_then faithful_condition fun cond => ?_)
          exact ih.statement.map _
        | «for» =>
          refine faithful_past (by simp) (faithful_expected (by simp) ?_)
          refine faithful_then faithful_loopInit fun init => ?_
          refine faithful_bind (faithful_optionalExpression _) fun cond => ?_
          refine faithful_expected (by simp) ?_
          refine faithful_bind (faithful_optionalExpression _) fun incr => ?_
          refine faithful_expected (by simp) ?_
          exact ih.statement.map _
        | «return» =>
          refine faithful_past (by simp) (faithful_current fun token _ => ?_)
          refine faithful_ite (fun found => ?_) fun _ => ?_
          · exact faithful_past (by simp [found]) faithful_succeed
          · exact (faithful_expressionLine.map _).at
        | _ => exact (faithful_expressionLine.map Stmt.expr).at
      | _ => exact (faithful_expressionLine.map Stmt.expr).at

/-! ### Whole texts -/

theorem faithful_declarations {fuel : Nat} :
    Faithful Anywhere false (declarations fuel) (Logged.declarations fuel) := by
  induction fuel with
  | zero => exact faithful_exhausted
  | succ fuel ih =>
    unfold declarations Logged.declarations
    refine faithful_current fun token _ => faithful_ite (fun _ => faithful_succeed) fun _ => ?_
    refine Faithful.at (faithful_then ((statementFaithful fuel).declaration.pass _) fun stmt => ?_)
    exact ih.map _

/-- The first read does not look at the current token: a text is read as it is behind any token. -/
theorem faithful_program {fuel : Nat} :
    Faithful (· = .mark .semicolon) true (program fuel) (Logged.program fuel) :=
  faithful_past (by simp) faithful_declarations

theorem faithful_wholeExpression {fuel : Nat} :
    Faithful (· = .mark .semicolon) true (wholeExpression fuel) (Logged.wholeExpression fuel) := by
  refine faithful_past (by simp) (faithful_then faithful_expression fun _ => ?_)
  exact faithful_expect_eof.map _

end Lox.Parse
