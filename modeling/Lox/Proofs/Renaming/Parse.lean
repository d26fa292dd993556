import Lox.Parse.Program
import Lox.Proofs.Renaming.Tree

/-!
Parsing does not depend on what identifiers are called.

A parser tells identifiers from other tokens, and never one from another. So if the identifiers
among the items are renamed, in whatever way, the parser reads as many items as before and finds the
renamed tree, or the same problem with the renamed token. The main statement is
`programOfItems_rename`.
-/

namespace Lox

/-! ### Renaming what a parser reads and reports -/

/-- Rename an identifier; other tokens stay as they are. -/
def Token.rename (r : Name → Name) : Token → Token
  | .identifier name => .identifier (r name)
  | token => token

/-- Rename the identifier in an item, if it is one. -/
def Item.rename (r : Name → Name) (item : Item) : Item :=
  ⟨item.line, item.content.map (Token.rename r)⟩

/-- Rename the identifiers that a problem mentions. -/
def SyntaxProblem.rename (r : Name → Name) : SyntaxProblem → SyntaxProblem
  | .unexpectedToken found expected => .unexpectedToken (found.rename r) (expected.rename r)
  | .expectedExpression found => .expectedExpression (found.rename r)
  | .expectedIdentifier found => .expectedIdentifier (found.rename r)
  | .invalidAssignmentTarget => .invalidAssignmentTarget
  | .lexical e => .lexical e

/-- Rename the identifiers that a syntax error mentions. -/
def SyntaxError.rename (r : Name → Name) (e : SyntaxError) : SyntaxError :=
  ⟨e.line, e.problem.rename r⟩

/-- Rename the identifiers in front of a cursor. -/
def Cursor.rename (r : Name → Name) (c : Cursor) : Cursor :=
  ⟨c.token.rename r, c.line, c.rest.map (Item.rename r)⟩

/-- Rename the identifiers in a result, in its value as the function says. -/
def Parse.Result.rename {α β : Type} (r : Name → Name) (g : α → β) : Result α → Result β
  | .ok a c => .ok (g a) (c.rename r)
  | .error e => .error (e.rename r)
  | .outOfFuel => .outOfFuel

/-- A token is an identifier, or no renaming changes it. -/
theorem Token.identifier_or_rename_eq (token : Token) :
    (∃ name, token = .identifier name) ∨ ∀ r, token.rename r = token := by
  cases token with
  | identifier name => exact .inl ⟨name, rfl⟩
  | _ => exact .inr fun _ => rfl

namespace Parse

/-! ### How parsers are put together -/

/-- On renamed items the second parser does what the first does on the items as they are. -/
def Commutes {α β : Type} (r : Name → Name) (g : α → β) (p : Parser α) (q : Parser β) : Prop :=
  ∀ c : Cursor, q (c.rename r) = (p c).rename r g

section

variable {α β γ δ : Type} {r : Name → Name} {g : α → β} {h : γ → δ}

theorem commutes_succeed {a : α} {b : β} (same : g a = b) :
    Commutes r g (succeed a) (succeed b) := by
  subst same
  exact fun _ => rfl

theorem commutes_fail {problem problem' : SyntaxProblem} (same : problem.rename r = problem') :
    Commutes r g (fail problem) (fail problem') := by
  subst same
  exact fun _ => rfl

theorem commutes_exhausted : Commutes r g exhausted exhausted := fun _ => rfl

theorem commutes_bind {p : Parser α} {q : Parser β} {k : α → Parser γ} {k' : β → Parser δ}
    (first : Commutes r g p q) (next : ∀ a, Commutes r h (k a) (k' (g a))) :
    Commutes r h (p >>= k) (q >>= k') := by
  intro c
  change andThen q k' (c.rename r) = (andThen p k c).rename r h
  unfold andThen
  rw [first c]
  cases p c with
  | ok a c' => exact next a c'
  | error e => rfl
  | outOfFuel => rfl

theorem commutes_advance : Commutes r id advance advance := by
  rintro ⟨token, line, rest⟩
  cases rest with
  | nil => rfl
  | cons item rest =>
    obtain ⟨line, content⟩ := item
    cases content <;> rfl

/-- What follows may depend on the current token, but not on which identifier it is. -/
theorem commutes_current {k : Token → Parser γ} {k' : Token → Parser δ}
    (other : ∀ token, (∀ r, token.rename r = token) → Commutes r h (k token) (k' token))
    (identifier : ∀ name, Commutes r h (k (.identifier name)) (k' (.identifier (r name)))) :
    Commutes r h (current >>= k) (current >>= k') := by
  intro c
  change k' (c.token.rename r) (c.rename r) = (k c.token c).rename r h
  rcases c.token.identifier_or_rename_eq with ⟨name, found⟩ | same
  · rw [found]
    exact identifier name c
  · rw [same r]
    exact other c.token same c

/-- What follows may depend on whether a certain token comes next, if it is not an identifier. -/
theorem commutes_ifCurrent {expected : Token} {p p' : Parser γ} {q q' : Parser δ}
    (known : ∀ name, Token.identifier name ≠ expected) (yes : Commutes r h p q)
    (no : Commutes r h p' q') :
    Commutes r h (do if (← current) = expected then p else p')
      (do if (← current) = expected then q else q') := by
  refine commutes_current (fun token _ => ?_) fun name => ?_
  · split
    · exact yes
    · exact no
  · rw [if_neg (known name), if_neg (known (r name))]
    exact no

theorem commutes_expect {expected : Token} (known : ∀ name, Token.identifier name ≠ expected) :
    Commutes r id (expect expected) (expect expected) := by
  have kept : expected.rename r = expected := by
    rcases expected.identifier_or_rename_eq with ⟨name, rfl⟩ | same
    · exact absurd rfl (known name)
    · exact same r
  unfold expect
  refine commutes_current (fun token same => ?_) fun name => ?_
  · split
    · split
      · exact commutes_succeed rfl
      · exact commutes_advance
    · refine commutes_fail ?_
      rw [SyntaxProblem.rename, same r, kept]
  · rw [if_neg (known name), if_neg (known (r name))]
    refine commutes_fail ?_
    rw [SyntaxProblem.rename, kept]
    rfl

theorem commutes_identifier : Commutes r r identifier identifier := by
  unfold identifier
  refine commutes_current (fun token same => ?_) fun name => ?_
  · split
    · exact absurd (Token.identifier.inj (same fun name => name ++ "a")) (by simp)
    · refine commutes_fail ?_
      rw [SyntaxProblem.rename, same r]
  · exact commutes_bind commutes_advance fun _ => commutes_succeed rfl

end

/-! ### Expressions -/

section

variable (r : Name → Name)

theorem operator?_identifier (level : Level) (name : Name) :
    level.operator? (.identifier name) = none := by
  cases level <;> rfl

theorem rename_of_operator? {level : Level} {token : Token} {node : Expr → Expr → Expr}
    (h : level.operator? token = some node) (left right : Expr) :
    (node left right).rename r = node (left.rename r) (right.rename r) := by
  unfold Level.operator? at h
  split at h <;> cases h <;> rfl

theorem rename_of_atom? {token : Token} {e : Expr} (same : ∀ r, token.rename r = token)
    (h : atom? token = some e) : e.rename r = e := by
  unfold atom? at h
  split at h
  · exact absurd (Token.identifier.inj (same fun name => name ++ "a")) (by simp)
  all_goals cases h
  all_goals rfl

theorem assignment?_rename (target value : Expr) :
    assignment? (target.rename r) (value.rename r) =
      (assignment? target value).map (Expr.rename r) := by
  cases target <;> rfl

/-- The parsers of expressions. -/
structure ExpressionCommutes (n : Nat) : Prop where
  expression : Commutes r (Expr.rename r) (expression n) (expression n)
  binary : ∀ level, Commutes r (Expr.rename r) (binary n level) (binary n level)
  binaryRest : ∀ level left,
    Commutes r (Expr.rename r) (binaryRest n level left) (binaryRest n level (left.rename r))
  unary : Commutes r (Expr.rename r) (unary n) (unary n)
  callRest : ∀ callee,
    Commutes r (Expr.rename r) (callRest n callee) (callRest n (callee.rename r))
  arguments : Commutes r (Expr.renameAll r) (arguments n) (arguments n)
  primary : Commutes r (Expr.rename r) (primary n) (primary n)

variable {r}

theorem ExpressionCommutes.operand {n : Nat} (ih : ExpressionCommutes r n) (level : Level) :
    Commutes r (Expr.rename r) (level.operand (Parse.binary n) (Parse.unary n))
      (level.operand (Parse.binary n) (Parse.unary n)) := by
  unfold Level.operand
  cases level.tighter? with
  | some tighter => exact ih.binary tighter
  | none => exact ih.unary

end

theorem expressionCommutes (r : Name → Name) (n : Nat) : ExpressionCommutes r n := by
  induction n with
  | zero => constructor <;> intros <;> exact commutes_exhausted
  | succ n ih =>
    constructor
    case expression =>
      unfold expression
      refine commutes_bind (ih.binary .or) fun target => ?_
      refine commutes_ifCurrent (by simp) ?_ (commutes_succeed rfl)
      refine commutes_bind commutes_advance fun _ => ?_
      refine commutes_bind ih.expression fun value => ?_
      rw [assignment?_rename]
      cases assignment? target value with
      | some e => exact commutes_succeed rfl
      | none => exact commutes_fail rfl
    case binary =>
      intro level
      unfold binary
      exact commutes_bind (ih.operand level) fun left => ih.binaryRest level left
    case binaryRest =>
      intro level left
      unfold binaryRest
      refine commutes_current (fun token _ => ?_) fun name => ?_
      · cases found : level.operator? token with
        | some node =>
          refine commutes_bind commutes_advance fun _ => ?_
          refine commutes_bind (ih.operand level) fun right => ?_
          rw [← rename_of_operator? r found]
          exact ih.binaryRest level (node left right)
        | none => exact commutes_succeed rfl
      · rw [operator?_identifier, operator?_identifier]
        exact commutes_succeed rfl
    case unary =>
      unfold unary
      have call := commutes_bind ih.primary fun callee => ih.callRest callee
      refine commutes_current (fun token _ => ?_) fun name => call
      cases unaryOperator? token with
      | some op =>
        refine commutes_bind commutes_advance fun _ => ?_
        exact commutes_bind ih.unary fun operand => commutes_succeed rfl
      | none => exact call
    case callRest =>
      intro callee
      unfold callRest
      refine commutes_current (fun token _ => ?_) fun name => commutes_succeed rfl
      split
      · refine commutes_bind commutes_advance fun _ => ?_
        refine commutes_ifCurrent (by simp) ?_ ?_
        · exact commutes_bind commutes_advance fun _ => ih.callRest (.call callee [])
        · refine commutes_bind ih.arguments fun args => ?_
          refine commutes_bind (commutes_expect (by simp)) fun _ => ?_
          exact ih.callRest (.call callee args)
      · refine commutes_bind commutes_advance fun _ => ?_
        exact commutes_bind commutes_identifier fun name => ih.callRest (.get callee name)
      · exact commutes_succeed rfl
    case arguments =>
      unfold arguments
      refine commutes_bind ih.expression fun arg => ?_
      refine commutes_ifCurrent (by simp) ?_ (commutes_succeed rfl)
      refine commutes_bind commutes_advance fun _ => ?_
      exact commutes_bind ih.arguments fun more => commutes_succeed rfl
    case primary =>
      unfold primary
      refine commutes_current (fun token same => ?_) fun name => ?_
      · cases found : atom? token with
        | some e =>
          refine commutes_bind commutes_advance fun _ => commutes_succeed ?_
          exact rename_of_atom? r same found
        | none =>
          dsimp only
          split
          · refine commutes_bind commutes_advance fun _ => ?_
            refine commutes_bind (commutes_expect (by simp)) fun _ => ?_
            exact commutes_bind commutes_identifier fun method => commutes_succeed rfl
          · refine commutes_bind commutes_advance fun _ => ?_
            refine commutes_bind ih.expression fun e => ?_
            exact commutes_bind (commutes_expect (by simp)) fun _ => commutes_succeed rfl
          · refine commutes_fail ?_
            rw [SyntaxProblem.rename, same r]
      · exact commutes_bind commutes_advance fun _ => commutes_succeed rfl

/-! ### Statements -/

section

variable (r : Name → Name) (n : Nat)

theorem commutes_expressionLine :
    Commutes r (Expr.rename r) (expressionLine n) (expressionLine n) := by
  refine commutes_bind (expressionCommutes r n).expression fun e => ?_
  exact commutes_bind (commutes_expect (by simp)) fun _ => commutes_succeed rfl

theorem commutes_condition : Commutes r (Expr.rename r) (condition n) (condition n) := by
  refine commutes_bind (commutes_expect (by simp)) fun _ => ?_
  refine commutes_bind (expressionCommutes r n).expression fun cond => ?_
  exact commutes_bind (commutes_expect (by simp)) fun _ => commutes_succeed rfl

theorem commutes_varDecl : Commutes r (Stmt.rename r) (varDecl n) (varDecl n) := by
  refine commutes_bind commutes_advance fun _ => ?_
  refine commutes_bind commutes_identifier fun name => ?_
  refine commutes_ifCurrent (by simp) ?_ ?_
  · refine commutes_bind commutes_advance fun _ => ?_
    exact commutes_bind (commutes_expressionLine r n) fun init => commutes_succeed rfl
  · exact commutes_bind (commutes_expect (by simp)) fun _ => commutes_succeed rfl

theorem commutes_parameters : Commutes r (List.map r) (parameters n) (parameters n) := by
  induction n with
  | zero => exact commutes_exhausted
  | succ n ih =>
    unfold parameters
    refine commutes_bind commutes_identifier fun param => ?_
    refine commutes_ifCurrent (by simp) ?_ (commutes_succeed rfl)
    refine commutes_bind commutes_advance fun _ => ?_
    exact commutes_bind ih fun more => commutes_succeed rfl

theorem commutes_parameterList : Commutes r (List.map r) (parameterList n) (parameterList n) := by
  refine commutes_bind (commutes_expect (by simp)) fun _ => ?_
  refine commutes_ifCurrent (by simp) ?_ ?_
  · exact commutes_bind commutes_advance fun _ => commutes_succeed rfl
  · refine commutes_bind (commutes_parameters r n) fun params => ?_
    exact commutes_bind (commutes_expect (by simp)) fun _ => commutes_succeed rfl

theorem commutes_superclass : Commutes r (Option.map r) superclass superclass := by
  refine commutes_ifCurrent (by simp) ?_ (commutes_succeed rfl)
  refine commutes_bind commutes_advance fun _ => ?_
  exact commutes_bind commutes_identifier fun name => commutes_succeed rfl

theorem commutes_optionalExpression {absent : Token}
    (known : ∀ name, Token.identifier name ≠ absent) :
    Commutes r (Option.map (Expr.rename r)) (optionalExpression n absent)
      (optionalExpression n absent) := by
  refine commutes_ifCurrent known (commutes_succeed rfl) ?_
  exact commutes_bind (expressionCommutes r n).expression fun e => commutes_succeed rfl

theorem commutes_loopInit : Commutes r (Stmt.rename? r) (loopInit n) (loopInit n) := by
  have line : Commutes r (Stmt.rename? r) (do
      let e ← expressionLine n
      succeed (some (Stmt.expr e))) (do
      let e ← expressionLine n
      succeed (some (Stmt.expr e))) :=
    commutes_bind (commutes_expressionLine r n) fun e => commutes_succeed rfl
  refine commutes_current (fun token _ => ?_) fun name => line
  split
  · exact commutes_bind commutes_advance fun _ => commutes_succeed rfl
  · exact commutes_bind (commutes_varDecl r n) fun init => commutes_succeed rfl
  · exact line

/-- The parsers of statements. -/
structure StatementCommutes : Prop where
  declaration : Commutes r (Stmt.rename r) (declaration n) (declaration n)
  function : Commutes r (FunctionDecl.rename r) (function n) (function n)
  methods : Commutes r (FunctionDecl.renameAll r) (methods n) (methods n)
  blockRest : Commutes r (Stmt.renameAll r) (blockRest n) (blockRest n)
  statement : Commutes r (Stmt.rename r) (statement n) (statement n)

theorem statementCommutes : StatementCommutes r n := by
  induction n with
  | zero => constructor <;> exact commutes_exhausted
  | succ n ih =>
    have line : Commutes r (Stmt.rename r) (do
        let e ← expressionLine n
        succeed (Stmt.expr e)) (do
        let e ← expressionLine n
        succeed (Stmt.expr e)) :=
      commutes_bind (commutes_expressionLine r n) fun e => commutes_succeed rfl
    have more : Commutes r (Stmt.renameAll r) (do
        let stmt ← declaration n
        let more ← blockRest n
        succeed (stmt :: more)) (do
        let stmt ← declaration n
        let more ← blockRest n
        succeed (stmt :: more)) := by
      refine commutes_bind ih.declaration fun stmt => ?_
      exact commutes_bind ih.blockRest fun more => commutes_succeed rfl
    constructor
    case declaration =>
      unfold declaration
      refine commutes_current (fun token _ => ?_) fun name => ih.statement
      split
      · exact commutes_varDecl r n
      · refine commutes_bind commutes_advance fun _ => ?_
        exact commutes_bind ih.function fun decl => commutes_succeed rfl
      · refine commutes_bind commutes_advance fun _ => ?_
        refine commutes_bind commutes_identifier fun name => ?_
        refine commutes_bind (commutes_superclass r) fun superclass => ?_
        refine commutes_bind (commutes_expect (by simp)) fun _ => ?_
        exact commutes_bind ih.methods fun methods => commutes_succeed rfl
      · exact ih.statement
    case function =>
      unfold function
      refine commutes_bind commutes_identifier fun name => ?_
      refine commutes_bind (commutes_parameterList r n) fun params => ?_
      refine commutes_bind (commutes_expect (by simp)) fun _ => ?_
      exact commutes_bind ih.blockRest fun body => commutes_succeed rfl
    case methods =>
      unfold methods
      refine commutes_ifCurrent (by simp) ?_ ?_
      · exact commutes_bind commutes_advance fun _ => commutes_succeed rfl
      · refine commutes_bind ih.function fun method => ?_
        exact commutes_bind ih.methods fun more => commutes_succeed rfl
    case blockRest =>
      unfold blockRest
      refine commutes_current (fun token _ => ?_) fun name => more
      split
      · exact commutes_bind commutes_advance fun _ => commutes_succeed rfl
      · exact commutes_fail rfl
      · exact more
    case statement =>
      unfold statement
      refine commutes_current (fun token _ => ?_) fun name => line
      split
      · refine commutes_bind commutes_advance fun _ => ?_
        exact commutes_bind (commutes_expressionLine r n) fun e => commutes_succeed rfl
      · refine commutes_bind commutes_advance fun _ => ?_
        exact commutes_bind ih.blockRest fun body => commutes_succeed rfl
      · refine commutes_bind commutes_advance fun _ => ?_
        refine commutes_bind (commutes_condition r n) fun cond => ?_
        refine commutes_bind ih.statement fun thenBranch => ?_
        refine commutes_ifCurrent (by simp) ?_ (commutes_succeed rfl)
        refine commutes_bind commutes_advance fun _ => ?_
        exact commutes_bind ih.statement fun elseBranch => commutes_succeed rfl
      · refine commutes_bind commutes_advance fun _ => ?_
        refine commutes_bind (commutes_condition r n) fun cond => ?_
        exact commutes_bind ih.statement fun body => commutes_succeed rfl
      · refine commutes_bind commutes_advance fun _ => ?_
        refine commutes_bind (commutes_expect (by simp)) fun _ => ?_
        refine commutes_bind (commutes_loopInit r n) fun init => ?_
        refine commutes_bind (commutes_optionalExpression r n (by simp)) fun cond => ?_
        refine commutes_bind (commutes_expect (by simp)) fun _ => ?_
        refine commutes_bind (commutes_optionalExpression r n (by simp)) fun incr => ?_
        refine commutes_bind (commutes_expect (by simp)) fun _ => ?_
        exact commutes_bind ih.statement fun body => commutes_succeed rfl
      · exact commutes_bind commutes_advance fun _ => commutes_succeed rfl
      · refine commutes_bind commutes_advance fun _ => ?_
        refine commutes_ifCurrent (by simp) ?_ ?_
        · exact commutes_bind commutes_advance fun _ => commutes_succeed rfl
        · exact commutes_bind (commutes_expressionLine r n) fun value => commutes_succeed rfl
      · exact line

theorem commutes_declarations :
    Commutes r (Stmt.renameAll r) (declarations n) (declarations n) := by
  induction n with
  | zero => exact commutes_exhausted
  | succ n ih =>
    unfold declarations
    refine commutes_ifCurrent (by simp) (commutes_succeed rfl) ?_
    refine commutes_bind (statementCommutes r n).declaration fun stmt => ?_
    exact commutes_bind ih fun more => commutes_succeed rfl

theorem commutes_program : Commutes r (Stmt.renameAll r) (program n) (program n) :=
  commutes_bind commutes_advance fun _ => commutes_declarations r n

end

theorem Result.finding_rename {α β : Type} {r : Name → Name} {g : α → β} {result : Result α}
    {renamed : Result β} (same : renamed = result.rename r g) (h : result ≠ .outOfFuel)
    (h' : renamed ≠ .outOfFuel) :
    renamed.finding h' = ((result.finding h).map g).mapError (SyntaxError.rename r) := by
  subst same
  cases result with
  | ok a c => rfl
  | error e => rfl
  | outOfFuel => exact absurd rfl h

end Parse

/-- The tree of renamed items is the renamed tree; if there is none, the first problem is the same,
renamed. -/
theorem programOfItems_rename (r : Name → Name) (items : List Item) :
    programOfItems (items.map (Item.rename r)) =
      ((programOfItems items).map (Stmt.renameAll r)).mapError (SyntaxError.rename r) := by
  refine Parse.Result.finding_rename ?_ _ _
  have fuel : Parse.fuelFor (items.map (Item.rename r)) = Parse.fuelFor items := by
    unfold Parse.fuelFor
    rw [List.length_map]
  rw [fuel]
  exact Parse.commutes_program r _ (Parse.start items)

end Lox
