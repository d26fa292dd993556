import Lox.Parse.Program

/-!
More fuel does not change what a parser finds.

The main statements are `expressionGrows` and `statementGrows`, each one induction on the fuel for
all the parsers that call each other.
-/

namespace Lox.Parse

/-- Wherever the first parser does not run out of fuel, the second does the same. -/
def Extends {α : Type} (p q : Parser α) : Prop := ∀ c, p c ≠ .outOfFuel → q c = p c

/-! ### How parsers are put together -/

section

variable {α β : Type}

theorem Extends.refl (p : Parser α) : Extends p p := fun _ _ => rfl

theorem extends_exhausted (q : Parser α) : Extends exhausted q := fun _ h => absurd rfl h

theorem extends_bind {p q : Parser α} {f g : α → Parser β} (first : Extends p q)
    (next : ∀ a, Extends (f a) (g a)) : Extends (p >>= f) (q >>= g) := by
  intro c h
  change andThen p f c ≠ .outOfFuel at h
  show andThen q g c = andThen p f c
  unfold andThen at h ⊢
  cases result : p c with
  | ok a c' =>
    rw [result] at h
    rw [first c (by simp [result]), result]
    exact next a c' h
  | error e => rw [first c (by simp [result]), result]
  | outOfFuel => simp [result] at h

theorem extends_ite {P : Prop} [Decidable P] {p q p' q' : Parser α} (yes : Extends p q)
    (no : Extends p' q') : Extends (if P then p else p') (if P then q else q') := by
  split
  · exact yes
  · exact no

end

/-! ### Expressions -/

/-- The parsers of expressions, with less fuel and with more. -/
structure ExpressionGrows (n m : Nat) : Prop where
  expression : Extends (expression n) (expression m)
  binary : ∀ level, Extends (binary n level) (binary m level)
  binaryRest : ∀ level left, Extends (binaryRest n level left) (binaryRest m level left)
  unary : Extends (unary n) (unary m)
  callRest : ∀ callee, Extends (callRest n callee) (callRest m callee)
  arguments : Extends (arguments n) (arguments m)
  primary : Extends (primary n) (primary m)

theorem ExpressionGrows.operand {n m : Nat} (ih : ExpressionGrows n m) (level : Level) :
    Extends (level.operand (Parse.binary n) (Parse.unary n))
      (level.operand (Parse.binary m) (Parse.unary m)) := by
  unfold Level.operand
  cases level.tighter? with
  | some tighter => exact ih.binary tighter
  | none => exact ih.unary

theorem expressionGrows {n m : Nat} (le : n ≤ m) : ExpressionGrows n m := by
  induction n generalizing m with
  | zero => constructor <;> intros <;> exact extends_exhausted _
  | succ n ih =>
    obtain ⟨m, rfl⟩ : ∃ k, m = k + 1 := ⟨m - 1, by omega⟩
    have ih := ih (m := m) (by omega)
    constructor
    case expression =>
      unfold expression
      apply extends_bind (ih.binary .or)
      intro target
      apply extends_bind (.refl _)
      intro token
      refine extends_ite ?_ (.refl _)
      exact extends_bind (.refl _) fun _ => extends_bind ih.expression fun _ => .refl _
    case binary =>
      intro level
      unfold binary
      exact extends_bind (ih.operand level) fun left => ih.binaryRest level left
    case binaryRest =>
      intro level left
      unfold binaryRest
      apply extends_bind (.refl _)
      intro token
      cases level.operator? token with
      | some node =>
        apply extends_bind (.refl _)
        intro _
        apply extends_bind (ih.operand level)
        intro right
        exact ih.binaryRest level (node left right)
      | none => exact .refl _
    case unary =>
      unfold unary
      apply extends_bind (.refl _)
      intro token
      cases unaryOperator? token with
      | some op => exact extends_bind (.refl _) fun _ => extends_bind ih.unary fun _ => .refl _
      | none => exact extends_bind ih.primary fun callee => ih.callRest callee
    case callRest =>
      intro callee
      unfold callRest
      apply extends_bind (.refl _)
      intro token
      split
      · apply extends_bind (.refl _)
        intro _
        apply extends_bind (.refl _)
        intro token
        apply extends_ite (extends_bind (.refl _) fun _ => ih.callRest _)
        exact extends_bind ih.arguments fun args => extends_bind (.refl _) fun _ =>
          ih.callRest (.call callee args)
      · apply extends_bind (.refl _)
        intro _
        apply extends_bind (.refl _)
        intro name
        exact ih.callRest (.get callee name)
      · exact .refl _
    case arguments =>
      unfold arguments
      apply extends_bind ih.expression
      intro arg
      apply extends_bind (.refl _)
      intro token
      refine extends_ite (extends_bind (.refl _) fun _ => ?_) (.refl _)
      exact extends_bind ih.arguments fun _ => .refl _
    case primary =>
      unfold primary
      apply extends_bind (.refl _)
      intro token
      cases atom? token with
      | some e => exact .refl _
      | none =>
        dsimp only
        split
        · exact .refl _
        · exact extends_bind (.refl _) fun _ => extends_bind ih.expression fun _ => .refl _
        · exact .refl _

/-! ### Statements -/

/-- The parsers of statements, with less fuel and with more. -/
structure StatementGrows (n m : Nat) : Prop where
  declaration : Extends (declaration n) (declaration m)
  function : Extends (function n) (function m)
  methods : Extends (methods n) (methods m)
  blockRest : Extends (blockRest n) (blockRest m)
  statement : Extends (statement n) (statement m)

section

variable {n m : Nat}

theorem extends_expression (le : n ≤ m) : Extends (expression n) (expression m) :=
  (expressionGrows le).expression

theorem extends_expressionLine (le : n ≤ m) :
    Extends (expressionLine n) (expressionLine m) :=
  extends_bind (extends_expression le) fun _ => .refl _

theorem extends_condition (le : n ≤ m) : Extends (condition n) (condition m) :=
  extends_bind (.refl _) fun _ => extends_bind (extends_expression le) fun _ => .refl _

theorem extends_varDecl (le : n ≤ m) : Extends (varDecl n) (varDecl m) := by
  apply extends_bind (.refl _)
  intro _
  apply extends_bind (.refl _)
  intro name
  refine extends_bind (.refl _) fun token => extends_ite ?_ (.refl _)
  exact extends_bind (.refl _) fun _ => extends_bind (extends_expressionLine le) fun _ => .refl _

theorem extends_parameters (le : n ≤ m) : Extends (parameters n) (parameters m) := by
  induction n generalizing m with
  | zero => exact extends_exhausted _
  | succ n ih =>
    obtain ⟨m, rfl⟩ : ∃ k, m = k + 1 := ⟨m - 1, by omega⟩
    unfold parameters
    apply extends_bind (.refl _)
    intro param
    apply extends_bind (.refl _)
    intro token
    refine extends_ite (extends_bind (.refl _) fun _ => ?_) (.refl _)
    exact extends_bind (ih (by omega)) fun _ => .refl _

theorem extends_parameterList (le : n ≤ m) : Extends (parameterList n) (parameterList m) := by
  apply extends_bind (.refl _)
  intro _
  apply extends_bind (.refl _)
  intro token
  apply extends_ite (.refl _)
  exact extends_bind (extends_parameters le) fun _ => .refl _

theorem extends_optionalExpression (le : n ≤ m) (absent : Token) :
    Extends (optionalExpression n absent) (optionalExpression m absent) := by
  apply extends_bind (.refl _)
  intro token
  apply extends_ite (.refl _)
  exact extends_bind (extends_expression le) fun _ => .refl _

theorem extends_loopInit (le : n ≤ m) : Extends (loopInit n) (loopInit m) := by
  apply extends_bind (.refl _)
  intro token
  split
  · exact .refl _
  · exact extends_bind (extends_varDecl le) fun _ => .refl _
  · exact extends_bind (extends_expressionLine le) fun _ => .refl _

end

theorem statementGrows {n m : Nat} (le : n ≤ m) : StatementGrows n m := by
  induction n generalizing m with
  | zero => constructor <;> exact extends_exhausted _
  | succ n ih =>
    obtain ⟨m, rfl⟩ : ∃ k, m = k + 1 := ⟨m - 1, by omega⟩
    have le : n ≤ m := by omega
    have ih := ih le
    constructor
    case declaration =>
      unfold declaration
      apply extends_bind (.refl _)
      intro token
      split
      · exact extends_varDecl le
      · exact extends_bind (.refl _) fun _ => extends_bind ih.function fun _ => .refl _
      · apply extends_bind (.refl _)
        intro _
        apply extends_bind (.refl _)
        intro name
        apply extends_bind (.refl _)
        intro superclass
        apply extends_bind (.refl _)
        intro _
        exact extends_bind ih.methods fun _ => .refl _
      · exact ih.statement
    case function =>
      unfold function
      apply extends_bind (.refl _)
      intro name
      apply extends_bind (extends_parameterList le)
      intro params
      exact extends_bind (.refl _) fun _ => extends_bind ih.blockRest fun _ => .refl _
    case methods =>
      unfold methods
      apply extends_bind (.refl _)
      intro token
      apply extends_ite (.refl _)
      exact extends_bind ih.function fun _ => extends_bind ih.methods fun _ => .refl _
    case blockRest =>
      unfold blockRest
      apply extends_bind (.refl _)
      intro token
      split
      · exact .refl _
      · exact .refl _
      · exact extends_bind ih.declaration fun _ => extends_bind ih.blockRest fun _ => .refl _
    case statement =>
      unfold statement
      apply extends_bind (.refl _)
      intro token
      split
      · exact extends_bind (.refl _) fun _ =>
          extends_bind (extends_expressionLine le) fun _ => .refl _
      · exact extends_bind (.refl _) fun _ => extends_bind ih.blockRest fun _ => .refl _
      · apply extends_bind (.refl _)
        intro _
        apply extends_bind (extends_condition le)
        intro cond
        apply extends_bind ih.statement
        intro thenBranch
        apply extends_bind (.refl _)
        intro token
        refine extends_ite (extends_bind (.refl _) fun _ => ?_) (.refl _)
        exact extends_bind ih.statement fun _ => .refl _
      · apply extends_bind (.refl _)
        intro _
        apply extends_bind (extends_condition le)
        intro cond
        exact extends_bind ih.statement fun _ => .refl _
      · apply extends_bind (.refl _)
        intro _
        apply extends_bind (.refl _)
        intro _
        apply extends_bind (extends_loopInit le)
        intro init
        apply extends_bind (extends_optionalExpression le _)
        intro cond
        apply extends_bind (.refl _)
        intro _
        apply extends_bind (extends_optionalExpression le _)
        intro incr
        exact extends_bind (.refl _) fun _ => extends_bind ih.statement fun _ => .refl _
      · exact .refl _
      · apply extends_bind (.refl _)
        intro _
        apply extends_bind (.refl _)
        intro token
        apply extends_ite (.refl _)
        exact extends_bind (extends_expressionLine le) fun _ => .refl _
      · exact extends_bind (extends_expressionLine le) fun _ => .refl _

theorem extends_declarations {n m : Nat} (le : n ≤ m) :
    Extends (declarations n) (declarations m) := by
  induction n generalizing m with
  | zero => exact extends_exhausted _
  | succ n ih =>
    obtain ⟨m, rfl⟩ : ∃ k, m = k + 1 := ⟨m - 1, by omega⟩
    have le : n ≤ m := by omega
    unfold declarations
    apply extends_bind (.refl _)
    intro token
    apply extends_ite (.refl _)
    apply extends_bind (statementGrows le).declaration
    exact fun _ => extends_bind (ih le) fun _ => .refl _

end Lox.Parse
