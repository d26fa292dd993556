import Lox.Parse.Stmt

/-!
Every parser reads tokens or stops, so fuel in proportion to the tokens left is always enough.

The size of a cursor is the number of items it can still move past. `Ends r P` says that a result is
not for want of fuel, and that it has the property `P` if it is a value. The main statements are
`ends_program` and `ends_wholeExpression`: sixteen calls for each item, and sixteen more, suffice.
-/

namespace Lox

/-- How many items a cursor can move past before it stands at the end of the text. -/
def Cursor.size (c : Cursor) : Nat := if c.token = .eof then 0 else c.rest.length + 1

namespace Parse

/-- The result is an error, or a value with a cursor that has the given property. -/
def Ends {α : Type} (r : Result α) (Q : Cursor → Prop) : Prop :=
  match r with
  | .ok _ c => Q c
  | .error _ => True
  | .outOfFuel => False

/-- From every cursor with the first property a parser ends, and if it gives a value, then with a
cursor that has the second property. -/
def Leads {α : Type} (P : Cursor → Prop) (p : Parser α) (Q : Cursor → Prop) : Prop :=
  ∀ c, P c → Ends (p c) Q

/-- At most a number of items are left. -/
def AtMost (n : Nat) (c : Cursor) : Prop := c.size ≤ n

/-- Fewer than a number of items are left. -/
def Fewer (n : Nat) (c : Cursor) : Prop := c.size < n

/-- At most a number of items are left behind the given token. -/
def At (n : Nat) (token : Token) (c : Cursor) : Prop := c.size ≤ n ∧ c.token = token

theorem Ends.mono {α : Type} {r : Result α} {Q R : Cursor → Prop} (h : Ends r Q)
    (sub : ∀ c, Q c → R c) : Ends r R := by
  cases r with
  | ok a c => exact sub c h
  | error e => trivial
  | outOfFuel => exact h

theorem Ends.ne_outOfFuel {α : Type} {r : Result α} {Q : Cursor → Prop} (h : Ends r Q) :
    r ≠ .outOfFuel := by
  rintro rfl
  exact h

/-! ### How parsers are put together -/

section

variable {α β : Type} {P Q R : Cursor → Prop} {p : Parser α} {f : α → Parser β}

theorem Leads.mono {P' Q' : Cursor → Prop} (h : Leads P p Q) (pre : ∀ c, P' c → P c)
    (post : ∀ c, Q c → Q' c) : Leads P' p Q' :=
  fun c hc => (h c (pre c hc)).mono post

theorem leads_bind (first : Leads P p Q) (next : ∀ a, Leads Q (f a) R) :
    Leads P (p >>= f) R := by
  intro c hc
  have ends := first c hc
  show Ends (andThen p f c) R
  unfold andThen
  cases result : p c with
  | ok a c' => exact next a c' (by rw [result] at ends; exact ends)
  | error e => trivial
  | outOfFuel => rw [result] at ends; exact ends

theorem leads_current {n : Nat} {f : Token → Parser β}
    (next : ∀ token, Leads (At n token) (f token) R) : Leads (AtMost n) (current >>= f) R :=
  fun c hc => next c.token c ⟨hc, rfl⟩

theorem leads_succeed {a : α} (h : ∀ c, P c → Q c) : Leads P (succeed a) Q := h

theorem leads_fail {problem : SyntaxProblem} : Leads P (fail problem : Parser α) Q :=
  fun _ _ => trivial

end

/-! ### Reading a token -/

theorem at_atMost {n : Nat} {token : Token} (c : Cursor) (h : At n token c) : AtMost n c := h.1

/-- Where something is left, fewer items are left behind a token that is not the end. -/
theorem leads_advance {n : Nat} {token : Token} (h : token ≠ .eof) :
    Leads (At n token) advance (Fewer n) := by
  rintro c ⟨size, rfl⟩
  have full : c.size = c.rest.length + 1 := by simp [Cursor.size, h]
  unfold advance
  cases rest : c.rest with
  | nil =>
    show Cursor.size { c with token := .eof } < n
    rw [full] at size
    exact Nat.lt_of_lt_of_le (Nat.succ_pos _) size
  | cons item more =>
    obtain ⟨line, content⟩ := item
    cases content with
    | error e => trivial
    | ok token =>
      show Cursor.size ⟨token, line, more⟩ < n
      rw [full, rest, List.length_cons] at size
      unfold Cursor.size
      split
      · omega
      · exact (by omega : more.length + 1 < n)

theorem leads_expect {n : Nat} {expected : Token} (h : expected ≠ .eof) :
    Leads (AtMost n) (expect expected) (Fewer n) := by
  apply leads_current
  intro token
  split
  · rename_i found
    exact leads_advance (found ▸ h)
  · exact leads_fail

/-- The end of the text is checked without moving. -/
theorem leads_expect_eof {n : Nat} : Leads (AtMost n) (expect .eof) (AtMost n) := by
  apply leads_current
  intro token
  split
  · exact leads_succeed at_atMost
  · exact leads_fail

theorem leads_identifier {n : Nat} : Leads (AtMost n) identifier (Fewer n) := by
  apply leads_current
  intro token
  split
  · exact leads_bind (leads_advance (by simp)) fun _ => leads_succeed fun _ h => h
  · exact leads_fail

/-- Where fewer than `n` items are left, there is a smaller number that bounds them. -/
theorem leads_of_fewer {α : Type} {n : Nat} {p : Parser α} {Q : Cursor → Prop}
    (h : ∀ m, m < n → Leads (AtMost m) p Q) : Leads (Fewer n) p Q := by
  intro c hc
  exact h c.size hc c (Nat.le_refl _)

theorem Leads.below {α : Type} {m n : Nat} {P : Cursor → Prop} {p : Parser α}
    (h : Leads P p (Fewer m)) (le : m ≤ n) : Leads P p (Fewer n) :=
  h.mono (fun _ h => h) fun _ h => Nat.lt_of_lt_of_le h le

theorem Leads.upTo {α : Type} {m n : Nat} {P : Cursor → Prop} {p : Parser α}
    (h : Leads P p (AtMost m)) (lt : m < n) : Leads P p (Fewer n) :=
  h.mono (fun _ h => h) fun _ h => Nat.lt_of_le_of_lt h lt

theorem Leads.at {α : Type} {n : Nat} {token : Token} {Q : Cursor → Prop} {p : Parser α}
    (h : Leads (AtMost n) p Q) : Leads (At n token) p Q :=
  h.mono at_atMost fun _ h => h

/-- Read a token that is not the end, then go on with fewer items. -/
theorem leads_past {β : Type} {n : Nat} {token : Token} {f : Unit → Parser β}
    {Q : Cursor → Prop} (h : token ≠ .eof) (next : ∀ m, m < n → Leads (AtMost m) (f ()) Q) :
    Leads (At n token) (advance >>= f) Q :=
  leads_bind (leads_advance h) fun _ => leads_of_fewer next

/-- Read an expected token, then go on with fewer items. -/
theorem leads_expected {β : Type} {n : Nat} {expected : Token} {f : Unit → Parser β}
    {Q : Cursor → Prop} (h : expected ≠ .eof) (next : ∀ m, m < n → Leads (AtMost m) (f ()) Q) :
    Leads (AtMost n) (expect expected >>= f) Q :=
  leads_bind (leads_expect h) fun _ => leads_of_fewer next

/-- Run a parser that reads something, then go on with fewer items. -/
theorem leads_then {α β : Type} {n : Nat} {p : Parser α} {f : α → Parser β} {Q : Cursor → Prop}
    (first : Leads (AtMost n) p (Fewer n)) (next : ∀ a m, m < n → Leads (AtMost m) (f a) Q) :
    Leads (AtMost n) (p >>= f) Q :=
  leads_bind first fun a => leads_of_fewer (next a)

/-! ### Expressions -/

/-- How many levels stand between a level and the unary expressions. -/
def Level.height : Level → Nat
  | .or => 5
  | .and => 4
  | .equality => 3
  | .comparison => 2
  | .term => 1
  | .factor => 0

theorem Level.height_le (level : Level) : level.height ≤ 5 := by
  cases level <;> decide

theorem Level.height_tighter {level tighter : Level} (h : level.tighter? = some tighter) :
    tighter.height + 1 = level.height := by
  cases level <;> cases h <;> rfl

theorem Level.operator?_eof (level : Level) : level.operator? .eof = none := by
  cases level <;> rfl

/-- What fuel suffices for the parsers of expressions on cursors with at most `n` items left. -/
structure ExpressionFuel (fuel : Nat) : Prop where
  expression : ∀ n, 16 * n + 9 ≤ fuel → Leads (AtMost n) (expression fuel) (Fewer n)
  binary : ∀ n level, 16 * n + 3 + level.height ≤ fuel →
    Leads (AtMost n) (binary fuel level) (Fewer n)
  binaryRest : ∀ n level left, 16 * n + 1 ≤ fuel →
    Leads (AtMost n) (binaryRest fuel level left) (AtMost n)
  unary : ∀ n, 16 * n + 2 ≤ fuel → Leads (AtMost n) (unary fuel) (Fewer n)
  callRest : ∀ n callee, 16 * n + 1 ≤ fuel →
    Leads (AtMost n) (callRest fuel callee) (AtMost n)
  arguments : ∀ n, 16 * n + 10 ≤ fuel → Leads (AtMost n) (arguments fuel) (Fewer n)
  primary : ∀ n, 16 * n + 1 ≤ fuel → Leads (AtMost n) (primary fuel) (Fewer n)

/-- The operand of a level, on cursors with at most `n` items left. -/
theorem ExpressionFuel.operand {fuel : Nat} (ih : ExpressionFuel fuel) (n : Nat) (level : Level)
    (enough : 16 * n + 2 + level.height ≤ fuel) :
    Leads (AtMost n) (level.operand (Parse.binary fuel) (Parse.unary fuel)) (Fewer n) := by
  unfold Level.operand
  split
  · rename_i tighter h
    have := Level.height_tighter h
    exact ih.binary n tighter (by omega)
  · exact ih.unary n (by omega)

theorem expressionFuel (fuel : Nat) : ExpressionFuel fuel := by
  induction fuel with
  | zero => constructor <;> intros <;> omega
  | succ fuel ih =>
    constructor
    case expression =>
      intro n enough
      unfold expression
      apply leads_then (ih.binary n .or (by simp [Level.height]; omega))
      intro target m lt
      apply leads_current
      intro token
      split
      · apply leads_past (by simp_all)
        intro k _
        apply leads_then (ih.expression k (by omega))
        intro value j _
        split
        · exact leads_succeed fun c h => Nat.lt_of_le_of_lt h (by omega)
        · exact leads_fail
      · exact leads_succeed fun c h => Nat.lt_of_le_of_lt h.1 (by omega)
    case binary =>
      intro n level enough
      unfold binary
      exact leads_then (ih.operand n level (by omega)) fun left m lt =>
        (ih.binaryRest m level left (by omega)).upTo lt
    case binaryRest =>
      intro n level left enough
      unfold binaryRest
      apply leads_current
      intro token
      split
      · rename_i node found
        have h : token ≠ .eof := by
          rintro rfl
          simp [Level.operator?_eof] at found
        have := level.height_le
        apply leads_past h
        intro m lt
        apply leads_then (ih.operand m level (by omega))
        intro right k _
        exact (ih.binaryRest k level _ (by omega)).mono (fun _ h => h) fun c h =>
          Nat.le_trans h (by omega)
      · exact leads_succeed at_atMost
    case unary =>
      intro n enough
      unfold unary
      apply leads_current
      intro token
      split
      · rename_i op found
        have h : token ≠ .eof := by
          rintro rfl
          simp [unaryOperator?] at found
        apply leads_past h
        intro m lt
        apply leads_then (ih.unary m (by omega))
        intro operand k _
        exact leads_succeed fun c h => Nat.lt_of_le_of_lt h (by omega)
      · refine Leads.at (leads_then (ih.primary n (by omega)) fun callee m lt => ?_)
        exact (ih.callRest m callee (by omega)).upTo lt
    case callRest =>
      intro n callee enough
      unfold callRest
      apply leads_current
      intro token
      split
      · apply leads_past (by simp)
        intro m lt
        apply leads_current
        intro token
        split
        · apply leads_past (by simp_all)
          intro k _
          exact (ih.callRest k _ (by omega)).mono (fun _ h => h) fun c h =>
            Nat.le_trans h (by omega)
        · refine Leads.at (leads_then (ih.arguments m (by omega)) fun args k _ => ?_)
          apply leads_expected (by simp)
          intro j _
          exact (ih.callRest j _ (by omega)).mono (fun _ h => h) fun c h =>
            Nat.le_trans h (by omega)
      · apply leads_past (by simp)
        intro m lt
        apply leads_then leads_identifier
        intro name k _
        exact (ih.callRest k _ (by omega)).mono (fun _ h => h) fun c h =>
          Nat.le_trans h (by omega)
      · exact leads_succeed at_atMost
    case arguments =>
      intro n enough
      unfold arguments
      apply leads_then (ih.expression n (by omega))
      intro arg m lt
      apply leads_current
      intro token
      split
      · apply leads_past (by simp_all)
        intro k _
        apply leads_then (ih.arguments k (by omega))
        intro more j _
        exact leads_succeed fun c h => Nat.lt_of_le_of_lt h (by omega)
      · exact leads_succeed fun c h => Nat.lt_of_le_of_lt h.1 lt
    case primary =>
      intro n enough
      unfold primary
      apply leads_current
      intro token
      split
      · rename_i e found
        have h : token ≠ .eof := by
          rintro rfl
          simp [atom?] at found
        apply leads_past h
        intro m lt
        exact leads_succeed fun c h => Nat.lt_of_le_of_lt h lt
      · split
        · apply leads_past (by simp)
          intro m lt
          apply leads_expected (by simp)
          intro k _
          apply leads_then leads_identifier
          intro method j _
          exact leads_succeed fun c h => Nat.lt_of_le_of_lt h (by omega)
        · apply leads_past (by simp)
          intro m lt
          apply leads_then (ih.expression m (by omega))
          intro e k _
          apply leads_expected (by simp)
          intro j _
          exact leads_succeed fun c h => Nat.lt_of_le_of_lt h (by omega)
        · exact leads_fail

theorem leads_expression {fuel n : Nat} (enough : 16 * n + 9 ≤ fuel) :
    Leads (AtMost n) (expression fuel) (Fewer n) :=
  (expressionFuel fuel).expression n enough

/-! ### Statements -/

section

variable {fuel n : Nat}

theorem leads_expressionLine (enough : 16 * n + 9 ≤ fuel) :
    Leads (AtMost n) (expressionLine fuel) (Fewer n) := by
  apply leads_then (leads_expression enough)
  intro e m lt
  apply leads_expected (by simp)
  intro k _
  exact leads_succeed fun c h => Nat.lt_of_le_of_lt h (by omega)

theorem leads_condition (enough : 16 * n + 9 ≤ fuel) :
    Leads (AtMost n) (condition fuel) (Fewer n) := by
  apply leads_expected (by simp)
  intro m lt
  apply leads_then (leads_expression (by omega))
  intro cond k _
  apply leads_expected (by simp)
  intro j _
  exact leads_succeed fun c h => Nat.lt_of_le_of_lt h (by omega)

theorem leads_varDecl (enough : 16 * n ≤ fuel) :
    Leads (At n (.keyword .var)) (varDecl fuel) (Fewer n) := by
  apply leads_past (by simp)
  intro m lt
  apply leads_then leads_identifier
  intro name k _
  apply leads_current
  intro token
  split
  · apply leads_past (by simp_all)
    intro j _
    apply leads_then (leads_expressionLine (by omega))
    intro init i _
    exact leads_succeed fun c h => Nat.lt_of_le_of_lt h (by omega)
  · refine Leads.at (leads_expected (by simp) fun j _ => ?_)
    exact leads_succeed fun c h => Nat.lt_of_le_of_lt h (by omega)

theorem leads_superclass : Leads (AtMost n) superclass (AtMost n) := by
  apply leads_current
  intro token
  split
  · apply leads_past (by simp_all)
    intro m lt
    apply leads_then leads_identifier
    intro name k _
    exact leads_succeed fun c h => Nat.le_trans h (by omega)
  · exact leads_succeed at_atMost

theorem leads_optionalExpression {absent : Token} (enough : 16 * n + 9 ≤ fuel) :
    Leads (AtMost n) (optionalExpression fuel absent) (AtMost n) := by
  apply leads_current
  intro token
  split
  · exact leads_succeed at_atMost
  · refine Leads.at (leads_then (leads_expression enough) fun e m lt => ?_)
    exact leads_succeed fun c h => Nat.le_trans h (by omega)

theorem leads_loopInit (enough : 16 * n + 9 ≤ fuel) :
    Leads (AtMost n) (loopInit fuel) (Fewer n) := by
  apply leads_current
  intro token
  split
  · apply leads_past (by simp)
    intro m lt
    exact leads_succeed fun c h => Nat.lt_of_le_of_lt h lt
  · apply leads_bind (leads_varDecl (by omega))
    intro init
    exact leads_succeed fun c h => h
  · refine Leads.at (leads_then (leads_expressionLine enough) fun e m lt => ?_)
    exact leads_succeed fun c h => Nat.lt_of_le_of_lt h lt

end

theorem leads_parameters {fuel : Nat} :
    ∀ {n}, 16 * n + 1 ≤ fuel → Leads (AtMost n) (parameters fuel) (Fewer n) := by
  induction fuel with
  | zero => intros; omega
  | succ fuel ih =>
    intro n enough
    unfold parameters
    apply leads_then leads_identifier
    intro param m lt
    apply leads_current
    intro token
    split
    · apply leads_past (by simp_all)
      intro k _
      apply leads_then (ih (by omega))
      intro more j _
      exact leads_succeed fun c h => Nat.lt_of_le_of_lt h (by omega)
    · exact leads_succeed fun c h => Nat.lt_of_le_of_lt h.1 lt

theorem leads_parameterList {fuel n : Nat} (enough : 16 * n ≤ fuel) :
    Leads (AtMost n) (parameterList fuel) (Fewer n) := by
  apply leads_expected (by simp)
  intro m lt
  apply leads_current
  intro token
  split
  · apply leads_past (by simp_all)
    intro k _
    exact leads_succeed fun c h => Nat.lt_of_le_of_lt h (by omega)
  · refine Leads.at (leads_then (leads_parameters (by omega)) fun params k _ => ?_)
    apply leads_expected (by simp)
    intro j _
    exact leads_succeed fun c h => Nat.lt_of_le_of_lt h (by omega)

/-- What fuel suffices for the parsers of statements on cursors with at most `n` items left. -/
structure StatementFuel (fuel : Nat) : Prop where
  declaration : ∀ n, 16 * n + 11 ≤ fuel → Leads (AtMost n) (declaration fuel) (Fewer n)
  function : ∀ n, 16 * n + 12 ≤ fuel → Leads (AtMost n) (function fuel) (Fewer n)
  methods : ∀ n, 16 * n + 13 ≤ fuel → Leads (AtMost n) (methods fuel) (Fewer n)
  blockRest : ∀ n, 16 * n + 12 ≤ fuel → Leads (AtMost n) (blockRest fuel) (Fewer n)
  statement : ∀ n, 16 * n + 10 ≤ fuel → Leads (AtMost n) (statement fuel) (Fewer n)

theorem statementFuel (fuel : Nat) : StatementFuel fuel := by
  induction fuel with
  | zero => constructor <;> intros <;> omega
  | succ fuel ih =>
    constructor
    case declaration =>
      intro n enough
      unfold declaration
      apply leads_current
      intro token
      split
      · exact leads_varDecl (by omega)
      · apply leads_past (by simp)
        intro m lt
        apply leads_then (ih.function m (by omega))
        intro decl k _
        exact leads_succeed fun c h => Nat.lt_of_le_of_lt h (by omega)
      · apply leads_past (by simp)
        intro m lt
        apply leads_then leads_identifier
        intro name k _
        apply leads_bind leads_superclass
        intro parent
        apply leads_expected (by simp)
        intro j _
        apply leads_then (ih.methods j (by omega))
        intro methods i _
        exact leads_succeed fun c h => Nat.lt_of_le_of_lt h (by omega)
      · exact (ih.statement n (by omega)).at
    case function =>
      intro n enough
      unfold function
      apply leads_then leads_identifier
      intro name m lt
      apply leads_then (leads_parameterList (by omega))
      intro params k _
      apply leads_expected (by simp)
      intro j _
      apply leads_then (ih.blockRest j (by omega))
      intro body i _
      exact leads_succeed fun c h => Nat.lt_of_le_of_lt h (by omega)
    case methods =>
      intro n enough
      unfold methods
      apply leads_current
      intro token
      split
      · apply leads_past (by simp_all)
        intro m lt
        exact leads_succeed fun c h => Nat.lt_of_le_of_lt h lt
      · refine Leads.at (leads_then (ih.function n (by omega)) fun method m lt => ?_)
        apply leads_then (ih.methods m (by omega))
        intro more k _
        exact leads_succeed fun c h => Nat.lt_of_le_of_lt h (by omega)
    case blockRest =>
      intro n enough
      unfold blockRest
      apply leads_current
      intro token
      split
      · apply leads_past (by simp)
        intro m lt
        exact leads_succeed fun c h => Nat.lt_of_le_of_lt h lt
      · exact leads_fail
      · refine Leads.at (leads_then (ih.declaration n (by omega)) fun stmt m lt => ?_)
        apply leads_then (ih.blockRest m (by omega))
        intro more k _
        exact leads_succeed fun c h => Nat.lt_of_le_of_lt h (by omega)
    case statement =>
      intro n enough
      unfold statement
      apply leads_current
      intro token
      split
      · apply leads_past (by simp)
        intro m lt
        apply leads_then (leads_expressionLine (by omega))
        intro e k _
        exact leads_succeed fun c h => Nat.lt_of_le_of_lt h (by omega)
      · apply leads_past (by simp)
        intro m lt
        apply leads_then (ih.blockRest m (by omega))
        intro body k _
        exact leads_succeed fun c h => Nat.lt_of_le_of_lt h (by omega)
      · apply leads_past (by simp)
        intro m lt
        apply leads_then (leads_condition (by omega))
        intro cond k _
        apply leads_then (ih.statement k (by omega))
        intro thenBranch j _
        apply leads_current
        intro token
        split
        · apply leads_past (by simp_all)
          intro i _
          apply leads_then (ih.statement i (by omega))
          intro elseBranch l _
          exact leads_succeed fun c h => Nat.lt_of_le_of_lt h (by omega)
        · exact leads_succeed fun c h => Nat.lt_of_le_of_lt h.1 (by omega)
      · apply leads_past (by simp)
        intro m lt
        apply leads_then (leads_condition (by omega))
        intro cond k _
        apply leads_then (ih.statement k (by omega))
        intro body j _
        exact leads_succeed fun c h => Nat.lt_of_le_of_lt h (by omega)
      · apply leads_past (by simp)
        intro m lt
        apply leads_expected (by simp)
        intro k _
        apply leads_then (leads_loopInit (by omega))
        intro init j _
        apply leads_bind (leads_optionalExpression (by omega))
        intro cond
        apply leads_expected (by simp)
        intro i _
        apply leads_bind (leads_optionalExpression (by omega))
        intro incr
        apply leads_expected (by simp)
        intro l _
        apply leads_then (ih.statement l (by omega))
        intro body _ _
        exact leads_succeed fun c h => Nat.lt_of_le_of_lt h (by omega)
      · apply leads_past (by simp)
        intro m lt
        exact leads_succeed fun c h => Nat.lt_of_le_of_lt h lt
      · apply leads_past (by simp)
        intro m lt
        apply leads_current
        intro token
        split
        · apply leads_past (by simp_all)
          intro k _
          exact leads_succeed fun c h => Nat.lt_of_le_of_lt h (by omega)
        · refine Leads.at (leads_then (leads_expressionLine (by omega)) fun value k _ => ?_)
          exact leads_succeed fun c h => Nat.lt_of_le_of_lt h (by omega)
      · refine Leads.at (leads_then (leads_expressionLine (by omega)) fun e m lt => ?_)
        exact leads_succeed fun c h => Nat.lt_of_le_of_lt h lt

/-! ### Whole texts -/

theorem leads_declarations {fuel : Nat} :
    ∀ {n}, 16 * n + 12 ≤ fuel → Leads (AtMost n) (declarations fuel) (AtMost n) := by
  induction fuel with
  | zero => intros; omega
  | succ fuel ih =>
    intro n enough
    unfold declarations
    apply leads_current
    intro token
    split
    · exact leads_succeed at_atMost
    · refine Leads.at (leads_then ((statementFuel fuel).declaration n (by omega)) ?_)
      intro stmt m lt
      apply leads_bind (ih (by omega))
      intro more
      exact leads_succeed fun c h => Nat.le_trans h (by omega)

/-- Behind the start no more items are left than there are. -/
theorem ends_advance_start (items : List Item) :
    Ends (advance (start items)) (AtMost items.length) := by
  cases items with
  | nil => exact Nat.le_refl _
  | cons item rest =>
    obtain ⟨line, content⟩ := item
    cases content with
    | error e => trivial
    | ok token =>
      show Cursor.size _ ≤ _
      unfold Cursor.size
      split
      · exact Nat.zero_le _
      · exact Nat.le_refl _

theorem leads_of_start {α : Type} {items : List Item} {p : Unit → Parser α}
    {Q : Cursor → Prop} (h : Leads (AtMost items.length) (p ()) Q) :
    Ends ((advance >>= p) (start items)) Q :=
  leads_bind (fun _ same => same ▸ ends_advance_start items) (fun _ => h) (start items) rfl

theorem ends_program (items : List Item) :
    Ends (program (fuelFor items) (start items)) (AtMost items.length) :=
  leads_of_start (leads_declarations (by simp [fuelFor]))

theorem ends_wholeExpression (items : List Item) :
    Ends (wholeExpression (fuelFor items) (start items)) (AtMost items.length) := by
  apply leads_of_start
  apply leads_then (leads_expression (by simp [fuelFor]))
  intro e m lt
  apply leads_bind leads_expect_eof
  intro _
  exact leads_succeed fun c h => Nat.le_trans h (Nat.le_of_lt lt)

end Parse

end Lox
