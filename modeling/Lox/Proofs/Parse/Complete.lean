import Lox.Proofs.Grammar
import Lox.Proofs.Parse.Fuel
import Lox.Proofs.Parse.Reading
import Lox.Proofs.Parse.Sound

/-!
The parser takes in whatever the grammar derives.

`Gives p c a c'` says that a parser with fuel reads from `c` to `c'` and builds `a` as soon as the
fuel is enough. A derivation is followed rule by rule. What the parser needs to know besides, since
it reads one token ahead, is that the token behind the derived ones does not continue them:
`strength` measures how tightly a token binds to an expression in front of it, and an open `if` must
not stand in front of an `else`. The main statements are `accepts_of_expression`,
`gives_of_statement`, `complete_program` and `complete_wholeExpression`.
-/

namespace Lox.Parse

open Grammar

/-! ### Enough fuel -/

/-- With enough fuel, and with any more, a parser gives a tree. -/
def Gives {α : Type} (p : Nat → Parser α) (c : Cursor) (a : α) (c' : Cursor) : Prop :=
  ∃ enough, ∀ fuel, enough ≤ fuel → p fuel c = .ok a c'

section

variable {α β : Type}

theorem gives_of_eq {p : Parser α} {c c' : Cursor} {a : α} (h : p c = .ok a c') :
    Gives (fun _ => p) c a c' :=
  ⟨0, fun _ _ => h⟩

theorem gives_succeed {a : α} {c : Cursor} : Gives (fun _ => succeed a) c a c := gives_of_eq rfl

/-- One call deep, one unit of fuel is used up. -/
theorem gives_succ {p : Nat → Parser α} {c c' : Cursor} {a : α}
    (h : Gives (fun fuel => p (fuel + 1)) c a c') : Gives p c a c' := by
  obtain ⟨enough, h⟩ := h
  refine ⟨enough + 1, fun fuel le => ?_⟩
  obtain ⟨fuel, rfl⟩ : ∃ n, fuel = n + 1 := ⟨fuel - 1, by omega⟩
  exact h fuel (by omega)

theorem gives_bind {p : Nat → Parser α} {f : Nat → α → Parser β} {c c₁ c₂ : Cursor} {a : α} {b : β}
    (first : Gives p c a c₁) (next : Gives (fun fuel => f fuel a) c₁ b c₂) :
    Gives (fun fuel => p fuel >>= f fuel) c b c₂ := by
  obtain ⟨enough, first⟩ := first
  obtain ⟨enough', next⟩ := next
  refine ⟨max enough enough', fun fuel le => ?_⟩
  exact bind_eq_ok.mpr ⟨a, c₁, first fuel (by omega), next fuel (by omega)⟩

theorem gives_current {f : Nat → Token → Parser β} {c c' : Cursor} {b : β}
    (next : Gives (fun fuel => f fuel c.token) c b c') :
    Gives (fun fuel => current >>= f fuel) c b c' := next

/-- A tree that is given with enough fuel is given whenever the fuel does not run out. -/
theorem Gives.eq_ok {p : Nat → Parser α} {c c' : Cursor} {a : α} (h : Gives p c a c')
    (grows : ∀ {n m}, n ≤ m → Extends (p n) (p m)) {fuel : Nat} (ne : p fuel c ≠ .outOfFuel) :
    p fuel c = .ok a c' := by
  obtain ⟨enough, h⟩ := h
  rw [← grows (Nat.le_max_left fuel enough) c ne]
  exact h _ (Nat.le_max_right fuel enough)

theorem gives_succeed_of_reads {a : α} {c c' : Cursor} (reads : Reads c [] c') :
    Gives (fun _ => succeed a) c a c' :=
  reads_nil_iff.mp reads ▸ gives_succeed

/-! Where the next token is known, reading it is a step. -/

variable {f : Nat → Unit → Parser β} {token : Token} {toks : List Token} {c c' c'' : Cursor} {b : β}

theorem gives_advance (reads : Reads c (token :: toks) c')
    (next : ∀ {c₁}, Reads c₁ toks c' → Gives (fun fuel => f fuel ()) c₁ b c'') :
    Gives (fun fuel => advance >>= f fuel) c b c'' := by
  obtain ⟨-, -, c₁, step, reads⟩ := reads_cons_iff.mp reads
  exact gives_bind (gives_of_eq step) (next reads)

theorem gives_expect (reads : Reads c (token :: toks) c')
    (next : ∀ {c₁}, Reads c₁ toks c' → Gives (fun fuel => f fuel ()) c₁ b c'') :
    Gives (fun fuel => expect token >>= f fuel) c b c'' := by
  obtain ⟨c₁, first, reads⟩ := reads_append_iff.mp (show Reads c ([token] ++ toks) c' from reads)
  have ne := (reads_cons_iff.mp first).2.1
  exact gives_bind (gives_of_eq ((expect_eq_ok ne).mpr first)) (next reads)

theorem gives_identifier {f : Nat → Name → Parser β} {name : Name}
    (reads : Reads c (.identifier name :: toks) c')
    (next : ∀ {c₁}, Reads c₁ toks c' → Gives (fun fuel => f fuel name) c₁ b c'') :
    Gives (fun fuel => identifier >>= f fuel) c b c'' := by
  obtain ⟨c₁, first, reads⟩ :=
    reads_append_iff.mp (show Reads c ([.identifier name] ++ toks) c' from reads)
  exact gives_bind (gives_of_eq (identifier_eq_ok.mpr first)) (next reads)

end

/-! ### What may follow -/

/-- How tightly a token that continues an expression binds; zero for tokens that do not. -/
def strength : Token → Nat
  | .mark .equal => 1
  | .keyword .or => 2
  | .keyword .and => 3
  | .mark .bangEqual | .mark .equalEqual => 4
  | .mark .less | .mark .lessEqual | .mark .greater | .mark .greaterEqual => 5
  | .mark .plus | .mark .minus => 6
  | .mark .star | .mark .slash => 7
  | .mark .leftParen | .mark .dot => 8
  | _ => 0

/-- The strength of the operators of a level. -/
def Level.strength : Level → Nat
  | .or => 2
  | .and => 3
  | .equality => 4
  | .comparison => 5
  | .term => 6
  | .factor => 7

theorem strength_of_operator? {level : Level} {token : Token} {node : Expr → Expr → Expr}
    (h : level.operator? token = some node) : strength token = level.strength := by
  unfold Level.operator? at h
  split at h <;> cases h <;> rfl

/-- A chain ends at a token that is not one of its operators. -/
theorem gives_binaryRest_end {level : Level} {left : Expr} {c : Cursor}
    (h : strength c.token ≠ level.strength) :
    Gives (fun fuel => binaryRest fuel level left) c left c := by
  apply gives_succ
  simp only [binaryRest]
  apply gives_current
  cases found : level.operator? c.token with
  | some node => exact absurd (strength_of_operator? found) h
  | none => exact gives_succeed

theorem gives_callRest_end {callee : Expr} {c : Cursor} (h : strength c.token < 8) :
    Gives (fun fuel => callRest fuel callee) c callee c := by
  apply gives_succ
  simp only [callRest]
  apply gives_current
  cases here : c.token with
  | mark m => cases m <;> first | exact gives_succeed | simp [here, strength] at h
  | _ => exact gives_succeed

/-! ### What an expression starts with -/

/-- Whether an expression may start with a token. -/
def startsExpression : Token → Bool
  | .identifier _ | .number _ | .string _ => true
  | .keyword .true | .keyword .false | .keyword .nil | .keyword .this | .keyword .super => true
  | .mark .leftParen | .mark .bang | .mark .minus => true
  | _ => false

theorem startsExpression_of_expression :
    ∀ {a toks e}, Expression a toks e → ∃ token toks', toks = token :: toks' ∧
      startsExpression token = true
  | _, _, _, .tighter _ h => startsExpression_of_expression h
  | _, _, _, .assign _ => ⟨_, _, rfl, rfl⟩
  | _, _, _, .set h _ => by
    obtain ⟨token, toks', rfl, starts⟩ := startsExpression_of_expression h
    exact ⟨token, _, rfl, starts⟩
  | _, _, _, @Expression.operator _ _ _ _ _ _ _ _ _ h _ => by
    obtain ⟨token, toks', rfl, starts⟩ := startsExpression_of_expression h
    exact ⟨token, _, rfl, starts⟩
  | _, _, _, .not _ => ⟨_, _, rfl, rfl⟩
  | _, _, _, .minus _ => ⟨_, _, rfl, rfl⟩
  | _, _, _, .call h _ => by
    obtain ⟨token, toks', rfl, starts⟩ := startsExpression_of_expression h
    exact ⟨token, _, rfl, starts⟩
  | _, _, _, .get h => by
    obtain ⟨token, toks', rfl, starts⟩ := startsExpression_of_expression h
    exact ⟨token, _, rfl, starts⟩
  | _, _, _, .atom h => by cases h <;> exact ⟨_, _, rfl, rfl⟩
  | _, _, _, .group _ => ⟨_, _, rfl, rfl⟩
  | _, _, _, .super => ⟨_, _, rfl, rfl⟩

theorem startsExpression_of_reads {a : Category} {toks : List Token} {e : Expr} {c c' : Cursor}
    (h : Expression a toks e) (reads : Reads c toks c') : startsExpression c.token = true := by
  obtain ⟨token, toks', rfl, starts⟩ := startsExpression_of_expression h
  obtain ⟨rfl, -⟩ := reads_cons_iff.mp reads
  exact starts

theorem ne_of_startsExpression {c : Cursor} {token : Token}
    (starts : startsExpression c.token = true) (never : startsExpression token = false) :
    c.token ≠ token := by
  rintro rfl
  rw [starts] at never
  cases never

/-! ### Expressions -/

/-- A chain of the level that starts at `c` has come to `e` at `c'`: what the rest of the chain
makes of `e` from there, the level gives from `c`. -/
def Chains (level : Level) (e : Expr) (c c' : Cursor) : Prop :=
  ∀ e' c'', Gives (fun fuel => binaryRest fuel level e) c' e' c'' →
    Gives (fun fuel => binary fuel level) c e' c''

/-- How a category's parser takes in an expression that reaches from `c` to `c'`. The chains and the
calls may go on from there. -/
def Accepts : Category → Expr → Cursor → Cursor → Prop
  | .expression, e, c, c' => strength c'.token = 0 → Gives expression c e c'
  | .logicOr, e, c, c' => strength c'.token ≤ 2 → Chains .or e c c'
  | .logicAnd, e, c, c' => strength c'.token ≤ 3 → Chains .and e c c'
  | .equality, e, c, c' => strength c'.token ≤ 4 → Chains .equality e c c'
  | .comparison, e, c, c' => strength c'.token ≤ 5 → Chains .comparison e c c'
  | .term, e, c, c' => strength c'.token ≤ 6 → Chains .term e c c'
  | .factor, e, c, c' => strength c'.token ≤ 7 → Chains .factor e c c'
  | .unary, e, c, c' => strength c'.token < 8 → Gives unary c e c'
  | .call, e, c, c' => ∀ e' c'', Gives (fun fuel => callRest fuel e) c' e' c'' →
      Gives unary c e' c''
  | .primary, e, c, c' => Gives primary c e c' ∧ unaryOperator? c.token = none

theorem accepts_category {level : Level} {e : Expr} {c c' : Cursor} :
    Accepts level.category e c c' ↔ (strength c'.token ≤ level.strength → Chains level e c c') := by
  cases level <;> rfl

theorem Chains.gives {level : Level} {e : Expr} {c c' : Cursor} (h : Chains level e c c')
    (ends : strength c'.token ≠ level.strength) :
    Gives (fun fuel => binary fuel level) c e c' :=
  h e c' (gives_binaryRest_end ends)

theorem gives_operand {level : Level} {e : Expr} {c c' : Cursor}
    (h : Accepts level.operandCategory e c c') (le : strength c'.token ≤ level.strength) :
    Gives (fun fuel => level.operand (binary fuel) (unary fuel)) c e c' := by
  cases level with
  | factor => exact h (Nat.lt_succ_of_le le)
  | _ => exact Chains.gives (h (Nat.le_succ_of_le le)) (Nat.ne_of_lt (Nat.lt_succ_of_le le))

theorem accepts_of_operand {level : Level} {e : Expr} {c c' : Cursor}
    (h : Accepts level.operandCategory e c c') : Accepts level.category e c c' := by
  apply accepts_category.mpr
  intro le e' c'' rest
  apply gives_succ
  simp only [binary]
  exact gives_bind (gives_operand h le) rest

theorem accepts_of_contains {a b : Category} {e : Expr} {c c' : Cursor} (contains : Contains a b)
    (h : Accepts b e c c') : Accepts a e c c' := by
  cases contains with
  | expression =>
    intro ends
    apply gives_succ
    simp only [expression]
    have target := Chains.gives (h (by omega)) (by simp [ends, Level.strength])
    refine gives_bind target (gives_current ?_)
    have ne : c'.token ≠ .mark .equal := fun equal => by simp [equal, strength] at ends
    simpa only [ne, if_false] using gives_succeed
  | logicOr => exact @accepts_of_operand .or _ _ _ h
  | logicAnd => exact @accepts_of_operand .and _ _ _ h
  | equality => exact @accepts_of_operand .equality _ _ _ h
  | comparison => exact @accepts_of_operand .comparison _ _ _ h
  | term => exact @accepts_of_operand .term _ _ _ h
  | factor => exact @accepts_of_operand .factor _ _ _ h
  | unary => exact fun ends => h e c' (gives_callRest_end ends)
  | call =>
    intro e' c'' rest
    obtain ⟨callee, notOperator⟩ := h
    apply gives_succ
    simp only [unary]
    apply gives_current
    simp only [notOperator]
    exact gives_bind callee rest

theorem accepts_of_operator {a b : Category} {op : Token} {node : Expr → Expr → Expr}
    {left right : Expr} {toks : List Token} {c c₁ c' : Cursor} (operator : Operator a op b node)
    (first : Accepts a left c c₁) (reads : Reads c₁ (op :: toks) c')
    (second : ∀ {c₂}, Reads c₂ toks c' → Accepts b right c₂ c') :
    Accepts a (node left right) c c' := by
  obtain ⟨level, rfl, rfl⟩ : ∃ level : Level, a = level.category ∧ b = level.operandCategory := by
    cases operator
    case or => exact ⟨.or, rfl, rfl⟩
    case and => exact ⟨.and, rfl, rfl⟩
    case notEqual | equal => exact ⟨.equality, rfl, rfl⟩
    case greater | greaterEqual | less | lessEqual => exact ⟨.comparison, rfl, rfl⟩
    case sub | add => exact ⟨.term, rfl, rfl⟩
    case div | mul => exact ⟨.factor, rfl, rfl⟩
  obtain ⟨here, -⟩ := reads_cons_iff.mp reads
  have found := Level.operator?_eq_some.mpr operator
  apply accepts_category.mpr
  intro le e' c'' rest
  have continues : strength c₁.token = level.strength := by rw [here, strength_of_operator? found]
  apply accepts_category.mp first (Nat.le_of_eq continues) e' c''
  apply gives_succ
  simp only [binaryRest]
  refine gives_current ?_
  simp only [here, found]
  obtain ⟨-, -, c₂, step, reads⟩ := reads_cons_iff.mp reads
  exact gives_bind (gives_of_eq step) (gives_bind (gives_operand (second reads) le) rest)

theorem accepts_of_callEmpty {callee : Expr} {c c₁ c' : Cursor} (first : Accepts .call callee c c₁)
    (reads : Reads c₁ [.mark .leftParen, .mark .rightParen] c') :
    Accepts .call (.call callee []) c c' := by
  intro e' c'' rest
  refine first e' c'' (gives_succ ?_)
  simp only [callRest]
  apply gives_current
  simp only [reads.token]
  refine gives_advance reads fun reads => gives_current ?_
  simp only [reads.token, if_true]
  refine gives_advance reads fun reads => ?_
  rw [reads_nil_iff.mp reads]
  exact rest

/-- Between the parentheses of a call the arguments are read, which do not start with the closing
one. -/
theorem accepts_of_call {callee : Expr} {args : List Expr} {toks : List Token} {c c₁ c' : Cursor}
    (first : Accepts .call callee c c₁)
    (reads : Reads c₁ (.mark .leftParen :: (toks ++ [.mark .rightParen])) c')
    (given : ∀ {c₂ c₃}, Reads c₂ toks c₃ → c₃.token = .mark .rightParen →
      startsExpression c₂.token = true ∧ Gives arguments c₂ args c₃) :
    Accepts .call (.call callee args) c c' := by
  intro e' c'' rest
  refine first e' c'' (gives_succ ?_)
  simp only [callRest]
  apply gives_current
  simp only [reads.token]
  refine gives_advance reads fun reads => gives_current ?_
  obtain ⟨c₃, readsArgs, closing⟩ := reads_append_iff.mp reads
  obtain ⟨starts, argsGiven⟩ := given readsArgs closing.token
  have ne : Cursor.token _ ≠ .mark .rightParen := ne_of_startsExpression starts rfl
  simp only [ne, if_false]
  refine gives_bind argsGiven (gives_expect closing fun reads => ?_)
  rw [reads_nil_iff.mp reads]
  exact rest

/-- A call and its arguments may be followed by a point and a name. -/
theorem accepts_of_get {object : Expr} {name : Name} {c c₁ c' : Cursor}
    (first : Accepts .call object c c₁)
    (reads : Reads c₁ [.mark .dot, .identifier name] c') :
    Accepts .call (.get object name) c c' := by
  intro e' c'' rest
  refine first e' c'' (gives_succ ?_)
  simp only [callRest]
  apply gives_current
  simp only [reads.token]
  refine gives_advance reads fun reads => gives_identifier reads fun reads => ?_
  rw [reads_nil_iff.mp reads]
  exact rest

/-- The left side of an assignment is read as a chain of the loosest level. -/
theorem gives_assignment {target value e : Expr} {toks : List Token} {c c₁ c' : Cursor}
    (left : Gives (fun fuel => binary fuel .or) c target c₁)
    (reads : Reads c₁ (.mark .equal :: toks) c')
    (right : ∀ {c₂}, Reads c₂ toks c' → Gives expression c₂ value c')
    (assigned : assignment? target value = some e) : Gives expression c e c' := by
  apply gives_succ
  simp only [expression]
  refine gives_bind left (gives_current ?_)
  simp only [reads.token, if_true]
  refine gives_advance reads fun reads => gives_bind (right reads) ?_
  simp only [assigned]
  exact gives_succeed

/-- A unary operator is followed by its operand. -/
theorem accepts_of_unary {op : UnaryOp} {operand : Expr} {token : Token} {toks : List Token}
    {c c' : Cursor} (found : unaryOperator? token = some op) (reads : Reads c (token :: toks) c')
    (rest : ∀ {c₁}, Reads c₁ toks c' → Accepts .unary operand c₁ c') :
    Accepts .unary (.unary op operand) c c' := by
  intro ends
  apply gives_succ
  simp only [unary]
  apply gives_current
  simp only [reads.token, found]
  exact gives_advance reads fun reads => gives_bind (rest reads ends) gives_succeed

/-- Above the calls an expression is handed on from one level to the next looser one. -/
theorem gives_binary_of_call {e : Expr} {c c' : Cursor} (h : Accepts .call e c c')
    (ends : strength c'.token ≤ 1) : Gives (fun fuel => binary fuel .or) c e c' := by
  have unary : Accepts .unary e c c' := accepts_of_contains .unary h
  have factor := accepts_of_contains .factor unary
  have term := accepts_of_contains .term factor
  have comparison := accepts_of_contains .comparison term
  have equality := accepts_of_contains .equality comparison
  have logicAnd := accepts_of_contains .logicAnd equality
  have logicOr := accepts_of_contains .logicOr logicAnd
  exact Chains.gives (logicOr (by omega)) (by simp only [Level.strength]; omega)

theorem accepts_of_atom {token : Token} {e : Expr} {c c' : Cursor} (h : Atom token e)
    (reads : Reads c [token] c') : Accepts .primary e c c' := by
  constructor
  · apply gives_succ
    simp only [primary]
    apply gives_current
    simp only [reads.token, atom?_eq_some.mpr h]
    exact gives_advance reads gives_succeed_of_reads
  · rw [reads.token]
    cases h <;> rfl

theorem accepts_of_super {name : Name} {c c' : Cursor}
    (reads : Reads c [.keyword .super, .mark .dot, .identifier name] c') :
    Accepts .primary (.super name) c c' := by
  constructor
  · apply gives_succ
    simp only [primary]
    apply gives_current
    simp only [reads.token, atom?]
    refine gives_advance reads fun reads => gives_expect reads fun reads => ?_
    exact gives_identifier reads gives_succeed_of_reads
  · rw [reads.token]
    rfl

theorem accepts_of_group {e : Expr} {toks : List Token} {c c' : Cursor}
    (reads : Reads c (.mark .leftParen :: (toks ++ [.mark .rightParen])) c')
    (inner : ∀ {c₁ c₂}, Reads c₁ toks c₂ → Accepts .expression e c₁ c₂) :
    Accepts .primary (.group e) c c' := by
  constructor
  · apply gives_succ
    simp only [primary]
    apply gives_current
    simp only [reads.token, atom?]
    refine gives_advance reads fun reads => ?_
    obtain ⟨c₂, readsInner, closing⟩ := reads_append_iff.mp reads
    have given := inner readsInner (by simp [closing.token, strength])
    exact gives_bind given (gives_expect closing gives_succeed_of_reads)
  · rw [reads.token]
    rfl

mutual

/-- The parsers of expressions take in what the grammar derives. -/
theorem accepts_of_expression : ∀ {a toks e}, Expression a toks e →
    ∀ {c c'}, Reads c toks c' → Accepts a e c c'
  | _, _, _, .tighter contains h, _, _, reads =>
    accepts_of_contains contains (accepts_of_expression h reads)
  | _, _, _, @Expression.assign name toks value h, c, c', reads => by
    intro ends
    obtain ⟨c₁, readsName, reads⟩ := reads_append_iff.mp
      (show Reads c ([.identifier name] ++ (.mark .equal :: toks)) c' from reads)
    have target := accepts_of_contains .call (accepts_of_atom .variable readsName)
    refine gives_assignment (gives_binary_of_call target ?_) reads
      (fun reads => accepts_of_expression h reads ends) rfl
    simp [reads.token, strength]
  | _, _, _, .set h h', c, c', reads => by
    intro ends
    obtain ⟨c₁, readsObject, reads⟩ := reads_append_iff.mp reads
    obtain ⟨c₂, readsGet, reads⟩ := reads_append_iff.mp
      (show Reads c₁ ([.mark .dot, .identifier _] ++ (.mark .equal :: _)) c' from reads)
    have target := accepts_of_get (accepts_of_expression h readsObject) readsGet
    refine gives_assignment (gives_binary_of_call target ?_) reads
      (fun reads => accepts_of_expression h' reads ends) rfl
    simp [reads.token, strength]
  | _, _, _, @Expression.operator _ _ _ _ _ _ _ _ operator h h', c, c', reads => by
    obtain ⟨c₁, readsLeft, reads⟩ := reads_append_iff.mp reads
    exact accepts_of_operator operator (accepts_of_expression h readsLeft) reads
      fun reads => accepts_of_expression h' reads
  | _, _, _, .not h, _, _, reads =>
    accepts_of_unary rfl reads fun reads => accepts_of_expression h reads
  | _, _, _, .minus h, _, _, reads =>
    accepts_of_unary rfl reads fun reads => accepts_of_expression h reads
  | _, _, _, .call h h', _, _, reads => by
    obtain ⟨c₁, readsCallee, reads⟩ := reads_append_iff.mp reads
    have callee := accepts_of_expression h readsCallee
    rcases gives_of_arguments h' with ⟨rfl, rfl⟩ | given
    · exact accepts_of_callEmpty callee reads
    · exact accepts_of_call callee reads given
  | _, _, _, .get h, _, _, reads => by
    obtain ⟨c₁, readsObject, reads⟩ := reads_append_iff.mp reads
    exact accepts_of_get (accepts_of_expression h readsObject) reads
  | _, _, _, .atom h, _, _, reads => accepts_of_atom h reads
  | _, _, _, .group h, _, _, reads =>
    accepts_of_group reads fun reads => accepts_of_expression h reads
  | _, _, _, .super, _, _, reads => accepts_of_super reads

theorem gives_of_arguments : ∀ {toks args}, Arguments toks args →
    (toks = [] ∧ args = []) ∨ ∀ {c c'}, Reads c toks c' → c'.token = .mark .rightParen →
      startsExpression c.token = true ∧ Gives arguments c args c'
  | _, _, .none => .inl ⟨rfl, rfl⟩
  | _, _, .some h => .inr fun reads ends => gives_of_argumentList h reads ends

/-- The arguments of a call are read up to the closing parenthesis. -/
theorem gives_of_argumentList : ∀ {toks args}, ArgumentList toks args →
    ∀ {c c'}, Reads c toks c' → c'.token = .mark .rightParen →
      startsExpression c.token = true ∧ Gives arguments c args c'
  | _, _, .last h, c, c', reads, ends => by
    refine ⟨startsExpression_of_reads h reads, gives_succ ?_⟩
    simp only [arguments]
    have arg := accepts_of_expression h reads (by simp [ends, strength])
    refine gives_bind arg (gives_current ?_)
    simp only [ends]
    exact gives_succeed
  | _, _, .more h h', c, c', reads, ends => by
    obtain ⟨c₁, readsArg, reads⟩ := reads_append_iff.mp reads
    refine ⟨startsExpression_of_reads h readsArg, gives_succ ?_⟩
    simp only [arguments]
    have arg := accepts_of_expression h readsArg (by simp [reads.token, strength])
    refine gives_bind arg (gives_current ?_)
    simp only [reads.token, if_true]
    refine gives_advance reads fun reads => ?_
    exact gives_bind (gives_of_argumentList h' reads ends).2 gives_succeed

end

/-! ### What a statement starts with -/

/-- Whether a statement may start with a token. -/
def startsStatement : Token → Bool
  | .keyword .print | .keyword .return | .keyword .if | .keyword .while | .keyword .for => true
  | .mark .leftCurly | .mark .semicolon => true
  | token => startsExpression token

/-- Whether a declaration, or a statement in its place, may start with a token. -/
def startsDeclaration : Token → Bool
  | .keyword .var | .keyword .fun | .keyword .cls => true
  | token => startsStatement token

theorem startsStatement_of_startsExpression {token : Token} (h : startsExpression token = true) :
    startsStatement token = true := by
  unfold startsStatement
  split <;> first | rfl | exact h

theorem startsDeclaration_of_startsStatement {token : Token} (h : startsStatement token = true) :
    startsDeclaration token = true := by
  unfold startsDeclaration
  split <;> first | rfl | exact h

theorem startsStatement_of_statement {isOpen : Bool} {toks : List Token} {stmt : Stmt}
    (h : Statement isOpen toks stmt) :
    ∃ token toks', toks = token :: toks' ∧ startsStatement token = true := by
  cases h with
  | expr h =>
    obtain ⟨derived⟩ := h
    obtain ⟨token, toks', rfl, starts⟩ := startsExpression_of_expression derived
    exact ⟨token, _, rfl, startsStatement_of_startsExpression starts⟩
  | _ => exact ⟨_, _, rfl, rfl⟩

theorem startsStatement_of_reads {isOpen : Bool} {toks : List Token} {stmt : Stmt} {c c' : Cursor}
    (h : Statement isOpen toks stmt) (reads : Reads c toks c') : startsStatement c.token = true := by
  obtain ⟨token, toks', rfl, starts⟩ := startsStatement_of_statement h
  exact reads.token ▸ starts

theorem startsDeclaration_of_declaration {toks : List Token} {stmt : Stmt}
    (h : Declaration toks stmt) :
    ∃ token toks', toks = token :: toks' ∧ startsDeclaration token = true := by
  cases h with
  | var h => cases h <;> exact ⟨_, _, rfl, rfl⟩
  | statement h =>
    obtain ⟨token, toks', rfl, starts⟩ := startsStatement_of_statement h
    exact ⟨token, toks', rfl, startsDeclaration_of_startsStatement starts⟩
  | _ => exact ⟨_, _, rfl, rfl⟩

theorem startsDeclaration_of_reads {toks : List Token} {stmt : Stmt} {c c' : Cursor}
    (h : Declaration toks stmt) (reads : Reads c toks c') : startsDeclaration c.token = true := by
  obtain ⟨token, toks', rfl, starts⟩ := startsDeclaration_of_declaration h
  exact reads.token ▸ starts

theorem ne_of_startsDeclaration {c : Cursor} {token : Token}
    (starts : startsDeclaration c.token = true) (never : startsDeclaration token = false) :
    c.token ≠ token := by
  rintro rfl
  rw [starts] at never
  cases never

/-- Declarations leave no `else` in front of them, if none stands behind them. -/
theorem ne_else_of_declarations {toks : List Token} {stmts : List Stmt} {c c' : Cursor}
    (h : Declarations toks stmts) (reads : Reads c toks c') (ne : c'.token ≠ .keyword .else) :
    c.token ≠ .keyword .else := by
  cases h with
  | nil => exact reads_nil_iff.mp reads ▸ ne
  | cons first rest =>
    obtain ⟨c₁, reads, -⟩ := reads_append_iff.mp reads
    exact ne_of_startsDeclaration (startsDeclaration_of_reads first reads) rfl

/-! ### The parts of statements -/

section

variable {β : Type} {toks toks' : List Token} {e : Expr} {c c' c'' : Cursor} {b : β}

theorem gives_expressionLine (h : Expression .expression toks e)
    (reads : Reads c (toks ++ [.mark .semicolon]) c') : Gives expressionLine c e c' := by
  obtain ⟨c₁, readsExpression, reads⟩ := reads_append_iff.mp reads
  have given := accepts_of_expression h readsExpression (by simp [reads.token, strength])
  exact gives_bind given (gives_expect reads gives_succeed_of_reads)

theorem gives_condition {f : Nat → Expr → Parser β} (h : Expression .expression toks e)
    (reads : Reads c (.mark .leftParen :: (toks ++ .mark .rightParen :: toks')) c')
    (next : ∀ {c₁}, Reads c₁ toks' c' → Gives (fun fuel => f fuel e) c₁ b c'') :
    Gives (fun fuel => condition fuel >>= f fuel) c b c'' := by
  obtain ⟨c₁, front, reads⟩ := reads_append_iff.mp
    (show Reads c ((.mark .leftParen :: (toks ++ [.mark .rightParen])) ++ toks') c' by
      simpa using reads)
  refine gives_bind (gives_expect front fun front => ?_) (next reads)
  obtain ⟨c₂, readsExpression, closing⟩ := reads_append_iff.mp front
  have given := accepts_of_expression h readsExpression (by simp [closing.token, strength])
  exact gives_bind given (gives_expect closing gives_succeed_of_reads)

theorem gives_varDecl {stmt : Stmt} (h : VarDecl toks stmt) (reads : Reads c toks c') :
    Gives varDecl c stmt c' := by
  cases h with
  | bare =>
    refine gives_advance reads fun reads => gives_identifier reads fun reads => ?_
    apply gives_current
    simp only [reads.token, reduceCtorEq, Token.mark.injEq, if_false]
    exact gives_expect reads gives_succeed_of_reads
  | init h =>
    refine gives_advance reads fun reads => gives_identifier reads fun reads => ?_
    apply gives_current
    simp only [reads.token, if_true]
    refine gives_advance reads fun reads => ?_
    exact gives_bind (gives_expressionLine h reads) gives_succeed

theorem gives_parameters {names : List Name} (h : NameList toks names) (reads : Reads c toks c')
    (ends : c'.token ≠ .mark .comma) : Gives parameters c names c' := by
  induction h generalizing c with
  | last =>
    apply gives_succ
    simp only [parameters]
    refine gives_identifier reads fun reads => gives_current ?_
    obtain rfl := reads_nil_iff.mp reads
    simp only [ends, if_false]
    exact gives_succeed
  | more _ ih =>
    apply gives_succ
    simp only [parameters]
    refine gives_identifier reads fun reads => gives_current ?_
    simp only [reads.token, if_true]
    exact gives_advance reads fun reads => gives_bind (ih reads) gives_succeed

theorem gives_parameterList {f : Nat → List Name → Parser β} {names : List Name}
    (h : Parameters toks names)
    (reads : Reads c (.mark .leftParen :: (toks ++ .mark .rightParen :: toks')) c')
    (next : ∀ {c₁}, Reads c₁ toks' c' → Gives (fun fuel => f fuel names) c₁ b c'') :
    Gives (fun fuel => parameterList fuel >>= f fuel) c b c'' := by
  obtain ⟨c₁, front, reads⟩ := reads_append_iff.mp
    (show Reads c ((.mark .leftParen :: (toks ++ [.mark .rightParen])) ++ toks') c' by
      simpa using reads)
  refine gives_bind (gives_expect front fun front => gives_current ?_) (next reads)
  cases h with
  | none =>
    simp only [front.token, if_true]
    exact gives_advance front gives_succeed_of_reads
  | some h =>
    obtain ⟨c₂, readsNames, closing⟩ := reads_append_iff.mp front
    have ne : ∀ {c₀}, Reads c₀ toks c₂ → c₀.token ≠ .mark .rightParen := fun reads => by
      cases h <;> simp [reads.token]
    simp only [ne readsNames, if_false]
    apply gives_bind (gives_parameters h readsNames (by simp [closing.token]))
    exact gives_expect closing gives_succeed_of_reads

/-- A class without a superclass goes on with its opening brace. -/
theorem gives_superclass {f : Nat → Option Name → Parser β} {name : Option Name}
    (h : Superclass toks name) (reads : Reads c (toks ++ .mark .leftCurly :: toks') c')
    (next : ∀ {c₁}, Reads c₁ (.mark .leftCurly :: toks') c' →
      Gives (fun fuel => f fuel name) c₁ b c'') :
    Gives (fun fuel => superclass >>= f fuel) c b c'' := by
  obtain ⟨c₁, front, reads⟩ := reads_append_iff.mp reads
  refine gives_bind (gives_current ?_) (next reads)
  cases h with
  | none =>
    obtain rfl := reads_nil_iff.mp front
    simp only [reads.token, reduceCtorEq, Token.mark.injEq, if_false]
    exact gives_succeed
  | some =>
    simp only [front.token, if_true]
    refine gives_advance front fun front => ?_
    exact gives_identifier front gives_succeed_of_reads

/-- An optional expression is left out exactly where the token behind it stands. -/
theorem gives_optionalExpression {found : Option Expr} {absent : Token}
    (h : OptionalExpression toks found) (reads : Reads c toks c') (ends : c'.token = absent)
    (never : startsExpression absent = false) (weak : strength absent = 0) :
    Gives (fun fuel => optionalExpression fuel absent) c found c' := by
  apply gives_current
  cases h with
  | none =>
    obtain rfl := reads_nil_iff.mp reads
    simp only [ends, if_true]
    exact gives_succeed
  | some h =>
    have ne := ne_of_startsExpression (startsExpression_of_reads h reads) never
    simp only [ne, if_false]
    exact gives_bind (accepts_of_expression h reads (ends ▸ weak)) gives_succeed

theorem gives_loopInit {init : Option Stmt} (h : LoopInit toks init) (reads : Reads c toks c') :
    Gives loopInit c init c' := by
  apply gives_current
  cases h with
  | none =>
    simp only [reads.token]
    exact gives_advance reads gives_succeed_of_reads
  | var h =>
    have here : c.token = .keyword .var := by cases h <;> exact reads.token
    simp only [here]
    exact gives_bind (gives_varDecl h reads) gives_succeed
  | expr h =>
    obtain ⟨derived⟩ := h
    obtain ⟨c₁, front, -⟩ := reads_append_iff.mp reads
    have starts := startsExpression_of_reads derived front
    have line := gives_expressionLine derived reads
    split
    · rename_i here; simp [here, startsExpression] at starts
    · rename_i here; simp [here, startsExpression] at starts
    · exact gives_bind line gives_succeed

end

/-! ### Statements -/

/-- A declaration that starts like a statement is read as one. -/
theorem gives_declaration_of_statement {stmt : Stmt} {c c' : Cursor}
    (starts : startsStatement c.token = true) (given : Gives statement c stmt c') :
    Gives declaration c stmt c' := by
  apply gives_succ
  simp only [declaration]
  apply gives_current
  split
  · rename_i here; simp [here, startsStatement, startsExpression] at starts
  · rename_i here; simp [here, startsStatement, startsExpression] at starts
  · rename_i here; simp [here, startsStatement, startsExpression] at starts
  · exact given

/-- A statement that starts like an expression is one. -/
theorem gives_expressionStatement {e : Expr} {c c' : Cursor}
    (starts : startsExpression c.token = true) (given : Gives expressionLine c e c') :
    Gives statement c (.expr e) c' := by
  apply gives_succ
  simp only [statement]
  apply gives_current
  split
  case h_8 => exact gives_bind given gives_succeed
  all_goals rename_i here; simp [here, startsExpression] at starts

/-- The rest of a block goes on with a declaration. -/
theorem gives_blockRest_cons {stmt : Stmt} {stmts : List Stmt} {c c₁ c' : Cursor}
    (starts : startsDeclaration c.token = true) (first : Gives declaration c stmt c₁)
    (more : Gives blockRest c₁ stmts c') : Gives blockRest c (stmt :: stmts) c' := by
  apply gives_succ
  simp only [blockRest]
  apply gives_current
  split
  · rename_i here; simp [here, startsDeclaration, startsStatement, startsExpression] at starts
  · rename_i here; simp [here, startsDeclaration, startsStatement, startsExpression] at starts
  · exact gives_bind first (gives_bind more gives_succeed)

mutual

/-- The parser of statements takes in what the grammar derives. In front of an `else` the statement
must not end with an open `if`. -/
theorem gives_of_statement : ∀ {isOpen toks stmt}, Statement isOpen toks stmt →
    ∀ {c c'}, Reads c toks c' → (isOpen = true → c'.token ≠ .keyword .else) →
      Gives statement c stmt c'
  | _, _, _, .expr (.mk h), c, c', reads, _ => by
    obtain ⟨c₁, front, -⟩ := reads_append_iff.mp reads
    exact gives_expressionStatement (startsExpression_of_reads h front)
      (gives_expressionLine h reads)
  | _, _, _, .print h, c, c', reads, _ => by
    apply gives_succ
    simp only [statement]
    apply gives_current
    simp only [reads.token]
    refine gives_advance reads fun reads => ?_
    exact gives_bind (gives_expressionLine h reads) gives_succeed
  | _, _, _, .returnNil, c, c', reads, _ => by
    apply gives_succ
    simp only [statement]
    apply gives_current
    simp only [reads.token]
    refine gives_advance reads fun reads => gives_current ?_
    simp only [reads.token, if_true]
    exact gives_advance reads gives_succeed_of_reads
  | _, _, _, .return h, c, c', reads, _ => by
    apply gives_succ
    simp only [statement]
    apply gives_current
    simp only [reads.token]
    refine gives_advance reads fun reads => gives_current ?_
    obtain ⟨c₁, front, -⟩ := reads_append_iff.mp reads
    have starts := startsExpression_of_reads h front
    have ne : Cursor.token _ ≠ .mark .semicolon := ne_of_startsExpression starts rfl
    simp only [ne, if_false]
    exact gives_bind (gives_expressionLine h reads) gives_succeed
  | _, _, _, .nop, c, c', reads, _ => by
    apply gives_succ
    simp only [statement]
    apply gives_current
    simp only [reads.token]
    exact gives_advance reads gives_succeed_of_reads
  | _, _, _, .block h, c, c', reads, _ => by
    apply gives_succ
    simp only [statement]
    apply gives_current
    simp only [reads.token]
    refine gives_advance reads fun reads => ?_
    exact gives_bind (gives_of_declarations h reads) gives_succeed
  | _, _, _, .ifElse h h₁ h₂, c, c', reads, closed => by
    apply gives_succ
    simp only [statement]
    apply gives_current
    simp only [reads.token]
    refine gives_advance reads fun reads => gives_condition h reads fun reads => ?_
    obtain ⟨c₁, front, reads⟩ := reads_append_iff.mp reads
    refine gives_bind (gives_of_statement h₁ front (by simp)) (gives_current ?_)
    simp only [reads.token, if_true]
    refine gives_advance reads fun reads => ?_
    exact gives_bind (gives_of_statement h₂ reads closed) gives_succeed
  | _, _, _, .if h h₁, c, c', reads, closed => by
    apply gives_succ
    simp only [statement]
    apply gives_current
    simp only [reads.token]
    refine gives_advance reads fun reads => gives_condition h reads fun reads => ?_
    refine gives_bind (gives_of_statement h₁ reads fun _ => closed rfl) (gives_current ?_)
    simp only [closed rfl, if_false]
    exact gives_succeed
  | _, _, _, .while h h₁, c, c', reads, closed => by
    apply gives_succ
    simp only [statement]
    apply gives_current
    simp only [reads.token]
    refine gives_advance reads fun reads => gives_condition h reads fun reads => ?_
    exact gives_bind (gives_of_statement h₁ reads closed) gives_succeed
  | _, _, _, .for h₀ h₁ h₂ h₃, c, c', reads, closed => by
    apply gives_succ
    simp only [statement]
    apply gives_current
    simp only [reads.token]
    refine gives_advance reads fun reads => gives_expect reads fun reads => ?_
    obtain ⟨c₁, front, reads⟩ := reads_append_iff.mp reads
    apply gives_bind (gives_loopInit h₀ front)
    obtain ⟨c₂, front, reads⟩ := reads_append_iff.mp reads
    apply gives_bind (gives_optionalExpression h₁ front reads.token rfl rfl)
    refine gives_expect reads fun reads => ?_
    obtain ⟨c₃, front, reads⟩ := reads_append_iff.mp reads
    refine gives_bind (gives_optionalExpression h₂ front reads.token rfl rfl) ?_
    refine gives_expect reads fun reads => ?_
    exact gives_bind (gives_of_statement h₃ reads closed) gives_succeed

/-- The parser of declarations takes in what the grammar derives. -/
theorem gives_of_declaration : ∀ {toks stmt}, Declaration toks stmt →
    ∀ {c c'}, Reads c toks c' → c'.token ≠ .keyword .else → Gives declaration c stmt c'
  | _, _, .var h, c, c', reads, _ => by
    apply gives_succ
    simp only [declaration]
    apply gives_current
    have here : c.token = .keyword .var := by cases h <;> exact reads.token
    simp only [here]
    exact gives_varDecl h reads
  | _, _, .fun h, c, c', reads, _ => by
    apply gives_succ
    simp only [declaration]
    apply gives_current
    simp only [reads.token]
    refine gives_advance reads fun reads => ?_
    exact gives_bind (gives_of_function h reads) gives_succeed
  | _, _, .cls h h', c, c', reads, _ => by
    apply gives_succ
    simp only [declaration]
    apply gives_current
    simp only [reads.token]
    refine gives_advance reads fun reads => gives_identifier reads fun reads => ?_
    refine gives_superclass h reads fun reads => gives_expect reads fun reads => ?_
    exact gives_bind (gives_of_functions h' reads) gives_succeed
  | _, _, .statement h, _, _, reads, ne =>
    gives_declaration_of_statement (startsStatement_of_reads h reads)
      (gives_of_statement h reads fun _ => ne)

/-- The declarations of a block are read up to the closing brace. -/
theorem gives_of_declarations : ∀ {toks stmts}, Declarations toks stmts →
    ∀ {c c'}, Reads c (toks ++ [.mark .rightCurly]) c' → Gives blockRest c stmts c'
  | _, _, .nil, c, c', reads => by
    apply gives_succ
    simp only [blockRest]
    apply gives_current
    have here : c.token = .mark .rightCurly := reads.token
    simp only [here]
    exact gives_advance reads gives_succeed_of_reads
  | _, _, .cons h h', c, c', reads => by
    obtain ⟨c₁, front, reads⟩ := reads_append_iff.mp (List.append_assoc .. ▸ reads)
    obtain ⟨c₂, rest, closing⟩ := reads_append_iff.mp reads
    have ne := ne_else_of_declarations h' rest (by simp [closing.token])
    exact gives_blockRest_cons (startsDeclaration_of_reads h front)
      (gives_of_declaration h front ne) (gives_of_declarations h' reads)

/-- The parser of functions takes in what the grammar derives. -/
theorem gives_of_function : ∀ {toks decl}, Function toks decl →
    ∀ {c c'}, Reads c toks c' → Gives function c decl c'
  | _, _, .mk h h', c, c', reads => by
    apply gives_succ
    simp only [function]
    refine gives_identifier reads fun reads => gives_parameterList h reads fun reads => ?_
    refine gives_expect reads fun reads => ?_
    exact gives_bind (gives_of_declarations h' reads) gives_succeed

/-- The methods of a class are read up to the closing brace. -/
theorem gives_of_functions : ∀ {toks decls}, Functions toks decls →
    ∀ {c c'}, Reads c (toks ++ [.mark .rightCurly]) c' → Gives methods c decls c'
  | _, _, .nil, c, c', reads => by
    apply gives_succ
    simp only [methods]
    apply gives_current
    have here : c.token = .mark .rightCurly := reads.token
    simp only [here, if_true]
    exact gives_advance reads gives_succeed_of_reads
  | _, _, .cons h h', c, c', reads => by
    apply gives_succ
    simp only [methods]
    apply gives_current
    obtain ⟨c₁, front, reads⟩ := reads_append_iff.mp (List.append_assoc .. ▸ reads)
    have ne : c.token ≠ .mark .rightCurly := by cases h; simp [front.token]
    simp only [ne, if_false]
    exact gives_bind (gives_of_function h front)
      (gives_bind (gives_of_functions h' reads) gives_succeed)

end

/-! ### Whole texts -/

/-- At the top level the declarations are read up to the end of the text. -/
theorem gives_declarations {toks : List Token} {stmts : List Stmt} (h : Declarations toks stmts)
    {c c' : Cursor} (reads : Reads c toks c') (eof : c'.token = .eof) :
    Gives declarations c stmts c' := by
  induction stmts generalizing toks c with
  | nil =>
    cases h
    obtain rfl := reads_nil_iff.mp reads
    apply gives_succ
    simp only [declarations]
    apply gives_current
    simp only [eof, if_true]
    exact gives_succeed
  | cons stmt stmts ih =>
    cases h with
    | cons first rest =>
      obtain ⟨c₁, front, reads⟩ := reads_append_iff.mp reads
      have notElse := ne_else_of_declarations rest reads (by simp [eof])
      have starts := startsDeclaration_of_reads first front
      have ne : c.token ≠ .eof := ne_of_startsDeclaration starts rfl
      apply gives_succ
      simp only [declarations]
      apply gives_current
      simp only [ne, if_false]
      exact gives_bind (gives_of_declaration first front notElse)
        (gives_bind (ih rest reads) gives_succeed)

theorem extends_program {n m : Nat} (le : n ≤ m) : Extends (program n) (program m) :=
  extends_bind (.refl _) fun _ => extends_declarations le

theorem extends_wholeExpression {n m : Nat} (le : n ≤ m) :
    Extends (wholeExpression n) (wholeExpression m) :=
  extends_bind (.refl _) fun _ => extends_bind (extends_expression le) fun _ => .refl _

theorem complete_program {items : List Item} {toks : List Token} {stmts : List Stmt}
    (scanned : Item.tokens items = .ok toks) (h : Declarations toks stmts) :
    ∃ c, program (fuelFor items) (start items) = .ok stmts c := by
  obtain ⟨c, step, ahead⟩ := (tokens_rest_eq_ok (c := start items)).mp scanned
  obtain ⟨c', reads, eof⟩ := tokensFrom_eq_ok.mp ahead
  have given : Gives program (start items) stmts c' :=
    gives_bind (gives_of_eq step) (gives_declarations h reads eof)
  exact ⟨c', given.eq_ok extends_program (ends_program items).ne_outOfFuel⟩

theorem complete_wholeExpression {items : List Item} {toks : List Token} {e : Expr}
    (scanned : Item.tokens items = .ok toks) (h : Expression .expression toks e) :
    ∃ c, wholeExpression (fuelFor items) (start items) = .ok e c := by
  obtain ⟨c, step, ahead⟩ := (tokens_rest_eq_ok (c := start items)).mp scanned
  obtain ⟨c', reads, eof⟩ := tokensFrom_eq_ok.mp ahead
  have accepted := accepts_of_expression h reads (by simp [eof, strength])
  have ended : expect .eof c' = .ok () c' := by simp [expect, eof, succeed]
  have given : Gives wholeExpression (start items) e c' :=
    gives_bind (gives_of_eq step)
      (gives_bind accepted (gives_bind (gives_of_eq ended) gives_succeed))
  exact ⟨c', given.eq_ok extends_wholeExpression (ends_wholeExpression items).ne_outOfFuel⟩

end Lox.Parse
