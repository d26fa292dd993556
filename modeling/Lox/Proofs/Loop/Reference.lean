import Lox.Proofs.Eval.Blank
import Lox.Proofs.Eval.Ends

/-!
What a loop means, said of the loop itself.

The initialiser runs once, in a frame for the loop. Before each round the condition is evaluated in
the scope of the loop; the body runs in a new frame inside it, and after the body the increment is
evaluated in the scope of the loop again. What the loop is replaced by runs the increment in the
frame of the round, behind the body. The two come to the same if the body binds no name in the frame
it runs in, since that frame then stays without names. The main statement is `ends_ofFor_iff`.
-/

namespace Lox

open Run

/-- A result that does not let the statements behind it run: an error, or a `return`. -/
def Run.Stops (r : Outcome RuntimeError Store Flow) : Prop := ∀ s, r ≠ .ok .normal s

/-! ### The meaning of a loop -/

/-- A loop without its initialiser, in the scope it runs in. -/
structure Loop where
  host : Host
  scope : Scope
  cond : Option Expr
  incr : Option Expr
  body : Stmt

namespace Loop

/-- The condition ends with the result. Without a condition, it holds. -/
def Tests (l : Loop) (s : Store) (r : Outcome RuntimeError Store Value) : Prop :=
  match l.cond with
  | some e => Ends (evalExpr l.host · l.scope e) s r
  | none => r = .ok (.bool true) s

/-- The increment, if there is one, ends with the result in the scope of the loop. -/
def Increments (l : Loop) (s : Store) (r : Outcome RuntimeError Store Flow) : Prop :=
  match l.incr with
  | some e => Ends (exec l.host · l.scope (.expr e)) s r
  | none => r = .ok .normal s

/-- `l.Round s round r`: from `s` the body runs in the new scope `round`, and then, unless the body
stops the loop, the increment is evaluated. -/
inductive Round (l : Loop) : Store → Scope → Outcome RuntimeError Store Flow → Prop where
  | stops {s round s₁ r} : s.push l.scope [] = (round, s₁) →
      Ends (exec l.host · round l.body) s₁ r → Stops r → Round l s round r
  | completes {s round s₁ s₂ r} : s.push l.scope [] = (round, s₁) →
      Ends (exec l.host · round l.body) s₁ (.ok .normal s₂) → l.Increments s₂ r →
      Round l s round r

/-- `l.Iterates s rounds r`: from `s` the loop goes through the rounds and ends with the result. -/
inductive Iterates (l : Loop) : Store → List Scope → Outcome RuntimeError Store Flow → Prop where
  | testFails {s e s'} : l.Tests s (.error e s') → Iterates l s [] (.error e s')
  | done {s c s'} : l.Tests s (.ok c s') → c.isTruthy = false → Iterates l s [] (.ok .normal s')
  | stops {s c s₁ round r} : l.Tests s (.ok c s₁) → c.isTruthy = true → l.Round s₁ round r →
      Stops r → Iterates l s [round] r
  | again {s c s₁ round s₂ rounds r} : l.Tests s (.ok c s₁) → c.isTruthy = true →
      l.Round s₁ round (.ok .normal s₂) → Iterates l s₂ rounds r →
      Iterates l s (round :: rounds) r

/-- The loop with its initialiser: with one, it runs in a new frame of its own. -/
inductive Runs (host : Host) (scope : Scope) (cond incr : Option Expr) (body : Stmt) :
    Option Stmt → Store → Loop → List Scope → Outcome RuntimeError Store Flow → Prop where
  | bare {s rounds r} : Iterates ⟨host, scope, cond, incr, body⟩ s rounds r →
      Runs host scope cond incr body none s ⟨host, scope, cond, incr, body⟩ rounds r
  | initStops {first s inner s₁ r} : s.push scope [] = (inner, s₁) →
      Ends (exec host · inner first) s₁ r → Stops r →
      Runs host scope cond incr body (some first) s ⟨host, inner, cond, incr, body⟩ [] r
  | starts {first s inner s₁ s₂ rounds r} : s.push scope [] = (inner, s₁) →
      Ends (exec host · inner first) s₁ (.ok .normal s₂) →
      Iterates ⟨host, inner, cond, incr, body⟩ s₂ rounds r →
      Runs host scope cond incr body (some first) s ⟨host, inner, cond, incr, body⟩ rounds r

end Loop

/-! ### What comes next -/

/-- Go on after normal completion, and pass a `return` on. -/
def Run.whenNormal (y : Run Flow) : Flow → Run Flow
  | .normal => y
  | .return v => succeed (.return v)

/-- After normal completion of the first computation, the second. -/
def Run.onwards (x y : Run Flow) : Run Flow := x >>= whenNormal y

theorem Run.grows_whenNormal {y : Nat → Run Flow} (second : Grows y) (flow : Flow) :
    Grows fun n => whenNormal (y n) flow := by
  cases flow with
  | normal => exact second
  | «return» v => exact grows_const _

theorem Run.grows_onwards {x y : Nat → Run Flow} (first : Grows x) (second : Grows y) :
    Grows fun n => onwards (x n) (y n) :=
  grows_bind first (grows_whenNormal second)

/-- The whole ends as the first computation does, if that stops, and otherwise as the second. -/
theorem Run.ends_onwards {x y : Nat → Run Flow} (first : Grows x) (second : Grows y) {s : Store}
    {r : Outcome RuntimeError Store Flow} :
    Ends (fun n => onwards (x n) (y n)) s r ↔
      (Ends x s r ∧ Stops r) ∨ ∃ s', Ends x s (.ok .normal s') ∧ Ends y s' r := by
  refine Iff.trans (ends_bind first (grows_whenNormal second)) ?_
  constructor
  · rintro (⟨e, s', ends, rfl⟩ | ⟨_ | v, s', ends, rest⟩)
    · exact .inl ⟨ends, nofun⟩
    · exact .inr ⟨s', ends, rest⟩
    · obtain rfl := (ends_succeed (Flow.return v)).mp rest
      exact .inl ⟨ends, nofun⟩
  · rintro (⟨ends, stops⟩ | ⟨s', ends, rest⟩)
    · rcases r with ⟨_ | v, s'⟩ | ⟨e, s'⟩ | _
      · exact absurd rfl (stops s')
      · exact .inr ⟨.return v, s', ends, (ends_succeed (Flow.return v)).mpr rfl⟩
      · exact .inl ⟨e, s', ends, rfl⟩
      · exact absurd rfl ends.1
    · exact .inr ⟨.normal, s', ends, rest⟩

section

variable {host : Host} {scope : Scope} {s : Store} {r : Outcome RuntimeError Store Flow}

theorem statements_singleton (exec : Stmt → Run Flow) (stmt : Stmt) :
    statements exec [stmt] = exec stmt := by
  funext s
  change andThen (exec stmt) _ s = exec stmt s
  unfold andThen
  cases exec stmt s with
  | ok flow s' => cases flow <;> rfl
  | error e s' => rfl
  | outOfFuel => rfl

theorem ends_statements_cons (first : Stmt) (rest : List Stmt) :
    Ends (fun n => statements (exec host n scope) (first :: rest)) s r ↔
      (Ends (exec host · scope first) s r ∧ Stops r) ∨
        ∃ s', Ends (exec host · scope first) s (.ok .normal s') ∧
          Ends (fun n => statements (exec host n scope) rest) s' r :=
  ends_onwards (grows_exec host scope first) (grows_statements host scope rest)

/-- A block runs its statements in a new frame. -/
theorem ends_block (body : List Stmt) :
    Ends (exec host · scope (.block body)) s r ↔
      ∃ inner s₁, s.push scope [] = (inner, s₁) ∧
        Ends (fun n => statements (exec host n inner) body) s₁ r := by
  rw [← (grows_exec host scope _).ends_succ]
  constructor
  · intro ends
    exact ⟨_, _, rfl, ends⟩
  · rintro ⟨inner, s₁, same, ends⟩
    cases same
    exact ends

end

/-! ### The replacement of a loop -/

namespace Loop

variable {l : Loop} {s : Store}

/-- The statement that the loop is replaced by. -/
def stmt (l : Loop) : Stmt := .ofFor none l.cond l.incr l.body

/-- The body of a round, with the increment behind it. -/
def step (l : Loop) : List Stmt :=
  l.body :: match l.incr with
    | some e => [.expr e]
    | none => []

theorem tests_iff {r : Outcome RuntimeError Store Value} :
    Ends (evalExpr l.host · l.scope (l.cond.getD (.bool true))) s r ↔ l.Tests s r := by
  unfold Tests
  cases l.cond with
  | some e => rfl
  | none =>
    rw [← (grows_evalExpr l.host l.scope _).ends_succ]
    exact ends_succeed (Value.bool true)

variable {r : Outcome RuntimeError Store Flow}

/-- Behind the body, the increment is evaluated in the frame of the round. As long as that frame has
no names, this is what its evaluation in the scope of the loop comes to. -/
theorem increments_iff {f : FrameId} (blank : s.Blank f) :
    Ends (fun n => statements (exec l.host n ⟨f, l.scope.chain⟩) l.step.tail) s r ↔
      l.Increments s r := by
  unfold Increments step
  cases l.incr with
  | none => exact ends_succeed Flow.normal
  | some e =>
    have same : ∀ n, exec l.host n ⟨f, l.scope.chain⟩ (.expr e) s =
        exec l.host n l.scope (.expr e) s := fun n => sameOn_exec_expr l.host n e s blank
    simp only [List.tail_cons, statements_singleton, Ends, same]

theorem round_iff (nothing : l.body.boundNames = []) :
    Ends (exec l.host · l.scope (.block l.step)) s r ↔ ∃ round, l.Round s round r := by
  have blank : ∀ {s₂}, Ends (exec l.host · (s.push l.scope []).1 l.body) (s.push l.scope []).2
      (.ok .normal s₂) → s₂.Blank s.frames.size :=
    fun ends => ends.leaves fun n =>
      preserves_blank_exec l.host n _ nothing _ (Store.blank_push s l.scope)
  rw [ends_block]
  constructor
  · rintro ⟨round, s₁, pushed, ends⟩
    rcases (ends_statements_cons l.body l.step.tail).mp ends with
      ⟨ends, stops⟩ | ⟨s₂, ends, after⟩
    · exact ⟨round, .stops pushed ends stops⟩
    · cases pushed
      exact ⟨_, .completes rfl ends ((increments_iff (blank ends)).mp after)⟩
  · rintro ⟨round, ⟨pushed, ends, stops⟩ | ⟨pushed, ends, after⟩⟩
    · exact ⟨_, _, pushed, (ends_statements_cons l.body l.step.tail).mpr (.inl ⟨ends, stops⟩)⟩
    · cases pushed
      exact ⟨_, _, rfl, (ends_statements_cons l.body l.step.tail).mpr
        (.inr ⟨_, ends, (increments_iff (blank ends)).mpr after⟩)⟩

/-! ### Repetition -/

/-- At most so many rounds. -/
def repeats (l : Loop) (rounds n : Nat) : Run Flow :=
  loop (evalExpr l.host n l.scope (l.cond.getD (.bool true)))
    (exec l.host n l.scope (.block l.step)) rounds

theorem grows_repeats (l : Loop) (rounds : Nat) : Grows (l.repeats rounds) :=
  fun n m le => extends_loop (Nat.le_refl rounds) (grows_evalExpr _ _ _ n m le)
    (grows_exec _ _ _ n m le)

theorem ends_stmt_iff :
    Ends (exec l.host · l.scope l.stmt) s r ↔ ∃ rounds, Ends (l.repeats rounds) s r := by
  rw [← (grows_exec l.host l.scope l.stmt).ends_succ]
  constructor
  · rintro ⟨ends, n, result⟩
    exact ⟨n, ends, n, result⟩
  · rintro ⟨rounds, ends, n, rfl⟩
    refine ⟨ends, max rounds n, ?_⟩
    have le := Nat.le_max_right rounds n
    exact extends_loop (Nat.le_max_left rounds n) (grows_evalExpr _ _ _ n _ le)
      (grows_exec _ _ _ n _ le) s ends

/-- What follows the test: a round and the rest of the repetition, or the end of the loop. -/
def afterTest (l : Loop) (rounds n : Nat) (c : Value) : Run Flow :=
  if c.isTruthy then onwards (exec l.host n l.scope (.block l.step)) (l.repeats rounds n)
  else succeed .normal

theorem grows_afterTest (l : Loop) (rounds : Nat) (c : Value) :
    Grows fun n => l.afterTest rounds n c :=
  fun n m le => extends_ite
    (grows_onwards (grows_exec l.host l.scope _) (l.grows_repeats rounds) n m le) (.refl _)

theorem ends_afterTest (nothing : l.body.boundNames = []) {rounds : Nat} {c : Value} :
    Ends (fun n => l.afterTest rounds n c) s r ↔
      c.isTruthy = false ∧ r = .ok .normal s ∨
        c.isTruthy = true ∧ ∃ round, l.Round s round r ∧ Stops r ∨
          ∃ s₁, l.Round s round (.ok .normal s₁) ∧ Ends (l.repeats rounds) s₁ r := by
  cases truthy : c.isTruthy with
  | false =>
    simp only [afterTest, truthy]
    simpa using ends_succeed Flow.normal
  | true =>
    have round := grows_exec l.host l.scope (.block l.step)
    simp only [afterTest, truthy, if_true, ends_onwards round (l.grows_repeats rounds),
      round_iff nothing]
    grind

/-- A test and what follows it. -/
theorem ends_repeats_succ (nothing : l.body.boundNames = []) {rounds : Nat} :
    Ends (l.repeats (rounds + 1)) s r ↔
      (∃ e s', l.Tests s (.error e s') ∧ r = .error e s') ∨
        ∃ c s₁, l.Tests s (.ok c s₁) ∧
          (c.isTruthy = false ∧ r = .ok .normal s₁ ∨
            c.isTruthy = true ∧ ∃ round, l.Round s₁ round r ∧ Stops r ∨
              ∃ s₂, l.Round s₁ round (.ok .normal s₂) ∧ Ends (l.repeats rounds) s₂ r) := by
  have test := grows_evalExpr l.host l.scope (l.cond.getD (.bool true))
  refine Iff.trans (ends_bind test (l.grows_afterTest rounds)) ?_
  simp only [tests_iff, ends_afterTest nothing]

/-- The repetition goes through the rounds of the loop. -/
theorem ends_stmt_iff_iterates (nothing : l.body.boundNames = []) :
    Ends (exec l.host · l.scope l.stmt) s r ↔ ∃ rounds, l.Iterates s rounds r := by
  rw [ends_stmt_iff]
  constructor
  · rintro ⟨count, ends⟩
    induction count generalizing s with
    | zero =>
      obtain ⟨ends, n, result⟩ := ends
      exact absurd result.symm ends
    | succ count ih =>
      rcases (ends_repeats_succ nothing).mp ends with
        ⟨e, s', test, rfl⟩ | ⟨c, s₁, test, ⟨falsy, rfl⟩ | ⟨truthy, round, ran⟩⟩
      · exact ⟨[], .testFails test⟩
      · exact ⟨[], .done test falsy⟩
      · rcases ran with ⟨ran, stops⟩ | ⟨s₂, ran, rest⟩
        · exact ⟨[round], .stops test truthy ran stops⟩
        · obtain ⟨rounds, rest⟩ := ih rest
          exact ⟨round :: rounds, .again test truthy ran rest⟩
  · rintro ⟨rounds, iterates⟩
    induction iterates with
    | testFails test => exact ⟨1, (ends_repeats_succ nothing).mpr (.inl ⟨_, _, test, rfl⟩)⟩
    | done test falsy =>
      exact ⟨1, (ends_repeats_succ nothing).mpr (.inr ⟨_, _, test, .inl ⟨falsy, rfl⟩⟩)⟩
    | stops test truthy ran stops =>
      exact ⟨1, (ends_repeats_succ nothing).mpr
        (.inr ⟨_, _, test, .inr ⟨truthy, _, .inl ⟨ran, stops⟩⟩⟩)⟩
    | again test truthy ran _ ih =>
      obtain ⟨count, rest⟩ := ih
      exact ⟨count + 1, (ends_repeats_succ nothing).mpr
        (.inr ⟨_, _, test, .inr ⟨truthy, _, .inr ⟨_, ran, rest⟩⟩⟩)⟩

end Loop

/-- What a loop is replaced by ends as the loop does. -/
theorem ends_ofFor_iff {host : Host} {scope : Scope} {init : Option Stmt} {cond incr : Option Expr}
    {body : Stmt} (nothing : body.boundNames = []) {s : Store}
    {r : Outcome RuntimeError Store Flow} :
    Ends (exec host · scope (.ofFor init cond incr body)) s r ↔
      ∃ l rounds, Loop.Runs host scope cond incr body init s l rounds r := by
  have iterates : ∀ inner s' r, Ends (exec host · inner (.ofFor none cond incr body)) s' r ↔
      ∃ rounds, Loop.Iterates ⟨host, inner, cond, incr, body⟩ s' rounds r :=
    fun inner s' r => Loop.ends_stmt_iff_iterates (l := ⟨host, inner, cond, incr, body⟩) nothing
  cases init with
  | none =>
    rw [iterates]
    constructor
    · rintro ⟨rounds, h⟩
      exact ⟨_, rounds, .bare h⟩
    · rintro ⟨l, rounds, ⟨h⟩⟩
      exact ⟨rounds, h⟩
  | some first =>
    have block : Stmt.ofFor (some first) cond incr body =
        .block [first, .ofFor none cond incr body] := rfl
    rw [block, ends_block]
    simp only [ends_statements_cons first, statements_singleton, iterates]
    constructor
    · rintro ⟨inner, s₁, pushed, ⟨ends, stops⟩ | ⟨s₂, ends, rounds, h⟩⟩
      · exact ⟨_, [], .initStops pushed ends stops⟩
      · exact ⟨_, rounds, .starts pushed ends h⟩
    · rintro ⟨l, rounds, _ | ⟨pushed, ends, stops⟩ | ⟨pushed, ends, h⟩⟩
      · exact ⟨_, _, pushed, .inl ⟨ends, stops⟩⟩
      · exact ⟨_, _, pushed, .inr ⟨_, ends, rounds, h⟩⟩

end Lox
