import Lox.Proofs.Desugar.Simulation

/-!
Replacing loops ahead of time and replacing them when they are reached come to the same.

A loop is replaced either in the whole tree before it runs, with the bodies of functions and
methods, or by the evaluator when it comes to it. The two ways leave closures with different bodies
in the store. `Agree` says that no program tells the difference: whenever one run ends, the other
does, with the same output, the same error or the same completion, and the same names bound to values
that show the same. The main statement is `agree_desugar`.
-/

namespace Lox

open Run

open List (Forall₂)

/-! ### Runs that show the same -/

/-- Values that are alike and show the same. -/
structure Value.SameShown (v v' : Value) : Prop where
  alike : v.Alike v'
  text : v.text = v'.text

/-- Completions of the same kind with values that show the same. -/
inductive Flow.SameShown : Flow → Flow → Prop where
  | normal : SameShown .normal .normal
  | return {v v' : Value} : v.SameShown v' → SameShown (.return v) (.return v')

/-- Stores with the same output, and with the same names bound in every frame to values that show
the same. -/
structure Store.SameShown (s s' : Store) : Prop where
  alike : s.Alike s'
  output : s.output = s'.output
  names : ∀ f, (s.frame f).names = (s'.frame f).names
  texts : ∀ f name, ((s.frame f).get? name).map Value.text = ((s'.frame f).get? name).map Value.text

/-- Two runs that ended in the same way. -/
inductive Outcome.SameShown {α : Type} (Q : α → α → Prop) :
    Outcome RuntimeError Store α → Outcome RuntimeError Store α → Prop where
  | ok {a b s s'} : Q a b → s.SameShown s' → SameShown Q (.ok a s) (.ok b s')
  | error {e s s'} : s.SameShown s' → SameShown Q (.error e s) (.error e s')

/-- From every store, if either computation ends for some fuel, the other ends in the same way for
some fuel. -/
def Agree {α : Type} (Q : α → α → Prop) (x y : Nat → Run α) : Prop :=
  ∀ s n, (x n s ≠ .outOfFuel → ∃ m, Outcome.SameShown Q (x n s) (y m s)) ∧
    (y n s ≠ .outOfFuel → ∃ m, Outcome.SameShown Q (x m s) (y n s))

theorem Value.Alike.sameShown {v v' : Value} (h : v.Alike v') : v.SameShown v' := ⟨h, h.text⟩

theorem Flow.Alike.sameShown {flow flow' : Flow} (h : flow.Alike flow') :
    flow.SameShown flow' := by
  cases h with
  | normal => exact .normal
  | «return» alike => exact .return alike.sameShown

theorem Store.Alike.sameShown {s s' : Store} (h : s.Alike s') : s.SameShown s' := by
  refine ⟨h, h.output, fun f => (h.frame f).names, fun f name => ?_⟩
  rcases rel_cases ((h.frame f).get? name) with ⟨found, found'⟩ | ⟨v, v', found, found', alike⟩
  · rw [found, found']
  · simp only [found, found', Option.map_some, alike.text]

theorem Outcome.Follows.sameShown {α : Type} {Q R : α → α → Prop}
    {r r' : Outcome RuntimeError Store α} (h : r.Follows Q r') (sub : ∀ a b, Q a b → R a b)
    (ends : r ≠ .outOfFuel) : Outcome.SameShown R r r' := by
  cases h with
  | ok related alike => exact .ok (sub _ _ related) alike.sameShown
  | error alike => exact .error alike.sameShown
  | outOfFuel => exact absurd rfl ends

theorem Outcome.Follows.sameShown_symm {α : Type} {Q R : α → α → Prop}
    {r r' : Outcome RuntimeError Store α} (h : r.Follows Q r') (sub : ∀ a b, Q a b → R b a)
    (ends : r ≠ .outOfFuel) : Outcome.SameShown R r' r := by
  cases h with
  | ok related alike => exact .ok (sub _ _ related) alike.symm.sameShown
  | error alike => exact .error alike.symm.sameShown
  | outOfFuel => exact absurd rfl ends

theorem Flow.Alike.symm {flow flow' : Flow} (h : flow.Alike flow') : flow'.Alike flow := by
  cases h with
  | normal => exact .normal
  | «return» alike => exact .return alike.symm

/-! ### Statement lists and programs -/

section

variable {host : Host} {n m : Nat}

theorem sim_run (blind : host.BodyBlind) (le : 2 * n ≤ m) (scope : Scope)
    {stmts stmts' : List Stmt} (h : Forall₂ Stmt.Alike stmts stmts') :
    Sim Flow.Alike (statements (exec host n scope) stmts)
      (statements (exec host m scope) stmts') :=
  sim_statements (fun s s' alike => (simulates blind n).exec m scope s s' le alike) h

/-- Only an expression statement is alike to an expression statement. -/
theorem Stmt.alike_expr_iff {s s' : Stmt} (h : s.Alike s') (e : Expr) :
    s = .expr e ↔ s' = .expr e := by
  have desugar : ∀ stmt : Stmt, stmt = .expr e ↔ stmt.desugar = .expr e := by
    intro stmt
    cases stmt with
    | «for» init cond incr body => cases init <;> simp [Stmt.desugar, Stmt.ofFor]
    | _ => simp [Stmt.desugar]
  cases h with
  | refl => exact Iff.rfl
  | desugared => exact desugar s
  | sugared => exact (desugar s').symm

theorem sim_execProgram (blind : host.BodyBlind) (le : 2 * n ≤ m) (scope : Scope)
    {stmts stmts' : List Stmt} (h : Forall₂ Stmt.Alike stmts stmts') {last last' : Value}
    (same : last.Alike last') :
    Sim Value.Alike (execProgram host n scope last stmts)
      (execProgram host m scope last' stmts') := by
  have simulates := simulates blind n
  induction h generalizing last last' with
  | nil => exact sim_succeed same
  | @cons s s' rest rest' first _ ih =>
    by_cases isExpr : ∃ e, s = .expr e
    · obtain ⟨e, rfl⟩ := isExpr
      obtain rfl := (Stmt.alike_expr_iff first e).mp rfl
      exact sim_bind (simulates.expr m scope e le) fun v v' alike => ih alike
    · have ne : ∀ e, s ≠ .expr e := fun e is => isExpr ⟨e, is⟩
      have ne' : ∀ e, s' ≠ .expr e := fun e is => ne e ((Stmt.alike_expr_iff first e).mpr is)
      rw [execProgram_of_ne_expr host n scope last rest ne,
        execProgram_of_ne_expr host m scope last' rest' ne']
      apply sim_bind (simulates.exec m scope s s' le first)
      intro flow flow' alike
      cases alike with
      | normal => exact ih .nil
      | «return» => exact sim_fail _

/-- A statement list and the list with its loops replaced agree, executed as the body of a function
or as a program. -/
theorem agree_desugar (host : Host) (blind : host.BodyBlind) (scope : Scope)
    (stmts : List Stmt) :
    Agree Flow.SameShown (fun fuel => statements (exec host fuel scope) stmts)
        (fun fuel => statements (exec host fuel scope) (Stmt.desugarAll stmts)) ∧
      ∀ last, Agree Value.SameShown (fun fuel => execProgram host fuel scope last stmts)
        (fun fuel => execProgram host fuel scope last (Stmt.desugarAll stmts)) := by
  have alike := Stmt.alike_desugarAll stmts
  have alike' := Stmt.alikeAll_symm alike
  constructor
  · intro s n
    constructor
    · intro ends
      have follows := sim_run blind (Nat.le_refl (2 * n)) scope alike s s (.refl s)
      exact ⟨2 * n, follows.sameShown (fun _ _ same => same.sameShown) ends⟩
    · intro ends
      have follows := sim_run blind (Nat.le_refl (2 * n)) scope alike' s s (.refl s)
      exact ⟨2 * n, follows.sameShown_symm (fun _ _ same => same.symm.sameShown) ends⟩
  · intro last s n
    constructor
    · intro ends
      have follows :=
        sim_execProgram blind (Nat.le_refl (2 * n)) scope alike (.refl last) s s (.refl s)
      exact ⟨2 * n, follows.sameShown (fun _ _ same => same.sameShown) ends⟩
    · intro ends
      have follows :=
        sim_execProgram blind (Nat.le_refl (2 * n)) scope alike' (.refl last) s s (.refl s)
      exact ⟨2 * n, follows.sameShown_symm (fun _ _ same => same.symm.sameShown) ends⟩

/-- A host whose functions all give back their first argument, or `nil` without one. -/
def Host.first : Host := ⟨fun _ => 0, fun _ args => .ok (args.headD .nil)⟩

theorem Host.bodyBlind_first : Host.first.BodyBlind := by
  intro index args args' alike
  cases alike with
  | nil => exact .inl ⟨_, _, rfl, rfl, .nil⟩
  | cons first _ => exact .inl ⟨_, _, rfl, rfl, first⟩

/-- The loops of a function that prints inside a loop and of the loop that declares it agree with
what they stand for. -/
theorem agree_desugar_nested :
    Host.first.BodyBlind ∧
      Agree Flow.SameShown
        (fun fuel => statements (exec Host.first fuel ⟨1, [0]⟩)
          [.for (some (.varDecl "again" (.bool true))) (some (.var "again"))
            (some (.assign "again" (.bool false)))
            (.block [.funDecl ⟨"f", [], [.for none (some (.bool false)) none (.print .nil)]⟩])])
        (fun fuel => statements (exec Host.first fuel ⟨1, [0]⟩)
          [.block [.varDecl "again" (.bool true),
            .while (.var "again") (.block
              [.block [.funDecl ⟨"f", [], [.while (.bool false) (.block [.print .nil])]⟩],
                .expr (.assign "again" (.bool false))])]]) :=
  ⟨Host.bodyBlind_first, (agree_desugar Host.first Host.bodyBlind_first ⟨1, [0]⟩
    [.for (some (.varDecl "again" (.bool true))) (some (.var "again"))
      (some (.assign "again" (.bool false)))
      (.block [.funDecl ⟨"f", [], [.for none (some (.bool false)) none (.print .nil)]⟩])]).1⟩

end

end Lox
