import Lox.Eval

/-!
More fuel does not change how a program runs.

The main statement is `evalGrows`, one induction on the fuel for all the parts of the evaluator. Two
runs of a program that come to an end therefore end in the same way, whatever the fuel of each.
-/

namespace Lox

namespace Run

/-- Wherever the first computation does not run out of fuel, the second does the same. -/
def Extends {α : Type} (x y : Run α) : Prop := ∀ s, x s ≠ .outOfFuel → y s = x s

/-! ### How computations are put together -/

section

variable {α β : Type}

theorem Extends.refl (x : Run α) : Extends x x := fun _ _ => rfl

theorem extends_exhausted (y : Run α) : Extends exhausted y := fun _ h => absurd rfl h

theorem extends_bind {x y : Run α} {f g : α → Run β} (first : Extends x y)
    (next : ∀ a, Extends (f a) (g a)) : Extends (x >>= f) (y >>= g) := by
  intro s h
  change andThen x f s ≠ .outOfFuel at h
  show andThen y g s = andThen x f s
  unfold andThen at h ⊢
  cases result : x s with
  | ok a s' =>
    rw [result] at h
    rw [first s (by simp [result]), result]
    exact next a s' h
  | error e s' => rw [first s (by simp [result]), result]
  | outOfFuel => simp [result] at h

theorem extends_ite {P : Prop} [Decidable P] {x y x' y' : Run α} (yes : Extends x y)
    (no : Extends x' y') : Extends (if P then x else x') (if P then y else y') := by
  split
  · exact yes
  · exact no

end

theorem extends_values {eval eval' : Expr → Run Value} (h : ∀ e, Extends (eval e) (eval' e))
    (es : List Expr) : Extends (values eval es) (values eval' es) := by
  induction es with
  | nil => exact .refl _
  | cons e es ih => exact extends_bind (h e) fun v => extends_bind ih fun vs => .refl _

theorem extends_statements {exec exec' : Stmt → Run Flow}
    (h : ∀ stmt, Extends (exec stmt) (exec' stmt)) (stmts : List Stmt) :
    Extends (statements exec stmts) (statements exec' stmts) := by
  induction stmts with
  | nil => exact .refl _
  | cons stmt stmts ih =>
    apply extends_bind (h stmt)
    intro flow
    cases flow with
    | normal => exact ih
    | «return» v => exact .refl _

theorem extends_loop {cond cond' : Run Value} {body body' : Run Flow} {n m : Nat} (le : n ≤ m)
    (h : Extends cond cond') (h' : Extends body body') :
    Extends (loop cond body n) (loop cond' body' m) := by
  induction n generalizing m with
  | zero => exact extends_exhausted _
  | succ n ih =>
    obtain ⟨m, rfl⟩ : ∃ k, m = k + 1 := ⟨m - 1, by omega⟩
    refine extends_bind h fun c => extends_ite (extends_bind h' fun flow => ?_) (.refl _)
    cases flow with
    | normal => exact ih (Nat.le_of_succ_le_succ le)
    | «return» v => exact .refl _

end Run

open Run

/-- The parts of the evaluator, with less fuel and with more. -/
structure EvalGrows (host : Host) (n m : Nat) : Prop where
  expr : ∀ scope e, Extends (evalExpr host n scope e) (evalExpr host m scope e)
  call : ∀ callee args, Extends (call host n callee args) (call host m callee args)
  closure : ∀ f args, Extends (callClosure host n f args) (callClosure host m f args)
  exec : ∀ scope stmt, Extends (exec host n scope stmt) (exec host m scope stmt)

theorem evalGrows {n m : Nat} (host : Host) (le : n ≤ m) : EvalGrows host n m := by
  induction n generalizing m with
  | zero => constructor <;> intros <;> exact extends_exhausted _
  | succ n ih =>
    obtain ⟨m, rfl⟩ : ∃ k, m = k + 1 := ⟨m - 1, by omega⟩
    have le : n ≤ m := by omega
    have ih := ih le
    constructor
    case expr =>
      intro scope e
      have sub := ih.expr scope
      unfold evalExpr
      cases e with
      | unary op operand => exact extends_bind (sub operand) fun _ => .refl _
      | binary op left right =>
        exact extends_bind (sub left) fun _ => extends_bind (sub right) fun _ => .refl _
      | logic op left right =>
        exact extends_bind (sub left) fun l => extends_ite (.refl _) (sub right)
      | group e => exact sub e
      | assign name value => exact extends_bind (sub value) fun _ => .refl _
      | call callee args =>
        apply extends_bind (sub callee)
        intro c
        exact extends_bind (extends_values sub args) fun vs => ih.call c vs
      | get object name => exact extends_bind (sub object) fun _ => .refl _
      | set object name value =>
        exact extends_bind (sub object) fun _ => extends_bind (sub value) fun _ => .refl _
      | _ => exact .refl _
    case call =>
      intro callee args
      unfold call
      cases callee with
      | function id f => exact extends_bind (.refl _) fun _ => ih.closure f args
      | cls c =>
        apply extends_bind (.refl _)
        intro _
        apply extends_bind (.refl _)
        intro o
        cases c.method? initializerName with
        | none => exact .refl _
        | some init =>
          apply extends_bind (.refl _)
          intro bound
          exact extends_bind (ih.closure bound args) fun _ => .refl _
      | _ => exact .refl _
    case closure =>
      intro f args
      unfold callClosure
      apply extends_bind (.refl _)
      intro frame
      exact extends_bind (extends_statements (ih.exec frame) f.decl.body) fun _ => .refl _
    case exec =>
      intro scope stmt
      have sub := ih.expr scope
      unfold exec
      cases stmt with
      | expr e => exact extends_bind (sub e) fun _ => .refl _
      | print e => exact extends_bind (sub e) fun _ => .refl _
      | varDecl name init => exact extends_bind (sub init) fun _ => .refl _
      | block body =>
        exact extends_bind (.refl _) fun inner => extends_statements (ih.exec inner) body
      | ite cond thenBranch elseBranch =>
        apply extends_bind (sub cond)
        intro c
        exact extends_ite (ih.exec scope thenBranch) (ih.exec scope elseBranch)
      | «while» cond body => exact extends_loop le (sub cond) (ih.exec scope body)
      | «for» init cond incr body => exact ih.exec scope _
      | «return» e => exact extends_bind (sub e) fun _ => .refl _
      | _ => exact .refl _

theorem extends_execProgram {n m : Nat} (host : Host) (le : n ≤ m) (scope : Scope) (last : Value)
    (stmts : List Stmt) :
    Extends (execProgram host n scope last stmts) (execProgram host m scope last stmts) := by
  have grows := evalGrows host le
  induction stmts generalizing last with
  | nil => exact .refl _
  | cons stmt rest ih =>
    cases stmt with
    | expr e => exact extends_bind (grows.expr scope e) fun v => ih v
    | _ =>
      apply extends_bind (grows.exec scope _)
      intro flow
      cases flow with
      | normal => exact ih .nil
      | «return» v => exact .refl _

end Lox
