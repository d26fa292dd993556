import Lox.Proofs.Part
import Mathlib.Logic.Basic

/-!
Which loops are left when the loops of a program have been replaced.

Loops are replaced wherever a statement can stand, with one exception: the initialiser of a loop is
kept as it is. So a loop is left if and only if some loop had one in its initialiser
(`Part.hasLoop_desugar`), and a program without loops is one that a second replacement leaves alone
(`Part.desugar_eq_self`). The main statement is `ofStmts_hasLoop_iff`.
-/

namespace Lox

namespace Part

/-- A part is a `for` loop. -/
def IsLoop : Part → Prop
  | .stmt (.for _ _ _ _) => True
  | _ => False

/-- A loop stands in a part. -/
def HasLoop : Part → Prop := Somewhere IsLoop

/-- A part is a loop with a loop in its initialiser. -/
def StartsWithLoop : Part → Prop
  | .stmt (.for (some first) _ _ _) => HasLoop (.stmt first)
  | _ => False

/-- A loop with a loop in its initialiser stands in a part. -/
def HidesLoop : Part → Prop := Somewhere StartsWithLoop

/-- Replace the loops of a part. -/
def desugar : Part → Part
  | .program stmts => .program (Stmt.desugarAll stmts)
  | .stmt s => .stmt s.desugar
  | .function decl => .function decl.desugar
  | .method decl => .method decl.desugar
  | .cls decl => .cls decl.desugar
  | p => p

variable {p : Part}

theorem hasLoop_iff : p.HasLoop ↔ p.IsLoop ∨ ∃ q ∈ p.parts, q.HasLoop := somewhere_iff

theorem hidesLoop_iff : p.HidesLoop ↔ p.StartsWithLoop ∨ ∃ q ∈ p.parts, q.HidesLoop :=
  somewhere_iff

theorem not_hasLoop_expr (e : Expr) : ¬ (Part.expr e).HasLoop := by
  rintro ⟨r, inside, loop⟩
  obtain ⟨f, rfl⟩ := contains_expr inside
  exact loop

theorem not_hasLoop_binder (name : Name) : ¬ (Part.binder name).HasLoop := by
  rw [hasLoop_iff]
  simp [IsLoop, parts]

theorem StartsWithLoop.isLoop (h : p.StartsWithLoop) : p.IsLoop := by
  unfold StartsWithLoop at h
  split at h
  · trivial
  · exact h.elim

theorem HidesLoop.hasLoop (h : p.HidesLoop) : p.HasLoop := by
  obtain ⟨r, inside, starts⟩ := h
  exact ⟨r, inside, starts.isLoop⟩

/-! ### Replacement, part by part -/

theorem map_stmt_desugarAll (stmts : List Stmt) :
    (Stmt.desugarAll stmts).map stmt = (stmts.map stmt).map desugar := by
  rw [Stmt.desugarAll_eq_map, List.map_map, List.map_map]
  rfl

theorem map_method_desugarAll (decls : List FunctionDecl) :
    (FunctionDecl.desugarAll decls).map method = (decls.map method).map desugar := by
  rw [FunctionDecl.desugarAll_eq_map, List.map_map, List.map_map]
  rfl

theorem parts_desugar_function (decl : FunctionDecl) :
    decl.desugar.parts = decl.parts.map desugar := by
  obtain ⟨name, params, body⟩ := decl
  simp only [FunctionDecl.desugar, FunctionDecl.parts, map_stmt_desugarAll, List.map_cons,
    List.map_append, List.map_map]
  rfl

/-- The parts of what is no loop are replaced one by one. -/
theorem parts_desugar (h : ¬ p.IsLoop) : p.desugar.parts = p.parts.map desugar := by
  cases p with
  | program stmts => exact map_stmt_desugarAll stmts
  | stmt s =>
    cases s with
    | «for» init cond incr body => exact absurd trivial h
    | block body => exact map_stmt_desugarAll body
    | _ => rfl
  | expr e =>
    simp only [desugar, parts, List.map_map]
    rfl
  | function decl => exact parts_desugar_function decl
  | method decl => exact parts_desugar_function decl
  | cls decl =>
    obtain ⟨name, superclass, methods⟩ := decl
    simp only [desugar, ClassDecl.desugar, parts, map_method_desugarAll, List.map_cons,
      List.map_append, List.map_map]
    rfl
  | _ => rfl

theorem isLoop_desugar (h : ¬ p.IsLoop) : ¬ p.desugar.IsLoop := by
  cases p with
  | stmt s =>
    cases s with
    | «for» init cond incr body => exact absurd trivial h
    | _ => exact h
  | _ => exact h

/-- A loop is replaced by something else. -/
theorem desugar_ne_self (h : p.IsLoop) : p.desugar ≠ p := by
  unfold IsLoop at h
  split at h
  · rename_i init cond incr body
    cases init <;> simp [desugar, Stmt.desugar, Stmt.ofFor]
  · exact h.elim

theorem desugarAll_eq_self {body : List Stmt}
    (same : (Stmt.desugarAll body).map stmt = body.map stmt) : Stmt.desugarAll body = body :=
  (List.map_inj_right fun _ _ => stmt.inj).mp same

theorem desugar_eq_of_functionParts {decl : FunctionDecl}
    (same : decl.desugar.parts = decl.parts) : decl.desugar = decl := by
  obtain ⟨name, params, body⟩ := decl
  simp only [FunctionDecl.desugar, FunctionDecl.parts, List.cons_inj_right,
    List.append_cancel_left_eq] at same
  rw [FunctionDecl.desugar, desugarAll_eq_self same]

/-- What is no loop stays the same if the parts in it do. -/
theorem desugar_eq_of_parts (h : ¬ p.IsLoop) (same : p.desugar.parts = p.parts) :
    p.desugar = p := by
  cases p with
  | program body => rw [desugar, desugarAll_eq_self same]
  | stmt s =>
    cases s with
    | «for» init cond incr body => exact absurd trivial h
    | block body => rw [desugar, Stmt.desugar, desugarAll_eq_self same]
    | ite cond thenBranch elseBranch =>
      simp only [desugar, parts, Stmt.desugar, Stmt.parts] at same ⊢
      grind
    | «while» cond body =>
      simp only [desugar, parts, Stmt.desugar, Stmt.parts] at same ⊢
      grind
    | funDecl decl => grind [desugar, parts, Stmt.desugar, Stmt.parts]
    | classDecl decl => grind [desugar, parts, Stmt.desugar, Stmt.parts]
    | _ => rfl
  | function decl => rw [desugar, desugar_eq_of_functionParts same]
  | method decl => rw [desugar, desugar_eq_of_functionParts same]
  | cls decl =>
    obtain ⟨name, superclass, methods⟩ := decl
    simp only [desugar, ClassDecl.desugar, parts, List.cons_inj_right,
      List.append_cancel_left_eq] at same
    rw [desugar, ClassDecl.desugar, (List.map_inj_right fun _ _ => method.inj).mp same]
  | _ => rfl

theorem desugar_eq_self : p.desugar = p ↔ ¬ p.HasLoop := by
  induction p using Part.induction with
  | step p ih =>
    rw [hasLoop_iff]
    by_cases loop : p.IsLoop
    · exact iff_of_false (desugar_ne_self loop) fun none => none (.inl loop)
    · simp only [loop, false_or, not_exists, not_and]
      calc p.desugar = p ↔ p.parts.map desugar = p.parts := by
            rw [← parts_desugar loop]
            exact ⟨congrArg parts, desugar_eq_of_parts loop⟩
        _ ↔ p.parts.map desugar = p.parts.map id := by rw [List.map_id]
        _ ↔ ∀ q ∈ p.parts, q.desugar = q := List.map_inj_left
        _ ↔ ∀ q ∈ p.parts, ¬ q.HasLoop := forall₂_congr ih

/-! ### The loops that are left -/

theorem hasLoop_while {cond : Expr} {body : Stmt} :
    (Part.stmt (.while cond body)).HasLoop ↔ (Part.stmt body).HasLoop := by
  rw [hasLoop_iff]
  simp [IsLoop, parts, Stmt.parts, not_hasLoop_expr]

theorem hasLoop_block {body : List Stmt} :
    (Part.stmt (.block body)).HasLoop ↔ ∃ s ∈ body, (Part.stmt s).HasLoop := by
  rw [hasLoop_iff]
  simp [IsLoop, parts, Stmt.parts]

theorem not_hasLoop_exprStmt (e : Expr) : ¬ (Part.stmt (.expr e)).HasLoop := by
  rw [hasLoop_iff]
  simp [IsLoop, parts, Stmt.parts, not_hasLoop_expr]

theorem hasLoop_ofFor {init : Option Stmt} {cond incr : Option Expr} {body : Stmt} :
    (Part.stmt (.ofFor init cond incr body)).HasLoop ↔
      (∃ first, init = some first ∧ (Part.stmt first).HasLoop) ∨ (Part.stmt body).HasLoop := by
  cases init <;> cases incr <;>
    simp [Stmt.ofFor, hasLoop_block, hasLoop_while, not_hasLoop_exprStmt]

theorem hidesLoop_for {init : Option Stmt} {cond incr : Option Expr} {body : Stmt} :
    (Part.stmt (.for init cond incr body)).HidesLoop ↔
      (∃ first, init = some first ∧ (Part.stmt first).HasLoop) ∨ (Part.stmt body).HidesLoop := by
  have expr : ∀ e, ¬ (Part.expr e).HidesLoop := fun e h => not_hasLoop_expr e h.hasLoop
  rw [hidesLoop_iff]
  cases init with
  | none => cases cond <;> cases incr <;> simp [StartsWithLoop, parts, Stmt.parts, expr]
  | some first =>
    have hidden : (Part.stmt first).HidesLoop → (Part.stmt first).HasLoop := HidesLoop.hasLoop
    cases cond <;> cases incr <;> simp [StartsWithLoop, parts, Stmt.parts, expr] <;> grind

/-- A loop is left if and only if some loop has one in its initialiser. -/
theorem hasLoop_desugar : p.desugar.HasLoop ↔ p.HidesLoop := by
  induction p using Part.induction with
  | step p ih =>
    by_cases loop : p.IsLoop
    · unfold IsLoop at loop
      split at loop
      · rename_i init cond incr body
        have inner : (Part.stmt body.desugar).HasLoop ↔ (Part.stmt body).HidesLoop :=
          ih (.stmt body) (by simp [parts, Stmt.parts])
        rw [desugar, Stmt.desugar, hasLoop_ofFor, hidesLoop_for, inner]
      · exact loop.elim
    · have starts : ¬ p.StartsWithLoop := fun h => loop h.isLoop
      rw [hasLoop_iff, hidesLoop_iff, parts_desugar loop]
      simp only [isLoop_desugar loop, starts, false_or, List.mem_map, exists_exists_and_eq_and]
      exact exists_congr fun q => and_congr_right fun mem => ih q mem

end Part

/-! ### Programs -/

/-- A loop is left in a program if and only if a loop of its statements has one in its initialiser,
and replacing the loops again changes the program just then. -/
theorem ofStmts_hasLoop_iff (stmts : List Stmt) :
    ((Part.program (Program.ofStmts stmts).stmts).HasLoop ↔ (Part.program stmts).HidesLoop) ∧
      (Program.ofStmts (Program.ofStmts stmts).stmts = Program.ofStmts stmts ↔
        ¬ (Part.program stmts).HidesLoop) := by
  have left : (Part.program (Stmt.desugarAll stmts)).HasLoop ↔ (Part.program stmts).HidesLoop :=
    Part.hasLoop_desugar (p := .program stmts)
  refine ⟨left, ?_⟩
  calc Program.ofStmts (Program.ofStmts stmts).stmts = Program.ofStmts stmts
      ↔ (Part.program (Stmt.desugarAll stmts)).desugar = .program (Stmt.desugarAll stmts) := by
        rw [Program.ofStmts, Program.ofStmts, Part.desugar, Program.mk.injEq, Part.program.injEq]
    _ ↔ ¬ (Part.program (Stmt.desugarAll stmts)).HasLoop := Part.desugar_eq_self
    _ ↔ ¬ (Part.program stmts).HidesLoop := not_congr left

/-- The loop `for (for (;;) ;;) ;` leaves the loop in its initialiser, which a second replacement
changes. -/
theorem hasLoop_ofStmts_loopInLoop :
    let stmts := [Stmt.for (some (.for none none none .nop)) none none .nop]
    (Part.program (Program.ofStmts stmts).stmts).HasLoop ∧
      Program.ofStmts (Program.ofStmts stmts).stmts ≠ Program.ofStmts stmts := by
  intro stmts
  have starts : (Part.program stmts).HidesLoop :=
    ⟨_, .inner (List.mem_singleton_self _) .self, _, .self, trivial⟩
  refine ⟨Part.hasLoop_desugar.mpr starts, fun same => ?_⟩
  injection same with same
  simp [stmts, Program.ofStmts, Stmt.desugarAll, Stmt.desugar, Stmt.ofFor] at same

end Lox
