import Lox.Check
import Lox.Proofs.Renaming.Tree

/-!
Which names can be at fault for being reserved.

A reserved word that a check reports is one of the identifiers of what is checked (`blames_stmts`).
-/

namespace Lox.Check

/-- A reserved word that is reported is one, and has the property. -/
def Blames (uses : Name → Prop) (verdict : Except SemanticError Unit) : Prop :=
  ∀ name, verdict = .error (.reservedWord name) → name.isReserved = true ∧ uses name

section

variable {uses declares : Name → Prop}

theorem Blames.ok : Blames uses (.ok ()) := nofun

theorem Blames.error {e : SemanticError} (other : ∀ name, e ≠ .reservedWord name) :
    Blames uses (.error e) := fun name same => absurd (Except.error.inj same) (other name)

theorem Blames.bind {x y : Except SemanticError Unit} (first : Blames uses x)
    (second : Blames uses y) : Blames uses (do x; y) := by
  cases x with
  | ok => exact second
  | error => exact first

theorem Blames.ite {P : Prop} [Decidable P] {x y : Except SemanticError Unit}
    (yes : Blames uses x) (no : Blames uses y) : Blames uses (if P then x else y) := by
  split
  · exact yes
  · exact no

theorem blames_bindingName {name : Name} (h : uses name) : Blames uses (bindingName name) := by
  intro other blamed
  unfold bindingName at blamed
  split at blamed
  · rename_i reserved
    cases blamed
    exact ⟨reserved, h⟩
  · cases blamed

theorem blames_params {ps : List Name} (h : ∀ param ∈ ps, uses param) (seen : List Name) :
    Blames uses (params seen ps) := by
  induction ps generalizing seen with
  | nil => exact .ok
  | cons param rest ih =>
    obtain ⟨first, others⟩ := List.forall_mem_cons.mp h
    exact .bind (blames_bindingName first) (.ite (.error nofun) (ih others _))

theorem blames_this (cls : ClassKind) : Blames uses (this cls) := by
  cases cls <;> first | exact .ok | exact .error nofun

theorem blames_super (cls : ClassKind) : Blames uses (super cls) := by
  cases cls <;> first | exact .ok | exact .error nofun

theorem blames_returned (kind : FunctionKind) (value : Expr) :
    Blames uses (returned kind value) := by
  cases kind <;> cases value <;> first | exact .ok | exact .error nofun

theorem blames_declaration (ps declared : List Name) (name : Option Name) :
    Blames uses (declaration ps declared name) := by
  cases name with
  | none => exact .ok
  | some name => exact .ite (.error nofun) (.ite (.error nofun) .ok)

mutual

/-- An expression binds nothing, so no reserved word is reported. -/
theorem blames_expr (cls : ClassKind) : ∀ e : Expr, Blames uses (expr cls e)
  | .nil | .number _ | .bool _ | .string _ | .var _ => .ok
  | .unary _ e => blames_expr cls e
  | .group e => blames_expr cls e
  | .assign _ e => blames_expr cls e
  | .get e _ => blames_expr cls e
  | .binary _ e e' => .bind (blames_expr cls e) (blames_expr cls e')
  | .logic _ e e' => .bind (blames_expr cls e) (blames_expr cls e')
  | .set e _ e' => .bind (blames_expr cls e) (blames_expr cls e')
  | .call e args => .bind (blames_expr cls e) (blames_exprs cls args)
  | .this => blames_this cls
  | .super _ => blames_super cls

theorem blames_exprs (cls : ClassKind) : ∀ es : List Expr, Blames uses (exprs cls es)
  | [] => .ok
  | e :: rest => .bind (blames_expr cls e) (blames_exprs cls rest)

end

theorem blames_expr? (cls : ClassKind) (e : Option Expr) : Blames uses (expr? cls e) := by
  cases e with
  | none => exact .ok
  | some e => exact blames_expr cls e

mutual

theorem blames_stmt (place : Place) : ∀ {s : Stmt}, s.Over uses declares →
    Blames uses (stmt place s)
  | .nop, _ => .ok
  | .expr e, _ | .print e, _ => blames_expr place.cls e
  | .varDecl _ e, ⟨name, _⟩ => .bind (blames_bindingName name) (blames_expr place.cls e)
  | .funDecl _, h => blames_function place.cls .function h
  | .classDecl _, h => blames_classDecl h
  | .block _, h => blames_block place [] [] h
  | .ite e _ _, ⟨_, yes, no⟩ =>
    .bind (blames_expr place.cls e) (.bind (blames_stmt place yes) (blames_stmt place no))
  | .while e _, ⟨_, body⟩ => .bind (blames_expr place.cls e) (blames_stmt place body)
  | .for _ cond incr _, ⟨init, _, _, body⟩ =>
    .bind (blames_stmt? place init) (.bind (blames_expr? place.cls cond)
      (.bind (blames_expr? place.cls incr) (blames_stmt place body)))
  | .return e, _ => .bind (blames_returned place.function e) (blames_expr place.cls e)

theorem blames_stmt? (place : Place) : ∀ {s : Option Stmt}, Stmt.Over? uses declares s →
    Blames uses (stmt? place s)
  | none, _ => .ok
  | some _, h => blames_stmt place h

theorem blames_block (place : Place) (ps declared : List Name) : ∀ {body : List Stmt},
    Stmt.OverAll uses declares body → Blames uses (block place ps declared body)
  | [], _ => .ok
  | _ :: _, ⟨first, rest⟩ =>
    .bind (blames_declaration _ _ _)
      (.bind (blames_stmt place first) (blames_block place ps _ rest))

theorem blames_function (cls : ClassKind) (kind : FunctionKind) : ∀ {decl : FunctionDecl},
    decl.Over uses declares → Blames uses (function cls kind decl)
  | ⟨_, ps, _⟩, ⟨⟨name, _⟩, params, body⟩ =>
    .bind (blames_bindingName name) (.bind (blames_params params [])
      (blames_block ⟨kind, cls⟩ ps [] body))

theorem blames_methods (cls : ClassKind) : ∀ {ms : List FunctionDecl},
    FunctionDecl.OverAll uses declares ms → Blames uses (methods cls ms)
  | [], _ => .ok
  | _ :: _, ⟨first, rest⟩ => .bind (blames_function cls _ first) (blames_methods cls rest)

theorem blames_classDecl : ∀ {decl : ClassDecl}, decl.Over uses declares →
    Blames uses (classDecl decl)
  | ⟨_, _, _⟩, ⟨⟨name, _⟩, _, methods⟩ =>
    .bind (blames_bindingName name) (.ite (.error nofun) (blames_methods _ methods))

end

/-- A reserved word reported in a program is one of its identifiers. -/
theorem blames_stmts : ∀ {tree : List Stmt}, Stmt.OverAll uses declares tree →
    Blames uses (stmts tree)
  | [], _ => .ok
  | _ :: _, ⟨first, rest⟩ => .bind (blames_stmt .topLevel first) (blames_stmts rest)

end

end Lox.Check
