import Mathlib.Data.List.Basic
import Lox.Check
import Lox.Proofs.Renaming.Tree

/-!
The rules of a program do not depend on what identifiers are called.

The check compares the names of parameters and of declarations with each other, and asks whether a
name is a reserved word or that of an initializer. A renaming that keeps names apart and does not
change the answers to these questions leads to the same verdict, about the renamed name
(`Check.stmts_rename`).
-/

namespace Lox

/-- Rename the identifier that a violation concerns; a keyword at fault stays as it is. -/
def SemanticError.rename (r : Name → Name) : SemanticError → SemanticError
  | .reservedWord name => .reservedWord (r name)
  | .duplicateParameter name => .duplicateParameter (r name)
  | .duplicateLocal name => .duplicateLocal (r name)
  | .shadowsParameter name => .shadowsParameter (r name)
  | .inheritFromSelf name => .inheritFromSelf (r name)
  | e => e

/-- A renaming that the rules of programs cannot see. -/
structure RuleBlind (r : Name → Name) : Prop where
  injective : Function.Injective r
  isReserved : ∀ name, (r name).isReserved = name.isReserved
  init : r initializerName = initializerName

theorem Stmt.declaredName?_rename (r : Name → Name) (s : Stmt) :
    (s.rename r).declaredName? = s.declaredName?.map r := by
  cases s with
  | funDecl d => exact congrArg some (d.rename_name r)
  | classDecl d => exact congrArg some (d.rename_name r)
  | _ => rfl

namespace Check

/-- The second verdict is the first, about the renamed name. -/
def SameVerdict (r : Name → Name) (x y : Except SemanticError Unit) : Prop :=
  y = x.mapError (SemanticError.rename r)

section

variable {r : Name → Name} {x y : Except SemanticError Unit}

theorem SameVerdict.ok : SameVerdict r (.ok ()) (.ok ()) := rfl

theorem SameVerdict.error {e e' : SemanticError} (h : e.rename r = e') :
    SameVerdict r (.error e) (.error e') := congrArg Except.error h.symm

theorem SameVerdict.bind {x' y' : Except SemanticError Unit} (first : SameVerdict r x y)
    (next : SameVerdict r x' y') : SameVerdict r (x >>= fun _ => x') (y >>= fun _ => y') := by
  subst first
  cases x with
  | ok => exact next
  | error e => rfl

theorem SameVerdict.ite {P Q : Prop} [Decidable P] [Decidable Q] {x' y' : Except SemanticError Unit}
    (iff : Q ↔ P) (yes : SameVerdict r x y) (no : SameVerdict r x' y') :
    SameVerdict r (if P then x else x') (if Q then y else y') := by
  by_cases holds : P
  · rw [if_pos holds, if_pos (iff.mpr holds)]
    exact yes
  · rw [if_neg holds, if_neg (mt iff.mp holds)]
    exact no

end

section

variable {r : Name → Name}

/-! ### Names -/

theorem sameVerdict_this (cls : ClassKind) : SameVerdict r (this cls) (this cls) := by
  cases cls <;> rfl

theorem sameVerdict_super (cls : ClassKind) : SameVerdict r (super cls) (super cls) := by
  cases cls <;> rfl

theorem sameVerdict_returned (kind : FunctionKind) (value : Expr) :
    SameVerdict r (returned kind value) (returned kind (value.rename r)) := by
  cases kind <;> cases value <;> rfl

variable (blind : RuleBlind r)

include blind

theorem sameVerdict_bindingName (name : Name) :
    SameVerdict r (bindingName name) (bindingName (r name)) := by
  refine .ite ?_ (.error rfl) .ok
  rw [blind.isReserved]

theorem sameVerdict_params (seen ps : List Name) :
    SameVerdict r (params seen ps) (params (seen.map r) (ps.map r)) := by
  induction ps generalizing seen with
  | nil => exact .ok
  | cons param rest ih =>
    refine .bind (sameVerdict_bindingName blind param) ?_
    refine .ite (List.mem_map_of_injective blind.injective) (.error rfl) ?_
    exact ih (param :: seen)

theorem sameVerdict_declaration (ps declared : List Name) (name : Option Name) :
    SameVerdict r (declaration ps declared name)
      (declaration (ps.map r) (declared.map r) (name.map r)) := by
  cases name with
  | none => exact .ok
  | some name =>
    refine .ite (List.mem_map_of_injective blind.injective) (.error rfl) ?_
    exact .ite (List.mem_map_of_injective blind.injective) (.error rfl) .ok

omit blind in
theorem ofSuperclass_map (superclass : Option Name) :
    ClassKind.ofSuperclass (superclass.map r) = .ofSuperclass superclass := by
  cases superclass <;> rfl

theorem ofMethod_rename (name : Name) : FunctionKind.ofMethod (r name) = .ofMethod name := by
  have same : r name = initializerName ↔ name = initializerName := by
    rw [← blind.injective.eq_iff (a := name), blind.init]
  simp only [FunctionKind.ofMethod, same]

end

/-! ### Trees -/

section

variable {r : Name → Name}

mutual

theorem sameVerdict_expr (cls : ClassKind) : ∀ e : Expr,
    SameVerdict r (expr cls e) (expr cls (e.rename r))
  | .nil | .number _ | .bool _ | .string _ | .var _ => .ok
  | .unary _ e => sameVerdict_expr cls e
  | .group e => sameVerdict_expr cls e
  | .assign _ e => sameVerdict_expr cls e
  | .get e _ => sameVerdict_expr cls e
  | .binary _ e e' => .bind (sameVerdict_expr cls e) (sameVerdict_expr cls e')
  | .logic _ e e' => .bind (sameVerdict_expr cls e) (sameVerdict_expr cls e')
  | .set e _ e' => .bind (sameVerdict_expr cls e) (sameVerdict_expr cls e')
  | .call e args => .bind (sameVerdict_expr cls e) (sameVerdict_exprs cls args)
  | .this => sameVerdict_this cls
  | .super _ => sameVerdict_super cls

theorem sameVerdict_exprs (cls : ClassKind) : ∀ es : List Expr,
    SameVerdict r (exprs cls es) (exprs cls (Expr.renameAll r es))
  | [] => .ok
  | e :: rest => .bind (sameVerdict_expr cls e) (sameVerdict_exprs cls rest)

end

theorem sameVerdict_expr? (cls : ClassKind) (e : Option Expr) :
    SameVerdict r (expr? cls e) (expr? cls (e.map (Expr.rename r))) := by
  cases e with
  | none => exact .ok
  | some e => exact sameVerdict_expr cls e

mutual

theorem sameVerdict_stmt (blind : RuleBlind r) (place : Place) : ∀ s : Stmt,
    SameVerdict r (stmt place s) (stmt place (s.rename r))
  | .nop => .ok
  | .expr e => sameVerdict_expr place.cls e
  | .print e => sameVerdict_expr place.cls e
  | .varDecl name init =>
    .bind (sameVerdict_bindingName blind name) (sameVerdict_expr place.cls init)
  | .funDecl decl => sameVerdict_function blind place.cls .function decl
  | .classDecl decl => sameVerdict_classDecl blind decl
  | .block body => sameVerdict_block blind place [] [] body
  | .ite cond yes no =>
    .bind (sameVerdict_expr place.cls cond)
      (.bind (sameVerdict_stmt blind place yes) (sameVerdict_stmt blind place no))
  | .while cond body => .bind (sameVerdict_expr place.cls cond) (sameVerdict_stmt blind place body)
  | .for init cond incr body =>
    .bind (sameVerdict_stmt? blind place init) (.bind (sameVerdict_expr? place.cls cond)
      (.bind (sameVerdict_expr? place.cls incr) (sameVerdict_stmt blind place body)))
  | .return value =>
    .bind (sameVerdict_returned place.function value) (sameVerdict_expr place.cls value)

theorem sameVerdict_stmt? (blind : RuleBlind r) (place : Place) : ∀ s : Option Stmt,
    SameVerdict r (stmt? place s) (stmt? place (Stmt.rename? r s))
  | none => .ok
  | some s => sameVerdict_stmt blind place s

theorem sameVerdict_block (blind : RuleBlind r) (place : Place) (ps declared : List Name) :
    ∀ body : List Stmt, SameVerdict r (block place ps declared body)
      (block place (ps.map r) (declared.map r) (Stmt.renameAll r body))
  | [] => .ok
  | s :: rest => by
    have name := sameVerdict_declaration blind ps declared s.declaredName?
    have behind := sameVerdict_block blind place ps (s.declaredName?.toList ++ declared) rest
    have names : (s.declaredName?.toList ++ declared).map r =
        (s.declaredName?.map r).toList ++ declared.map r := by
      rw [List.map_append]
      cases s.declaredName? <;> rfl
    rw [names] at behind
    rw [← Stmt.declaredName?_rename] at name behind
    exact .bind name (.bind (sameVerdict_stmt blind place s) behind)

theorem sameVerdict_function (blind : RuleBlind r) (cls : ClassKind) (kind : FunctionKind) :
    ∀ decl : FunctionDecl,
      SameVerdict r (function cls kind decl) (function cls kind (decl.rename r))
  | ⟨name, ps, body⟩ =>
    .bind (sameVerdict_bindingName blind name)
      (.bind (sameVerdict_params blind [] ps) (sameVerdict_block blind ⟨kind, cls⟩ ps [] body))

theorem sameVerdict_methods (blind : RuleBlind r) (cls : ClassKind) :
    ∀ decls : List FunctionDecl,
      SameVerdict r (methods cls decls) (methods cls (FunctionDecl.renameAll r decls))
  | [] => .ok
  | decl :: rest => by
    have kind : FunctionKind.ofMethod (decl.rename r).name = .ofMethod decl.name := by
      rw [decl.rename_name, ofMethod_rename blind]
    have first := sameVerdict_function blind cls (.ofMethod decl.name) decl
    have renamed := sameVerdict_methods blind cls rest
    rw [FunctionDecl.renameAll, methods, methods, kind]
    exact .bind first renamed

theorem sameVerdict_classDecl (blind : RuleBlind r) : ∀ decl : ClassDecl,
    SameVerdict r (classDecl decl) (classDecl (decl.rename r))
  | ⟨name, superclass, ms⟩ => by
    have itself : superclass.map r = some (r name) ↔ superclass = some name :=
      (Option.map_injective blind.injective).eq_iff (b := some name)
    have behind := sameVerdict_methods blind (.ofSuperclass superclass) ms
    rw [ClassDecl.rename, classDecl, classDecl, ofSuperclass_map]
    exact .bind (sameVerdict_bindingName blind name) (.ite itself (.error rfl) behind)

end

theorem stmts_rename (blind : RuleBlind r) (tree : List Stmt) :
    stmts (Stmt.renameAll r tree) = (stmts tree).mapError (SemanticError.rename r) := by
  induction tree with
  | nil => rfl
  | cons s rest ih =>
    exact SameVerdict.bind (sameVerdict_stmt blind .topLevel s) ih

end

end Check

end Lox
