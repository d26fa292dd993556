import Lox.Desugar

/-!
Renaming the identifiers of a tree.

`rename r` replaces every identifier by its image under `r`, whatever it names: a variable, a
parameter, a function, a class, a method or a field. It goes together with the replacement of loops
(`Stmt.desugar_rename`). `Over uses declares` says which identifiers a tree has: all of them satisfy
`uses`, and those that it declares as functions, methods or classes satisfy `declares` too. A tree
that a renaming does not change has only identifiers that it keeps (`Stmt.over_of_rename_eq`).
-/

namespace Lox

/-! ### Renaming -/

mutual

/-- Rename the identifiers of an expression. -/
def Expr.rename (r : Name → Name) : Expr → Expr
  | .nil => .nil
  | .number x => .number x
  | .bool b => .bool b
  | .string s => .string s
  | .var name => .var (r name)
  | .unary op operand => .unary op (operand.rename r)
  | .binary op left right => .binary op (left.rename r) (right.rename r)
  | .logic op left right => .logic op (left.rename r) (right.rename r)
  | .group e => .group (e.rename r)
  | .assign name value => .assign (r name) (value.rename r)
  | .call callee args => .call (callee.rename r) (Expr.renameAll r args)
  | .get object name => .get (object.rename r) (r name)
  | .set object name value => .set (object.rename r) (r name) (value.rename r)
  | .this => .this
  | .super method => .super (r method)

/-- Rename the identifiers of several expressions. -/
def Expr.renameAll (r : Name → Name) : List Expr → List Expr
  | [] => []
  | e :: rest => e.rename r :: Expr.renameAll r rest

end

mutual

/-- Rename the identifiers of a statement. -/
def Stmt.rename (r : Name → Name) : Stmt → Stmt
  | .nop => .nop
  | .expr e => .expr (e.rename r)
  | .print e => .print (e.rename r)
  | .varDecl name init => .varDecl (r name) (init.rename r)
  | .funDecl decl => .funDecl (decl.rename r)
  | .classDecl decl => .classDecl (decl.rename r)
  | .block body => .block (Stmt.renameAll r body)
  | .ite cond thenBranch elseBranch =>
    .ite (cond.rename r) (thenBranch.rename r) (elseBranch.rename r)
  | .while cond body => .while (cond.rename r) (body.rename r)
  | .for init cond incr body =>
    .for (Stmt.rename? r init) (cond.map (Expr.rename r)) (incr.map (Expr.rename r))
      (body.rename r)
  | .return value => .return (value.rename r)

/-- Rename the identifiers of a statement that may be absent. -/
def Stmt.rename? (r : Name → Name) : Option Stmt → Option Stmt
  | some stmt => some (stmt.rename r)
  | none => none

/-- Rename the identifiers of several statements. -/
def Stmt.renameAll (r : Name → Name) : List Stmt → List Stmt
  | [] => []
  | stmt :: rest => stmt.rename r :: Stmt.renameAll r rest

/-- Rename a function and the identifiers in it. -/
def FunctionDecl.rename (r : Name → Name) : FunctionDecl → FunctionDecl
  | ⟨name, params, body⟩ => ⟨r name, params.map r, Stmt.renameAll r body⟩

/-- Rename several functions and the identifiers in them. -/
def FunctionDecl.renameAll (r : Name → Name) : List FunctionDecl → List FunctionDecl
  | [] => []
  | decl :: rest => decl.rename r :: FunctionDecl.renameAll r rest

/-- Rename a class, its superclass and its methods. -/
def ClassDecl.rename (r : Name → Name) : ClassDecl → ClassDecl
  | ⟨name, superclass, methods⟩ => ⟨r name, superclass.map r, FunctionDecl.renameAll r methods⟩

end

section

variable (r : Name → Name)

theorem Stmt.rename?_eq_map (init : Option Stmt) :
    Stmt.rename? r init = init.map (Stmt.rename r) := by
  cases init <;> rfl

theorem Stmt.renameAll_eq_map (stmts : List Stmt) :
    Stmt.renameAll r stmts = stmts.map (Stmt.rename r) := by
  induction stmts with
  | nil => rfl
  | cons stmt rest ih => simp only [Stmt.renameAll, ih, List.map_cons]

theorem FunctionDecl.renameAll_eq_map (decls : List FunctionDecl) :
    FunctionDecl.renameAll r decls = decls.map (FunctionDecl.rename r) := by
  induction decls with
  | nil => rfl
  | cons decl rest ih => simp only [FunctionDecl.renameAll, ih, List.map_cons]

@[simp] theorem FunctionDecl.rename_name (d : FunctionDecl) : (d.rename r).name = r d.name := by
  cases d
  rfl

@[simp] theorem FunctionDecl.rename_params (d : FunctionDecl) :
    (d.rename r).params = d.params.map r := by
  cases d
  rfl

@[simp] theorem FunctionDecl.rename_body (d : FunctionDecl) :
    (d.rename r).body = d.body.map (Stmt.rename r) := by
  cases d
  exact Stmt.renameAll_eq_map r _

@[simp] theorem ClassDecl.rename_name (d : ClassDecl) : (d.rename r).name = r d.name := by
  cases d
  rfl

@[simp] theorem ClassDecl.rename_superclass (d : ClassDecl) :
    (d.rename r).superclass = d.superclass.map r := by
  cases d
  rfl

@[simp] theorem ClassDecl.rename_methods (d : ClassDecl) :
    (d.rename r).methods = d.methods.map (FunctionDecl.rename r) := by
  cases d
  exact FunctionDecl.renameAll_eq_map r _

/-! ### The renaming that changes nothing -/

mutual

theorem Expr.rename_id : ∀ e : Expr, e.rename id = e
  | .nil | .number _ | .bool _ | .string _ | .var _ | .this | .super _ => rfl
  | .unary _ e | .group e | .assign _ e | .get e _ => by
    simp only [Expr.rename, Expr.rename_id e, id]
  | .binary _ e e' | .logic _ e e' | .set e _ e' => by
    simp only [Expr.rename, Expr.rename_id e, Expr.rename_id e', id]
  | .call e args => by simp only [Expr.rename, Expr.rename_id e, Expr.renameAll_id args]

theorem Expr.renameAll_id : ∀ es : List Expr, Expr.renameAll id es = es
  | [] => rfl
  | e :: rest => by simp only [Expr.renameAll, Expr.rename_id e, Expr.renameAll_id rest]

end

theorem Expr.map_rename_id (e : Option Expr) : e.map (Expr.rename id) = e := by
  cases e with
  | none => rfl
  | some e => rw [Option.map_some, e.rename_id]

mutual

theorem Stmt.rename_id : ∀ stmt : Stmt, stmt.rename id = stmt
  | .nop => rfl
  | .expr e | .print e | .return e | .varDecl _ e => by simp only [Stmt.rename, e.rename_id, id]
  | .funDecl decl => by simp only [Stmt.rename, FunctionDecl.rename_id decl]
  | .classDecl decl => by simp only [Stmt.rename, ClassDecl.rename_id decl]
  | .block body => by simp only [Stmt.rename, Stmt.renameAll_id body]
  | .ite cond yes no => by
    simp only [Stmt.rename, cond.rename_id, Stmt.rename_id yes, Stmt.rename_id no]
  | .while cond body => by simp only [Stmt.rename, cond.rename_id, Stmt.rename_id body]
  | .for init cond incr body => by
    simp only [Stmt.rename, Stmt.rename?_id init, Expr.map_rename_id, Stmt.rename_id body]

theorem Stmt.rename?_id : ∀ init : Option Stmt, Stmt.rename? id init = init
  | none => rfl
  | some stmt => by simp only [Stmt.rename?, Stmt.rename_id stmt]

theorem Stmt.renameAll_id : ∀ stmts : List Stmt, Stmt.renameAll id stmts = stmts
  | [] => rfl
  | stmt :: rest => by simp only [Stmt.renameAll, Stmt.rename_id stmt, Stmt.renameAll_id rest]

theorem FunctionDecl.rename_id : ∀ decl : FunctionDecl, decl.rename id = decl
  | ⟨_, _, body⟩ => by simp only [FunctionDecl.rename, Stmt.renameAll_id body, List.map_id, id]

theorem FunctionDecl.renameAll_id :
    ∀ decls : List FunctionDecl, FunctionDecl.renameAll id decls = decls
  | [] => rfl
  | decl :: rest => by
    simp only [FunctionDecl.renameAll, FunctionDecl.rename_id decl, FunctionDecl.renameAll_id rest]

theorem ClassDecl.rename_id : ∀ decl : ClassDecl, decl.rename id = decl
  | ⟨_, _, methods⟩ => by
    simp only [ClassDecl.rename, FunctionDecl.renameAll_id methods, Option.map_id, id]

end

/-! ### Loops -/

theorem Stmt.rename_ofFor (init : Option Stmt) (cond incr : Option Expr) (body : Stmt) :
    (Stmt.ofFor init cond incr body).rename r =
      .ofFor (init.map (Stmt.rename r)) (cond.map (Expr.rename r)) (incr.map (Expr.rename r))
        (body.rename r) := by
  cases init <;> cases cond <;> cases incr <;> rfl

mutual

/-- Loops can be replaced before identifiers are renamed or after. -/
theorem Stmt.desugar_rename : ∀ stmt : Stmt, (stmt.rename r).desugar = stmt.desugar.rename r
  | .nop | .expr _ | .print _ | .return _ | .varDecl _ _ => rfl
  | .funDecl decl => congrArg Stmt.funDecl (FunctionDecl.desugar_rename decl)
  | .classDecl decl => congrArg Stmt.classDecl (ClassDecl.desugar_rename decl)
  | .block body => congrArg Stmt.block (Stmt.desugarAll_renameAll body)
  | .ite _ yes no => by
    simp only [Stmt.rename, Stmt.desugar, Stmt.desugar_rename yes, Stmt.desugar_rename no]
  | .while _ body => congrArg (Stmt.while _) (Stmt.desugar_rename body)
  | .for init cond incr body => by
    simp only [Stmt.rename, Stmt.desugar, Stmt.rename_ofFor, Stmt.desugar_rename body,
      Stmt.rename?_eq_map]

theorem Stmt.desugarAll_renameAll : ∀ stmts : List Stmt,
    Stmt.desugarAll (Stmt.renameAll r stmts) = Stmt.renameAll r (Stmt.desugarAll stmts)
  | [] => rfl
  | stmt :: rest => by
    simp only [Stmt.renameAll, Stmt.desugarAll, Stmt.desugar_rename stmt,
      Stmt.desugarAll_renameAll rest]

theorem FunctionDecl.desugar_rename : ∀ decl : FunctionDecl,
    (decl.rename r).desugar = decl.desugar.rename r
  | ⟨_, _, body⟩ => congrArg (FunctionDecl.mk _ _) (Stmt.desugarAll_renameAll body)

theorem FunctionDecl.desugarAll_renameAll : ∀ decls : List FunctionDecl,
    FunctionDecl.desugarAll (FunctionDecl.renameAll r decls) =
      FunctionDecl.renameAll r (FunctionDecl.desugarAll decls)
  | [] => rfl
  | decl :: rest => by
    simp only [FunctionDecl.renameAll, FunctionDecl.desugarAll, FunctionDecl.desugar_rename decl,
      FunctionDecl.desugarAll_renameAll rest]

theorem ClassDecl.desugar_rename : ∀ decl : ClassDecl,
    (decl.rename r).desugar = decl.desugar.rename r
  | ⟨_, _, methods⟩ => congrArg (ClassDecl.mk _ _) (FunctionDecl.desugarAll_renameAll methods)

end

end

/-! ### The identifiers of a tree -/

section

variable (uses declares : Name → Prop)

mutual

/-- Every identifier of an expression satisfies the predicate. -/
def Expr.Over : Expr → Prop
  | .nil | .number _ | .bool _ | .string _ | .this => True
  | .var name => uses name
  | .unary _ operand => operand.Over
  | .binary _ left right => left.Over ∧ right.Over
  | .logic _ left right => left.Over ∧ right.Over
  | .group e => e.Over
  | .assign name value => uses name ∧ value.Over
  | .call callee args => callee.Over ∧ Expr.OverAll args
  | .get object name => object.Over ∧ uses name
  | .set object name value => object.Over ∧ uses name ∧ value.Over
  | .super method => uses method

/-- Every identifier of the expressions satisfies the predicate. -/
def Expr.OverAll : List Expr → Prop
  | [] => True
  | e :: rest => e.Over ∧ Expr.OverAll rest

end

/-- Every identifier of an expression that may be absent satisfies the predicate. -/
def Expr.Over? : Option Expr → Prop
  | some e => e.Over uses
  | none => True

mutual

/-- Every identifier of a statement satisfies `uses`; the name of each function, method or class
that is declared in it satisfies `declares` too. -/
def Stmt.Over : Stmt → Prop
  | .nop => True
  | .expr e => e.Over uses
  | .print e => e.Over uses
  | .varDecl name init => uses name ∧ init.Over uses
  | .funDecl decl => decl.Over
  | .classDecl decl => decl.Over
  | .block body => Stmt.OverAll body
  | .ite cond thenBranch elseBranch => cond.Over uses ∧ thenBranch.Over ∧ elseBranch.Over
  | .while cond body => cond.Over uses ∧ body.Over
  | .for init cond incr body =>
    Stmt.Over? init ∧ Expr.Over? uses cond ∧ Expr.Over? uses incr ∧ body.Over
  | .return value => value.Over uses

/-- The identifiers of a statement that may be absent. -/
def Stmt.Over? : Option Stmt → Prop
  | some stmt => stmt.Over
  | none => True

/-- The identifiers of several statements. -/
def Stmt.OverAll : List Stmt → Prop
  | [] => True
  | stmt :: rest => stmt.Over ∧ Stmt.OverAll rest

/-- The identifiers of a function. -/
def FunctionDecl.Over : FunctionDecl → Prop
  | ⟨name, params, body⟩ =>
    (uses name ∧ declares name) ∧ (∀ param ∈ params, uses param) ∧ Stmt.OverAll body

/-- The identifiers of several functions. -/
def FunctionDecl.OverAll : List FunctionDecl → Prop
  | [] => True
  | decl :: rest => decl.Over ∧ FunctionDecl.OverAll rest

/-- The identifiers of a class. -/
def ClassDecl.Over : ClassDecl → Prop
  | ⟨name, superclass, methods⟩ =>
    (uses name ∧ declares name) ∧ (∀ parent ∈ superclass, uses parent) ∧
      FunctionDecl.OverAll methods

end

end

section

variable {uses declares : Name → Prop}

theorem Expr.overAll_iff {es : List Expr} :
    Expr.OverAll uses es ↔ ∀ e ∈ es, e.Over uses := by
  induction es with
  | nil => simp [Expr.OverAll]
  | cons e rest ih => simp [Expr.OverAll, ih]

theorem Stmt.overAll_iff {stmts : List Stmt} :
    Stmt.OverAll uses declares stmts ↔ ∀ stmt ∈ stmts, stmt.Over uses declares := by
  induction stmts with
  | nil => simp [Stmt.OverAll]
  | cons stmt rest ih => simp [Stmt.OverAll, ih]

theorem FunctionDecl.overAll_iff {decls : List FunctionDecl} :
    FunctionDecl.OverAll uses declares decls ↔ ∀ decl ∈ decls, decl.Over uses declares := by
  induction decls with
  | nil => simp [FunctionDecl.OverAll]
  | cons decl rest ih => simp [FunctionDecl.OverAll, ih]

theorem FunctionDecl.over_iff {d : FunctionDecl} :
    d.Over uses declares ↔ (uses d.name ∧ declares d.name) ∧ (∀ param ∈ d.params, uses param) ∧
      ∀ stmt ∈ d.body, stmt.Over uses declares := by
  rw [← Stmt.overAll_iff]
  cases d
  rfl

theorem ClassDecl.over_iff {d : ClassDecl} :
    d.Over uses declares ↔ (uses d.name ∧ declares d.name) ∧
      (∀ parent ∈ d.superclass, uses parent) ∧ ∀ m ∈ d.methods, m.Over uses declares := by
  rw [← FunctionDecl.overAll_iff]
  cases d
  rfl

/-! Replacing loops adds no identifiers. -/

theorem Stmt.over_ofFor {init : Option Stmt} {cond incr : Option Expr} {body : Stmt}
    (first : Stmt.Over? uses declares init) (hcond : Expr.Over? uses cond)
    (hincr : Expr.Over? uses incr) (hbody : body.Over uses declares) :
    (Stmt.ofFor init cond incr body).Over uses declares := by
  have test : (cond.getD (.bool true)).Over uses := by
    cases cond with
    | none => trivial
    | some e => exact hcond
  have loop : ∀ step, Stmt.OverAll uses declares step →
      (Stmt.while (cond.getD (.bool true)) (.block (body :: step))).Over uses declares :=
    fun step covered => ⟨test, hbody, covered⟩
  have whole : ∀ loop : Stmt, loop.Over uses declares →
      (match init with
        | some first => Stmt.block [first, loop]
        | none => loop).Over uses declares := by
    intro loop covered
    cases init with
    | none => exact covered
    | some stmt => exact ⟨first, covered, trivial⟩
  cases incr with
  | none => exact whole _ (loop [] trivial)
  | some e => exact whole _ (loop [.expr e] ⟨hincr, trivial⟩)

mutual

theorem Stmt.Over.desugar : ∀ {stmt : Stmt},
    stmt.Over uses declares → stmt.desugar.Over uses declares
  | .nop, h | .expr _, h | .print _, h | .return _, h | .varDecl _ _, h => h
  | .funDecl _, h => FunctionDecl.Over.desugar h
  | .classDecl _, h => ClassDecl.Over.desugar h
  | .block _, h => Stmt.OverAll.desugar h
  | .ite _ _ _, ⟨cond, yes, no⟩ => ⟨cond, Stmt.Over.desugar yes, Stmt.Over.desugar no⟩
  | .while _ _, ⟨cond, body⟩ => ⟨cond, Stmt.Over.desugar body⟩
  | .for _ _ _ _, ⟨init, cond, incr, body⟩ =>
    Stmt.over_ofFor init cond incr (Stmt.Over.desugar body)

theorem Stmt.OverAll.desugar : ∀ {stmts : List Stmt},
    Stmt.OverAll uses declares stmts → Stmt.OverAll uses declares (Stmt.desugarAll stmts)
  | [], _ => trivial
  | _ :: _, ⟨first, rest⟩ => ⟨Stmt.Over.desugar first, Stmt.OverAll.desugar rest⟩

theorem FunctionDecl.Over.desugar : ∀ {decl : FunctionDecl},
    decl.Over uses declares → decl.desugar.Over uses declares
  | ⟨_, _, _⟩, ⟨name, params, body⟩ => ⟨name, params, Stmt.OverAll.desugar body⟩

theorem FunctionDecl.OverAll.desugar : ∀ {decls : List FunctionDecl},
    FunctionDecl.OverAll uses declares decls →
      FunctionDecl.OverAll uses declares (FunctionDecl.desugarAll decls)
  | [], _ => trivial
  | _ :: _, ⟨first, rest⟩ => ⟨FunctionDecl.Over.desugar first, FunctionDecl.OverAll.desugar rest⟩

theorem ClassDecl.Over.desugar : ∀ {decl : ClassDecl},
    decl.Over uses declares → decl.desugar.Over uses declares
  | ⟨_, _, _⟩, ⟨name, superclass, methods⟩ =>
    ⟨name, superclass, FunctionDecl.OverAll.desugar methods⟩

end

end

/-! ### Trees that a renaming does not change -/

/-- The renaming keeps the identifier. -/
def Fixed (r : Name → Name) (name : Name) : Prop := r name = name

section

variable {r : Name → Name}

mutual

theorem Expr.over_of_rename_eq : ∀ {e : Expr}, e.rename r = e → e.Over (Fixed r)
  | .nil, _ | .number _, _ | .bool _, _ | .string _, _ | .this, _ => trivial
  | .var _, h => Expr.var.inj h
  | .unary _ e, h =>
    have ⟨_, operand⟩ := Expr.unary.inj h
    Expr.over_of_rename_eq (e := e) operand
  | .binary _ _ _, h =>
    have ⟨_, left, right⟩ := Expr.binary.inj h
    ⟨Expr.over_of_rename_eq left, Expr.over_of_rename_eq right⟩
  | .logic _ _ _, h =>
    have ⟨_, left, right⟩ := Expr.logic.inj h
    ⟨Expr.over_of_rename_eq left, Expr.over_of_rename_eq right⟩
  | .group e, h =>
    have inner := Expr.group.inj h
    Expr.over_of_rename_eq (e := e) inner
  | .assign _ _, h =>
    have ⟨name, value⟩ := Expr.assign.inj h
    ⟨name, Expr.over_of_rename_eq value⟩
  | .call _ _, h =>
    have ⟨callee, args⟩ := Expr.call.inj h
    ⟨Expr.over_of_rename_eq callee, Expr.overAll_of_renameAll_eq args⟩
  | .get _ _, h =>
    have ⟨object, name⟩ := Expr.get.inj h
    ⟨Expr.over_of_rename_eq object, name⟩
  | .set _ _ _, h =>
    have ⟨object, name, value⟩ := Expr.set.inj h
    ⟨Expr.over_of_rename_eq object, name, Expr.over_of_rename_eq value⟩
  | .super _, h => Expr.super.inj h

theorem Expr.overAll_of_renameAll_eq : ∀ {es : List Expr},
    Expr.renameAll r es = es → Expr.OverAll (Fixed r) es
  | [], _ => trivial
  | _ :: _, h =>
    have ⟨first, rest⟩ := List.cons.inj h
    ⟨Expr.over_of_rename_eq first, Expr.overAll_of_renameAll_eq rest⟩

end

theorem Expr.over?_of_map_eq {e : Option Expr} (h : e.map (Expr.rename r) = e) :
    Expr.Over? (Fixed r) e := by
  cases e with
  | none => trivial
  | some e => exact Expr.over_of_rename_eq (Option.some.inj h)

mutual

theorem Stmt.over_of_rename_eq : ∀ {stmt : Stmt},
    stmt.rename r = stmt → stmt.Over (Fixed r) (fun _ => True)
  | .nop, _ => trivial
  | .expr _, h | .print _, h | .return _, h => by
    simp only [Stmt.rename, Stmt.expr.injEq, Stmt.print.injEq, Stmt.return.injEq] at h
    exact Expr.over_of_rename_eq h
  | .varDecl _ _, h =>
    have ⟨name, init⟩ := Stmt.varDecl.inj h
    ⟨name, Expr.over_of_rename_eq init⟩
  | .funDecl _, h => FunctionDecl.over_of_rename_eq (Stmt.funDecl.inj h)
  | .classDecl _, h => ClassDecl.over_of_rename_eq (Stmt.classDecl.inj h)
  | .block _, h => Stmt.overAll_of_renameAll_eq (Stmt.block.inj h)
  | .ite _ _ _, h =>
    have ⟨cond, yes, no⟩ := Stmt.ite.inj h
    ⟨Expr.over_of_rename_eq cond, Stmt.over_of_rename_eq yes, Stmt.over_of_rename_eq no⟩
  | .while _ _, h =>
    have ⟨cond, body⟩ := Stmt.while.inj h
    ⟨Expr.over_of_rename_eq cond, Stmt.over_of_rename_eq body⟩
  | .for _ _ _ _, h =>
    have ⟨init, cond, incr, body⟩ := Stmt.for.inj h
    ⟨Stmt.over?_of_rename?_eq init, Expr.over?_of_map_eq cond, Expr.over?_of_map_eq incr,
      Stmt.over_of_rename_eq body⟩

theorem Stmt.over?_of_rename?_eq : ∀ {init : Option Stmt},
    Stmt.rename? r init = init → Stmt.Over? (Fixed r) (fun _ => True) init
  | none, _ => trivial
  | some _, h => Stmt.over_of_rename_eq (Option.some.inj h)

theorem Stmt.overAll_of_renameAll_eq : ∀ {stmts : List Stmt},
    Stmt.renameAll r stmts = stmts → Stmt.OverAll (Fixed r) (fun _ => True) stmts
  | [], _ => trivial
  | _ :: _, h =>
    have ⟨first, rest⟩ := List.cons.inj h
    ⟨Stmt.over_of_rename_eq first, Stmt.overAll_of_renameAll_eq rest⟩

theorem FunctionDecl.over_of_rename_eq : ∀ {decl : FunctionDecl},
    decl.rename r = decl → decl.Over (Fixed r) (fun _ => True)
  | ⟨_, _, _⟩, h =>
    have ⟨name, params, body⟩ := FunctionDecl.mk.inj h
    have each := List.map_inj_left.mp (params.trans (List.map_id _).symm)
    ⟨⟨name, trivial⟩, each, Stmt.overAll_of_renameAll_eq body⟩

theorem FunctionDecl.overAll_of_renameAll_eq : ∀ {decls : List FunctionDecl},
    FunctionDecl.renameAll r decls = decls →
      FunctionDecl.OverAll (Fixed r) (fun _ => True) decls
  | [], _ => trivial
  | _ :: _, h =>
    have ⟨first, rest⟩ := List.cons.inj h
    ⟨FunctionDecl.over_of_rename_eq first, FunctionDecl.overAll_of_renameAll_eq rest⟩

theorem ClassDecl.over_of_rename_eq : ∀ {decl : ClassDecl},
    decl.rename r = decl → decl.Over (Fixed r) (fun _ => True)
  | ⟨_, _, _⟩, h =>
    have ⟨name, superclass, methods⟩ := ClassDecl.mk.inj h
    ⟨⟨name, trivial⟩, fun _ mem => Option.some.inj (by rw [← Option.map_some, ← mem, superclass]),
      FunctionDecl.overAll_of_renameAll_eq methods⟩

end

end

end Lox
