import Lox.Proofs.Check
import Lox.Proofs.Rules.First

/-!
A check finds the first rule that a program breaks.

The check of a program carries the kinds of function and class it is in and the names declared so
far; the rules are about the parts around a site and before it. The two agree at every site, by
recursion over the tree. The main statement is `check_findsFirst`: a program is accepted if nothing
in it breaks a rule, and is otherwise rejected for the first site, in the order of a traversal, that
breaks one.
-/

namespace Lox

open Check Site

theorem Check.ok_bind (w : Except SemanticError Unit) : (do Except.ok (); w) = w := rfl

theorem Check.bind_assoc (u v w : Except SemanticError Unit) :
    (do (do u; v); w) = (do u; v; w) := by
  cases u <;> rfl

/-! ### What a check knows of the parts around it -/

/-- The kind of the innermost function around a place. -/
def functionKind (around : List Part) : FunctionKind :=
  match innermostFunction? around with
  | some (.method decl) => .ofMethod decl.name
  | some _ => .function
  | none => .none

/-- The kind of the innermost class around a place. -/
def classKind (around : List Part) : ClassKind :=
  match innermostClass? around with
  | some decl => .ofSuperclass decl.superclass
  | none => .none

/-- The place of a check inside some parts. -/
def placeIn (around : List Part) : Place := ⟨functionKind around, classKind around⟩

section

variable {before around rest : List Part} {owner : Part} {outer : List Part} {e : SemanticError}
  {w : Except SemanticError Unit}

theorem functionKind_eq_none : functionKind around = .none ↔ innermostFunction? around = none := by
  unfold functionKind
  cases innermostFunction? around with
  | none => simp
  | some part =>
    cases part with
    | method decl =>
      simp only [FunctionKind.ofMethod, reduceCtorEq, iff_false]
      split <;> simp
    | _ => simp

theorem functionKind_eq_initializer :
    functionKind around = .initializer ↔
      ∃ decl, innermostFunction? around = some (.method decl) ∧ decl.name = initializerName := by
  unfold functionKind
  cases innermostFunction? around with
  | none => simp
  | some part =>
    cases part with
    | method decl => simp [FunctionKind.ofMethod]
    | _ => simp

theorem classKind_eq_none : classKind around = .none ↔ innermostClass? around = none := by
  unfold classKind
  cases innermostClass? around with
  | none => simp
  | some decl => cases found : decl.superclass <;> simp [ClassKind.ofSuperclass, found]

theorem classKind_eq_base :
    classKind around = .base ↔
      ∃ decl, innermostClass? around = some decl ∧ decl.superclass = none := by
  unfold classKind
  cases innermostClass? around with
  | none => simp
  | some decl => cases found : decl.superclass <;> simp [ClassKind.ofSuperclass, found]

/-! ### Names -/

theorem breaks_binder_iff {name : Name} :
    Breaks ⟨.binder name, before, around⟩ e ↔ bindingName name = .error e := by
  unfold bindingName
  constructor
  · rintro ⟨reserved⟩
    rw [if_pos reserved]
  · intro same
    split at same
    · rename_i reserved
      cases same
      exact .reservedBinder reserved
    · cases same

theorem judged_binder (name : Name) : Judged ⟨.binder name, before, around⟩ (bindingName name) :=
  .of_own (fun _ => breaks_binder_iff) rfl

/-- Check one parameter behind those already seen. -/
def Check.parameter (seen : List Name) (name : Name) : Except SemanticError Unit := do
  bindingName name
  if name ∈ seen then .error (.duplicateParameter name) else .ok ()

theorem Check.params_cons (seen : List Name) (name : Name) (ps : List Name) :
    params seen (name :: ps) = (do parameter seen name; params (name :: seen) ps) := by
  unfold parameter
  rw [params, bind_assoc]
  congr 1
  funext _
  split <;> rfl

/-- A parameter with the name of one before it is not reserved, since the other would have been
found first: of the two rules about a parameter, only one is broken at a time. -/
theorem breaks_param_iff {name : Name} {seen : List Name}
    (known : ∀ other, other ∈ seen ↔ .param other ∈ before)
    (unreserved : ∀ other ∈ seen, other.isReserved = false) :
    Breaks ⟨.param name, before, around⟩ e ↔ parameter seen name = .error e := by
  unfold parameter bindingName
  constructor
  · intro broken
    cases broken with
    | reservedParam reserved =>
      rw [if_pos reserved]
      rfl
    | repeatedParam mem =>
      have again := (known name).mpr mem
      simp only [unreserved name again, again, if_true, Bool.false_eq_true, if_false]
      rfl
  · intro same
    by_cases reserved : name.isReserved = true
    · rw [if_pos reserved] at same
      cases same
      exact .reservedParam reserved
    · rw [if_neg reserved, ok_bind] at same
      split at same
      · rename_i again
        cases same
        exact .repeatedParam ((known name).mp again)
      · cases same

theorem Check.unreserved_of_parameter {seen : List Name} {name : Name}
    (h : parameter seen name = .ok ()) : name.isReserved = false :=
  bindingName_eq_ok.mp (bind_eq_ok.mp h).1

/-- Parameters are judged behind those that come before them, none of which is reserved. -/
theorem isFirst_params {ps seen : List Name} (known : ∀ other, other ∈ seen ↔ .param other ∈ before)
    (unreserved : ∀ other ∈ seen, other.isReserved = false)
    (others : IsFirst (Within around (before ++ ps.map .param) rest) w) :
    IsFirst (Within around before (ps.map .param ++ rest)) (do params seen ps; w) := by
  induction ps generalizing before seen with
  | nil =>
    rw [params, ok_bind]
    exact (List.append_nil before ▸ others : IsFirst (Within around before rest) w)
  | cons param ps ih =>
    rw [params_cons, bind_assoc]
    refine .cons (.of_own (fun _ => breaks_param_iff known unreserved) rfl) fun ok => ?_
    apply ih
    · intro other
      simp [known, or_comm]
    · simpa [unreserved_of_parameter ok] using unreserved
    · simpa using others

/-! ### Expressions -/

theorem breaks_this_iff :
    Breaks ⟨.expr .this, before, around⟩ e ↔ this (classKind around) = .error e := by
  constructor
  · intro broken
    cases broken with
    | strayThis stray =>
      rw [classKind_eq_none.mpr stray]
      rfl
  · intro same
    cases kind : classKind around with
    | none =>
      rw [kind] at same
      cases same
      exact .strayThis (classKind_eq_none.mp kind)
    | _ =>
      rw [kind] at same
      cases same

theorem breaks_super_iff {method : Name} :
    Breaks ⟨.expr (.super method), before, around⟩ e ↔ super (classKind around) = .error e := by
  constructor
  · intro broken
    cases broken with
    | straySuper stray =>
      rw [classKind_eq_none.mpr stray]
      rfl
    | baseSuper found base =>
      rw [classKind_eq_base.mpr ⟨_, found, base⟩]
      rfl
  · intro same
    cases kind : classKind around with
    | none =>
      rw [kind] at same
      cases same
      exact .straySuper (classKind_eq_none.mp kind)
    | base =>
      rw [kind] at same
      cases same
      obtain ⟨decl, found, base⟩ := classKind_eq_base.mp kind
      exact .baseSuper found base
    | derived =>
      rw [kind] at same
      cases same

/-- Only `this` and `super` can break a rule themselves. -/
theorem not_breaks_expr {x : Expr} (ne : x ≠ .this) (ne' : ∀ method, x ≠ .super method) :
    ¬ Breaks ⟨.expr x, before, around⟩ e := by
  intro broken
  cases broken with
  | strayThis => exact ne rfl
  | straySuper => exact ne' _ rfl
  | baseSuper => exact ne' _ rfl

mutual

theorem judged_expr : ∀ (x : Expr) {before around : List Part},
    Judged ⟨.expr x, before, around⟩ (expr (classKind around) x)
  | .nil, _, _ | .number _, _, _ | .bool _, _, _ | .string _, _, _ | .var _, _, _ =>
    .of_parts (fun _ => not_breaks_expr nofun nofun) isFirst_nil
  | .unary _ operand, _, _ | .group operand, _, _ | .assign _ operand, _, _
  | .get operand _, _, _ =>
    .of_parts (fun _ => not_breaks_expr nofun nofun) (.last (judged_expr operand))
  | .binary _ left right, _, _ | .logic _ left right, _, _ | .set left _ right, _, _ =>
    .of_parts (fun _ => not_breaks_expr nofun nofun)
      (.cons (judged_expr left) fun _ => .last (judged_expr right))
  | .call callee args, _, _ =>
    .of_parts (fun _ => not_breaks_expr nofun nofun)
      (.cons (judged_expr callee) fun _ => isFirst_exprs args)
  | .this, _, _ => .of_own (fun _ => breaks_this_iff) rfl
  | .super _, _, _ => .of_own (fun _ => breaks_super_iff) rfl

theorem isFirst_exprs : ∀ (xs : List Expr) {before around : List Part} {x : Expr},
    IsFirst (Within (.expr x :: around) before (xs.map .expr)) (exprs (classKind around) xs)
  | [], _, _, _ => isFirst_nil
  | x :: xs, _, _, _ => .cons (judged_expr x) fun _ => isFirst_exprs xs

end

theorem judged_expr? (x? : Option Expr) : ∀ x, x? = some x →
    Judged ⟨.expr x, before, around⟩ (expr? (classKind around) x?) := by
  rintro x rfl
  exact judged_expr x

/-! ### Declared names and returned values -/

/-- A name that is declared again is not that of a parameter, since the declaration before it would
have been found first: of the two rules about a declared name, only one is broken at a time. -/
theorem breaks_declared_iff {s : Stmt} {name : Name} {declared : List Name}
    (declares : s.declaredName? = some name) (isBlock : owner.isBlock = true)
    (known : ∀ other, other ∈ declared ↔
      ∃ earlier, .stmt earlier ∈ before ∧ earlier.declaredName? = some other)
    (apart : ∀ other ∈ declared, other ∉ owner.params) :
    Breaks ⟨.stmt s, before, owner :: outer⟩ e ↔
      declaration owner.params declared (some name) = .error e := by
  unfold declaration
  dsimp only
  constructor
  · intro broken
    cases broken with
    | shadowedParam declares' mem =>
      cases declares.symm.trans declares'
      rw [if_pos mem]
    | redeclared _ declares' mem same =>
      cases declares.symm.trans declares'
      have again := (known name).mpr ⟨_, mem, same⟩
      rw [if_neg (apart name again), if_pos again]
    | strayReturn => cases declares
    | initializerReturn => cases declares
  · intro same
    split at same
    · rename_i mem
      cases same
      exact .shadowedParam declares mem
    · split at same
      · rename_i again
        cases same
        obtain ⟨earlier, mem, same⟩ := (known name).mp again
        exact .redeclared isBlock declares mem same
      · cases same

theorem Part.params_eq_nil {part : Part} (notBlock : part.isBlock = false) : part.params = [] := by
  cases part with
  | function | method => cases notBlock
  | _ => rfl

/-- Elsewhere than directly in a block a statement may declare what it likes. -/
theorem not_breaks_declared {s : Stmt} {name : Name} (declares : s.declaredName? = some name)
    (notBlock : owner.isBlock = false) : ¬ Breaks ⟨.stmt s, before, owner :: outer⟩ e := by
  intro broken
  cases broken with
  | shadowedParam _ mem =>
    rw [Part.params_eq_nil notBlock] at mem
    cases mem
  | redeclared isBlock => cases isBlock.symm.trans notBlock
  | strayReturn => cases declares
  | initializerReturn => cases declares

/-- A statement that neither declares nor returns anything breaks no rule itself. -/
theorem not_breaks_stmt {s : Stmt} (quiet : s.declaredName? = none)
    (ne : ∀ value, s ≠ .return value) : ¬ Breaks ⟨.stmt s, before, around⟩ e := by
  intro broken
  cases broken with
  | shadowedParam declares => cases quiet.symm.trans declares
  | redeclared _ declares => cases quiet.symm.trans declares
  | strayReturn => exact ne _ rfl
  | initializerReturn => exact ne _ rfl

theorem breaks_return_iff {value : Expr} :
    Breaks ⟨.stmt (.return value), before, around⟩ e ↔
      returned (functionKind around) value = .error e := by
  constructor
  · intro broken
    cases broken with
    | shadowedParam declares => cases declares
    | redeclared _ declares => cases declares
    | strayReturn stray =>
      rw [functionKind_eq_none.mpr stray]
      rfl
    | initializerReturn found initializer ne =>
      rw [functionKind_eq_initializer.mpr ⟨_, found, initializer⟩]
      cases value with
      | nil => exact absurd rfl ne
      | _ => rfl
  · intro same
    cases kind : functionKind around with
    | none =>
      rw [kind] at same
      cases same
      exact .strayReturn (functionKind_eq_none.mp kind)
    | initializer =>
      rw [kind] at same
      obtain ⟨decl, found, initializer⟩ := functionKind_eq_initializer.mp kind
      have ne : value ≠ .nil := by
        rintro rfl
        cases same
      have only : e = .returnFromInitializer := by
        cases value <;> cases same <;> rfl
      exact only ▸ .initializerReturn found initializer ne
    | _ =>
      rw [kind] at same
      cases same

/-! ### Superclasses -/

/-- Check that a class does not name itself as its superclass. -/
def Check.parent (name : Name) (superclass : Option Name) : Except SemanticError Unit :=
  if superclass = some name then .error (.inheritFromSelf name) else .ok ()

theorem Check.classDecl_eq (decl : ClassDecl) :
    classDecl decl = (do
      bindingName decl.name
      parent decl.name decl.superclass
      methods (.ofSuperclass decl.superclass) decl.methods) := by
  obtain ⟨name, superclass, ms⟩ := decl
  rw [classDecl]
  congr 1
  funext _
  unfold parent
  dsimp only
  split <;> rfl

theorem breaks_superclass_iff {decl : ClassDecl} {name : Name}
    (found : decl.superclass = some name) :
    Breaks ⟨.superclass name, before, .cls decl :: around⟩ e ↔
      parent decl.name decl.superclass = .error e := by
  unfold parent
  constructor
  · intro broken
    cases broken
    rw [if_pos found]
  · intro same
    split at same
    · rename_i own
      cases same
      cases found.symm.trans own
      exact .ownSuperclass
    · cases same

/-! ### Statements -/

/-- The verdict on the name that a statement declares, where it stands. -/
structure Settles (s : Stmt) (before around : List Part) (v : Except SemanticError Unit) :
    Prop where
  declared : ∀ name, s.declaredName? = some name →
    ∀ e, Breaks ⟨.stmt s, before, around⟩ e ↔ v = .error e
  quiet : s.declaredName? = none → v = .ok ()

theorem settles_block {s : Stmt} {declared : List Name} (isBlock : owner.isBlock = true)
    (known : ∀ other, other ∈ declared ↔
      ∃ earlier, .stmt earlier ∈ before ∧ earlier.declaredName? = some other)
    (apart : ∀ other ∈ declared, other ∉ owner.params) :
    Settles s before (owner :: outer) (declaration owner.params declared s.declaredName?) where
  declared name declares e := by
    rw [declares]
    exact breaks_declared_iff declares isBlock known apart
  quiet none := by
    rw [none]
    rfl

theorem settles_elsewhere {s : Stmt} (notBlock : owner.isBlock = false) :
    Settles s before (owner :: outer) (.ok ()) where
  declared name declares e := by simp [not_breaks_declared declares notBlock]
  quiet _ := rfl

/-- A statement without a name to declare, and without a rule of its own. -/
theorem Settles.judged {s : Stmt} {v : Except SemanticError Unit} (h : Settles s before around v)
    (quiet : s.declaredName? = none) (ne : ∀ value, s ≠ .return value)
    (parts : IsFirst (Within (.stmt s :: around) [] s.parts) w) :
    Judged ⟨.stmt s, before, around⟩ (do v; w) := by
  rw [h.quiet quiet, ok_bind]
  exact .of_parts (fun _ => not_breaks_stmt quiet ne) parts

mutual

theorem judged_stmt : ∀ (s : Stmt) {before around : List Part} {v : Except SemanticError Unit},
    Settles s before around v → Judged ⟨.stmt s, before, around⟩ (do v; stmt (placeIn around) s)
  | .nop, _, _, _, h => h.judged rfl nofun isFirst_nil
  | .expr x, _, _, _, h | .print x, _, _, _, h => h.judged rfl nofun (.last (judged_expr x))
  | .varDecl name init, _, _, _, h =>
    .intro (h.declared name rfl) (.cons (judged_binder name) fun _ => .last (judged_expr init))
  | .funDecl decl, _, _, _, h =>
    .intro (h.declared decl.name rfl) (.last (judged_function decl))
  | .classDecl decl, _, _, _, h =>
    .intro (h.declared decl.name rfl) (.last (judged_classDecl decl))
  | .block body, _, _, _, h =>
    h.judged rfl nofun (isFirst_block body rfl (by simp) (by simp))
  | .ite cond yes no, _, _, _, h =>
    h.judged rfl nofun (.cons (judged_expr cond) fun _ =>
      .cons (judged_stmt yes (settles_elsewhere rfl)) fun _ =>
        .last (judged_stmt no (settles_elsewhere rfl)))
  | .while cond body, _, _, _, h =>
    h.judged rfl nofun (.cons (judged_expr cond) fun _ =>
      .last (judged_stmt body (settles_elsewhere rfl)))
  | .for init cond incr body, _, _, _, h =>
    h.judged rfl nofun (.optional (judged_stmt? init rfl) rfl
      (.optional (judged_expr? cond) rfl (.optional (judged_expr? incr) rfl
        (.last (judged_stmt body (settles_elsewhere rfl))))))
  | .return value, _, _, _, h => by
    rw [h.quiet rfl, ok_bind]
    exact .intro (fun _ => breaks_return_iff) (.last (judged_expr value))

theorem judged_stmt? : ∀ (s? : Option Stmt) {before outer : List Part} {owner : Part},
    owner.isBlock = false → ∀ s, s? = some s →
    Judged ⟨.stmt s, before, owner :: outer⟩ (stmt? (placeIn (owner :: outer)) s?)
  | some s, _, _, _, notBlock, _, rfl => judged_stmt s (settles_elsewhere notBlock)

theorem isFirst_block : ∀ (body : List Stmt) {before outer : List Part} {owner : Part}
    {declared : List Name}, owner.isBlock = true →
    (∀ other, other ∈ declared ↔
      ∃ earlier, .stmt earlier ∈ before ∧ earlier.declaredName? = some other) →
    (∀ other ∈ declared, other ∉ owner.params) →
    IsFirst (Within (owner :: outer) before (body.map .stmt))
      (block (placeIn (owner :: outer)) owner.params declared body)
  | [], _, _, _, _, _, _, _ => isFirst_nil
  | s :: rest, before, outer, owner, declared, isBlock, known, apart => by
    rw [block, ← bind_assoc]
    refine .cons (judged_stmt s (settles_block isBlock known apart)) fun ok => ?_
    have fresh := declaration_eq_ok.mp (bind_eq_ok.mp ok).1
    apply isFirst_block rest isBlock
    · intro other
      simp [known, or_comm, or_and_right, exists_or]
    · intro other mem
      rcases List.mem_append.mp mem with new | old
      · exact (fresh other (by simpa using new)).1
      · exact apart other old

theorem judged_function : ∀ (decl : FunctionDecl) {before around : List Part},
    Judged ⟨.function decl, before, around⟩ (function (classKind around) .function decl)
  | ⟨name, ps, body⟩, _, _ =>
    .of_parts nofun (.cons (judged_binder name) fun _ =>
      isFirst_params (by simp) (by simp) (isFirst_block body rfl (by simp) (by simp)))

theorem judged_method : ∀ (decl : FunctionDecl) {before around : List Part},
    Judged ⟨.method decl, before, around⟩
      (function (classKind around) (.ofMethod decl.name) decl)
  | ⟨name, ps, body⟩, _, _ =>
    .of_parts nofun (.cons (judged_binder name) fun _ =>
      isFirst_params (by simp) (by simp) (isFirst_block body rfl (by simp) (by simp)))

theorem isFirst_methods : ∀ (ms : List FunctionDecl) {before around : List Part},
    IsFirst (Within around before (ms.map .method)) (methods (classKind around) ms)
  | [], _, _ => isFirst_nil
  | m :: ms, _, _ => .cons (judged_method m) fun _ => isFirst_methods ms

theorem judged_classDecl : ∀ (decl : ClassDecl) {before around : List Part},
    Judged ⟨.cls decl, before, around⟩ (classDecl decl)
  | ⟨name, superclass, ms⟩, _, _ => by
    rw [classDecl_eq]
    refine .of_parts nofun
      (.cons (judged_binder name) fun _ => .optional ?_ rfl (isFirst_methods ms))
    exact fun _ found => .of_own (fun _ => breaks_superclass_iff found) rfl

end

theorem isFirst_stmts {program : Program} : ∀ (tree : List Stmt) {before : List Part},
    IsFirst (Within [.program program.stmts] before (tree.map .stmt)) (stmts tree)
  | [], _ => isFirst_nil
  | s :: rest, _ => .cons (judged_stmt s (settles_elsewhere rfl)) fun _ => isFirst_stmts rest

end

/-- Nothing in an accepted program breaks a rule. A program that is rejected is rejected for the
first site, in the order of a traversal, that breaks one. -/
theorem check_findsFirst (program : Program) :
    (program.check = .ok () ↔ ∀ path e, ¬ program.Breach path e) ∧
    ∀ e, program.check = .error e ↔ ∃ path, program.Breach path e ∧
      ∀ path' e', program.Breach path' e' → path < path' ∨ path' = path ∧ e' = e := by
  have judged : Judged (.whole program) program.check :=
    .of_parts nofun (isFirst_stmts program.stmts)
  exact ⟨judged.eq_ok_iff, fun e => judged.eq_error_iff⟩

end Lox
