import Lox.Proofs.Course.Work
import Lox.Proofs.Frames.Tree

/-!
What no work destroys.

A property of stores that every action in the plan of every work keeps is kept by the works
(`Work.preserves`). That a frame has each of its names once is such a property
(`Work.preserves_tidy`).
-/

namespace Lox

open Run

/-! ### From actions to works -/

/-- Whatever the actions and works of a plan give, each of its actions keeps the property. -/
def Plan.EachKeeps {α : Type} (P : Store → Prop) : Plan α → Prop
  | .done _ => True
  | .act x next => Preserves P x ∧ ∀ b, (next b).EachKeeps P
  | .work _ next => ∀ r, (next r).EachKeeps P

section

variable {host : Host} {P : Store → Prop}

theorem Plan.preserves {α : Type} {p : Plan α} (each : p.EachKeeps P)
    (works : p.All fun w => Preserves P (w.run host)) : Preserves P (p.run host) := by
  induction p with
  | done a => exact preserves_succeed a
  | act x next ih => exact preserves_bind each.1 fun b => ih b (each.2 b) (works b)
  | work w next ih => exact preserves_bind works.1 fun r => ih r (each r) (works.2 r)

/-- What the actions of all plans keep is kept by all works, by induction on the works in the order
of what begins what. -/
theorem Work.preserves (each : ∀ w : Work, (w.plan host).EachKeeps P) (w : Work) :
    Preserves P (w.run host) := by
  induction w using Work.wellFounded_below.induction with
  | _ w ih =>
    rw [w.run_eq_plan]
    exact Plan.preserves (each w) ((w.all_plan host).mono ih)

end

/-! ### Names bound once -/

/-- Each frame has its names once. -/
def Store.Tidy (s : Store) : Prop := ∀ f, (s.frame f).names.Nodup

namespace Store.Tidy

variable {s : Store}

theorem of_frames_eq {s' : Store} (h : s.Tidy) (same : s'.frames = s.frames) : s'.Tidy := by
  intro f
  rw [frame, same]
  exact h f

theorem bind (h : s.Tidy) (f : FrameId) (name : Name) (value : Value) :
    (s.bind f name value).Tidy := by
  intro g
  rw [frame_bind]
  split
  · exact Bindings.nodup_insert (h g)
  · exact h g

theorem push (h : s.Tidy) (scope : Scope) {bindings : Bindings} (distinct : bindings.names.Nodup) :
    (s.push scope bindings).2.Tidy := by
  intro g
  rw [frame_push]
  split
  · exact distinct
  · exact h g

end Store.Tidy

theorem Store.tidy_empty (limit : Option Nat) : (empty limit).Tidy := by
  intro f
  rw [frame_of_size_le (Nat.zero_le f)]
  exact List.nodup_nil

namespace Run

open Store (Tidy)

variable (scope : Scope) (name : Name)

theorem tidy_change {α : Type} {g : Store → α × Store} (same : ∀ s, (g s).2.frames = s.frames) :
    Preserves Tidy (change g) :=
  preserves_change fun s tidy => tidy.of_frames_eq (same s)

theorem tidy_get : Preserves Tidy (get scope name) := by
  intro s tidy
  unfold Ensures get Store.get
  cases s.lookup? name scope.chain <;> exact tidy

theorem tidy_assign (value : Value) : Preserves Tidy (assign scope name value) := by
  intro s tidy
  unfold Ensures assign Store.assign
  cases s.binder? name scope.chain with
  | none => exact tidy
  | some f => exact tidy.bind f name value

theorem tidy_define (value : Value) : Preserves Tidy (define scope name value) := by
  intro s tidy
  unfold Ensures define Store.define
  by_cases taken : (!(scope.isRoot || scope.isGlobal) && (s.frame scope.frame).contains name) = true
  · rw [if_pos taken]
    exact tidy
  · rw [if_neg taken]
    exact tidy.bind scope.frame name value

theorem tidy_push {bindings : Bindings} (distinct : bindings.names.Nodup) :
    Preserves Tidy (push scope bindings) :=
  preserves_change fun _ tidy => tidy.push scope distinct

theorem tidy_newFunction (f : Closure) : Preserves Tidy (newFunction f) :=
  preserves_bind (tidy_change fun _ => rfl) fun _ => preserves_succeed _

theorem tidy_bindMethod (method : Closure) (o : Object) : Preserves Tidy (bindMethod method o) :=
  preserves_bind (tidy_push _ (List.pairwise_singleton _ _)) fun _ => preserves_succeed _

/-- A method that is looked up is bound to an instance, or there is none. -/
theorem tidy_method {method? : Option Closure} (o : Object) (e : RuntimeError) :
    Preserves Tidy (match method? with
      | some method => bindMethod method o >>= newFunction
      | none => fail e) := by
  cases method? with
  | some method => exact preserves_bind (tidy_bindMethod method o) tidy_newFunction
  | none => exact preserves_fail e

theorem tidy_getProperty (value : Value) : Preserves Tidy (getProperty value name) := by
  cases value with
  | object o =>
    apply preserves_bind (fun _ tidy => tidy)
    intro field
    cases field with
    | some v => exact preserves_succeed v
    | none => exact tidy_method o _
  | _ => exact preserves_fail _

theorem tidy_setProperty (owner value : Value) : Preserves Tidy (setProperty owner name value) := by
  cases owner with
  | object o => exact fun s tidy => tidy.of_frames_eq rfl
  | _ => exact preserves_fail _

theorem tidy_getSuperMethod : Preserves Tidy (getSuperMethod scope name) := by
  apply preserves_bind (tidy_get scope superName)
  intro parent
  apply preserves_bind (tidy_get scope thisName)
  intro this
  split
  · exact tidy_method _ _
  · exact preserves_fail _

theorem tidy_superclassOf (superclass : Option Name) :
    Preserves Tidy (superclassOf scope superclass) := by
  cases superclass with
  | none => exact preserves_succeed none
  | some name =>
    apply preserves_bind (tidy_get scope name)
    intro v
    cases v with
    | cls c => exact preserves_succeed (some c)
    | _ => exact preserves_fail _

theorem tidy_declareClass (decl : ClassDecl) : Preserves Tidy (declareClass scope decl) := by
  apply preserves_bind (tidy_superclassOf scope decl.superclass)
  intro parent
  refine preserves_bind ?_ fun inner => preserves_bind (tidy_change fun _ => rfl) fun id =>
    tidy_define scope decl.name _
  cases parent with
  | none => exact preserves_succeed scope
  | some c => exact tidy_push scope (List.pairwise_singleton _ _)

theorem tidy_checkArity (name : String) (arity : Arity) (args : List Value) :
    Preserves Tidy (checkArity name arity args) :=
  preserves_ite (preserves_succeed ()) (preserves_fail _)

theorem tidy_callBuiltin (host : Host) (b : Builtin) (args : List Value) :
    Preserves Tidy (callBuiltin host b args) :=
  preserves_bind (tidy_change fun _ => rfl) fun _ => preserves_ofExcept _

theorem tidy_printLine (text : String) : Preserves Tidy (printLine text) := by
  intro s tidy
  have written : (s.write (text ++ "\n")).Tidy := tidy.of_frames_eq rfl
  unfold Ensures printLine
  dsimp only
  by_cases fits : s.output.fits (text ++ "\n") = true
  · rw [if_pos fits]
    exact written
  · rw [if_neg fits]
    exact written

end Run

/-! ### The plans -/

section

open Store (Tidy)

variable (fuel : Nat) (scope : Scope)

theorem Expr.tidy_plan (e : Expr) : (e.plan fuel scope).EachKeeps Tidy := by
  cases e with
  | var name => exact ⟨tidy_get scope name, fun _ => trivial⟩
  | unary op operand => exact fun v => ⟨preserves_ofExcept _, fun _ => trivial⟩
  | binary op left right => exact fun l r => ⟨preserves_ofExcept _, fun _ => trivial⟩
  | logic op left right =>
    intro l
    dsimp only
    split
    · trivial
    · exact fun _ => trivial
  | assign name value => exact fun v => ⟨tidy_assign scope name v, fun _ => trivial⟩
  | get object name => exact fun o => ⟨tidy_getProperty name o, fun _ => trivial⟩
  | set object name value => exact fun o v => ⟨tidy_setProperty name o v, fun _ => trivial⟩
  | this => exact ⟨tidy_get scope thisName, fun _ => trivial⟩
  | super method => exact ⟨tidy_getSuperMethod scope method, fun _ => trivial⟩
  | _ => simp [Expr.plan, Plan.EachKeeps]

theorem Value.tidy_callPlan (host : Host) (args : List Value) (callee : Value) :
    (callee.callPlan host fuel args).EachKeeps Tidy := by
  cases callee with
  | function id f => exact ⟨tidy_checkArity _ _ _, fun _ _ => trivial⟩
  | native f =>
    refine ⟨tidy_checkArity _ _ _, fun _ => ?_⟩
    dsimp only
    cases f.body with
    | builtin b => exact ⟨tidy_callBuiltin host b args, fun _ => trivial⟩
    | supplied index => exact ⟨preserves_ofExcept _, fun _ => trivial⟩
  | cls c =>
    refine ⟨tidy_checkArity _ _ _, fun _ => ⟨tidy_change fun _ => rfl, fun o => ?_⟩⟩
    dsimp only
    cases c.method? initializerName with
    | some method => exact ⟨tidy_bindMethod method o, fun _ _ => trivial⟩
    | none => trivial
  | _ => exact ⟨preserves_fail _, fun _ => trivial⟩

theorem Closure.tidy_plan (f : Closure) (args : List Value) :
    (f.plan fuel args).EachKeeps Tidy := by
  refine ⟨tidy_push f.scope (Bindings.nodup_ofList _), fun frame flow => ?_⟩
  dsimp only
  split
  · exact ⟨tidy_get f.scope thisName, fun _ => trivial⟩
  · cases flow <;> trivial

theorem Stmt.tidy_plan (stmt : Stmt) : (stmt.plan fuel scope).EachKeeps Tidy := by
  cases stmt with
  | print e => exact fun v => ⟨tidy_printLine _, fun _ => trivial⟩
  | varDecl name init => exact fun v => ⟨tidy_define scope name v, fun _ => trivial⟩
  | funDecl decl =>
    exact ⟨tidy_newFunction _, fun f => ⟨tidy_define scope decl.name f, fun _ => trivial⟩⟩
  | classDecl decl => exact ⟨tidy_declareClass scope decl, fun _ => trivial⟩
  | block body => exact ⟨tidy_push scope List.nodup_nil, fun _ _ => trivial⟩
  | ite cond thenBranch elseBranch =>
    intro c
    dsimp only
    split <;> exact fun _ => trivial
  | _ => simp [Stmt.plan, Plan.EachKeeps]

theorem Stmt.tidy_roundPlan (rounds : Nat) (cond : Expr) (body : Stmt) :
    (roundPlan fuel rounds scope cond body).EachKeeps Tidy := by
  intro c
  dsimp only
  split
  · intro flow
    cases flow with
    | normal => exact fun _ => trivial
    | «return» v => trivial
  · trivial

theorem Stmt.tidy_programPlan (stmt : Stmt) (rest : List Stmt) :
    (stmt.programPlan fuel scope rest).EachKeeps Tidy := by
  cases stmt with
  | expr e => exact fun _ _ => trivial
  | _ =>
    intro flow
    cases flow with
    | normal => exact fun _ => trivial
    | «return» v => exact ⟨preserves_fail _, fun _ => trivial⟩

end

theorem Work.tidy_plan (host : Host) (w : Work) : (w.plan host).EachKeeps Store.Tidy := by
  cases w with
  | expr fuel scope e =>
    cases fuel with
    | zero => exact ⟨preserves_exhausted, fun _ => trivial⟩
    | succ fuel => exact e.tidy_plan fuel scope
  | call fuel callee args =>
    cases fuel with
    | zero => exact ⟨preserves_exhausted, fun _ => trivial⟩
    | succ fuel => exact callee.tidy_callPlan fuel host args
  | closure fuel f args =>
    cases fuel with
    | zero => exact ⟨preserves_exhausted, fun _ => trivial⟩
    | succ fuel => exact f.tidy_plan fuel args
  | exec fuel scope stmt =>
    cases fuel with
    | zero => exact ⟨preserves_exhausted, fun _ => trivial⟩
    | succ fuel => exact stmt.tidy_plan fuel scope
  | values fuel scope es =>
    cases es with
    | nil => trivial
    | cons e rest => exact fun _ _ => trivial
  | block fuel scope stmts =>
    cases stmts with
    | nil => trivial
    | cons stmt rest =>
      intro flow
      cases flow with
      | normal => exact fun _ => trivial
      | «return» v => trivial
  | loop fuel rounds scope cond body =>
    cases rounds with
    | zero => exact ⟨preserves_exhausted, fun _ => trivial⟩
    | succ rounds => exact Stmt.tidy_roundPlan fuel scope rounds cond body
  | program fuel scope last stmts =>
    cases stmts with
    | nil => trivial
    | cons stmt rest => exact stmt.tidy_programPlan fuel scope rest

/-- Whatever is done, each frame has its names once. -/
theorem Work.preserves_tidy (host : Host) (w : Work) : Preserves Store.Tidy (w.run host) :=
  w.preserves (tidy_plan host)

end Lox
