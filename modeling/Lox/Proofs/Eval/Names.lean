import Lox.Eval
import Lox.Proofs.Eval.Ensures
import Lox.Proofs.Store

/-!
Which names a running program binds in the frames that were there before.

An expression binds none, whatever functions it calls: a call runs its body in a frame of its own. A
statement binds in the frame of its scope, and there only names it declares itself, through the
branches of an `if` and the body of a `while`. No name is ever unbound. The main statements are
`ensures_keeps_evalExpr` and `ensures_keeps_exec`.
-/

namespace Lox

/-! ### Frames that keep their names -/

/-- From one store to a later one: the frames of the first lose no name, and gain at most those that
may be added. -/
structure Store.Keeps (added : FrameId → Name → Prop) (s s' : Store) : Prop where
  size : s.frames.size ≤ s'.frames.size
  kept : ∀ f < s.frames.size, ∀ name,
    (s.frame f).contains name = true → (s'.frame f).contains name = true
  only : ∀ f < s.frames.size, ∀ name,
    (s'.frame f).contains name = true → (s.frame f).contains name = true ∨ added f name

/-- No name is added to any frame. -/
def Store.nothing : FrameId → Name → Prop := fun _ _ => False

theorem Bindings.contains_insert (b : Bindings) (name other : Name) (value : Value) :
    (b.insert name value).contains other = true ↔ other = name ∨ b.contains other = true := by
  unfold Bindings.contains
  by_cases same : other = name
  · subst same
    simp
  · rw [Bindings.get?_insert_of_ne same]
    simp [same]

namespace Store

variable {added : FrameId → Name → Prop} {s s₁ : Store}

theorem Keeps.refl (s : Store) : s.Keeps added s :=
  ⟨Nat.le_refl _, fun _ _ _ h => h, fun _ _ _ h => .inl h⟩

theorem Keeps.of_frames_eq {s' : Store} (h : s.Keeps added s₁) (same : s'.frames = s₁.frames) :
    s.Keeps added s' := by
  have frame : ∀ f, s'.frame f = s₁.frame f := fun f => by simp only [Store.frame, same]
  refine ⟨same ▸ h.size, fun f lt name => ?_, fun f lt name => ?_⟩
  · rw [frame]
    exact h.kept f lt name
  · rw [frame]
    exact h.only f lt name

theorem Keeps.push (h : s.Keeps added s₁) (scope : Scope) (b : Bindings) :
    s.Keeps added (s₁.push scope b).2 := by
  have frame : ∀ f < s.frames.size, (s₁.push scope b).2.frame f = s₁.frame f := by
    intro f lt
    rw [frame_push, if_neg (Nat.ne_of_lt (Nat.lt_of_lt_of_le lt h.size))]
  refine ⟨?_, fun f lt name => ?_, fun f lt name => ?_⟩
  · rw [size_frames_push]
    exact Nat.le_succ_of_le h.size
  · rw [frame f lt]
    exact h.kept f lt name
  · rw [frame f lt]
    exact h.only f lt name

/-- Binding a name adds it to one frame, unless it is bound there already. -/
theorem Keeps.bind {f : FrameId} {name : Name} (h : s.Keeps added s₁) (value : Value)
    (allowed : f < s.frames.size → (s₁.frame f).contains name = true ∨ added f name) :
    s.Keeps added (s₁.bind f name value) := by
  have bound : ∀ g < s.frames.size, ∀ other,
      ((s₁.bind f name value).frame g).contains other = true ↔
        (g = f ∧ other = name) ∨ (s₁.frame g).contains other = true := by
    intro g lt other
    have inside : g < s₁.frames.size := Nat.lt_of_lt_of_le lt h.size
    rw [frame_bind]
    split
    · rename_i both
      rw [Bindings.contains_insert]
      simp [both.1]
    · rename_i apart
      simp [show g ≠ f from fun same => apart ⟨same, inside⟩]
  refine ⟨?_, fun g lt other old => ?_, fun g lt other new => ?_⟩
  · rw [size_frames_bind]
    exact h.size
  · exact (bound g lt other).mpr (.inr (h.kept g lt other old))
  · rcases (bound g lt other).mp new with ⟨rfl, rfl⟩ | old
    · rcases allowed lt with old | added
      · exact h.only g lt other old
      · exact .inr added
    · exact h.only g lt other old

end Store

/-- The names that a statement may bind in its scope: those it declares, through branches and the
bodies of `while` loops. -/
def Stmt.boundNames : Stmt → List Name
  | .varDecl name _ => [name]
  | .funDecl decl => [decl.name]
  | .classDecl decl => [decl.name]
  | .ite _ thenBranch elseBranch => thenBranch.boundNames ++ elseBranch.boundNames
  | .while _ body => body.boundNames
  | _ => []

/-- The loop that a `for` stands for binds its names in frames of its own. -/
theorem Stmt.boundNames_ofFor (init : Option Stmt) (cond incr : Option Expr) (body : Stmt) :
    (Stmt.ofFor init cond incr body).boundNames = [] := by
  cases init <;> rfl

namespace Run

variable {added : FrameId → Name → Prop} {s₀ : Store}

/-! ### The operations -/

/-- Computations that leave the frames alone keep all names. -/
theorem keeps_change {α : Type} {g : Store → α × Store} (h : ∀ s, (g s).2.frames = s.frames) :
    Preserves (s₀.Keeps added) (change g) :=
  preserves_change fun s keeps => keeps.of_frames_eq (h s)

theorem keeps_get (scope : Scope) (name : Name) :
    Preserves (s₀.Keeps added) (get scope name) := by
  intro s keeps
  unfold Ensures get Store.get
  cases s.lookup? name scope.chain with
  | none => exact keeps
  | some v => exact keeps

theorem keeps_assign (scope : Scope) (name : Name) (value : Value) :
    Preserves (s₀.Keeps added) (assign scope name value) := by
  intro s keeps
  unfold Ensures assign Store.assign
  cases found : s.binder? name scope.chain with
  | none => exact keeps
  | some f =>
    unfold Store.binder? at found
    have bound := List.find?_some found
    exact keeps.bind value fun _ => .inl bound

theorem keeps_define {scope : Scope} {name : Name} (value : Value)
    (allowed : scope.frame < s₀.frames.size → added scope.frame name) :
    Preserves (s₀.Keeps added) (define scope name value) := by
  intro s keeps
  unfold Ensures define Store.define
  by_cases taken : (!(scope.isRoot || scope.isGlobal) && (s.frame scope.frame).contains name) = true
  · rw [if_pos taken]
    exact keeps
  · rw [if_neg taken]
    exact keeps.bind value fun lt => .inr (allowed lt)

theorem keeps_printLine (text : String) : Preserves (s₀.Keeps added) (printLine text) := by
  intro s keeps
  have written : s₀.Keeps added (s.write (text ++ "\n")) := keeps.of_frames_eq rfl
  unfold Ensures printLine
  dsimp only
  by_cases fits : s.output.fits (text ++ "\n") = true
  · rw [if_pos fits]
    exact written
  · rw [if_neg fits]
    exact written

/-- What is run in a new frame may bind in it whatever it likes. -/
theorem keeps_push_bind {α : Type} {f : Scope → Run α} (scope : Scope) (b : Bindings)
    (next : ∀ inner : Scope, s₀.frames.size ≤ inner.frame → Preserves (s₀.Keeps added) (f inner)) :
    Preserves (s₀.Keeps added) (push scope b >>= f) :=
  fun s keeps => next ⟨s.frames.size, scope.chain⟩ keeps.size _ (keeps.push scope b)

theorem keeps_newFunction (f : Closure) : Preserves (s₀.Keeps added) (newFunction f) :=
  preserves_bind (keeps_change fun _ => rfl) fun _ => preserves_succeed _

theorem keeps_bindMethod (method : Closure) (o : Object) :
    Preserves (s₀.Keeps added) (bindMethod method o) :=
  keeps_push_bind _ _ fun _ _ => preserves_succeed _

theorem keeps_getProperty (value : Value) (name : Name) :
    Preserves (s₀.Keeps added) (getProperty value name) := by
  cases value with
  | object o =>
    apply preserves_bind (fun _ keeps => keeps)
    intro field
    cases field with
    | some v => exact preserves_succeed v
    | none =>
      dsimp only
      cases o.cls.method? name with
      | some method => exact preserves_bind (keeps_bindMethod method o) keeps_newFunction
      | none => exact preserves_fail _
  | _ => exact preserves_fail _

theorem keeps_setProperty (owner : Value) (name : Name) (value : Value) :
    Preserves (s₀.Keeps added) (setProperty owner name value) := by
  cases owner with
  | object o => exact fun s keeps => keeps.of_frames_eq rfl
  | _ => exact preserves_fail _

theorem keeps_getSuperMethod (scope : Scope) (name : Name) :
    Preserves (s₀.Keeps added) (getSuperMethod scope name) := by
  apply preserves_bind (keeps_get scope superName)
  intro parent
  apply preserves_bind (keeps_get scope thisName)
  intro this
  split
  · rename_i c o
    cases c.method? name with
    | some method => exact preserves_bind (keeps_bindMethod method o) keeps_newFunction
    | none => exact preserves_fail _
  · exact preserves_fail _

theorem keeps_superclassOf (scope : Scope) (superclass : Option Name) :
    Preserves (s₀.Keeps added) (superclassOf scope superclass) := by
  cases superclass with
  | none => exact preserves_succeed none
  | some name =>
    apply preserves_bind (keeps_get scope name)
    intro v
    cases v with
    | cls c => exact preserves_succeed (some c)
    | _ => exact preserves_fail _

theorem keeps_methodScope (scope : Scope) (parent : Option Class) :
    Preserves (s₀.Keeps added) (methodScope scope parent) := by
  cases parent with
  | none => exact preserves_succeed scope
  | some c => exact fun s keeps => keeps.push scope _

theorem keeps_declareClass {scope : Scope} {decl : ClassDecl}
    (allowed : scope.frame < s₀.frames.size → added scope.frame decl.name) :
    Preserves (s₀.Keeps added) (declareClass scope decl) := by
  apply preserves_bind (keeps_superclassOf scope decl.superclass)
  intro parent
  apply preserves_bind (keeps_methodScope scope parent)
  intro inner
  apply preserves_bind (keeps_change fun _ => rfl)
  intro id
  exact keeps_define _ allowed

theorem keeps_checkArity (name : String) (arity : Arity) (args : List Value) :
    Preserves (s₀.Keeps added) (checkArity name arity args) :=
  preserves_ite (preserves_succeed ()) (preserves_fail _)

theorem keeps_callBuiltin (host : Host) (b : Builtin) (args : List Value) :
    Preserves (s₀.Keeps added) (callBuiltin host b args) :=
  preserves_bind (keeps_change fun _ => rfl) fun _ => preserves_ofExcept _

/-! ### Lists and loops -/

variable {P : Store → Prop}

theorem preserves_values {eval : Expr → Run Value} (h : ∀ e, Preserves P (eval e))
    (es : List Expr) : Preserves P (values eval es) := by
  induction es with
  | nil => exact preserves_succeed []
  | cons e es ih =>
    exact preserves_bind (h e) fun v => preserves_bind ih fun vs => preserves_succeed _

theorem preserves_statements {exec : Stmt → Run Flow} {stmts : List Stmt}
    (h : ∀ stmt ∈ stmts, Preserves P (exec stmt)) : Preserves P (statements exec stmts) := by
  induction stmts with
  | nil => exact preserves_succeed _
  | cons stmt stmts ih =>
    apply preserves_bind (h stmt (by simp))
    intro flow
    cases flow with
    | normal => exact ih fun stmt mem => h stmt (by simp [mem])
    | «return» v => exact preserves_succeed _

theorem preserves_loop {cond : Run Value} {body : Run Flow} (h : Preserves P cond)
    (h' : Preserves P body) (fuel : Nat) : Preserves P (loop cond body fuel) := by
  induction fuel with
  | zero => exact preserves_exhausted
  | succ fuel ih =>
    refine preserves_bind h fun c => preserves_ite ?_ (preserves_succeed _)
    apply preserves_bind h'
    intro flow
    cases flow with
    | normal => exact ih
    | «return» v => exact preserves_succeed _

end Run

open Run

/-! ### The evaluator -/

/-- With the given fuel, frames keep their names, but for those that a statement binds in its
scope. -/
structure KeepsNames (host : Host) (fuel : Nat) : Prop where
  expr : ∀ s₀ added scope e, Preserves (Store.Keeps added s₀) (evalExpr host fuel scope e)
  call : ∀ s₀ added callee args, Preserves (Store.Keeps added s₀) (call host fuel callee args)
  closure : ∀ s₀ added f args, Preserves (Store.Keeps added s₀) (callClosure host fuel f args)
  exec : ∀ s₀ added scope stmt,
    (scope.frame < s₀.frames.size → ∀ name ∈ stmt.boundNames, added scope.frame name) →
    Preserves (Store.Keeps added s₀) (exec host fuel scope stmt)

/-- Statements in a new frame bind nothing in the old ones. -/
theorem KeepsNames.body {host : Host} {fuel : Nat} (ih : KeepsNames host fuel) {s₀ : Store}
    {added : FrameId → Name → Prop} {inner : Scope} (fresh : s₀.frames.size ≤ inner.frame)
    (stmts : List Stmt) :
    Preserves (s₀.Keeps added) (statements (Lox.exec host fuel inner) stmts) :=
  preserves_statements fun stmt _ =>
    ih.exec s₀ added inner stmt fun lt => absurd lt (Nat.not_lt_of_le fresh)

theorem keepsNames (host : Host) (fuel : Nat) : KeepsNames host fuel := by
  induction fuel with
  | zero => constructor <;> intros <;> exact preserves_exhausted
  | succ fuel ih =>
    constructor
    case expr =>
      intro s₀ added scope e
      have sub := ih.expr s₀ added scope
      unfold evalExpr
      cases e with
      | var name => exact keeps_get scope name
      | unary op operand => exact preserves_bind (sub operand) fun _ => preserves_ofExcept _
      | binary op left right =>
        apply preserves_bind (sub left)
        intro _
        apply preserves_bind (sub right)
        intro _
        exact preserves_ofExcept _
      | logic op left right =>
        exact preserves_bind (sub left) fun l => preserves_ite (preserves_succeed l) (sub right)
      | group e => exact sub e
      | assign name value =>
        apply preserves_bind (sub value)
        intro v
        exact preserves_bind (keeps_assign scope name v) fun _ => preserves_succeed v
      | call callee args =>
        apply preserves_bind (sub callee)
        intro c
        exact preserves_bind (preserves_values sub args) fun vs => ih.call s₀ added c vs
      | get object name => exact preserves_bind (sub object) fun o => keeps_getProperty o name
      | set object name value =>
        apply preserves_bind (sub object)
        intro o
        apply preserves_bind (sub value)
        intro v
        exact preserves_bind (keeps_setProperty o name v) fun _ => preserves_succeed v
      | this => exact keeps_get scope thisName
      | super method => exact keeps_getSuperMethod scope method
      | _ => exact preserves_succeed _
    case call =>
      intro s₀ added callee args
      unfold call
      cases callee with
      | function id f =>
        exact preserves_bind (keeps_checkArity _ _ _) fun _ => ih.closure s₀ added f args
      | native f =>
        apply preserves_bind (keeps_checkArity _ _ _)
        intro _
        cases f.body with
        | builtin b => exact keeps_callBuiltin host b args
        | supplied index => exact preserves_ofExcept _
      | cls c =>
        apply preserves_bind (keeps_checkArity _ _ _)
        intro _
        apply preserves_bind (keeps_change fun _ => rfl)
        intro o
        cases c.method? initializerName with
        | none => exact preserves_succeed _
        | some init =>
          apply preserves_bind (keeps_bindMethod init o)
          intro bound
          exact preserves_bind (ih.closure s₀ added bound args) fun _ => preserves_succeed _
      | _ => exact preserves_fail _
    case closure =>
      intro s₀ added f args
      unfold callClosure
      apply keeps_push_bind _ _
      intro inner fresh
      apply preserves_bind (ih.body fresh f.decl.body)
      intro flow
      apply preserves_ite (keeps_get f.scope thisName)
      cases flow with
      | normal => exact preserves_succeed _
      | «return» v => exact preserves_succeed _
    case exec =>
      intro s₀ added scope stmt allowed
      have sub := ih.expr s₀ added scope
      unfold exec
      cases stmt with
      | nop => exact preserves_succeed _
      | expr e => exact preserves_bind (sub e) fun _ => preserves_succeed _
      | print e =>
        apply preserves_bind (sub e)
        intro v
        exact preserves_bind (keeps_printLine _) fun _ => preserves_succeed _
      | varDecl name init =>
        apply preserves_bind (sub init)
        intro v
        exact preserves_bind (keeps_define v fun lt => allowed lt name (by simp [Stmt.boundNames]))
          fun _ => preserves_succeed _
      | funDecl decl =>
        apply preserves_bind (keeps_newFunction _)
        intro f
        exact preserves_bind
          (keeps_define f fun lt => allowed lt decl.name (by simp [Stmt.boundNames]))
          fun _ => preserves_succeed _
      | classDecl decl =>
        exact preserves_bind
          (keeps_declareClass fun lt => allowed lt decl.name (by simp [Stmt.boundNames]))
          fun _ => preserves_succeed _
      | block body => exact keeps_push_bind _ _ fun inner fresh => ih.body fresh body
      | ite cond thenBranch elseBranch =>
        refine preserves_bind (sub cond) fun c => preserves_ite ?_ ?_
        · exact ih.exec s₀ added scope thenBranch fun lt name mem =>
            allowed lt name (by simp [Stmt.boundNames, mem])
        · exact ih.exec s₀ added scope elseBranch fun lt name mem =>
            allowed lt name (by simp [Stmt.boundNames, mem])
      | «while» cond body =>
        exact preserves_loop (sub cond) (ih.exec s₀ added scope body allowed) fuel
      | «for» init cond incr body =>
        apply ih.exec s₀ added scope _
        intro _ name mem
        rw [Stmt.boundNames_ofFor] at mem
        cases mem
      | «return» e => exact preserves_bind (sub e) fun _ => preserves_succeed _

/-- Evaluating an expression binds no name in the frames that were there before. -/
theorem ensures_keeps_evalExpr (host : Host) (fuel : Nat) (scope : Scope) (e : Expr) (s : Store) :
    Ensures s (evalExpr host fuel scope e) (fun _ s' => s.Keeps Store.nothing s')
      (fun _ s' => s.Keeps Store.nothing s') :=
  (keepsNames host fuel).expr s Store.nothing scope e s (.refl s)

/-- Executing a statement binds names in the frame of its scope only, and only names it declares. -/
theorem ensures_keeps_exec (host : Host) (fuel : Nat) (scope : Scope) (stmt : Stmt) (s : Store) :
    Ensures s (exec host fuel scope stmt)
      (fun _ s' => s.Keeps (fun f name => f = scope.frame ∧ name ∈ stmt.boundNames) s')
      (fun _ s' => s.Keeps (fun f name => f = scope.frame ∧ name ∈ stmt.boundNames) s') :=
  (keepsNames host fuel).exec s _ scope stmt (fun _ _ mem => ⟨rfl, mem⟩) s (.refl s)

/-! ### What a run declares -/

namespace Store

/-- From one store to a later one: every frame of the first binds the same names in the second. -/
def SameNames (s s' : Store) : Prop :=
  ∀ f < s.frames.size, ∀ name, (s'.frame f).contains name = (s.frame f).contains name

/-- From one store to a later one: the frame of a scope keeps its names and gains at most the given
ones, and every other frame of the first binds the same names in the second. -/
structure Declares (scope : Scope) (names : List Name) (s s' : Store) : Prop where
  kept : scope.frame < s.frames.size → ∀ name,
    (s.frame scope.frame).contains name = true → (s'.frame scope.frame).contains name = true
  added : scope.frame < s.frames.size → ∀ name,
    (s'.frame scope.frame).contains name = true →
      (s.frame scope.frame).contains name = true ∨ name ∈ names
  others : ∀ f < s.frames.size, f ≠ scope.frame → ∀ name,
    (s'.frame f).contains name = (s.frame f).contains name

variable {added : FrameId → Name → Prop} {s s' : Store}

theorem Keeps.contains_eq (h : s.Keeps added s') {f : FrameId} (lt : f < s.frames.size)
    {name : Name} (notAdded : ¬ added f name) :
    (s'.frame f).contains name = (s.frame f).contains name := by
  rw [Bool.eq_iff_iff]
  constructor
  · intro bound
    rcases h.only f lt name bound with before | added
    · exact before
    · exact absurd added notAdded
  · exact h.kept f lt name

theorem Keeps.sameNames (h : s.Keeps nothing s') : s.SameNames s' :=
  fun _ lt _ => h.contains_eq lt fun added => added

theorem Keeps.declares {scope : Scope} {names : List Name}
    (h : s.Keeps (fun f name => f = scope.frame ∧ name ∈ names) s') :
    s.Declares scope names s' where
  kept lt := h.kept scope.frame lt
  added lt name bound := (h.only scope.frame lt name bound).imp_right And.right
  others _ lt ne _ := h.contains_eq lt fun added => ne added.1

end Store

/-- However an evaluation ends: that of an expression leaves the names of all frames as they are,
and that of a statement adds to the frame of its scope some of the names it declares, takes none
away, and leaves the names of all other frames as they are. -/
theorem ensures_declares (host : Host) (fuel : Nat) (scope : Scope) (s : Store) :
    (∀ e, Ensures s (evalExpr host fuel scope e) (fun _ s' => s.SameNames s')
      (fun _ s' => s.SameNames s')) ∧
    ∀ stmt, Ensures s (exec host fuel scope stmt)
      (fun _ s' => s.Declares scope stmt.boundNames s')
      (fun _ s' => s.Declares scope stmt.boundNames s') :=
  ⟨fun e => (ensures_keeps_evalExpr host fuel scope e s).mono (fun _ _ h => h.sameNames)
      fun _ _ h => h.sameNames,
    fun stmt => (ensures_keeps_exec host fuel scope stmt s).mono (fun _ _ h => h.declares)
      fun _ _ h => h.declares⟩

end Lox
