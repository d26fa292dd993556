import Lox.Eval
import Lox.Proofs.Eval.Ensures

/-!
The works of the evaluator, and the moments at which they begin.

Each call of a function of the evaluator is a work. What a work does by itself, and which works it
begins on the way, is written down as a plan: a plan acts on the store, or has a work done and goes
on with what that gives. Carrying out its plan is the same as doing the work (`Work.run_eq_plan`), so
that the plans tell at which moments works begin while others are done (`Work.Visits`): a statement
about every moment of a run is one about the works that it visits.
-/

namespace Lox

open Run

/-! ### Works -/

/-- A piece of work of the evaluator, with the fuel that there is for it. -/
inductive Work where
  /-- Evaluate an expression. -/
  | expr (fuel : Nat) (scope : Scope) (e : Expr)
  /-- Evaluate the arguments of a call. -/
  | values (fuel : Nat) (scope : Scope) (es : List Expr)
  /-- Call a value. -/
  | call (fuel : Nat) (callee : Value) (args : List Value)
  /-- Bind the parameters of a function and run its body. -/
  | closure (fuel : Nat) (f : Closure) (args : List Value)
  /-- Execute a statement. -/
  | exec (fuel : Nat) (scope : Scope) (stmt : Stmt)
  /-- Execute statements in order. -/
  | block (fuel : Nat) (scope : Scope) (stmts : List Stmt)
  /-- Go on with a loop, for a number of rounds at most. -/
  | loop (fuel rounds : Nat) (scope : Scope) (cond : Expr) (body : Stmt)
  /-- Execute the statements of a program. -/
  | program (fuel : Nat) (scope : Scope) (last : Value) (stmts : List Stmt)

namespace Work

/-- What a work gives. -/
@[reducible] def Result : Work → Type
  | .expr _ _ _ | .call _ _ _ | .closure _ _ _ | .program _ _ _ _ => Value
  | .values _ _ _ => List Value
  | .exec _ _ _ | .block _ _ _ | .loop _ _ _ _ _ => Flow

/-- Do the work. -/
def run (host : Host) : (w : Work) → Run w.Result
  | .expr fuel scope e => evalExpr host fuel scope e
  | .values fuel scope es => Run.values (evalExpr host fuel scope) es
  | .call fuel callee args => Lox.call host fuel callee args
  | .closure fuel f args => callClosure host fuel f args
  | .exec fuel scope stmt => Lox.exec host fuel scope stmt
  | .block fuel scope stmts => statements (Lox.exec host fuel scope) stmts
  | .loop fuel rounds scope cond body =>
    Run.loop (evalExpr host fuel scope cond) (Lox.exec host fuel scope body) rounds
  | .program fuel scope last stmts => execProgram host fuel scope last stmts

end Work

/-! ### Plans -/

/-- What there is to do: nothing more, or something on the store, or a work, and then the rest. -/
inductive Plan (α : Type) : Type 1 where
  | done (a : α)
  | act {β : Type} (x : Run β) (next : β → Plan α)
  | work (w : Work) (next : w.Result → Plan α)

/-- Carry out a plan. -/
def Plan.run {α : Type} (host : Host) : Plan α → Run α
  | .done a => succeed a
  | .act x next => x >>= fun b => (next b).run host
  | .work w next => w.run host >>= fun r => (next r).run host

/-- How an expression is evaluated, with the fuel for the expressions in it. -/
def Expr.plan (fuel : Nat) (scope : Scope) : Expr → Plan Value
  | .nil => .done .nil
  | .number x => .done (.number x.toFloat)
  | .bool b => .done (.bool b)
  | .string s => .done (.string s)
  | .var name => .act (Run.get scope name) .done
  | .unary op operand =>
    .work (.expr fuel scope operand) fun v =>
    .act (ofExcept (op.apply v)) .done
  | .binary op left right =>
    .work (.expr fuel scope left) fun l =>
    .work (.expr fuel scope right) fun r =>
    .act (ofExcept (op.apply l r)) .done
  | .logic op left right =>
    .work (.expr fuel scope left) fun l =>
    if op.stopsAt l then .done l else .work (.expr fuel scope right) .done
  | .group e => .work (.expr fuel scope e) .done
  | .assign name value =>
    .work (.expr fuel scope value) fun v =>
    .act (Run.assign scope name v) fun _ =>
    .done v
  | .call callee args =>
    .work (.expr fuel scope callee) fun c =>
    .work (.values fuel scope args) fun vs =>
    .work (.call fuel c vs) .done
  | .get object name =>
    .work (.expr fuel scope object) fun o =>
    .act (getProperty o name) .done
  | .set object name value =>
    .work (.expr fuel scope object) fun o =>
    .work (.expr fuel scope value) fun v =>
    .act (setProperty o name v) fun _ =>
    .done v
  | .this => .act (Run.get scope thisName) .done
  | .super method => .act (getSuperMethod scope method) .done

/-- How a value is called. -/
def Value.callPlan (host : Host) (fuel : Nat) (args : List Value) : Value → Plan Value
  | .function _ f =>
    .act (checkArity f.decl.name f.arity args) fun _ =>
    .work (.closure fuel f args) .done
  | .native f =>
    .act (checkArity f.name f.arity args) fun _ =>
    match f.body with
    | .builtin b => .act (callBuiltin host b args) .done
    | .supplied index => .act (ofExcept (host.supplied index args)) .done
  | .cls c =>
    .act (checkArity c.name (c.arity initializerName) args) fun _ =>
    .act (change (·.newObject c)) fun o =>
    match c.method? initializerName with
    | some method =>
      .act (bindMethod method o) fun bound =>
      .work (.closure fuel bound args) fun _ =>
      .done (.object o)
    | none => .done (.object o)
  | v => .act (fail (.notCallable v.kind)) .done

/-- How a function that has been called runs. -/
def Closure.plan (fuel : Nat) (f : Closure) (args : List Value) : Plan Value :=
  .act (push f.scope (.ofList (f.decl.params.zip args))) fun frame =>
  .work (.block fuel frame f.decl.body) fun flow =>
  if f.isInitializer then .act (get f.scope thisName) .done
  else
    match flow with
    | .normal => .done .nil
    | .return v => .done v

/-- How a statement is executed. -/
def Stmt.plan (fuel : Nat) (scope : Scope) : Stmt → Plan Flow
  | .nop => .done .normal
  | .expr e => .work (.expr fuel scope e) fun _ => .done .normal
  | .print e =>
    .work (.expr fuel scope e) fun v =>
    .act (printLine v.text) fun _ =>
    .done .normal
  | .varDecl name init =>
    .work (.expr fuel scope init) fun v =>
    .act (define scope name v) fun _ =>
    .done .normal
  | .funDecl decl =>
    .act (newFunction ⟨decl, scope, false⟩) fun f =>
    .act (define scope decl.name f) fun _ =>
    .done .normal
  | .classDecl decl => .act (declareClass scope decl) fun _ => .done .normal
  | .block body => .act (push scope []) fun inner => .work (.block fuel inner body) .done
  | .ite cond thenBranch elseBranch =>
    .work (.expr fuel scope cond) fun c =>
    if c.isTruthy then .work (.exec fuel scope thenBranch) .done
    else .work (.exec fuel scope elseBranch) .done
  | .while cond body => .work (.loop fuel fuel scope cond body) .done
  | .for init cond incr body =>
    .work (.exec fuel scope (.ofFor init cond incr body.desugar)) .done
  | .return value => .work (.expr fuel scope value) fun v => .done (.return v)

/-- One more round of a loop. -/
def Stmt.roundPlan (fuel rounds : Nat) (scope : Scope) (cond : Expr) (body : Stmt) : Plan Flow :=
  .work (.expr fuel scope cond) fun c =>
  if c.isTruthy then
    .work (.exec fuel scope body) fun flow =>
    match flow with
    | .normal => .work (.loop fuel rounds scope cond body) .done
    | .return v => .done (.return v)
  else .done .normal

/-- How a program goes on behind one of its statements. -/
def Stmt.programPlan (fuel : Nat) (scope : Scope) (rest : List Stmt) : Stmt → Plan Value
  | .expr e => .work (.expr fuel scope e) fun v => .work (.program fuel scope v rest) .done
  | stmt =>
    .work (.exec fuel scope stmt) fun flow =>
    match flow with
    | .normal => .work (.program fuel scope .nil rest) .done
    | .return _ => .act (fail .returnOutsideFunction) .done

/-- How a work is done. -/
def Work.plan (host : Host) : (w : Work) → Plan w.Result
  | .expr 0 _ _ => .act exhausted .done
  | .expr (fuel + 1) scope e => e.plan fuel scope
  | .values _ _ [] => .done []
  | .values fuel scope (e :: rest) =>
    .work (.expr fuel scope e) fun v =>
    .work (.values fuel scope rest) fun vs =>
    .done (v :: vs)
  | .call 0 _ _ => .act exhausted .done
  | .call (fuel + 1) callee args => callee.callPlan host fuel args
  | .closure 0 _ _ => .act exhausted .done
  | .closure (fuel + 1) f args => f.plan fuel args
  | .exec 0 _ _ => .act exhausted .done
  | .exec (fuel + 1) scope stmt => stmt.plan fuel scope
  | .block _ _ [] => .done .normal
  | .block fuel scope (stmt :: rest) =>
    .work (.exec fuel scope stmt) fun flow =>
    match flow with
    | .normal => .work (.block fuel scope rest) .done
    | .return v => .done (.return v)
  | .loop _ 0 _ _ _ => .act exhausted .done
  | .loop fuel (rounds + 1) scope cond body => Stmt.roundPlan fuel rounds scope cond body
  | .program _ _ last [] => .done last
  | .program fuel scope _ (stmt :: rest) => stmt.programPlan fuel scope rest

/-! ### Doing a work is carrying out its plan -/

namespace Run

variable {α β : Type}

@[simp] theorem bind_succeed (x : Run α) : (x >>= succeed) = x := by
  funext s
  change andThen x succeed s = x s
  unfold andThen
  cases x s <;> rfl

/-- What comes next may be put differently. -/
theorem bind_same {x : Run α} {f g : α → Run β} (same : ∀ a, f a = g a) : x >>= f = x >>= g :=
  congrArg (x >>= ·) (funext same)

end Run

section

variable (host : Host) (fuel : Nat) (scope : Scope)

theorem Expr.run_eq_plan (e : Expr) :
    evalExpr host (fuel + 1) scope e = (e.plan fuel scope).run host := by
  unfold evalExpr
  cases e with dsimp only
  | logic op left right =>
    refine bind_same fun l => ?_
    dsimp only
    split
    · rfl
    · exact (bind_succeed _).symm
  | call callee args => exact bind_same fun c => bind_same fun vs => (bind_succeed _).symm
  | get object name => exact bind_same fun o => (bind_succeed _).symm
  | unary op operand => exact bind_same fun v => (bind_succeed _).symm
  | binary op left right => exact bind_same fun l => bind_same fun r => (bind_succeed _).symm
  | var | group | this | super => exact (bind_succeed _).symm
  | _ => rfl

theorem Value.run_eq_plan (callee : Value) (args : List Value) :
    Lox.call host (fuel + 1) callee args = (callee.callPlan host fuel args).run host := by
  unfold Lox.call
  cases callee with dsimp only
  | function id f => exact bind_same fun _ => (bind_succeed _).symm
  | native f =>
    refine bind_same fun _ => ?_
    dsimp only
    cases f.body <;> exact (bind_succeed _).symm
  | cls c =>
    refine bind_same fun _ => bind_same fun o => ?_
    dsimp only
    cases c.method? initializerName <;> rfl
  | _ => rfl

theorem Closure.run_eq_plan (f : Closure) (args : List Value) :
    callClosure host (fuel + 1) f args = (f.plan fuel args).run host := by
  unfold callClosure
  refine bind_same fun frame => bind_same fun flow => ?_
  dsimp only
  split
  · exact (bind_succeed _).symm
  · cases flow <;> rfl

theorem Stmt.run_eq_plan (stmt : Stmt) :
    exec host (fuel + 1) scope stmt = (stmt.plan fuel scope).run host := by
  unfold exec
  cases stmt with dsimp only
  | block body => exact bind_same fun inner => (bind_succeed _).symm
  | ite cond thenBranch elseBranch =>
    refine bind_same fun c => ?_
    dsimp only
    split <;> exact (bind_succeed _).symm
  | «while» | «for» => exact (bind_succeed _).symm
  | _ => rfl

theorem Stmt.run_eq_programPlan (last : Value) (stmt : Stmt) (rest : List Stmt) :
    execProgram host fuel scope last (stmt :: rest) =
      (stmt.programPlan fuel scope rest).run host := by
  unfold execProgram
  cases stmt with
  | expr e => exact bind_same fun v => (bind_succeed _).symm
  | _ =>
    refine bind_same fun flow => ?_
    cases flow with
    | normal => exact (bind_succeed _).symm
    | «return» v => rfl

end

/-- A plan leaves nothing out and adds nothing. -/
theorem Work.run_eq_plan (host : Host) (w : Work) : w.run host = (w.plan host).run host := by
  cases w with
  | expr fuel scope e =>
    cases fuel with
    | zero => rfl
    | succ fuel => exact e.run_eq_plan host fuel scope
  | values fuel scope es => cases es <;> rfl
  | call fuel callee args =>
    cases fuel with
    | zero => rfl
    | succ fuel => exact callee.run_eq_plan host fuel args
  | closure fuel f args =>
    cases fuel with
    | zero => rfl
    | succ fuel => exact f.run_eq_plan host fuel args
  | exec fuel scope stmt =>
    cases fuel with
    | zero => rfl
    | succ fuel => exact stmt.run_eq_plan host fuel scope
  | block fuel scope stmts =>
    cases stmts with
    | nil => rfl
    | cons stmt rest =>
      refine bind_same fun flow => ?_
      cases flow with
      | normal => exact (bind_succeed _).symm
      | «return» v => rfl
  | loop fuel rounds scope cond body =>
    cases rounds with
    | zero => rfl
    | succ rounds =>
      refine bind_same fun c => ?_
      dsimp only
      split
      · refine bind_same fun flow => ?_
        cases flow with
        | normal => exact (bind_succeed _).symm
        | «return» v => rfl
      · rfl
  | program fuel scope last stmts =>
    cases stmts with
    | nil => rfl
    | cons stmt rest => exact stmt.run_eq_programPlan host fuel scope last rest

/-! ### Moments -/

section

variable (host : Host)

/-- While the plan is carried out from a store, the work is begun, from another store. -/
inductive Plan.Begins {α : Type} : Plan α → Store → Work → Store → Prop where
  | now {w next s} : Begins (.work w next) s w s
  | later {w next s r s' w' s''} : w.run host s = .ok r s' → Begins (next r) s' w' s'' →
      Begins (.work w next) s w' s''
  | act {β : Type} {x : Run β} {next s b s' w s''} : x s = .ok b s' → Begins (next b) s' w s'' →
      Begins (.act x next) s w s''

/-- The moment at which the second work begins is one of doing the first work. -/
inductive Work.Visits : Work → Store → Work → Store → Prop where
  | self {w s} : Visits w s w s
  | inner {w s w₁ s₁ w₂ s₂} : (w.plan host).Begins host s w₁ s₁ → Visits w₁ s₁ w₂ s₂ →
      Visits w s w₂ s₂

end

theorem Work.Visits.trans {host : Host} {w w₁ w₂ : Work} {s s₁ s₂ : Store}
    (h : w.Visits host s w₁ s₁) (h' : w₁.Visits host s₁ w₂ s₂) : w.Visits host s w₂ s₂ := by
  induction h with
  | self => exact h'
  | inner begins _ ih => exact .inner begins (ih h')

/-- The work that a plan begins after a number of others, with the store it is begun from. -/
def Plan.begun? {α : Type} (host : Host) : Plan α → Store → Nat → Option (Work × Store)
  | .done _, _, _ => none
  | .act x next, s, n =>
    match x s with
    | .ok b s => (next b).begun? host s n
    | _ => none
  | .work w _, s, 0 => some (w, s)
  | .work w next, s, n + 1 =>
    match w.run host s with
    | .ok r s => (next r).begun? host s n
    | _ => none

/-- The moment that a path leads to: a number says with which of the works that are begun it goes
on. -/
def Work.visit? (host : Host) (w : Work) (s : Store) : List Nat → Option (Work × Store)
  | [] => some (w, s)
  | n :: path => ((w.plan host).begun? host s n).bind fun m => m.1.visit? host m.2 path

theorem Plan.begins_iff {α : Type} {host : Host} {p : Plan α} {s s' : Store} {w : Work} :
    p.Begins host s w s' ↔ ∃ n, p.begun? host s n = some (w, s') := by
  constructor
  · intro begins
    induction begins with
    | now => exact ⟨0, rfl⟩
    | later result _ ih =>
      obtain ⟨n, found⟩ := ih
      refine ⟨n + 1, ?_⟩
      unfold begun?
      rw [result]
      exact found
    | act result _ ih =>
      obtain ⟨n, found⟩ := ih
      refine ⟨n, ?_⟩
      unfold begun?
      rw [result]
      exact found
  · rintro ⟨n, found⟩
    induction p generalizing s n with
    | done a => cases found
    | act x next ih =>
      unfold begun? at found
      cases result : x s with
      | ok b t =>
        rw [result] at found
        exact .act result (ih b n found)
      | _ =>
        rw [result] at found
        cases found
    | work v next ih =>
      cases n with
      | zero =>
        cases found
        exact .now
      | succ n =>
        unfold begun? at found
        cases result : v.run host s with
        | ok r t =>
          rw [result] at found
          exact .later result (ih r n found)
        | _ =>
          rw [result] at found
          cases found

/-- The moments of a work are those that paths lead to. -/
theorem Work.visits_iff {host : Host} {w w' : Work} {s s' : Store} :
    w.Visits host s w' s' ↔ ∃ path, w.visit? host s path = some (w', s') := by
  constructor
  · intro visits
    induction visits with
    | self => exact ⟨[], rfl⟩
    | inner begins _ ih =>
      obtain ⟨path, leads⟩ := ih
      obtain ⟨n, found⟩ := Plan.begins_iff.mp begins
      exact ⟨n :: path, by rw [visit?, found]; exact leads⟩
  · rintro ⟨path, leads⟩
    induction path generalizing w s with
    | nil =>
      cases leads
      exact .self
    | cons n path ih =>
      obtain ⟨⟨v, t⟩, found, leads⟩ := Option.bind_eq_some_iff.mp leads
      exact .inner (Plan.begins_iff.mpr ⟨n, found⟩) (ih leads)

/-! ### Works get smaller -/

/-- All works that a plan may have done have the property. -/
def Plan.All {α : Type} (P : Work → Prop) : Plan α → Prop
  | .done _ => True
  | .act _ next => ∀ b, (next b).All P
  | .work w next => P w ∧ ∀ r, (next r).All P

/-- Fuel gets less from work to work, except where a list or a loop is gone through. -/
def Work.rank : Work → Nat × Nat
  | .expr fuel _ _ | .call fuel _ _ | .closure fuel _ _ | .exec fuel _ _ => (fuel, 0)
  | .values fuel _ es => (fuel, es.length + 1)
  | .block fuel _ stmts => (fuel, stmts.length + 1)
  | .loop fuel rounds _ _ _ => (fuel, rounds + 1)
  | .program fuel _ _ stmts => (fuel, stmts.length + 1)

/-- One work comes before another one in the order of their ranks. -/
def Work.Below (w w' : Work) : Prop := Prod.Lex (· < ·) (· < ·) w.rank w'.rank

theorem Work.below_of_fuel {w w' : Work} (h : w.rank.1 < w'.rank.1) : w.Below w' :=
  Prod.lex_def.mpr (.inl h)

theorem Work.below_of_length {w w' : Work} (same : w.rank.1 = w'.rank.1)
    (h : w.rank.2 < w'.rank.2) : w.Below w' :=
  Prod.lex_def.mpr (.inr ⟨same, h⟩)

theorem Work.wellFounded_below : WellFounded Work.Below :=
  InvImage.wf Work.rank (Prod.lex Nat.lt_wfRel Nat.lt_wfRel).wf

theorem Plan.All.mono {α : Type} {P Q : Work → Prop} (weaker : ∀ w, P w → Q w) {p : Plan α}
    (h : p.All P) : p.All Q := by
  induction p with
  | done a => trivial
  | act x next ih => exact fun b => ih b (h b)
  | work w next ih => exact ⟨weaker w h.1, fun r => ih r (h.2 r)⟩

section

variable (fuel : Nat) (scope : Scope)

theorem Expr.all_plan (e : Expr) : (e.plan fuel scope).All (·.rank.1 = fuel) := by
  cases e with
  | logic op left right =>
    refine ⟨rfl, fun l => ?_⟩
    dsimp only
    split
    · trivial
    · exact ⟨rfl, fun _ => trivial⟩
  | _ => simp [Expr.plan, Plan.All, Work.rank]

theorem Value.all_callPlan (host : Host) (args : List Value) (callee : Value) :
    (callee.callPlan host fuel args).All (·.rank.1 = fuel) := by
  cases callee with
  | native f =>
    intro _
    dsimp only
    cases f.body <;> exact fun _ => trivial
  | cls c =>
    intro _ o
    dsimp only
    cases c.method? initializerName with
    | some method => exact fun bound => ⟨rfl, fun _ => trivial⟩
    | none => trivial
  | _ => simp [Value.callPlan, Plan.All, Work.rank]

theorem Closure.all_plan (f : Closure) (args : List Value) :
    (f.plan fuel args).All (·.rank.1 = fuel) := by
  refine fun frame => ⟨rfl, fun flow => ?_⟩
  dsimp only
  split
  · exact fun _ => trivial
  · cases flow <;> trivial

theorem Stmt.all_plan (stmt : Stmt) : (stmt.plan fuel scope).All (·.rank.1 = fuel) := by
  cases stmt with
  | ite cond thenBranch elseBranch =>
    refine ⟨rfl, fun c => ?_⟩
    dsimp only
    split <;> exact ⟨rfl, fun _ => trivial⟩
  | _ => simp [Stmt.plan, Plan.All, Work.rank]

theorem Stmt.all_roundPlan (rounds : Nat) (cond : Expr) (body : Stmt) :
    (roundPlan fuel rounds scope cond body).All
      (·.Below (.loop fuel (rounds + 1) scope cond body)) := by
  have shorter : ∀ {w : Work}, w.rank.1 = fuel → w.rank.2 < rounds + 2 →
      w.Below (.loop fuel (rounds + 1) scope cond body) :=
    fun same less => Work.below_of_length same less
  refine ⟨shorter rfl (Nat.succ_pos _), fun c => ?_⟩
  dsimp only
  split
  · refine ⟨shorter rfl (Nat.succ_pos _), fun flow => ?_⟩
    cases flow with
    | normal => exact ⟨shorter rfl (Nat.lt_succ_self _), fun _ => trivial⟩
    | «return» v => trivial
  · trivial

theorem Stmt.all_programPlan (last : Value) (stmt : Stmt) (rest : List Stmt) :
    (stmt.programPlan fuel scope rest).All (·.Below (.program fuel scope last (stmt :: rest))) := by
  have shorter : ∀ {w : Work}, w.rank.1 = fuel → w.rank.2 < rest.length + 2 →
      w.Below (.program fuel scope last (stmt :: rest)) :=
    fun same less => Work.below_of_length same less
  cases stmt with
  | expr e =>
    exact ⟨shorter rfl (Nat.succ_pos _), fun v =>
      ⟨shorter rfl (Nat.lt_succ_self _), fun _ => trivial⟩⟩
  | _ =>
    refine ⟨shorter rfl (Nat.succ_pos _), fun flow => ?_⟩
    cases flow with
    | normal => exact ⟨shorter rfl (Nat.lt_succ_self _), fun _ => trivial⟩
    | «return» v => exact fun _ => trivial

end

/-- The works that a plan has done are below the one it is the plan of. -/
theorem Work.all_plan (host : Host) (w : Work) : (w.plan host).All (·.Below w) := by
  have down : ∀ {fuel : Nat} {w : Work}, w.rank.1 = fuel + 1 → ∀ w' : Work, w'.rank.1 = fuel →
      w'.Below w :=
    fun high w' low => Work.below_of_fuel (by omega)
  cases w with
  | expr fuel scope e =>
    cases fuel with
    | zero => exact fun _ => trivial
    | succ fuel => exact (e.all_plan fuel scope).mono (down rfl)
  | call fuel callee args =>
    cases fuel with
    | zero => exact fun _ => trivial
    | succ fuel => exact (callee.all_callPlan fuel host args).mono (down rfl)
  | closure fuel f args =>
    cases fuel with
    | zero => exact fun _ => trivial
    | succ fuel => exact (f.all_plan fuel args).mono (down rfl)
  | exec fuel scope stmt =>
    cases fuel with
    | zero => exact fun _ => trivial
    | succ fuel => exact (stmt.all_plan fuel scope).mono (down rfl)
  | values fuel scope es =>
    cases es with
    | nil => trivial
    | cons e rest =>
      exact ⟨Work.below_of_length rfl (Nat.succ_pos _), fun v =>
        ⟨Work.below_of_length rfl (Nat.lt_succ_self _), fun vs => trivial⟩⟩
  | block fuel scope stmts =>
    cases stmts with
    | nil => trivial
    | cons stmt rest =>
      refine ⟨Work.below_of_length rfl (Nat.succ_pos _), fun flow => ?_⟩
      cases flow with
      | normal => exact ⟨Work.below_of_length rfl (Nat.lt_succ_self _), fun _ => trivial⟩
      | «return» v => trivial
  | loop fuel rounds scope cond body =>
    cases rounds with
    | zero => exact fun _ => trivial
    | succ rounds => exact Stmt.all_roundPlan fuel scope rounds cond body
  | program fuel scope last stmts =>
    cases stmts with
    | nil => trivial
    | cons stmt rest => exact stmt.all_programPlan fuel scope last rest

end Lox
