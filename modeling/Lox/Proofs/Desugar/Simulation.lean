import Lox.Eval
import Lox.Proofs.Desugar.Alike

/-!
Alike programs run alike.

`Sim Q x y` says that, from alike stores, whenever the computation `x` ends, `y` ends in the same
way, with results related by `Q` and again with alike stores. Every operation simulates itself; what
is left is the case of a loop on one side and what it stands for on the other. The side of the loop
takes one call more to get to the same point, so it is given twice the fuel. The main statement is
`simulates`.
-/

namespace Lox

open List (Forall₂)

/-- Completions with alike values. -/
inductive Flow.Alike : Flow → Flow → Prop where
  | normal : Alike .normal .normal
  | return {v v' : Value} : v.Alike v' → Alike (.return v) (.return v')

/-- If the first computation came to an end, the second ended in the same way. -/
inductive Outcome.Follows {α β : Type} (Q : α → β → Prop) :
    Outcome RuntimeError Store α → Outcome RuntimeError Store β → Prop where
  | ok {a b s s'} : Q a b → s.Alike s' → Follows Q (.ok a s) (.ok b s')
  | error {e s s'} : s.Alike s' → Follows Q (.error e s) (.error e s')
  | outOfFuel {r} : Follows Q .outOfFuel r

/-- The functions supplied to programs cannot tell alike values apart. -/
def Host.BodyBlind (host : Host) : Prop :=
  ∀ index args args', Forall₂ Value.Alike args args' →
    (∃ v v', host.supplied index args = .ok v ∧ host.supplied index args' = .ok v' ∧ v.Alike v') ∨
    ∃ e, host.supplied index args = .error e ∧ host.supplied index args' = .error e

namespace Run

open Outcome (Follows)

/-- From alike stores the second computation does what the first does. -/
def Sim {α β : Type} (Q : α → β → Prop) (x : Run α) (y : Run β) : Prop :=
  ∀ s s', s.Alike s' → Follows Q (x s) (y s')

/-! ### How computations are put together -/

section

variable {α β γ δ : Type} {Q : α → β → Prop} {R : γ → δ → Prop}

theorem sim_succeed {a : α} {b : β} (h : Q a b) : Sim Q (succeed a) (succeed b) :=
  fun _ _ alike => .ok h alike

theorem sim_fail (e : RuntimeError) : Sim Q (fail e) (fail e) := fun _ _ alike => .error alike

theorem sim_exhausted (y : Run β) : Sim Q exhausted y := fun _ _ _ => .outOfFuel

theorem sim_bind {x : Run α} {y : Run β} {f : α → Run γ} {g : β → Run δ} (first : Sim Q x y)
    (next : ∀ a b, Q a b → Sim R (f a) (g b)) : Sim R (x >>= f) (y >>= g) := by
  intro s s' alike
  have ends := first s s' alike
  change Follows R (andThen x f s) (andThen y g s')
  unfold andThen
  generalize x s = r at ends
  generalize y s' = r' at ends
  cases ends with
  | ok related alike => exact next _ _ related _ _ alike
  | error alike => exact .error alike
  | outOfFuel => exact .outOfFuel

theorem sim_ofExcept {x : Except RuntimeError α} {y : Except RuntimeError β}
    (h : (∃ a b, x = .ok a ∧ y = .ok b ∧ Q a b) ∨ ∃ e, x = .error e ∧ y = .error e) :
    Sim Q (ofExcept x) (ofExcept y) := by
  rcases h with ⟨a, b, rfl, rfl, related⟩ | ⟨e, rfl, rfl⟩
  · exact sim_succeed related
  · exact sim_fail e

/-- The same check on both sides has the same result. -/
theorem sim_ofExcept_same {x : Except RuntimeError Value} :
    Sim Value.Alike (ofExcept x) (ofExcept x) := by
  cases x with
  | ok v => exact sim_succeed (.refl v)
  | error e => exact sim_fail e

theorem sim_change {f g : Store → α × Store} {Q : α → α → Prop}
    (h : ∀ s s', s.Alike s' → Q (f s).1 (g s').1 ∧ (f s).2.Alike (g s').2) :
    Sim Q (change f) (change g) :=
  fun s s' alike => .ok (h s s' alike).1 (h s s' alike).2

end

/-! ### Names and frames -/

section

variable {v v' : Value} {f f' : Closure} {o o' : Object}

theorem sim_get (scope : Scope) (name : Name) :
    Sim Value.Alike (get scope name) (get scope name) := by
  intro s s' alike
  unfold get Store.get
  rcases rel_cases (alike.lookup? name scope.chain) with ⟨found, found'⟩ | ⟨v, v', found, found', h⟩
  · rw [found, found']
    exact .error alike
  · rw [found, found']
    exact .ok h alike

theorem sim_assign (scope : Scope) (name : Name) (h : v.Alike v') :
    Sim Eq (assign scope name v) (assign scope name v') := by
  intro s s' alike
  unfold assign Store.assign
  rw [alike.binder? name scope.chain]
  cases s'.binder? name scope.chain with
  | none => exact .error alike
  | some f => exact .ok rfl (alike.bind h f name)

theorem sim_define (scope : Scope) (name : Name) (h : v.Alike v') :
    Sim Eq (define scope name v) (define scope name v') := by
  intro s s' alike
  unfold define Store.define
  rw [(alike.frame scope.frame).contains name]
  split
  · exact .error alike
  · exact .ok rfl (alike.bind h scope.frame name)

theorem sim_push {b b' : Bindings} (scope : Scope) (h : b.Alike b') :
    Sim Eq (push scope b) (push scope b') :=
  sim_change fun _ _ alike => alike.push h scope

theorem sim_freshId : Sim Eq (change Store.freshId) (change Store.freshId) :=
  sim_change fun _ _ alike => ⟨alike.nextId, alike.frameCount, alike.frame, alike.fieldCount,
    alike.fields, congrArg (· + 1) alike.nextId, alike.moment, alike.output⟩

theorem sim_passMoment : Sim Eq (change Store.passMoment) (change Store.passMoment) :=
  sim_change fun _ _ alike => ⟨alike.moment, alike.frameCount, alike.frame, alike.fieldCount,
    alike.fields, alike.nextId, congrArg (· + 1) alike.moment, alike.output⟩

theorem sim_printLine (text : String) : Sim Eq (printLine text) (printLine text) := by
  intro s s' alike
  have written : (s.write (text ++ "\n")).Alike (s'.write (text ++ "\n")) :=
    ⟨alike.frameCount, alike.frame, alike.fieldCount, alike.fields, alike.nextId, alike.moment,
      congrArg (·.write (text ++ "\n")) alike.output⟩
  unfold printLine
  dsimp only
  rw [alike.output]
  split
  · exact .ok rfl written
  · exact .error written

/-! ### Functions, classes and instances -/

theorem sim_newFunction (h : f.Alike f') :
    Sim Value.Alike (newFunction f) (newFunction f') := by
  apply sim_bind sim_freshId
  rintro id _ rfl
  exact sim_succeed (.function id h)

theorem sim_bindMethod (h : f.Alike f') (same : o.Alike o') :
    Sim Closure.Alike (bindMethod f o) (bindMethod f' o') := by
  unfold bindMethod
  rw [h.scope]
  refine sim_bind (sim_push _ (.cons ⟨rfl, .object same⟩ .nil)) ?_
  rintro scope _ rfl
  exact sim_succeed ⟨h.decl, rfl, h.isInitializer⟩

/-- A method that was found is bound and made into a value. -/
theorem sim_boundMethod (h : f.Alike f') (same : o.Alike o') :
    Sim Value.Alike (bindMethod f o >>= newFunction) (bindMethod f' o' >>= newFunction) :=
  sim_bind (sim_bindMethod h same) fun _ _ alike => sim_newFunction alike

theorem sim_getProperty (h : v.Alike v') (name : Name) :
    Sim Value.Alike (getProperty v name) (getProperty v' name) := by
  cases h with
  | object same =>
    rename_i o o'
    unfold getProperty
    refine @sim_bind _ _ _ _ (Option.Rel Value.Alike) _ _ _ _ _ ?_ ?_
    · intro s s' alike
      have fields := alike.fields o
      unfold Store.fieldsOf at fields
      refine .ok ?_ alike
      unfold Store.fieldsOf
      rw [← same.address]
      exact fields.get? name
    · intro found found' related
      cases related with
      | some alike => exact sim_succeed alike
      | none =>
        dsimp only
        rcases rel_cases (same.cls.method? name) with ⟨none, none'⟩ | ⟨m, m', some, some', alike⟩
        · rw [none, none', same.cls.name]
          exact sim_fail _
        · rw [some, some']
          exact sim_boundMethod alike same
  | _ => exact sim_fail _

theorem sim_setProperty {w w' : Value} (h : v.Alike v') (name : Name) (alike : w.Alike w') :
    Sim Eq (setProperty v name w) (setProperty v' name w') := by
  cases h with
  | object same =>
    intro s s' stores
    exact .ok rfl (stores.setField same name alike)
  | _ => exact sim_fail _

theorem sim_getSuperMethod (scope : Scope) (name : Name) :
    Sim Value.Alike (getSuperMethod scope name) (getSuperMethod scope name) := by
  apply sim_bind (sim_get scope superName)
  intro parent parent' alike
  apply sim_bind (sim_get scope thisName)
  intro this this' same
  cases alike with
  | cls alike =>
    cases same with
    | object same =>
      dsimp only
      rcases rel_cases (alike.method? name) with ⟨none, none'⟩ | ⟨m, m', some, some', related⟩
      · rw [none, none', alike.name]
        exact sim_fail _
      · rw [some, some']
        exact sim_boundMethod related same
    | _ => exact sim_fail _
  | _ => exact sim_fail _

/-! ### Class declarations -/

theorem sim_superclassOf (scope : Scope) (superclass : Option Name) :
    Sim (Option.Rel Class.Alike) (superclassOf scope superclass)
      (superclassOf scope superclass) := by
  cases superclass with
  | none => exact sim_succeed .none
  | some name =>
    apply sim_bind (sim_get scope name)
    intro v v' alike
    cases alike with
    | cls alike => exact sim_succeed (.some alike)
    | _ => exact sim_fail _

theorem sim_methodScope {c c' : Option Class} (scope : Scope) (h : Option.Rel Class.Alike c c') :
    Sim Eq (methodScope scope c) (methodScope scope c') := by
  cases h with
  | none => exact sim_succeed rfl
  | some alike => exact sim_push scope (.cons ⟨rfl, .cls alike⟩ .nil)

theorem sim_declareClass {d d' : ClassDecl} (scope : Scope) (h : d.Alike d') :
    Sim Eq (declareClass scope d) (declareClass scope d') := by
  unfold declareClass
  rw [h.superclass, h.name]
  apply sim_bind (sim_superclassOf scope _)
  intro parent parent' alike
  apply sim_bind (sim_methodScope scope alike)
  rintro inner _ rfl
  apply sim_bind sim_freshId
  rintro id _ rfl
  have methods : Forall₂ Closure.Alike
      (d.methods.map fun m => ⟨m, inner, m.name = initializerName⟩)
      (d'.methods.map fun m => ⟨m, inner, m.name = initializerName⟩) := by
    rw [List.forall₂_map_left_iff, List.forall₂_map_right_iff]
    refine h.methods.imp fun m m' alike => ⟨alike, rfl, ?_⟩
    simp only [alike.name]
  cases alike with
  | none => exact sim_define scope _ (.cls ⟨⟨rfl, rfl, methods⟩, .nil⟩)
  | some alike => exact sim_define scope _ (.cls ⟨⟨rfl, rfl, methods⟩, alike.lineage⟩)

/-! ### Calls and repetitions -/

theorem sim_checkArity {args args' : List Value} (name : String) (arity : Arity)
    (h : Forall₂ Value.Alike args args') :
    Sim Eq (checkArity name arity args) (checkArity name arity args') := by
  unfold checkArity
  rw [h.length_eq]
  split
  · exact sim_succeed rfl
  · exact sim_fail _

theorem sim_callBuiltin {args args' : List Value} (host : Host) (b : Builtin)
    (h : Forall₂ Value.Alike args args') :
    Sim Value.Alike (callBuiltin host b args) (callBuiltin host b args') := by
  apply sim_bind sim_passMoment
  rintro moment _ rfl
  rw [b.apply_alike _ h]
  exact sim_ofExcept_same

theorem sim_values {eval eval' : Expr → Run Value} (h : ∀ e, Sim Value.Alike (eval e) (eval' e))
    (es : List Expr) : Sim (Forall₂ Value.Alike) (values eval es) (values eval' es) := by
  induction es with
  | nil => exact sim_succeed .nil
  | cons e es ih =>
    apply sim_bind (h e)
    intro v v' alike
    exact sim_bind ih fun vs vs' more => sim_succeed (.cons alike more)

theorem sim_statements {exec exec' : Stmt → Run Flow} {stmts stmts' : List Stmt}
    (h : ∀ s s', s.Alike s' → Sim Flow.Alike (exec s) (exec' s'))
    (alike : Forall₂ Stmt.Alike stmts stmts') :
    Sim Flow.Alike (statements exec stmts) (statements exec' stmts') := by
  induction alike with
  | nil => exact sim_succeed .normal
  | cons first _ ih =>
    apply sim_bind (h _ _ first)
    intro flow flow' same
    cases same with
    | normal => exact ih
    | «return» alike => exact sim_succeed (.return alike)

/-- The iterations of the second loop may be bounded by more. -/
theorem sim_loop {cond cond' : Run Value} {body body' : Run Flow} {n m : Nat} (le : n ≤ m)
    (h : Sim Value.Alike cond cond') (h' : Sim Flow.Alike body body') :
    Sim Flow.Alike (loop cond body n) (loop cond' body' m) := by
  induction n generalizing m with
  | zero => exact sim_exhausted _
  | succ n ih =>
    obtain ⟨m, rfl⟩ : ∃ k, m = k + 1 := ⟨m - 1, by omega⟩
    apply sim_bind h
    intro c c' alike
    rw [alike.isTruthy]
    split
    · apply sim_bind h'
      intro flow flow' same
      cases same with
      | normal => exact ih (Nat.le_of_succ_le_succ le)
      | «return» alike => exact sim_succeed (.return alike)
    · exact sim_succeed .normal

end

end Run

open Run

/-! ### The forms of statements -/

/-- Two statements of the same form, not loops to be replaced, with alike parts. -/
inductive Stmt.SameForm : Stmt → Stmt → Prop where
  | nop : SameForm .nop .nop
  | expr (e : Expr) : SameForm (.expr e) (.expr e)
  | print (e : Expr) : SameForm (.print e) (.print e)
  | varDecl (name : Name) (init : Expr) : SameForm (.varDecl name init) (.varDecl name init)
  | funDecl {d d' : FunctionDecl} : d.Alike d' → SameForm (.funDecl d) (.funDecl d')
  | classDecl {d d' : ClassDecl} : d.Alike d' → SameForm (.classDecl d) (.classDecl d')
  | block {b b' : List Stmt} : Forall₂ Stmt.Alike b b' → SameForm (.block b) (.block b')
  | ite (cond : Expr) {s s' t t' : Stmt} : s.Alike s' → t.Alike t' →
      SameForm (.ite cond s t) (.ite cond s' t')
  | while (cond : Expr) {s s' : Stmt} : s.Alike s' → SameForm (.while cond s) (.while cond s')
  | return (e : Expr) : SameForm (.return e) (.return e)

theorem Stmt.SameForm.symm {s s' : Stmt} (h : s.SameForm s') : s'.SameForm s := by
  cases h with
  | funDecl alike => exact .funDecl alike.symm
  | classDecl alike => exact .classDecl alike.symm
  | block alike => exact .block (Stmt.alikeAll_symm alike)
  | ite cond alike alike' => exact .ite cond alike.symm alike'.symm
  | «while» cond alike => exact .while cond alike.symm
  | _ => constructor

/-- A statement is a loop to be replaced, or it has the form of itself and of what it becomes. -/
theorem Stmt.for_or_sameForm (stmt : Stmt) :
    (∃ init cond incr body, stmt = .for init cond incr body) ∨
      stmt.SameForm stmt ∧ stmt.SameForm stmt.desugar := by
  cases stmt with
  | «for» init cond incr body => exact .inl ⟨init, cond, incr, body, rfl⟩
  | funDecl d => exact .inr ⟨.funDecl (.refl d), .funDecl d.alike_desugar⟩
  | classDecl d => exact .inr ⟨.classDecl (.refl d), .classDecl d.alike_desugar⟩
  | block b => exact .inr ⟨.block (alikeAll_refl b), .block (alike_desugarAll b)⟩
  | ite cond s t =>
    exact .inr ⟨.ite cond (.refl s) (.refl t), .ite cond (.desugared s) (.desugared t)⟩
  | «while» cond s => exact .inr ⟨.while cond (.refl s), .while cond (.desugared s)⟩
  | _ => exact .inr ⟨by constructor, by constructor⟩

theorem Stmt.sameForm_ofFor (init : Option Stmt) (cond incr : Option Expr) (body : Stmt) :
    (Stmt.ofFor init cond incr body).SameForm (.ofFor init cond incr body) := by
  cases init with
  | none => exact .while _ (.refl _)
  | some first => exact .block (alikeAll_refl _)

/-! ### Running alike programs -/

/-- With the given fuel, and with twice as much or more on the other side, alike programs run
alike. -/
structure Simulates (host : Host) (n : Nat) : Prop where
  expr : ∀ m scope e, 2 * n ≤ m →
    Sim Value.Alike (evalExpr host n scope e) (evalExpr host m scope e)
  call : ∀ m v v' args args', 2 * n ≤ m → v.Alike v' → Forall₂ Value.Alike args args' →
    Sim Value.Alike (call host n v args) (call host m v' args')
  closure : ∀ m f f' args args', 2 * n ≤ m → f.Alike f' → Forall₂ Value.Alike args args' →
    Sim Value.Alike (callClosure host n f args) (callClosure host m f' args')
  exec : ∀ m scope s s', 2 * n ≤ m → s.Alike s' →
    Sim Flow.Alike (exec host n scope s) (exec host m scope s')

section

variable {host : Host} {n m : Nat}

theorem sim_evalExpr (ih : Simulates host n) (le : 2 * n ≤ m) (scope : Scope) (e : Expr) :
    Sim Value.Alike (evalExpr host (n + 1) scope e) (evalExpr host (m + 1) scope e) := by
  have sub := fun e => ih.expr m scope e le
  unfold evalExpr
  cases e with
  | nil => exact sim_succeed .nil
  | number x => exact sim_succeed (.number _)
  | bool b => exact sim_succeed (.bool b)
  | string s => exact sim_succeed (.string s)
  | var name => exact sim_get scope name
  | unary op operand =>
    apply sim_bind (sub operand)
    intro v v' alike
    rw [op.apply_alike alike]
    exact sim_ofExcept_same
  | binary op left right =>
    apply sim_bind (sub left)
    intro l l' alike
    apply sim_bind (sub right)
    intro r r' alike'
    rw [op.apply_alike alike alike']
    exact sim_ofExcept_same
  | logic op left right =>
    apply sim_bind (sub left)
    intro l l' alike
    rw [op.stopsAt_alike alike]
    split
    · exact sim_succeed alike
    · exact sub right
  | group e => exact sub e
  | assign name value =>
    apply sim_bind (sub value)
    intro v v' alike
    exact sim_bind (sim_assign scope name alike) fun _ _ _ => sim_succeed alike
  | call callee args =>
    apply sim_bind (sub callee)
    intro c c' alike
    exact sim_bind (sim_values sub args) fun vs vs' alike' => ih.call m c c' vs vs' le alike alike'
  | get object name => exact sim_bind (sub object) fun o o' alike => sim_getProperty alike name
  | set object name value =>
    apply sim_bind (sub object)
    intro o o' alike
    apply sim_bind (sub value)
    intro v v' alike'
    exact sim_bind (sim_setProperty alike name alike') fun _ _ _ => sim_succeed alike'
  | this => exact sim_get scope thisName
  | super method => exact sim_getSuperMethod scope method

theorem sim_call (blind : host.BodyBlind) (ih : Simulates host n) (le : 2 * n ≤ m) {v v' : Value}
    {args args' : List Value} (h : v.Alike v') (h' : Forall₂ Value.Alike args args') :
    Sim Value.Alike (call host (n + 1) v args) (call host (m + 1) v' args') := by
  unfold call
  cases h with
  | function id alike =>
    dsimp only
    rw [alike.decl.name, alike.arity]
    apply sim_bind (sim_checkArity _ _ h')
    intro _ _ _
    exact ih.closure m _ _ _ _ le alike h'
  | native f =>
    apply sim_bind (sim_checkArity _ _ h')
    intro _ _ _
    cases f.body with
    | builtin b => exact sim_callBuiltin host b h'
    | supplied index => exact sim_ofExcept (blind index args args' h')
  | cls alike =>
    dsimp only
    rw [alike.name, alike.arity]
    apply sim_bind (sim_checkArity _ _ h')
    intro _ _ _
    apply sim_bind (sim_change fun _ _ stores => stores.newObject alike)
    intro o o' same
    rcases rel_cases (alike.method? initializerName) with
      ⟨none, none'⟩ | ⟨init, init', some, some', related⟩
    · rw [none, none']
      exact sim_succeed (.object same)
    · rw [some, some']
      apply sim_bind (sim_bindMethod related same)
      intro bound bound' alike
      apply sim_bind (ih.closure m _ _ _ _ le alike h')
      intro _ _ _
      exact sim_succeed (.object same)
  | _ => exact sim_fail _

theorem sim_callClosure (ih : Simulates host n) (le : 2 * n ≤ m) {f f' : Closure}
    {args args' : List Value} (h : f.Alike f') (h' : Forall₂ Value.Alike args args') :
    Sim Value.Alike (callClosure host (n + 1) f args) (callClosure host (m + 1) f' args') := by
  unfold callClosure
  rw [h.scope, h.decl.params, h.isInitializer]
  apply sim_bind (sim_push _ (Bindings.alike_ofList_zip _ h'))
  rintro frame _ rfl
  have body := sim_statements (fun s s' alike => ih.exec m frame s s' le alike) h.decl.body
  apply sim_bind body
  intro flow flow' same
  split
  · exact sim_get _ thisName
  · cases same with
    | normal => exact sim_succeed .nil
    | «return» alike => exact sim_succeed alike

/-- Statements of the same form are executed alike if their parts are. -/
theorem sim_exec_of_sameForm (ih : Simulates host n) (le : 2 * n ≤ m) (scope : Scope)
    {s s' : Stmt} (h : s.SameForm s') :
    Sim Flow.Alike (exec host (n + 1) scope s) (exec host (m + 1) scope s') := by
  have sub := fun e => ih.expr m scope e le
  unfold exec
  cases h with
  | nop => exact sim_succeed .normal
  | expr e => exact sim_bind (sub e) fun _ _ _ => sim_succeed .normal
  | print e =>
    apply sim_bind (sub e)
    intro v v' alike
    rw [alike.text]
    exact sim_bind (sim_printLine _) fun _ _ _ => sim_succeed .normal
  | varDecl name init =>
    apply sim_bind (sub init)
    intro v v' alike
    exact sim_bind (sim_define scope name alike) fun _ _ _ => sim_succeed .normal
  | funDecl alike =>
    dsimp only
    rw [alike.name]
    refine sim_bind (sim_newFunction ⟨alike, rfl, rfl⟩) fun v v' alike => ?_
    exact sim_bind (sim_define scope _ alike) fun _ _ _ => sim_succeed .normal
  | classDecl alike =>
    exact sim_bind (sim_declareClass scope alike) fun _ _ _ => sim_succeed .normal
  | block alike =>
    apply sim_bind (sim_push scope (.refl []))
    rintro inner _ rfl
    exact sim_statements (fun s s' alike => ih.exec m inner s s' le alike) alike
  | ite cond alike alike' =>
    apply sim_bind (sub cond)
    intro c c' same
    rw [same.isTruthy]
    split
    · exact ih.exec m scope _ _ le alike
    · exact ih.exec m scope _ _ le alike'
  | «while» cond alike => exact sim_loop (by omega) (sub cond) (ih.exec m scope _ _ le alike)
  | «return» e => exact sim_bind (sub e) fun v v' alike => sim_succeed (.return alike)

/-- A loop is executed as what it stands for. -/
theorem exec_for (host : Host) (n : Nat) (scope : Scope) (init : Option Stmt)
    (cond incr : Option Expr) (body : Stmt) :
    exec host (n + 1) scope (.for init cond incr body) =
      exec host n scope (.ofFor init cond incr body.desugar) := by
  rw [exec]

/-- On either side one more call than on the other may be spent on a loop. -/
theorem sim_exec (ih : Simulates host n) (le : 2 * n ≤ m) (scope : Scope) {s s' : Stmt}
    (h : s.Alike s') :
    Sim Flow.Alike (exec host (n + 1) scope s) (exec host (m + 2) scope s') := by
  cases h with
  | refl =>
    rcases s.for_or_sameForm with ⟨init, cond, incr, body, rfl⟩ | ⟨same, -⟩
    · rw [exec_for, exec_for]
      exact ih.exec (m + 1) scope _ _ (by omega) (.refl _)
    · exact sim_exec_of_sameForm ih (by omega) scope same
  | desugared =>
    rcases s.for_or_sameForm with ⟨init, cond, incr, body, rfl⟩ | ⟨-, same⟩
    · rw [exec_for]
      exact ih.exec (m + 2) scope _ _ (by omega) (.refl _)
    · exact sim_exec_of_sameForm ih (by omega) scope same
  | sugared =>
    rcases s'.for_or_sameForm with ⟨init, cond, incr, body, rfl⟩ | ⟨-, same⟩
    · rw [exec_for]
      exact sim_exec_of_sameForm ih le scope (Stmt.sameForm_ofFor init cond incr _)
    · exact sim_exec_of_sameForm ih (by omega) scope same.symm

end

/-- Alike programs run alike, whatever the fuel. -/
theorem simulates {host : Host} (blind : host.BodyBlind) (n : Nat) : Simulates host n := by
  induction n with
  | zero => constructor <;> intros <;> exact sim_exhausted _
  | succ n ih =>
    constructor
    case expr =>
      intro m scope e le
      obtain ⟨m, rfl⟩ : ∃ k, m = k + 1 := ⟨m - 1, by omega⟩
      exact sim_evalExpr ih (by omega) scope e
    case call =>
      intro m v v' args args' le alike alike'
      obtain ⟨m, rfl⟩ : ∃ k, m = k + 1 := ⟨m - 1, by omega⟩
      exact sim_call blind ih (by omega) alike alike'
    case closure =>
      intro m f f' args args' le alike alike'
      obtain ⟨m, rfl⟩ : ∃ k, m = k + 1 := ⟨m - 1, by omega⟩
      exact sim_callClosure ih (by omega) alike alike'
    case exec =>
      intro m scope s s' le alike
      obtain ⟨m, rfl⟩ : ∃ k, m = k + 2 := ⟨m - 2, by omega⟩
      exact sim_exec ih (by omega) scope alike

end Lox
