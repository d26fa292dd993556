import Lox.Proofs.Soundness.Safe

/-!
Running a checked program is safe.

The induction is on the fuel, for expressions, calls and statements at once. An expression needs a
scope that suits the class around it. A statement also needs a frame that admits the name it
declares; in a block this is so because the frame binds nothing but the parameters and the names
declared before (`Scope.Filled`), and a statement adds nothing but its own name. The main statements
are `evalSafe` and `safe_execProgram`.
-/

namespace Lox

open Check (ClassKind FunctionKind)
open Run

variable {s : Store} {scope : Scope}

/-! ### Lists and loops -/

theorem safe_values {eval : Expr → Run Value} {es : List Expr} (ok : s.Ok)
    (each : ∀ e ∈ es, ∀ s', s.Becomes s' → Safe s' (eval e) (fun v s'' => v.Ok s'')) :
    Safe s (values eval es) (fun vs s' => ∀ v ∈ vs, v.Ok s') := by
  induction es generalizing s with
  | nil => exact safe_succeed ok (by simp)
  | cons e rest ih =>
    apply safe_bind (each e (by simp) s (.refl ok))
    intro v s₁ becomes valueOk
    have others : ∀ e ∈ rest, ∀ s', s₁.Becomes s' → Safe s' (eval e) (fun v s'' => v.Ok s'') :=
      fun e mem s' later => each e (by simp [mem]) s' (becomes.trans later)
    apply safe_bind (ih becomes.ok others)
    intro vs s₂ becomes₁ valuesOk
    apply safe_succeed becomes₁.ok
    intro w mem
    rcases List.mem_cons.mp mem with rfl | mem
    · exact valueOk.grows becomes₁.grows
    · exact valuesOk w mem

/-- A `return` stands inside a function, and its value is in order. -/
def Flow.Ok (s : Store) (kind : FunctionKind) : Flow → Prop
  | .normal => True
  | .return v => kind ≠ .none ∧ v.Ok s

theorem safe_loop {cond : Run Value} {body : Run Flow} {kind : FunctionKind} (ok : s.Ok)
    (condSafe : ∀ s', s.Becomes s' → Safe s' cond (fun v s'' => v.Ok s''))
    (bodySafe : ∀ s', s.Becomes s' → Safe s' body (fun flow s'' => flow.Ok s'' kind))
    (fuel : Nat) : Safe s (loop cond body fuel) (fun flow s' => flow.Ok s' kind) := by
  induction fuel generalizing s with
  | zero => exact safe_exhausted
  | succ fuel ih =>
    apply safe_bind (condSafe s (.refl ok))
    intro c s₁ becomes _
    apply safe_ite
    · apply safe_bind (bodySafe s₁ becomes)
      intro flow s₂ becomes₁ flowOk
      cases flow with
      | normal =>
        have sofar := becomes.trans becomes₁
        exact ih becomes₁.ok (fun s' later => condSafe s' (sofar.trans later))
          fun s' later => bodySafe s' (sofar.trans later)
      | «return» v => exact safe_succeed becomes₁.ok flowOk
    · exact safe_succeed becomes.ok trivial

/-! ### Names in a block -/

/-- A regular statement binds at most the name it declares. -/
theorem Stmt.boundNames_eq : ∀ {stmt : Stmt}, stmt.Regular →
    stmt.boundNames = stmt.declaredName?.toList
  | .ite _ thenBranch elseBranch, regular => by
    obtain ⟨-, ⟨nothing, regular⟩, nothing', regular'⟩ := regular
    rw [boundNames, boundNames_eq regular, boundNames_eq regular', nothing, nothing']
    rfl
  | .while _ body, regular => by
    obtain ⟨-, nothing, regular⟩ := regular
    rw [boundNames, boundNames_eq regular, nothing]
    rfl
  | .varDecl _ _, _ | .funDecl _, _ | .classDecl _, _ => rfl
  | .nop, _ | .expr _, _ | .print _, _ | .block _, _ | .return _, _ => rfl

/-- The scope's own frame binds parameters and declared names only. -/
def Scope.Filled (s : Store) (scope : Scope) (params declared : List Name) : Prop :=
  ∀ name, (s.frame scope.frame).contains name = true → name ∈ params ∨ name ∈ declared

theorem Scope.Filled.admits {ps declared : List Name} {name? : Option Name}
    (h : scope.Filled s ps declared) (checked : Check.declaration ps declared name? = .ok ()) :
    ∀ name, name? = some name → scope.Admits s name := by
  intro name same
  obtain ⟨notParam, notDeclared⟩ := Check.declaration_eq_ok.mp checked name same
  right
  rw [Bool.eq_false_iff]
  intro bound
  rcases h name bound with param | again
  · exact notParam param
  · exact notDeclared again

theorem Scope.Filled.keeps {s' : Store} {ps declared : List Name} {stmt : Stmt}
    (h : scope.Filled s ps declared) (bounded : scope.Bounded s) (regular : stmt.Regular)
    (keeps : s.Keeps (fun f name => f = scope.frame ∧ name ∈ stmt.boundNames) s') :
    scope.Filled s' ps (stmt.declaredName?.toList ++ declared) := by
  intro name bound
  have inside : scope.frame < s.frames.size := bounded scope.frame (by simp [chain])
  rcases keeps.only scope.frame inside name bound with before | ⟨-, added⟩
  · rcases h name before with param | again
    · exact .inl param
    · exact .inr (List.mem_append_right _ again)
  · rw [Stmt.boundNames_eq regular] at added
    exact .inr (List.mem_append_left _ added)

/-- Outside all classes, nothing is asked of a scope but that its frames exist. -/
theorem Scope.Bounded.suits (h : scope.Bounded s) : scope.Suits s .none :=
  ⟨h, fun inside => absurd rfl inside, fun derived => ClassKind.noConfusion derived⟩

/-! ### The evaluator -/

/-- With the given fuel, what was checked runs safely. -/
structure EvalSafe (host : Host) (fuel : Nat) : Prop where
  expr : ∀ {s scope cls e}, s.Ok → scope.Suits s cls → Check.expr cls e = .ok () → e.Regular →
    Safe s (evalExpr host fuel scope e) (fun v s' => v.Ok s')
  call : ∀ {s callee args}, s.Ok → callee.Ok s → (∀ a ∈ args, a.Ok s) →
    Safe s (call host fuel callee args) (fun v s' => v.Ok s')
  closure : ∀ {s f args}, s.Ok → f.Ok s → (∀ a ∈ args, a.Ok s) →
    Safe s (callClosure host fuel f args) (fun v s' => v.Ok s')
  exec : ∀ {s scope place stmt}, s.Ok → scope.Suits s place.cls → Check.stmt place stmt = .ok () →
    stmt.Regular → (∀ name, stmt.declaredName? = some name → scope.Admits s name) →
    Safe s (exec host fuel scope stmt) (fun flow s' => flow.Ok s' place.function)

/-- What holds of each argument holds of them all. -/
theorem Check.expr_of_exprs {cls : ClassKind} {es : List Expr} (checked : exprs cls es = .ok ())
    (regular : Expr.RegularAll es) : ∀ e ∈ es, expr cls e = .ok () ∧ e.Regular := by
  induction es with
  | nil => simp
  | cons first rest ih =>
    obtain ⟨checked, others⟩ := exprs_cons_eq_ok.mp checked
    intro e mem
    rcases List.mem_cons.mp mem with rfl | mem
    · exact ⟨checked, regular.1⟩
    · exact ih others regular.2 e mem

namespace EvalSafe

variable {host : Host} {fuel : Nat}

theorem expr_succ (ih : EvalSafe host fuel) {cls : ClassKind} {e : Expr} (ok : s.Ok)
    (suits : scope.Suits s cls) (checked : Check.expr cls e = .ok ()) (regular : e.Regular) :
    Safe s (evalExpr host (fuel + 1) scope e) (fun v s' => v.Ok s') := by
  unfold evalExpr
  cases e with
  | nil => exact safe_succeed ok trivial
  | number x => exact safe_succeed ok trivial
  | bool b => exact safe_succeed ok trivial
  | string text => exact safe_succeed ok trivial
  | var name => exact safe_get ok regular
  | unary op operand =>
    rw [Check.expr] at checked
    apply safe_bind (ih.expr ok suits checked regular)
    intro v s₁ becomes _
    exact safe_ofExcept_plain becomes.ok (plain_unary op v)
  | binary op left right =>
    rw [Check.expr, Check.bind_eq_ok] at checked
    apply safe_bind (ih.expr ok suits checked.1 regular.1)
    intro l s₁ becomes _
    apply safe_bind (ih.expr becomes.ok (suits.grows becomes.grows) checked.2 regular.2)
    intro r s₂ becomes₁ _
    exact safe_ofExcept_plain becomes₁.ok (plain_binary op l r)
  | logic op left right =>
    rw [Check.expr, Check.bind_eq_ok] at checked
    apply safe_bind (ih.expr ok suits checked.1 regular.1)
    intro l s₁ becomes valueOk
    apply safe_ite
    · exact safe_succeed becomes.ok valueOk
    · exact ih.expr becomes.ok (suits.grows becomes.grows) checked.2 regular.2
  | group e =>
    rw [Check.expr] at checked
    exact ih.expr ok suits checked regular
  | assign name value =>
    rw [Check.expr] at checked
    apply safe_bind (ih.expr ok suits checked regular.2)
    intro v s₁ becomes valueOk
    apply safe_bind (safe_assign becomes.ok regular.1 valueOk)
    intro _ s₂ becomes₁ _
    exact safe_succeed becomes₁.ok (valueOk.grows becomes₁.grows)
  | call callee args =>
    rw [Check.expr, Check.bind_eq_ok] at checked
    apply safe_bind (ih.expr ok suits checked.1 regular.1)
    intro c s₁ becomes calleeOk
    have each := Check.expr_of_exprs checked.2 regular.2
    have suits₁ := suits.grows becomes.grows
    apply safe_bind (safe_values becomes.ok fun e mem s' later =>
      ih.expr later.ok (suits₁.grows later.grows) (each e mem).1 (each e mem).2)
    intro vs s₂ becomes₁ argsOk
    exact ih.call becomes₁.ok (calleeOk.grows becomes₁.grows) argsOk
  | get object name =>
    rw [Check.expr] at checked
    apply safe_bind (ih.expr ok suits checked regular)
    intro o s₁ becomes ownerOk
    exact safe_getProperty becomes.ok ownerOk
  | set object name value =>
    rw [Check.expr, Check.bind_eq_ok] at checked
    apply safe_bind (ih.expr ok suits checked.1 regular.1)
    intro o s₁ becomes _
    apply safe_bind (ih.expr becomes.ok (suits.grows becomes.grows) checked.2 regular.2)
    intro v s₂ becomes₁ valueOk
    apply safe_bind (safe_setProperty becomes₁.ok valueOk)
    intro _ s₃ becomes₂ _
    exact safe_succeed becomes₂.ok (valueOk.grows becomes₂.grows)
  | this =>
    rw [Check.expr, Check.this_eq_ok] at checked
    obtain ⟨o, found⟩ := suits.this checked
    exact (safe_get_of_lookup? ok found).mono fun v s' _ h => h.2
  | super method =>
    rw [Check.expr, Check.super_eq_ok] at checked
    subst checked
    exact safe_getSuperMethod ok suits

/-- A class is called by making an instance and running the initializer, if there is one, on it. -/
theorem call_succ (harmless : host.Harmless) (ih : EvalSafe host fuel) {callee : Value}
    {args : List Value} (ok : s.Ok) (calleeOk : callee.Ok s) (argsOk : ∀ a ∈ args, a.Ok s) :
    Safe s (Lox.call host (fuel + 1) callee args) (fun v s' => v.Ok s') := by
  unfold Lox.call
  cases callee with
  | function id f =>
    apply safe_bind (safe_checkArity ok)
    rintro _ s' - rfl
    exact ih.closure ok calleeOk argsOk
  | native f =>
    apply safe_bind (safe_checkArity ok)
    rintro _ s' - rfl
    cases f.body with
    | builtin b => exact safe_callBuiltin ok
    | supplied index => exact safe_supplied harmless ok argsOk
  | cls c =>
    apply safe_bind (safe_checkArity ok)
    rintro _ s' - rfl
    have made : Safe s' (change (·.newObject c)) (fun o _ => o.cls = c) :=
      ⟨ok.becomes_newObject c, rfl⟩
    apply safe_bind made
    rintro o s₁ becomes rfl
    have classOk : o.cls.Ok s₁ := Class.Ok.grows calleeOk becomes.grows
    cases found : o.cls.method? initializerName with
    | none => exact safe_succeed becomes.ok classOk
    | some init =>
      apply safe_bind (safe_bindMethod becomes.ok (classOk.method? found) classOk)
      intro bound s₂ becomes₁ boundOk
      have grows := becomes.grows.trans becomes₁.grows
      apply safe_bind (ih.closure becomes₁.ok boundOk fun a mem => (argsOk a mem).grows grows)
      intro _ s₃ becomes₂ _
      exact safe_succeed becomes₂.ok (classOk.grows (becomes₁.grows.trans becomes₂.grows))
  | _ => exact safe_fail ok (by rintro ⟨⟩)

/-- The statements of a block run safely, since each declares a name that the frame does not bind
yet. -/
theorem body (ih : EvalSafe host fuel) {place : Check.Place} {ps declared : List Name}
    {stmts : List Stmt} (ok : s.Ok) (suits : scope.Suits s place.cls)
    (checked : Check.block place ps declared stmts = .ok ()) (regular : Stmt.RegularAll stmts)
    (filled : scope.Filled s ps declared) :
    Safe s (statements (Lox.exec host fuel scope) stmts)
      (fun flow s' => flow.Ok s' place.function) := by
  induction stmts generalizing s declared with
  | nil => exact safe_succeed ok trivial
  | cons stmt rest others =>
    obtain ⟨fresh, stmtChecked, restChecked⟩ := Check.block_cons_eq_ok.mp checked
    have keeps : Preserves (s.Keeps fun f name => f = scope.frame ∧ name ∈ stmt.boundNames)
        (Lox.exec host fuel scope stmt) :=
      (keepsNames host fuel).exec s _ scope stmt fun _ _ mem => ⟨rfl, mem⟩
    apply safe_bind
      ((ih.exec ok suits stmtChecked regular.1 (filled.admits fresh)).keeping keeps)
    rintro flow s' becomes ⟨kept, flowOk⟩
    cases flow with
    | normal =>
      have filled := filled.keeps suits.bounded regular.1 kept
      exact others becomes.ok (suits.grows becomes.grows) restChecked regular.2 filled
    | «return» v => exact safe_succeed becomes.ok flowOk

/-- A call runs the body in a frame that binds the parameters only. -/
theorem closure_succ (ih : EvalSafe host fuel) {f : Closure} {args : List Value} (ok : s.Ok)
    (closureOk : f.Ok s) (argsOk : ∀ a ∈ args, a.Ok s) :
    Safe s (callClosure host (fuel + 1) f args) (fun v s' => v.Ok s') := by
  obtain ⟨cls, kind, checked, regular, suits, initializer⟩ := closureOk
  obtain ⟨-, params, checked⟩ := Check.function_eq_ok.mp checked
  unfold callClosure
  apply safe_push_bind ok
  · intro name v found
    exact argsOk v (Bindings.mem_of_get?_params found).2
  intro ok'
  have filled : Scope.Filled (s.push f.scope (.ofList (f.decl.params.zip args))).2
      ⟨s.frames.size, f.scope.chain⟩ f.decl.params [] := by
    intro name bound
    rw [Store.frame_push_self] at bound
    obtain ⟨v, found⟩ := Option.isSome_iff_exists.mp bound
    exact .inl (Bindings.mem_of_get?_params found).1
  have unreserved : ∀ name, Name.isReserved name = true →
      (Bindings.ofList (f.decl.params.zip args)).get? name = none := by
    intro name reserved
    rw [Option.eq_none_iff_forall_ne_some]
    intro v found
    have param := (Bindings.mem_of_get?_params found).1
    rw [Check.unreserved_of_params params name param] at reserved
    cases reserved
  apply safe_bind (ih.body ok' (suits.push unreserved) checked regular.body filled)
  intro flow s' becomes flowOk
  by_cases isInitializer : f.isInitializer = true
  · rw [if_pos isInitializer]
    have grows := (Store.Grows.push s f.scope _).trans becomes.grows
    obtain ⟨o, found⟩ := (suits.grows grows).this (initializer isInitializer)
    exact (safe_get_of_lookup? becomes.ok found).mono fun v _ _ h => h.2
  · rw [if_neg isInitializer]
    cases flow with
    | normal => exact safe_succeed becomes.ok trivial
    | «return» v => exact safe_succeed becomes.ok flowOk.2

theorem exec_succ (ih : EvalSafe host fuel) {place : Check.Place} {stmt : Stmt} (ok : s.Ok)
    (suits : scope.Suits s place.cls) (checked : Check.stmt place stmt = .ok ())
    (regular : stmt.Regular)
    (admits : ∀ name, stmt.declaredName? = some name → scope.Admits s name) :
    Safe s (Lox.exec host (fuel + 1) scope stmt) (fun flow s' => flow.Ok s' place.function) := by
  unfold Lox.exec
  cases stmt with
  | nop => exact safe_succeed ok trivial
  | expr e =>
    rw [Check.stmt] at checked
    apply safe_bind (ih.expr ok suits checked regular)
    intro _ s₁ becomes _
    exact safe_succeed becomes.ok trivial
  | print e =>
    rw [Check.stmt] at checked
    apply safe_bind (ih.expr ok suits checked regular)
    intro v s₁ becomes _
    apply safe_bind (safe_printLine becomes.ok)
    intro _ s₂ becomes₁ _
    exact safe_succeed becomes₁.ok trivial
  | varDecl name init =>
    rw [Check.stmt, Check.bind_eq_ok, Check.bindingName_eq_ok] at checked
    have keeps := (keepsNames host fuel).expr s Store.nothing scope init
    apply safe_bind ((ih.expr ok suits checked.2 regular).keeping keeps)
    rintro v s₁ becomes ⟨kept, valueOk⟩
    have admits := (admits name rfl).keeps suits.bounded kept
    apply safe_bind (safe_define becomes.ok checked.1 valueOk admits)
    intro _ s₂ becomes₁ _
    exact safe_succeed becomes₁.ok trivial
  | funDecl decl =>
    rw [Check.stmt] at checked
    have closureOk : Closure.Ok s ⟨decl, scope, false⟩ :=
      ⟨place.cls, .function, checked, regular, suits, fun h => Bool.noConfusion h⟩
    apply safe_bind ((safe_newFunction ok closureOk).keeping (keeps_newFunction _))
    rintro f s₁ becomes ⟨kept, valueOk⟩
    have admits := (admits decl.name rfl).keeps suits.bounded kept
    have unreserved := (Check.function_eq_ok.mp checked).1
    apply safe_bind (safe_define becomes.ok unreserved valueOk admits)
    intro _ s₂ becomes₁ _
    exact safe_succeed becomes₁.ok trivial
  | classDecl decl =>
    rw [Check.stmt] at checked
    apply safe_bind (safe_declareClass ok suits.bounded checked regular (admits decl.name rfl))
    intro _ s₁ becomes _
    exact safe_succeed becomes.ok trivial
  | block body =>
    rw [Check.stmt] at checked
    apply safe_push_bind ok
    · intro name v found
      cases found
    intro ok'
    have filled : Scope.Filled (s.push scope []).2 ⟨s.frames.size, scope.chain⟩ [] [] := by
      intro name bound
      rw [Store.frame_push_self] at bound
      cases bound
    exact ih.body ok' (suits.push fun _ _ => rfl) checked regular filled
  | ite cond thenBranch elseBranch =>
    rw [Check.stmt, Check.bind_eq_ok, Check.bind_eq_ok] at checked
    obtain ⟨condRegular, ⟨nothing, thenRegular⟩, nothing', elseRegular⟩ := regular
    apply safe_bind (ih.expr ok suits checked.1 condRegular)
    intro c s₁ becomes _
    have suits := suits.grows becomes.grows
    apply safe_ite
    · apply ih.exec becomes.ok suits checked.2.1 thenRegular
      simp [nothing]
    · apply ih.exec becomes.ok suits checked.2.2 elseRegular
      simp [nothing']
  | «while» cond body =>
    rw [Check.stmt, Check.bind_eq_ok] at checked
    obtain ⟨condRegular, nothing, bodyRegular⟩ := regular
    apply safe_loop ok
    · intro s' later
      exact ih.expr later.ok (suits.grows later.grows) checked.1 condRegular
    · intro s' later
      apply ih.exec later.ok (suits.grows later.grows) checked.2 bodyRegular
      simp [nothing]
  | «for» init cond incr body => cases regular
  | «return» value =>
    rw [Check.stmt, Check.bind_eq_ok] at checked
    apply safe_bind (ih.expr ok suits checked.2 regular)
    intro v s₁ becomes valueOk
    apply safe_succeed becomes.ok
    refine ⟨fun outside => ?_, valueOk⟩
    rw [outside] at checked
    exact Check.returned_ne_ok_none checked.1

end EvalSafe

theorem evalSafe {host : Host} (harmless : host.Harmless) (fuel : Nat) : EvalSafe host fuel := by
  induction fuel with
  | zero => constructor <;> intros <;> exact safe_exhausted
  | succ fuel ih => exact ⟨ih.expr_succ, ih.call_succ harmless, ih.closure_succ, ih.exec_succ⟩

/-- A checked program runs safely in a global scope, which admits all names. -/
theorem safe_execProgram {host : Host} (harmless : host.Harmless) (fuel : Nat) {last : Value}
    {stmts : List Stmt} (ok : s.Ok) (bounded : scope.Bounded s) (isGlobal : scope.isGlobal = true)
    (checked : Check.stmts stmts = .ok ()) (regular : Stmt.RegularAll stmts) (lastOk : last.Ok s) :
    Safe s (execProgram host fuel scope last stmts) (fun v s' => v.Ok s') := by
  have ih := evalSafe harmless fuel
  induction stmts generalizing s last with
  | nil => exact safe_succeed ok lastOk
  | cons stmt rest others =>
    obtain ⟨stmtChecked, restChecked⟩ := Check.stmts_cons_eq_ok.mp checked
    have suits : scope.Suits s Check.Place.topLevel.cls := bounded.suits
    have admits : ∀ name, scope.Admits s name := fun name => .inl (by simp [isGlobal])
    cases stmt with
    | expr e =>
      rw [Check.stmt] at stmtChecked
      apply safe_bind (ih.expr ok suits stmtChecked regular.1)
      intro v s' becomes valueOk
      exact others becomes.ok (bounded.grows becomes.grows) restChecked regular.2 valueOk
    | _ =>
      apply safe_bind (ih.exec ok suits stmtChecked regular.1 fun name _ => admits name)
      intro flow s' becomes flowOk
      cases flow with
      | normal =>
        exact others becomes.ok (bounded.grows becomes.grows) restChecked regular.2 trivial
      | «return» v => exact absurd rfl flowOk.1

end Lox
