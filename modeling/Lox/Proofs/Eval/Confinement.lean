import Lox.Proofs.Desugar
import Lox.Proofs.Eval.Reach
import Lox.Proofs.Operator

/-!
Running code only touches what it can reach.

A computation stays in a region if the store stays confined to it and the result does not lead out
of it (`Run.Stays`). Every operation of the evaluator stays in each region that the values it is
given lie in; by one induction on the fuel so do expressions, calls and statements (`evalStays`).
The cells that a scope reaches, together with all that is new, are such a region, so that a run in
the scope touches nothing else (`ensures_onlyTouches`).
-/

namespace Lox

namespace Run

variable {α β : Type} {region : Cell → Prop} {s₀ : Store}

/-! ### Computations that stay in a region -/

/-- The store stays confined to the region, and a value that comes out satisfies the property. -/
def Stays (region : Cell → Prop) (s₀ : Store) (Q : α → Prop) (x : Run α) : Prop :=
  ∀ s, s₀.Confined region s →
    Ensures s x (fun a s' => s₀.Confined region s' ∧ Q a) (fun _ s' => s₀.Confined region s')

section

variable {Q : α → Prop} {R : β → Prop} {x : Run α} {f : α → Run β}

theorem stays_succeed {a : α} (h : Q a) : Stays region s₀ Q (succeed a) :=
  fun _ confined => ⟨confined, h⟩

theorem stays_fail (e : RuntimeError) : Stays region s₀ Q (fail e) := fun _ confined => confined

theorem stays_exhausted : Stays region s₀ Q exhausted := fun _ _ => trivial

theorem stays_bind (first : Stays region s₀ Q x) (next : ∀ a, Q a → Stays region s₀ R (f a)) :
    Stays region s₀ R (x >>= f) :=
  fun s confined => ensures_bind (first s confined) fun a s' h => next a h.2 s' h.1

theorem stays_ofExcept {r : Except RuntimeError α} (h : ∀ a, r = .ok a → Q a) :
    Stays region s₀ Q (ofExcept r) := by
  cases r with
  | ok a => exact stays_succeed (h a rfl)
  | error e => exact stays_fail e

theorem stays_ite {C : Prop} [Decidable C] {y : Run α} (yes : Stays region s₀ Q x)
    (no : Stays region s₀ Q y) : Stays region s₀ Q (if C then x else y) := by
  split
  · exact yes
  · exact no

/-- A change of counters or of the output. -/
theorem stays_change {g : Store → α × Store} (frames : ∀ s, (g s).2.frames = s.frames)
    (fields : ∀ s, (g s).2.fields = s.fields) (h : ∀ s, Q (g s).1) :
    Stays region s₀ Q (change g) :=
  fun s confined => ⟨confined.of_eq (frames s) (fields s), h s⟩

end

/-- The value does not lead out of the region. -/
def Inside (region : Cell → Prop) (v : Value) : Prop := Encloses region v.cells

/-- The function's scope lies in the region. -/
def ScopeInside (region : Cell → Prop) (f : Closure) : Prop := Encloses region f.scope.cells

/-! ### Names and frames -/

section

variable {scope : Scope} (inside : Encloses region scope.cells)

include inside

theorem stays_get (name : Name) : Stays region s₀ (Inside region) (get scope name) := by
  intro s confined
  unfold Ensures get Store.get
  cases found : s.lookup? name scope.chain with
  | none => exact confined
  | some v => exact ⟨confined, confined.lookup? inside found⟩

theorem stays_assign (name : Name) {value : Value} (h : Inside region value) :
    Stays region s₀ (fun _ => True) (assign scope name value) := by
  intro s confined
  unfold Ensures assign Store.assign
  cases found : s.binder? name scope.chain with
  | none => exact confined
  | some f =>
    have mem : f ∈ scope.chain := List.mem_of_find?_eq_some found
    exact ⟨confined.bind (inside _ (List.mem_map_of_mem mem)) name h, trivial⟩

theorem stays_define (name : Name) {value : Value} (h : Inside region value) :
    Stays region s₀ (fun _ => True) (define scope name value) := by
  intro s confined
  have own : region (.frame scope.frame) := inside _ (by simp [Scope.cells, Scope.chain])
  unfold Ensures define Store.define
  by_cases taken : (!(scope.isRoot || scope.isGlobal) && (s.frame scope.frame).contains name) = true
  · rw [if_pos taken]
    exact confined
  · rw [if_neg taken]
    exact ⟨confined.bind own name h, trivial⟩

/-- A new frame is in the region, whatever is around it there. -/
theorem stays_push {b : Bindings} (h : ∀ name v, b.get? name = some v → Inside region v) :
    Stays region s₀ (fun inner => Encloses region inner.cells) (push scope b) := by
  intro s confined
  refine ⟨confined.push scope h, ?_⟩
  have absent : ¬ s₀.Has (.frame s.frames.size) :=
    fun old => Nat.lt_irrefl _ (confined.has _ old)
  intro c mem
  rcases List.mem_cons.mp mem with rfl | mem
  · exact confined.fresh _ absent
  · exact inside c mem

end

theorem inside_of_get?_singleton {name other : Name} {v w : Value} (h : Inside region w)
    (found : Bindings.get? other [(name, w)] = some v) : Inside region v := by
  unfold Bindings.get? at found
  split at found
  · cases found
    exact h
  · cases found

theorem stays_printLine (text : String) : Stays region s₀ (fun _ => True) (printLine text) := by
  intro s confined
  have written : s₀.Confined region (s.write (text ++ "\n")) := confined.of_eq rfl rfl
  unfold Ensures printLine
  dsimp only
  by_cases fits : s.output.fits (text ++ "\n") = true
  · rw [if_pos fits]
    exact ⟨written, trivial⟩
  · rw [if_neg fits]
    exact written

/-! ### Functions, classes and instances -/

theorem stays_newFunction {f : Closure} (h : ScopeInside region f) :
    Stays region s₀ (Inside region) (newFunction f) :=
  stays_bind (stays_change (Q := fun _ => True) (fun _ => rfl) (fun _ => rfl) fun _ => trivial)
    fun _ _ => stays_succeed (Closure.encloses_iff.mpr h)

theorem stays_bindMethod {method : Closure} {o : Object} (h : ScopeInside region method)
    (h' : Inside region (.object o)) :
    Stays region s₀ (ScopeInside region) (bindMethod method o) :=
  stays_bind (stays_push h fun _ _ found => inside_of_get?_singleton h' found)
    fun _ inside => stays_succeed inside

/-- A method that was found is bound and made into a value. -/
theorem stays_boundMethod {method : Closure} {o : Object} (h : ScopeInside region method)
    (h' : Inside region (.object o)) :
    Stays region s₀ (Inside region) (bindMethod method o >>= newFunction) :=
  stays_bind (stays_bindMethod h h') fun _ bound => stays_newFunction bound

theorem stays_getProperty {value : Value} (h : Inside region value) (name : Name) :
    Stays region s₀ (Inside region) (getProperty value name) := by
  cases value with
  | object o =>
    obtain ⟨own, methods⟩ := Object.encloses_iff.mp h
    refine stays_bind (Q := fun field => ∀ v, field = some v → Inside region v) ?_ fun field => ?_
    · exact fun s confined => ⟨confined, fun v found => confined.inside _ name v own found⟩
    · intro inside
      cases field with
      | some v => exact stays_succeed (inside v rfl)
      | none =>
        dsimp only
        cases found : o.cls.method? name with
        | some method => exact stays_boundMethod (methods.method? found) h
        | none => exact stays_fail _
  | _ => exact stays_fail _

theorem stays_setProperty {owner value : Value} (h : Inside region owner) (name : Name)
    (h' : Inside region value) :
    Stays region s₀ (fun _ => True) (setProperty owner name value) := by
  cases owner with
  | object o =>
    exact fun s confined => ⟨confined.setField (Object.encloses_iff.mp h).1 name h', trivial⟩
  | _ => exact stays_fail _

theorem stays_getSuperMethod {scope : Scope} (inside : Encloses region scope.cells) (name : Name) :
    Stays region s₀ (Inside region) (getSuperMethod scope name) := by
  refine stays_bind (stays_get inside superName) fun parent h => ?_
  refine stays_bind (stays_get inside thisName) fun this h' => ?_
  split
  · rename_i c o
    cases found : c.method? name with
    | some method => exact stays_boundMethod ((Class.encloses_iff.mp h).method? found) h'
    | none => exact stays_fail _
  · exact stays_fail _

/-! ### Class declarations -/

theorem stays_superclassOf {scope : Scope} (inside : Encloses region scope.cells)
    (superclass : Option Name) :
    Stays region s₀ (fun parent => ∀ c, parent = some c → c.EnclosedBy region)
      (superclassOf scope superclass) := by
  cases superclass with
  | none => exact stays_succeed fun c same => by cases same
  | some name =>
    refine stays_bind (stays_get inside name) fun v h => ?_
    cases v with
    | cls c =>
      refine stays_succeed fun c' same => ?_
      cases same
      exact Class.encloses_iff.mp h
    | _ => exact stays_fail _

theorem stays_methodScope {scope : Scope} (inside : Encloses region scope.cells)
    {parent : Option Class} (h : ∀ c, parent = some c → c.EnclosedBy region) :
    Stays region s₀ (fun inner => Encloses region inner.cells) (methodScope scope parent) := by
  cases parent with
  | none => exact stays_succeed inside
  | some c =>
    exact stays_push inside fun _ _ found =>
      inside_of_get?_singleton (Class.encloses_iff.mpr (h c rfl)) found

theorem stays_declareClass {scope : Scope} (inside : Encloses region scope.cells)
    (decl : ClassDecl) : Stays region s₀ (fun _ => True) (declareClass scope decl) := by
  refine stays_bind (stays_superclassOf inside decl.superclass) fun parent h => ?_
  refine stays_bind (stays_methodScope inside h) fun inner innerInside => ?_
  refine stays_bind (stays_change (Q := fun _ => True) (fun _ => rfl) (fun _ => rfl)
    fun _ => trivial) fun id _ => ?_
  refine stays_define inside _ (Class.encloses_iff.mpr fun body mem m mem' => ?_)
  rcases List.mem_cons.mp mem with rfl | mem
  · obtain ⟨d, -, rfl⟩ := List.mem_map.mp mem'
    exact innerInside
  · cases parent with
    | none => cases mem
    | some c => exact h c rfl body mem m mem'

/-! ### Operators and builtins -/

/-- A scalar leads nowhere. -/
theorem inside_of_isScalar {v : Value} (h : v.IsScalar) : Inside region v := by
  cases v with
  | function | native | cls | object => cases h
  | _ => exact fun _ mem => nomatch mem

theorem stays_ofExcept_scalar {r : Except RuntimeError Value} (h : Scalar r) :
    Stays region s₀ (Inside region) (ofExcept r) :=
  stays_ofExcept fun _ same => inside_of_isScalar (by rwa [same] at h)

theorem stays_checkArity (name : String) (arity : Arity) (args : List Value) :
    Stays region s₀ (fun _ => True) (checkArity name arity args) :=
  stays_ite (stays_succeed trivial) (stays_fail _)

theorem stays_callBuiltin (host : Host) (b : Builtin) (args : List Value) :
    Stays region s₀ (Inside region) (callBuiltin host b args) :=
  stays_bind (stays_change (Q := fun _ => True) (fun _ => rfl) (fun _ => rfl) fun _ => trivial)
    fun _ _ => stays_ofExcept_scalar (b.scalar_apply _ args)

/-! ### Lists and loops -/

theorem stays_values {eval : Expr → Run Value}
    (h : ∀ e, Stays region s₀ (Inside region) (eval e)) (es : List Expr) :
    Stays region s₀ (fun vs => ∀ v ∈ vs, Inside region v) (values eval es) := by
  induction es with
  | nil => exact stays_succeed (by simp)
  | cons e es ih =>
    refine stays_bind (h e) fun v first => stays_bind ih fun vs others => ?_
    exact stays_succeed (List.forall_mem_cons.mpr ⟨first, others⟩)

/-- The value of a `return` does not lead out of the region. -/
def FlowInside (region : Cell → Prop) (flow : Flow) : Prop := Encloses region flow.cells

theorem stays_statements {exec : Stmt → Run Flow}
    (h : ∀ stmt, Stays region s₀ (FlowInside region) (exec stmt)) (stmts : List Stmt) :
    Stays region s₀ (FlowInside region) (statements exec stmts) := by
  induction stmts with
  | nil => exact stays_succeed (by simp [FlowInside, Encloses, Flow.cells])
  | cons stmt stmts ih =>
    refine stays_bind (h stmt) fun flow inside => ?_
    cases flow with
    | normal => exact ih
    | «return» v => exact stays_succeed inside

theorem stays_loop {cond : Run Value} {body : Run Flow}
    (h : Stays region s₀ (Inside region) cond) (h' : Stays region s₀ (FlowInside region) body)
    (fuel : Nat) : Stays region s₀ (FlowInside region) (loop cond body fuel) := by
  have normal : FlowInside region .normal := by simp [FlowInside, Encloses, Flow.cells]
  induction fuel with
  | zero => exact stays_exhausted
  | succ fuel ih =>
    refine stays_bind h fun c _ => stays_ite ?_ (stays_succeed normal)
    refine stays_bind h' fun flow inside => ?_
    cases flow with
    | normal => exact ih
    | «return» v => exact stays_succeed inside

end Run

open Run

/-! ### The evaluator -/

/-- What the functions supplied to programs give back leads nowhere that their arguments do not
lead to. -/
def Host.PassesOn (host : Host) : Prop :=
  ∀ index args v, host.supplied index args = .ok v → ∀ c ∈ v.cells, ∃ a ∈ args, c ∈ a.cells

/-- With the given fuel, what is run inside a region stays in it. -/
structure EvalStays (host : Host) (fuel : Nat) (region : Cell → Prop) (s₀ : Store) : Prop where
  expr : ∀ scope e, Encloses region scope.cells →
    Stays region s₀ (Inside region) (evalExpr host fuel scope e)
  call : ∀ callee args, Inside region callee → (∀ a ∈ args, Inside region a) →
    Stays region s₀ (Inside region) (call host fuel callee args)
  closure : ∀ f args, ScopeInside region f → (∀ a ∈ args, Inside region a) →
    Stays region s₀ (Inside region) (callClosure host fuel f args)
  exec : ∀ scope stmt, Encloses region scope.cells →
    Stays region s₀ (FlowInside region) (exec host fuel scope stmt)

namespace EvalStays

variable {host : Host} {fuel : Nat} {region : Cell → Prop} {s₀ : Store}

theorem expr_succ (ih : EvalStays host fuel region s₀) {scope : Scope}
    (inside : Encloses region scope.cells) (e : Expr) :
    Stays region s₀ (Inside region) (evalExpr host (fuel + 1) scope e) := by
  have sub := fun e => ih.expr scope e inside
  have scalar : ∀ v : Value, v.IsScalar → Stays region s₀ (Inside region) (succeed v) :=
    fun v h => stays_succeed (inside_of_isScalar h)
  unfold evalExpr
  cases e with
  | nil => exact scalar _ trivial
  | number x => exact scalar _ trivial
  | bool b => exact scalar _ trivial
  | string text => exact scalar _ trivial
  | var name => exact stays_get inside name
  | unary op operand =>
    exact stays_bind (sub operand) fun v _ => stays_ofExcept_scalar (op.scalar_apply v)
  | binary op left right =>
    refine stays_bind (sub left) fun l _ => stays_bind (sub right) fun r _ => ?_
    exact stays_ofExcept_scalar (op.scalar_apply l r)
  | logic op left right =>
    exact stays_bind (sub left) fun l h => stays_ite (stays_succeed h) (sub right)
  | group e => exact sub e
  | assign name value =>
    refine stays_bind (sub value) fun v h => ?_
    exact stays_bind (stays_assign inside name h) fun _ _ => stays_succeed h
  | call callee args =>
    refine stays_bind (sub callee) fun c h => ?_
    exact stays_bind (stays_values sub args) fun vs h' => ih.call c vs h h'
  | get object name => exact stays_bind (sub object) fun o h => stays_getProperty h name
  | set object name value =>
    refine stays_bind (sub object) fun o h => stays_bind (sub value) fun v h' => ?_
    exact stays_bind (stays_setProperty h name h') fun _ _ => stays_succeed h'
  | this => exact stays_get inside thisName
  | super method => exact stays_getSuperMethod inside method

theorem call_succ (passes : host.PassesOn) (ih : EvalStays host fuel region s₀) {callee : Value}
    {args : List Value} (inside : Inside region callee) (inside' : ∀ a ∈ args, Inside region a) :
    Stays region s₀ (Inside region) (Lox.call host (fuel + 1) callee args) := by
  unfold Lox.call
  cases callee with
  | function id f =>
    exact stays_bind (stays_checkArity _ _ _) fun _ _ =>
      ih.closure f args (Closure.encloses_iff.mp inside) inside'
  | native f =>
    refine stays_bind (stays_checkArity _ _ _) fun _ _ => ?_
    cases f.body with
    | builtin b => exact stays_callBuiltin host b args
    | supplied index =>
      refine stays_ofExcept fun v given c mem => ?_
      obtain ⟨a, mem', mem⟩ := passes index args v given c mem
      exact inside' a mem' c mem
  | cls c =>
    have methods := Class.encloses_iff.mp inside
    refine stays_bind (stays_checkArity _ _ _) fun _ _ => ?_
    refine stays_bind (Q := fun o => Inside region (.object o)) ?_ fun o own => ?_
    · -- The fields of the new instance are new.
      intro s confined
      have absent : ¬ s₀.Has (.fields s.fields.size) :=
        fun old => Nat.lt_irrefl _ (confined.has _ old)
      exact ⟨confined.newObject c,
        Object.encloses_iff.mpr ⟨confined.fresh _ absent, methods⟩⟩
    · cases found : c.method? initializerName with
      | none => exact stays_succeed own
      | some init =>
        refine stays_bind (stays_bindMethod (methods.method? found) own) fun bound h => ?_
        exact stays_bind (ih.closure bound args h inside') fun _ _ => stays_succeed own
  | _ => exact stays_fail _

theorem closure_succ (ih : EvalStays host fuel region s₀) {f : Closure} {args : List Value}
    (inside : ScopeInside region f) (inside' : ∀ a ∈ args, Inside region a) :
    Stays region s₀ (Inside region) (callClosure host (fuel + 1) f args) := by
  unfold callClosure
  have params : ∀ name v, (Bindings.ofList (f.decl.params.zip args)).get? name = some v →
      Inside region v :=
    fun _ v found => inside' v (Bindings.mem_of_get?_params found).2
  refine stays_bind (stays_push inside params) fun frame frameInside => ?_
  refine stays_bind (stays_statements (fun stmt => ih.exec frame stmt frameInside) f.decl.body)
    fun flow h => ?_
  refine stays_ite (stays_get inside thisName) ?_
  cases flow with
  | normal => exact stays_succeed (inside_of_isScalar trivial)
  | «return» v => exact stays_succeed h

theorem exec_succ (ih : EvalStays host fuel region s₀) {scope : Scope}
    (inside : Encloses region scope.cells) (stmt : Stmt) :
    Stays region s₀ (FlowInside region) (Lox.exec host (fuel + 1) scope stmt) := by
  have sub := fun e => ih.expr scope e inside
  have normal : Stays region s₀ (FlowInside region) (succeed .normal) := by
    refine stays_succeed ?_
    rintro c ⟨⟩
  unfold Lox.exec
  cases stmt with
  | nop => exact normal
  | expr e => exact stays_bind (sub e) fun _ _ => normal
  | print e =>
    exact stays_bind (sub e) fun v _ => stays_bind (stays_printLine _) fun _ _ => normal
  | varDecl name init =>
    refine stays_bind (sub init) fun v h => ?_
    exact stays_bind (stays_define inside name h) fun _ _ => normal
  | funDecl decl =>
    refine stays_bind (stays_newFunction inside) fun f h => ?_
    exact stays_bind (stays_define inside decl.name h) fun _ _ => normal
  | classDecl decl => exact stays_bind (stays_declareClass inside decl) fun _ _ => normal
  | block body =>
    have empty : ∀ name v, Bindings.get? name [] = some v → Inside region v := by
      rintro name v ⟨⟩
    refine stays_bind (stays_push inside empty) fun inner h => ?_
    exact stays_statements (fun stmt => ih.exec inner stmt h) body
  | ite cond thenBranch elseBranch =>
    refine stays_bind (sub cond) fun c _ => ?_
    exact stays_ite (ih.exec scope thenBranch inside) (ih.exec scope elseBranch inside)
  | «while» cond body => exact stays_loop (sub cond) (ih.exec scope body inside) fuel
  | «for» init cond incr body => exact ih.exec scope _ inside
  | «return» e => exact stays_bind (sub e) fun v h => stays_succeed h

end EvalStays

theorem evalStays {host : Host} (passes : host.PassesOn) (fuel : Nat) (region : Cell → Prop)
    (s₀ : Store) : EvalStays host fuel region s₀ := by
  induction fuel with
  | zero => constructor <;> intros <;> exact stays_exhausted
  | succ fuel ih =>
    constructor
    case expr => exact fun _ e inside => ih.expr_succ inside e
    case call => exact fun _ _ inside inside' => ih.call_succ passes inside inside'
    case closure => exact fun _ _ inside inside' => ih.closure_succ inside inside'
    case exec => exact fun _ stmt inside => ih.exec_succ inside stmt

/-! ### What is within reach -/

/-- What a scope reaches, and whatever the store does not have yet. -/
def Store.Reach (s : Store) (scope : Scope) (c : Cell) : Prop := s.Has c → s.Reaches scope.cells c

theorem Store.confined_reach (s : Store) (scope : Scope) : s.Confined (s.Reach scope) s := by
  refine ⟨fun c absent has => absurd has absent, fun _ has => has, fun _ _ => rfl, ?_⟩
  intro c name v reach found d mem _
  refine .step (reach ?_) found mem
  -- A cell that the store does not have holds nothing.
  by_contra absent
  rw [contents_of_not_has absent] at found
  cases found

theorem Store.Confined.onlyTouches {s s' : Store} {scope : Scope}
    (h : s.Confined (s.Reach scope) s') : s.OnlyTouches scope s' := by
  have unreached : ∀ c, s.Has c → ¬ s.Reaches scope.cells c → s'.contents c = s.contents c :=
    fun c has notReached => h.outside c fun reach => notReached (reach has)
  refine ⟨h.has, unreached, fun f inside notAround notCaptured => ?_⟩
  refine unreached (.frame f) inside fun reached => ?_
  rcases reached.captured with around | ⟨g, holds, captured⟩
  · exact notAround around
  · exact notCaptured g holds captured

/-- Whatever is run in a scope, and however it ends, only what the scope reaches has changed; and of
what was there before, the result reaches only what the scope reached. -/
theorem ensures_onlyTouches {host : Host} (passes : host.PassesOn) (fuel : Nat) (scope : Scope)
    (s : Store) :
    (∀ e, Ensures s (evalExpr host fuel scope e)
      (fun v s' => s.OnlyTouches scope s' ∧
        ∀ c, s.Has c → s'.Reaches v.cells c → s.Reaches scope.cells c)
      (fun _ s' => s.OnlyTouches scope s')) ∧
    ∀ stmt, Ensures s (exec host fuel scope stmt)
      (fun flow s' => s.OnlyTouches scope s' ∧
        ∀ c, s.Has c → s'.Reaches flow.cells c → s.Reaches scope.cells c)
      (fun _ s' => s.OnlyTouches scope s') := by
  have stays := evalStays passes fuel (s.Reach scope) s
  have inside : Encloses (s.Reach scope) scope.cells := fun c mem _ => .root mem
  constructor
  · intro e
    refine (stays.expr scope e inside s (s.confined_reach scope)).mono ?_ fun _ _ h => h.onlyTouches
    exact fun v s' h => ⟨h.1.onlyTouches, fun c has reached => h.1.reaches h.2 reached has⟩
  · intro stmt
    refine (stays.exec scope stmt inside s (s.confined_reach scope)).mono ?_
      fun _ _ h => h.onlyTouches
    exact fun flow s' h => ⟨h.1.onlyTouches, fun c has reached => h.1.reaches h.2 reached has⟩

/-- Two functions that each flip a variable of their own. The first is a global, the second is bound
in a block that is over. -/
def Store.twoFlips : Store :=
  let flip (scope : Scope) : Value :=
    .function 0 ⟨⟨"flip", [], [.expr (.assign "on" (.unary .not (.var "on")))]⟩, scope, false⟩
  ⟨#[[], [("first", flip ⟨2, [1, 0]⟩)], [("on", .bool true)], [("on", .bool true)],
    [("second", flip ⟨3, [1, 0]⟩)]], #[], 1, 0, .empty none⟩

/-- Nothing global leads to the second function or to its variable. -/
theorem Store.confined_twoFlips :
    twoFlips.Confined (fun c => c ≠ .frame 3 ∧ c ≠ .frame 4) twoFlips := by
  refine ⟨fun c absent => ?_, fun _ has => has, fun _ _ => rfl, fun c name v inside found => ?_⟩
  · constructor
    · rintro rfl
      exact absent (show 3 < 5 by decide)
    · rintro rfl
      exact absent (show 4 < 5 by decide)
  · match c with
    | .frame 0 => cases found
    | .frame 1 =>
      refine inside_of_get?_singleton ?_ found
      unfold Inside Encloses
      decide
    | .frame 2 =>
      refine inside_of_get?_singleton ?_ found
      exact inside_of_isScalar trivial
    | .frame 3 => exact absurd rfl inside.1
    | .frame 4 => exact absurd rfl inside.2
    | .frame (f + 5) => cases found
    | .fields a => cases found

theorem Host.passesOn_first : Host.first.PassesOn := by
  rintro index args v ⟨⟩ c mem
  cases args with
  | nil => cases mem
  | cons a rest => exact ⟨a, List.mem_cons_self, mem⟩

/-- Calling the first function flips its own variable and leaves the other as it is. -/
theorem ensures_onlyTouches_twoFlips :
    Host.first.PassesOn ∧ ∃ s',
      evalExpr Host.first 10 ⟨1, [0]⟩ (.call (.var "first") []) .twoFlips = .ok .nil s' ∧
        s'.frame 2 = [("on", .bool false)] ∧ s'.frame 3 = [("on", .bool true)] := by
  have ran : ∃ s', evalExpr Host.first 10 ⟨1, [0]⟩ (.call (.var "first") []) .twoFlips =
      .ok .nil s' ∧ s'.frame 2 = [("on", .bool false)] := by
    refine ⟨_, rfl, ?_⟩
    rfl
  obtain ⟨s', ran, flipped⟩ := ran
  have touches := ((ensures_onlyTouches Host.passesOn_first 10 ⟨1, [0]⟩ .twoFlips).1 _).of_ok ran
  have roots : Encloses (fun c => c ≠ .frame 3 ∧ c ≠ .frame 4) (Scope.cells ⟨1, [0]⟩) := by
    unfold Encloses
    decide
  have same := touches.1.unreached (.frame 3) (show 3 < 5 by decide)
    fun reached => (Store.confined_twoFlips.reaches roots reached).1 rfl
  exact ⟨Host.passesOn_first, s', ran, flipped, same⟩

end Lox
