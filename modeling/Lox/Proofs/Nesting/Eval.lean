import Lox.Proofs.Nesting.Layout
import Lox.Proofs.Operator

/-!
Running code keeps to a layout.

A computation keeps to a layout if from every store that is laid out it leads to a store that is
laid out by a later layout, whether it succeeds or fails; what it gives fits the later layout
(`Run.Lays`). Each operation of the evaluator that makes a frame or a class adds it to the layout,
and no other changes the layout. By one induction on the fuel the same holds of expressions, calls
and statements (`evalLays`), of any program, checked or not.
-/

namespace Lox

/-- A frame that binds one name has one value. -/
theorem Bindings.eq_of_get?_singleton {name other : Name} {v w : Value}
    (found : get? other [(name, w)] = some v) : v = w := by
  unfold get? at found
  split at found
  · exact (Option.some.inj found).symm
  · cases found

namespace Run

variable {α β : Type} {l : Layout}

/-! ### Computations that keep to a layout -/

/-- From a store that is laid out, the computation leads to one that is laid out by a later layout.
Its value has the property in that layout. -/
def Lays (l : Layout) (Q : α → Layout → Prop) (x : Run α) : Prop :=
  ∀ s, s.LaidOut l →
    Ensures s x (fun a s' => ∃ l', l.Within l' ∧ s'.LaidOut l' ∧ Q a l')
      (fun _ s' => ∃ l', l.Within l' ∧ s'.LaidOut l')

section

variable {Q : α → Layout → Prop} {R : β → Layout → Prop} {x : Run α} {f : α → Run β}

theorem lays_succeed {a : α} (h : Q a l) : Lays l Q (succeed a) :=
  fun _ laidOut => ⟨l, .refl l, laidOut, h⟩

theorem lays_fail (e : RuntimeError) : Lays l Q (fail e) :=
  fun _ laidOut => ⟨l, .refl l, laidOut⟩

theorem lays_exhausted : Lays l Q exhausted := fun _ _ => trivial

theorem lays_bind (first : Lays l Q x)
    (next : ∀ a l', l.Within l' → Q a l' → Lays l' R (f a)) : Lays l R (x >>= f) := by
  intro s laidOut
  apply ensures_bind (first s laidOut)
  rintro a s' ⟨l', within, laidOut', h⟩
  apply Ensures.mono (next a l' within h s' laidOut')
  · rintro b s'' ⟨l'', within', rest⟩
    exact ⟨l'', within.trans within', rest⟩
  · rintro e s'' ⟨l'', within', rest⟩
    exact ⟨l'', within.trans within', rest⟩

theorem lays_ofExcept {r : Except RuntimeError α} (h : ∀ a, r = .ok a → Q a l) :
    Lays l Q (ofExcept r) := by
  cases r with
  | ok a => exact lays_succeed (h a rfl)
  | error e => exact lays_fail e

theorem lays_ite {C : Prop} [Decidable C] {y : Run α} (yes : Lays l Q x) (no : Lays l Q y) :
    Lays l Q (if C then x else y) := by
  split
  · exact yes
  · exact no

/-- A change that needs no new frames and classes. -/
theorem lays_change {g : Store → α × Store}
    (h : ∀ s, s.LaidOut l → (g s).2.LaidOut l ∧ Q (g s).1 l) : Lays l Q (change g) :=
  fun s laidOut => ⟨l, .refl l, h s laidOut⟩

end

/-! ### Names and frames -/

theorem lays_get (scope : Scope) (name : Name) : Lays l Value.Fits (get scope name) := by
  intro s laidOut
  unfold Ensures get Store.get
  cases found : s.lookup? name scope.chain with
  | none => exact ⟨l, .refl l, laidOut⟩
  | some v => exact ⟨l, .refl l, laidOut, laidOut.lookup? found⟩

theorem lays_assign (scope : Scope) (name : Name) {value : Value} (fits : value.Fits l) :
    Lays l (fun _ _ => True) (assign scope name value) := by
  intro s laidOut
  unfold Ensures assign Store.assign
  cases s.binder? name scope.chain with
  | none => exact ⟨l, .refl l, laidOut⟩
  | some f => exact ⟨l, .refl l, laidOut.bind f name fits, trivial⟩

theorem lays_define (scope : Scope) (name : Name) {value : Value} (fits : value.Fits l) :
    Lays l (fun _ _ => True) (define scope name value) := by
  intro s laidOut
  unfold Ensures define Store.define
  by_cases taken : (!(scope.isRoot || scope.isGlobal) && (s.frame scope.frame).contains name) = true
  · rw [if_pos taken]
    exact ⟨l, .refl l, laidOut⟩
  · rw [if_neg taken]
    exact ⟨l, .refl l, laidOut.bind scope.frame name fits, trivial⟩

/-- A new frame takes its place inside the scope it is made in. -/
theorem lays_push {scope : Scope} (known : l.scopes scope) {b : Bindings}
    (fit : ∀ name v, b.get? name = some v → v.Fits l) :
    Lays l (fun inner l' => l'.scopes inner) (push scope b) :=
  fun _ laidOut => ⟨_, l.within_addScope known _ _, laidOut.push known fit, .inr rfl⟩

theorem lays_printLine (text : String) : Lays l (fun _ _ => True) (printLine text) := by
  intro s laidOut
  have written : (s.write (text ++ "\n")).LaidOut l := ⟨laidOut.frames, laidOut.ids, laidOut.values⟩
  unfold Ensures printLine
  dsimp only
  by_cases fits : s.output.fits (text ++ "\n") = true
  · rw [if_pos fits]
    exact ⟨l, .refl l, written, trivial⟩
  · rw [if_neg fits]
    exact ⟨l, .refl l, written⟩

/-! ### Functions, classes and instances -/

theorem lays_newFunction {f : Closure} (known : l.scopes f.scope) :
    Lays l Value.Fits (newFunction f) := by
  refine lays_bind (Q := fun _ _ => True) ?_ fun id l' within _ => ?_
  · exact fun s laidOut => ⟨l, .refl l, laidOut.freshId, trivial⟩
  · exact lays_succeed (a := Value.function id f) (within.scopes _ known)

theorem lays_bindMethod {method : Closure} {o : Object} (known : l.scopes method.scope)
    (fits : l.classes o.cls) :
    Lays l (fun bound l' => l'.scopes bound.scope) (bindMethod method o) := by
  refine lays_bind (lays_push known fun name v found => ?_) fun inner l' _ inside => ?_
  · rw [Bindings.eq_of_get?_singleton found]
    exact fits
  · exact lays_succeed inside

/-- A method that was found is bound and made into a value. -/
theorem lays_boundMethod {method : Closure} {o : Object} (known : l.scopes method.scope)
    (fits : l.classes o.cls) : Lays l Value.Fits (bindMethod method o >>= newFunction) :=
  lays_bind (lays_bindMethod known fits) fun _ _ _ bound => lays_newFunction bound

theorem lays_getProperty {value : Value} (fits : value.Fits l) (name : Name) :
    Lays l Value.Fits (getProperty value name) := by
  cases value with
  | object o =>
    refine lays_bind (Q := fun field l' => ∀ v, field = some v → v.Fits l') ?_
      fun field l' within fieldFits => ?_
    · exact fun s laidOut =>
        ⟨l, .refl l, laidOut, laidOut.values (.fields o.address) name⟩
    · cases field with
      | some v => exact lays_succeed (fieldFits v rfl)
      | none =>
        have known := within.classes o.cls fits
        dsimp only
        cases found : o.cls.method? name with
        | some method => exact lays_boundMethod (l'.method? known found) known
        | none => exact lays_fail _
  | _ => exact lays_fail _

theorem lays_setProperty (owner : Value) (name : Name) {value : Value} (fits : value.Fits l) :
    Lays l (fun _ _ => True) (setProperty owner name value) := by
  cases owner with
  | object o => exact fun s laidOut => ⟨l, .refl l, laidOut.setField o name fits, trivial⟩
  | _ => exact lays_fail _

theorem lays_getSuperMethod (scope : Scope) (name : Name) :
    Lays l Value.Fits (getSuperMethod scope name) := by
  refine lays_bind (lays_get scope superName) fun parent l₁ _ parentFits => ?_
  refine lays_bind (lays_get scope thisName) fun this l₂ within thisFits => ?_
  split
  · rename_i c o
    have known : l₂.classes c := within.classes c parentFits
    cases found : c.method? name with
    | some method => exact lays_boundMethod (l₂.method? known found) thisFits
    | none => exact lays_fail _
  · exact lays_fail _

/-! ### Class declarations -/

theorem lays_superclassOf (scope : Scope) (superclass : Option Name) :
    Lays l (fun parent l' => ∀ c, parent = some c → l'.classes c)
      (superclassOf scope superclass) := by
  cases superclass with
  | none => exact lays_succeed fun c same => by cases same
  | some name =>
    refine lays_bind (lays_get scope name) fun v l' _ fits => ?_
    cases v with
    | cls c =>
      refine lays_succeed fun c' same => ?_
      cases same
      exact fits
    | _ => exact lays_fail _

theorem lays_methodScope {scope : Scope} (known : l.scopes scope) {parent : Option Class}
    (fits : ∀ c, parent = some c → l.classes c) :
    Lays l (fun inner l' => l'.scopes inner) (methodScope scope parent) := by
  cases parent with
  | none => exact lays_succeed known
  | some c =>
    refine lays_push known fun name v found => ?_
    rw [Bindings.eq_of_get?_singleton found]
    exact fits c rfl

/-- A class is made with the next number, below a class that has one already: a class that is
declared again is another class, and those that were below it stay below the old one. -/
theorem lays_defineClass (scope : Scope) {name : Name} {methods : List Closure}
    (known : ∀ m ∈ methods, l.scopes m.scope) {ancestors : List ClassBody}
    (below : ∀ c : Class, ancestors = c.lineage → l.classes c) :
    Lays l (fun _ _ => True) (change Store.freshId >>= fun id =>
      define scope name (.cls ⟨⟨id, name, methods⟩, ancestors⟩)) := by
  refine lays_bind (Q := fun id l' => l'.classes ⟨⟨id, name, methods⟩, ancestors⟩) ?_
    fun id l' _ made => lays_define scope name (made : (Value.cls _).Fits l')
  intro s laidOut
  exact ⟨_, l.within_addClass _ _ _, laidOut.newClass (c := ⟨⟨s.nextId, name, methods⟩, ancestors⟩)
    (fun d same => below d (Class.superclass?_eq_some.mp same)) known rfl, .inr rfl⟩

theorem lays_declareClass {scope : Scope} (known : l.scopes scope) (decl : ClassDecl) :
    Lays l (fun _ _ => True) (declareClass scope decl) := by
  refine lays_bind (lays_superclassOf scope decl.superclass) fun parent l₁ within parentFits => ?_
  refine lays_bind (lays_methodScope (within.scopes scope known) parentFits)
    fun inner l₂ within' inside => ?_
  refine lays_defineClass scope (fun m mem => ?_) fun c same => ?_
  · obtain ⟨d, -, rfl⟩ := List.mem_map.mp mem
    exact inside
  · cases parent with
    | none => cases same
    | some d =>
      rw [← Class.lineage_injective same]
      exact within'.classes d (parentFits d rfl)

/-! ### Operators and builtins -/

theorem fits_of_isScalar {v : Value} (h : v.IsScalar) : v.Fits l := by
  cases v with
  | function | native | cls | object => cases h
  | _ => trivial

theorem lays_ofExcept_scalar {r : Except RuntimeError Value} (h : Scalar r) :
    Lays l Value.Fits (ofExcept r) :=
  lays_ofExcept fun _ same => fits_of_isScalar (by rwa [same] at h)

theorem lays_checkArity (name : String) (arity : Arity) (args : List Value) :
    Lays l (fun _ _ => True) (checkArity name arity args) :=
  lays_ite (lays_succeed trivial) (lays_fail _)

theorem lays_callBuiltin (host : Host) (b : Builtin) (args : List Value) :
    Lays l Value.Fits (callBuiltin host b args) :=
  lays_bind (Q := fun _ _ => True)
    (lays_change fun _ laidOut => ⟨⟨laidOut.frames, laidOut.ids, laidOut.values⟩, trivial⟩)
    fun _ _ _ _ => lays_ofExcept_scalar (b.scalar_apply _ args)

/-! ### Lists and loops -/

theorem lays_values {eval : Expr → Run Value}
    (h : ∀ e l', l.Within l' → Lays l' Value.Fits (eval e)) (es : List Expr) :
    Lays l (fun vs l' => ∀ v ∈ vs, v.Fits l') (values eval es) := by
  induction es generalizing l with
  | nil => exact lays_succeed (by simp)
  | cons e es ih =>
    refine lays_bind (h e l (.refl l)) fun v l₁ within first => ?_
    have later := fun e l' within' => h e l' (within.trans within')
    refine lays_bind (ih later) fun vs l₂ within' others => ?_
    exact lays_succeed (List.forall_mem_cons.mpr ⟨first.within within', others⟩)

end Run

/-- The value of a `return` fits the layout. -/
def Flow.Fits : Flow → Layout → Prop
  | .normal, _ => True
  | .return v, l => v.Fits l

namespace Run

variable {l : Layout}

theorem lays_statements {exec : Stmt → Run Flow}
    (h : ∀ stmt l', l.Within l' → Lays l' Flow.Fits (exec stmt)) (stmts : List Stmt) :
    Lays l Flow.Fits (statements exec stmts) := by
  induction stmts generalizing l with
  | nil => exact lays_succeed (a := Flow.normal) trivial
  | cons stmt stmts ih =>
    refine lays_bind (h stmt l (.refl l)) fun flow l' within fits => ?_
    cases flow with
    | normal => exact ih fun stmt l'' within' => h stmt l'' (within.trans within')
    | «return» v => exact lays_succeed fits

theorem lays_loop {cond : Run Value} {body : Run Flow}
    (h : ∀ l', l.Within l' → Lays l' Value.Fits cond)
    (h' : ∀ l', l.Within l' → Lays l' Flow.Fits body) (fuel : Nat) :
    Lays l Flow.Fits (loop cond body fuel) := by
  induction fuel generalizing l with
  | zero => exact lays_exhausted
  | succ fuel ih =>
    refine lays_bind (h l (.refl l)) fun c l₁ within _ => ?_
    refine lays_ite ?_ (lays_succeed (a := Flow.normal) trivial)
    refine lays_bind (h' l₁ within) fun flow l₂ within' fits => ?_
    cases flow with
    | normal =>
      have sofar := within.trans within'
      exact ih (fun l' later => h l' (sofar.trans later)) fun l' later => h' l' (sofar.trans later)
    | «return» v => exact lays_succeed fits

end Run

open Run

/-! ### The evaluator -/

/-- The functions of the value have scopes of functions of the arguments, and its classes are those
of the arguments or superclasses of these. -/
structure Value.SharedBy (args : List Value) (v : Value) : Prop where
  functions : ∀ f ∈ v.functions, ∃ a ∈ args, ∃ g ∈ a.functions, f.scope = g.scope
  classes : ∀ c ∈ v.classes, ∃ a ∈ args, ∃ d ∈ a.classes, c.lineage <:+ d.lineage

/-- What the functions supplied to programs give back has its scopes and classes from their
arguments. -/
def Host.Shares (host : Host) : Prop :=
  ∀ index args v, host.supplied index args = .ok v → v.SharedBy args

theorem Value.SharedBy.fits {l : Layout} {args : List Value} {v : Value} (h : v.SharedBy args)
    (fit : ∀ a ∈ args, a.Fits l) : v.Fits l := by
  apply Value.Fits.intro
  · intro f mem
    obtain ⟨a, inside, g, mem, same⟩ := h.functions f mem
    rw [same]
    exact (fit a inside).functions g mem
  · intro c mem
    obtain ⟨a, inside, d, mem, ancestor⟩ := h.classes c mem
    exact l.above d ((fit a inside).classes d mem) c ancestor

/-- With the given fuel, what runs in a scope of a layout keeps to the layout. -/
structure EvalLays (host : Host) (fuel : Nat) : Prop where
  expr : ∀ {l scope} (e : Expr), l.scopes scope → Lays l Value.Fits (evalExpr host fuel scope e)
  call : ∀ {l callee args}, callee.Fits l → (∀ a ∈ args, a.Fits l) →
    Lays l Value.Fits (call host fuel callee args)
  closure : ∀ {l f args}, l.scopes f.scope → (∀ a ∈ args, a.Fits l) →
    Lays l Value.Fits (callClosure host fuel f args)
  exec : ∀ {l scope} (stmt : Stmt), l.scopes scope → Lays l Flow.Fits (exec host fuel scope stmt)

namespace EvalLays

variable {host : Host} {fuel : Nat} {l : Layout} {scope : Scope}

theorem expr_succ (ih : EvalLays host fuel) (e : Expr) (known : l.scopes scope) :
    Lays l Value.Fits (evalExpr host (fuel + 1) scope e) := by
  have sub : ∀ e l', l.Within l' → Lays l' Value.Fits (evalExpr host fuel scope e) :=
    fun e l' within => ih.expr e (within.scopes scope known)
  have scalar : ∀ v : Value, v.IsScalar → Lays l Value.Fits (succeed v) :=
    fun v h => lays_succeed (fits_of_isScalar h)
  unfold evalExpr
  cases e with
  | nil => exact scalar _ trivial
  | number x => exact scalar _ trivial
  | bool b => exact scalar _ trivial
  | string text => exact scalar _ trivial
  | var name => exact lays_get scope name
  | unary op operand =>
    exact lays_bind (sub operand l (.refl l)) fun v _ _ _ =>
      lays_ofExcept_scalar (op.scalar_apply v)
  | binary op left right =>
    refine lays_bind (sub left l (.refl l)) fun a l₁ within _ => ?_
    refine lays_bind (sub right l₁ within) fun b _ _ _ => ?_
    exact lays_ofExcept_scalar (op.scalar_apply a b)
  | logic op left right =>
    refine lays_bind (sub left l (.refl l)) fun a l₁ within fits => ?_
    exact lays_ite (lays_succeed fits) (sub right l₁ within)
  | group e => exact sub e l (.refl l)
  | assign name value =>
    refine lays_bind (sub value l (.refl l)) fun v l₁ _ fits => ?_
    exact lays_bind (lays_assign scope name fits) fun _ _ within _ =>
      lays_succeed (fits.within within)
  | call callee args =>
    refine lays_bind (sub callee l (.refl l)) fun c l₁ within calleeFits => ?_
    have later := fun e l' within' => sub e l' (within.trans within')
    refine lays_bind (lays_values later args) fun vs l₂ within' fit => ?_
    exact ih.call (calleeFits.within within') fit
  | get object name =>
    exact lays_bind (sub object l (.refl l)) fun o _ _ fits => lays_getProperty fits name
  | set object name value =>
    refine lays_bind (sub object l (.refl l)) fun o l₁ within _ => ?_
    refine lays_bind (sub value l₁ within) fun v l₂ _ fits => ?_
    exact lays_bind (lays_setProperty o name fits) fun _ _ within' _ =>
      lays_succeed (fits.within within')
  | this => exact lays_get scope thisName
  | super method => exact lays_getSuperMethod scope method

theorem call_succ (shares : host.Shares) (ih : EvalLays host fuel) {callee : Value}
    {args : List Value} (fits : callee.Fits l) (fit : ∀ a ∈ args, a.Fits l) :
    Lays l Value.Fits (Lox.call host (fuel + 1) callee args) := by
  unfold Lox.call
  cases callee with
  | function id f =>
    refine lays_bind (lays_checkArity _ _ _) fun _ l' within _ => ?_
    exact ih.closure (within.scopes _ fits) fun a mem => (fit a mem).within within
  | native f =>
    refine lays_bind (lays_checkArity _ _ _) fun _ l' within _ => ?_
    cases f.body with
    | builtin b => exact lays_callBuiltin host b args
    | supplied index =>
      refine lays_ofExcept fun v given => ?_
      exact (shares index args v given).fits fun a mem => (fit a mem).within within
  | cls c =>
    refine lays_bind (lays_checkArity _ _ _) fun _ l₁ within _ => ?_
    refine lays_bind (Q := fun o l' => o.cls = c ∧ l'.classes o.cls) ?_ fun o l₂ within' made => ?_
    · exact lays_change fun s laidOut =>
        ⟨laidOut.newObject c, rfl, within.classes c fits⟩
    · obtain ⟨rfl, known⟩ := made
      cases found : o.cls.method? initializerName with
      | none => exact lays_succeed (a := Value.object o) known
      | some init =>
        refine lays_bind (lays_bindMethod (l₂.method? known found) known)
          fun bound l₃ within'' boundKnown => ?_
        have sofar := (within.trans within').trans within''
        refine lays_bind (ih.closure boundKnown fun a mem => (fit a mem).within sofar)
          fun _ l₄ later _ => ?_
        exact lays_succeed (a := Value.object o) ((within''.trans later).classes _ known)
  | _ => exact lays_fail _

theorem closure_succ (ih : EvalLays host fuel) {f : Closure} {args : List Value}
    (known : l.scopes f.scope) (fit : ∀ a ∈ args, a.Fits l) :
    Lays l Value.Fits (callClosure host (fuel + 1) f args) := by
  unfold callClosure
  have params : ∀ name v, (Bindings.ofList (f.decl.params.zip args)).get? name = some v →
      v.Fits l :=
    fun _ v found => fit v (Bindings.mem_of_get?_params found).2
  refine lays_bind (lays_push known params) fun frame l₁ _ inside => ?_
  have body := lays_statements (fun stmt l' within => ih.exec stmt (within.scopes frame inside))
    f.decl.body
  refine lays_bind body fun flow l₂ _ fits => ?_
  refine lays_ite (lays_get f.scope thisName) ?_
  cases flow with
  | normal => exact lays_succeed (a := Value.nil) trivial
  | «return» v => exact lays_succeed fits

theorem exec_succ (ih : EvalLays host fuel) (stmt : Stmt) (known : l.scopes scope) :
    Lays l Flow.Fits (Lox.exec host (fuel + 1) scope stmt) := by
  have sub : ∀ e l', l.Within l' → Lays l' Value.Fits (evalExpr host fuel scope e) :=
    fun e l' within => ih.expr e (within.scopes scope known)
  have normal : ∀ l', Lays l' Flow.Fits (succeed .normal) :=
    fun l' => lays_succeed (a := Flow.normal) trivial
  unfold Lox.exec
  cases stmt with
  | nop => exact normal l
  | expr e => exact lays_bind (sub e l (.refl l)) fun _ l' _ _ => normal l'
  | print e =>
    refine lays_bind (sub e l (.refl l)) fun v _ _ _ => ?_
    exact lays_bind (lays_printLine _) fun _ l' _ _ => normal l'
  | varDecl name init =>
    refine lays_bind (sub init l (.refl l)) fun v _ _ fits => ?_
    exact lays_bind (lays_define scope name fits) fun _ l' _ _ => normal l'
  | funDecl decl =>
    refine lays_bind (lays_newFunction known) fun f _ _ fits => ?_
    exact lays_bind (lays_define scope decl.name fits) fun _ l' _ _ => normal l'
  | classDecl decl => exact lays_bind (lays_declareClass known decl) fun _ l' _ _ => normal l'
  | block body =>
    refine lays_bind (lays_push known ?_) fun inner l' _ inside => ?_
    · rintro name v ⟨⟩
    · exact lays_statements (fun stmt l'' within => ih.exec stmt (within.scopes inner inside)) body
  | ite cond thenBranch elseBranch =>
    refine lays_bind (sub cond l (.refl l)) fun c l' within _ => ?_
    have known' := within.scopes scope known
    exact lays_ite (ih.exec thenBranch known') (ih.exec elseBranch known')
  | «while» cond body =>
    exact lays_loop (sub cond) (fun l' within => ih.exec body (within.scopes scope known)) fuel
  | «for» init cond incr body => exact ih.exec _ known
  | «return» e => exact lays_bind (sub e l (.refl l)) fun v _ _ fits => lays_succeed fits

end EvalLays

theorem evalLays {host : Host} (shares : host.Shares) (fuel : Nat) : EvalLays host fuel := by
  induction fuel with
  | zero => constructor <;> intros <;> exact lays_exhausted
  | succ fuel ih => exact ⟨ih.expr_succ, ih.call_succ shares, ih.closure_succ, ih.exec_succ⟩

/-- A program keeps to the layout wherever it runs, and so does one that fails. -/
theorem lays_execProgram {host : Host} (shares : host.Shares) (fuel : Nat) {l : Layout}
    {scope : Scope} (known : l.scopes scope) {last : Value} (fits : last.Fits l)
    (stmts : List Stmt) : Lays l Value.Fits (execProgram host fuel scope last stmts) := by
  have ih := evalLays shares fuel
  induction stmts generalizing l last with
  | nil => exact lays_succeed fits
  | cons stmt rest others =>
    cases stmt with
    | expr e =>
      refine lays_bind (ih.expr e known) fun v l' within fits => ?_
      exact others (within.scopes scope known) fits
    | _ =>
      refine lays_bind (ih.exec _ known) fun flow l' within _ => ?_
      cases flow with
      | normal => exact others (within.scopes scope known) trivial
      | «return» v => exact lays_fail _

end Lox
