import Lox.Proofs.Classes.State
import Lox.Proofs.Nesting.Eval
import Lox.Proofs.Operator
import Lox.Proofs.Soundness.Eval

/-!
Running checked programs keeps classes and functions in order.

A work is required to begin where its text was checked, with values that are sound; then it gives
sound values, and a `return` only where the checks let one stand, from an initializer only with `nil`
(`Setting.contract`). Each operation of the evaluator is sound on such values, and so are the plans
that are put together from them (`Setting.kept`).
-/

namespace Lox

open Check (ClassKind FunctionKind)
open Run

/-! ### What is required and what is given -/

/-- The expression was checked and may be evaluated in the scope. -/
def Expr.Placed (k : Setting) (s : Store) (scope : Scope) (e : Expr) : Prop :=
  ∃ around, (Part.expr e).Placed k s scope around ∧
    Check.expr (Inside.kindOf around) e = .ok () ∧ e.Regular

/-- The statement was checked and may be executed in the scope. -/
def Stmt.Placed (k : Setting) (s : Store) (scope : Scope) (stmt : Stmt) : Prop :=
  ∃ around kind, (Part.stmt stmt).Placed k s scope around ∧
    Check.stmt ⟨kind, Inside.kindOf around⟩ stmt = .ok () ∧ stmt.Regular

/-- The value of a `return` is sound. -/
def Flow.Sound (k : Setting) (s : Store) : Flow → Prop
  | .normal => True
  | .return v => v.Sound k s

/-- Functions of the kind may complete like this: there are no functions of the kind that stands for
code outside all functions, and initializers only give `nil`. -/
def Flow.Allowed (kind : FunctionKind) : Flow → Prop
  | .normal => True
  | .return v => kind ≠ .none ∧ (kind = .initializer → v = .nil)

namespace Setting

/-- What a work needs: its text may be run where it is, its values are sound, and the body of a
function is given as many arguments as there are parameters. -/
def Requires (k : Setting) (s : Store) : Work → Prop
  | .expr _ scope e => e.Placed k s scope
  | .values _ scope es => ∀ e ∈ es, e.Placed k s scope
  | .call _ callee args => callee.Sound k s ∧ ∀ a ∈ args, a.Sound k s
  | .closure _ f args =>
    f.Sound k s ∧ (∀ a ∈ args, a.Sound k s) ∧ args.length = f.decl.params.length
  | .exec _ scope stmt => stmt.Placed k s scope
  | .block _ scope stmts => ∀ stmt ∈ stmts, stmt.Placed k s scope
  | .loop _ _ scope cond body => cond.Placed k s scope ∧ body.Placed k s scope
  | .program _ scope last stmts => last.Sound k s ∧ ∀ stmt ∈ stmts, stmt.Placed k s scope

/-- What a work gives: sound values; and statements complete as any place where they may stand
allows. -/
def Gives (k : Setting) : (w : Work) → w.Result → Store → Prop
  | .expr _ _ _, v, s | .call _ _ _, v, s | .closure _ _ _, v, s | .program _ _ _ _, v, s =>
    v.Sound k s
  | .values _ _ _, vs, s => ∀ v ∈ vs, v.Sound k s
  | .exec _ _ stmt, flow, s =>
    flow.Sound k s ∧ ∀ place, Check.stmt place stmt = .ok () → flow.Allowed place.function
  | .block _ _ stmts, flow, s =>
    flow.Sound k s ∧ ∀ place, (∀ stmt ∈ stmts, Check.stmt place stmt = .ok ()) →
      flow.Allowed place.function
  | .loop _ _ _ _ body, flow, s =>
    flow.Sound k s ∧ ∀ place, Check.stmt place body = .ok () → flow.Allowed place.function

/-- The contract about classes and functions. -/
def contract (k : Setting) : Contract where
  holds := Store.Sound k
  follows := Store.Later
  refl := .refl
  trans := .trans
  requires w s := k.Requires s w
  gives := k.Gives

end Setting

section

variable {k : Setting} {s s' : Store} {scope : Scope}

theorem Expr.Placed.later {e : Expr} (h : e.Placed k s scope) (later : s.Later s') :
    e.Placed k s' scope := by
  obtain ⟨around, placed, rest⟩ := h
  exact ⟨around, placed.later later, rest⟩

theorem Stmt.Placed.later {stmt : Stmt} (h : stmt.Placed k s scope) (later : s.Later s') :
    stmt.Placed k s' scope := by
  obtain ⟨around, kind, placed, rest⟩ := h
  exact ⟨around, kind, placed.later later, rest⟩

theorem Value.Sound.of_isScalar {v : Value} (scalar : v.IsScalar) : v.Sound k s := by
  cases v <;> trivial

end

/-! ### Operations -/

section

variable {k : Setting} {s s' : Store} {scope : Scope}

theorem acts_get (sound : s.Sound k) (scope : Scope) (name : Name) :
    Acts k.contract s (Run.get scope name) (fun v s' =>
      s' = s ∧ v.Sound k s ∧ s.lookup? name scope.chain = some v) := by
  unfold Acts Ensures Run.get Store.get
  cases found : s.lookup? name scope.chain with
  | none => exact ⟨sound, .refl s⟩
  | some v => exact ⟨⟨sound, .refl s⟩, rfl, sound.lookup? found, rfl⟩

theorem acts_bound (sound : s.Sound k) (f : FrameId) {name : Name} {value : Value}
    (unreserved : name.isReserved = false) (valueSound : value.Sound k s) :
    Acts k.contract s (change fun s => ((), s.bind f name value)) (fun _ _ => True) :=
  have later := Store.Later.bind s f value unreserved
  ⟨⟨sound.bind f unreserved (valueSound.later later), later⟩, trivial⟩

theorem acts_assign (sound : s.Sound k) {name : Name} {value : Value}
    (unreserved : name.isReserved = false) (valueSound : value.Sound k s) :
    Acts k.contract s (Run.assign scope name value) (fun _ _ => True) := by
  unfold Acts Ensures Run.assign Store.assign
  cases s.binder? name scope.chain with
  | none => exact ⟨sound, .refl s⟩
  | some f => exact acts_bound sound f unreserved valueSound

theorem acts_define (sound : s.Sound k) {name : Name} {value : Value}
    (unreserved : name.isReserved = false) (valueSound : value.Sound k s) :
    Acts k.contract s (define scope name value) (fun _ _ => True) := by
  unfold Acts Ensures define Store.define
  by_cases taken : (!(scope.isRoot || scope.isGlobal) &&
      (s.frame scope.frame).contains name) = true
  · rw [if_pos taken]
    exact ⟨sound, .refl s⟩
  · rw [if_neg taken]
    exact acts_bound sound scope.frame unreserved valueSound

theorem acts_push (sound : s.Sound k) (scope : Scope) {b : Bindings}
    (values : ∀ name v, b.get? name = some v → v.Sound k s) :
    Acts k.contract s (push scope b) (fun inner s' =>
      inner = ⟨s.frames.size, scope.chain⟩ ∧ s' = (s.push scope b).2) :=
  acts_change ⟨sound.push scope values, .push s scope b⟩ ⟨rfl, rfl⟩

theorem acts_newFunction (sound : s.Sound k) {f : Closure} (closureSound : f.Sound k s) :
    Acts k.contract s (newFunction f) (fun v s' => v.Sound k s') := by
  have later : s.Later s.freshId.2 := .of_eq rfl rfl (Nat.le_succ s.nextId)
  exact ⟨⟨sound.of_eq rfl rfl (Nat.le_succ s.nextId), later⟩, closureSound.later later⟩

/-- Binding a method to an instance gives a sound function. -/
theorem acts_bindMethod (sound : s.Sound k) {o : Object} {name : Name} {c : Class} {m : Closure}
    (object : o.Sound k s) (above : c.lineage <:+ o.cls.lineage)
    (found : c.method? name = some m) :
    Acts k.contract s (bindMethod m o) (fun f s' => f.Sound k s' ∧ f.decl = m.decl) := by
  obtain ⟨d, nearest⟩ := Class.method?_eq_some.mp found
  have holder : ∀ other v, Bindings.get? other [(thisName, .object o)] = some v → v.Sound k s := by
    intro other v bound
    obtain rfl := Bindings.eq_of_get?_singleton bound
    exact object
  apply acts_bind (acts_push sound m.scope holder)
  rintro inner s' step ⟨rfl, rfl⟩
  exact acts_succeed step.holds ⟨.bind object (nearest.suffix.trans above) nearest.mem, rfl⟩

/-- The method of a class as a function of an instance. -/
theorem acts_method (sound : s.Sound k) {o : Object} {name : Name} {c : Class} {m : Closure}
    (object : o.Sound k s) (above : c.lineage <:+ o.cls.lineage)
    (found : c.method? name = some m) :
    Acts k.contract s (bindMethod m o >>= newFunction) (fun v s' => v.Sound k s') := by
  apply acts_bind (acts_bindMethod sound object above found)
  rintro f s' step ⟨closureSound, -⟩
  exact acts_newFunction step.holds closureSound

theorem acts_getProperty (sound : s.Sound k) {value : Value} (valueSound : value.Sound k s)
    (name : Name) : Acts k.contract s (getProperty value name) (fun v s' => v.Sound k s') := by
  unfold getProperty
  cases value with
  | object o =>
    have field : Acts k.contract s (read fun s => (s.fieldsOf o).get? name)
        (fun found s' => s' = s ∧ ∀ v, found = some v → v.Sound k s) :=
      ⟨⟨sound, .refl s⟩, rfl, fun v bound => sound (.fields o.address) name v bound⟩
    apply acts_bind field
    rintro found _ step ⟨rfl, fieldSound⟩
    cases found with
    | some v => exact acts_succeed step.holds (fieldSound v rfl)
    | none =>
      dsimp only
      cases found : o.cls.method? name with
      | some m => exact acts_method step.holds valueSound (List.suffix_refl _) found
      | none => exact acts_fail step.holds
  | _ => exact acts_fail sound

theorem acts_setProperty (sound : s.Sound k) (owner : Value) (name : Name) {value : Value}
    (valueSound : value.Sound k s) :
    Acts k.contract s (setProperty owner name value) (fun _ _ => True) := by
  unfold setProperty
  cases owner with
  | object o =>
    exact acts_change ⟨sound.setField o name valueSound, .setField s o name value⟩ trivial
  | _ => exact acts_fail sound

/-- Inside a method of a class with a superclass, `super` is that superclass, and `this` is an
instance of the class itself or of one below it. -/
theorem Inside.Holds.super {i : Inside} (h : i.Holds k s scope)
    (derived : i.decl.superclass.isSome = true) : ∃ c, i.cls.superclass? = some c ∧
      s.lookup? superName scope.chain = some (.cls c) ∧
      s.lookup? thisName scope.chain = some (.object i.object) ∧
      c.lineage <:+ i.object.cls.ancestors := by
  obtain ⟨_, _, _, _, -, made, -⟩ := h.settled.made
  have agree := ((ensures_superclassOf _ _ _).of_ok made.superclass).2.1
  obtain ⟨c, same⟩ := Option.isSome_iff_exists.mp (agree.symm.trans derived)
  refine ⟨c, same, ?_, h.binds.this, ?_⟩
  · rw [h.binds.super]
    exact (h.settled.of_mem h.method).2.2.2 c same
  · -- The instance is one of the class of the method itself, or of a class below it.
    have above := h.above
    rw [Class.lineage, Class.superclass?_eq_some.mp same, Class.lineage] at above
    rcases List.suffix_cons_iff.mp above with same | inside
    · rw [← (List.cons.inj same).2]
      exact List.suffix_refl _
    · exact (List.suffix_cons _ _).trans inside

/-- Where `super` may stand, there is a class with a superclass around. -/
theorem Inside.exists_of_derived {around : Option Inside}
    (derived : Inside.kindOf around = .derived) :
    ∃ i, around = some i ∧ i.decl.superclass.isSome = true := by
  cases around with
  | none => cases derived
  | some i =>
    refine ⟨i, rfl, ?_⟩
    change ClassKind.ofSuperclass i.decl.superclass = _ at derived
    cases same : i.decl.superclass with
    | none =>
      rw [same] at derived
      cases derived
    | some name => rfl

/-- What `super` gives where it denotes a class and `this` an instance. -/
theorem getSuperMethod_eq {c : Class} {o : Object}
    (super : s.lookup? superName scope.chain = some (.cls c))
    (this : s.lookup? thisName scope.chain = some (.object o)) (name : Name) :
    getSuperMethod scope name s = match c.method? name with
      | some m => (bindMethod m o >>= newFunction) s
      | none => .error (.undefinedProperty c.name name) s := by
  have first : Run.get scope superName s = .ok (.cls c) s := by
    unfold Run.get Store.get
    rw [super]
  have second : Run.get scope thisName s = .ok (.object o) s := by
    unfold Run.get Store.get
    rw [this]
  unfold getSuperMethod
  rw [bind_of_ok first, bind_of_ok second]
  dsimp only
  cases c.method? name <;> rfl

theorem acts_getSuperMethod (sound : s.Sound k) {i : Inside} (holds : i.Holds k s scope)
    (derived : i.decl.superclass.isSome = true) (name : Name) :
    Acts k.contract s (getSuperMethod scope name) (fun v s' => v.Sound k s') := by
  obtain ⟨c, -, super, this, above⟩ := holds.super derived
  unfold Acts Ensures
  rw [getSuperMethod_eq super this]
  cases found : c.method? name with
  | some m =>
    have above : c.lineage <:+ i.object.cls.lineage := above.trans (List.suffix_cons _ _)
    exact acts_method sound holds.object above found
  | none => exact ⟨sound, .refl s⟩

/-- A declaration that keeps the rules makes a sound class. -/
theorem Class.MadeBy.sound {fuel : Nat} {decl : ClassDecl} {parent : Option Class}
    (made : (decl.toClass s scope parent).MadeBy scope decl s s')
    (moment : k.moments (.exec (fuel + 1) scope (.classDecl decl)) s)
    (checked : Check.classDecl decl = .ok ()) (regular : decl.Regular)
    (parentSound : ∀ c, parent = some c → c.Sound k s) :
    (decl.toClass s scope parent).Sound k s' := by
  intro d above
  rcases List.suffix_cons_iff.mp above with same | above
  · obtain rfl := Class.lineage_injective same
    exact ⟨decl, ⟨fuel, scope, s, s', moment, made, .refl s'⟩, checked, regular⟩
  · have later := made.later (Check.classDecl_eq_ok.mp checked).1
    cases parent with
    | none => cases List.suffix_nil.mp above
    | some c => exact (parentSound c rfl).later later d above

theorem acts_declareClass {fuel : Nat} {decl : ClassDecl} (sound : s.Sound k)
    (moment : k.moments (.exec (fuel + 1) scope (.classDecl decl)) s) (bounded : scope.Bounded s)
    (checked : Check.classDecl decl = .ok ()) (regular : decl.Regular) :
    Acts k.contract s (declareClass scope decl) (fun _ _ => True) := by
  have unreserved := (Check.classDecl_eq_ok.mp checked).1
  have found : Acts k.contract s (superclassOf scope decl.superclass) (fun parent s' => s' = s ∧
      superclassOf scope decl.superclass s = .ok parent s ∧
      ∀ c, parent = some c → c.Sound k s) := by
    have first := ensures_superclassOf scope decl.superclass s
    refine ensures_iff.mpr ⟨fun parent s' result => ?_, fun e s' result => ?_⟩
    · obtain ⟨rfl, -, named⟩ := first.of_ok result
      refine ⟨⟨sound, .refl _⟩, rfl, result, fun c same => ?_⟩
      obtain ⟨_, -, found⟩ := named c same
      exact sound.lookup? found
    · obtain rfl := first.of_error result
      exact ⟨sound, .refl _⟩
  have runs := @declareClass_eq_ok scope decl s
  rw [declareClass_eq]
  apply acts_bind found
  rintro parent s' step ⟨same, result, parentSound⟩
  obtain rfl : s = s' := same.symm
  have later := Store.Later.methodScope s scope parent
  have inner : (s.methodScope scope parent).2.freshId.2.Sound k := by
    cases parent with
    | none => exact sound.of_eq rfl rfl (Nat.le_succ s.nextId)
    | some c =>
      have pushed : (s.push scope [(superName, .cls c)]).2.Sound k := by
        refine sound.push scope fun name v bound => ?_
        obtain rfl := Bindings.eq_of_get?_singleton bound
        exact parentSound c rfl
      exact pushed.of_eq rfl rfl (Nat.le_succ s.nextId)
  -- If the name is taken, the class is lost, but the frame of `super` and the number are used up.
  by_cases taken : (!(scope.isRoot || scope.isGlobal) &&
      ((s.methodScope scope parent).2.freshId.2.frame scope.frame).contains decl.name) = true
  · unfold Acts Ensures define Store.define
    dsimp only
    rw [if_pos taken]
    exact ⟨inner, later⟩
  · have ends := runs.mpr ⟨parent, result, if_neg taken⟩
    have bound : (decl.toClass s scope parent).MadeBy scope decl s
        ((s.methodScope scope parent).2.freshId.2.bind scope.frame decl.name
          (.cls (decl.toClass s scope parent))) := by
      refine ⟨bounded, ends, ?_⟩
      rw [Store.frame_bind, if_pos ⟨rfl, Store.frame_lt_methodScope bounded parent⟩,
        Bindings.get?_insert_self]
    have made : (decl.toClass s scope parent).Sound k _ :=
      bound.sound moment checked regular parentSound
    unfold Acts Ensures define Store.define
    dsimp only
    rw [if_neg taken]
    exact ⟨⟨inner.bind scope.frame unreserved made, bound.later unreserved⟩, trivial⟩

theorem acts_checkArity (sound : s.Sound k) (name : String) (arity : Arity) (args : List Value) :
    Acts k.contract s (checkArity name arity args) (fun _ s' =>
      s' = s ∧ arity.accepts args.length = true) := by
  unfold checkArity
  split
  · exact acts_succeed sound ⟨rfl, ‹_›⟩
  · exact acts_fail sound

theorem acts_scalar (sound : s.Sound k) {r : Except RuntimeError Value} (scalar : Scalar r) :
    Acts k.contract s (ofExcept r) (fun v s' => v.Sound k s') := by
  apply acts_ofExcept sound
  rintro v rfl
  exact .of_isScalar scalar

theorem acts_callBuiltin (sound : s.Sound k) (host : Host) (b : Builtin) (args : List Value) :
    Acts k.contract s (callBuiltin host b args) (fun v s' => v.Sound k s') := by
  have passed : Acts k.contract s (change Store.passMoment) (fun _ _ => True) :=
    ⟨⟨sound.of_eq rfl rfl (Nat.le_refl _), .of_eq rfl rfl (Nat.le_refl _)⟩, trivial⟩
  apply acts_bind passed
  intro moment s' step _
  exact acts_scalar step.holds (b.scalar_apply _ args)

theorem acts_printLine (sound : s.Sound k) (text : String) :
    Acts k.contract s (printLine text) (fun _ _ => True) := by
  have written : k.contract.Step s (s.write (text ++ "\n")) :=
    ⟨sound.of_eq rfl rfl (Nat.le_refl _), .of_eq rfl rfl (Nat.le_refl _)⟩
  unfold Acts Ensures printLine
  dsimp only
  by_cases fits : s.output.fits (text ++ "\n") = true
  · rw [if_pos fits]
    exact ⟨written, trivial⟩
  · rw [if_neg fits]
    exact written

theorem acts_newObject (sound : s.Sound k) {c : Class} (classSound : c.Sound k s) :
    Acts k.contract s (change (·.newObject c)) (fun o s' =>
      o = ⟨c, s.fields.size⟩ ∧ o.Sound k s') := by
  have later := Store.Later.newObject s c
  refine acts_change ⟨sound.newObject c, later⟩ ⟨rfl, classSound.later later, ?_⟩
  change s.fields.size < (s.fields.push []).size
  rw [Array.size_push]
  exact Nat.lt_succ_self _

end

/-! ### Plans -/

/-- What holds of the statements of a block holds of each. -/
theorem Check.stmt_of_block {place : Place} {ps declared : List Name} {stmts : List Stmt}
    (checked : block place ps declared stmts = .ok ()) :
    ∀ s ∈ stmts, stmt place s = .ok () := by
  induction stmts generalizing declared with
  | nil => exact nofun
  | cons first rest ih =>
    obtain ⟨-, checked, others⟩ := block_cons_eq_ok.mp checked
    exact List.forall_mem_cons.mpr ⟨checked, ih others⟩

theorem Stmt.regular_of_mem {stmts : List Stmt} (regular : Stmt.RegularAll stmts) :
    ∀ stmt ∈ stmts, stmt.Regular := by
  induction stmts with
  | nil => exact nofun
  | cons first rest ih => exact List.forall_mem_cons.mpr ⟨regular.1, ih regular.2⟩

/-- The frame of a call binds no reserved words. -/
theorem Check.not_contains_params {ps : List Name} (checked : params [] ps = .ok ())
    (args : List Value) : ∀ name, Name.isReserved name = true →
      Bindings.contains (.ofList (ps.zip args)) name = false := by
  intro name reserved
  rw [Bool.eq_false_iff]
  intro bound
  obtain ⟨v, found⟩ := Option.isSome_iff_exists.mp bound
  have param := (Bindings.mem_of_get?_params found).1
  rw [unreserved_of_params checked name param] at reserved
  cases reserved

theorem Flow.allowed_of_return {place : Check.Place} {value : Expr} {v : Value}
    (checked : Check.stmt place (.return value) = .ok ()) (isNil : value = .nil → v = .nil) :
    (Flow.return v).Allowed place.function := by
  rw [Check.stmt, Check.bind_eq_ok] at checked
  obtain ⟨kind, cls⟩ := place
  cases kind with
  | none => cases checked.1
  | initializer =>
    constructor
    · intro same
      cases same
    · intro _
      apply isNil
      cases value with
      | nil => rfl
      | _ => cases checked.1
  | _ =>
    constructor
    · intro same
      cases same
    · intro same
      cases same

section

variable {k : Setting} {s : Store} {scope : Scope}

theorem meets_expr (sound : s.Sound k) (fuel : Nat) {e : Expr} (h : e.Placed k s scope) :
    (e.plan fuel scope).Meets k.contract k.host (fun v s' => v.Sound k s') s := by
  obtain ⟨around, placed, checked, regular⟩ := h
  have inner : ∀ {sub s'}, s.Later s' → sub ∈ e.parts →
      Check.expr (Inside.kindOf around) sub = .ok () → sub.Regular → sub.Placed k s' scope :=
    fun later mem checked regular =>
      ⟨around, (placed.inner rfl (List.mem_map_of_mem mem)).later later, checked, regular⟩
  have now : s.Later s := .refl s
  cases e with
  | nil | number | bool | string => trivial
  | var name => exact (acts_get sound scope name).mono fun v s' _ h => h.1 ▸ h.2.1
  | unary op operand =>
    rw [Check.expr] at checked
    refine ⟨inner now (by simp [Expr.parts]) checked regular, fun v s₁ _ step given => ?_⟩
    exact acts_scalar step.holds (op.scalar_apply v)
  | binary op left right =>
    rw [Check.expr, Check.bind_eq_ok] at checked
    refine ⟨inner now (by simp [Expr.parts]) checked.1 regular.1, fun l s₁ _ step _ => ?_⟩
    refine ⟨inner step.follows (by simp [Expr.parts]) checked.2 regular.2, fun r s₂ _ step _ => ?_⟩
    exact acts_scalar step.holds (op.scalar_apply l r)
  | logic op left right =>
    rw [Check.expr, Check.bind_eq_ok] at checked
    refine ⟨inner now (by simp [Expr.parts]) checked.1 regular.1, fun l s₁ _ step given => ?_⟩
    dsimp only
    split
    · exact given
    · exact ⟨inner step.follows (by simp [Expr.parts]) checked.2 regular.2, fun r s₂ _ _ h => h⟩
  | group e =>
    rw [Check.expr] at checked
    exact ⟨inner now (by simp [Expr.parts]) checked regular, fun v s₁ _ _ h => h⟩
  | assign name value =>
    rw [Check.expr] at checked
    refine ⟨inner now (by simp [Expr.parts]) checked regular.2, fun v s₁ _ step given => ?_⟩
    exact (acts_assign step.holds regular.1 given).mono fun _ s₂ step _ =>
      Value.Sound.later given step.follows
  | call callee args =>
    rw [Check.expr, Check.bind_eq_ok] at checked
    refine ⟨inner now (by simp [Expr.parts]) checked.1 regular.1, fun c s₁ _ step given => ?_⟩
    have each := Check.expr_of_exprs checked.2 regular.2
    refine ⟨fun e mem => inner step.follows (List.mem_cons_of_mem _ mem) (each e mem).1
      (each e mem).2, fun vs s₂ _ step values => ?_⟩
    exact ⟨⟨Value.Sound.later given step.follows, values⟩, fun r s₃ _ _ h => h⟩
  | get object name =>
    rw [Check.expr] at checked
    refine ⟨inner now (by simp [Expr.parts]) checked regular, fun o s₁ _ step given => ?_⟩
    exact acts_getProperty step.holds given name
  | set object name value =>
    rw [Check.expr, Check.bind_eq_ok] at checked
    refine ⟨inner now (by simp [Expr.parts]) checked.1 regular.1, fun o s₁ _ step _ => ?_⟩
    refine ⟨inner step.follows (by simp [Expr.parts]) checked.2 regular.2,
      fun v s₂ _ step given => ?_⟩
    exact (acts_setProperty step.holds o name given).mono fun _ s₃ step _ =>
      Value.Sound.later given step.follows
  | this => exact (acts_get sound scope thisName).mono fun v s' _ h => h.1 ▸ h.2.1
  | super method =>
    rw [Check.expr, Check.super_eq_ok] at checked
    obtain ⟨i, rfl, derived⟩ := Inside.exists_of_derived checked
    exact acts_getSuperMethod sound (placed.holds i rfl) derived method

theorem meets_call (sound : s.Sound k) (fuel : Nat) {callee : Value} {args : List Value}
    (calleeSound : callee.Sound k s) (argsSound : ∀ a ∈ args, a.Sound k s) :
    (callee.callPlan k.host fuel args).Meets k.contract k.host (fun v s' => v.Sound k s') s := by
  cases callee with
  | function id f =>
    refine (acts_checkArity sound _ _ args).mono ?_
    rintro _ _ step ⟨rfl, accepted⟩
    exact ⟨⟨calleeSound, argsSound, Closure.accepts_iff.mp accepted⟩, fun v s' _ _ h => h⟩
  | native f =>
    refine (acts_checkArity sound _ _ args).mono ?_
    rintro _ _ step ⟨rfl, -⟩
    dsimp only
    cases f.body with
    | builtin b => exact acts_callBuiltin sound k.host b args
    | supplied index =>
      exact acts_ofExcept sound fun v given => (k.passes index args v given).sound argsSound
  | cls c =>
    refine (acts_checkArity sound _ _ args).mono ?_
    rintro _ _ step ⟨rfl, accepted⟩
    refine (acts_newObject sound calleeSound).mono ?_
    rintro o s₁ step ⟨rfl, object⟩
    dsimp only
    cases found : c.method? initializerName with
    | none => exact object
    | some m =>
      obtain ⟨d, nearest⟩ := Class.method?_eq_some.mp found
      have same := (Class.length_of_accepts accepted).1 d m nearest
      refine (acts_bindMethod step.holds object (List.suffix_refl _) found).mono ?_
      rintro f s₂ step' ⟨closureSound, text⟩
      have argsSound := fun a mem =>
        Value.Sound.later (argsSound a mem) (step.follows.trans step'.follows)
      refine ⟨⟨closureSound, argsSound, by rw [text]; exact same⟩, fun _ s₃ _ step₃ _ => ?_⟩
      exact object.later (step'.follows.trans step₃.follows)
  | _ => exact acts_fail sound

theorem meets_closure (sound : s.Sound k) (fuel : Nat) {f : Closure} {args : List Value}
    (closureSound : f.Sound k s) (argsSound : ∀ a ∈ args, a.Sound k s) :
    (f.plan fuel args).Meets k.contract k.host (fun v s' => v.Sound k s') s := by
  obtain ⟨around, kind, p, placed, notClass, body, checked, regular, -⟩ := closureSound
  obtain ⟨-, params, checked⟩ := Check.function_eq_ok.mp checked
  have values : ∀ name v, Bindings.get? name (.ofList (f.decl.params.zip args)) = some v →
      v.Sound k s := fun name v found => argsSound v (Bindings.mem_of_get?_params found).2
  have unreserved := Check.not_contains_params params args
  refine (acts_push sound f.scope values).mono ?_
  rintro frame _ step ⟨rfl, rfl⟩
  refine ⟨fun stmt mem => ⟨around, kind, (placed.push unreserved).inner notClass (body stmt mem),
    Check.stmt_of_block checked stmt mem, Stmt.regular_of_mem regular.body stmt mem⟩, ?_⟩
  intro flow s₁ _ step₁ given
  dsimp only
  split
  · exact (acts_get step₁.holds f.scope thisName).mono fun v s' _ h => h.1 ▸ h.2.1
  · cases flow with
    | normal => trivial
    | «return» v => exact given.1

theorem meets_exec (sound : s.Sound k) (fuel : Nat) {stmt : Stmt} (h : stmt.Placed k s scope)
    (moment : k.moments (.exec (fuel + 1) scope stmt) s) :
    (stmt.plan fuel scope).Meets k.contract k.host (k.Gives (.exec (fuel + 1) scope stmt)) s := by
  obtain ⟨around, kind, placed, checked, regular⟩ := h
  have within : ∀ {p s'}, s.Later s' → p ∈ stmt.parts → p.Placed k s' scope around :=
    fun later mem => (placed.inner rfl mem).later later
  have now : s.Later s := .refl s
  have done : ∀ s', k.Gives (.exec (fuel + 1) scope stmt) .normal s' :=
    fun _ => ⟨trivial, fun _ _ => trivial⟩
  cases stmt with
  | nop => exact done s
  | expr e =>
    rw [Check.stmt] at checked
    exact ⟨⟨around, within now (by simp [Stmt.parts]), checked, regular⟩, fun _ s₁ _ _ _ => done s₁⟩
  | print e =>
    rw [Check.stmt] at checked
    refine ⟨⟨around, within now (by simp [Stmt.parts]), checked, regular⟩, fun v s₁ _ step _ => ?_⟩
    exact (acts_printLine step.holds v.text).mono fun _ s₂ _ _ => done s₂
  | varDecl name init =>
    rw [Check.stmt, Check.bind_eq_ok, Check.bindingName_eq_ok] at checked
    refine ⟨⟨around, within now (by simp [Stmt.parts]), checked.2, regular⟩,
      fun v s₁ _ step given => ?_⟩
    exact (acts_define step.holds checked.1 given).mono fun _ s₂ _ _ => done s₂
  | funDecl decl =>
    rw [Check.stmt] at checked
    have closureSound : Closure.Sound k s ⟨decl, scope, false⟩ := by
      refine ⟨around, .function, .function decl, within now (by simp [Stmt.parts]), rfl, ?_,
        checked, regular, fun flagged => Bool.noConfusion flagged⟩
      intro stmt mem
      exact List.mem_cons_of_mem _ (List.mem_append_right _ (List.mem_map_of_mem mem))
    refine (acts_newFunction sound closureSound).mono fun f s₁ step given => ?_
    have unreserved := (Check.function_eq_ok.mp checked).1
    exact (acts_define step.holds unreserved given).mono fun _ s₂ _ _ => done s₂
  | classDecl decl =>
    rw [Check.stmt] at checked
    exact (acts_declareClass sound moment placed.bounded checked regular).mono
      fun _ s₁ _ _ => done s₁
  | block body =>
    rw [Check.stmt] at checked
    have nothing : ∀ name v, Bindings.get? name [] = some v → v.Sound k s := by
      intro name v found
      cases found
    refine (acts_push sound scope nothing).mono ?_
    rintro inner _ step ⟨rfl, rfl⟩
    have placed := placed.push (b := []) fun _ _ => rfl
    refine ⟨fun stmt mem => ⟨around, kind, placed.inner rfl (List.mem_map_of_mem mem),
      Check.stmt_of_block checked stmt mem, Stmt.regular_of_mem regular stmt mem⟩, ?_⟩
    intro flow s₁ _ _ given
    refine ⟨given.1, fun place checked => given.2 place ?_⟩
    rw [Check.stmt] at checked
    exact Check.stmt_of_block checked
  | ite cond thenBranch elseBranch =>
    rw [Check.stmt, Check.bind_eq_ok, Check.bind_eq_ok] at checked
    obtain ⟨condRegular, ⟨-, thenRegular⟩, -, elseRegular⟩ := regular
    refine ⟨⟨around, within now (by simp [Stmt.parts]), checked.1, condRegular⟩,
      fun c s₁ _ step _ => ?_⟩
    have branch : ∀ place, Check.stmt place (.ite cond thenBranch elseBranch) = .ok () →
        Check.stmt place thenBranch = .ok () ∧ Check.stmt place elseBranch = .ok () := by
      intro place checked
      rw [Check.stmt, Check.bind_eq_ok, Check.bind_eq_ok] at checked
      exact checked.2
    dsimp only
    split
    · exact ⟨⟨around, kind, within step.follows (by simp [Stmt.parts]), checked.2.1, thenRegular⟩,
        fun flow s₂ _ _ given => ⟨given.1, fun place checked => given.2 place (branch place checked).1⟩⟩
    · exact ⟨⟨around, kind, within step.follows (by simp [Stmt.parts]), checked.2.2, elseRegular⟩,
        fun flow s₂ _ _ given => ⟨given.1, fun place checked => given.2 place (branch place checked).2⟩⟩
  | «while» cond body =>
    rw [Check.stmt, Check.bind_eq_ok] at checked
    obtain ⟨condRegular, -, bodyRegular⟩ := regular
    refine ⟨⟨⟨around, within now (by simp [Stmt.parts]), checked.1, condRegular⟩,
      around, kind, within now (by simp [Stmt.parts]), checked.2, bodyRegular⟩, ?_⟩
    intro flow s₁ _ _ given
    refine ⟨given.1, fun place checked => given.2 place ?_⟩
    rw [Check.stmt, Check.bind_eq_ok] at checked
    exact checked.2
  | «for» init cond incr body => cases regular
  | «return» value =>
    rw [Check.stmt, Check.bind_eq_ok] at checked
    refine ⟨⟨around, within now (by simp [Stmt.parts]), checked.2, regular⟩,
      fun v s₁ result _ given => ⟨given, fun place allowed => ?_⟩⟩
    apply Flow.allowed_of_return allowed
    -- A `return` without a value has `nil` for its expression.
    rintro rfl
    cases fuel with
    | zero => cases result
    | succ fuel =>
      cases result
      rfl

end

/-- The contract about classes and functions is kept. -/
theorem Setting.kept (k : Setting) : k.contract.Kept k.toCourse := by
  intro w s moment sound required
  have sound : s.Sound k := sound
  cases w with
  | expr fuel scope e =>
    cases fuel with
    | zero => exact acts_exhausted
    | succ fuel => exact meets_expr sound fuel required
  | values fuel scope es =>
    cases es with
    | nil => exact nofun
    | cons e rest =>
      obtain ⟨first, others⟩ := List.forall_mem_cons.mp required
      refine ⟨first, fun v s₁ _ step given => ?_⟩
      refine ⟨fun e mem => (others e mem).later step.follows, fun vs s₂ _ step values => ?_⟩
      exact List.forall_mem_cons.mpr ⟨Value.Sound.later given step.follows, values⟩
  | call fuel callee args =>
    cases fuel with
    | zero => exact acts_exhausted
    | succ fuel => exact meets_call sound fuel required.1 required.2
  | closure fuel f args =>
    cases fuel with
    | zero => exact acts_exhausted
    | succ fuel => exact meets_closure sound fuel required.1 required.2.1
  | exec fuel scope stmt =>
    cases fuel with
    | zero => exact acts_exhausted
    | succ fuel => exact meets_exec sound fuel required moment
  | block fuel scope stmts =>
    cases stmts with
    | nil => exact ⟨trivial, fun _ _ => trivial⟩
    | cons stmt rest =>
      obtain ⟨first, others⟩ := List.forall_mem_cons.mp required
      refine ⟨first, fun flow s₁ _ step given => ?_⟩
      cases flow with
      | normal =>
        refine ⟨fun stmt mem => (others stmt mem).later step.follows, fun flow s₂ _ _ given => ?_⟩
        exact ⟨given.1, fun place checked => given.2 place (List.forall_mem_cons.mp checked).2⟩
      | «return» v =>
        exact ⟨given.1, fun place checked => given.2 place (List.forall_mem_cons.mp checked).1⟩
  | loop fuel rounds scope cond body =>
    cases rounds with
    | zero => exact acts_exhausted
    | succ rounds =>
      refine ⟨required.1, fun c s₁ _ step _ => ?_⟩
      dsimp only
      split
      · refine ⟨required.2.later step.follows, fun flow s₂ _ step₂ given => ?_⟩
        have since := step.follows.trans step₂.follows
        cases flow with
        | normal =>
          exact ⟨⟨required.1.later since, required.2.later since⟩, fun flow s₃ _ _ h => h⟩
        | «return» v => exact given
      · exact ⟨trivial, fun _ _ => trivial⟩
  | program fuel scope last stmts =>
    cases stmts with
    | nil => exact required.1
    | cons stmt rest =>
      obtain ⟨first, others⟩ := List.forall_mem_cons.mp required.2
      have after : ∀ {s'}, s.Later s' → ∀ stmt ∈ rest, stmt.Placed k s' scope :=
        fun later stmt mem => (others stmt mem).later later
      cases stmt with
      | expr e =>
        obtain ⟨around, kind, placed, checked, regular⟩ := first
        rw [Check.stmt] at checked
        refine ⟨⟨around, placed.inner rfl (by simp [Part.parts, Stmt.parts]), checked, regular⟩,
          fun v s₁ _ step given => ?_⟩
        exact ⟨⟨given, after step.follows⟩, fun v s₂ _ _ h => h⟩
      | _ =>
        refine ⟨first, fun flow s₁ _ step _ => ?_⟩
        cases flow with
        | normal => exact ⟨⟨trivial, after step.follows⟩, fun v s₂ _ _ h => h⟩
        | «return» v => exact acts_fail step.holds

end Lox
