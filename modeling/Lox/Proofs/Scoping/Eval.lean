import Lox.Proofs.Scoping.State

/-!
Running checked programs keeps scopes in line with the text.

A work is required to begin where its scope surrounds its text, with values whose functions were
made where they stand; then it gives such values, and the store goes onward (`Setting.scoping`).
That classes and functions are in order is known already, and used (`Setting.Orderly.scoping_kept`):
in particular that each action leads to a later store.
-/

namespace Lox

open Run

/-! ### What is required and what is given -/

namespace Setting

/-- What a work needs: a scope that surrounds its text, and functions made where they stand. -/
def ScopingRequires (k : Setting) (s : Store) : Work → Prop
  | .expr _ scope e => k.Surrounds scope (.expr e)
  | .values _ scope es => ∀ e ∈ es, k.Surrounds scope (.expr e)
  | .call _ callee args => callee.Surrounded k s ∧ ∀ a ∈ args, a.Surrounded k s
  | .closure _ f args => f.Surrounded k s ∧ ∀ a ∈ args, a.Surrounded k s
  | .exec _ scope stmt => k.Surrounds scope (.stmt stmt)
  | .block _ scope stmts => ∀ stmt ∈ stmts, k.Surrounds scope (.stmt stmt)
  | .loop _ _ scope cond body => k.Surrounds scope (.expr cond) ∧ k.Surrounds scope (.stmt body)
  | .program _ scope last stmts =>
    last.Surrounded k s ∧ ∀ stmt ∈ stmts, k.Surrounds scope (.stmt stmt)

/-- What a work gives: values whose functions were made where they stand. -/
def ScopingGives (k : Setting) : (w : Work) → w.Result → Store → Prop
  | .expr _ _ _, v, s | .call _ _ _, v, s | .closure _ _ _, v, s | .program _ _ _ _, v, s =>
    v.Surrounded k s
  | .values _ _ _, vs, s => ∀ v ∈ vs, v.Surrounded k s
  | .exec _ _ _, flow, s | .block _ _ _, flow, s | .loop _ _ _ _ _, flow, s => flow.Surrounded k s

/-- The contract about scopes. -/
def scoping (k : Setting) : Contract where
  holds := Store.Scoped k
  follows := Store.Onward k
  refl := .refl
  trans := .trans
  requires w s := k.ScopingRequires s w
  gives := k.ScopingGives

end Setting

/-! ### Operations -/

section

variable {k : Setting} {s : Store} {scope : Scope}

section

variable {α : Type} {x : Run α} {Q : α → Store → Prop}

/-- An action that leaves the store as it is. -/
theorem over_of_same (tidy : s.Scoped k)
    (ends : Ensures s x (fun a s' => s' = s ∧ Q a s) fun _ s' => s' = s) :
    ActsOver k.contract k.scoping s x Q := by
  apply Ensures.mono ends
  · rintro a _ ⟨rfl, given⟩ _
    exact ⟨⟨tidy, .refl _⟩, given⟩
  · rintro e _ rfl _
    exact ⟨tidy, .refl _⟩

/-- An action that binds nothing in the frames that were there before. -/
theorem over_of_keeps (keeps : Preserves (s.Keeps Store.nothing) x)
    (ends : Ensures s x (fun a s' => s.Later s' → s'.Scoped k ∧ Q a s')
      fun _ s' => s.Later s' → s'.Scoped k) : ActsOver k.contract k.scoping s x Q := by
  apply Ensures.mono ((keeps s (.refl s)).and ends)
  · rintro a s' ⟨kept, given⟩ step
    obtain ⟨tidy, given⟩ := given step.follows
    exact ⟨⟨tidy, .of_nothing step.follows kept⟩, given⟩
  · rintro e s' ⟨kept, tidy⟩ step
    exact ⟨tidy step.follows, .of_nothing step.follows kept⟩

end

theorem ensures_surrounded_get (tidy : s.Scoped k) (scope : Scope) (name : Name) :
    Ensures s (Run.get scope name) (fun v s' => s' = s ∧ v.Surrounded k s)
      (fun _ s' => s' = s) := by
  unfold Ensures Run.get Store.get
  cases found : s.lookup? name scope.chain with
  | none => rfl
  | some v => exact ⟨rfl, tidy.values.lookup? found⟩

theorem over_get (tidy : s.Scoped k) (scope : Scope) (name : Name) :
    ActsOver k.contract k.scoping s (Run.get scope name) (fun v s' => v.Surrounded k s') :=
  over_of_same tidy (ensures_surrounded_get tidy scope name)

theorem over_ofExcept (tidy : s.Scoped k) {α : Type} {Q : α → Store → Prop}
    {r : Except RuntimeError α} (given : ∀ a, r = .ok a → Q a s) :
    ActsOver k.contract k.scoping s (ofExcept r) Q := by
  apply over_of_same tidy
  cases r with
  | ok a => exact ⟨rfl, given a rfl⟩
  | error e => rfl

theorem over_scalar (tidy : s.Scoped k) {r : Except RuntimeError Value} (scalar : Scalar r) :
    ActsOver k.contract k.scoping s (ofExcept r) (fun v s' => v.Surrounded k s') := by
  apply over_ofExcept tidy
  rintro v rfl
  exact .of_isScalar scalar

theorem over_fail (tidy : s.Scoped k) {α : Type} {Q : α → Store → Prop} (e : RuntimeError) :
    ActsOver k.contract k.scoping s (fail e : Run α) Q :=
  fun _ => ⟨tidy, .refl s⟩

theorem over_assign (tidy : s.Scoped k) (name : Name) {value : Value}
    (surrounded : value.Surrounded k s) :
    ActsOver k.contract k.scoping s (Run.assign scope name value) (fun _ _ => True) := by
  apply over_of_keeps (keeps_assign scope name value)
  unfold Ensures Run.assign Store.assign
  cases found : s.binder? name scope.chain with
  | none => exact fun _ => tidy
  | some f =>
    have bound := List.find?_some found
    exact fun later => ⟨tidy.bind later surrounded (.inl bound), trivial⟩

theorem over_push (tidy : s.Scoped k) (scope : Scope) {b : Bindings}
    (values : ∀ name v, b.get? name = some v → v.Surrounded k s)
    (names : ∀ name, b.contains name = true → k.Binds s.frames.size name) :
    ActsOver k.contract k.scoping s (push scope b) (fun inner s' =>
      inner = ⟨s.frames.size, scope.chain⟩ ∧ s' = (s.push scope b).2) :=
  over_of_keeps (fun _ keeps => keeps.push scope b) fun _ =>
    ⟨tidy.push scope values fun name bound => .inr (names name bound), rfl, rfl⟩

theorem over_newFunction (tidy : s.Scoped k) {f : Closure} (surrounded : f.Surrounded k s) :
    ActsOver k.contract k.scoping s (newFunction f) (fun v s' => v.Surrounded k s') := by
  refine over_of_keeps (keeps_newFunction f) fun later => ⟨?_, ?_⟩
  · exact tidy.of_eq rfl rfl (Nat.le_succ s.nextId)
  · exact List.forall_mem_singleton.mpr (surrounded.later later)

/-! ### Methods -/

section

variable {o : Object} {m : Closure}

theorem over_bindMethod (tidy : s.Scoped k) (object : (Value.object o).Surrounded k s)
    (method : m.Surrounded k s) :
    ActsOver k.contract k.scoping s (bindMethod m o) (fun f s' => f.Surrounded k s') := by
  obtain ⟨pushed, holds⟩ := tidy.pushWord m.scope isReserved_thisName object
  exact over_of_keeps (keeps_bindMethod m o) fun later => ⟨pushed, (method.later later).bind holds⟩

theorem ensures_surrounded_method (tidy : s.Scoped k)
    (object : (Value.object o).Surrounded k s) (method : m.Surrounded k s) :
    Ensures s (bindMethod m o >>= newFunction)
      (fun v s' => s.Later s' → s'.Scoped k ∧ v.Surrounded k s')
      (fun _ s' => s.Later s' → s'.Scoped k) := by
  obtain ⟨pushed, holds⟩ := tidy.pushWord m.scope isReserved_thisName object
  have counted : (s.push m.scope [(thisName, .object o)]).2.Later
      (s.push m.scope [(thisName, .object o)]).2.freshId.2 := .of_eq rfl rfl (Nat.le_succ _)
  refine fun later => ⟨pushed.of_eq rfl rfl counted.ids, ?_⟩
  exact List.forall_mem_singleton.mpr ((method.later later).bind (holds.later counted))

theorem over_getProperty (tidy : s.Scoped k) {value : Value} (owner : value.Surrounded k s)
    (name : Name) :
    ActsOver k.contract k.scoping s (getProperty value name) (fun v s' => v.Surrounded k s') := by
  apply over_of_keeps (keeps_getProperty value name)
  cases value with
  | object o =>
    cases field : (s.fieldsOf o).get? name with
    | some v =>
      unfold Ensures
      rw [getProperty_field field]
      exact fun _ => ⟨tidy, tidy.values (.fields o.address) name v field⟩
    | none =>
      have read : read (fun s => (s.fieldsOf o).get? name) s = .ok none s :=
        congrArg (Outcome.ok · s) field
      unfold Ensures getProperty
      dsimp only
      rw [bind_of_ok read]
      dsimp only
      cases found : o.cls.method? name with
      | some m =>
        exact ensures_surrounded_method tidy owner (Class.surrounded_of_method? owner found)
      | none => exact fun _ => tidy
  | _ => exact fun _ => tidy

theorem over_getSuperMethod (tidy : s.Scoped k) (scope : Scope) (name : Name) :
    ActsOver k.contract k.scoping s (getSuperMethod scope name)
      (fun v s' => v.Surrounded k s') := by
  apply over_of_keeps (keeps_getSuperMethod scope name)
  have unchanged : ∀ {E : RuntimeError → Store → Prop} {v : Name},
      (∀ e, E e s) → Ensures s (Run.get scope v) (fun v s' => s' = s ∧ v.Surrounded k s) E :=
    fun error => (ensures_surrounded_get tidy scope _).mono (fun _ _ h => h)
      fun e _ same => same ▸ error e
  apply ensures_bind (unchanged fun _ _ => tidy)
  rintro parent _ ⟨rfl, super⟩
  apply ensures_bind (unchanged fun _ _ => tidy)
  rintro this _ ⟨rfl, object⟩
  split
  · rename_i c o
    cases found : c.method? name with
    | some m =>
      exact ensures_surrounded_method tidy object (Class.surrounded_of_method? super found)
    | none => exact fun _ => tidy
  · exact fun _ => tidy

end

theorem over_setProperty (tidy : s.Scoped k) (owner : Value) (name : Name) {value : Value}
    (surrounded : value.Surrounded k s) :
    ActsOver k.contract k.scoping s (setProperty owner name value) (fun _ _ => True) := by
  apply over_of_keeps (keeps_setProperty owner name value)
  cases owner with
  | object o => exact fun _ => ⟨tidy.setField o name surrounded, trivial⟩
  | _ => exact fun _ => tidy

/-! ### Calls and output -/

theorem over_checkArity (tidy : s.Scoped k) (name : String) (arity : Arity) (args : List Value) :
    ActsOver k.contract k.scoping s (checkArity name arity args) (fun _ s' => s' = s) := by
  apply over_of_same tidy
  unfold Ensures
  rw [checkArity_eq]
  split
  · rename_i same
    split at same
    · cases same
      exact ⟨rfl, rfl⟩
    · cases same
  · rename_i same
    split at same
    · cases same
    · cases same
      rfl
  · trivial

theorem over_callBuiltin (tidy : s.Scoped k) (host : Host) (b : Builtin) (args : List Value) :
    ActsOver k.contract k.scoping s (callBuiltin host b args) (fun v s' => v.Surrounded k s') := by
  have passed : s.passMoment.2.Scoped k := tidy.of_eq rfl rfl (Nat.le_refl _)
  apply over_of_keeps (keeps_callBuiltin host b args)
  have scalar := b.scalar_apply (host.time s.moment) args
  change Ensures s.passMoment.2 (ofExcept (b.apply (host.time s.moment) args)) _ _
  cases result : b.apply (host.time s.moment) args with
  | ok v =>
    rw [result] at scalar
    exact fun _ => ⟨passed, .of_isScalar scalar⟩
  | error e => exact fun _ => passed

theorem over_newObject (tidy : s.Scoped k) (c : Class) :
    ActsOver k.contract k.scoping s (change (·.newObject c)) (fun o _ => o.cls = c) :=
  over_of_keeps (keeps_change fun _ => rfl) fun _ => ⟨tidy.newObject c, rfl⟩

theorem over_printLine (tidy : s.Scoped k) (text : String) :
    ActsOver k.contract k.scoping s (printLine text) (fun _ _ => True) := by
  have written : (s.write (text ++ "\n")).Scoped k := tidy.of_eq rfl rfl (Nat.le_refl _)
  apply over_of_keeps (keeps_printLine text)
  unfold Ensures printLine
  dsimp only
  by_cases fits : s.output.fits (text ++ "\n") = true
  · rw [if_pos fits]
    exact fun _ => ⟨written, trivial⟩
  · rw [if_neg fits]
    exact fun _ => written

/-! ### Declarations -/

section

variable {fuel : Nat} {stmt : Stmt} {name : Name} {u s' : Store}
  (moment : k.moments (.exec (fuel + 1) scope stmt) u) (declares : stmt.declaredName? = some name)

include moment declares

/-- The step in which a declaration is done. -/
theorem Store.Onward.of_declared (result : exec k.host (fuel + 1) scope stmt u = .ok .normal s')
    (later : s.Later s') (keeps : s.Keeps (fun f n => f = scope.frame ∧ n = name) s') :
    s.Onward k s' := by
  refine ⟨later, keeps.mono ?_⟩
  rintro _ _ ⟨rfl, rfl⟩
  exact ⟨fuel, scope, stmt, u, s', moment, declares, rfl, result, later, .refl s'⟩

theorem over_define {value : Value} (tidy : s.Scoped k) (surrounded : value.Surrounded k s)
    (ends : ∀ s', define scope name value s = .ok () s' →
      exec k.host (fuel + 1) scope stmt u = .ok .normal s') :
    ActsOver k.contract k.scoping s (define scope name value) (fun _ _ => True) := by
  have keeps : Preserves (s.Keeps fun f n => f = scope.frame ∧ n = name)
      (define scope name value) := keeps_define value fun _ => ⟨rfl, rfl⟩
  refine ensures_iff.mpr ⟨fun _ s' result step => ⟨⟨?_, ?_⟩, trivial⟩, fun e s' result step => ?_⟩
  · unfold define Store.define at result
    split at result
    · cases result
    · cases result
      exact tidy.bind step.follows surrounded (.inr (.declared moment declares))
  · have kept := (keeps s (.refl s)).of_ok result
    exact .of_declared moment declares (ends s' result) step.follows kept
  · unfold define Store.define at result
    split at result
    · cases result
      exact ⟨tidy, .refl s⟩
    · cases result

end

theorem declareClass_eq_error {decl : ClassDecl} {e : RuntimeError} {s' : Store}
    (failed : declareClass scope decl s = .error e s') : s' = s ∨ ∃ parent,
      superclassOf scope decl.superclass s = .ok parent s ∧
        s' = (s.methodScope scope parent).2.freshId.2 := by
  have first := ensures_superclassOf scope decl.superclass s
  rw [declareClass_eq] at failed
  cases result : superclassOf scope decl.superclass s with
  | ok parent s₁ =>
    obtain rfl := (first.of_ok result).1
    rw [bind_of_ok result] at failed
    unfold define Store.define at failed
    split at failed
    · cases failed
      exact .inr ⟨parent, rfl, rfl⟩
    · cases failed
  | error e' s₁ =>
    obtain rfl := first.of_error result
    rw [bind_of_error result] at failed
    cases failed
    exact .inl rfl
  | outOfFuel =>
    rw [bind_of_outOfFuel result] at failed
    cases failed

/-- The class that a declaration makes, and the store it is made in. -/
theorem ClassDecl.surrounded_toClass {decl : ClassDecl} (tidy : s.Scoped k)
    (surrounds : k.Surrounds scope (.cls decl)) {parent : Option Class}
    (found : ∀ c, parent = some c → (Value.cls c).Surrounded k s) :
    (s.methodScope scope parent).2.freshId.2.Scoped k ∧
      (Value.cls (decl.toClass s scope parent)).Surrounded k
        (s.methodScope scope parent).2.freshId.2 := by
  have written : ∀ m ∈ decl.methods, k.Surrounds scope (.method m) := fun m mem =>
    .inner surrounds (List.mem_cons_of_mem _ (List.mem_append_right _ (List.mem_map_of_mem mem)))
  cases parent with
  | none =>
    refine ⟨tidy.of_eq rfl rfl (Nat.le_succ _), fun f held => ?_⟩
    obtain ⟨body, mem, held⟩ := List.mem_flatMap.mp held
    cases List.mem_singleton.mp mem
    obtain ⟨m, mem, rfl⟩ := List.mem_map.mp held
    exact Closure.surrounded_of_scope (written m mem) (.inr rfl)
  | some c =>
    obtain ⟨pushed, holds⟩ := tidy.pushWord scope isReserved_superName (found c rfl)
    have later := Store.Later.methodScope s scope (some c)
    have counted : (s.push scope [(superName, .cls c)]).2.Later
        (s.push scope [(superName, .cls c)]).2.freshId.2 := .of_eq rfl rfl (Nat.le_succ _)
    refine ⟨pushed.of_eq rfl rfl counted.ids, fun f held => ?_⟩
    obtain ⟨body, mem, held⟩ := List.mem_flatMap.mp held
    rcases List.mem_cons.mp mem with rfl | mem
    · obtain ⟨m, mem, rfl⟩ := List.mem_map.mp held
      refine ⟨scope, .method m, ⟨.inr rfl, [s.frames.size], rfl, ?_⟩, written m mem⟩
      exact List.forall_mem_singleton.mpr (holds.later counted)
    · exact (found c rfl f (List.mem_flatMap.mpr ⟨body, mem, held⟩)).later later

theorem over_declareClass {fuel : Nat} {decl : ClassDecl} (tidy : s.Scoped k)
    (moment : k.moments (.exec (fuel + 1) scope (.classDecl decl)) s)
    (surrounds : k.Surrounds scope (.cls decl)) (unreserved : decl.name.isReserved = false) :
    ActsOver k.contract k.scoping s (declareClass scope decl) (fun _ _ => True) := by
  have made : ∀ parent, superclassOf scope decl.superclass s = .ok parent s → _ :=
    fun parent result => ClassDecl.surrounded_toClass tidy surrounds fun c same => by
      obtain ⟨_, -, found⟩ := ((ensures_superclassOf _ _ _).of_ok result).2.2 c same
      exact tidy.values.lookup? found
  have keeps : Preserves (s.Keeps fun f n => f = scope.frame ∧ n = decl.name)
      (declareClass scope decl) := keeps_declareClass fun _ => ⟨rfl, rfl⟩
  refine ensures_iff.mpr ⟨fun _ s' result step => ⟨⟨?_, ?_⟩, trivial⟩, fun e s' result step => ?_⟩
  · obtain ⟨parent, found, defined⟩ := declareClass_eq_ok.mp result
    obtain ⟨inner, surrounded⟩ := made parent found
    unfold define Store.define at defined
    split at defined
    · cases defined
    · cases defined
      exact inner.bind (.bind _ _ _ unreserved) surrounded (.inr (.declared moment rfl))
  · have ends : exec k.host (fuel + 1) scope (.classDecl decl) s = .ok .normal s' := by
      rw [exec]
      exact bind_of_ok result
    have kept := (keeps s (.refl s)).of_ok result
    exact .of_declared moment rfl ends step.follows kept
  · rcases declareClass_eq_error result with rfl | ⟨parent, found, rfl⟩
    · exact ⟨tidy, .refl _⟩
    · refine ⟨(made parent found).1, .of_nothing step.follows ?_⟩
      cases parent with
      | none => exact (Store.Keeps.refl s).of_frames_eq rfl
      | some c => exact ((Store.Keeps.refl s).push scope _).of_frames_eq rfl

/-! ### Plans -/

theorem over_expr (tidy : s.Scoped k) (fuel : Nat) {e : Expr}
    (surrounds : k.Surrounds scope (.expr e)) :
    (e.plan fuel scope).MeetsOver k.contract k.scoping k.host
      (fun v s' => v.Surrounded k s') s := by
  have inner : ∀ {sub}, sub ∈ e.parts → k.Surrounds scope (.expr sub) :=
    fun mem => .inner surrounds (List.mem_map_of_mem mem)
  cases e with
  | nil | number | bool | string => exact fun f mem => nomatch mem
  | var name => exact over_get tidy scope name
  | unary op operand =>
    refine ⟨inner (by simp [Expr.parts]), fun v s₁ _ step _ => ?_⟩
    exact over_scalar step.holds (op.scalar_apply v)
  | binary op left right =>
    refine ⟨inner (by simp [Expr.parts]), fun l s₁ _ step _ => ?_⟩
    refine ⟨inner (by simp [Expr.parts]), fun r s₂ _ step _ => ?_⟩
    exact over_scalar step.holds (op.scalar_apply l r)
  | logic op left right =>
    refine ⟨inner (by simp [Expr.parts]), fun l s₁ _ step given => ?_⟩
    dsimp only
    split
    · exact given
    · exact ⟨inner (by simp [Expr.parts]), fun r s₂ _ _ h => h⟩
  | group e => exact ⟨inner (by simp [Expr.parts]), fun v s₁ _ _ h => h⟩
  | assign name value =>
    refine ⟨inner (by simp [Expr.parts]), fun v s₁ _ step given => ?_⟩
    exact (over_assign step.holds name given).mono fun _ s₂ _ _ step _ =>
      Value.Surrounded.later given step.follows.later
  | call callee args =>
    refine ⟨inner (by simp [Expr.parts]), fun c s₁ _ step given => ?_⟩
    refine ⟨fun e mem => inner (List.mem_cons_of_mem _ mem), fun vs s₂ _ step values => ?_⟩
    exact ⟨⟨Value.Surrounded.later given step.follows.later, values⟩, fun r s₃ _ _ h => h⟩
  | get object name =>
    refine ⟨inner (by simp [Expr.parts]), fun o s₁ _ step given => ?_⟩
    exact over_getProperty step.holds given name
  | set object name value =>
    refine ⟨inner (by simp [Expr.parts]), fun o s₁ _ step _ => ?_⟩
    refine ⟨inner (by simp [Expr.parts]), fun v s₂ _ step given => ?_⟩
    exact (over_setProperty step.holds o name given).mono fun _ s₃ _ _ step _ =>
      Value.Surrounded.later given step.follows.later
  | this => exact over_get tidy scope thisName
  | super method => exact over_getSuperMethod tidy scope method

theorem over_call (tidy : s.Scoped k) (fuel : Nat) {callee : Value} {args : List Value}
    (surrounded : callee.Surrounded k s) (argsSurrounded : ∀ a ∈ args, a.Surrounded k s) :
    (callee.callPlan k.host fuel args).MeetsOver k.contract k.scoping k.host
      (fun v s' => v.Surrounded k s') s := by
  cases callee with
  | function id f =>
    refine (over_checkArity tidy _ _ args).mono ?_
    rintro _ _ _ _ step rfl
    exact ⟨⟨surrounded f List.mem_cons_self, argsSurrounded⟩, fun v s' _ _ h => h⟩
  | native f =>
    refine (over_checkArity tidy _ _ args).mono ?_
    rintro _ _ _ _ step rfl
    dsimp only
    cases f.body with
    | builtin b => exact over_callBuiltin tidy k.host b args
    | supplied index =>
      exact over_ofExcept tidy fun v given =>
        (k.passes index args v given).surrounded argsSurrounded
  | cls c =>
    refine (over_checkArity tidy _ _ args).mono ?_
    rintro _ _ _ _ step rfl
    refine (over_newObject tidy c).mono ?_
    rintro o s₁ _ _ step rfl
    have object : (Value.object o).Surrounded k s₁ :=
      Value.Surrounded.later surrounded step.follows.later
    dsimp only
    cases found : o.cls.method? initializerName with
    | none => exact object
    | some m =>
      have method : m.Surrounded k s₁ := Class.surrounded_of_method? object found
      refine (over_bindMethod step.holds object method).mono ?_
      intro f s₂ _ _ step' bound
      have since := step.follows.later.trans step'.follows.later
      refine ⟨⟨bound, fun a mem => (argsSurrounded a mem).later since⟩, fun _ s₃ _ step₃ _ => ?_⟩
      exact object.later (step'.follows.later.trans step₃.follows.later)
  | _ => exact over_fail tidy _

theorem over_closure (tidy : s.Scoped k) {fuel : Nat} {f : Closure} {args : List Value}
    (moment : k.moments (.closure (fuel + 1) f args) s) (surrounded : f.Surrounded k s)
    (argsSurrounded : ∀ a ∈ args, a.Surrounded k s) :
    (f.plan fuel args).MeetsOver k.contract k.scoping k.host (fun v s' => v.Surrounded k s') s := by
  have values : ∀ name v, Bindings.get? name (.ofList (f.decl.params.zip args)) = some v →
      v.Surrounded k s := fun name v found => argsSurrounded v (Bindings.mem_of_get?_params found).2
  have names : ∀ name, Bindings.contains (.ofList (f.decl.params.zip args)) name = true →
      k.Binds s.frames.size name := by
    intro name bound
    obtain ⟨v, found⟩ := Option.isSome_iff_exists.mp bound
    exact .param moment (Bindings.mem_of_get?_params found).1
  refine (over_push tidy f.scope values names).mono ?_
  rintro frame _ _ _ step ⟨rfl, rfl⟩
  obtain ⟨scope, p, made, surrounds⟩ := surrounded
  have body : ∀ stmt ∈ f.decl.body, .stmt stmt ∈ p.parts := by
    intro stmt mem
    rcases made.text with rfl | rfl
    all_goals exact List.mem_cons_of_mem _ (List.mem_append_right _ (List.mem_map_of_mem mem))
  refine ⟨fun stmt mem => .inner (.call moment made surrounds) (body stmt mem), ?_⟩
  intro flow s₁ _ step₁ given
  dsimp only
  split
  · exact over_get step₁.holds f.scope thisName
  · cases flow with
    | normal => exact fun f mem => nomatch mem
    | «return» v => exact given

theorem over_exec (h : k.Orderly) (tidy : s.Scoped k) {fuel : Nat} {stmt : Stmt}
    (moment : k.moments (.exec (fuel + 1) scope stmt) s)
    (surrounds : k.Surrounds scope (.stmt stmt)) :
    (stmt.plan fuel scope).MeetsOver k.contract k.scoping k.host
      (fun flow s' => flow.Surrounded k s') s := by
  obtain ⟨around, kind, -, checked, regular⟩ : stmt.Placed k s scope := h.requires moment
  have inner : ∀ {p}, p ∈ stmt.parts → k.Surrounds scope p := fun mem => .inner surrounds mem
  cases stmt with
  | nop => trivial
  | expr e => exact ⟨inner (by simp [Stmt.parts]), fun _ s₁ _ _ _ => trivial⟩
  | print e =>
    refine ⟨inner (by simp [Stmt.parts]), fun v s₁ _ step _ => ?_⟩
    exact (over_printLine step.holds v.text).mono fun _ s₂ _ _ _ _ => trivial
  | varDecl name init =>
    refine ⟨inner (by simp [Stmt.parts]), fun v s₁ result step given => ?_⟩
    have ends : ∀ s', define scope name v s₁ = .ok () s' →
        exec k.host (fuel + 1) scope (.varDecl name init) s = .ok .normal s' := by
      intro s' defined
      rw [exec]
      exact (bind_of_ok result).trans (bind_of_ok defined)
    exact (over_define moment rfl step.holds given ends).mono fun _ s₂ _ _ _ _ => trivial
  | funDecl decl =>
    have made : Closure.Surrounded k s ⟨decl, scope, false⟩ :=
      Closure.surrounded_of_scope (inner List.mem_cons_self) (.inl rfl)
    refine (over_newFunction tidy made).mono fun f s₁ result _ step given => ?_
    have ends : ∀ s', define scope decl.name f s₁ = .ok () s' →
        exec k.host (fuel + 1) scope (.funDecl decl) s = .ok .normal s' := by
      intro s' defined
      rw [exec]
      exact (bind_of_ok result).trans (bind_of_ok defined)
    exact (over_define moment rfl step.holds given ends).mono fun _ s₂ _ _ _ _ => trivial
  | classDecl decl =>
    rw [Check.stmt] at checked
    have unreserved := (Check.classDecl_eq_ok.mp checked).1
    exact (over_declareClass tidy moment (inner List.mem_cons_self) unreserved).mono
      fun _ s₁ _ _ _ _ => trivial
  | block body =>
    have values : ∀ name v, Bindings.get? name [] = some v → v.Surrounded k s := by
      intro name v found
      cases found
    have names : ∀ name, Bindings.contains [] name = true → k.Binds s.frames.size name := by
      intro name bound
      cases bound
    refine (over_push tidy scope values names).mono ?_
    rintro _ _ _ _ step ⟨rfl, rfl⟩
    exact ⟨fun stmt mem => .inner (.block moment surrounds) (List.mem_map_of_mem mem),
      fun flow s₁ _ _ h => h⟩
  | ite cond thenBranch elseBranch =>
    refine ⟨inner (by simp [Stmt.parts]), fun c s₁ _ step _ => ?_⟩
    dsimp only
    split
    · exact ⟨inner (by simp [Stmt.parts]), fun flow s₂ _ _ h => h⟩
    · exact ⟨inner (by simp [Stmt.parts]), fun flow s₂ _ _ h => h⟩
  | «while» cond body =>
    exact ⟨⟨inner (by simp [Stmt.parts]), inner (by simp [Stmt.parts])⟩, fun flow s₁ _ _ h => h⟩
  | «for» init cond incr body => cases regular
  | «return» value => exact ⟨inner (by simp [Stmt.parts]), fun v s₁ _ _ h => h⟩

end

/-- Where classes and functions are in order, the contract about scopes is kept. -/
theorem Setting.Orderly.scoping_kept {k : Setting} (h : k.Orderly) :
    k.scoping.Kept k.toCourse := by
  refine h.governs.kept_over fun w s moment tidy required => ?_
  have tidy : s.Scoped k := tidy
  cases w with
  | expr fuel scope e =>
    cases fuel with
    | zero => trivial
    | succ fuel => exact over_expr tidy fuel required
  | values fuel scope es =>
    cases es with
    | nil => exact nofun
    | cons e rest =>
      obtain ⟨first, others⟩ := List.forall_mem_cons.mp required
      refine ⟨first, fun v s₁ _ step given => ⟨others, fun vs s₂ _ step values => ?_⟩⟩
      exact List.forall_mem_cons.mpr ⟨Value.Surrounded.later given step.follows.later, values⟩
  | call fuel callee args =>
    cases fuel with
    | zero => trivial
    | succ fuel => exact over_call tidy fuel required.1 required.2
  | closure fuel f args =>
    cases fuel with
    | zero => trivial
    | succ fuel => exact over_closure tidy moment required.1 required.2
  | exec fuel scope stmt =>
    cases fuel with
    | zero => trivial
    | succ fuel => exact over_exec h tidy moment required
  | block fuel scope stmts =>
    cases stmts with
    | nil => trivial
    | cons stmt rest =>
      obtain ⟨first, others⟩ := List.forall_mem_cons.mp required
      refine ⟨first, fun flow s₁ _ _ given => ?_⟩
      cases flow with
      | normal => exact ⟨others, fun flow s₂ _ _ h => h⟩
      | «return» v => exact given
  | loop fuel rounds scope cond body =>
    cases rounds with
    | zero => trivial
    | succ rounds =>
      refine ⟨required.1, fun c s₁ _ _ _ => ?_⟩
      dsimp only
      split
      · refine ⟨required.2, fun flow s₂ _ _ given => ?_⟩
        cases flow with
        | normal => exact ⟨required, fun flow s₃ _ _ h => h⟩
        | «return» v => exact given
      · trivial
  | program fuel scope last stmts =>
    cases stmts with
    | nil => exact required.1
    | cons stmt rest =>
      obtain ⟨first, others⟩ := List.forall_mem_cons.mp required.2
      cases stmt with
      | expr e =>
        refine ⟨.inner first List.mem_cons_self, fun v s₁ _ _ given => ?_⟩
        exact ⟨⟨given, others⟩, fun v s₂ _ _ h => h⟩
      | _ =>
        refine ⟨first, fun flow s₁ _ step _ => ?_⟩
        cases flow with
        | normal => exact ⟨⟨.of_isPlain rfl, others⟩, fun v s₂ _ _ h => h⟩
        | «return» v => exact over_fail step.holds _

end Lox
