import Lox.Proofs.Desugar.Alike
import Lox.Proofs.Renaming.Store

/-!
Renamed programs run in the same way.

`Mirrors P Q x y` says that from a store and its image the two computations end in the same way:
with results related by `Q`, with the same error up to renaming, or neither for lack of fuel; and
again with a store and its image. Every operation of the evaluator mirrors itself on renamed
operands, as long as the names that it is given are in use. The main statement is `mirrored`, one
induction on the fuel.
-/

namespace Lox

variable {P : Renaming}

/-- The two computations ended in the same way. -/
inductive Outcome.Image {α β : Type} (P : Renaming) (Q : α → β → Prop) :
    Outcome RuntimeError Store α → Outcome RuntimeError Store β → Prop where
  | ok {a b s s'} : Q a b → s.Image P s' → Image P Q (.ok a s) (.ok b s')
  | error {e s s'} : s.Image P s' → Image P Q (.error e s) (.error (e.rename P.name) s')
  | outOfFuel : Image P Q .outOfFuel .outOfFuel

/-- The function is renamed, and its code is covered. -/
structure Closure.Image (P : Renaming) (f f' : Closure) : Prop where
  eq : f' = f.rename P.name
  covered : P.Covers f.decl

/-- The class is renamed and fits. -/
structure Class.Image (P : Renaming) (c c' : Class) : Prop where
  eq : c' = c.rename P.name
  fit : c.Fit P

/-- The values are renamed and fit. -/
structure Value.ImageAll (P : Renaming) (vs vs' : List Value) : Prop where
  eq : vs' = vs.map (Value.rename P.name)
  fit : ∀ v ∈ vs, v.Fit P

/-- Completions with renamed values. -/
inductive Flow.Image (P : Renaming) : Flow → Flow → Prop where
  | normal : Image P .normal .normal
  | return {v v' : Value} : v.Image P v' → Image P (.return v) (.return v')

/-- The supplied functions that the code may call do not depend on what identifiers are called. -/
def Host.Respects (host : Host) (P : Renaming) : Prop :=
  ∀ index args, P.calls index → (∀ v ∈ args, Value.Fit P v) →
    (∃ v, host.supplied index args = .ok v ∧
      host.supplied index (args.map (Value.rename P.name)) = .ok (v.rename P.name) ∧ v.Fit P) ∨
    ∃ e, host.supplied index args = .error e ∧
      host.supplied index (args.map (Value.rename P.name)) = .error (e.rename P.name)

theorem Value.image_rename {v : Value} (fit : v.Fit P) : v.Image P (v.rename P.name) := ⟨rfl, fit⟩

namespace Run

/-- From a store and its image, both computations do the same. -/
def Mirrors {α β : Type} (P : Renaming) (Q : α → β → Prop) (x : Run α) (y : Run β) : Prop :=
  ∀ s s', s.Image P s' → (x s).Image P Q (y s')

/-! ### How computations are put together -/

section

variable {α β γ δ : Type} {Q : α → β → Prop} {R : γ → δ → Prop}

theorem mirrors_succeed {a : α} {b : β} (h : Q a b) : Mirrors P Q (succeed a) (succeed b) :=
  fun _ _ image => .ok h image

theorem mirrors_fail {e e' : RuntimeError} (h : e.rename P.name = e') :
    Mirrors P Q (fail e) (fail e') := by
  subst h
  exact fun _ _ image => .error image

theorem mirrors_exhausted : Mirrors P Q exhausted exhausted := fun _ _ _ => .outOfFuel

theorem mirrors_bind {x : Run α} {y : Run β} {f : α → Run γ} {g : β → Run δ}
    (first : Mirrors P Q x y) (next : ∀ a b, Q a b → Mirrors P R (f a) (g b)) :
    Mirrors P R (x >>= f) (y >>= g) := by
  intro s s' image
  have ends := first s s' image
  change Outcome.Image P R (andThen x f s) (andThen y g s')
  unfold andThen
  generalize x s = r at ends
  generalize y s' = r' at ends
  cases ends with
  | ok related image => exact next _ _ related _ _ image
  | error image => exact .error image
  | outOfFuel => exact .outOfFuel

theorem mirrors_ite {C : Prop} [Decidable C] {x y : Run α} {x' y' : Run β}
    (yes : Mirrors P Q x x') (no : Mirrors P Q y y') :
    Mirrors P Q (if C then x else y) (if C then x' else y') := by
  split
  · exact yes
  · exact no

/-- A scalar or an error without names is the same on both sides. -/
theorem mirrors_ofScalar {x : Except RuntimeError Value} (h : Scalar x) :
    Mirrors P (Value.Image P) (ofExcept x) (ofExcept x) := by
  cases x with
  | ok v => exact mirrors_succeed ⟨(Value.rename_of_isScalar _ h).symm, Value.fit_of_isScalar h⟩
  | error e => exact mirrors_fail (RuntimeError.rename_of_isNameless _ h)

theorem mirrors_change {f : Store → α × Store} {g : Store → β × Store}
    (h : ∀ s s', s.Image P s' → Q (f s).1 (g s').1 ∧ (f s).2.Image P (g s').2) :
    Mirrors P Q (change f) (change g) :=
  fun s s' image => .ok (h s s' image).1 (h s s' image).2

end

/-! ### Names and frames -/

section

variable {scope : Scope} {name : Name} {v v' w w' : Value} {f f' : Closure} {o : Object}

theorem mirrors_get (used : P.uses name) :
    Mirrors P (Value.Image P) (get scope name) (get scope (P.name name)) := by
  intro s s' image
  unfold get Store.get
  rw [image.lookup? used]
  cases found : s.lookup? name scope.chain with
  | none => exact .error image
  | some v => exact .ok (Value.image_rename (image.fit_of_lookup? used found)) image

theorem mirrors_this :
    Mirrors P (Value.Image P) (get scope thisName) (get scope thisName) := by
  have found : Mirrors P _ (get scope thisName) _ := mirrors_get P.uses_this
  rwa [P.fixed_this] at found

theorem mirrors_super :
    Mirrors P (Value.Image P) (get scope superName) (get scope superName) := by
  have found : Mirrors P _ (get scope superName) _ := mirrors_get P.uses_super
  rwa [P.fixed_super] at found

theorem mirrors_assign (used : P.uses name) (h : v.Image P v') :
    Mirrors P Eq (assign scope name v) (assign scope (P.name name) v') := by
  obtain ⟨rfl, fit⟩ := h
  intro s s' image
  unfold assign Store.assign
  rw [image.binder? used]
  cases s.binder? name scope.chain with
  | none => exact .error image
  | some f => exact .ok rfl (image.bind f used fit)

theorem mirrors_define (used : P.uses name) (h : v.Image P v') :
    Mirrors P Eq (define scope name v) (define scope (P.name name) v') := by
  obtain ⟨rfl, fit⟩ := h
  intro s s' image
  unfold define Store.define
  rw [(image.frame scope.frame).contains used]
  split
  · exact .error image
  · exact .ok rfl (image.bind scope.frame used fit)

theorem mirrors_push {b : Bindings} (fit : b.Fit P) :
    Mirrors P Eq (push scope b) (push scope (b.rename P.name)) :=
  mirrors_change fun s s' image => by
    refine ⟨?_, image.push scope fit⟩
    rw [Store.push_fst, Store.push_fst, image.frameCount]

/-- A frame that holds one name which is kept. -/
theorem mirrors_push_singleton (used : P.uses name) (kept : Fixed P.name name)
    (h : v.Image P v') :
    Mirrors P Eq (push scope [(name, v)]) (push scope [(name, v')]) := by
  obtain ⟨rfl, fit⟩ := h
  have fit : Bindings.Fit P [(name, v)] := by
    intro other w found
    unfold Bindings.get? at found
    split at found
    · rename_i same
      cases found
      exact ⟨same ▸ used, fit⟩
    · cases found
  have same : Bindings.rename P.name [(name, v)] = [(name, v.rename P.name)] :=
    congrArg (fun name => [(name, v.rename P.name)]) kept
  rw [← same]
  exact mirrors_push fit

theorem mirrors_freshId : Mirrors P Eq (change Store.freshId) (change Store.freshId) :=
  mirrors_change fun _ _ image =>
    ⟨image.nextId.symm, { image with nextId := congrArg (· + 1) image.nextId }⟩

theorem mirrors_passMoment : Mirrors P Eq (change Store.passMoment) (change Store.passMoment) :=
  mirrors_change fun _ _ image =>
    ⟨image.moment.symm, { image with moment := congrArg (· + 1) image.moment }⟩

theorem mirrors_printLine (text : String) :
    Mirrors P Eq (printLine text) (printLine text) := by
  intro s s' image
  have written : (s.write (text ++ "\n")).Image P (s'.write (text ++ "\n")) :=
    { image with output := congrArg (·.write (text ++ "\n")) image.output }
  unfold printLine
  dsimp only
  rw [image.output]
  split
  · exact .ok rfl written
  · exact .error written

/-! ### Functions, classes and instances -/

theorem mirrors_newFunction (h : f.Image P f') :
    Mirrors P (Value.Image P) (newFunction f) (newFunction f') := by
  obtain ⟨rfl, covered⟩ := h
  refine mirrors_bind mirrors_freshId ?_
  rintro id _ rfl
  exact mirrors_succeed ⟨rfl, covered⟩

theorem mirrors_bindMethod (covered : P.Covers f.decl) (fit : o.cls.Fit P) :
    Mirrors P (Closure.Image P) (bindMethod f o)
      (bindMethod (f.rename P.name) (o.rename P.name)) := by
  refine mirrors_bind (mirrors_push_singleton P.uses_this P.fixed_this ⟨rfl, fit⟩) ?_
  rintro scope _ rfl
  exact mirrors_succeed ⟨rfl, covered⟩

/-- A method that was found is bound and made into a value. -/
theorem mirrors_boundMethod (covered : P.Covers f.decl) (fit : o.cls.Fit P) :
    Mirrors P (Value.Image P) (bindMethod f o >>= newFunction)
      (bindMethod (f.rename P.name) (o.rename P.name) >>= newFunction) :=
  mirrors_bind (mirrors_bindMethod covered fit) fun _ _ image => mirrors_newFunction image

theorem mirrors_getProperty (used : P.uses name) (h : v.Image P v') :
    Mirrors P (Value.Image P) (getProperty v name) (getProperty v' (P.name name)) := by
  obtain ⟨rfl, fit⟩ := h
  cases v with
  | object o =>
    have field : Mirrors P (Option.Rel (Value.Image P))
        (read fun s => (s.fieldsOf o).get? name)
        (read fun s => (s.fieldsOf (o.rename P.name)).get? (P.name name)) := by
      intro s s' image
      have same : (s'.fieldsOf (o.rename P.name)).get? (P.name name) = _ :=
        (image.fields o).get? name used
      refine .ok ?_ image
      dsimp only
      rw [same]
      cases found : (s.fieldsOf o).get? name with
      | none => exact .none
      | some v => exact .some ⟨rfl, (image.fields o).fit name v used found⟩
    refine mirrors_bind field fun found found' related => ?_
    cases related with
    | some image => exact mirrors_succeed image
    | none =>
      dsimp only
      rw [Object.rename, Class.method?_rename]
      cases found : o.cls.method? name with
      | some m => exact mirrors_boundMethod (Class.Fit.method? fit found) fit
      | none => exact mirrors_fail rfl
  | _ => exact mirrors_fail rfl

theorem mirrors_setProperty (h : v.Image P v') (name : Name) (h' : w.Image P w') :
    Mirrors P Eq (setProperty v name w) (setProperty v' (P.name name) w') := by
  obtain ⟨rfl, fit⟩ := h
  obtain ⟨rfl, fit'⟩ := h'
  cases v with
  | object o => exact fun s s' image => .ok rfl (image.setField o name fit')
  | _ => exact mirrors_fail rfl

theorem mirrors_getSuperMethod (name : Name) :
    Mirrors P (Value.Image P) (getSuperMethod scope name)
      (getSuperMethod scope (P.name name)) := by
  refine mirrors_bind mirrors_super ?_
  rintro parent _ ⟨rfl, fit⟩
  refine mirrors_bind mirrors_this ?_
  rintro this _ ⟨rfl, fit'⟩
  cases parent with
  | cls c =>
    cases this with
    | object o =>
      simp only [Value.rename]
      rw [Class.method?_rename]
      cases found : c.method? name with
      | some m => exact mirrors_boundMethod (Class.Fit.method? fit found) fit'
      | none => exact mirrors_fail rfl
    | _ => exact mirrors_fail rfl
  | _ => exact mirrors_fail rfl

/-! ### Class declarations -/

theorem mirrors_superclassOf {superclass : Option Name} (used : ∀ name ∈ superclass, P.uses name) :
    Mirrors P (Option.Rel (Class.Image P)) (superclassOf scope superclass)
      (superclassOf scope (superclass.map P.name)) := by
  cases superclass with
  | none => exact mirrors_succeed .none
  | some name =>
    refine mirrors_bind (mirrors_get (used name rfl)) ?_
    rintro v _ ⟨rfl, fit⟩
    cases v with
    | cls c => exact mirrors_succeed (.some ⟨rfl, fit⟩)
    | _ => exact mirrors_fail rfl

theorem mirrors_methodScope {c c' : Option Class} (h : Option.Rel (Class.Image P) c c') :
    Mirrors P Eq (methodScope scope c) (methodScope scope c') := by
  cases h with
  | none => exact mirrors_succeed rfl
  | some image =>
    obtain ⟨rfl, fit⟩ := image
    exact mirrors_push_singleton P.uses_super P.fixed_super ⟨rfl, fit⟩

/-- A class made from a declaration that is covered fits if its ancestors do. -/
theorem image_declared {decl : ClassDecl} (covered : decl.Over P.uses (Fixed P.name))
    (inner : Scope) (id : Nat) {ancestors : List ClassBody}
    (fit : ∀ body ∈ ancestors, ∀ m ∈ body.methods, P.Covers m.decl) :
    (Value.cls ⟨⟨id, decl.name, decl.methods.map fun m =>
        ⟨m, inner, m.name = initializerName⟩⟩, ancestors⟩).Image P
      (.cls ⟨⟨id, (decl.rename P.name).name, (decl.rename P.name).methods.map fun m =>
        ⟨m, inner, m.name = initializerName⟩⟩, ancestors.map (ClassBody.rename P.name)⟩) := by
  obtain ⟨⟨-, kept⟩, -, methods⟩ := ClassDecl.over_iff.mp covered
  have methods' : ((decl.rename P.name).methods.map fun m =>
        (⟨m, inner, m.name = initializerName⟩ : Closure)) =
      (decl.methods.map fun m => (⟨m, inner, m.name = initializerName⟩ : Closure)).map
        (Closure.rename P.name) := by
    rw [ClassDecl.rename_methods, List.map_map, List.map_map]
    refine List.map_congr_left fun m mem => ?_
    have keptName : P.name m.name = m.name := (FunctionDecl.over_iff.mp (methods m mem)).1.2
    simp only [Function.comp_apply, Closure.rename, FunctionDecl.rename_name, keptName]
  constructor
  case eq =>
    rw [methods', ClassDecl.rename_name]
    rfl
  case fit =>
    refine ⟨kept, List.forall_mem_cons.mpr ⟨?_, fit⟩⟩
    intro m mem
    obtain ⟨d, declared, rfl⟩ := List.mem_map.mp mem
    exact methods d declared

theorem mirrors_declareClass {decl : ClassDecl} (covered : decl.Over P.uses (Fixed P.name)) :
    Mirrors P Eq (declareClass scope decl) (declareClass scope (decl.rename P.name)) := by
  obtain ⟨⟨used, -⟩, parents, -⟩ := ClassDecl.over_iff.mp covered
  unfold declareClass
  rw [ClassDecl.rename_superclass]
  refine mirrors_bind (mirrors_superclassOf parents) fun parent parent' related => ?_
  refine mirrors_bind (mirrors_methodScope related) ?_
  rintro inner _ rfl
  refine mirrors_bind mirrors_freshId ?_
  rintro id _ rfl
  cases related with
  | none =>
    have image := image_declared covered inner id (List.forall_mem_nil _)
    rw [ClassDecl.rename_name] at image ⊢
    exact mirrors_define used image
  | some related =>
    obtain ⟨rfl, fit⟩ := related
    have image := image_declared covered inner id fit.methods
    rw [ClassDecl.rename_name] at image ⊢
    exact mirrors_define used image

/-! ### Calls and repetitions -/

theorem mirrors_checkArity {callee callee' : String} (arity : Arity) {args args' : List Value}
    (kept : P.name callee = callee') (h : Value.ImageAll P args args') :
    Mirrors P Eq (checkArity callee arity args) (checkArity callee' arity args') := by
  obtain ⟨rfl, -⟩ := h
  subst kept
  unfold checkArity
  rw [List.length_map]
  exact mirrors_ite (mirrors_succeed rfl) (mirrors_fail rfl)

theorem mirrors_callBuiltin (host : Host) (b : Builtin) {args args' : List Value}
    (h : Value.ImageAll P args args') :
    Mirrors P (Value.Image P) (callBuiltin host b args) (callBuiltin host b args') := by
  obtain ⟨rfl, -⟩ := h
  refine mirrors_bind mirrors_passMoment ?_
  rintro moment _ rfl
  rw [b.apply_rename]
  exact mirrors_ofScalar (b.scalar_apply _ args)

theorem mirrors_supplied {host : Host} (respects : host.Respects P) {index : Nat}
    (allowed : P.calls index) {args args' : List Value} (h : Value.ImageAll P args args') :
    Mirrors P (Value.Image P) (ofExcept (host.supplied index args))
      (ofExcept (host.supplied index args')) := by
  obtain ⟨rfl, fit⟩ := h
  rcases respects index args allowed fit with ⟨v, given, given', fit⟩ | ⟨e, given, given'⟩
  · rw [given, given']
    exact mirrors_succeed ⟨rfl, fit⟩
  · rw [given, given']
    exact mirrors_fail rfl

theorem mirrors_values {eval eval' : Expr → Run Value} {es : List Expr}
    (h : ∀ e ∈ es, Mirrors P (Value.Image P) (eval e) (eval' (e.rename P.name))) :
    Mirrors P (Value.ImageAll P) (values eval es) (values eval' (Expr.renameAll P.name es)) := by
  induction es with
  | nil => exact mirrors_succeed ⟨rfl, by simp⟩
  | cons e rest ih =>
    obtain ⟨first, behind⟩ := List.forall_mem_cons.mp h
    refine mirrors_bind first ?_
    rintro v _ ⟨rfl, fit⟩
    refine mirrors_bind (ih behind) ?_
    rintro vs _ ⟨rfl, fits⟩
    exact mirrors_succeed ⟨rfl, List.forall_mem_cons.mpr ⟨fit, fits⟩⟩

theorem mirrors_statements {exec exec' : Stmt → Run Flow} {stmts : List Stmt}
    (h : ∀ s ∈ stmts, Mirrors P (Flow.Image P) (exec s) (exec' (s.rename P.name))) :
    Mirrors P (Flow.Image P) (statements exec stmts)
      (statements exec' (stmts.map (Stmt.rename P.name))) := by
  induction stmts with
  | nil => exact mirrors_succeed .normal
  | cons s rest ih =>
    obtain ⟨first, behind⟩ := List.forall_mem_cons.mp h
    refine mirrors_bind first fun flow flow' image => ?_
    cases image with
    | normal => exact ih behind
    | «return» image => exact mirrors_succeed (.return image)

theorem mirrors_loop {cond cond' : Run Value} {body body' : Run Flow}
    (h : Mirrors P (Value.Image P) cond cond') (h' : Mirrors P (Flow.Image P) body body')
    (fuel : Nat) : Mirrors P (Flow.Image P) (loop cond body fuel) (loop cond' body' fuel) := by
  induction fuel with
  | zero => exact mirrors_exhausted
  | succ fuel ih =>
    refine mirrors_bind h ?_
    rintro c _ ⟨rfl, -⟩
    rw [Value.isTruthy_rename]
    refine mirrors_ite (mirrors_bind h' fun flow flow' image => ?_) (mirrors_succeed .normal)
    cases image with
    | normal => exact ih
    | «return» image => exact mirrors_succeed (.return image)

end

end Run

open Run

/-! ### Running a renamed program -/

/-- With the given fuel, code and its image do the same. -/
structure Mirrored (P : Renaming) (host : Host) (n : Nat) : Prop where
  expr : ∀ scope e, e.Over P.uses →
    Mirrors P (Value.Image P) (evalExpr host n scope e) (evalExpr host n scope (e.rename P.name))
  call : ∀ v v' args args', v.Image P v' → Value.ImageAll P args args' →
    Mirrors P (Value.Image P) (call host n v args) (call host n v' args')
  closure : ∀ f f' args args', f.Image P f' → Value.ImageAll P args args' →
    Mirrors P (Value.Image P) (callClosure host n f args) (callClosure host n f' args')
  exec : ∀ scope s, s.Over P.uses (Fixed P.name) →
    Mirrors P (Flow.Image P) (exec host n scope s) (exec host n scope (s.rename P.name))

section

variable {host : Host} {n : Nat}

theorem mirrors_evalExpr (ih : Mirrored P host n) (scope : Scope) {e : Expr}
    (covered : e.Over P.uses) :
    Mirrors P (Value.Image P) (evalExpr host (n + 1) scope e)
      (evalExpr host (n + 1) scope (e.rename P.name)) := by
  have sub := ih.expr scope
  unfold evalExpr
  cases e with
  | nil | number _ | bool _ | string _ => exact mirrors_succeed ⟨rfl, trivial⟩
  | var name => exact mirrors_get covered
  | unary op operand =>
    refine mirrors_bind (sub operand covered) ?_
    rintro v _ ⟨rfl, -⟩
    rw [op.apply_rename]
    exact mirrors_ofScalar (op.scalar_apply v)
  | binary op left right =>
    refine mirrors_bind (sub left covered.1) ?_
    rintro l _ ⟨rfl, -⟩
    refine mirrors_bind (sub right covered.2) ?_
    rintro r _ ⟨rfl, -⟩
    rw [op.apply_rename]
    exact mirrors_ofScalar (op.scalar_apply l r)
  | logic op left right =>
    refine mirrors_bind (sub left covered.1) ?_
    rintro l _ ⟨rfl, fit⟩
    rw [op.stopsAt_rename]
    exact mirrors_ite (mirrors_succeed ⟨rfl, fit⟩) (sub right covered.2)
  | group e => exact sub e covered
  | assign name value =>
    refine mirrors_bind (sub value covered.2) fun v v' image => ?_
    exact mirrors_bind (mirrors_assign covered.1 image) fun _ _ _ => mirrors_succeed image
  | call callee args =>
    refine mirrors_bind (sub callee covered.1) fun c c' image => ?_
    have each := fun e mem => sub e (Expr.overAll_iff.mp covered.2 e mem)
    exact mirrors_bind (mirrors_values each) fun vs vs' images => ih.call c c' vs vs' image images
  | get object name =>
    exact mirrors_bind (sub object covered.1) fun o o' image => mirrors_getProperty covered.2 image
  | set object name value =>
    refine mirrors_bind (sub object covered.1) fun o o' image => ?_
    refine mirrors_bind (sub value covered.2.2) fun v v' image' => ?_
    exact mirrors_bind (mirrors_setProperty image name image') fun _ _ _ => mirrors_succeed image'
  | this => exact mirrors_this
  | super method => exact mirrors_getSuperMethod method

theorem mirrors_call (respects : host.Respects P) (ih : Mirrored P host n) {v v' : Value}
    {args args' : List Value} (h : v.Image P v') (h' : Value.ImageAll P args args') :
    Mirrors P (Value.Image P) (call host (n + 1) v args) (call host (n + 1) v' args') := by
  obtain ⟨rfl, fit⟩ := h
  unfold call
  cases v with
  | function id f =>
    simp only [Value.rename, Closure.arity_rename]
    refine mirrors_bind (mirrors_checkArity _ (f.decl.rename_name P.name).symm h') fun _ _ _ => ?_
    exact ih.closure f _ args args' ⟨rfl, fit⟩ h'
  | native f =>
    simp only [Value.rename]
    refine mirrors_bind (mirrors_checkArity _ fit.1 h') fun _ _ _ => ?_
    cases body : f.body with
    | builtin b => exact mirrors_callBuiltin host b h'
    | supplied index => exact mirrors_supplied respects (fit.2 index body) h'
  | cls c =>
    simp only [Value.rename, Class.arity_rename]
    refine mirrors_bind (mirrors_checkArity _ rfl h') fun _ _ _ => ?_
    have made : Mirrors P (fun o o' => o' = o.rename P.name ∧ o.cls.Fit P)
        (change (·.newObject c)) (change (·.newObject (c.rename P.name))) :=
      mirrors_change fun s s' image =>
        ⟨⟨congrArg (Object.mk _) image.fieldCount, fit⟩, image.newObject c⟩
    refine mirrors_bind made ?_
    rintro o _ ⟨rfl, fitObject⟩
    rw [c.init_rename]
    cases found : c.method? initializerName with
    | none => exact mirrors_succeed ⟨rfl, fitObject⟩
    | some m =>
      refine mirrors_bind (mirrors_bindMethod (fit.method? found) fitObject) fun f f' image => ?_
      refine mirrors_bind (ih.closure f f' args args' image h') fun _ _ _ => ?_
      exact mirrors_succeed ⟨rfl, fitObject⟩
  | _ => exact mirrors_fail rfl

theorem mirrors_callClosure (ih : Mirrored P host n) {f f' : Closure} {args args' : List Value}
    (h : f.Image P f') (h' : Value.ImageAll P args args') :
    Mirrors P (Value.Image P) (callClosure host (n + 1) f args)
      (callClosure host (n + 1) f' args') := by
  obtain ⟨rfl, covered⟩ := h
  obtain ⟨rfl, fits⟩ := h'
  obtain ⟨-, params, body⟩ := FunctionDecl.over_iff.mp covered
  have bound : Bindings.Fit P (.ofList (f.decl.params.zip args)) := by
    intro name v found
    obtain ⟨param, arg⟩ := Bindings.mem_of_get?_params found
    exact ⟨params name param, fits v arg⟩
  unfold callClosure
  simp only [Closure.rename, FunctionDecl.rename_params, FunctionDecl.rename_body,
    ← Bindings.ofList_zip_rename]
  refine mirrors_bind (mirrors_push bound) ?_
  rintro frame _ rfl
  have each := fun s mem => ih.exec frame s (body s mem)
  refine mirrors_bind (mirrors_statements each) fun flow flow' image => ?_
  refine mirrors_ite mirrors_this ?_
  cases image with
  | normal => exact mirrors_succeed ⟨rfl, trivial⟩
  | «return» image => exact mirrors_succeed image

theorem mirrors_exec (ih : Mirrored P host n) (scope : Scope) {stmt : Stmt}
    (covered : stmt.Over P.uses (Fixed P.name)) :
    Mirrors P (Flow.Image P) (exec host (n + 1) scope stmt)
      (exec host (n + 1) scope (stmt.rename P.name)) := by
  have sub := ih.expr scope
  unfold exec
  cases stmt with
  | nop => exact mirrors_succeed .normal
  | expr e => exact mirrors_bind (sub e covered) fun _ _ _ => mirrors_succeed .normal
  | print e =>
    refine mirrors_bind (sub e covered) ?_
    rintro v _ ⟨rfl, fit⟩
    rw [Value.text_rename fit]
    exact mirrors_bind (mirrors_printLine _) fun _ _ _ => mirrors_succeed .normal
  | varDecl name init =>
    refine mirrors_bind (sub init covered.2) fun v v' image => ?_
    exact mirrors_bind (mirrors_define covered.1 image) fun _ _ _ => mirrors_succeed .normal
  | funDecl decl =>
    have used := (FunctionDecl.over_iff.mp covered).1.1
    simp only [Stmt.rename, FunctionDecl.rename_name]
    refine mirrors_bind (mirrors_newFunction ⟨rfl, covered⟩) fun v v' image => ?_
    exact mirrors_bind (mirrors_define used image) fun _ _ _ => mirrors_succeed .normal
  | classDecl decl =>
    exact mirrors_bind (mirrors_declareClass covered) fun _ _ _ => mirrors_succeed .normal
  | block body =>
    have empty : Bindings.Fit P [] := fun name v found => nomatch found
    simp only [Stmt.rename, Stmt.renameAll_eq_map]
    refine mirrors_bind (mirrors_push empty) ?_
    rintro inner _ rfl
    exact mirrors_statements fun s mem => ih.exec inner s (Stmt.overAll_iff.mp covered s mem)
  | ite cond thenBranch elseBranch =>
    refine mirrors_bind (sub cond covered.1) ?_
    rintro c _ ⟨rfl, -⟩
    rw [Value.isTruthy_rename]
    exact mirrors_ite (ih.exec scope thenBranch covered.2.1) (ih.exec scope elseBranch covered.2.2)
  | «while» cond body => exact mirrors_loop (sub cond covered.1) (ih.exec scope body covered.2) n
  | «for» init cond incr body =>
    obtain ⟨hinit, hcond, hincr, hbody⟩ := covered
    have unrolled := ih.exec scope _ (Stmt.over_ofFor hinit hcond hincr (Stmt.Over.desugar hbody))
    rw [Stmt.rename_ofFor, ← Stmt.desugar_rename] at unrolled
    simp only [Stmt.rename, Stmt.rename?_eq_map]
    exact unrolled
  | «return» value =>
    exact mirrors_bind (sub value covered) fun v v' image => mirrors_succeed (.return image)

end

/-- Code and its image do the same, whatever the fuel. -/
theorem mirrored {host : Host} (respects : host.Respects P) (n : Nat) : Mirrored P host n := by
  induction n with
  | zero => constructor <;> intros <;> exact mirrors_exhausted
  | succ n ih =>
    constructor
    case expr => exact fun scope e covered => mirrors_evalExpr ih scope covered
    case call => exact fun v v' args args' h h' => mirrors_call respects ih h h'
    case closure => exact fun f f' args args' h h' => mirrors_callClosure ih h h'
    case exec => exact fun scope s covered => mirrors_exec ih scope covered

theorem mirrors_execProgram {host : Host} (respects : host.Respects P) (fuel : Nat)
    (scope : Scope) {stmts : List Stmt} (covered : Stmt.OverAll P.uses (Fixed P.name) stmts)
    {last last' : Value} (h : last.Image P last') :
    Mirrors P (Value.Image P) (execProgram host fuel scope last stmts)
      (execProgram host fuel scope last' (Stmt.renameAll P.name stmts)) := by
  have runs := mirrored respects fuel
  induction stmts generalizing last last' with
  | nil => exact mirrors_succeed h
  | cons stmt rest ih =>
    obtain ⟨first, behind⟩ := covered
    by_cases isExpr : ∃ e, stmt = .expr e
    · obtain ⟨e, rfl⟩ := isExpr
      exact mirrors_bind (runs.expr scope e first) fun v v' image => ih behind image
    · have ne : ∀ e, stmt ≠ .expr e := fun e is => isExpr ⟨e, is⟩
      have ne' : ∀ e, stmt.rename P.name ≠ .expr e := by
        intro e is
        cases stmt with
        | expr e => exact ne e rfl
        | _ => cases is
      rw [Stmt.renameAll, execProgram_of_ne_expr host fuel scope last rest ne,
        execProgram_of_ne_expr host fuel scope last' _ ne']
      refine mirrors_bind (runs.exec scope stmt first) fun flow flow' image => ?_
      cases image with
      | normal => exact ih behind ⟨rfl, trivial⟩
      | «return» => exact mirrors_fail rfl

end Lox
