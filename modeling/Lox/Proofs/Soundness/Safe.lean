import Lox.Proofs.Eval.Names
import Lox.Proofs.Soundness.State

/-!
Computations that end in none of the errors that the checks are there to prevent.

`Safe s x Q` says that from a store in order the computation leads to a later store in order, with a
value that satisfies `Q` or with an error that is not ruled out. Everything a program does with the
store is safe if the values it handles are in order: each operation of the evaluator has a lemma
here. A name is defined safely if the frame of the scope does not bind it yet (`Scope.Admits`).
-/

namespace Lox

open Check (ClassKind FunctionKind)

/-- The errors that checked programs do not end in: a second definition of a local name, a `return`
outside all functions, `this` or `super` without a value, and a `super` that is not a class or whose
`this` is not an instance. -/
def RuntimeError.RuledOut : RuntimeError → Prop
  | .duplicateDefinition _ => True
  | .returnOutsideFunction => True
  | .undefinedName name => name = thisName ∨ name = superName
  | .typeMismatch rule _ => rule = .superBinding
  | _ => False

/-- A name that is not a reserved word may be undefined. -/
theorem RuntimeError.not_ruledOut_undefinedName {name : Name} (h : name.isReserved = false) :
    ¬ (undefinedName name).RuledOut := by
  rintro (rfl | rfl)
  · cases h
  · cases h

namespace Run

variable {α β : Type} {s : Store} {x : Run α} {f : α → Run β}
variable {Q Q' : α → Store → Prop} {R : β → Store → Prop}

/-! ### Safe computations -/

/-- If the computation ends from `s`, the store has grown and is in order. Its value satisfies the
given property, its error is not ruled out. -/
def Safe (s : Store) (x : Run α) (Q : α → Store → Prop) : Prop :=
  Ensures s x (fun a s' => s.Becomes s' ∧ Q a s') (fun e s' => s.Becomes s' ∧ ¬ e.RuledOut)

theorem Safe.mono (h : Safe s x Q) (weaker : ∀ a s', s.Becomes s' → Q a s' → Q' a s') :
    Safe s x Q' :=
  Ensures.mono h (fun a s' ⟨becomes, holds⟩ => ⟨becomes, weaker a s' becomes holds⟩)
    fun _ _ h => h

theorem safe_bind (first : Safe s x Q)
    (next : ∀ a s', s.Becomes s' → Q a s' → Safe s' (f a) R) : Safe s (x >>= f) R := by
  apply ensures_bind (Q := fun a s' => s.Becomes s' ∧ Q a s')
  · exact first
  · rintro a s' ⟨becomes, holds⟩
    apply Ensures.mono (next a s' becomes holds)
    · intro b s'' h
      exact ⟨becomes.trans h.1, h.2⟩
    · intro e s'' h
      exact ⟨becomes.trans h.1, h.2⟩

/-- What a computation does to the names in frames may be used after it. -/
theorem Safe.keeping {added : FrameId → Name → Prop} (h : Safe s x Q)
    (keeps : Preserves (s.Keeps added) x) :
    Safe s x (fun a s' => s.Keeps added s' ∧ Q a s') := by
  apply Ensures.mono (Ensures.and h (keeps s (.refl s)))
  · rintro a s' ⟨⟨becomes, holds⟩, kept⟩
    exact ⟨becomes, kept, holds⟩
  · rintro e s' ⟨safe, -⟩
    exact safe

theorem safe_succeed {a : α} (ok : s.Ok) (holds : Q a s) : Safe s (succeed a) Q :=
  ⟨.refl ok, holds⟩

theorem safe_fail {e : RuntimeError} (ok : s.Ok) (h : ¬ e.RuledOut) : Safe s (fail e) Q :=
  ⟨.refl ok, h⟩

theorem safe_exhausted : Safe s exhausted Q := trivial

theorem safe_ofExcept {r : Except RuntimeError α} (ok : s.Ok) (value : ∀ a, r = .ok a → Q a s)
    (error : ∀ e, r = .error e → ¬ e.RuledOut) : Safe s (ofExcept r) Q := by
  cases r with
  | ok a => exact safe_succeed ok (value a rfl)
  | error e => exact safe_fail ok (error e rfl)

theorem safe_change {g : Store → α × Store} (becomes : s.Becomes (g s).2)
    (holds : Q (g s).1 (g s).2) : Safe s (change g) Q :=
  ⟨becomes, holds⟩

theorem safe_ite {C : Prop} [Decidable C] {y : Run α} (yes : Safe s x Q) (no : Safe s y Q) :
    Safe s (if C then x else y) Q := by
  split
  · exact yes
  · exact no

end Run

open Run

variable {s : Store} {scope : Scope}

/-! ### Names -/

/-- The scope's own frame can take on the name: it does not bind it, or it may bind it again. -/
def Scope.Admits (s : Store) (scope : Scope) (name : Name) : Prop :=
  (scope.isRoot || scope.isGlobal) = true ∨ (s.frame scope.frame).contains name = false

theorem Scope.Admits.keeps {s' : Store} {name : Name} (h : scope.Admits s name)
    (bounded : scope.Bounded s) (keeps : s.Keeps Store.nothing s') : scope.Admits s' name := by
  rcases h with outermost | unbound
  · exact .inl outermost
  · right
    rw [Bool.eq_false_iff]
    intro bound
    have inside : scope.frame < s.frames.size := bounded scope.frame (by simp [chain])
    rcases keeps.only scope.frame inside name bound with before | added
    · rw [before] at unbound
      cases unbound
    · exact added

theorem safe_get {name : Name} (ok : s.Ok) (unreserved : name.isReserved = false) :
    Safe s (get scope name) (fun v s' => v.Ok s') := by
  unfold Safe Ensures Run.get Store.get
  cases found : s.lookup? name scope.chain with
  | none => exact ⟨.refl ok, RuntimeError.not_ruledOut_undefinedName unreserved⟩
  | some v => exact ⟨.refl ok, ok.lookup? found⟩

/-- A name that has a value. -/
theorem safe_get_of_lookup? {name : Name} {v : Value} (ok : s.Ok)
    (found : s.lookup? name scope.chain = some v) :
    Safe s (get scope name) (fun w s' => w = v ∧ w.Ok s') := by
  unfold Safe Ensures Run.get Store.get
  rw [found]
  exact ⟨.refl ok, rfl, ok.lookup? found⟩

theorem safe_assign {name : Name} {value : Value} (ok : s.Ok) (unreserved : name.isReserved = false)
    (valueOk : value.Ok s) : Safe s (assign scope name value) (fun _ _ => True) := by
  unfold Safe Ensures assign Store.assign
  cases s.binder? name scope.chain with
  | none => exact ⟨.refl ok, RuntimeError.not_ruledOut_undefinedName unreserved⟩
  | some f => exact ⟨ok.becomes_bind f unreserved valueOk, trivial⟩

theorem safe_define {name : Name} {value : Value} (ok : s.Ok) (unreserved : name.isReserved = false)
    (valueOk : value.Ok s) (admits : scope.Admits s name) :
    Safe s (define scope name value) (fun _ _ => True) := by
  have accepted : ¬ (!(scope.isRoot || scope.isGlobal) &&
      (s.frame scope.frame).contains name) = true := by
    rcases admits with outermost | unbound
    · simp [outermost]
    · simp [unbound]
  unfold Safe Ensures define Store.define
  rw [if_neg accepted]
  exact ⟨ok.becomes_bind scope.frame unreserved valueOk, trivial⟩

/-- What runs in a new frame runs in the store that has it. -/
theorem safe_push_bind {α : Type} {f : Scope → Run α} {Q : α → Store → Prop} {b : Bindings}
    (ok : s.Ok) (valuesOk : ∀ name v, b.get? name = some v → v.Ok s)
    (next : (s.push scope b).2.Ok → Safe (s.push scope b).2 (f ⟨s.frames.size, scope.chain⟩) Q) :
    Safe s (push scope b >>= f) Q := by
  have becomes := ok.becomes_push scope valuesOk
  have pushed : Safe s (push scope b)
      (fun inner s' => inner = ⟨s.frames.size, scope.chain⟩ ∧ s' = (s.push scope b).2) :=
    safe_change becomes ⟨rfl, rfl⟩
  apply safe_bind pushed
  rintro inner s' - ⟨rfl, rfl⟩
  exact next becomes.ok

/-! ### Functions and methods -/

theorem Store.Ok.becomes_freshId (ok : s.Ok) : s.Becomes s.freshId.2 := ok.becomes_of_eq rfl rfl

theorem safe_newFunction {f : Closure} (ok : s.Ok) (closureOk : f.Ok s) :
    Safe s (newFunction f) (fun v s' => v.Ok s') := by
  apply safe_bind (Q := fun _ _ => True)
  · exact ⟨ok.becomes_freshId, trivial⟩
  · intro id s' becomes _
    exact safe_succeed becomes.ok (closureOk.grows becomes.grows)

/-- The frame that binds a method to its instance gives `this` a value and leaves `super` as it
is. -/
theorem Closure.MethodOk.bound {m : Closure} {o : Object} (h : m.MethodOk s) :
    Closure.Ok (s.push m.scope [(thisName, .object o)]).2
      { m with scope := ⟨s.frames.size, m.scope.chain⟩ } := by
  obtain ⟨cls, kind, inside, checked, regular, bounded, super⟩ := h
  have here := s.frame_push_self m.scope [(thisName, .object o)]
  have suits : Scope.Suits (s.push m.scope [(thisName, .object o)]).2 cls
      ⟨s.frames.size, m.scope.chain⟩ := by
    constructor
    · exact bounded.push _
    · intro _
      refine ⟨o, Store.lookup?_cons_of_some ?_⟩
      rw [here]
      rfl
    · intro derived
      obtain ⟨c, found⟩ := super derived
      have grows := Store.Grows.push s m.scope [(thisName, .object o)]
      rw [← grows.lookup? isReserved_superName bounded] at found
      refine ⟨c, (Store.lookup?_cons_of_none ?_).trans found⟩
      rw [here]
      rfl
  exact ⟨cls, kind, checked, regular, suits, fun _ => inside⟩

theorem safe_bindMethod {method : Closure} {o : Object} (ok : s.Ok) (methodOk : method.MethodOk s)
    (objectOk : o.cls.Ok s) : Safe s (bindMethod method o) (fun f s' => f.Ok s') := by
  apply safe_push_bind ok
  · intro name v found
    unfold Bindings.get? at found
    split at found
    · cases found
      exact objectOk
    · cases found
  · intro ok'
    exact safe_succeed ok' methodOk.bound

/-- A method that is bound to an instance and made a value. -/
theorem safe_boundFunction {method : Closure} {o : Object} (ok : s.Ok)
    (methodOk : method.MethodOk s) (objectOk : o.cls.Ok s) :
    Safe s (bindMethod method o >>= newFunction) (fun v s' => v.Ok s') := by
  apply safe_bind (safe_bindMethod ok methodOk objectOk)
  intro bound s' becomes boundOk
  exact safe_newFunction becomes.ok boundOk

/-! ### Properties -/

theorem safe_getProperty {value : Value} {name : Name} (ok : s.Ok) (valueOk : value.Ok s) :
    Safe s (getProperty value name) (fun v s' => v.Ok s') := by
  cases value with
  | object o =>
    apply safe_bind (Q := fun field s' => s' = s ∧ field = (s.fieldsOf o).get? name)
    · exact ⟨.refl ok, rfl, rfl⟩
    rintro field s' - ⟨rfl, same⟩
    cases field with
    | some v => exact safe_succeed ok (ok.fields o name v same.symm)
    | none =>
      dsimp only
      cases found : o.cls.method? name with
      | some method => exact safe_boundFunction ok (Class.Ok.method? valueOk found) valueOk
      | none => exact safe_fail ok fun h => h
  | _ => exact safe_fail ok (by rintro ⟨⟩)

theorem safe_setProperty {owner value : Value} {name : Name} (ok : s.Ok) (valueOk : value.Ok s) :
    Safe s (setProperty owner name value) (fun _ _ => True) := by
  cases owner with
  | object o => exact ⟨ok.becomes_setField o name valueOk, trivial⟩
  | _ => exact safe_fail ok (by rintro ⟨⟩)

/-- Where `super` may be used it is a class, and `this` an instance. -/
theorem safe_getSuperMethod {name : Name} (ok : s.Ok) (suits : scope.Suits s .derived) :
    Safe s (getSuperMethod scope name) (fun v s' => v.Ok s') := by
  obtain ⟨c, superFound⟩ := suits.super rfl
  apply safe_bind (safe_get_of_lookup? ok superFound)
  rintro _ s' becomes ⟨rfl, classOk⟩
  obtain ⟨o, thisFound⟩ := (suits.grows becomes.grows).this ClassKind.noConfusion
  apply safe_bind (safe_get_of_lookup? becomes.ok thisFound)
  rintro _ s'' becomes' ⟨rfl, objectOk⟩
  have classOk : c.Ok s'' := Class.Ok.grows classOk becomes'.grows
  dsimp only
  cases found : c.method? name with
  | some method => exact safe_boundFunction becomes'.ok (classOk.method? found) objectOk
  | none => exact safe_fail becomes'.ok fun h => h

/-! ### Classes -/

theorem safe_superclassOf {superclass : Option Name} (ok : s.Ok)
    (unreserved : ∀ name, superclass = some name → name.isReserved = false) :
    Safe s (superclassOf scope superclass) (fun parent s' =>
      (∀ c, parent = some c → c.Ok s') ∧
        (ClassKind.ofSuperclass superclass = .derived → ∃ c, parent = some c)) := by
  cases superclass with
  | none =>
    apply safe_succeed ok
    constructor
    · intro c same
      cases same
    · intro derived
      cases derived
  | some name =>
    apply safe_bind (safe_get ok (unreserved name rfl))
    intro v s' becomes valueOk
    cases v with
    | cls c =>
      apply safe_succeed becomes.ok
      constructor
      · intro c' same
        cases same
        exact valueOk
      · intro _
        exact ⟨c, rfl⟩
    | _ => exact safe_fail becomes.ok (by rintro ⟨⟩)

/-- In the scope of the methods of a class, `super` is the superclass. -/
theorem safe_methodScope {parent : Option Class} (ok : s.Ok) (bounded : scope.Bounded s)
    (parentOk : ∀ c, parent = some c → c.Ok s) :
    Safe s (methodScope scope parent) (fun inner s' => inner.Bounded s' ∧
      ∀ c, parent = some c → s'.lookup? superName inner.chain = some (.cls c)) := by
  cases parent with
  | none =>
    apply safe_succeed ok
    constructor
    · exact bounded
    · intro c same
      cases same
  | some c =>
    have valuesOk : ∀ name v, Bindings.get? name [(superName, .cls c)] = some v → v.Ok s := by
      intro name v found
      unfold Bindings.get? at found
      split at found
      · cases found
        exact parentOk c rfl
      · cases found
    have found : (s.push scope [(superName, .cls c)]).2.lookup? superName
        (s.frames.size :: scope.chain) = some (.cls c) := by
      apply Store.lookup?_cons_of_some
      rw [Store.frame_push_self]
      rfl
    refine ⟨ok.becomes_push scope valuesOk, bounded.push _, ?_⟩
    intro c' same
    cases same
    exact found

/-- The methods that a checked class declares in the scope made for them. -/
theorem ClassDecl.methodOk {decl : ClassDecl} {parent : Option Class} {inner : Scope}
    (checked : Check.classDecl decl = .ok ()) (regular : decl.Regular) (bounded : inner.Bounded s)
    (derived : ClassKind.ofSuperclass decl.superclass = .derived → ∃ c, parent = some c)
    (super : ∀ c, parent = some c → s.lookup? superName inner.chain = some (.cls c)) :
    ∀ m ∈ decl.methods, ∀ isInitializer, Closure.MethodOk s ⟨m, inner, isInitializer⟩ := by
  intro m mem isInitializer
  obtain ⟨-, -, checked⟩ := Check.classDecl_eq_ok.mp checked
  have inside : ClassKind.ofSuperclass decl.superclass ≠ .none := by
    cases decl.superclass <;> exact ClassKind.noConfusion
  refine ⟨.ofSuperclass decl.superclass, .ofMethod m.name, inside, ?_, ?_, bounded, ?_⟩
  · exact Check.function_of_methods checked m mem
  · exact regular.methods m mem
  · intro isDerived
    obtain ⟨c, same⟩ := derived isDerived
    exact ⟨c, super c same⟩

theorem safe_declareClass {decl : ClassDecl} (ok : s.Ok) (bounded : scope.Bounded s)
    (checked : Check.classDecl decl = .ok ()) (regular : decl.Regular)
    (admits : scope.Admits s decl.name) :
    Safe s (declareClass scope decl) (fun _ _ => True) := by
  have unreserved := (Check.classDecl_eq_ok.mp checked).1
  -- None of the steps before the last binds a name, so the scope still admits that of the class.
  apply safe_bind ((safe_superclassOf ok regular.superclass).keeping (keeps_superclassOf scope _))
  rintro parent s₁ becomes ⟨keeps, parentOk, derived⟩
  have bounded₁ := bounded.grows becomes.grows
  have admits₁ := admits.keeps bounded keeps
  apply safe_bind ((safe_methodScope becomes.ok bounded₁ parentOk).keeping
    (keeps_methodScope scope parent))
  rintro inner s₂ becomes₁ ⟨keeps₁, innerBounded, super⟩
  have admits₂ := admits₁.keeps bounded₁ keeps₁
  have methodsOk := decl.methodOk checked regular innerBounded derived super
  have parentOk₂ : ∀ c, parent = some c → c.Ok s₂ := fun c same =>
    (parentOk c same).grows becomes₁.grows
  have becomes₂ := becomes₁.ok.becomes_freshId
  apply safe_bind (Q := fun _ s' => s' = s₂.freshId.2)
  · exact safe_change becomes₂ rfl
  rintro id s₃ - rfl
  apply safe_define becomes₂.ok unreserved
  · intro body mem m mem'
    rcases List.mem_cons.mp mem with rfl | mem
    · obtain ⟨d, declared, rfl⟩ := List.mem_map.mp mem'
      exact (methodsOk d declared _).grows becomes₂.grows
    · cases parent with
      | none => cases mem
      | some c => exact ((parentOk₂ c rfl) body mem m mem').grows becomes₂.grows
  · exact admits₂

/-! ### Operators -/

/-- A value that is neither a function of the language nor a class or an instance. -/
def Value.isPlain : Value → Bool
  | .nil | .bool _ | .number _ | .string _ | .native _ => true
  | .function _ _ | .cls _ | .object _ => false

theorem Value.Ok.of_isPlain {v : Value} (h : v.isPlain = true) : v.Ok s := by
  cases v with
  | function id f => cases h
  | cls c => cases h
  | object o => cases h
  | _ => trivial

/-- An operation that gives a plain value, or an error that is not ruled out. -/
def Plain : Except RuntimeError Value → Prop
  | .ok v => v.isPlain = true
  | .error e => ¬ e.RuledOut

theorem safe_ofExcept_plain {r : Except RuntimeError Value} (ok : s.Ok) (plain : Plain r) :
    Safe s (ofExcept r) (fun v s' => v.Ok s') := by
  cases r with
  | ok v => exact safe_succeed ok (.of_isPlain plain)
  | error e => exact safe_fail ok plain

theorem plain_onNumbers {f : Float → Float → Value} (h : ∀ a b, (f a b).isPlain = true)
    (l r : Value) : Plain (Value.onNumbers f l r) := by
  unfold Value.onNumbers
  split
  · exact h _ _
  · rintro ⟨⟩

theorem plain_add (l r : Value) : Plain (Value.add l r) := by
  unfold Value.add
  split
  · rfl
  · rfl
  · rintro ⟨⟩

theorem plain_div (l r : Value) : Plain (Value.div l r) := by
  unfold Value.div
  split
  · split
    · exact fun h => h
    · rfl
  · rintro ⟨⟩

theorem plain_neg (v : Value) : Plain (Value.neg v) := by
  unfold Value.neg
  split
  · rfl
  · rintro ⟨⟩

theorem plain_unary (op : UnaryOp) (v : Value) : Plain (op.apply v) := by
  cases op with
  | not => rfl
  | minus => exact plain_neg v

theorem plain_binary (op : BinaryOp) (l r : Value) : Plain (op.apply l r) := by
  cases op with
  | equal => rfl
  | notEqual => rfl
  | add => exact plain_add l r
  | div => exact plain_div l r
  | _ => exact plain_onNumbers (fun _ _ => rfl) l r

theorem plain_builtin (time : Float) (b : Builtin) (args : List Value) :
    Plain (b.apply time args) := by
  unfold Builtin.apply
  split
  · rfl
  · rfl
  · rfl
  · rintro ⟨⟩

/-! ### Calls -/

theorem safe_checkArity {name : String} {arity : Arity} {args : List Value} (ok : s.Ok) :
    Safe s (checkArity name arity args) (fun _ s' => s' = s) :=
  safe_ite (safe_succeed ok rfl) (safe_fail ok fun h => h)

theorem safe_callBuiltin {host : Host} {b : Builtin} {args : List Value} (ok : s.Ok) :
    Safe s (callBuiltin host b args) (fun v s' => v.Ok s') := by
  apply safe_bind (Q := fun _ _ => True)
  · exact ⟨ok.becomes_of_eq rfl rfl, trivial⟩
  · intro moment s' becomes _
    exact safe_ofExcept_plain becomes.ok (plain_builtin _ b args)

/-- The function that a value is, if it is one of the language. -/
def Value.closures : Value → List Closure
  | .function _ f => [f]
  | _ => []

/-- The class declarations that a class, or an instance of it, consists of. -/
def Value.bodies : Value → List ClassBody
  | .cls c => c.lineage
  | .object o => o.cls.lineage
  | _ => []

/-- A value whose functions and classes are those of the arguments: it may be plain, one of the
arguments, the class of an instance among them, a superclass of a class. -/
structure Value.DrawnFrom (args : List Value) (v : Value) : Prop where
  closures : ∀ f ∈ v.closures, ∃ a ∈ args, f ∈ a.closures
  bodies : ∀ body ∈ v.bodies, ∃ a ∈ args, body ∈ a.bodies

/-- A host whose functions raise no error that is ruled out, and make no functions and classes. -/
structure Host.Harmless (host : Host) : Prop where
  error : ∀ index args e, host.supplied index args = .error e → ¬ e.RuledOut
  value : ∀ index args v, host.supplied index args = .ok v → v.DrawnFrom args

theorem Value.ok_iff {v : Value} :
    v.Ok s ↔ (∀ f ∈ v.closures, f.Ok s) ∧ ∀ body ∈ v.bodies, ∀ m ∈ body.methods, m.MethodOk s := by
  cases v <;> simp [Value.Ok, closures, bodies, Class.Ok]

theorem Value.DrawnFrom.ok {v : Value} {args : List Value} (h : v.DrawnFrom args)
    (argsOk : ∀ a ∈ args, a.Ok s) : v.Ok s := by
  rw [Value.ok_iff]
  constructor
  · intro f mem
    obtain ⟨a, inside, mem⟩ := h.closures f mem
    exact (Value.ok_iff.mp (argsOk a inside)).1 f mem
  · intro body mem
    obtain ⟨a, inside, mem⟩ := h.bodies body mem
    exact (Value.ok_iff.mp (argsOk a inside)).2 body mem

theorem safe_supplied {host : Host} {index : Nat} {args : List Value} (harmless : host.Harmless)
    (ok : s.Ok) (argsOk : ∀ a ∈ args, a.Ok s) :
    Safe s (ofExcept (host.supplied index args)) (fun v s' => v.Ok s') := by
  apply safe_ofExcept ok
  · intro v given
    exact (harmless.value index args v given).ok argsOk
  · exact harmless.error index args

/-! ### Output -/

theorem safe_printLine {text : String} (ok : s.Ok) :
    Safe s (printLine text) (fun _ _ => True) := by
  have becomes : s.Becomes (s.write (text ++ "\n")) := ok.becomes_of_eq rfl rfl
  unfold Safe Ensures printLine
  dsimp only
  by_cases fits : s.output.fits (text ++ "\n") = true
  · rw [if_pos fits]
    exact ⟨becomes, trivial⟩
  · rw [if_neg fits]
    exact ⟨becomes, fun h => h⟩

end Lox
