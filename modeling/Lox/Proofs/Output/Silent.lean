import Lox.Eval
import Lox.Proofs.Eval.Ensures

/-!
Computations that print nothing.

An operation that does not print does the same whatever has been written and whatever room there is
(`Silent`). Only `printLine` reads or changes the output.
-/

namespace Lox

/-! ### Stores that differ in their output -/

/-- The store with another output. -/
def Store.withOutput (s : Store) (o : Output) : Store := { s with output := o }

/-- The end of a computation, with another output in the store. -/
def Outcome.withOutput {α : Type} (r : Outcome RuntimeError Store α) (o : Output) :
    Outcome RuntimeError Store α :=
  match r with
  | .ok a s => .ok a (s.withOutput o)
  | .error e s => .error e (s.withOutput o)
  | .outOfFuel => .outOfFuel

/-- The store with a limit on its output. -/
def Store.limited (limit : Nat) (s : Store) : Store :=
  s.withOutput ⟨s.output.bytes, some limit⟩

/-- The end of a computation, with a limit on the output of the store. -/
def Outcome.limited {α : Type} (limit : Nat) (r : Outcome RuntimeError Store α) :
    Outcome RuntimeError Store α :=
  match r with
  | .ok a s => .ok a (s.limited limit)
  | .error e s => .error e (s.limited limit)
  | .outOfFuel => .outOfFuel

namespace Run

/-- The computation does the same whatever the output is, and leaves it alone. -/
def Silent {α : Type} (x : Run α) : Prop := ∀ s o, x (s.withOutput o) = (x s).withOutput o

section

variable {α β : Type} {x : Run α} {f : α → Run β}

theorem silent_succeed (a : α) : Silent (succeed a) := fun _ _ => rfl

theorem silent_fail (e : RuntimeError) : Silent (fail e : Run α) := fun _ _ => rfl

theorem silent_exhausted : Silent (exhausted : Run α) := fun _ _ => rfl

theorem silent_ofExcept (r : Except RuntimeError α) : Silent (ofExcept r) := by
  cases r with
  | ok a => exact silent_succeed a
  | error e => exact silent_fail e

theorem silent_bind (first : Silent x) (next : ∀ a, Silent (f a)) : Silent (x >>= f) := by
  intro s o
  change andThen x f (s.withOutput o) = (andThen x f s).withOutput o
  unfold andThen
  rw [first s o]
  cases x s with
  | ok a s' => exact next a s' o
  | error e s' => rfl
  | outOfFuel => rfl

theorem silent_read {g : Store → α} (h : ∀ s o, g (s.withOutput o) = g s) : Silent (read g) := by
  intro s o
  unfold read
  rw [h]
  rfl

theorem silent_change {g : Store → α × Store}
    (h : ∀ s o, g (s.withOutput o) = ((g s).1, (g s).2.withOutput o)) : Silent (change g) := by
  intro s o
  unfold change
  rw [h]
  rfl

theorem silent_ite {C : Prop} [Decidable C] {y : Run α} (yes : Silent x) (no : Silent y) :
    Silent (if C then x else y) := by
  split
  · exact yes
  · exact no

/-- A silent computation leaves the output as it is. -/
theorem Silent.ensures (h : Silent x) (s : Store) :
    Ensures s x (fun _ s' => s'.output = s.output) (fun _ s' => s'.output = s.output) := by
  have same : x s = (x s).withOutput s.output := h s s.output
  unfold Ensures
  rw [same]
  cases x s <;> first | rfl | trivial

end

/-! ### The operations -/

theorem silent_get (scope : Scope) (name : Name) : Silent (get scope name) := by
  intro s o
  have lookup : ∀ chain, (s.withOutput o).lookup? name chain = s.lookup? name chain := by
    intro chain
    induction chain with
    | nil => rfl
    | cons f rest ih =>
      unfold Store.lookup?
      rw [ih]
      rfl
  unfold get Store.get
  rw [lookup]
  cases s.lookup? name scope.chain <;> rfl

theorem silent_assign (scope : Scope) (name : Name) (value : Value) :
    Silent (assign scope name value) := by
  intro s o
  have binder : (s.withOutput o).binder? name scope.chain = s.binder? name scope.chain := rfl
  unfold assign Store.assign
  rw [binder]
  cases s.binder? name scope.chain <;> rfl

theorem silent_define (scope : Scope) (name : Name) (value : Value) :
    Silent (define scope name value) := by
  intro s o
  have frame : (s.withOutput o).frame scope.frame = s.frame scope.frame := rfl
  unfold define Store.define
  rw [frame]
  split <;> rfl

theorem silent_push (scope : Scope) (bindings : Bindings) : Silent (push scope bindings) :=
  silent_change fun _ _ => rfl

theorem silent_newFunction (f : Closure) : Silent (newFunction f) :=
  silent_bind (silent_change fun _ _ => rfl) fun _ => silent_succeed _

theorem silent_bindMethod (method : Closure) (o : Object) : Silent (bindMethod method o) :=
  silent_bind (silent_push _ _) fun _ => silent_succeed _

/-- A method bound to an instance, as a function. -/
theorem silent_boundMethod (method : Closure) (o : Object) :
    Silent (do
      let bound ← bindMethod method o
      newFunction bound) :=
  silent_bind (silent_bindMethod method o) fun _ => silent_newFunction _

theorem silent_getProperty (value : Value) (name : Name) : Silent (getProperty value name) := by
  unfold getProperty
  cases value with
  | object o =>
    apply silent_bind (silent_read fun _ _ => rfl)
    intro field
    cases field with
    | some v => exact silent_succeed v
    | none =>
      cases o.cls.method? name with
      | some method => exact silent_boundMethod method o
      | none => exact silent_fail _
  | _ => exact silent_fail _

theorem silent_setProperty (owner : Value) (name : Name) (value : Value) :
    Silent (setProperty owner name value) := by
  unfold setProperty
  cases owner with
  | object o => exact silent_change fun _ _ => rfl
  | _ => exact silent_fail _

theorem silent_getSuperMethod (scope : Scope) (name : Name) :
    Silent (getSuperMethod scope name) := by
  unfold getSuperMethod
  apply silent_bind (silent_get _ _)
  intro parent
  apply silent_bind (silent_get _ _)
  intro this
  split
  · rename_i c o
    cases c.method? name with
    | some method => exact silent_boundMethod method o
    | none => exact silent_fail _
  · exact silent_fail _

theorem silent_superclassOf (scope : Scope) (name : Option Name) :
    Silent (superclassOf scope name) := by
  cases name with
  | none => exact silent_succeed _
  | some name =>
    apply silent_bind (silent_get _ _)
    intro v
    cases v with
    | cls c => exact silent_succeed _
    | _ => exact silent_fail _

theorem silent_methodScope (scope : Scope) (parent : Option Class) :
    Silent (methodScope scope parent) := by
  cases parent with
  | none => exact silent_succeed _
  | some c => exact silent_push _ _

theorem silent_declareClass (scope : Scope) (decl : ClassDecl) :
    Silent (declareClass scope decl) := by
  unfold declareClass
  apply silent_bind (silent_superclassOf _ _)
  intro parent
  apply silent_bind (silent_methodScope _ _)
  intro inner
  apply silent_bind (silent_change fun _ _ => rfl)
  intro id
  exact silent_define _ _ _

theorem silent_checkArity (name : String) (arity : Arity) (args : List Value) :
    Silent (checkArity name arity args) :=
  silent_ite (silent_succeed _) (silent_fail _)

theorem silent_callBuiltin (host : Host) (b : Builtin) (args : List Value) :
    Silent (callBuiltin host b args) :=
  silent_bind (silent_change fun _ _ => rfl) fun _ => silent_ofExcept _

end Run

end Lox
