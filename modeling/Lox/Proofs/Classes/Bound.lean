import Lox.Proofs.Classes.Session

/-!
Bound methods, and the calls of functions.

A method that is bound to an instance has a frame of its own, which holds the instance as `this`
(`Closure.BoundTo`). As no frame changes what it says about `this`, whoever calls the function, and
whenever: in the frame of each call `this` is that instance (`Setting.Orderly.this_in_call`).
-/

namespace Lox

open Check (FunctionKind)
open Run

/-! ### Binding a method -/

/-- The function is the method with the instance as `this`, in a frame that holds nothing else. -/
structure Closure.BoundTo (m : Closure) (o : Object) (s : Store) (f : Closure) : Prop where
  decl : f.decl = m.decl
  isInitializer : f.isInitializer = m.isInitializer
  scope : ∃ frame, f.scope.chain = frame :: m.scope.chain ∧ s.frame frame = [(thisName, .object o)]

/-- The outcome is that of asking the class for a method on behalf of an instance: the nearest
definition, bound to the instance, or the error that the class has none. -/
def Class.Answers (c : Class) (name : Name) (o : Object) (s : Store)
    (outcome : Outcome RuntimeError Store Value) : Prop :=
  (∃ d m id f t, c.Nearest name d m ∧ m.BoundTo o t f ∧ outcome = .ok (.function id f) t) ∨
    ((∀ body ∈ c.lineage, body.Lacks name) ∧ outcome = .error (.undefinedProperty c.name name) s)

theorem Class.answers (c : Class) (name : Name) (o : Object) (s : Store) :
    c.Answers name o s (match c.method? name with
      | some m => (bindMethod m o >>= newFunction) s
      | none => .error (.undefinedProperty c.name name) s) := by
  cases found : c.method? name with
  | none => exact .inr ⟨Class.method?_eq_none.mp found, rfl⟩
  | some m =>
    obtain ⟨d, nearest⟩ := Class.method?_eq_some.mp found
    refine .inl ⟨d, m, s.nextId, { m with scope := ⟨s.frames.size, m.scope.chain⟩ },
      (s.push m.scope [(thisName, .object o)]).2.freshId.2, nearest, ⟨rfl, rfl, ?_⟩, rfl⟩
    exact ⟨s.frames.size, rfl, s.frame_push_self m.scope _⟩

theorem Closure.BoundTo.this {m : Closure} {o : Object} {s : Store} {f : Closure}
    (h : m.BoundTo o s f) : s.lookup? thisName f.scope.chain = some (.object o) := by
  obtain ⟨frame, chain, holds⟩ := h.scope
  rw [chain]
  apply Store.lookup?_cons_of_some
  rw [holds]
  rfl

/-! ### Properties -/

section

variable {o : Object} {s : Store} {name : Name}

theorem getProperty_field {v : Value} (found : (s.fieldsOf o).get? name = some v) :
    getProperty (.object o) name s = .ok v s := by
  have read : read (fun s => (s.fieldsOf o).get? name) s = .ok (some v) s :=
    congrArg (Outcome.ok · s) found
  exact bind_of_ok read

/-- What is not a field of an instance is asked of its class. -/
theorem answers_getProperty (absent : (s.fieldsOf o).get? name = none) :
    o.cls.Answers name o s (getProperty (.object o) name s) := by
  have result : getProperty (.object o) name s = match o.cls.method? name with
      | some m => (bindMethod m o >>= newFunction) s
      | none => .error (.undefinedProperty o.cls.name name) s := by
    have read : read (fun s => (s.fieldsOf o).get? name) s = .ok none s :=
      congrArg (Outcome.ok · s) absent
    refine (bind_of_ok read).trans ?_
    dsimp only
    cases o.cls.method? name <;> rfl
  rw [result]
  exact o.cls.answers name o s

theorem evalExpr_get {host : Host} {fuel : Nat} {scope : Scope} {e : Expr} {s' : Store}
    (owner : evalExpr host fuel scope e s = .ok (.object o) s') (name : Name) :
    evalExpr host (fuel + 1) scope (.get e name) s = getProperty (.object o) name s' := by
  rw [evalExpr]
  exact bind_of_ok owner

end

/-- Whether the work is to take a method from an instance as a property, and succeeds. -/
def Work.takesMethod (host : Host) (name : Name) : Work → Store → Bool
  | .expr (fuel + 1) scope (.get e property), s =>
    match evalExpr host fuel scope e s, evalExpr host (fuel + 1) scope (.get e property) s with
    | .ok (.object o) s', .ok _ _ => property = name && ((s'.fieldsOf o).get? property).isNone
    | _, _ => false
  | _, _ => false

theorem Work.eq_of_takesMethod {host : Host} {name : Name} {w : Work} {s : Store}
    (h : w.takesMethod host name s = true) : ∃ fuel scope e o s' v t,
      w = .expr (fuel + 1) scope (.get e name) ∧ evalExpr host fuel scope e s = .ok (.object o) s' ∧
      (s'.fieldsOf o).get? name = none ∧
      evalExpr host (fuel + 1) scope (.get e name) s = .ok v t := by
  unfold takesMethod at h
  split at h
  · split at h
    · rename_i owner taken
      obtain ⟨named, absent⟩ := Bool.and_eq_true_iff.mp h
      obtain rfl := of_decide_eq_true named
      exact ⟨_, _, _, _, _, _, _, rfl, owner, Option.isNone_iff_eq_none.mp absent, taken⟩
    · cases h
  · cases h

/-- Whether the work is to call a method of an instance, and succeeds. -/
def Work.callsMethod (host : Host) (name : Name) : Work → Store → Bool
  | .expr (fuel + 2) scope (.call callee args), s =>
    match evalExpr host (fuel + 2) scope (.call callee args) s with
    | .ok _ _ => (Work.expr (fuel + 1) scope callee).takesMethod host name s
    | _ => false
  | _, _ => false

theorem Work.eq_of_callsMethod {host : Host} {name : Name} {w : Work} {s : Store}
    (h : w.callsMethod host name s = true) : ∃ fuel scope e args o c vs v s₁ s₂ s₃ t,
      w = .expr (fuel + 2) scope (.call (.get e name) args) ∧
      evalExpr host fuel scope e s = .ok (.object o) s₁ ∧ (s₁.fieldsOf o).get? name = none ∧
      evalExpr host (fuel + 1) scope (.get e name) s = .ok c s₂ ∧
      Run.values (evalExpr host (fuel + 1) scope) args s₂ = .ok vs s₃ ∧
      Lox.call host (fuel + 1) c vs s₃ = .ok v t := by
  unfold callsMethod at h
  split at h
  · split at h
    · rename_i result
      obtain ⟨_, _, e, o, s₁, _, _, same, owner, absent, -⟩ := eq_of_takesMethod h
      cases same
      rw [evalExpr] at result
      obtain ⟨c, s₂, taken, result⟩ := bind_eq_ok.mp result
      obtain ⟨vs, s₃, given, result⟩ := bind_eq_ok.mp result
      exact ⟨_, _, e, _, o, c, vs, _, s₁, s₂, s₃, _, rfl, owner, absent, taken, given, result⟩
    · cases h
  · cases h

/-- A method is asked of the class that `super` is, for the instance that `this` is. -/
theorem answers_super {c : Class} {o : Object} {s : Store} {scope : Scope}
    (super : s.lookup? superName scope.chain = some (.cls c))
    (this : s.lookup? thisName scope.chain = some (.object o)) (host : Host) (fuel : Nat)
    (name : Name) : c.Answers name o s (evalExpr host (fuel + 1) scope (.super name) s) := by
  have result : evalExpr host (fuel + 1) scope (.super name) s = getSuperMethod scope name s := by
    rw [evalExpr]
  rw [result, getSuperMethod_eq super this]
  exact c.answers name o s

/-! ### Calls -/

theorem checkArity_eq (name : String) (arity : Arity) (args : List Value) (s : Store) :
    checkArity name arity args s = if arity.accepts args.length then .ok () s
      else .error (.arity name arity args.length) s := by
  unfold checkArity
  split <;> rfl

/-- A call of a function that gives something has run the body on as many arguments as there are
parameters. -/
theorem call_function_eq_ok {host : Host} {fuel id : Nat} {f : Closure} {args : List Value}
    {s t : Store} {v : Value} :
    Lox.call host (fuel + 1) (.function id f) args s = .ok v t ↔
      checkArity f.decl.name f.arity args s = .ok () s ∧
        callClosure host fuel f args s = .ok v t := by
  rw [Lox.call, bind_eq_ok, checkArity_eq]
  split
  · constructor
    · rintro ⟨_, _, ⟨⟩, result⟩
      exact ⟨rfl, result⟩
    · rintro ⟨-, result⟩
      exact ⟨(), s, rfl, result⟩
  · simp

/-- The frame of a call: inside the scope of the function, with the parameters. -/
def Closure.frameOf (f : Closure) (args : List Value) (s : Store) : Scope × Store :=
  s.push f.scope (.ofList (f.decl.params.zip args))

/-- The body of a function runs in the frame of the call, and nothing else is begun by the call. -/
theorem Closure.begins_iff {host : Host} {fuel : Nat} {f : Closure} {args : List Value}
    {s s' : Store} {w : Work} :
    ((Work.closure (fuel + 1) f args).plan host).Begins host s w s' ↔
      w = .block fuel (f.frameOf args s).1 f.decl.body ∧ s' = (f.frameOf args s).2 := by
  constructor
  · intro begins
    cases begins with
    | act result begins =>
      cases result
      cases begins with
      | now => exact ⟨rfl, rfl⟩
      | @later _ _ _ flow _ _ _ _ begins =>
        dsimp only at begins
        split at begins
        · cases begins with
          | act _ begins => cases begins
        · cases flow <;> cases begins
  · rintro ⟨rfl, rfl⟩
    exact .act rfl .now

/-! ### The stores of a course -/

namespace Setting

variable {k : Setting}

/-- The moment at which the body of a function begins to run. -/
theorem moments_body {fuel : Nat} {f : Closure} {args : List Value} {s : Store}
    (moment : k.moments (.closure (fuel + 1) f args) s) :
    k.moments (.block fuel (f.frameOf args s).1 f.decl.body) (f.frameOf args s).2 :=
  k.closed moment (Closure.begins_iff.mpr ⟨rfl, rfl⟩)

theorem occurs_body {fuel : Nat} {f : Closure} {args : List Value} {s : Store}
    (moment : k.moments (.closure (fuel + 1) f args) s) :
    (f.frameOf args s).2.Occurs k.host k.moments :=
  Store.occurs_begin (k.moments_body moment)

end Setting

/-- The value is there when the store is reached: in a variable or a field, or as what an expression
gave before. -/
inductive Value.AtHand (host : Host) (moments : Work → Store → Prop) (s : Store) : Value → Prop where
  | stored {c name v} : (s.contents c).get? name = some v → AtHand host moments s v
  | given {fuel scope e s' v t} : moments (.expr fuel scope e) s' →
      evalExpr host fuel scope e s' = .ok v t → t.Later s → AtHand host moments s v

theorem Setting.Orderly.sound_of_atHand {k : Setting} (h : k.Orderly) {s : Store}
    (occurs : s.Occurs k.host k.moments) {v : Value} (atHand : v.AtHand k.host k.moments s) :
    v.Sound k s := by
  cases atHand with
  | stored found => exact h.sound_of_occurs occurs _ _ _ found
  | given moment result later =>
    exact Value.Sound.later (h.gives (w := .expr _ _ _) moment result).1 later

theorem Closure.Sound.params {k : Setting} {s : Store} {f : Closure} (h : f.Sound k s) :
    Check.params [] f.decl.params = .ok () := by
  obtain ⟨_, _, _, -, -, -, checked, -⟩ := h
  exact (Check.function_eq_ok.mp checked).2.1

theorem Closure.Sound.bounded {k : Setting} {s : Store} {f : Closure} (h : f.Sound k s) :
    f.scope.Bounded s := by
  obtain ⟨_, _, _, placed, -⟩ := h
  exact placed.bounded

/-- Where a `super` is evaluated, the code runs in a method of a class with a superclass. -/
theorem Setting.Orderly.inside_super {k : Setting} (h : k.Orderly) {fuel : Nat} {scope : Scope}
    {name : Name} {s : Store} (moment : k.moments (.expr (fuel + 1) scope (.super name)) s) :
    ∃ i : Inside, i.Holds k s scope ∧ i.decl.superclass.isSome = true ∧
      Part.InMethod i.decl i.method.decl (.expr (.super name)) := by
  obtain ⟨around, placed, checked, -⟩ : (Expr.super name).Placed k s scope := h.requires moment
  rw [Check.expr, Check.super_eq_ok] at checked
  obtain ⟨i, rfl, derived⟩ := Inside.exists_of_derived checked
  exact ⟨i, placed.holds i rfl, derived, placed.inside i rfl⟩

namespace Setting.Orderly

variable {k : Setting} (h : k.Orderly) {m f : Closure} {o : Object} {t : Store}
variable (occurs : t.Occurs k.host k.moments) (bounded : f.scope.Bounded t) (bound : m.BoundTo o t f)
include h occurs bounded bound

/-- Wherever the scope of a bound method exists, `this` is the instance in it. -/
theorem this_eq {s : Store} (occurs' : s.Occurs k.host k.moments) (bounded' : f.scope.Bounded s) :
    s.lookup? thisName f.scope.chain = some (.object o) :=
  (h.lookup?_eq occurs occurs' bounded bounded' isReserved_thisName).trans bound.this

/-- In the frame of each call of a bound method, `this` is the instance, at all times. -/
theorem this_in_call {fuel : Nat} {args : List Value} {s s' : Store}
    (moment : k.moments (.closure (fuel + 1) f args) s) (occurs' : s'.Occurs k.host k.moments)
    (exists' : (f.frameOf args s).1.Bounded s') :
    s'.lookup? thisName (f.frameOf args s).1.chain = some (.object o) := by
  have sound : f.Sound k s := (h.requires moment).1
  have later : s.Later (f.frameOf args s).2 := .push s f.scope _
  have begins := k.occurs_body moment
  have inside : (f.frameOf args s).1.Bounded (f.frameOf args s).2 := sound.bounded.push _
  rw [h.lookup?_eq begins occurs' inside exists' isReserved_thisName]
  -- The parameters cannot hide `this`, which is a reserved word.
  have unbound : ((f.frameOf args s).2.frame s.frames.size).get? thisName = none := by
    rw [Closure.frameOf, Store.frame_push_self]
    exact Bindings.get?_eq_none (Check.not_contains_params sound.params args _ isReserved_thisName)
  exact (Store.lookup?_cons_of_none unbound).trans
    (h.this_eq occurs bounded bound begins (sound.bounded.grows later.grows))

end Setting.Orderly

end Lox
