import Lox.Proofs.Classes.Bound

/-!
Making instances.

A call of a class that succeeds gives a new instance of that class, whatever initializer there is and
however it ends. An initializer that is taken from an instance and called gives that instance, each
time. What the body of an initializer completes with is dropped; it is never anything but `nil`. The
main statement, `instances_made`, is about every moment of a session.
-/

namespace Lox

open Run

/-! ### Calls of classes -/

/-- A call of a class that succeeds gives the next instance. -/
theorem eq_of_call_class {host : Host} {fuel : Nat} {c : Class} {args : List Value} {s t : Store}
    {v : Value} (result : Lox.call host (fuel + 1) (.cls c) args s = .ok v t) :
    (c.arity initializerName).accepts args.length = true ∧ v = .object ⟨c, s.fields.size⟩ := by
  rw [Value.run_eq_plan] at result
  obtain ⟨_, s₁, checked, result⟩ := bind_eq_ok.mp result
  obtain ⟨o, s₂, made, result⟩ := bind_eq_ok.mp result
  rw [checkArity_eq] at checked
  split at checked
  case isFalse => cases checked
  rename_i accepted
  cases checked
  cases made
  refine ⟨accepted, ?_⟩
  cases found : c.method? initializerName with
  | none =>
    simp only [found] at result
    cases result
    rfl
  | some m =>
    simp only [found] at result
    obtain ⟨f, s₃, -, result⟩ := bind_eq_ok.mp result
    obtain ⟨_, s₄, -, result⟩ := bind_eq_ok.mp result
    cases result
    rfl

/-- An instance that a store does not have is not equal to a sound value. -/
theorem Value.Sound.not_equals {k : Setting} {s : Store} {v : Value} (h : v.Sound k s) {o : Object}
    (fresh : s.fields.size ≤ o.address) : (Value.object o).equals v = false := by
  cases v with
  | object p =>
    have there : p.address < s.fields.size := Object.Sound.address h
    exact beq_eq_false_iff_ne.mpr (by omega)
  | _ => rfl

/-! ### Initializers -/

/-- Evaluating the expression takes a method from the instance: as a property that is not a field, or
by `super` in a method of the instance. -/
inductive Expr.Takes (host : Host) (fuel : Nat) (scope : Scope) (s : Store) (name : Name)
    (o : Object) : Expr → Prop where
  | property {e s'} : evalExpr host fuel scope e s = .ok (.object o) s' →
      (s'.fieldsOf o).get? name = none → Takes host fuel scope s name o (.get e name)
  | super : s.lookup? thisName scope.chain = some (.object o) →
      Takes host fuel scope s name o (.super name)

/-- The methods of a sound class are flagged as initializers if they have the name of one. -/
theorem Class.Sound.isInitializer {k : Setting} {s : Store} {c d : Class} (h : c.Sound k s)
    {name : Name} {m : Closure} (nearest : c.Nearest name d m) :
    m.isInitializer = decide (name = initializerName) := by
  obtain ⟨decl, settled⟩ := h d nearest.suffix
  rw [(settled.of_mem nearest.mem).2.1, nearest.defines.1]

namespace Setting.Orderly

variable {k : Setting} (h : k.Orderly)
include h

/-- A method that is taken from an instance is bound to it. -/
theorem eq_of_takes {fuel : Nat} {scope : Scope} {s t : Store} {name : Name} {o : Object} {e : Expr}
    {v : Value} (moment : k.moments (.expr (fuel + 1) scope e) s)
    (takes : e.Takes k.host fuel scope s name o)
    (result : evalExpr k.host (fuel + 1) scope e s = .ok v t) :
    ∃ id f, ∃ m : Closure, v = .function id f ∧ m.BoundTo o t f ∧
      f.isInitializer = decide (name = initializerName) := by
  have found : ∃ (c : Class) (s' : Store), c.lineage <:+ o.cls.lineage ∧ o.Sound k s' ∧
      c.Answers name o s' (evalExpr k.host (fuel + 1) scope e s) := by
    cases takes with
    | @property owner s' evaluated absent =>
      have begun : k.moments (.expr fuel scope owner) s := k.closed moment .now
      refine ⟨o.cls, s', List.suffix_refl _, (h.gives (w := .expr _ _ _) begun evaluated).1, ?_⟩
      rw [evalExpr_get evaluated]
      exact answers_getProperty absent
    | super this =>
      obtain ⟨i, holds, derived, -⟩ := h.inside_super moment
      obtain ⟨parent, -, super, this', ancestor⟩ := holds.super derived
      cases this.symm.trans this'
      exact ⟨parent, s, ancestor.trans (List.suffix_cons _ _), holds.object,
        answers_super super this k.host fuel name⟩
  obtain ⟨c, s', above, object, ⟨d, m, id, f, t', nearest, bound, outcome⟩ | ⟨-, outcome⟩⟩ := found
  · cases outcome.symm.trans result
    exact ⟨id, f, m, rfl, bound, bound.isInitializer.trans ((object.cls.suffix above).isInitializer nearest)⟩
  · cases outcome.symm.trans result

/-- The body of an initializer completes normally, or by a `return` of `nil`. -/
theorem flow_of_initializer {fuel : Nat} {f : Closure} {args : List Value} {s t : Store} {flow : Flow}
    (moment : k.moments (.closure (fuel + 1) f args) s) (flagged : f.isInitializer = true)
    (result : statements (exec k.host fuel (f.frameOf args s).1) f.decl.body (f.frameOf args s).2 =
      .ok flow t) :
    flow = .normal ∨ flow = .return .nil := by
  obtain ⟨around, kind, p, -, -, -, checked, -, initializer⟩ := (h.requires moment).1
  obtain ⟨rfl, -⟩ := initializer flagged
  have each := Check.stmt_of_block (Check.function_eq_ok.mp checked).2.2
  have given := (h.gives (w := .block _ _ _) (k.moments_body moment) result).1
  have allowed : flow.Allowed .initializer := given.2 _ each
  cases flow with
  | normal => exact .inl rfl
  | «return» v => exact .inr (congrArg _ (allowed.2 rfl))

/-- An initializer that is bound to an instance gives the instance. -/
theorem eq_of_initializer {fuel : Nat} {m f : Closure} {o : Object} {args : List Value}
    {s s' t : Store} {v : Value} (occurs : t.Occurs k.host k.moments) (bounded : f.scope.Bounded t)
    (bound : m.BoundTo o t f) (flagged : f.isInitializer = true)
    (moment : k.moments (.closure (fuel + 1) f args) s)
    (result : callClosure k.host (fuel + 1) f args s = .ok v s') : v = .object o := by
  rw [Closure.run_eq_plan] at result
  obtain ⟨frame, s₁, pushed, result⟩ := bind_eq_ok.mp result
  cases pushed
  obtain ⟨flow, s₂, body, result⟩ := bind_eq_ok.mp result
  dsimp only at result
  rw [if_pos flagged] at result
  obtain ⟨this, s₃, found, result⟩ := bind_eq_ok.mp result
  cases result
  have begun := k.moments_body moment
  have later := (h.gives (w := .block _ _ _) begun body).2.2
  have sound : f.Sound k s := (h.requires moment).1
  have inside := (sound.bounded.grows (.push s f.scope _)).grows later.grows
  have same := h.this_eq occurs bounded bound (Store.occurs_end (w := .block _ _ _) begun body) inside
  unfold Run.get Store.get at found
  rw [same] at found
  cases found
  rfl

/-- A call of a class makes an instance that differs from all that was there before. -/
theorem call_class {fuel : Nat} {c : Class} {args : List Value} {s t : Store} {v : Value}
    (moment : k.moments (.call (fuel + 1) (.cls c) args) s)
    (result : Lox.call k.host (fuel + 1) (.cls c) args s = .ok v t) :
    (∃ o, v = .object o ∧ o.cls = c) ∧ (∀ w ∈ args, v.equals w = false) ∧
      ∀ w : Value, w.AtHand k.host k.moments s → v.equals w = false := by
  obtain ⟨-, rfl⟩ := eq_of_call_class result
  -- All instances that are there have lower addresses.
  have fresh : s.fields.size ≤ Object.address ⟨c, s.fields.size⟩ := Nat.le_refl _
  exact ⟨⟨_, rfl, rfl⟩, fun w mem => ((h.requires moment).2 w mem).not_equals fresh,
    fun w atHand => (h.sound_of_atHand (Store.occurs_begin moment) atHand).not_equals fresh⟩

/-- What a call of a class runs, if it runs anything, is an initializer. -/
theorem initializer_of_call_class {fuel : Nat} {c : Class} {args : List Value} {s s' : Store}
    {w : Work} (moment : k.moments (.call (fuel + 1) (.cls c) args) s)
    (begins : ((Work.call (fuel + 1) (.cls c) args).plan k.host).Begins k.host s w s') :
    ∃ f, w = .closure fuel f args ∧ f.isInitializer = true := by
  have sound : c.Sound k s := (h.requires moment).1
  cases begins with
  | act _ begins =>
    cases begins with
    | act _ begins =>
      cases found : c.method? initializerName with
      | none =>
        simp only [found] at begins
        cases begins
      | some m =>
        obtain ⟨d, nearest⟩ := Class.method?_eq_some.mp found
        simp only [found] at begins
        cases begins with
        | act bound begins =>
          cases bound
          cases begins with
          | now => exact ⟨_, rfl, sound.isInitializer nearest⟩
          | later _ begins => cases begins

/-- However often it is called, an initializer that was taken from an instance gives the instance. -/
theorem call_initializer {fuel : Nat} {scope : Scope} {e : Expr} {s t : Store} {o : Object}
    {v : Value} (moment : k.moments (.expr (fuel + 1) scope e) s)
    (takes : e.Takes k.host fuel scope s initializerName o)
    (result : evalExpr k.host (fuel + 1) scope e s = .ok v t) :
    ∃ id f, v = .function id f ∧ f.isInitializer = true ∧
      ∀ {fuel args s v t}, k.moments (.call (fuel + 1) (.function id f) args) s →
        Lox.call k.host (fuel + 1) (.function id f) args s = .ok v t → v = .object o := by
  obtain ⟨id, f, m, rfl, bound, flagged⟩ := h.eq_of_takes moment takes result
  have flagged : f.isInitializer = true := flagged
  have sound : f.Sound k t := (h.gives (w := .expr _ _ _) moment result).1
  have occurs := Store.occurs_end (w := .expr _ _ _) moment result
  refine ⟨id, f, rfl, flagged, fun {fuel args s v t} called returned => ?_⟩
  obtain ⟨checked, returned⟩ := call_function_eq_ok.mp returned
  cases fuel with
  | zero => cases returned
  | succ fuel =>
    have begun := k.closed called (.act checked .now)
    exact h.eq_of_initializer occurs sound.bounded bound flagged begun returned

end Setting.Orderly

/-! ### The result -/

/-- In every session, whatever it is given and however far it gets. A call of a class that succeeds
gives an instance of that class, with as many arguments as the nearest initializer has parameters, and
equal to nothing that was there before. A call of an initializer that was taken from an instance
gives the instance, if it succeeds. The body of an initializer completes normally or with `nil`. -/
theorem instances_made {host : Host} (passes : host.Passes fun _ => True) (limit : Option Nat)
    {globals : List (Name × Value)} (plain : ∀ g ∈ globals, g.2.isPlain = true) {bound : Nat}
    {steps : List Step} {moments : Work → Store → Prop}
    (session : moments = (Script.start (.withGlobals host limit globals)).Visits bound steps) :
    (∀ {fuel c args s v t}, moments (.call (fuel + 1) (.cls c) args) s →
      Lox.call host (fuel + 1) (.cls c) args s = .ok v t →
        (∃ o, v = .object o ∧ o.cls = c) ∧
        (∀ d m, c.Nearest initializerName d m → args.length = m.decl.params.length) ∧
        ((∀ body ∈ c.lineage, body.Lacks initializerName) → args.length = 0) ∧
        (∀ w ∈ args, v.equals w = false) ∧
        (∀ w : Value, w.AtHand host moments s → v.equals w = false) ∧
        ∀ w s', ((Work.call (fuel + 1) (.cls c) args).plan host).Begins host s w s' →
          ∃ f, w = .closure fuel f args ∧ f.isInitializer = true) ∧
    (∀ {fuel scope e s o v t}, moments (.expr (fuel + 1) scope e) s →
      e.Takes host fuel scope s initializerName o →
      evalExpr host (fuel + 1) scope e s = .ok v t →
        ∃ id f, v = .function id f ∧ f.isInitializer = true ∧
          ∀ {fuel args s v t}, moments (.call (fuel + 1) (.function id f) args) s →
            Lox.call host (fuel + 1) (.function id f) args s = .ok v t → v = .object o) ∧
    ∀ {fuel f args s flow t}, moments (.closure (fuel + 1) f args) s → f.isInitializer = true →
      statements (exec host fuel (f.frameOf args s).1) f.decl.body (f.frameOf args s).2 =
        .ok flow t → flow = .normal ∨ flow = .return .nil := by
  subst session
  have h := Session.orderly passes (fun _ => trivial) limit plain (fun _ _ _ _ => trivial) bound steps
  refine ⟨fun moment result => ?_, fun moment takes result => h.call_initializer moment takes result,
    fun moment flagged result => h.flow_of_initializer moment flagged result⟩
  obtain ⟨made, others⟩ := h.call_class moment result
  obtain ⟨some, none⟩ := Class.length_of_accepts (eq_of_call_class result).1
  exact ⟨made, some, none, others.1, others.2,
    fun w s' begins => h.initializer_of_call_class moment begins⟩

/-- Whether the work is to call a class, and makes an instance. -/
def Work.makesInstance (host : Host) : Work → Store → Bool
  | .call (fuel + 1) (.cls c) args, s =>
    match Lox.call host (fuel + 1) (.cls c) args s with
    | .ok _ _ => true
    | _ => false
  | _, _ => false

theorem Work.eq_of_makesInstance {host : Host} {w : Work} {s : Store}
    (h : w.makesInstance host s = true) : ∃ fuel c args v t, w = .call (fuel + 1) (.cls c) args ∧
      Lox.call host (fuel + 1) (.cls c) args s = .ok v t := by
  unfold makesInstance at h
  split at h
  · split at h
    · exact ⟨_, _, _, _, _, rfl, ‹_›⟩
    · cases h
  · cases h

/-- An inherited initializer, which returns early, runs twice on an instance, and gives it the second
time. -/
theorem instances_made_inherited :
    ∃ moments, moments = (Script.start (.withGlobals Host.first none [])).Visits 20
        [.eval "class A { init(x) { return; } } class B < A {} B(nil).init(nil);"] ∧
      (∃ fuel c args s v t, moments (.call (fuel + 1) (.cls c) args) s ∧
        Lox.call Host.first (fuel + 1) (.cls c) args s = .ok v t ∧ (∃ o, v = .object o ∧ o.cls = c) ∧
        ∀ w : Value, w.AtHand Host.first moments s → v.equals w = false) ∧
      ∃ fuel id f args s o t, moments (.call (fuel + 1) (.function id f) args) s ∧
        f.isInitializer = true ∧
        Lox.call Host.first (fuel + 1) (.function id f) args s = .ok (.object o) t := by
  have made : ((Script.start (.withGlobals Host.first none [])).visit? 20
      [.eval "class A { init(x) { return; } } class B < A {} B(nil).init(nil);"] 0
      [1, 1, 0, 0, 0, 2]).any (fun m => m.1.makesInstance Host.first m.2) = true := by
    cbv
  have called : ((Script.start (.withGlobals Host.first none [])).visit? 20
      [.eval "class A { init(x) { return; } } class B < A {} B(nil).init(nil);"] 0
      [1, 1, 0]).any (fun m => m.1.callsMethod Host.first initializerName m.2) = true := by
    cbv
  obtain ⟨w, s, visits, seen⟩ := Script.exists_visits made
  obtain ⟨fuel, c, args, v, t, rfl, result⟩ := Work.eq_of_makesInstance seen
  obtain ⟨w', s', visits', seen'⟩ := Script.exists_visits called
  obtain ⟨fuel', scope, e, args', o, c', vs, v', s₁, s₂, s₃, t', rfl, owner, absent, taken, given,
    returned⟩ := Work.eq_of_callsMethod seen'
  have plain : ∀ g ∈ ([] : List (Name × Value)), g.2.isPlain = true :=
    List.forall_mem_nil _
  obtain ⟨classes, initializers, -⟩ := instances_made (Host.passes_first _) none plain rfl
  obtain ⟨own, -, -, -, fresh, -⟩ := classes visits result
  have begun := visits'.closed .now
  obtain ⟨id, f, rfl, flagged, calls⟩ := initializers begun (.property owner absent) taken
  have call := visits'.closed (.later taken (.later given .now))
  obtain rfl := calls call returned
  exact ⟨_, rfl, ⟨fuel, c, args, s, v, t, visits, result, own, fresh⟩,
    fuel', id, f, vs, s₃, o, t', call, flagged, returned⟩

end Lox
