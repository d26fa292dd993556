import Lox.Proofs.Classes.Bound

/-!
Properties of instances.

A property is a field of the instance if it has one of the name, or else the method of the nearest
class, from that of the instance upwards, whose declaration defines the name. What a class is and
defines was settled when it was made, so two looks at one class agree whatever has happened in
between. Writing a field changes this field and nothing else. The main statement,
`properties_resolved`, is about every moment of a session.
-/

namespace Lox

open Run

/-! ### Writing fields -/

theorem evalExpr_set {host : Host} {fuel : Nat} {scope : Scope} {owner value : Expr} {s s₁ s₂ : Store}
    {o : Object} {v : Value} (evaluated : evalExpr host fuel scope owner s = .ok (.object o) s₁)
    (given : evalExpr host fuel scope value s₁ = .ok v s₂) (name : Name) :
    evalExpr host (fuel + 1) scope (.set owner name value) s = .ok v (s₂.setField o name v) := by
  rw [evalExpr]
  exact (bind_of_ok evaluated).trans (bind_of_ok given)

/-- The later store differs in the field of the instance only, which has the value. -/
structure Store.SetsField (s : Store) (o : Object) (name : Name) (v : Value) (s' : Store) : Prop where
  written : (s'.fieldsOf o).get? name = some v
  fields : ∀ other, other ≠ name → (s'.fieldsOf o).get? other = (s.fieldsOf o).get? other
  instances : ∀ p : Object, p.address ≠ o.address → s'.fieldsOf p = s.fieldsOf p
  rest : s' = { s with fields := s'.fields }
  size : s'.fields.size = s.fields.size

theorem Store.setsField_setField {s : Store} {o : Object} (there : o.address < s.fields.size)
    (name : Name) (v : Value) : s.SetsField o name v (s.setField o name v) := by
  have here : (s.setField o name v).fieldsOf o = (s.fieldsOf o).insert name v := by
    rw [fieldsOf_setField, if_pos ⟨rfl, there⟩]
  refine ⟨?_, fun other ne => ?_, fun p ne => fieldsOf_setField_of_ne ne s name v, rfl,
    Array.size_modify ..⟩
  · rw [here, Bindings.get?_insert_self]
  · rw [here, Bindings.get?_insert_of_ne ne]

/-! ### Classes and their declarations -/

/-- A run of the declaration made the class: it has the methods that the declaration lists. -/
def Class.Declares (moments : Work → Store → Prop) (decl : ClassDecl) (c : Class) : Prop :=
  c.name = decl.name ∧ c.body.methods.map Closure.decl = decl.methods ∧
    ∃ fuel scope before after, moments (.exec (fuel + 1) scope (.classDecl decl)) before ∧
      c.MadeBy scope decl before after

theorem Class.Sound.declares {k : Setting} {s : Store} {c d : Class} (h : c.Sound k s)
    (above : d.lineage <:+ c.lineage) : ∃ decl, d.Declares k.moments decl := by
  obtain ⟨decl, settled⟩ := h d above
  obtain ⟨fuel, scope, before, after, moment, made, -⟩ := settled.made
  exact ⟨decl, made.name, made.methods_eq, fuel, scope, before, after, moment, made⟩

namespace Setting.Orderly

variable {k : Setting} (h : k.Orderly)
include h

/-- A method that is taken as a property has the instance as `this` in each of its calls, when the body
starts and for as long as the frame of the call is there. -/
theorem this_of_property {fuel : Nat} {scope : Scope} {e : Expr} {name : Name} {s s' t : Store}
    {o : Object} {id : Nat} {f : Closure}
    (moment : k.moments (.expr (fuel + 1) scope (.get e name)) s)
    (owner : evalExpr k.host fuel scope e s = .ok (.object o) s')
    (absent : (s'.fieldsOf o).get? name = none)
    (result : evalExpr k.host (fuel + 1) scope (.get e name) s = .ok (.function id f) t) :
    ∀ {fuel args s₁}, k.moments (.closure (fuel + 1) f args) s₁ →
      (f.frameOf args s₁).2.lookup? thisName (f.frameOf args s₁).1.chain = some (.object o) ∧
      ∀ {s₂}, Store.Occurs k.host k.moments s₂ → (f.frameOf args s₁).1.Bounded s₂ →
        s₂.lookup? thisName (f.frameOf args s₁).1.chain = some (.object o) := by
  intro fuel' args s₁ called
  have sound : f.Sound k t := (h.gives (w := .expr _ _ _) moment result).1
  have occurs := Store.occurs_end (w := .expr _ _ _) moment result
  rw [evalExpr_get owner] at result
  rcases answers_getProperty absent with ⟨d, m, id, f', t', -, bound, outcome⟩ | ⟨-, outcome⟩
  · cases outcome.symm.trans result
    have starts := k.occurs_body called
    have there : f.Sound k s₁ := (h.requires called).1
    exact ⟨h.this_in_call occurs sound.bounded bound called starts (there.bounded.push _),
      fun occurs' exists' => h.this_in_call occurs sound.bounded bound called occurs' exists'⟩
  · cases outcome.symm.trans result

/-- Two looks at one class, whenever they are taken, see the same. -/
theorem class_eq_of_atHand {s s' : Store} {v v' : Value} {c c' : Class}
    (occurs : s.Occurs k.host k.moments) (occurs' : s'.Occurs k.host k.moments)
    (atHand : v.AtHand k.host k.moments s) (atHand' : v'.AtHand k.host k.moments s')
    (mem : c ∈ v.classes) (mem' : c' ∈ v'.classes) (same : c.body.id = c'.body.id) : c = c' := by
  have sound := (h.sound_of_atHand occurs atHand).classes c mem
  have sound' := (h.sound_of_atHand occurs' atHand').classes c' mem'
  obtain ⟨decl, settled⟩ := sound c (List.suffix_refl _)
  obtain ⟨decl', settled'⟩ := sound' c' (List.suffix_refl _)
  exact h.class_eq settled.made settled'.made same

/-- Writing a field of an instance. -/
theorem writes_field {fuel : Nat} {scope : Scope} {owner value : Expr} {name : Name}
    {s s₁ s₂ : Store} {o : Object} {v : Value}
    (moment : k.moments (.expr (fuel + 1) scope (.set owner name value)) s)
    (evaluated : evalExpr k.host fuel scope owner s = .ok (.object o) s₁)
    (given : evalExpr k.host fuel scope value s₁ = .ok v s₂) :
    ∃ t, evalExpr k.host (fuel + 1) scope (.set owner name value) s = .ok v t ∧
      s₂.SetsField o name v t := by
  have first : k.moments (.expr fuel scope owner) s := k.closed moment .now
  have second : k.moments (.expr fuel scope value) s₁ := k.closed moment (.later evaluated .now)
  have object : o.Sound k s₁ := (h.gives (w := .expr _ _ _) first evaluated).1
  have later := (h.gives (w := .expr _ _ _) second given).2.2
  exact ⟨_, evalExpr_set evaluated given name,
    Store.setsField_setField (object.later later).address name v⟩

end Setting.Orderly

/-! ### The result -/

/-- In every session, whatever it is given and however far it gets. A property of an instance is its
field, or else the nearest method that a declaration at or above its class defines, or else an error
that names the class. A method is bound to the instance for all its calls. One class is the same
whenever it is looked at. Writing a field changes nothing else. -/
theorem properties_resolved {host : Host} (passes : host.Passes fun _ => True) (limit : Option Nat)
    {globals : List (Name × Value)} (plain : ∀ g ∈ globals, g.2.isPlain = true) {bound : Nat}
    {steps : List Step} {moments : Work → Store → Prop}
    (session : moments = (Script.start (.withGlobals host limit globals)).Visits bound steps) :
    (∀ {s o}, s.Occurs host moments → (Value.object o).AtHand host moments s →
      (∀ d : Class, d.lineage <:+ o.cls.lineage → ∃ decl, d.Declares moments decl) ∧
      ∀ name, (∀ v, (s.fieldsOf o).get? name = some v →
          getProperty (.object o) name s = .ok v s) ∧
        ((s.fieldsOf o).get? name = none →
          o.cls.Answers name o s (getProperty (.object o) name s))) ∧
    (∀ {fuel scope e name s s' o}, moments (.expr (fuel + 1) scope (.get e name)) s →
      evalExpr host fuel scope e s = .ok (.object o) s' →
        evalExpr host (fuel + 1) scope (.get e name) s = getProperty (.object o) name s' ∧
        ((s'.fieldsOf o).get? name = none → ∀ {id f t},
          evalExpr host (fuel + 1) scope (.get e name) s = .ok (.function id f) t →
            ∀ {fuel args s₁}, moments (.closure (fuel + 1) f args) s₁ →
              (f.frameOf args s₁).2.lookup? thisName (f.frameOf args s₁).1.chain =
                some (.object o) ∧
              ∀ {s₂}, Store.Occurs host moments s₂ → (f.frameOf args s₁).1.Bounded s₂ →
                s₂.lookup? thisName (f.frameOf args s₁).1.chain = some (.object o))) ∧
    (∀ {s s' v v' c c'}, Store.Occurs host moments s → Store.Occurs host moments s' →
      Value.AtHand host moments s v → Value.AtHand host moments s' v' → c ∈ v.classes →
      c' ∈ v'.classes → c.body.id = c'.body.id → c = c') ∧
    ∀ {fuel scope owner value name s s₁ s₂ o v},
      moments (.expr (fuel + 1) scope (.set owner name value)) s →
      evalExpr host fuel scope owner s = .ok (.object o) s₁ →
      evalExpr host fuel scope value s₁ = .ok v s₂ →
        ∃ t, evalExpr host (fuel + 1) scope (.set owner name value) s = .ok v t ∧
          s₂.SetsField o name v t := by
  subst session
  have h := Session.orderly passes (fun _ => trivial) limit plain (fun _ _ _ _ => trivial) bound steps
  refine ⟨fun occurs atHand => ?_, fun moment owner => ?_,
    fun occurs occurs' atHand atHand' mem mem' same =>
      h.class_eq_of_atHand occurs occurs' atHand atHand' mem mem' same,
    fun moment evaluated given => h.writes_field moment evaluated given⟩
  · have object := h.sound_of_atHand occurs atHand
    exact ⟨fun d above => (Object.Sound.cls object).declares above, fun name =>
      ⟨fun v found => getProperty_field found, fun absent => answers_getProperty absent⟩⟩
  · exact ⟨evalExpr_get owner _, fun absent _ _ _ result =>
      h.this_of_property moment owner absent result⟩

/-- Whether the work is to write a field, and succeeds. -/
def Work.writesField (host : Host) : Work → Store → Bool
  | .expr (fuel + 1) scope (.set owner _ value), s =>
    match evalExpr host fuel scope owner s with
    | .ok (.object _) s' =>
      match evalExpr host fuel scope value s' with
      | .ok _ _ => true
      | _ => false
    | _ => false
  | _, _ => false

theorem Work.eq_of_writesField {host : Host} {w : Work} {s : Store}
    (h : w.writesField host s = true) : ∃ fuel scope owner name value o v s₁ s₂,
      w = .expr (fuel + 1) scope (.set owner name value) ∧
      evalExpr host fuel scope owner s = .ok (.object o) s₁ ∧
      evalExpr host fuel scope value s₁ = .ok v s₂ := by
  unfold writesField at h
  split at h
  · split at h
    · split at h
      · exact ⟨_, _, _, _, _, _, _, _, _, rfl, ‹_›, ‹_›⟩
      · cases h
    · cases h
  · cases h

/-- A method that is declared twice in a superclass is taken from an instance, stored as a field of it,
and called. -/
theorem properties_resolved_stored :
    ∃ moments, moments = (Script.start (.withGlobals Host.first none [])).Visits 20
        [.eval "class A { m() {} m() { this; } } class B < A {} var b = B(); b.x = b.m; b.m();"] ∧
      (∃ fuel scope owner name value s s' o v t,
        moments (.expr (fuel + 1) scope (.set owner name value)) s ∧
        evalExpr Host.first (fuel + 1) scope (.set owner name value) s = .ok v t ∧
        Store.SetsField s' o name v t) ∧
      ∃ fuel scope e s s' o, moments (.expr (fuel + 1) scope (.get e "m")) s ∧
        evalExpr Host.first fuel scope e s = .ok (.object o) s' ∧
        o.cls.Answers "m" o s' (evalExpr Host.first (fuel + 1) scope (.get e "m") s) ∧
        ∃ fuel f args s₁, moments (.closure (fuel + 1) f args) s₁ ∧
          (f.frameOf args s₁).2.lookup? thisName (f.frameOf args s₁).1.chain =
            some (.object o) := by
  have written : ((Script.start (.withGlobals Host.first none [])).visit? 20
      [.eval "class A { m() {} m() { this; } } class B < A {} var b = B(); b.x = b.m; b.m();"] 0
      [1, 1, 1, 0]).any (fun m => m.1.writesField Host.first m.2) = true := by
    cbv
  have called : ((Script.start (.withGlobals Host.first none [])).visit? 20
      [.eval "class A { m() {} m() { this; } } class B < A {} var b = B(); b.x = b.m; b.m();"] 0
      [1, 1, 1, 1, 0]).any (fun m => m.1.callsMethod Host.first "m" m.2) = true := by
    cbv
  obtain ⟨w, s, visits, seen⟩ := Script.exists_visits written
  obtain ⟨fuel, scope, e, name, value, o, v, s₁, s₂, rfl, owner, given⟩ :=
    Work.eq_of_writesField seen
  obtain ⟨w', s', visits', seen'⟩ := Script.exists_visits called
  obtain ⟨fuel', scope', e', args, o', c, vs, v', s₃, s₄, s₅, t', rfl, owner', absent, taken,
    passed, returned⟩ := Work.eq_of_callsMethod seen'
  have plain : ∀ g ∈ ([] : List (Name × Value)), g.2.isPlain = true :=
    List.forall_mem_nil _
  obtain ⟨states, gets, -, sets⟩ := properties_resolved (Host.passes_first _) none plain rfl
  obtain ⟨t, result, writes⟩ := sets visits owner given
  have asks := visits'.closed .now
  have begun := asks.closed .now
  have occurs := Store.occurs_end (w := .expr _ _ _) begun owner'
  obtain ⟨-, names⟩ := states occurs (.given begun owner' (.refl s₃))
  obtain ⟨got, bound⟩ := gets asks owner'
  have answers := (names "m").2 absent
  rw [← got] at answers
  refine ⟨_, rfl, ⟨fuel, scope, e, name, value, s, s₂, o, v, t, visits, result, writes⟩,
    fuel', scope', e', s', s₃, o', asks, owner', answers, ?_⟩
  have call := visits'.closed (.later taken (.later passed .now))
  rcases answers with ⟨d, m, id, f, t₁, -, -, outcome⟩ | ⟨-, outcome⟩
  · cases outcome.symm.trans taken
    obtain ⟨checked, returned⟩ := call_function_eq_ok.mp returned
    cases fuel' with
    | zero => cases returned
    | succ fuel' =>
      have runs := call.closed (.act checked .now)
      exact ⟨fuel', f, vs, s₅, runs, (bound absent taken runs).1⟩
  · cases outcome.symm.trans taken

end Lox
