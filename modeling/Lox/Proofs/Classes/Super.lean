import Lox.Proofs.Classes.Bound

/-!
What `super` denotes.

Wherever a `super` is evaluated, it is resolved by the text around it. The innermost class declaration
around the expression was run once to make the method that is running, and `super` is what that run
took as superclass, whatever has become of its name. The receiver decides only what `this` is; its
class descends from the superclass. The main statement, `super_resolved`, is about every moment of a
session.
-/

namespace Lox

open Run

/-- What `super` and `this` are at a `super` expression, and where they come from: the declaration is
the innermost class around the text, a run of it made the class and its method, and took the other
class, which its superclass name denoted at the time, as superclass. The expression is evaluated in
the method, bound to the instance. -/
structure Inside.Resolves (moments : Work → Store → Prop) (s : Store) (scope : Scope) (name : Name)
    (i : Inside) (parent : Class) : Prop where
  text : Part.InMethod i.decl i.method.decl (.expr (.super name))
  declared : ∃ fuel outer before after superclass,
    moments (.exec (fuel + 1) outer (.classDecl i.decl)) before ∧
    i.cls.MadeBy outer i.decl before after ∧ i.decl.superclass = some superclass ∧
    before.lookup? superclass outer.chain = some (.cls parent)
  method : i.method ∈ i.cls.body.methods
  binds : scope.Binds s i.method.scope.chain i.object
  super : s.lookup? superName scope.chain = some (.cls parent)
  this : s.lookup? thisName scope.chain = some (.object i.object)
  ancestor : parent.lineage <:+ i.object.cls.ancestors

/-- What a `super` expression gives, at every moment at which one is evaluated. -/
theorem Setting.Orderly.resolves_super {k : Setting} (h : k.Orderly) {fuel : Nat} {scope : Scope}
    {name : Name} {s : Store} (moment : k.moments (.expr (fuel + 1) scope (.super name)) s) :
    ∃ i parent, Inside.Resolves k.moments s scope name i parent ∧
      parent.Answers name i.object s (evalExpr k.host (fuel + 1) scope (.super name) s) := by
  obtain ⟨i, holds, derived, text⟩ := h.inside_super moment
  obtain ⟨parent, same, super, this, ancestor⟩ := holds.super derived
  have declared : ∃ fuel outer before after superclass,
      k.moments (.exec (fuel + 1) outer (.classDecl i.decl)) before ∧
      i.cls.MadeBy outer i.decl before after ∧ i.decl.superclass = some superclass ∧
      before.lookup? superclass outer.chain = some (.cls parent) := by
    obtain ⟨fuel, outer, before, after, ran, made, -⟩ := holds.settled.made
    obtain ⟨superclass, named, found⟩ :=
      ((ensures_superclassOf _ _ _).of_ok made.superclass).2.2 parent same
    exact ⟨fuel, outer, before, after, superclass, ran, made, named, found⟩
  exact ⟨i, parent, ⟨text, declared, holds.method, holds.binds, super, this, ancestor⟩,
    answers_super super this k.host fuel name⟩

/-- In every session, whatever it is given and however far it gets: a `super` expression is resolved by
its text, not by the receiver. -/
theorem super_resolved {host : Host} (passes : host.Passes fun _ => True) (limit : Option Nat)
    {globals : List (Name × Value)} (plain : ∀ g ∈ globals, g.2.isPlain = true) {bound : Nat}
    {steps : List Step} {fuel : Nat} {scope : Scope} {name : Name} {s : Store}
    (visits : (Script.start (.withGlobals host limit globals)).Visits bound steps
      (.expr (fuel + 1) scope (.super name)) s) :
    ∃ i parent, Inside.Resolves
        ((Script.start (.withGlobals host limit globals)).Visits bound steps) s scope name i parent ∧
      parent.Answers name i.object s (evalExpr host (fuel + 1) scope (.super name) s) := by
  have h := Session.orderly passes (fun _ => trivial) limit plain (fun _ _ _ _ => trivial) bound steps
  exact h.resolves_super visits

/-- Whether the work is to take the method from a superclass. -/
def Work.isSuper (name : Name) : Work → Store → Bool
  | .expr (_ + 1) _ (.super method), _ => method = name
  | _, _ => false

theorem Work.eq_of_isSuper {name : Name} {w : Work} {s : Store} (h : w.isSuper name s = true) :
    ∃ fuel scope, w = .expr (fuel + 1) scope (.super name) := by
  unfold isSuper at h
  split at h
  · rw [← of_decide_eq_true h]
    exact ⟨_, _, rfl⟩
  · cases h

/-- A function made in a method is called later, when the superclass has lost its name; the method was
taken from an instance of a class further below. -/
theorem super_resolved_redeclared :
    ∃ moments, moments = (Script.start (.withGlobals Host.first none [])).Visits 30
        [.eval "class A { m() {} } class B < A { m() { fun f() { super.m(); } return f; } }",
          .eval "class C < B {} var m = C().m; class A {} m()();"] ∧
      ∃ fuel scope s, moments (.expr (fuel + 1) scope (.super "m")) s ∧
        ∃ i parent, Inside.Resolves moments s scope "m" i parent ∧
          parent.Answers "m" i.object s (evalExpr Host.first (fuel + 1) scope (.super "m") s) := by
  have leads : ((Script.start (.withGlobals Host.first none [])).visit? 30
      [.eval "class A { m() {} } class B < A { m() { fun f() { super.m(); } return f; } }",
        .eval "class C < B {} var m = C().m; class A {} m()();"] 1
      [1, 1, 1, 0, 2, 0, 0, 0, 0, 0]).any (fun m => m.1.isSuper "m" m.2) = true := by
    cbv
  obtain ⟨w, s, visits, seen⟩ := Script.exists_visits leads
  obtain ⟨fuel, scope, rfl⟩ := Work.eq_of_isSuper seen
  exact ⟨_, rfl, fuel, scope, s, visits,
    super_resolved (Host.passes_first _) none (by simp) visits⟩

end Lox
