import Mathlib
import Lox.Proofs.Nesting.Chain
import Lox.Proofs.Nesting.Eval
import Lox.Proofs.Soundness

/-!
The scopes and classes of a session, whatever it has run.

A session keeps a layout from its start on: each program or expression adds to it, and what a
program that failed half-way has made stays. So in every state of a session the frames within reach
of the global scope form a tree below the global frame, and the classes a forest. The main statement
is `inShape_of_run`.
-/

namespace Lox

open Run

theorem Value.Fits.of_isPlain {l : Layout} {v : Value} (plain : v.isPlain = true) : v.Fits l := by
  cases v with
  | function | cls | object => cases plain
  | _ => trivial

/-! ### Sessions -/

/-- A session whose store is laid out below its global scope. -/
structure Session.LaidOut (s : Session) : Prop where
  host : s.host.Shares
  scope : s.scope = .global
  store : ∃ l, s.store.LaidOut l

/-- The session that is left, if there is one, has the property. -/
def Session.Leaves (P : Session → Prop) : Outcome Failure Session Value → Prop
  | .ok _ s => P s
  | .error _ s => P s
  | .outOfFuel => True

namespace Session

variable {s : Session}

theorem LaidOut.perform (h : s.LaidOut) {Q : Value → Layout → Prop} {x : Run Value}
    (lays : ∀ l, l.scopes s.scope → Lays l Q x) : Leaves LaidOut (s.perform x) := by
  obtain ⟨l, laidOut⟩ := h.store
  have global : l.scopes s.scope := h.scope ▸ l.global
  have ends := lays l global s.store laidOut
  unfold Session.perform
  dsimp only
  cases result : x s.store with
  | ok v store =>
    obtain ⟨l', -, laidOut', -⟩ := ends.of_ok result
    exact ⟨h.host, h.scope, l', laidOut'⟩
  | error e store =>
    obtain ⟨l', -, laidOut'⟩ := ends.of_error result
    exact ⟨h.host, h.scope, l', laidOut'⟩
  | outOfFuel => trivial

theorem LaidOut.run (h : s.LaidOut) (fuel : Nat) (program : Program) :
    Leaves LaidOut (s.run fuel program) := by
  unfold Session.run
  cases program.check with
  | ok _ =>
    refine h.perform (Q := Value.Fits) fun l global => ?_
    have nil : Value.nil.Fits l := trivial
    exact lays_execProgram h.host fuel global nil program.stmts
  | error e => exact h

theorem LaidOut.eval (h : s.LaidOut) (fuel : Nat) (text : String) :
    Leaves LaidOut (s.eval fuel text) := by
  unfold Session.eval
  cases Session.parse text with
  | ok program => exact h.run fuel program
  | error e => exact h

theorem LaidOut.evalExpression (h : s.LaidOut) (fuel : Nat) (text : String) :
    Leaves LaidOut (s.evalExpression fuel text) := by
  unfold Session.evalExpression
  cases parseExpression text with
  | ok e =>
    dsimp only
    cases e.check with
    | ok _ => exact h.perform fun l global => (evalLays h.host fuel).expr e global
    | error e => exact h
  | error e => exact h

/-! ### The start of a session -/

theorem laidOut_new (host : Host) (limit : Option Nat) :
    (new host limit).store.LaidOut .start := by
  refine ⟨?_, fun _ none => none.elim, fun c name v found => ?_⟩
  · rintro scope rfl
    exact Nat.one_lt_two
  · cases c with
    | frame f => exact .of_isPlain ((allPlain_new host limit).frames f name v found)
    | fields address => cases found

/-- The global scope is the same in all sessions. -/
theorem laidOut_withGlobals {host : Host} (shares : host.Shares) (limit : Option Nat)
    {globals : List (Name × Value)} (plain : ∀ g ∈ globals, g.2.isPlain = true) :
    (withGlobals host limit globals).LaidOut := by
  refine List.foldlRecOn (motive := Session.LaidOut) globals _
    ⟨shares, rfl, .start, laidOut_new host limit⟩ ?_
  rintro s ⟨host, scope, l, laidOut⟩ g mem
  have fits : g.2.Fits l := .of_isPlain (plain g mem)
  exact ⟨host, scope, l, laidOut.bind s.scope.frame g.1 fits⟩

end Session

/-! ### Scripts -/

namespace Script

theorem leaves_of_finish {P : Session → Prop} {slots : List (String × Program)} {before : Nat}
    {result : Outcome Failure Session Value} (leaves : Session.Leaves P result) {answer : Answer}
    {s' : Script} (taken : finish slots before result = some (answer, s')) : P s'.session := by
  cases result with
  | ok v session =>
    cases taken
    exact leaves
  | error e session =>
    cases taken
    exact leaves
  | outOfFuel => cases taken

variable {s s' : Script} {fuel : Nat}

/-- One step. The programs that are kept may be any. -/
theorem laidOut_step (h : s.session.LaidOut) {step : Step} {answer : Answer}
    (taken : s.step fuel step = some (answer, s')) : s'.session.LaidOut := by
  cases step with
  | eval text => exact leaves_of_finish (h.eval fuel text) taken
  | expression text => exact leaves_of_finish (h.evalExpression fuel text) taken
  | parse slot text =>
    unfold Script.step at taken
    dsimp only at taken
    cases parsed : Session.parse text with
    | ok program =>
      rw [parsed] at taken
      cases taken
      exact h
    | error e =>
      rw [parsed] at taken
      cases taken
      exact h
  | run slot =>
    unfold Script.step at taken
    dsimp only at taken
    cases kept : s.slots.lookup slot with
    | some program =>
      rw [kept] at taken
      exact leaves_of_finish (h.run fuel program) taken
    | none =>
      rw [kept] at taken
      cases taken
      exact h
  | _ =>
    cases taken
    exact h

/-- Any number of steps. -/
theorem laidOut_run (h : s.session.LaidOut) {steps : List Step} {answers : List Answer}
    (taken : s.run fuel steps = some (answers, s')) : s'.session.LaidOut := by
  induction steps generalizing s answers with
  | nil =>
    cases taken
    exact h
  | cons step rest ih =>
    obtain ⟨answer, s₁, others, first, following, -⟩ := exists_of_run_cons taken
    exact ih (laidOut_step h first) following

end Script

/-! ### The result -/

/-- What can be reached from the global scope of the session has its place: the frames form a tree
below the global frame, the classes a forest, and searching them ends. -/
structure Session.InShape (s : Session) : Prop where
  frames : s.store.FrameTree s.scope
  classes : s.store.ClassForest s.scope
  climbs : s.store.ClimbsEnd s.scope

/-- Whatever a session has been given, texts to run, expressions and programs kept from before, and
whether or not it failed in them: what is reached from its global scope is in shape. -/
theorem inShape_of_run {host : Host} (shares : host.Shares) (limit : Option Nat)
    {globals : List (Name × Value)} (plain : ∀ g ∈ globals, g.2.isPlain = true)
    (slots : List (String × Program)) {fuel : Nat} {steps : List Step} {answers : List Answer}
    {s : Script}
    (run : Script.run fuel ⟨.withGlobals host limit globals, slots⟩ steps = some (answers, s)) :
    s.session.InShape := by
  obtain ⟨-, scope, l, laidOut⟩ :=
    Script.laidOut_run (Session.laidOut_withGlobals shares limit plain) run
  constructor
  · exact scope ▸ laidOut.frameTree
  · exact scope ▸ laidOut.classForest
  · exact scope ▸ laidOut.climbsEnd

/-- What a supplied function passes on has its scopes and classes from the arguments. -/
theorem Host.shares_first : Host.first.Shares := by
  rintro index args v ⟨⟩
  cases args with
  | nil =>
    constructor
    · rintro f ⟨⟩
    · rintro c ⟨⟩
  | cons a rest =>
    constructor
    · exact fun f mem => ⟨a, List.mem_cons_self, f, mem, rfl⟩
    · exact fun c mem => ⟨a, List.mem_cons_self, c, mem, List.suffix_refl _⟩

/-- A function made in a block that failed and a method of a class whose superclass was declared
again are used in later programs, the latter as a field of an instance. -/
theorem inShape_of_run_redeclared :
    ∃ answers s, Script.run 30 ⟨.withGlobals Host.first none
        [("first", .native ⟨1, "first", .atLeast 0, .supplied 0⟩), ("old", .string "old"),
          ("new", .string "new")], []⟩
          [.eval "class A { m() { return old; } } class B < A { m() { return super.m(); } }",
            .eval "var f; { var x = new; fun g() { return x; } f = g; y; }",
            .eval "class A {} var o = first(B)(); o.p = o.m; nil;",
            .expression "f() + o.p()"] = some (answers, s) ∧
      answers = [.result (.ok .nil) .empty,
        .result (.error (.runtime (.undefinedName "y"))) .empty,
        .result (.ok .nil) .empty, .result (.ok (.string "newold")) .empty] ∧
      s.session.InShape := by
  have plain : ∀ g ∈ [("first", Value.native ⟨1, "first", .atLeast 0, .supplied 0⟩),
      ("old", .string "old"), ("new", .string "new")], g.2.isPlain = true := by
    simp [Value.isPlain]
  have answered : (Script.run 30 ⟨.withGlobals Host.first none
      [("first", .native ⟨1, "first", .atLeast 0, .supplied 0⟩), ("old", .string "old"),
        ("new", .string "new")], []⟩
        [.eval "class A { m() { return old; } } class B < A { m() { return super.m(); } }",
          .eval "var f; { var x = new; fun g() { return x; } f = g; y; }",
          .eval "class A {} var o = first(B)(); o.p = o.m; nil;",
          .expression "f() + o.p()"]).map Prod.fst =
      some [.result (.ok .nil) .empty,
        .result (.error (.runtime (.undefinedName "y"))) .empty,
        .result (.ok .nil) .empty, .result (.ok (.string "newold")) .empty] := by
    cbv
  obtain ⟨⟨answers, s⟩, run, same⟩ := Option.map_eq_some_iff.mp answered
  exact ⟨answers, s, run, same, inShape_of_run Host.shares_first none plain [] run⟩

end Lox
