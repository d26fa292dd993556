import Lox.Proofs.Course.Contract
import Lox.Session.Script

/-!
The course of a session.

A step of a script that parses a text or takes a kept program, and finds that it keeps the rules, has
one work done on the store of the session (`Script.work?`); other steps leave the session as it is.
So the moments of a session are those of the works of its steps, the steps one after the other
(`Script.Visits`), also of a last step that does not come to an end. A contract that is kept and suits
the works that steps begin with is kept throughout (`Script.governs`), and of two moments it is always
known how they are ordered (`Script.ordered`).
-/

namespace Lox

open Run

/-! ### The works of steps -/

/-- What running a program in a session comes to, if the program keeps the rules. -/
def Session.work? (fuel : Nat) (program : Program) (s : Session) : Option Work :=
  match program.check with
  | .ok () => some (.program fuel s.scope .nil program.stmts)
  | .error _ => none

/-- The work that a step has done, if what it is given is in order. -/
def Script.work? (fuel : Nat) (s : Script) : Step → Option Work
  | .eval text =>
    match Session.parse text with
    | .ok program => s.session.work? fuel program
    | .error _ => none
  | .expression text =>
    match parseExpression text with
    | .ok e =>
      match e.check with
      | .ok () => some (.expr fuel s.session.scope e)
      | .error _ => none
    | .error _ => none
  | .run slot =>
    match s.slots.lookup slot with
    | some program => s.session.work? fuel program
    | none => none
  | _ => none

/-- The second session is the first one after the work, or the first one if there is none. -/
structure Session.Follows (s : Session) (work : Option Work) (s' : Session) : Prop where
  host : s'.host = s.host
  scope : s'.scope = s.scope
  done : ∀ w, work = some w → (w.run s.host s.store).state? = some s'.store
  idle : work = none → s'.store = s.store

namespace Session

variable {s s' : Session} {fuel : Nat}

theorem Follows.refl (s : Session) : s.Follows none s := ⟨rfl, rfl, nofun, fun _ => rfl⟩

/-- A work that gives the value of a program or expression. -/
theorem follows_of_perform (w : Work) {x : Run Value}
    (same : (x s.store).state? = (w.run s.host s.store).state?)
    (ends : (s.perform x).state? = some s') : s.Follows (some w) s' := by
  suffices s'.host = s.host ∧ s'.scope = s.scope ∧ (x s.store).state? = some s'.store by
    obtain ⟨host, scope, ends⟩ := this
    refine ⟨host, scope, ?_, nofun⟩
    rintro _ ⟨⟩
    rw [← same, ends]
  unfold perform at ends
  dsimp only at ends
  cases result : x s.store with
  | ok v store =>
    rw [result] at ends
    cases ends
    exact ⟨rfl, rfl, rfl⟩
  | error e store =>
    rw [result] at ends
    cases ends
    exact ⟨rfl, rfl, rfl⟩
  | outOfFuel =>
    rw [result] at ends
    cases ends

theorem follows_of_run {program : Program} (ends : (s.run fuel program).state? = some s') :
    s.Follows (s.work? fuel program) s' := by
  unfold run at ends
  unfold work?
  cases checked : program.check with
  | ok _ =>
    rw [checked] at ends
    exact follows_of_perform (.program fuel s.scope .nil program.stmts) rfl ends
  | error e =>
    rw [checked] at ends
    cases ends
    exact .refl s

end Session

namespace Script

variable {s s' : Script} {fuel : Nat}

theorem state?_of_finish {slots : List (String × Program)} {before : Nat}
    {result : Outcome Failure Session Value} {answer : Answer}
    (taken : finish slots before result = some (answer, s')) :
    result.state? = some s'.session := by
  cases result with
  | ok v session =>
    cases taken
    rfl
  | error e session =>
    cases taken
    rfl
  | outOfFuel => cases taken

/-- The session after a step is that after the work of the step. -/
theorem follows_of_step {step : Step} {answer : Answer}
    (taken : s.step fuel step = some (answer, s')) :
    s.session.Follows (s.work? fuel step) s'.session := by
  have idle : ∀ {session : Session}, some s.session = some session →
      s.session.Follows none session := by
    rintro _ ⟨⟩
    exact .refl _
  cases step with
  | eval text =>
    have ends := state?_of_finish taken
    unfold Session.eval at ends
    cases parsed : Session.parse text with
    | ok program =>
      simp only [work?, parsed] at ends ⊢
      exact Session.follows_of_run ends
    | error e =>
      simp only [work?, parsed] at ends ⊢
      exact idle ends
  | expression text =>
    have ends := state?_of_finish taken
    unfold Session.evalExpression at ends
    cases parsed : parseExpression text with
    | ok e =>
      cases checked : e.check with
      | ok _ =>
        simp only [work?, parsed, checked] at ends ⊢
        exact Session.follows_of_perform (.expr fuel s.session.scope e) rfl ends
      | error e =>
        simp only [work?, parsed, checked] at ends ⊢
        exact idle ends
    | error e =>
      simp only [work?, parsed] at ends ⊢
      exact idle ends
  | parse slot text =>
    simp only [Script.step] at taken
    cases parsed : Session.parse text with
    | ok program =>
      rw [parsed] at taken
      cases taken
      exact .refl _
    | error e =>
      rw [parsed] at taken
      cases taken
      exact .refl _
  | run slot =>
    simp only [Script.step] at taken
    cases kept : s.slots.lookup slot with
    | some program =>
      simp only [work?, kept] at taken ⊢
      exact Session.follows_of_run (state?_of_finish taken)
    | none =>
      simp only [work?, kept] at taken ⊢
      cases taken
      exact .refl _
  | _ =>
    cases taken
    exact .refl _

/-! ### The moments of a session -/

/-- While the steps are taken, the work is begun, from the store. -/
inductive Visits (fuel : Nat) : Script → List Step → Work → Store → Prop where
  | now {s step rest w w' t} : s.work? fuel step = some w →
      w.Visits s.session.host s.session.store w' t → Visits fuel s (step :: rest) w' t
  | later {s step rest answer s' w t} : s.step fuel step = some (answer, s') →
      Visits fuel s' rest w t → Visits fuel s (step :: rest) w t

theorem Visits.closed {steps : List Step} {w w' : Work} {t t' : Store}
    (h : s.Visits fuel steps w t) (begins : (w.plan s.session.host).Begins s.session.host t w' t') :
    s.Visits fuel steps w' t' := by
  induction h with
  | now work visits => exact .now work (visits.trans (.inner begins .self))
  | later taken _ ih =>
    have same := (follows_of_step taken).host
    exact .later taken (ih (same ▸ begins))

/-- The moment of a session that the number of a step and a path lead to. -/
def visit? (fuel : Nat) : Script → List Step → Nat → List Nat → Option (Work × Store)
  | s, step :: _, 0, path =>
    (s.work? fuel step).bind fun w => w.visit? s.session.host s.session.store path
  | s, step :: rest, n + 1, path =>
    (s.step fuel step).bind fun r => r.2.visit? fuel rest n path
  | _, [], _, _ => none

/-- The moments of a session can be found by running it. -/
theorem visits_of_visit? {steps : List Step} {n : Nat} {path : List Nat} {w : Work} {t : Store}
    (leads : s.visit? fuel steps n path = some (w, t)) : s.Visits fuel steps w t := by
  induction steps generalizing s n with
  | nil => cases leads
  | cons step rest ih =>
    cases n with
    | zero =>
      obtain ⟨v, work, leads⟩ := Option.bind_eq_some_iff.mp leads
      exact .now work (Work.visits_iff.mpr ⟨path, leads⟩)
    | succ n =>
      obtain ⟨⟨answer, s'⟩, taken, leads⟩ := Option.bind_eq_some_iff.mp leads
      exact .later taken (ih leads)

/-- A moment that is found, with what is seen of it. -/
theorem exists_visits {p : Work → Store → Bool} {steps : List Step} {n : Nat} {path : List Nat}
    (leads : (s.visit? fuel steps n path).any (fun m => p m.1 m.2) = true) :
    ∃ w t, s.Visits fuel steps w t ∧ p w t = true := by
  obtain ⟨⟨w, t⟩, leads, seen⟩ := (Option.any_eq_true _ _).mp leads
  exact ⟨w, t, visits_of_visit? leads, seen⟩

/-- The course of a session. -/
def course (fuel : Nat) (s : Script) (steps : List Step) : Course where
  host := s.session.host
  moments := s.Visits fuel steps
  closed := Visits.closed

end Script

/-! ### Contracts of sessions -/

/-- In scripts with the property, steps begin with works whose requirements are met, and lead to
scripts with the property. -/
structure Contract.Suits (c : Contract) (fuel : Nat) (P : Script → Prop) : Prop where
  holds : ∀ {s}, P s → c.holds s.session.store
  requires : ∀ {s step w}, P s → s.work? fuel step = some w → c.requires w s.session.store
  step : ∀ {s step answer s'}, P s → s.step fuel step = some (answer, s') →
    c.Step s.session.store s'.session.store → P s'

namespace Script

variable {c : Contract} {k : Course} {P : Script → Prop} {fuel : Nat} {s s' : Script}

/-- The moments of the script are moments of the course. -/
structure Within (fuel : Nat) (s : Script) (steps : List Step) (k : Course) : Prop where
  host : k.host = s.session.host
  moments : ∀ {w t}, s.Visits fuel steps w t → k.moments w t

theorem Within.later {step : Step} {rest : List Step} {answer : Answer}
    (h : s.Within fuel (step :: rest) k) (taken : s.step fuel step = some (answer, s')) :
    s'.Within fuel rest k :=
  ⟨h.host.trans (follows_of_step taken).host.symm, fun visits => h.moments (.later taken visits)⟩

/-- A step of a script is a step of the contract. -/
theorem Within.step {step : Step} {rest : List Step} {answer : Answer}
    (h : s.Within fuel (step :: rest) k) (kept : c.Kept k) (suits : c.Suits fuel P) (ready : P s)
    (taken : s.step fuel step = some (answer, s')) : c.Step s.session.store s'.session.store := by
  have follows := follows_of_step taken
  cases work : s.work? fuel step with
  | none =>
    rw [follows.idle work]
    exact ⟨suits.holds ready, c.refl _⟩
  | some w =>
    have ends := follows.done w work
    rw [← h.host] at ends
    exact (kept.acts (h.moments (.now work .self)) (suits.holds ready)
      (suits.requires ready work)).state? ends

/-- At every moment of the script the contract is kept. -/
theorem Within.visits {steps : List Step} {w : Work} {t : Store} (h : s.Within fuel steps k)
    (kept : c.Kept k) (suits : c.Suits fuel P) (ready : P s) (visits : s.Visits fuel steps w t) :
    c.Step s.session.store t ∧ c.requires w t := by
  induction visits with
  | now work visits =>
    have moment := h.moments (.now work .self)
    exact (kept.visits (h.host ▸ visits) moment (suits.holds ready)
      (suits.requires ready work)).2
  | later taken _ ih =>
    have step := h.step kept suits ready taken
    obtain ⟨steps, required⟩ := ih (h.later taken) (suits.step ready taken step)
    exact ⟨step.trans steps, required⟩

/-- A contract that is kept and suits the steps of a script governs its course. -/
theorem governs {steps : List Step} (kept : c.Kept (s.course fuel steps)) (suits : c.Suits fuel P)
    (ready : P s) : c.Governs (s.course fuel steps) := by
  have within : s.Within fuel steps (s.course fuel steps) := ⟨rfl, id⟩
  exact ⟨kept, fun moment => (within.visits kept suits ready moment).1.holds,
    fun moment => (within.visits kept suits ready moment).2⟩

/-- What is begun in a step has ended before the later steps. -/
theorem Within.before {step : Step} {rest : List Step} {answer : Answer} {w w₁ w₂ : Work}
    {t₁ t₂ : Store} (h : s.Within fuel (step :: rest) k) (governs : c.Governs k)
    (suits : c.Suits fuel P) (ready : P s) (work : s.work? fuel step = some w)
    (inside : w.Visits s.session.host s.session.store w₁ t₁)
    (taken : s.step fuel step = some (answer, s')) (visits : s'.Visits fuel rest w₂ t₂) :
    c.Before k w₁ t₁ t₂ := by
  have moment := h.moments (.now work .self)
  have ends := (follows_of_step taken).done w work
  rw [← h.host] at inside ends
  have stepped := h.step governs.kept suits ready taken
  have later := (h.later taken).visits governs.kept suits (suits.step ready taken stepped) visits
  exact (inside.ended governs moment ends).follows later.1.follows

theorem Within.ordered {steps : List Step} {w₁ w₂ : Work} {t₁ t₂ : Store}
    (h : s.Within fuel steps k) (governs : c.Governs k) (suits : c.Suits fuel P) (ready : P s)
    (visits₁ : s.Visits fuel steps w₁ t₁) (visits₂ : s.Visits fuel steps w₂ t₂) :
    c.Ordered k w₁ t₁ w₂ t₂ := by
  induction visits₁ with
  | now work inside =>
    cases visits₂ with
    | now work' inside' =>
      cases work.symm.trans work'
      rw [← h.host] at inside inside'
      exact inside.order inside' governs (h.moments (.now work .self))
    | later taken visits =>
      exact .inr (.inr (.inl (h.before governs suits ready work inside taken visits)))
  | later taken visits ih =>
    cases visits₂ with
    | now work' inside' =>
      exact .inr (.inr (.inr (h.before governs suits ready work' inside' taken visits)))
    | later taken' visits' =>
      cases taken.symm.trans taken'
      have stepped := h.step governs.kept suits ready taken
      exact ih (h.later taken) (suits.step ready taken stepped) visits'

/-- The moments of a session are in an order. -/
theorem ordered {steps : List Step} {w₁ w₂ : Work} {t₁ t₂ : Store}
    (governs : c.Governs (s.course fuel steps)) (suits : c.Suits fuel P) (ready : P s)
    (visits₁ : s.Visits fuel steps w₁ t₁) (visits₂ : s.Visits fuel steps w₂ t₂) :
    c.Ordered (s.course fuel steps) w₁ t₁ w₂ t₂ :=
  Within.ordered ⟨rfl, id⟩ governs suits ready visits₁ visits₂

end Script

end Lox
