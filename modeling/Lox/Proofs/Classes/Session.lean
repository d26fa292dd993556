import Mathlib
import Lox.Proofs.Classes.Eval
import Lox.Proofs.Course.Session
import Lox.Proofs.Session.Traceless
import Lox.Proofs.Soundness

/-!
Classes and functions in a session.

Whatever a session is given, all its classes and functions are in order at every moment, and of two
moments one comes before the other (`Script.orderly`). From this it follows that a class is known by
its number: it was made at one moment only (`Setting.Orderly.class_eq`), and that two moments agree
about what they both know of `this` and `super` (`Setting.Orderly.lookup?_eq`).
-/

namespace Lox

open Run

/-! ### Orderly courses -/

/-- All that happens in the course is in order, and the moments are. -/
structure Setting.Orderly (k : Setting) : Prop where
  governs : k.contract.Governs k.toCourse
  ordered : ∀ {w₁ s₁ w₂ s₂}, k.moments w₁ s₁ → k.moments w₂ s₂ →
    k.contract.Ordered k.toCourse w₁ s₁ w₂ s₂

namespace Setting.Orderly

variable {k : Setting} (h : k.Orderly)
include h

theorem sound {w : Work} {s : Store} (moment : k.moments w s) : s.Sound k :=
  h.governs.holds moment

theorem requires {w : Work} {s : Store} (moment : k.moments w s) : k.Requires s w :=
  h.governs.requires moment

/-- What a work of the course gives. -/
theorem gives {w : Work} {s s' : Store} {r : w.Result} (moment : k.moments w s)
    (result : w.run k.host s = .ok r s') : k.Gives w r s' ∧ s'.Sound k ∧ s.Later s' := by
  obtain ⟨step, given⟩ := (h.governs.acts moment).of_ok result
  exact ⟨given, step.holds, step.follows⟩

theorem sound_of_occurs {s : Store} (occurs : s.Occurs k.host k.moments) : s.Sound k := by
  obtain ⟨w, s₀, moment, touches⟩ := occurs
  exact (h.governs.step_of_touches moment touches).holds

/-- Of two stores of a course, one comes after the other. -/
theorem comparable {s s' : Store} (occurs : s.Occurs k.host k.moments)
    (occurs' : s'.Occurs k.host k.moments) : s.Later s' ∨ s'.Later s :=
  h.governs.comparable h.ordered occurs occurs'

/-- Two stores of a course agree about a reserved word in a scope that both have. -/
theorem lookup?_eq {s s' : Store} (occurs : s.Occurs k.host k.moments)
    (occurs' : s'.Occurs k.host k.moments) {scope : Scope}
    (bounded : scope.Bounded s) (bounded' : scope.Bounded s') {name : Name}
    (reserved : name.isReserved = true) :
    s'.lookup? name scope.chain = s.lookup? name scope.chain := by
  rcases h.comparable occurs occurs' with later | later
  · exact later.grows.lookup? reserved bounded
  · exact (later.grows.lookup? reserved bounded').symm

end Setting.Orderly

/-- A class declaration begins no works. -/
theorem Work.eq_of_visits_classDecl {host : Host} {fuel : Nat} {scope : Scope} {decl : ClassDecl}
    {s s' : Store} {w : Work}
    (visits : (Work.exec (fuel + 1) scope (.classDecl decl)).Visits host s w s') :
    w = .exec (fuel + 1) scope (.classDecl decl) ∧ s' = s := by
  cases visits with
  | self => exact ⟨rfl, rfl⟩
  | inner begins _ =>
    cases begins with
    | act _ begins => cases begins

theorem Class.MadeBy.ends {c : Class} {scope : Scope} {decl : ClassDecl} {before after : Store}
    (made : c.MadeBy scope decl before after) (host : Host) (fuel : Nat) :
    (Work.exec (fuel + 1) scope (.classDecl decl)).run host before = .ok .normal after := by
  rw [Work.run_eq_plan]
  exact bind_of_ok made.runs

/-- Classes with the same number are the same. -/
theorem Setting.Orderly.class_eq {k : Setting} (h : k.Orderly) {decl decl' : ClassDecl}
    {s s' : Store} {c c' : Class} (made : c.Made k decl s) (made' : c'.Made k decl' s')
    (same : c.body.id = c'.body.id) : c = c' := by
  obtain ⟨fuel, scope, before, after, moment, run, -⟩ := made
  obtain ⟨fuel', scope', before', after', moment', run', -⟩ := made'
  rw [run.id, run'.id] at same
  have apart : ∀ {c scope decl before after fuel s'}, Class.MadeBy c scope decl before after →
      k.contract.Before k.toCourse (.exec (fuel + 1) scope (.classDecl decl)) before s' →
      before.nextId < s'.nextId := by
    rintro c scope decl before after fuel s' run ⟨t, ends, later⟩
    rw [run.ends] at ends
    cases ends
    exact Nat.lt_of_lt_of_le run.nextId later.ids
  have equal : before = before' → scope = scope' → decl = decl' → c = c' := by
    rintro rfl rfl rfl
    obtain ⟨_, found, rfl, _⟩ := run.eq
    obtain ⟨_, found', rfl, _⟩ := run'.eq
    cases found.symm.trans found'
    rfl
  -- A run uses up its number: a run after it finds a greater one.
  rcases h.ordered moment moment' with visits | visits | before | before
  · obtain ⟨⟨⟩, rfl⟩ := Work.eq_of_visits_classDecl visits
    exact equal rfl rfl rfl
  · obtain ⟨⟨⟩, rfl⟩ := Work.eq_of_visits_classDecl visits
    exact equal rfl rfl rfl
  · exact absurd same (Nat.ne_of_lt (apart run before))
  · exact absurd same.symm (Nat.ne_of_lt (apart run' before))

/-! ### Sessions -/

namespace Script

/-- A script whose store is sound and whose kept programs come from the parser. -/
structure Ready (k : Setting) (s : Script) : Prop where
  sound : s.session.store.Sound k
  bounded : s.session.scope.Bounded s.session.store
  slots : ∀ entry ∈ s.slots, Stmt.RegularAll entry.2.stmts

end Script

theorem Check.stmt_of_stmts {tree : List Stmt} (checked : stmts tree = .ok ()) :
    ∀ s ∈ tree, stmt .topLevel s = .ok () := by
  induction tree with
  | nil => exact nofun
  | cons first rest ih =>
    obtain ⟨checked, others⟩ := stmts_cons_eq_ok.mp checked
    exact List.forall_mem_cons.mpr ⟨checked, ih others⟩

namespace Script

variable {k : Setting} {s s' : Script} {fuel : Nat}

theorem Ready.program (h : s.Ready k) {program : Program} (regular : Stmt.RegularAll program.stmts)
    {w : Work} (work : s.session.work? fuel program = some w) :
    k.Requires s.session.store w := by
  unfold Session.work? at work
  cases checked : program.check with
  | ok _ =>
    rw [checked] at work
    cases work
    refine ⟨trivial, fun stmt mem => ⟨none, .none, .outside h.bounded, ?_, ?_⟩⟩
    · exact Check.stmt_of_stmts checked stmt mem
    · exact Stmt.regular_of_mem regular stmt mem
  | error e =>
    rw [checked] at work
    cases work

/-- Steps begin with what was checked, outside all classes. -/
theorem Ready.requires (h : s.Ready k) {step : Step} {w : Work}
    (work : s.work? fuel step = some w) : k.Requires s.session.store w := by
  cases step with
  | eval text =>
    simp only [work?] at work
    cases parsed : Session.parse text with
    | ok program =>
      rw [parsed] at work
      exact h.program (Session.regularAll_of_parse parsed) work
    | error e =>
      rw [parsed] at work
      cases work
  | expression text =>
    simp only [work?] at work
    cases parsed : parseExpression text with
    | ok e =>
      simp only [parsed] at work
      cases checked : e.check with
      | ok _ =>
        rw [checked] at work
        cases work
        exact ⟨none, .outside h.bounded, checked, regular_of_parseExpression parsed⟩
      | error e =>
        rw [checked] at work
        cases work
    | error e =>
      rw [parsed] at work
      cases work
  | run slot =>
    simp only [work?] at work
    cases kept : s.slots.lookup slot with
    | some program =>
      rw [kept] at work
      have inside : (slot, program) ∈ s.slots := by
        obtain ⟨later, earlier, split, -⟩ := List.lookup_eq_some_iff.mp kept
        rw [split]
        simp
      exact h.program (h.slots _ inside) work
    | none =>
      rw [kept] at work
      cases work
  | _ => cases work

/-- What a step stores comes from the parser. -/
theorem regularAll_of_mem_stored {step : Step} :
    ∀ entry ∈ step.stored, Stmt.RegularAll entry.2.stmts := by
  cases step with
  | parse slot text =>
    dsimp only [Step.stored]
    cases parsed : Session.parse text with
    | ok program =>
      rintro _ (_ | ⟨_, ⟨⟩⟩)
      exact Session.regularAll_of_parse parsed
    | error e => rintro _ ⟨⟩
  | _ => rintro _ ⟨⟩

/-- The contract suits scripts that are ready for it. -/
theorem suits (k : Setting) (fuel : Nat) : k.contract.Suits fuel (Ready k) where
  holds ready := ready.sound
  requires ready work := ready.requires work
  step {s step answer s'} ready taken stepped := by
    have follows := follows_of_step taken
    have later : s.session.store.Later s'.session.store := stepped.follows
    refine ⟨stepped.holds, follows.scope ▸ ready.bounded.grows later.grows, ?_⟩
    rw [slots_of_step taken]
    intro entry mem
    rcases List.mem_append.mp mem with mem | mem
    · exact regularAll_of_mem_stored entry mem
    · exact ready.slots entry mem

/-- The course of a session, whose host passes on what it is given. -/
def setting (fuel : Nat) (s : Script) (steps : List Step) {host : Host}
    (same : s.session.host = host) {native : Native → Prop} (passes : host.Passes native) :
    Setting where
  host := host
  moments := s.Visits fuel steps
  closed := same ▸ Visits.closed
  native := native
  passes := passes

theorem orderly {steps : List Step} {host : Host} {same : s.session.host = host}
    {native : Native → Prop} {passes : host.Passes native}
    (ready : s.Ready (s.setting fuel steps same passes)) :
    (s.setting fuel steps same passes).Orderly := by
  subst same
  have governs : Contract.Governs _ (s.course fuel steps) :=
    governs (Setting.kept _) (suits _ fuel) ready
  exact ⟨governs, fun visits₁ visits₂ => ordered governs (suits _ fuel) ready visits₁ visits₂⟩

end Script

/-! ### The start of a session -/

namespace Session

variable {host : Host} {native : Native → Prop}

theorem host_withGlobals (host : Host) (limit : Option Nat) (globals : List (Name × Value)) :
    (withGlobals host limit globals).host = host :=
  List.foldlRecOn (motive := fun s : Session => s.host = host) globals _ rfl fun _ same _ _ => same

/-- A new session has the builtins and nothing else. -/
theorem contents_new {limit : Option Nat} {c : Cell} {name : Name} {v : Value}
    (found : ((new host limit).store.contents c).get? name = some v) :
    ∃ b : Builtin, v = .native b.toNative := by
  match c with
  | .frame 0 =>
    obtain ⟨b, -, same⟩ := List.mem_map.mp (Bindings.mem_of_get?_ofList found)
    cases same
    exact ⟨b, rfl⟩
  | .frame 1 => cases found
  | .frame (f + 2) => cases found
  | .fields address => cases found

/-- All values in the session are plain, its native functions are known, and its scope is there. -/
structure Plain (k : Setting) (s : Session) : Prop where
  values : ∀ c name v, (s.store.contents c).get? name = some v →
    v.isPlain = true ∧ ∀ f, v = .native f → k.native f
  bounded : s.scope.Bounded s.store

theorem ready_start {k : Setting} (builtins : ∀ b : Builtin, k.native b.toNative)
    (limit : Option Nat) {globals : List (Name × Value)}
    (plain : ∀ g ∈ globals, g.2.isPlain = true)
    (known : ∀ g ∈ globals, ∀ f, g.2 = .native f → k.native f) :
    (Script.start (withGlobals host limit globals)).Ready k := by
  suffices Plain k (withGlobals host limit globals) by
    refine ⟨fun c name v found => ?_, this.bounded, nofun⟩
    exact .of_isPlain (this.values c name v found).1 (this.values c name v found).2
  refine List.foldlRecOn (motive := Plain k) globals _ ⟨fun c name v found => ?_, ?_⟩ ?_
  · obtain ⟨b, rfl⟩ := contents_new found
    refine ⟨rfl, ?_⟩
    rintro _ ⟨⟩
    exact builtins b
  · intro f mem
    rcases List.mem_cons.mp mem with rfl | mem
    · exact Nat.one_lt_two
    · rw [List.mem_singleton.mp mem]
      exact Nat.two_pos
  · rintro s ⟨values, bounded⟩ g mem
    refine ⟨fun c name v found => ?_, fun f mem => ?_⟩
    · cases c with
      | frame f =>
        rcases s.store.get?_frame_bind s.scope.frame f g.1 name g.2 with same | ⟨-, bound⟩
        · exact values (.frame f) name v (same.symm.trans found)
        · cases bound.symm.trans found
          exact ⟨plain g mem, known g mem⟩
      | fields address => exact values (.fields address) name v found
    · change f < (s.store.bind s.scope.frame g.1 g.2).frames.size
      rw [Store.size_frames_bind]
      exact bounded f mem

/-- The course of a session that starts with some globals. -/
def setting (limit : Option Nat) (globals : List (Name × Value)) (fuel : Nat) (steps : List Step)
    (passes : host.Passes native) : Setting :=
  (Script.start (withGlobals host limit globals)).setting fuel steps
    (host_withGlobals host limit globals) passes

theorem orderly (passes : host.Passes native) (builtins : ∀ b : Builtin, native b.toNative)
    (limit : Option Nat) {globals : List (Name × Value)}
    (plain : ∀ g ∈ globals, g.2.isPlain = true)
    (known : ∀ g ∈ globals, ∀ f, g.2 = .native f → native f) (fuel : Nat) (steps : List Step) :
    (setting limit globals fuel steps passes).Orderly :=
  Script.orderly (ready_start builtins limit plain known)

end Session

end Lox
