import Lox.Proofs.Classes.Arity
import Lox.Proofs.Course.Lasting
import Lox.Proofs.Scoping

/-!
What a session reports of its globals.

The globals of a session are listed from one frame, while a name is looked up in the frame of the
builtins as well. What is listed is what is looked up, since the global frame comes first and has
each of its names once. Whatever a session does to a name shows in the list, with one exception: no
name is ever added to the frame of the builtins, but those that are there can be assigned to, and the
new value is looked up and not listed. The main statement is `globals_reported`.
-/

namespace Lox

open Run

/-! ### The global frame -/

theorem Bindings.mem_of_get? {b : Bindings} {name : Name} {v : Value} (h : b.get? name = some v) :
    (name, v) ∈ b := by
  induction b with
  | nil => cases h
  | cons e rest ih =>
    obtain ⟨other, w⟩ := e
    unfold get? at h
    split at h
    · rename_i same
      cases same
      cases h
      exact List.mem_cons_self
    · exact List.mem_cons_of_mem _ (ih h)

theorem Run.Preserves.state? {α : Type} {P : Store → Prop} {x : Run α} (h : Preserves P x)
    {s s' : Store} (holds : P s) (ends : (x s).state? = some s') : P s' := by
  cases result : x s with
  | ok a t =>
    rw [result] at ends
    cases ends
    exact (h s holds).of_ok result
  | error e t =>
    rw [result] at ends
    cases ends
    exact (h s holds).of_error result
  | outOfFuel =>
    rw [result] at ends
    cases ends

/-- A program binds names in the frame of its scope only. -/
theorem keeps_execProgram (host : Host) (fuel : Nat) (scope : Scope) (last : Value)
    (stmts : List Stmt) (s : Store) :
    Preserves (s.Keeps fun f _ => f = scope.frame) (execProgram host fuel scope last stmts) := by
  have names := keepsNames host fuel
  induction stmts generalizing last with
  | nil => exact preserves_succeed last
  | cons stmt rest ih =>
    by_cases isExpr : ∃ e, stmt = .expr e
    · obtain ⟨e, rfl⟩ := isExpr
      exact preserves_bind (names.expr s _ scope e) fun v => ih v
    · rw [execProgram_of_ne_expr _ _ _ _ _ (not_exists.mp isExpr)]
      refine preserves_bind (names.exec s _ scope stmt fun _ _ _ => rfl) fun flow => ?_
      cases flow with
      | normal => exact ih .nil
      | «return» v => exact preserves_fail _

namespace Session

/-- The scope of a session is the global one, each frame has its names once, and the frame of the
builtins binds the names of the builtins. -/
structure Grounded (s : Session) : Prop where
  scope : s.scope = .global
  tidy : s.store.Tidy
  size : 2 ≤ s.store.frames.size
  root : ∀ name, (s.store.frame 0).contains name = builtins.contains name

variable {s s' : Session} {name : Name} {v : Value}

theorem grounded_new (host : Host) (limit : Option Nat) : (new host limit).Grounded where
  scope := rfl
  tidy := by
    have root : ((Store.empty limit).push ⟨0, []⟩ builtins).2.Tidy :=
      (Store.tidy_empty limit).push _ (Bindings.nodup_ofList _)
    exact root.push ⟨0, []⟩ List.nodup_nil
  size := Nat.le_refl _
  root _ := rfl

/-- Whatever program or expression is done in a session, it stays grounded. -/
theorem Grounded.follows {fuel : Nat} {work : Option Work} (h : s.Grounded)
    (kind : ∀ w, work = some w → (∃ stmts, w = .program fuel s.scope .nil stmts) ∨
      ∃ e, w = .expr fuel s.scope e)
    (follows : s.Follows work s') : s'.Grounded := by
  have scope : s'.scope = .global := follows.scope.trans h.scope
  cases work with
  | none =>
    have same := follows.idle rfl
    exact ⟨scope, same ▸ h.tidy, same ▸ h.size, same ▸ h.root⟩
  | some w =>
    have ends := follows.done w rfl
    have keeps : s.store.Keeps (fun f _ => f = s.scope.frame) s'.store := by
      rcases kind w rfl with ⟨stmts, rfl⟩ | ⟨e, rfl⟩
      · have program := keeps_execProgram s.host fuel s.scope .nil stmts s.store
        exact program.state? (.refl _) ends
      · have expr := (keepsNames s.host fuel).expr s.store (fun f _ => f = s.scope.frame) s.scope e
        exact expr.state? (.refl _) ends
    refine ⟨scope, (w.preserves_tidy s.host).state? h.tidy ends, Nat.le_trans h.size keeps.size,
      fun name => ?_⟩
    have outside : ¬ 0 = s.scope.frame := by
      rw [h.scope]
      exact Nat.zero_ne_one
    rw [keeps.contains_eq (Nat.lt_of_lt_of_le Nat.two_pos h.size) outside]
    exact h.root name

/-- A name is looked up among the globals, and then among the builtins. -/
theorem Grounded.global?_eq (h : s.Grounded) (name : Name) :
    s.global? name = ((s.store.own s.scope).get? name).or ((s.store.frame 0).get? name) := by
  rw [global?, h.scope, Store.own]
  change s.store.lookup? name [1, 0] = _
  cases own : (s.store.frame 1).get? name with
  | some v => simp [Store.lookup?, Scope.global, own]
  | none =>
    cases root : (s.store.frame 0).get? name <;>
      simp [Store.lookup?, Scope.global, own, root]

theorem Grounded.mem_globals_iff (h : s.Grounded) :
    (name, v) ∈ s.globals ↔ (s.store.own s.scope).get? name = some v := by
  rw [globals, Bindings.sorted, List.mem_mergeSort]
  exact ⟨Bindings.get?_of_nodup (h.tidy _), Bindings.mem_of_get?⟩

theorem global?_new (host : Host) (limit : Option Nat) (name : Name) :
    (new host limit).global? name = builtins.get? name := by
  rw [(grounded_new host limit).global?_eq]
  rfl

/-- The frame of the builtins binds the builtins. -/
theorem exists_of_builtins (bound : builtins.contains name = true) :
    ∃ b : Builtin, b.name = name := by
  obtain ⟨v, found⟩ := Option.isSome_iff_exists.mp bound
  obtain ⟨b, -, same⟩ := List.mem_map.mp (Bindings.mem_of_get?_ofList found)
  exact ⟨b, congrArg Prod.fst same⟩

/-- What differs from what is looked up at the start is listed, or it is a builtin that the global
frame does not bind. -/
theorem Grounded.reported (h : s.Grounded) (differs : s.global? name ≠ builtins.get? name) :
    ∃ v, s.global? name = some v ∧ ((name, v) ∈ s.globals ∨
      (∃ b : Builtin, b.name = name) ∧ (∀ w, (name, w) ∉ s.globals) ∧
        (s.store.frame 0).get? name = some v) := by
  rw [h.global?_eq] at differs ⊢
  cases own : (s.store.own s.scope).get? name with
  | some v => exact ⟨v, rfl, .inl (h.mem_globals_iff.mpr own)⟩
  | none =>
    rw [own, Option.none_or] at differs
    have unlisted : ∀ w, (name, w) ∉ s.globals := by
      intro w mem
      cases own.symm.trans (h.mem_globals_iff.mp mem)
    cases root : (s.store.frame 0).get? name with
    | some v =>
      have bound : builtins.contains name = true := by
        rw [← h.root name, Bindings.contains, root]
        rfl
      exact ⟨v, rfl, .inr ⟨exists_of_builtins bound, unlisted, rfl⟩⟩
    | none =>
      -- Neither then nor now does the frame of the builtins bind the name.
      have unbound : builtins.contains name = false := by
        rw [← h.root name, Bindings.contains, root]
        rfl
      exact absurd (root.trans (Bindings.get?_eq_none unbound).symm) differs

end Session

/-! ### Scripts -/

theorem Script.grounded_run {s s' : Script} {fuel : Nat} {steps : List Step}
    {answers : List Answer} (h : s.session.Grounded)
    (run : s.run fuel steps = some (answers, s')) : s'.session.Grounded := by
  induction steps generalizing s answers with
  | nil =>
    cases run
    exact h
  | cons step rest ih =>
    obtain ⟨answer, s₁, others, taken, later, -⟩ := exists_of_run_cons run
    exact ih (h.follows (fun w => eq_of_work?) (follows_of_step taken)) later

/-- Whatever a new session has run, what it lists as its globals is what is looked up, and a name
that is not looked up as at the start is listed with what is looked up. Only a builtin may be
missing, if it was assigned a value and the global frame does not bind it. -/
theorem globals_reported {host : Host} {limit : Option Nat} {fuel : Nat} {steps : List Step}
    {answers : List Answer} {s : Script}
    (run : (Script.start (.new host limit)).run fuel steps = some (answers, s)) :
    (∀ name v, (name, v) ∈ s.session.globals → s.session.global? name = some v) ∧
    ∀ name, s.session.global? name ≠ (Session.new host limit).global? name →
      ∃ v, s.session.global? name = some v ∧ ((name, v) ∈ s.session.globals ∨
        (∃ b : Builtin, b.name = name) ∧ (∀ w, (name, w) ∉ s.session.globals) ∧
          (s.session.store.frame 0).get? name = some v) := by
  have grounded : s.session.Grounded :=
    Script.grounded_run (s := .start (.new host limit)) (Session.grounded_new host limit) run
  refine ⟨fun name v mem => ?_, fun name differs => ?_⟩
  · rw [grounded.global?_eq, grounded.mem_globals_iff.mp mem]
    rfl
  · rw [Session.global?_new] at differs
    exact grounded.reported differs

/-- A function changes a global and a builtin, and another builtin is declared again. -/
theorem globals_reported_shadowed :
    ∃ answers s, (Script.start (.new Host.first none)).run 30
        [.eval "var a; fun f() { a = true; sqrt = a; } f(); var max = false;",
          .expression "max = a"] = some (answers, s) ∧
      (s.session.globals.map Prod.fst = ["a", "f", "max"] ∧
        s.session.global? "sqrt" = some (.bool true) ∧
        s.session.global? "max" = some (.bool true)) ∧
      (∀ name v, (name, v) ∈ s.session.globals → s.session.global? name = some v) ∧
      ∀ name, s.session.global? name ≠ (Session.new Host.first none).global? name →
        ∃ v, s.session.global? name = some v ∧ ((name, v) ∈ s.session.globals ∨
          (∃ b : Builtin, b.name = name) ∧ (∀ w, (name, w) ∉ s.session.globals) ∧
            (s.session.store.frame 0).get? name = some v) := by
  have ends : ((Script.start (.new Host.first none)).run 30
      [.eval "var a; fun f() { a = true; sqrt = a; } f(); var max = false;",
        .expression "max = a"]).map (fun r => (r.2.session.globals.map Prod.fst,
          r.2.session.global? "sqrt", r.2.session.global? "max")) =
      some (["a", "f", "max"], some (.bool true), some (.bool true)) := by
    cbv
  obtain ⟨⟨answers, s⟩, run, same⟩ := Option.map_eq_some_iff.mp ends
  obtain ⟨listed, values⟩ := Prod.mk.inj same
  exact ⟨answers, s, run, ⟨listed, Prod.mk.inj values⟩, globals_reported run⟩

/-- A value assigned to a builtin is looked up and not listed. -/
theorem globals_omit_builtin :
    ¬ ∀ (host : Host) (limit : Option Nat) (fuel : Nat) (steps : List Step)
        (answers : List Answer) (s : Script),
      (Script.start (.new host limit)).run fuel steps = some (answers, s) →
      ∀ name, s.session.global? name ≠ (Session.new host limit).global? name →
        ∃ v, s.session.global? name = some v ∧ (name, v) ∈ s.session.globals := by
  intro reported
  have ends : ((Script.start (.new Host.first none)).run 30 [.eval "clock = nil;"]).map
      (fun r => (r.2.session.global? "clock", r.2.session.globals)) = some (some .nil, []) := by
    cbv
  obtain ⟨⟨answers, s⟩, run, same⟩ := Option.map_eq_some_iff.mp ends
  obtain ⟨changed, listed⟩ := Prod.mk.inj same
  have differs : s.session.global? "clock" ≠ (Session.new Host.first none).global? "clock" := by
    rw [changed]
    intro same
    cases same
  obtain ⟨v, -, mem⟩ := reported _ _ _ _ _ _ run "clock" differs
  rw [listed] at mem
  cases mem

end Lox
