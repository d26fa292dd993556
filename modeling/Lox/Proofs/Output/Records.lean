import Lox.Proofs.Output.Silent
import Lox.Proofs.Output.Trace

/-!
What a trace says about the run, with and without a limit on the output.

A computation and a traced one go together (`Records`) if the trace changes nothing, its lines are
what is written, and under a limit the computation ends at the first line of the trace that does not
fit. The main statement is `evalRecords`, one induction on the fuel for all the parts of the
evaluator; operations that print nothing need no trace.
-/

namespace Lox

/-! ### Lines and bytes -/

theorem Store.output_write_unlimited {s : Store} (unlimited : s.output.limit = none)
    (text : String) : (s.write text).output = ⟨s.output.bytes ++ text.toUTF8, none⟩ := by
  unfold Store.write Output.write
  rw [unlimited]

theorem extract_of_size_le {bytes : ByteArray} {limit : Nat} (h : bytes.size ≤ limit) :
    bytes.extract 0 limit = bytes := by
  have whole := @ByteArray.extract_zero_max_size bytes limit
  rwa [Nat.max_eq_left h] at whole

/-- What fits is written in the same way under a limit. -/
theorem Store.limited_write {s : Store} {limit : Nat} {text : String}
    (unlimited : s.output.limit = none) (room : s.output.bytes.size + text.toUTF8.size ≤ limit) :
    (s.limited limit).write text = (s.write text).limited limit := by
  have whole : (s.output.bytes ++ text.toUTF8).extract 0 limit = s.output.bytes ++ text.toUTF8 :=
    extract_of_size_le (by rwa [ByteArray.size_append])
  unfold Store.limited
  rw [Store.output_write_unlimited unlimited]
  unfold Store.write Store.withOutput Output.write
  dsimp only
  rw [whole]

/-- From the bytes written before to those written after, the lines are added one by one, and each
is printed when those before it have been written. -/
inductive Accounts : ByteArray → List Printed → ByteArray → Prop where
  | nil {bytes} : Accounts bytes [] bytes
  | cons {bytes p rest bytes'} : p.before.output = ⟨bytes, none⟩ →
      Accounts (bytes ++ p.line.toUTF8) rest bytes' → Accounts bytes (p :: rest) bytes'

theorem Accounts.append {bytes bytes₁ bytes₂ : ByteArray} {lines lines' : List Printed}
    (h : Accounts bytes lines bytes₁) (h' : Accounts bytes₁ lines' bytes₂) :
    Accounts bytes (lines ++ lines') bytes₂ := by
  induction h with
  | nil => exact h'
  | cons before _ ih => exact .cons before (ih h')

/-- There is no room for the line within the limit. -/
def Printed.overflows (limit : Nat) (p : Printed) : Bool :=
  limit < p.before.output.bytes.size + p.line.toUTF8.size

theorem Accounts.size_le {bytes bytes' : ByteArray} {lines : List Printed} {limit : Nat}
    (h : Accounts bytes lines bytes') (room : bytes.size ≤ limit)
    (fits : ∀ p ∈ lines, p.overflows limit = false) : bytes'.size ≤ limit := by
  induction h with
  | nil => exact room
  | cons before _ ih =>
    obtain ⟨first, others⟩ := List.forall_mem_cons.mp fits
    rw [Printed.overflows, before, decide_eq_false_iff_not] at first
    refine ih ?_ others
    rw [ByteArray.size_append]
    exact Nat.not_lt.mp first

/-- The end of a run under a limit: that of the run without one, or at the first line that does not
fit, when as much of it has been written as there is room for. -/
def cut {α : Type} (limit : Nat) (lines : List Printed) (r : Outcome RuntimeError Store α) :
    Outcome RuntimeError Store α :=
  match lines.find? (Printed.overflows limit) with
  | some p => .error .outputFull ((p.before.limited limit).write p.line)
  | none => r.limited limit

section

variable {α : Type} {limit : Nat} {lines : List Printed} {r : Outcome RuntimeError Store α}

theorem cut_of_overflows {p : Printed} (full : lines.find? (Printed.overflows limit) = some p) :
    cut limit lines r = .error .outputFull ((p.before.limited limit).write p.line) := by
  rw [cut, full]

theorem cut_of_fits (fits : lines.find? (Printed.overflows limit) = none) :
    cut limit lines r = r.limited limit := by
  rw [cut, fits]

theorem cut_append_of_fits (fits : lines.find? (Printed.overflows limit) = none)
    (more : List Printed) : cut limit (lines ++ more) r = cut limit more r := by
  unfold cut
  rw [List.find?_append, fits, Option.none_or]

theorem cut_append_of_overflows {p : Printed}
    (full : lines.find? (Printed.overflows limit) = some p) (more : List Printed) :
    cut limit (lines ++ more) r = .error .outputFull ((p.before.limited limit).write p.line) := by
  unfold cut
  rw [List.find?_append, full, Option.some_or]

end

/-- The bytes of the later store are those of the earlier one and the lines. -/
def Store.Writes (lines : List Printed) (s s' : Store) : Prop :=
  s'.output.limit = none ∧ Accounts s.output.bytes lines s'.output.bytes

/-! ### Runs and their traces -/

/-- The traced computation is the computation with a record of what it prints, and the record tells
how the computation ends under every limit. -/
structure Records {α : Type} (x : Run α) (x' : Traced α) : Prop where
  erases : ∀ s, (x' s).2 = x s
  writes : ∀ s, s.output.limit = none →
    x.Ensures s (fun _ s' => s.Writes (x' s).1 s') (fun _ s' => s.Writes (x' s).1 s')
  cuts : ∀ s limit, s.output.limit = none → s.output.bytes.size ≤ limit → x s ≠ .outOfFuel →
    x (s.limited limit) = cut limit (x' s).1 (x s)

namespace Run

variable {α β : Type} {x y : Run α} {x' y' : Traced α} {f : α → Run β} {f' : α → Traced β}

theorem records_silent (h : Silent x) : Records x (Traced.silent x) where
  erases _ := rfl
  writes s unlimited := by
    refine (h.ensures s).mono ?_ ?_
    all_goals
      intro _ s' same
      exact ⟨same ▸ unlimited, same ▸ .nil⟩
  cuts s limit _ _ _ := by
    have same : x s = (x s).withOutput s.output := h s s.output
    change x (s.withOutput ⟨s.output.bytes, some limit⟩) = (x s).limited limit
    rw [h, same]
    cases x s <;> rfl

theorem records_succeed (a : α) : Records (succeed a) (pure a) := records_silent (silent_succeed a)

theorem records_fail (e : RuntimeError) : Records (fail e : Run α) (Traced.silent (fail e)) :=
  records_silent (silent_fail e)

theorem records_exhausted : Records (exhausted : Run α) (Traced.silent exhausted) :=
  records_silent silent_exhausted

end Run

namespace Records

open Run

variable {α β : Type} {x : Run α} {x' : Traced α} {f' : α → Traced β} {s s₁ : Store}

theorem trace_eq (h : Records x x') (s : Store) : x' s = ((x' s).1, x s) :=
  Prod.ext rfl (h.erases s)

theorem bind_of_ok (h : Records x x') {a : α} (result : x s = .ok a s₁) :
    (x' >>= f') s = ((x' s).1 ++ (f' a s₁).1, (f' a s₁).2) := by
  change Traced.andThen x' f' s = _
  rw [Traced.andThen, h.trace_eq, result]

theorem bind_of_error (h : Records x x') {e : RuntimeError} (result : x s = .error e s₁) :
    (x' >>= f') s = ((x' s).1, .error e s₁) := by
  change Traced.andThen x' f' s = _
  rw [Traced.andThen, h.trace_eq, result]

theorem bind_of_outOfFuel (h : Records x x') (result : x s = .outOfFuel) :
    (x' >>= f') s = ((x' s).1, .outOfFuel) := by
  change Traced.andThen x' f' s = _
  rw [Traced.andThen, h.trace_eq, result]

end Records

namespace Run

variable {α β : Type} {x y : Run α} {x' y' : Traced α} {f : α → Run β} {f' : α → Traced β}

theorem records_bind (first : Records x x') (next : ∀ a, Records (f a) (f' a)) :
    Records (x >>= f) (x' >>= f') where
  erases s := by
    cases result : x s with
    | ok a s₁ => rw [first.bind_of_ok result, bind_of_ok result, (next a).erases]
    | error e s₁ => rw [first.bind_of_error result, bind_of_error result]
    | outOfFuel => rw [first.bind_of_outOfFuel result, bind_of_outOfFuel result]
  writes s unlimited := by
    have before := first.writes s unlimited
    unfold Ensures at before ⊢
    cases result : x s with
    | ok a s₁ =>
      rw [result] at before
      obtain ⟨unlimited₁, account⟩ := before
      rw [first.bind_of_ok result, bind_of_ok result]
      refine ((next a).writes s₁ unlimited₁).mono ?_ ?_
      all_goals exact fun _ s' behind => ⟨behind.1, account.append behind.2⟩
    | error e s₁ =>
      rw [result] at before
      rw [first.bind_of_error result, bind_of_error result]
      exact before
    | outOfFuel =>
      rw [bind_of_outOfFuel result]
      trivial
  cuts s limit unlimited room ends := by
    have limited := first.cuts s limit unlimited room
    cases result : x s with
    | ok a s₁ =>
      obtain ⟨unlimited₁, account⟩ := (first.writes s unlimited).of_ok result
      rw [result] at limited
      rw [bind_of_ok result] at ends
      rw [first.bind_of_ok result, bind_of_ok result]
      cases full : (x' s).1.find? (Printed.overflows limit) with
      | some p =>
        rw [cut_of_overflows full] at limited
        rw [bind_of_error (limited nofun), cut_append_of_overflows full]
      | none =>
        rw [cut_of_fits full] at limited
        rw [bind_of_ok (limited nofun), cut_append_of_fits full]
        have room₁ := account.size_le room (by simpa using full)
        exact (next a).cuts s₁ limit unlimited₁ room₁ ends
    | error e s₁ =>
      rw [result] at limited
      rw [first.bind_of_error result, bind_of_error result]
      cases full : (x' s).1.find? (Printed.overflows limit) with
      | some p =>
        rw [cut_of_overflows full] at limited ⊢
        exact bind_of_error (limited nofun)
      | none =>
        rw [cut_of_fits full] at limited ⊢
        exact bind_of_error (limited nofun)
    | outOfFuel => exact absurd (bind_of_outOfFuel result) ends

theorem records_ite {C : Prop} [Decidable C] (yes : Records x x') (no : Records y y') :
    Records (if C then x else y) (if C then x' else y') := by
  split
  · exact yes
  · exact no

theorem printLine_eq (text : String) (s : Store) :
    printLine text s = if s.output.fits (text ++ "\n") then .ok () (s.write (text ++ "\n"))
      else .error .outputFull (s.write (text ++ "\n")) := rfl

theorem printLine_unlimited {s : Store} (unlimited : s.output.limit = none) (text : String) :
    printLine text s = .ok () (s.write (text ++ "\n")) := by
  rw [printLine_eq, Output.fits, unlimited, if_pos rfl]

theorem records_printLine (text : String) : Records (printLine text) (Traced.printLine text) where
  erases _ := rfl
  writes s unlimited := by
    have output := Store.output_write_unlimited unlimited (text ++ "\n")
    unfold Ensures
    rw [printLine_unlimited unlimited]
    refine ⟨by rw [output], .cons (by rw [← unlimited]) ?_⟩
    rw [output]
    exact .nil
  cuts s limit unlimited room _ := by
    rw [printLine_unlimited unlimited, printLine_eq]
    by_cases full : limit < s.output.bytes.size + (text ++ "\n").toUTF8.size
    · have found : [(⟨s, text ++ "\n"⟩ : Printed)].find? (Printed.overflows limit) = some _ :=
        List.find?_cons_of_pos (decide_eq_true full)
      have stopped : (s.limited limit).output.fits (text ++ "\n") = false :=
        decide_eq_false (Nat.not_le.mpr full)
      rw [stopped]
      exact (cut_of_overflows found).symm
    · have fits : [(⟨s, text ++ "\n"⟩ : Printed)].find? (Printed.overflows limit) = none :=
        List.find?_cons_of_neg (by simpa [Printed.overflows] using full)
      have passed : (s.limited limit).output.fits (text ++ "\n") = true :=
        decide_eq_true (Nat.not_lt.mp full)
      unfold Traced.printLine
      rw [passed, if_pos rfl, Store.limited_write unlimited (Nat.not_lt.mp full), cut_of_fits fits]
      rfl

theorem records_values {eval : Expr → Run Value} {eval' : Expr → Traced Value}
    (h : ∀ e, Records (eval e) (eval' e)) (es : List Expr) :
    Records (values eval es) (Traced.values eval' es) := by
  induction es with
  | nil => exact records_succeed _
  | cons e es ih => exact records_bind (h e) fun v => records_bind ih fun vs => records_succeed _

theorem records_statements {exec : Stmt → Run Flow} {exec' : Stmt → Traced Flow}
    (h : ∀ stmt, Records (exec stmt) (exec' stmt)) (stmts : List Stmt) :
    Records (statements exec stmts) (Traced.statements exec' stmts) := by
  induction stmts with
  | nil => exact records_succeed _
  | cons stmt stmts ih =>
    apply records_bind (h stmt)
    intro flow
    cases flow with
    | normal => exact ih
    | «return» v => exact records_succeed _

theorem records_loop {cond : Run Value} {cond' : Traced Value} {body : Run Flow}
    {body' : Traced Flow} (h : Records cond cond') (h' : Records body body') (fuel : Nat) :
    Records (loop cond body fuel) (Traced.loop cond' body' fuel) := by
  induction fuel with
  | zero => exact records_exhausted
  | succ fuel ih =>
    refine records_bind h fun c => records_ite (records_bind h' fun flow => ?_) (records_succeed _)
    cases flow with
    | normal => exact ih
    | «return» v => exact records_succeed _

end Run

open Run

/-- The parts of the evaluator and their traces. -/
structure EvalRecords (host : Host) (n : Nat) : Prop where
  expr : ∀ scope e, Records (evalExpr host n scope e) (Traced.evalExpr host n scope e)
  call : ∀ callee args, Records (call host n callee args) (Traced.call host n callee args)
  closure : ∀ f args, Records (callClosure host n f args) (Traced.callClosure host n f args)
  exec : ∀ scope stmt, Records (exec host n scope stmt) (Traced.exec host n scope stmt)

namespace EvalRecords

variable {host : Host} {n : Nat}

theorem expr_succ (ih : EvalRecords host n) (scope : Scope) (e : Expr) :
    Records (evalExpr host (n + 1) scope e) (Traced.evalExpr host (n + 1) scope e) := by
  have sub := ih.expr scope
  unfold evalExpr Traced.evalExpr
  cases e with
  | nil | number | bool | string => exact records_succeed _
  | var name => exact records_silent (silent_get _ _)
  | this => exact records_silent (silent_get _ _)
  | super method => exact records_silent (silent_getSuperMethod _ _)
  | unary op operand =>
    exact records_bind (sub operand) fun _ => records_silent (silent_ofExcept _)
  | binary op left right =>
    exact records_bind (sub left) fun _ => records_bind (sub right) fun _ =>
      records_silent (silent_ofExcept _)
  | logic op left right =>
    exact records_bind (sub left) fun l => records_ite (records_succeed l) (sub right)
  | group e => exact sub e
  | assign name value =>
    exact records_bind (sub value) fun v =>
      records_bind (records_silent (silent_assign _ _ _)) fun _ => records_succeed v
  | call callee args =>
    apply records_bind (sub callee)
    intro c
    exact records_bind (records_values sub args) fun vs => ih.call c vs
  | get object name =>
    exact records_bind (sub object) fun _ => records_silent (silent_getProperty _ _)
  | set object name value =>
    exact records_bind (sub object) fun _ => records_bind (sub value) fun v =>
      records_bind (records_silent (silent_setProperty _ _ _)) fun _ => records_succeed v

theorem call_succ (ih : EvalRecords host n) (callee : Value) (args : List Value) :
    Records (Lox.call host (n + 1) callee args) (Traced.call host (n + 1) callee args) := by
  unfold Lox.call Traced.call
  cases callee with
  | function id f =>
    exact records_bind (records_silent (silent_checkArity _ _ _)) fun _ => ih.closure f args
  | native f =>
    apply records_bind (records_silent (silent_checkArity _ _ _))
    intro _
    cases f.body with
    | builtin b => exact records_silent (silent_callBuiltin _ _ _)
    | supplied index => exact records_silent (silent_ofExcept _)
  | cls c =>
    apply records_bind (records_silent (silent_checkArity _ _ _))
    intro _
    apply records_bind (records_silent (silent_change fun _ _ => rfl))
    intro o
    cases c.method? initializerName with
    | none => exact records_succeed _
    | some init =>
      apply records_bind (records_silent (silent_bindMethod _ _))
      intro bound
      exact records_bind (ih.closure bound args) fun _ => records_succeed _
  | _ => exact records_fail _

theorem closure_succ (ih : EvalRecords host n) (f : Closure) (args : List Value) :
    Records (callClosure host (n + 1) f args) (Traced.callClosure host (n + 1) f args) := by
  unfold callClosure Traced.callClosure
  apply records_bind (records_silent (silent_push _ _))
  intro frame
  apply records_bind (records_statements (ih.exec frame) f.decl.body)
  intro flow
  apply records_ite (records_silent (silent_get _ _))
  cases flow with
  | normal => exact records_succeed _
  | «return» v => exact records_succeed _

theorem exec_succ (ih : EvalRecords host n) (scope : Scope) (stmt : Stmt) :
    Records (Lox.exec host (n + 1) scope stmt) (Traced.exec host (n + 1) scope stmt) := by
  have sub := ih.expr scope
  unfold Lox.exec Traced.exec
  cases stmt with
  | nop => exact records_succeed _
  | expr e => exact records_bind (sub e) fun _ => records_succeed _
  | print e =>
    exact records_bind (sub e) fun v =>
      records_bind (records_printLine v.text) fun _ => records_succeed _
  | varDecl name init =>
    exact records_bind (sub init) fun _ =>
      records_bind (records_silent (silent_define _ _ _)) fun _ => records_succeed _
  | funDecl decl =>
    exact records_bind (records_silent (silent_newFunction _)) fun _ =>
      records_bind (records_silent (silent_define _ _ _)) fun _ => records_succeed _
  | classDecl decl =>
    exact records_bind (records_silent (silent_declareClass _ _)) fun _ => records_succeed _
  | block body =>
    exact records_bind (records_silent (silent_push _ _)) fun inner =>
      records_statements (ih.exec inner) body
  | ite cond thenBranch elseBranch =>
    apply records_bind (sub cond)
    intro c
    exact records_ite (ih.exec scope thenBranch) (ih.exec scope elseBranch)
  | «while» cond body => exact records_loop (sub cond) (ih.exec scope body) n
  | «for» init cond incr body => exact ih.exec scope _
  | «return» e => exact records_bind (sub e) fun _ => records_succeed _

end EvalRecords

theorem evalRecords (host : Host) (n : Nat) : EvalRecords host n := by
  induction n with
  | zero => constructor <;> intros <;> exact records_exhausted
  | succ n ih => exact ⟨ih.expr_succ, ih.call_succ, ih.closure_succ, ih.exec_succ⟩

theorem records_execProgram (host : Host) (fuel : Nat) (scope : Scope) (last : Value)
    (stmts : List Stmt) :
    Records (execProgram host fuel scope last stmts)
      (Traced.execProgram host fuel scope last stmts) := by
  have records := evalRecords host fuel
  induction stmts generalizing last with
  | nil => exact records_succeed _
  | cons stmt rest ih =>
    cases stmt with
    | expr e => exact records_bind (records.expr scope e) fun v => ih v
    | _ =>
      apply records_bind (records.exec scope _)
      intro flow
      cases flow with
      | normal => exact ih .nil
      | «return» v => exact records_fail _

end Lox
