import Lox.CommandLine
import Lox.Proofs.Check
import Lox.Proofs.Eval.Fuel
import Lox.Proofs.Parse
import Lox.Proofs.Scan

/-!
Running two programs one after the other and running them as one.

A line end between two texts keeps their tokens apart, and the grammar, the rules and the evaluation
of a statement list depend on its parts only. So the whole is a program if both texts are, and its
runs are those of the first text with those of the second behind them. The main statement is
`evaluates_concatenation`, for two texts and for a list of files.
-/

namespace Lox

open Grammar Run

/-! ### Parsing and checking -/

theorem Grammar.declarations_append {toks toks' : List Token} {tree tree' : List Stmt}
    (first : Declarations toks tree) (second : Declarations toks' tree') :
    Declarations (toks ++ toks') (tree ++ tree') := by
  induction tree generalizing toks with
  | nil =>
    cases first
    exact second
  | cons stmt tree ih =>
    cases first with
    | cons stmtDerived treeDerived =>
      rw [List.append_assoc]
      exact .cons stmtDerived (ih treeDerived)

theorem parseProgram_append {a b : String} {tree tree' : List Stmt}
    (first : parseProgram a = .ok tree) (second : parseProgram b = .ok tree') :
    parseProgram (a ++ "\n" ++ b) = .ok (tree ++ tree') := by
  unfold parseProgram at *
  rw [programOfItems_eq_ok] at *
  obtain ⟨toks, scanned, derived⟩ := first
  obtain ⟨toks', scanned', derived'⟩ := second
  exact ⟨toks ++ toks', tokens_scan_append scanned scanned', declarations_append derived derived'⟩

theorem Stmt.desugarAll_append (tree tree' : List Stmt) :
    Stmt.desugarAll (tree ++ tree') = Stmt.desugarAll tree ++ Stmt.desugarAll tree' := by
  rw [desugarAll_eq_map, desugarAll_eq_map, desugarAll_eq_map, List.map_append]

/-- A text is a program that keeps the rules. -/
structure Accepts (text : String) (tree : List Stmt) : Prop where
  parsed : parseProgram text = .ok tree
  checked : (Program.ofStmts tree).check = .ok ()

theorem Accepts.append {a b : String} {tree tree' : List Stmt} (first : Accepts a tree)
    (second : Accepts b tree') : Accepts (a ++ "\n" ++ b) (tree ++ tree') := by
  refine ⟨parseProgram_append first.parsed second.parsed, ?_⟩
  unfold Program.check Program.ofStmts
  rw [Stmt.desugarAll_append]
  exact Check.stmts_append_eq_ok.mpr ⟨first.checked, second.checked⟩

theorem accepts_empty : Accepts "" [] := by
  refine ⟨?_, rfl⟩
  unfold parseProgram
  rw [programOfItems_eq_ok]
  exact ⟨[], tokens_scan_eq_ok.mpr (.nil rfl), .nil⟩

/-! ### Running -/

section

variable {α β : Type}

theorem bind_assoc_apply {γ : Type} (x : Run α) (f : α → Run β) (g : β → Run γ) :
    (x >>= f) >>= g = x >>= fun a => f a >>= g := by
  funext s
  change andThen (andThen x f) g s = andThen x (fun a => andThen (f a) g) s
  unfold andThen
  cases x s <;> rfl

theorem execProgram_append (host : Host) (fuel : Nat) (scope : Scope) (last : Value)
    (tree tree' : List Stmt) :
    execProgram host fuel scope last (tree ++ tree') =
      execProgram host fuel scope last tree >>= fun v => execProgram host fuel scope v tree' := by
  induction tree generalizing last with
  | nil => rfl
  | cons stmt rest ih =>
    rw [List.cons_append]
    cases stmt with
    | expr e =>
      simp only [execProgram]
      rw [bind_assoc_apply]
      simp only [ih]
    | _ =>
      simp only [execProgram]
      rw [bind_assoc_apply]
      congr 1
      funext flow
      cases flow with
      | normal => exact ih .nil
      | «return» v => rfl

/-- The result so far is lost where a statement follows. -/
theorem execProgram_last (host : Host) (fuel : Nat) (scope : Scope) (last last' : Value)
    {tree : List Stmt} (ne : tree ≠ []) :
    execProgram host fuel scope last tree = execProgram host fuel scope last' tree := by
  cases tree with
  | nil => exact absurd rfl ne
  | cons stmt rest => cases stmt <;> rfl

namespace Session

theorem perform_eq (s : Session) (x : Run α) :
    s.perform x = match x s.store with
      | .ok a store => .ok a { s with store }
      | .error e store => .error (.runtime e) { s with store }
      | .outOfFuel => .outOfFuel := rfl

theorem perform_bind (s : Session) (x : Run α) (f : α → Run β) :
    s.perform (x >>= f) = match s.perform x with
      | .ok a s' => s'.perform (f a)
      | .error e s' => .error e s'
      | .outOfFuel => .outOfFuel := by
  change s.perform (andThen x f) = _
  rw [perform_eq, perform_eq]
  unfold andThen
  cases x s.store <;> rfl

/-- Running a program changes neither the host nor the global scope. -/
theorem perform_ok {s s' : Session} {x : Run α} {a : α} (h : s.perform x = .ok a s') :
    s'.host = s.host ∧ s'.scope = s.scope := by
  rw [perform_eq] at h
  cases result : x s.store with
  | ok b store' =>
    rw [result] at h
    cases h
    exact ⟨rfl, rfl⟩
  | error e store' =>
    rw [result] at h
    cases h
  | outOfFuel =>
    rw [result] at h
    cases h

theorem eval_of_accepts {text : String} {tree : List Stmt} (h : Accepts text tree) (fuel : Nat)
    (s : Session) :
    s.eval fuel text = s.perform (execProgram s.host fuel s.scope .nil (Stmt.desugarAll tree)) := by
  unfold eval parse run
  rw [h.parsed]
  dsimp only
  rw [h.checked]
  rfl

/-- With the same fuel for both, the run of two texts as one is the run of the first, and of the
second from where the first ended. -/
theorem eval_append {a b : String} {tree tree' : List Stmt} (first : Accepts a tree)
    (second : Accepts b tree') (fuel : Nat) (s : Session) :
    s.eval fuel (a ++ "\n" ++ b) = match s.eval fuel a with
      | .ok v s' => if tree' = [] then .ok v s' else s'.eval fuel b
      | .error e s' => .error e s'
      | .outOfFuel => .outOfFuel := by
  rw [eval_of_accepts (first.append second), Stmt.desugarAll_append, execProgram_append,
    perform_bind, eval_of_accepts first]
  cases result : s.perform (execProgram s.host fuel s.scope .nil (Stmt.desugarAll tree)) with
  | ok v s' =>
    obtain ⟨host, scope⟩ := perform_ok result
    dsimp only
    split
    · rename_i empty
      subst empty
      rfl
    · rename_i ne
      have ne' : Stmt.desugarAll tree' ≠ [] := by
        rw [Stmt.desugarAll_eq_map]
        exact mt List.map_eq_nil_iff.mp ne
      rw [eval_of_accepts second, host, scope, execProgram_last _ _ _ v .nil ne']
  | error e s' => rfl
  | outOfFuel => rfl

/-! ### Runs with whatever fuel -/

theorem perform_extends {s : Session} {x y : Run α} (h : Extends x y)
    (ne : s.perform x ≠ .outOfFuel) : s.perform y = s.perform x := by
  rw [perform_eq] at ne
  rw [perform_eq, perform_eq, h s.store]
  intro exhausted
  rw [exhausted] at ne
  exact ne rfl

theorem eval_mono {s : Session} {text : String} {n m : Nat} (le : n ≤ m)
    (ne : s.eval n text ≠ .outOfFuel) : s.eval m text = s.eval n text := by
  unfold eval at ne ⊢
  cases parsed : parse text with
  | error e => rfl
  | ok program =>
    rw [parsed] at ne
    unfold run at ne ⊢
    dsimp only at ne ⊢
    cases checked : program.check with
    | error e => rfl
    | ok u =>
      rw [checked] at ne
      exact perform_extends (extends_execProgram s.host le s.scope .nil program.stmts) ne

/-- The run of a text in a session comes to an end, in the given way. -/
def Evaluates (s : Session) (text : String) (r : Outcome Failure Session Value) : Prop :=
  ∃ fuel, s.eval fuel text = r ∧ r ≠ .outOfFuel

/-- What comes out does not depend on the fuel. -/
theorem Evaluates.unique {s : Session} {text : String} {r r' : Outcome Failure Session Value}
    (h : s.Evaluates text r) (h' : s.Evaluates text r') : r = r' := by
  obtain ⟨n, rfl, ne⟩ := h
  obtain ⟨m, rfl, ne'⟩ := h'
  rw [← eval_mono (Nat.le_max_left n m) ne, eval_mono (Nat.le_max_right n m) ne']

theorem evaluates_append {a b : String} {tree tree' : List Stmt} (first : Accepts a tree)
    (second : Accepts b tree') (s : Session) (r : Outcome Failure Session Value) :
    s.Evaluates (a ++ "\n" ++ b) r ↔
      (∃ e s', s.Evaluates a (.error e s') ∧ r = .error e s') ∨
        ∃ v s', s.Evaluates a (.ok v s') ∧
          if tree' = [] then r = .ok v s' else s'.Evaluates b r := by
  constructor
  · rintro ⟨fuel, rfl, ne⟩
    rw [eval_append first second] at ne ⊢
    cases result : s.eval fuel a with
    | outOfFuel =>
      rw [result] at ne
      exact absurd rfl ne
    | error e s' => exact .inl ⟨e, s', ⟨fuel, result, by simp⟩, rfl⟩
    | ok v s' =>
      rw [result] at ne
      refine .inr ⟨v, s', ⟨fuel, result, by simp⟩, ?_⟩
      dsimp only at ne ⊢
      split
      · rfl
      · rename_i notEmpty
        rw [if_neg notEmpty] at ne
        exact ⟨fuel, rfl, ne⟩
  · rintro (⟨e, s', ⟨fuel, result, -⟩, rfl⟩ | ⟨v, s', ⟨fuel, result, -⟩, rest⟩)
    · refine ⟨fuel, ?_, by simp⟩
      rw [eval_append first second, result]
    · split at rest
      · rename_i empty
        subst rest
        refine ⟨fuel, ?_, by simp⟩
        rw [eval_append first second, result]
        exact if_pos empty
      · rename_i notEmpty
        obtain ⟨fuel', rfl, ne⟩ := rest
        refine ⟨max fuel fuel', ?_, ne⟩
        have enough : s.eval (max fuel fuel') a = .ok v s' := by
          rw [eval_mono (Nat.le_max_left fuel fuel') (by simp [result]), result]
        rw [eval_append first second, enough]
        dsimp only
        rw [if_neg notEmpty, eval_mono (Nat.le_max_right fuel fuel') ne]

end Session

end

/-! ### Files -/

namespace CommandLine

theorem decode_toUTF8 (text : String) : decode text.toUTF8 = .ok text := by
  have valid : String.fromUTF8? text.toUTF8 = some text := by
    simp only [String.fromUTF8?, String.toUTF8_eq_toByteArray, dif_pos text.isValidUTF8]
    rfl
  unfold decode
  rw [valid]

theorem runFile_toUTF8 (fuel : Nat) (path text : String) (s : Session) :
    runFile fuel path (.ok text.toUTF8) s = match s.eval fuel text with
      | .ok _ s' => .ok () s'
      | .error e s' => .error (failureReport path e s') s'
      | .outOfFuel => .outOfFuel := by
  have decoded : ((.ok text.toUTF8 : Except ReadError ByteArray) >>= decode) = .ok text :=
    decode_toUTF8 text
  cases result : s.eval fuel text <;> simp only [runFile, decoded, result]

/-- Two runs that leave the same session behind. If they fail, they fail in the same way, and the
reports differ at most in the path of the file. -/
inductive SameButPath : Outcome String Session Unit → Outcome String Session Unit → Prop where
  | ok (s : Session) : SameButPath (.ok () s) (.ok () s)
  | error (path path' : String) (e : Failure) (s : Session) :
      SameButPath (.error (failureReport path e s) s) (.error (failureReport path' e s) s)
  | outOfFuel : SameButPath .outOfFuel .outOfFuel

/-- Texts that are programs are one program when they are joined by line ends. -/
theorem accepts_intercalate {files : List (String × String)}
    (h : ∀ file ∈ files, ∃ tree, Accepts file.2 tree) :
    ∃ tree, Accepts ("\n".intercalate (files.map Prod.snd)) tree := by
  induction files with
  | nil => exact ⟨[], accepts_empty⟩
  | cons file rest ih =>
    obtain ⟨tree, first⟩ := h file (by simp)
    obtain ⟨tree', more⟩ := ih fun file mem => h file (by simp [mem])
    cases rest with
    | nil => exact ⟨tree, by simpa using first⟩
    | cons second rest =>
      refine ⟨tree ++ tree', ?_⟩
      rw [List.map_cons, List.map_cons, String.intercalate_cons_cons]
      exact first.append more

theorem runFile_append {a b : String} {tree tree' : List Stmt} (first : Accepts a tree)
    (second : Accepts b tree') (fuel : Nat) (path : String) (s : Session) :
    runFile fuel path (.ok (a ++ "\n" ++ b).toUTF8) s =
      match runFile fuel path (.ok a.toUTF8) s with
      | .ok () s' => runFile fuel path (.ok b.toUTF8) s'
      | r => r := by
  rw [runFile_toUTF8, runFile_toUTF8, Session.eval_append first second]
  cases s.eval fuel a with
  | ok v s' =>
    dsimp only
    rw [runFile_toUTF8]
    by_cases empty : tree' = []
    · -- Nothing is run: the session stays as it is.
      subst empty
      rw [if_pos rfl, Session.eval_of_accepts second]
      rfl
    · rw [if_neg empty]
  | error e s' => rfl
  | outOfFuel => rfl

theorem runFiles_intercalate {files : List (String × String)}
    (h : ∀ file ∈ files, ∃ tree, Accepts file.2 tree) (fuel : Nat) (path : String) (s : Session) :
    SameButPath (runFiles fuel s (files.map fun file => (file.1, .ok file.2.toUTF8)))
      (runFile fuel path (.ok ("\n".intercalate (files.map Prod.snd)).toUTF8) s) := by
  induction files generalizing s with
  | nil =>
    rw [List.map_nil, List.map_nil, String.intercalate_nil, runFile_toUTF8,
      Session.eval_of_accepts accepts_empty]
    exact .ok s
  | cons file rest ih =>
    obtain ⟨tree, first⟩ := h file (by simp)
    have others : ∀ file ∈ rest, ∃ tree, Accepts file.2 tree :=
      fun file mem => h file (by simp [mem])
    rw [List.map_cons, runFiles, runFile_toUTF8]
    cases rest with
    | nil =>
      rw [List.map_cons, List.map_nil, List.map_nil, String.intercalate_singleton, runFile_toUTF8]
      cases s.eval fuel file.2 with
      | ok v s' => exact .ok s'
      | error e s' => exact .error file.1 path e s'
      | outOfFuel => exact .outOfFuel
    | cons second rest =>
      obtain ⟨tree', more⟩ := accepts_intercalate others
      have joined : "\n".intercalate ((file :: second :: rest).map Prod.snd) =
          file.2 ++ "\n" ++ "\n".intercalate ((second :: rest).map Prod.snd) :=
        String.intercalate_cons_cons
      rw [joined, runFile_append first more, runFile_toUTF8]
      cases s.eval fuel file.2 with
      | ok v s' => exact ih others s'
      | error e s' => exact .error file.1 path e s'
      | outOfFuel => exact .outOfFuel

end CommandLine

/-- Two texts that are programs are one program when a line end stands between them, and from every
session its run ends as the runs of the two texts one after the other: in the error of the first, or
where the second ends, or with the result of the first if the second has no statement. Accordingly
the files of a session may be joined into one. -/
theorem evaluates_concatenation :
    (∀ a b tree tree', Accepts a tree → Accepts b tree' →
      Accepts (a ++ "\n" ++ b) (tree ++ tree') ∧
      ∀ (s : Session) (r : Outcome Failure Session Value), s.Evaluates (a ++ "\n" ++ b) r ↔
        (∃ e s', s.Evaluates a (.error e s') ∧ r = .error e s') ∨
          ∃ v s', s.Evaluates a (.ok v s') ∧
            if tree' = [] then r = .ok v s' else s'.Evaluates b r) ∧
    (∀ files : List (String × String), (∀ file ∈ files, ∃ tree, Accepts file.2 tree) →
      ∀ (fuel : Nat) (path : String) (s : Session), CommandLine.SameButPath
        (CommandLine.runFiles fuel s (files.map fun file => (file.1, .ok file.2.toUTF8)))
        (CommandLine.runFile fuel path
          (.ok ("\n".intercalate (files.map Prod.snd)).toUTF8) s)) := by
  constructor
  · intro a b tree tree' first second
    exact ⟨first.append second, Session.evaluates_append first second⟩
  · intro files h
    exact CommandLine.runFiles_intercalate h

theorem Grammar.expression_of_atom {token : Token} {e : Expr} (h : Atom token e) :
    Expression .expression [token] e := by
  have unary : Expression .unary [token] e := .tighter .unary (.tighter .call (.atom h))
  have equality : Expression .equality [token] e :=
    .tighter .equality (.tighter .comparison (.tighter .term (.tighter .factor unary)))
  exact .tighter .expression (.tighter .logicOr (.tighter .logicAnd equality))

theorem accepts_atom {text : String} {token : Token} {e : Expr} (h : Atom token e)
    (lexed : Scan.Lexes text.toList [token, .mark .semicolon])
    (checked : (Program.ofStmts [.expr e]).check = .ok ()) : Accepts text [.expr e] := by
  refine ⟨?_, checked⟩
  unfold parseProgram
  rw [programOfItems_eq_ok]
  have statement : Declaration [token, .mark .semicolon] (.expr e) :=
    .statement (.expr (.mk (expression_of_atom h)))
  exact ⟨_, tokens_scan_eq_ok.mpr lexed, .cons statement .nil⟩

/-- A comment at the end of the first text does not reach into the second. -/
theorem evaluates_concatenation_comment :
    Accepts "nil; //" [.expr .nil] ∧ Accepts "true;" [.expr (.bool true)] ∧
      Accepts ("nil; //" ++ "\n" ++ "true;") [.expr .nil, .expr (.bool true)] := by
  have first : Accepts "nil; //" [.expr .nil] :=
    accepts_atom .nil (.cons rfl rfl (.cons rfl rfl (.nil rfl))) rfl
  have second : Accepts "true;" [.expr (.bool true)] :=
    accepts_atom .true (.cons rfl rfl (.cons rfl rfl (.nil rfl))) rfl
  exact ⟨first, second, (evaluates_concatenation.1 _ _ _ _ first second).1⟩

end Lox
