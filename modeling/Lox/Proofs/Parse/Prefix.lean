import Lox.Proofs.Parse
import Lox.Proofs.Parse.Budget
import Lox.Proofs.Scan.Front

/-!
Syntax errors and the text behind them.

A program that does not parse fails at some token, and it fails in the same way whatever stands
behind that token, lexical errors included. So a program that parses and is cut off behind one of
its tokens fails at its end only, if it fails at all (`syntaxErrors_prefix`).
-/

namespace Lox

/-- Parsing the text as a program fails with the error while item number `k`, counted from zero, is
the current token: it is the last one asked for, and the error is found there. -/
structure FailsAt (text : String) (k : Nat) (token : Token) (e : SyntaxError) : Prop where
  fails : parseProgram text = .error e
  asked : (Parse.Logged.program (Parse.fuelFor (scan text)) (Parse.start (scan text))).1.asked =
    (scan text).take (k + 1)
  current : (scan text)[k]? = some ⟨e.line, .ok token⟩
  found : e.problem.IsAt token

/-- A token is missing at the end of the text. -/
inductive SyntaxProblem.AtEnd : SyntaxProblem → Prop where
  | unexpectedToken {expected} : AtEnd (.unexpectedToken .eof expected)
  | expectedExpression : AtEnd (.expectedExpression .eof)
  | expectedIdentifier : AtEnd (.expectedIdentifier .eof)

theorem SyntaxProblem.IsAt.atEnd {problem : SyntaxProblem} (h : problem.IsAt .eof)
    (ne : problem ≠ .invalidAssignmentTarget) : problem.AtEnd := by
  cases problem with
  | lexical x => cases h
  | unexpectedToken found expected => exact h ▸ .unexpectedToken
  | invalidAssignmentTarget => exact absurd rfl ne
  | expectedExpression found => exact h ▸ .expectedExpression
  | expectedIdentifier found => exact h ▸ .expectedIdentifier

namespace Parse

/-! ### Fuel -/

theorem Result.finding_eq_error {α : Type} {r : Result α} {h : r ≠ .outOfFuel} {e : SyntaxError} :
    r.finding h = .error e ↔ r = .error e := by
  cases r with
  | ok a c => simp [finding]
  | error e => simp [finding]
  | outOfFuel => exact absurd rfl h

theorem program_of_le {items : List Item} {fuel : Nat} (enough : fuelFor items ≤ fuel) :
    program fuel (start items) = program (fuelFor items) (start items) :=
  extends_program enough _ (ends_program items).ne_outOfFuel

/-- With any fuel at all, an error is the answer. -/
theorem programOfItems_eq_error_of_program {items : List Item} {fuel : Nat} {e : SyntaxError}
    (h : program fuel (start items) = .error e) : programOfItems items = .error e := by
  have more := extends_program (Nat.le_max_left fuel (fuelFor items)) (start items) (by simp [h])
  rw [program_of_le (Nat.le_max_right _ _)] at more
  exact Result.finding_eq_error.mpr (more.trans h)

/-! ### Runs over whole texts -/

section

variable {fuel : Nat} {items used behind : List Item} {log : Log} {e : SyntaxError}

theorem snd_logged_program (fuel : Nat) (items : List Item) :
    (Logged.program fuel (start items)).2 = program fuel (start items) :=
  faithful_program.erases ⟨.mark .semicolon, 1, items⟩ rfl

/-- What is behind the items asked for does not change the error. -/
theorem logged_program_append
    (run : Logged.program fuel (start (used ++ behind)) = (log, .error e))
    (asked : log.asked = used) (rest : List Item) :
    Logged.program fuel (start (used ++ rest)) = (log, .error e) :=
  faithful_program.same rfl run asked rest

theorem programOfItems_append
    (run : Logged.program fuel (start (used ++ behind)) = (log, .error e))
    (asked : log.asked = used) (rest : List Item) : programOfItems (used ++ rest) = .error e := by
  have again : program fuel (start (used ++ rest)) = .error e := by
    rw [← snd_logged_program, logged_program_append run asked]
  exact programOfItems_eq_error_of_program again

/-- A run that stops has asked for the items up to the one where the error is found. -/
theorem exists_last_of_logged (closed : ∃ item ∈ items, item.content = .ok .eof)
    (run : Logged.program fuel (start items) = (log, .error e)) :
    ∃ read last behind, log.asked = read ++ [last] ∧ items = read ++ [last] ++ behind ∧
      last.Causes e := by
  have done : Accounts true ⟨.mark .semicolon, 1, items⟩ (Logged.program fuel (start items)) :=
    faithful_program.accounts _ rfl (.inr closed)
  rw [run] at done
  obtain ⟨⟨behind, front⟩, read, last, asked, -, causes⟩ :=
    done.exists_last (by simp) (Logged.asked_ne_nil run)
  exact ⟨read, last, behind, asked, asked ▸ front.symm, causes e rfl⟩

/-- Where the items in front of the end are those of a program, a run that stops has gone up to the
end. -/
theorem asked_of_cutOff {found more : List Item} {line : Nat} {tree : List Stmt}
    (accepted : programOfItems (found ++ more) = .ok tree)
    (run : Logged.program fuel (start (found ++ [⟨line, .ok .eof⟩])) = (log, .error e)) :
    log.asked = found ++ [⟨line, .ok .eof⟩] := by
  obtain ⟨read, last, behind, asked, eq, -⟩ :=
    exists_last_of_logged ⟨_, List.mem_append_right _ List.mem_cons_self, rfl⟩ run
  rw [asked, eq]
  rcases List.eq_nil_or_concat behind with rfl | ⟨rest, final, rfl⟩
  · rw [List.append_nil]
  · -- Short of the end the program would fail as well.
    rw [List.concat_eq_append, ← List.append_assoc] at eq
    obtain ⟨rfl, -⟩ := List.append_inj' eq rfl
    rw [List.append_assoc] at run
    have failed := programOfItems_append run asked (rest ++ more)
    rw [← List.append_assoc, accepted] at failed
    cases failed

/-- Where an invalid target is found at the last item, the items before it rule out a program. -/
theorem program_ne_ok_of_logged {l : Nat}
    (run : Logged.program fuel (start items) = (log, .error ⟨l, .invalidAssignmentTarget⟩))
    (asked : log.asked = items) (rest : List Item) (tree : List Stmt) (c : Cursor) :
    program fuel (start (items.dropLast ++ rest)) ≠ .ok tree c := by
  rw [← List.append_nil items] at run
  rw [← snd_logged_program]
  exact (faithful_program.doomed rfl run asked).2 rest tree c

/-- An invalid target is not found at the end only: a text with it is not part of a program. -/
theorem ne_invalidAssignmentTarget_of_cutOff {found more : List Item} {line : Nat}
    {tree : List Stmt} (accepted : programOfItems (found ++ more) = .ok tree)
    (failed : programOfItems (found ++ [⟨line, .ok .eof⟩]) = .error e) :
    e.problem ≠ .invalidAssignmentTarget := by
  rcases e with ⟨l, problem⟩
  rintro rfl
  obtain ⟨c, ok⟩ := Result.finding_eq_ok.mp accepted
  have error := Result.finding_eq_error.mp failed
  -- The two runs are compared with fuel that is enough for both.
  obtain ⟨fuel, enough, enough'⟩ : ∃ fuel, fuelFor (found ++ more) ≤ fuel ∧
      fuelFor (found ++ [⟨line, .ok .eof⟩]) ≤ fuel :=
    ⟨max _ _, Nat.le_max_left _ _, Nat.le_max_right _ _⟩
  rw [← program_of_le enough] at ok
  rw [← program_of_le enough', ← snd_logged_program] at error
  rcases run : Logged.program fuel (start (found ++ [⟨line, .ok .eof⟩])) with ⟨log, result⟩
  rw [run] at error
  subst error
  have never := program_ne_ok_of_logged run (asked_of_cutOff accepted run) more tree c
  rw [List.dropLast_concat] at never
  exact never ok

end

end Parse

open Parse

theorem failsAt_of_logged {text : String} {read behind : List Item} {token : Token}
    {e : SyntaxError} (failed : parseProgram text = .error e) (found : e.problem.IsAt token)
    (whole : scan text = read ++ [⟨e.line, .ok token⟩] ++ behind)
    (asked : (Logged.program (fuelFor (scan text)) (start (scan text))).1.asked =
      read ++ [⟨e.line, .ok token⟩]) : FailsAt text read.length token e where
  fails := failed
  asked := by
    rw [asked, whole, List.take_left' (by simp)]
  current := by
    rw [whole]
    simp
  found := found

/-- The logged run of a text that does not parse. -/
theorem exists_logged_of_parseProgram {text : String} {e : SyntaxError}
    (failed : parseProgram text = .error e) :
    ∃ log, Logged.program (fuelFor (scan text)) (start (scan text)) = (log, .error e) := by
  refine ⟨_, Prod.ext rfl ?_⟩
  exact (snd_logged_program _ _).trans (Result.finding_eq_error.mp failed)

theorem exists_failsAt {text : String} {e : SyntaxError} (failed : parseProgram text = .error e)
    (syntactic : ∀ x, e.problem ≠ .lexical x) : ∃ k token, FailsAt text k token e := by
  obtain ⟨log, run⟩ := exists_logged_of_parseProgram failed
  obtain ⟨read, last, behind, asked, whole, causes⟩ :=
    exists_last_of_logged (exists_eof_scan text) run
  cases causes with
  | @token line token problem found =>
    exact ⟨_, token, failsAt_of_logged failed found whole (by rw [run]; exact asked)⟩
  | lexical => exact absurd rfl (syntactic _)

/-- The items behind the one at which a program fails do not matter. -/
theorem FailsAt.parseProgram_eq_error {text other : String} {k : Nat} {token : Token}
    {e : SyntaxError} (h : FailsAt text k token e)
    (same : (scan other).take (k + 1) = (scan text).take (k + 1)) :
    parseProgram other = .error e := by
  obtain ⟨log, run⟩ := exists_logged_of_parseProgram h.fails
  have asked := h.asked
  rw [run] at asked
  have front : log.asked <+: scan text := asked ▸ List.take_prefix _ _
  obtain ⟨behind, whole⟩ := front
  rw [← whole] at run
  have again := programOfItems_append run rfl ((scan other).drop (k + 1))
  rwa [asked, ← same, List.take_append_drop] at again

/-- A program that is cut off behind one of its lexemes fails at its end, if it fails. -/
theorem failsAt_eof_of_lexemes {front back : String} {tree : List Stmt} {e : SyntaxError}
    (lexemes : Scan.Lexemes front.toList back.toList)
    (accepted : parseProgram (front ++ back) = .ok tree) (failed : parseProgram front = .error e) :
    ∃ k, FailsAt front k .eof e ∧ e.problem.AtEnd := by
  obtain ⟨found, more, line, whole, cutOff⟩ := scan_of_lexemes lexemes
  obtain ⟨log, run⟩ := exists_logged_of_parseProgram failed
  obtain ⟨read, last, behind, asked, -, causes⟩ :=
    exists_last_of_logged (exists_eof_scan front) run
  have accepted' : programOfItems (found ++ more) = .ok tree := whole ▸ accepted
  have everything : log.asked = found ++ [⟨line, .ok .eof⟩] := by
    rw [cutOff] at run
    exact asked_of_cutOff accepted' run
  obtain ⟨rfl, same⟩ := List.append_inj' (asked.symm.trans everything) rfl
  cases same
  cases causes with
  | token isAt =>
    have failed' : programOfItems (scan front) = .error _ := failed
    rw [cutOff] at failed'
    have ends : scan front = read ++ [⟨line, .ok .eof⟩] ++ [] := by
      rw [List.append_nil]
      exact cutOff
    refine ⟨read.length, failsAt_of_logged failed isAt ends (by rw [run]; exact everything), ?_⟩
    exact isAt.atEnd (ne_invalidAssignmentTarget_of_cutOff accepted' failed')

/-- Every error of a program that is not lexical is found at one of its items, the current token,
and with the items up to there every text fails with the same error. A program that parses and is
cut off behind one of its lexemes fails at its end, if it fails, where a token is missing. -/
theorem syntaxErrors_prefix (text : String) :
    (∀ e, parseProgram text = .error e → (∀ x, e.problem ≠ .lexical x) →
      ∃ k token, FailsAt text k token e) ∧
    (∀ k token e other, FailsAt text k token e →
      (scan other).take (k + 1) = (scan text).take (k + 1) → parseProgram other = .error e) ∧
    (∀ front back tree e, text = front ++ back → Scan.Lexemes front.toList back.toList →
      parseProgram text = .ok tree → parseProgram front = .error e →
      ∃ k, FailsAt front k .eof e ∧ e.problem.AtEnd) := by
  refine ⟨fun e failed syntactic => exists_failsAt failed syntactic,
    fun k token e other fails same => fails.parseProgram_eq_error same, ?_⟩
  rintro front back tree e rfl lexemes accepted failed
  exact failsAt_eof_of_lexemes lexemes accepted failed

/-- The semicolon is missing in front of `b`, and an open string behind it does not matter; `a;` is
a program, and `a` fails at its end. -/
theorem syntaxErrors_prefix_missingSemicolon :
    (∃ k token, FailsAt "print a b;" k token
      ⟨1, .unexpectedToken (.identifier "b") (.mark .semicolon)⟩) ∧
    parseProgram "print a b \"" =
      .error ⟨1, .unexpectedToken (.identifier "b") (.mark .semicolon)⟩ ∧
    ∃ k, FailsAt "a" k .eof ⟨1, .unexpectedToken .eof (.mark .semicolon)⟩ ∧
      (SyntaxProblem.unexpectedToken .eof (.mark .semicolon)).AtEnd := by
  obtain ⟨fails, same, -⟩ := syntaxErrors_prefix "print a b;"
  obtain ⟨-, -, cutOff⟩ := syntaxErrors_prefix "a;"
  have items : scan "print a b;" =
      [⟨1, .ok (.keyword .print)⟩, ⟨1, .ok (.identifier "a")⟩, ⟨1, .ok (.identifier "b")⟩,
        ⟨1, .ok (.mark .semicolon)⟩, ⟨1, .ok .eof⟩] := by cbv
  have failed : parseProgram "print a b;" =
      .error ⟨1, .unexpectedToken (.identifier "b") (.mark .semicolon)⟩ := by cbv
  obtain ⟨k, token, failsAt⟩ := fails _ failed (by simp)
  obtain rfl : Token.identifier "b" = token := failsAt.found
  have whole : Scan.Lexemes "a".toList ";".toList := by
    have lexeme : Scan.Lexeme "a".toList (Token.ofWord "a") :=
      Scan.lexeme_ofWord ⟨'a', [], rfl, rfl, by simp⟩
    have cut : Scan.Cut "a".toList (.ok (Token.ofWord "a")) ";".toList :=
      Scan.cut_of_lexeme lexeme rfl (by rfl : Scan.piece 1 'a' [';'] = _)
    exact .cons .nil (Scan.startsPiece_cons (by decide) rfl (by decide)) cut .nil
  refine ⟨⟨k, _, failsAt⟩, ?_, cutOff "a" ";" _ _ rfl whole (by cbv) (by cbv)⟩
  have second : k = 2 := by
    have current := failsAt.current
    rw [items] at current
    rcases k with _ | _ | _ | _ | _ | k <;> simp at current ⊢
  subst second
  exact same 2 _ _ _ failsAt (by cbv)

end Lox
