import Lox.Proofs.Desugar
import Lox.Proofs.Session.Concatenation

/-!
Evaluating an expression and running it as a statement.

An expression has its own way through the three phases: its text is parsed up to the end, its rules
are those of code outside all functions and classes, and its value is the result. With a line end
and a semicolon behind it the same text is a program, of which it is the only statement. Both ways
agree in whatever comes out (`evalExpression_eq_eval`): the semicolon behind the expression is
nothing that the end of the text would not be, and the line end keeps it out of a comment.
-/

namespace Lox

open Grammar Run

/-! ### Parsing -/

theorem Grammar.declarations_expr_iff {toks : List Token} {e : Expr} :
    Declarations toks [.expr e] ↔
      ∃ front, toks = front ++ [.mark .semicolon] ∧ Expression .expression front e := by
  constructor
  · rintro (_ | ⟨declared, ended⟩)
    cases ended
    cases declared with
    | var other => cases other
    | statement stmt =>
      cases stmt with
      | expr written =>
        cases written with
        | mk derived => exact ⟨_, List.append_nil _, derived⟩
  · rintro ⟨front, rfl, derived⟩
    have declared := Declarations.cons (.statement (.expr (.mk derived))) .nil
    rwa [List.append_nil] at declared

theorem lexes_semicolon : Scan.Lexes [';'] [.mark .semicolon] := .cons rfl rfl (.nil rfl)

/-- The tokens of a text with a line end and a semicolon behind it. -/
theorem tokens_scan_semicolon_eq_ok {text : String} {toks : List Token} :
    Item.tokens (scan (text ++ "\n" ++ ";")) = .ok toks ↔
      ∃ front, toks = front ++ [.mark .semicolon] ∧ Item.tokens (scan text) = .ok front := by
  have shape : (text ++ "\n" ++ ";").toList = text.toList ++ '\n' :: [';'] := by simp
  simp only [tokens_scan_eq_ok, shape]
  constructor
  · intro lexed
    obtain ⟨front, behind, rfl, first, second⟩ := lexed.of_append (by decide)
    obtain rfl := second.unique lexes_semicolon
    exact ⟨front, rfl, first⟩
  · rintro ⟨front, rfl, lexed⟩
    exact lexed.append lexes_semicolon

/-- A text is an expression exactly if it is an expression statement with a semicolon behind it. -/
theorem parseExpression_eq_ok_iff {text : String} {e : Expr} :
    parseExpression text = .ok e ↔ parseProgram (text ++ "\n" ++ ";") = .ok [.expr e] := by
  unfold parseExpression parseProgram
  simp only [expressionOfItems_eq_ok, programOfItems_eq_ok, tokens_scan_semicolon_eq_ok,
    declarations_expr_iff]
  constructor
  · rintro ⟨front, scanned, derived⟩
    exact ⟨_, ⟨front, rfl, scanned⟩, front, rfl, derived⟩
  · rintro ⟨_, ⟨front, rfl, scanned⟩, front', same, derived⟩
    obtain rfl := List.append_cancel_right same
    exact ⟨front, scanned, derived⟩

/-! ### Checking and running -/

theorem Program.check_expr (e : Expr) : (Program.ofStmts [.expr e]).check = e.check := by
  change (do Check.expr .none e; .ok ()) = Check.expr .none e
  cases Check.expr .none e <;> rfl

/-- The result of an expression statement is the value of the expression. -/
theorem execProgram_expr (host : Host) (fuel : Nat) (scope : Scope) (last : Value) (e : Expr) :
    execProgram host fuel scope last [.expr e] = evalExpr host fuel scope e := by
  funext s
  change andThen (evalExpr host fuel scope e) (fun v => execProgram host fuel scope v []) s = _
  unfold andThen
  cases evalExpr host fuel scope e s <;> rfl

theorem Session.evalExpression_of_parsed {text : String} {e : Expr}
    (parsed : parseExpression text = .ok e) (fuel : Nat) (s : Session) :
    s.evalExpression fuel text = s.eval fuel (text ++ "\n" ++ ";") := by
  unfold evalExpression eval parse
  rw [parsed, parseExpression_eq_ok_iff.mp parsed]
  dsimp only
  unfold run
  rw [Program.check_expr]
  cases e.check with
  | error e => rfl
  | ok u =>
    exact congrArg s.perform (execProgram_expr s.host fuel s.scope .nil e).symm

/-- The two ways of evaluating an expression agree: a text is parsed as an expression exactly if it
is parsed as the only statement of a program, with a line end and a semicolon behind it, and then
both end in the same way in every session, with the same fuel. -/
theorem evalExpression_eq_eval (text : String) :
    (∀ e, parseExpression text = .ok e ↔ parseProgram (text ++ "\n" ++ ";") = .ok [.expr e]) ∧
      ∀ e, parseExpression text = .ok e → ∀ (fuel : Nat) (s : Session),
        s.evalExpression fuel text = s.eval fuel (text ++ "\n" ++ ";") :=
  ⟨fun _ => parseExpression_eq_ok_iff, fun _ parsed => Session.evalExpression_of_parsed parsed⟩

/-- A comment stands behind the expression, and the semicolon is none of it. -/
theorem evalExpression_eq_eval_comment :
    parseExpression "a = nil // a" = .ok (.assign "a" .nil) ∧
      (Session.withGlobals Host.first none [("a", .bool true)]).evalExpression 2 "a = nil // a" =
        (Session.withGlobals Host.first none [("a", .bool true)]).eval 2
          ("a = nil // a" ++ "\n" ++ ";") := by
  have parsed : parseExpression "a = nil // a" = .ok (.assign "a" .nil) := by cbv
  exact ⟨parsed, (evalExpression_eq_eval "a = nil // a").2 _ parsed 2 _⟩

end Lox
