import Lox.Proofs.Parse.Complete
import Lox.Proofs.Parse.Sound

/-!
The parser accepts exactly the grammar.

Whether a list of items is a program depends on its tokens only, so that the grammar speaks for the
parser in whatever follows (`programOfItems_eq_ok`, `expressionOfItems_eq_ok`). The main statement
is `parse_ok_iff_derived`.
-/

namespace Lox

open Grammar Parse

theorem Parse.Result.finding_eq_ok {α : Type} {r : Parse.Result α} {h : r ≠ .outOfFuel} {a : α} :
    r.finding h = .ok a ↔ ∃ c, r = .ok a c := by
  cases r with
  | ok a c => simp [finding]
  | error e => simp [finding]
  | outOfFuel => exact absurd rfl h

theorem programOfItems_eq_ok {items : List Item} {tree : List Stmt} :
    programOfItems items = .ok tree ↔
      ∃ toks, Item.tokens items = .ok toks ∧ Declarations toks tree := by
  unfold programOfItems
  rw [Result.finding_eq_ok]
  constructor
  · rintro ⟨c, h⟩
    exact sound_program h
  · rintro ⟨toks, scanned, derived⟩
    exact complete_program scanned derived

theorem expressionOfItems_eq_ok {items : List Item} {e : Expr} :
    expressionOfItems items = .ok e ↔
      ∃ toks, Item.tokens items = .ok toks ∧ Expression .expression toks e := by
  unfold expressionOfItems
  rw [Result.finding_eq_ok]
  constructor
  · rintro ⟨c, h⟩
    exact sound_wholeExpression h
  · rintro ⟨toks, scanned, derived⟩
    exact complete_wholeExpression scanned derived

/-- A text is a program exactly if it has no lexical error and its tokens are derived as
declarations, and its tree is the tree of that derivation. The same holds of a text that is a single
expression. -/
theorem parse_ok_iff_derived (text : String) :
    (∀ tree, parseProgram text = .ok tree ↔
      ∃ toks, Item.tokens (scan text) = .ok toks ∧ Declarations toks tree) ∧
    (∀ e, parseExpression text = .ok e ↔
      ∃ toks, Item.tokens (scan text) = .ok toks ∧ Expression .expression toks e) :=
  ⟨fun _ => programOfItems_eq_ok, fun _ => expressionOfItems_eq_ok⟩

/-- The grammar is not ambiguous: the tokens of a text are derived as one program at most. -/
theorem declarations_unique {items : List Item} {toks : List Token} {tree tree' : List Stmt}
    (scanned : Item.tokens items = .ok toks) (h : Declarations toks tree)
    (h' : Declarations toks tree') : tree = tree' := by
  have parsed := programOfItems_eq_ok.mpr ⟨toks, scanned, h⟩
  rw [programOfItems_eq_ok.mpr ⟨toks, scanned, h'⟩] at parsed
  cases parsed
  rfl

end Lox
