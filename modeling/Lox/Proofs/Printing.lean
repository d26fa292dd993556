import Lox.Proofs.Check.Reserved
import Lox.Proofs.Parse
import Lox.Proofs.Printing.Derived
import Lox.Proofs.Printing.Text
import Lox.Proofs.Unmentioned

/-!
Trees and texts.

A printable tree is the tree of its own text, the words of the tree with blanks between them, and
there are no other trees of texts, except that a literal may be so large that it denotes the
infinity. No text has a reserved word where a name is bound, so none is reported. The main statement
is `printable_roundTrip`. That the text of a number reads back as this number is taken for granted,
for each number of the tree.
-/

namespace Lox

open Grammar Scan

/-! ### From trees to texts -/

/-- A printable tree is the tree of its text. -/
theorem parse_of_printable {tree : List Stmt} (printable : Stmt.PrintableAll .written tree)
    (readsBack : ∀ x, .number x ∈ Stmt.tokensAll tree → Number.ReadsBack x) :
    parseProgram (textOf (Stmt.tokensAll tree)) = .ok tree := by
  have lexemes : ∀ token ∈ Stmt.tokensAll tree, Lexeme token.text.toList token := by
    intro token mem
    refine Token.lexeme (admits_stmts printable token mem) ?_
    rintro x rfl
    exact readsBack x mem
  exact programOfItems_eq_ok.mpr
    ⟨_, tokens_scan_textOf lexemes, declarations_of_printable printable⟩

/-! ### From texts to trees -/

theorem admits_of_scan {text : String} {toks : List Token}
    (scanned : Item.tokens (scan text) = .ok toks) : Admits .read toks := by
  intro token mem
  obtain ⟨taken, lexeme⟩ := exists_lexeme_of_mem scanned token mem
  exact lexeme.admitted

/-- The tree of a text is printable, but for literals that are too large. -/
theorem printable_of_parse {text : String} {tree : List Stmt}
    (parsed : parseProgram text = .ok tree) : Stmt.PrintableAll .read tree := by
  obtain ⟨toks, scanned, derived⟩ := programOfItems_eq_ok.mp parsed
  exact printableAll_of_declarations derived (admits_of_scan scanned)

/-! ### Reserved words -/

theorem unmentioned_of_isReserved {name : Name} (reserved : name.isReserved = true)
    (text : String) : Unmentioned name text := by
  intro item mem same
  obtain ended | ⟨taken, lexeme⟩ := (splits_items [] text.toList).lexeme item mem _ same
  · cases ended
  · obtain ⟨k, spelled⟩ := Name.isReserved_iff.mp reserved
    exact lexeme.admitted.2 k spelled

/-- No reserved word is reported in the tree of a text. -/
theorem check_ne_reservedWord {text : String} {tree : List Stmt}
    (parsed : parseProgram text = .ok tree) (name : Name) :
    (Program.ofStmts tree).check ≠ .error (.reservedWord name) := by
  intro reported
  have blamed : ∀ word : Name, word.isReserved = true → name.isReserved = true ∧ name ≠ word := by
    intro word reserved
    have avoids := overAll_of_parse (unmentioned_of_isReserved reserved text) parsed
    exact Check.blames_stmts avoids.desugar name reported
  have reserved := (blamed "this" rfl).1
  exact (blamed name reserved).2 rfl

/-! ### The whole -/

/-- Printable trees are the trees of their texts, and every tree of a text is printable, apart from
literals that denote the infinity. No text is refused for a reserved word in the place of a name. -/
theorem printable_roundTrip :
    (∀ tree, Stmt.PrintableAll .written tree →
      (∀ x, .number x ∈ Stmt.tokensAll tree → Number.ReadsBack x) →
      parseProgram (textOf (Stmt.tokensAll tree)) = .ok tree) ∧
    (∀ text tree, parseProgram text = .ok tree →
      Stmt.PrintableAll .read tree ∧
        ∀ name, (Program.ofStmts tree).check ≠ .error (.reservedWord name)) ∧
    (∀ text e, parseExpression text = .ok e → ∀ name, e.check ≠ .error (.reservedWord name)) := by
  refine ⟨fun _ => parse_of_printable, fun _ _ parsed => ?_, fun _ e _ name reported => ?_⟩
  · exact ⟨printable_of_parse parsed, check_ne_reservedWord parsed⟩
  · exact (@Check.blames_expr (fun _ => False) .none e name reported).2

/-- A difference on the right of a difference, in the branch of an `if`. -/
def nestedDifference : List Stmt :=
  [.ite (.var "a")
    (.print (.binary .sub (.number twoAndAHalf)
      (.group (.binary .sub (.var "b") (.number twoAndAHalf)))))
    (.block [])]

theorem printable_nestedDifference : Stmt.PrintableAll .written nestedDifference := by
  have a : IsIdentifier "a" := ⟨⟨'a', [], rfl, rfl, nofun⟩, by rintro ⟨⟩ <;> decide⟩
  have b : IsIdentifier "b" := ⟨⟨'b', [], rfl, rfl, nofun⟩, by rintro ⟨⟩ <;> decide⟩
  have number : Lexicon.written.number twoAndAHalf := ⟨rfl, rfl⟩
  have inner : Expr.Printable .written (.binary .sub (.var "b") (.number twoAndAHalf)) :=
    ⟨⟨by decide, b⟩, by decide, number⟩
  exact ⟨⟨a, ⟨rfl, ⟨by decide, number⟩, by decide, inner⟩, rfl, trivial⟩, trivial⟩

theorem printable_roundTrip_nestedDifference :
    parseProgram "if ( a ) print 2.5 - ( b - 2.5 ) ; else \x7b \x7d" = .ok nestedDifference := by
  have text : textOf (Stmt.tokensAll nestedDifference) =
      "if ( a ) print 2.5 - ( b - 2.5 ) ; else \x7b \x7d" := by decide +kernel
  have parsed := printable_roundTrip.1 nestedDifference printable_nestedDifference (by
    intro x mem
    have same : x = twoAndAHalf := by
      simpa [nestedDifference, Stmt.tokensAll, Stmt.tokens, Expr.tokens, BinaryOp.token] using mem
    exact same ▸ readsBack_twoAndAHalf)
  rwa [text] at parsed

end Lox
