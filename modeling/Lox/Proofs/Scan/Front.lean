import Lox.Proofs.Scan.Exact

/-!
The items of a text that is cut off right behind a lexeme.

What the scanner finds in front of the cut does not depend on the text behind it, as long as the cut
does not go through a piece: the items in front are those of the whole text, and the end of the text
follows them (`scan_of_lexemes`).
-/

namespace Lox.Scan

/-- In front of `rest`, the text `front` is made of lexemes, each the longest that stands there,
with trivia before each of them. -/
inductive Lexemes : List Char → List Char → Prop where
  | nil {rest} : Lexemes [] rest
  | cons {trivia taken token front rest} : Trivia trivia (taken ++ (front ++ rest)) →
      StartsPiece (taken ++ (front ++ rest)) → Cut taken (.ok token) (front ++ rest) →
      Lexemes front rest → Lexemes (trivia ++ (taken ++ front)) rest

/-- Of what is behind trivia, only the first character matters. -/
theorem Trivia.congr {front rest rest' : List Char} (h : Trivia front rest)
    (same : rest.head? = rest'.head?) : Trivia front rest' := by
  induction h with
  | nil => exact .nil
  | blank skipped _ ih => exact .blank skipped (ih same)
  | comment inside ends _ ih =>
    refine .comment inside ?_ (ih same)
    rw [List.head?_append, ← same, ← List.head?_append]
    exact ends

theorem StartsPiece.of_append {text more : List Char} (h : StartsPiece (text ++ more)) :
    StartsPiece text := by
  intro front rest same trivia
  subst same
  cases trivia with
  | nil => rfl
  | blank skipped _ => cases h [_] _ rfl (.blank skipped .nil)
  | @comment comment front _ _ _ _ =>
    -- the comment may go on in the text behind
    obtain ⟨longer, behind, shape, inside, ends⟩ :=
      exists_before '\n' (comment ++ front ++ rest ++ more)
    refine absurd (h ('/' :: '/' :: (longer ++ [])) behind ?_ (.comment inside ends .nil)) nofun
    simpa using shape

theorem Cut.of_append {taken rest more : List Char} {token : Token}
    (h : Cut taken (.ok token) (rest ++ more)) : Cut taken (.ok token) rest := by
  cases h with
  | lexeme lexeme longest =>
    refine .lexeme lexeme fun longer other h' stands => longest longer other h' ?_
    rw [← List.append_assoc]
    exact stands.trans (List.prefix_append _ _)

/-- The text up to the cut is taken apart as it is in the whole text. -/
theorem Lexemes.splits {front rest : List Char} (h : Lexemes front rest) (before : List Char) :
    ∃ found more line, Splits before (front ++ rest) (found ++ more) ∧
      Splits before front (found ++ [⟨line, .ok .eof⟩]) := by
  induction h generalizing before with
  | @nil rest => exact ⟨[], _, _, splits_items before rest, .eof .nil⟩
  | @cons trivia taken token front rest skipped starts cut _ ih =>
    obtain ⟨found, more, line, whole, cutOff⟩ := ih (before ++ trivia ++ taken)
    have same : (taken ++ (front ++ rest)).head? = (taken ++ front).head? := by
      obtain ⟨c, cs, rfl⟩ := List.exists_cons_of_ne_nil cut.ne_nil
      rfl
    have starts' : StartsPiece (taken ++ front) := by
      rw [← List.append_assoc] at starts
      exact starts.of_append
    refine ⟨_ :: found, more, line, ?_, .piece (skipped.congr same) starts' cut.of_append cutOff⟩
    rw [List.append_assoc, List.append_assoc]
    exact .piece skipped starts cut whole

end Lox.Scan

namespace Lox

/-- The items of a text cut off behind a lexeme are those of the text up to there, and the end. -/
theorem scan_of_lexemes {front back : String}
    (h : Scan.Lexemes front.toList back.toList) :
    ∃ found more line, scan (front ++ back) = found ++ more ∧
      scan front = found ++ [⟨line, .ok .eof⟩] := by
  obtain ⟨found, more, line, whole, cutOff⟩ := h.splits []
  rw [← String.toList_append] at whole
  exact ⟨found, more, line, whole.items_eq, cutOff.items_eq⟩

end Lox
