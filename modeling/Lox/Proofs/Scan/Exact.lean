import Lox.Proofs.Scan.Lexeme

/-!
The scanner takes a text apart exactly.

Every text has one splitting into trivia and pieces (`Splits`), in which nothing is left out and
every lexeme is the longest, and the items of the scanner are those of this splitting
(`splits_iff_eq_scan`). So there is an item for each piece and one for the end, at most one more
than the text has characters.
-/

namespace Lox.Scan

/-! ### Trivia -/

theorem skipTrivia_comment {comment : List Char} (inside : '\n' ∉ comment) {rest : List Char}
    (ends : ∀ c ∈ rest.head?, c = '\n') (line : Nat) :
    skipTrivia true line (comment ++ rest) = skipTrivia false line rest := by
  induction comment with
  | nil =>
    cases rest with
    | nil => rfl
    | cons c cs =>
      obtain rfl := ends c rfl
      rfl
  | cons c cs ih =>
    obtain ⟨ne, inside⟩ := not_or.mp (mt List.mem_cons.mpr inside)
    rw [List.cons_append, skipTrivia_cons, if_neg (Ne.symm ne), if_pos rfl, ih inside]

/-- A text is at its first piece unless a blank, a line end or a comment stands there. -/
theorem startsPiece_cons {c : Char} {cs : List Char} (newline : c ≠ '\n')
    (blank : isBlank c = false) (comment : ¬ (c = '/' ∧ cs.head? = some '/')) :
    StartsPiece (c :: cs) := by
  intro front rest same trivia
  cases trivia with
  | nil => rfl
  | blank skipped =>
    cases same
    rcases skipped with h | h
    · rw [blank] at h
      cases h
    · exact absurd h newline
  | comment =>
    cases same
    exact absurd ⟨rfl, rfl⟩ comment

/-- Every text has trivia in front, perhaps none, and then a piece or nothing. -/
theorem exists_trivia (text : List Char) :
    ∃ front rest, text = front ++ rest ∧ Trivia front rest ∧ StartsPiece rest := by
  induction n : text.length using Nat.strongRecOn generalizing text with
  | ind n ih =>
    subst n
    rcases text with _ | ⟨c, cs⟩
    · refine ⟨[], [], rfl, .nil, fun front rest same _ => ?_⟩
      exact (List.append_eq_nil_iff.mp same.symm).1
    by_cases skipped : isBlank c = true ∨ c = '\n'
    · obtain ⟨front, rest, rfl, trivia, starts⟩ := ih cs.length (Nat.lt_succ_self _) cs rfl
      exact ⟨c :: front, rest, rfl, .blank skipped trivia, starts⟩
    obtain ⟨blank, newline⟩ := not_or.mp skipped
    by_cases opens : c = '/' ∧ cs.head? = some '/'
    · obtain ⟨rfl, second⟩ := opens
      obtain ⟨ds, rfl⟩ := List.head?_eq_some_iff.mp second
      obtain ⟨comment, behind, rfl, inside, ends⟩ := exists_before '\n' ds
      have shorter : behind.length < ('/' :: '/' :: (comment ++ behind)).length := by
        simp only [List.length_cons, List.length_append]
        omega
      obtain ⟨front, rest, rfl, trivia, starts⟩ := ih _ shorter behind rfl
      exact ⟨'/' :: '/' :: (comment ++ front), rest, by simp, .comment inside ends trivia, starts⟩
    · exact ⟨[], c :: cs, rfl, .nil,
        startsPiece_cons newline (by simpa using blank) opens⟩

/-- Where a piece starts, nothing is skipped. -/
theorem StartsPiece.skipTrivia {rest : List Char} (starts : StartsPiece rest) (line : Nat) :
    skipTrivia false line rest = (line, rest) := by
  cases rest with
  | nil => rfl
  | cons c cs =>
    have noBlank : ¬ (isBlank c = true ∨ c = '\n') := fun skipped =>
      List.cons_ne_nil _ _ (starts [c] cs rfl (.blank skipped .nil))
    obtain ⟨blank, newline⟩ := not_or.mp noBlank
    have noComment : ¬ (c = '/' ∧ cs.head? = some '/') := by
      rintro ⟨rfl, second⟩
      obtain ⟨ds, rfl⟩ := List.head?_eq_some_iff.mp second
      obtain ⟨comment, behind, rfl, inside, ends⟩ := exists_before '\n' ds
      exact List.cons_ne_nil _ _ (starts ('/' :: '/' :: (comment ++ [])) behind (by simp)
        (.comment inside ends .nil))
    rw [skipTrivia_cons, if_neg newline, if_neg Bool.false_ne_true, if_neg blank, if_neg noComment]

theorem StartsPiece.ne_newline {c : Char} {cs : List Char} (starts : StartsPiece (c :: cs)) :
    c ≠ '\n' := by
  intro newline
  exact List.cons_ne_nil _ _ (starts [c] cs rfl (.blank (.inr newline) .nil))

/-- Trivia is skipped as a whole, and its lines are counted. -/
theorem Trivia.skipTrivia {front rest : List Char} (h : Trivia front rest)
    (starts : StartsPiece rest) (line : Nat) :
    skipTrivia false line (front ++ rest) = (line + front.count '\n', rest) := by
  induction h generalizing line with
  | nil => exact starts.skipTrivia line
  | @blank c front rest skipped _ ih =>
    rw [List.cons_append, skipTrivia_cons, List.count_cons]
    by_cases newline : c = '\n'
    · subst newline
      rw [if_pos rfl, ih starts, beq_self_eq_true, if_pos rfl, Nat.add_assoc, Nat.add_comm 1]
    · have blank := skipped.resolve_right newline
      rw [if_neg newline, if_neg Bool.false_ne_true, if_pos blank, ih starts,
        if_neg (by simpa using newline), Nat.add_zero]
  | @comment comment front rest inside ends _ ih =>
    have count : ('/' :: '/' :: (comment ++ front)).count '\n' = front.count '\n' := by
      simp [List.count_append, List.count_eq_zero_of_not_mem inside]
    have opened : Scan.skipTrivia false line ('/' :: '/' :: (comment ++ front) ++ rest) =
        Scan.skipTrivia true line (comment ++ (front ++ rest)) := by
      simp [skipTrivia_cons, isBlank]
    rw [opened, skipTrivia_comment inside ends, ih starts, count]

/-! ### Lexemes are the longest -/

theorem length_dropWhile_append_le {p : Char → Bool} {front : List Char}
    (all : ∀ c ∈ front, p c = true) (more : List Char) :
    ((front ++ more).dropWhile p).length ≤ more.length := by
  rw [List.dropWhile_append_of_pos all]
  exact length_dropWhile_le p more

theorem length_numberPiece_le (line : Nat) (text : List Char) :
    (numberPiece line text).rest.length ≤ (text.dropWhile isDigit).length := by
  unfold numberPiece
  dsimp only
  split
  · rename_i d rest shape
    have := length_dropWhile_le isDigit rest
    rw [shape]
    split
    · simp only [List.length_cons]
      omega
    · exact Nat.le_refl _
  · exact Nat.le_refl _

theorem length_rest_le_of_word {word : Name} (h : IsWord word) {more cs : List Char} {c : Char}
    (same : word.toList ++ more = c :: cs) (line : Nat) :
    (piece line c cs).rest.length ≤ more.length := by
  have all := h.isWordRest
  obtain ⟨d, ds, shape, start, -⟩ := h
  rw [shape, List.cons_append] at same
  cases same
  rw [piece_of_isWordStart start, ← List.cons_append, ← shape]
  exact length_dropWhile_append_le all more

/-- Whatever lexeme stands at the front of a text, its piece goes at least as far. -/
theorem length_rest_le_of_lexeme {taken more cs : List Char} {c : Char} {token : Token}
    (h : Lexeme taken token) (same : taken ++ more = c :: cs) (line : Nat) :
    (piece line c cs).rest.length ≤ more.length := by
  cases h with
  | mark m =>
    obtain ⟨longest, rest, found, le, -⟩ := exists_mark? m more
    rw [same] at found
    rw [piece_of_mark? found]
    exact le
  | keyword k => exact length_rest_le_of_word (isWord_text k) same line
  | identifier identifier => exact length_rest_le_of_word identifier.1 same line
  | whole ne all =>
    obtain ⟨d, ds, rfl⟩ := List.exists_cons_of_ne_nil ne
    rw [List.cons_append] at same
    cases same
    rw [piece_of_isDigit (all _ List.mem_cons_self), ← List.cons_append]
    exact Nat.le_trans (length_numberPiece_le _ _) (length_dropWhile_append_le all more)
  | @fraction whole fraction ne all ne' all' =>
    obtain ⟨d, ds, rfl⟩ := List.exists_cons_of_ne_nil ne
    obtain ⟨e, es, rfl⟩ := List.exists_cons_of_ne_nil ne'
    obtain ⟨digit, all'⟩ := List.forall_mem_cons.mp all'
    have further : ∀ x ∈ es ++ more.takeWhile isDigit, isDigit x = true :=
      List.forall_mem_append.mpr ⟨all', of_mem_takeWhile⟩
    have text : c :: cs = (d :: ds) ++ '.' :: e ::
        ((es ++ more.takeWhile isDigit) ++ more.dropWhile isDigit) := by
      rw [← same]
      simp [List.takeWhile_append_dropWhile]
    cases same
    rw [piece_of_isDigit (all _ List.mem_cons_self), text,
      numberPiece_of_fraction all digit further head?_dropWhile]
    exact length_dropWhile_le _ _
  | @string contents closed =>
    have text : c :: cs = '"' :: (contents ++ '"' :: more) := by
      rw [← same]
      simp
    cases text
    exact Nat.le_of_eq (by rw [piece, if_pos rfl, stringPiece_of_closed closed])

/-! ### Pieces -/

theorem cut_of_lexeme {line line' : Nat} {c : Char} {cs taken rest : List Char} {token : Token}
    (h : Lexeme taken token) (shape : c :: cs = taken ++ rest)
    (read : piece line c cs = ⟨.ok token, line', rest⟩) : Cut taken (.ok token) rest := by
  refine .lexeme h fun longer other lexeme ⟨more, same⟩ => ?_
  have le := length_rest_le_of_lexeme lexeme (same.trans shape.symm) line
  have lengths := congrArg List.length same
  rw [read] at le
  simp only [List.length_append] at lengths le
  omega

/-- A number is a lexeme without a line end. -/
theorem lexeme_numberPiece {c : Char} (digit : isDigit c = true) (line : Nat) (cs : List Char) :
    ∃ taken token rest, numberPiece line (c :: cs) = ⟨.ok token, line, rest⟩ ∧
      c :: cs = taken ++ rest ∧ Lexeme taken token ∧ taken.count '\n' = 0 := by
  have ne : (c :: cs).takeWhile isDigit ≠ [] := by
    rw [List.takeWhile_cons_of_pos digit]
    exact List.cons_ne_nil _ _
  have parts := (@List.takeWhile_append_dropWhile _ isDigit (c :: cs)).symm
  have all : ∀ d ∈ (c :: cs).takeWhile isDigit, isDigit d = true := of_mem_takeWhile
  have whole : Lexeme ((c :: cs).takeWhile isDigit) _ := .whole ne all
  have count := count_newline_of_all rfl all
  unfold numberPiece
  dsimp only
  split
  · rename_i d rest shape
    split
    · rename_i digit'
      have all' : ∀ e ∈ (d :: rest).takeWhile isDigit, isDigit e = true := of_mem_takeWhile
      refine ⟨_, _, _, rfl, ?_, .fraction ne all ?_ all', ?_⟩
      · rw [List.append_assoc, List.cons_append, List.takeWhile_cons_of_pos digit',
          List.cons_append, List.takeWhile_append_dropWhile, ← shape]
        exact parts
      · rw [List.takeWhile_cons_of_pos digit']
        exact List.cons_ne_nil _ _
      · rw [List.count_append, List.count_cons, count, count_newline_of_all rfl all']
        rfl
    · exact ⟨_, _, _, rfl, shape ▸ parts, whole, count⟩
  · exact ⟨_, _, _, rfl, parts, whole, count⟩

theorem lexeme_wordPiece {c : Char} (start : isWordStart c = true) (line : Nat) (cs : List Char) :
    ∃ taken token rest, wordPiece line (c :: cs) = ⟨.ok token, line, rest⟩ ∧
      c :: cs = taken ++ rest ∧ Lexeme taken token ∧ taken.count '\n' = 0 := by
  have all : ∀ d ∈ (c :: cs).takeWhile isWordRest, isWordRest d = true := of_mem_takeWhile
  have word : IsWord (String.ofList ((c :: cs).takeWhile isWordRest)) := by
    refine ⟨c, cs.takeWhile isWordRest, ?_, start, of_mem_takeWhile⟩
    rw [String.toList_ofList, List.takeWhile_cons_of_pos (isWordRest_of_isWordStart start)]
  have lexeme := lexeme_ofWord word
  rw [String.toList_ofList] at lexeme
  exact ⟨_, _, _, rfl, List.takeWhile_append_dropWhile.symm, lexeme, count_newline_of_all rfl all⟩

theorem not_lexeme_of_unexpected {c : Char} {cs : List Char} (quote : c ≠ '"')
    (digit : ¬ isDigit c = true) (start : ¬ isWordStart c = true) (mark : mark? (c :: cs) = none)
    {text : List Char} {token : Token} (h : Lexeme text token) : text.head? ≠ some c := by
  have nothing : Stops [] := by rintro c ⟨⟩
  obtain ⟨d, ds, rfl, read⟩ := piece_of_lexeme nothing 1 h
  rintro ⟨⟩
  rw [List.append_nil, piece, if_neg quote, if_neg digit, if_neg start, mark?_eq_none mark] at read
  cases read

/-- What the scanner reads at the front of a text is the piece that stands there. -/
theorem cut_piece {c : Char} (newline : c ≠ '\n') (line : Nat) (cs : List Char) :
    ∃ taken content rest, piece line c cs = ⟨content, line + taken.count '\n', rest⟩ ∧
      c :: cs = taken ++ rest ∧ Cut taken content rest := by
  by_cases quote : c = '"'
  · subst quote
    obtain ⟨contents, behind, rfl, inside, ends⟩ := exists_before '"' cs
    have count : contents.count '\n' = ('"' :: contents).count '\n' := by simp
    rcases behind with _ | ⟨d, rest⟩
    · rw [List.append_nil, piece, if_pos rfl, stringPiece_of_open inside, count]
      exact ⟨_, _, _, rfl, by simp, .unterminated inside⟩
    · obtain rfl := ends d rfl
      have read : piece line '"' (contents ++ '"' :: rest) = _ :=
        (if_pos rfl).trans (stringPiece_of_closed inside)
      have shape : '"' :: (contents ++ '"' :: rest) = ('"' :: (contents ++ ['"'])) ++ rest := by
        simp
      refine ⟨_, _, _, ?_, shape, cut_of_lexeme (.string inside) shape read⟩
      rw [read]
      simp
  by_cases digit : isDigit c = true
  · obtain ⟨taken, token, rest, read, shape, lexeme, count⟩ := lexeme_numberPiece digit line cs
    rw [← piece_of_isDigit digit] at read
    refine ⟨taken, _, _, ?_, shape, cut_of_lexeme lexeme shape read⟩
    rw [read, count, Nat.add_zero]
  by_cases start : isWordStart c = true
  · obtain ⟨taken, token, rest, read, shape, lexeme, count⟩ := lexeme_wordPiece start line cs
    rw [← piece_of_isWordStart start] at read
    refine ⟨taken, _, _, ?_, shape, cut_of_lexeme lexeme shape read⟩
    rw [read, count, Nat.add_zero]
  cases found : mark? (c :: cs) with
  | some found' =>
    obtain ⟨m, rest⟩ := found'
    have shape := mark?_eq_some found
    have read := piece_of_mark? found line
    have count : m.text.toList.count '\n' = 0 := by cases m <;> rfl
    refine ⟨_, _, _, ?_, shape, cut_of_lexeme (.mark m) shape read⟩
    rw [read, count, Nat.add_zero]
  | none =>
    refine ⟨[c], .error (.unexpectedChar c), cs, ?_, rfl,
      .unexpected fun _ _ => not_lexeme_of_unexpected quote digit start found⟩
    rw [piece, if_neg quote, if_neg digit, if_neg start, found]
    simp [newline]

theorem Cut.ne_nil {taken rest : List Char} {content : Except LexicalError Token}
    (h : Cut taken content rest) : taken ≠ [] := by
  cases h with
  | lexeme lexeme => exact lexeme.ne_nil
  | unexpected | unterminated => exact List.cons_ne_nil _ _

/-- No lexeme stands where an error is cut off. -/
theorem Cut.not_lexeme {taken rest front more : List Char} {e : LexicalError} {token : Token}
    (h : Cut taken (.error e) rest) (same : front ++ more = taken ++ rest) :
    ¬ Lexeme front token := by
  intro lexeme
  have nothing : Stops [] := by rintro c ⟨⟩
  obtain ⟨c, cs, rfl, read⟩ := piece_of_lexeme nothing 1 lexeme
  rw [List.append_nil] at read
  cases h with
  | unexpected never =>
    cases same
    exact never _ _ lexeme rfl
  | @unterminated contents unclosed =>
    rw [List.append_nil, List.cons_append] at same
    cases same
    have inside : '"' ∉ cs := fun mem => unclosed (List.mem_append_left more mem)
    rw [piece, if_pos rfl, stringPiece_of_open inside] at read
    cases read

/-- There is one way only to cut a piece off a text. -/
theorem Cut.unique {taken taken' rest rest' : List Char}
    {content content' : Except LexicalError Token} (h : Cut taken content rest)
    (h' : Cut taken' content' rest') (same : taken ++ rest = taken' ++ rest') :
    taken = taken' ∧ content = content' ∧ rest = rest' := by
  cases content with
  | ok token =>
    cases content' with
    | error e =>
      cases h with
      | lexeme lexeme => exact absurd lexeme (h'.not_lexeme same)
    | ok token' =>
      cases h with
      | lexeme lexeme longest =>
        cases h' with
        | lexeme lexeme' longest' =>
          have le := longest taken' token' lexeme' ⟨rest', same.symm⟩
          have le' := longest' taken token lexeme ⟨rest, same⟩
          obtain ⟨rfl, rfl⟩ := List.append_inj same (Nat.le_antisymm le' le)
          exact ⟨rfl, congrArg _ (lexeme.unique lexeme'), rfl⟩
  | error e =>
    have emptyString : Lexeme ['"', '"'] _ := .string (@List.not_mem_nil _ '"')
    cases h' with
    | lexeme lexeme' => exact absurd lexeme' (h.not_lexeme same.symm)
    | unexpected never' =>
      cases h <;> cases same
      · exact ⟨rfl, rfl, rfl⟩
      · exact absurd rfl (never' _ _ emptyString)
    | unterminated =>
      cases h with
      | unexpected never =>
        cases same
        exact absurd rfl (never _ _ emptyString)
      | unterminated =>
        rw [List.append_nil, List.append_nil] at same
        cases same
        exact ⟨rfl, rfl, rfl⟩

/-! ### The whole text -/

theorem lineAfter_append (before text : List Char) :
    lineAfter (before ++ text) = lineAfter before + text.count '\n' := by
  rw [lineAfter, List.count_append, ← Nat.add_assoc]
  rfl

/-- However a text is taken apart, the scanner takes it apart the same way. -/
theorem Splits.items_eq {before text : List Char} {found : List Item}
    (h : Splits before text found) : items (lineAfter before) text = found := by
  induction h with
  | @eof before trivia skipped =>
    have starts : StartsPiece [] := fun _ _ same _ => (List.append_eq_nil_iff.mp same.symm).1
    have ended := skipped.skipTrivia starts (lineAfter before)
    rw [List.append_nil] at ended
    rw [items_of_nil ended, lineAfter_append]
  | @piece before trivia taken content rest _ skipped starts cut _ ih =>
    have ne := List.append_ne_nil_of_left_ne_nil cut.ne_nil rest
    obtain ⟨c, cs, shape⟩ := List.exists_cons_of_ne_nil ne
    have ahead := skipped.skipTrivia starts (lineAfter before)
    rw [shape] at ahead starts ⊢
    obtain ⟨taken', content', rest', read, shape', cut'⟩ :=
      cut_piece starts.ne_newline (lineAfter before + trivia.count '\n') cs
    obtain ⟨rfl, rfl, rfl⟩ := cut.unique cut' (shape.trans shape')
    rw [items_of_cons ahead, read, ← lineAfter_append, ← lineAfter_append, ih]

/-- The items of the scanner take the text apart. -/
theorem splits_items (before text : List Char) :
    Splits before text (items (lineAfter before) text) := by
  induction n : text.length using Nat.strongRecOn generalizing before text with
  | ind n ih =>
    subst n
    obtain ⟨front, rest, rfl, skipped, starts⟩ := exists_trivia text
    have ahead := skipped.skipTrivia starts (lineAfter before)
    cases rest with
    | nil =>
      rw [items_of_nil ahead, ← lineAfter_append, List.append_nil]
      exact .eof skipped
    | cons c cs =>
      obtain ⟨taken, content, rest, read, shape, cut⟩ :=
        cut_piece starts.ne_newline (lineAfter before + front.count '\n') cs
      rw [items_of_cons ahead, read, ← lineAfter_append, ← lineAfter_append]
      rw [shape] at skipped starts ⊢
      refine .piece skipped starts cut (ih _ ?_ _ rest rfl)
      have := List.length_pos_iff.mpr cut.ne_nil
      simp only [shape, List.length_append]
      omega

theorem Splits.length_le {before text : List Char} {found : List Item}
    (h : Splits before text found) : found.length ≤ text.length + 1 := by
  induction h with
  | eof => simp
  | piece _ _ cut _ ih =>
    have := List.length_pos_iff.mpr cut.ne_nil
    simp only [List.length_append, List.length_cons]
    omega

end Lox.Scan

namespace Lox

/-- The scanner takes every text apart into trivia, lexemes and errors in the one way there is, with
at most one item for each character and one for the end. -/
theorem splits_iff_eq_scan (text : String) :
    (∀ items, Scan.Splits [] text.toList items ↔ items = scan text) ∧
      (scan text).length ≤ text.length + 1 := by
  have splits : Scan.Splits [] text.toList (scan text) := Scan.splits_items [] text.toList
  refine ⟨fun items => ⟨fun other => ?_, ?_⟩, ?_⟩
  · exact other.items_eq.symm
  · rintro rfl
    exact splits
  · rw [← String.length_toList]
    exact splits.length_le

end Lox
