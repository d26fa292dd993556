import Lox.Proofs.Scan
import Lox.Proofs.Scan.Piece

/-!
The words a text is made of.

`Lexeme text token` says which texts are words of the language and what token each of them is;
`Trivia` says what may stand between them. A piece of a text (`Cut`) is a lexeme that no longer
lexeme at the same place goes beyond, a character that no lexeme starts with, or a string that is
not closed. `Splits` takes a whole text apart. None of these mentions the scanner, which is compared
with them in `Lox.Proofs.Scan.Exact`.
-/

namespace Lox.Scan

/-! ### Lexemes -/

/-- A word that is not the spelling of a keyword. -/
def IsIdentifier (name : Name) : Prop := IsWord name ∧ ∀ k : Keyword, name ≠ k.text

/-- The text is a word of the language with the given token. A number may have a fraction, with
digits on both sides of the point; a string may go over several lines. -/
inductive Lexeme : List Char → Token → Prop where
  | mark (m : Mark) : Lexeme m.text.toList (.mark m)
  | keyword (k : Keyword) : Lexeme k.text.toList (.keyword k)
  | identifier {name : Name} : IsIdentifier name → Lexeme name.toList (.identifier name)
  | whole {digits : List Char} : digits ≠ [] → (∀ c ∈ digits, isDigit c = true) →
      Lexeme digits (.number (Number.ofDigits digits []))
  | fraction {whole fraction : List Char} : whole ≠ [] → (∀ c ∈ whole, isDigit c = true) →
      fraction ≠ [] → (∀ c ∈ fraction, isDigit c = true) →
      Lexeme (whole ++ '.' :: fraction) (.number (Number.ofDigits whole fraction))
  | string {contents : List Char} : '"' ∉ contents →
      Lexeme ('"' :: (contents ++ ['"'])) (.string (String.ofList contents))

/-! ### Trivia -/

/-- In front of `rest`, the text `front` is made of blanks, line ends and comments. A comment goes
on up to the end of its line. -/
inductive Trivia : List Char → List Char → Prop where
  | nil {rest} : Trivia [] rest
  | blank {c front rest} : isBlank c = true ∨ c = '\n' → Trivia front rest →
      Trivia (c :: front) rest
  | comment {comment front rest} : '\n' ∉ comment → (∀ c ∈ (front ++ rest).head?, c = '\n') →
      Trivia front rest → Trivia ('/' :: '/' :: (comment ++ front)) rest

/-- There is no trivia at the front of the text. -/
def StartsPiece (text : List Char) : Prop :=
  ∀ front rest, text = front ++ rest → Trivia front rest → front = []

/-! ### Pieces -/

/-- In front of `rest`, the text `taken` is one piece: a lexeme, the longest that stands there, or
an error. -/
inductive Cut : List Char → Except LexicalError Token → List Char → Prop where
  | lexeme {taken token rest} : Lexeme taken token →
      (∀ longer other, Lexeme longer other → longer <+: taken ++ rest →
        longer.length ≤ taken.length) →
      Cut taken (.ok token) rest
  | unexpected {c rest} : (∀ text token, Lexeme text token → text.head? ≠ some c) →
      Cut [c] (.error (.unexpectedChar c)) rest
  | unterminated {contents} : '"' ∉ contents →
      Cut ('"' :: contents) (.error .unterminatedString) []

/-- The line on which a text ends, counted from one. -/
def lineAfter (text : List Char) : Nat := 1 + text.count '\n'

/-- Behind the text `before`, a text is taken apart into trivia and pieces, and these are the items:
one for each piece and one for the end, with the line on which it ends. -/
inductive Splits : List Char → List Char → List Item → Prop where
  | eof {before trivia} : Trivia trivia [] →
      Splits before trivia [⟨lineAfter (before ++ trivia), .ok .eof⟩]
  | piece {before trivia taken content rest items} : Trivia trivia (taken ++ rest) →
      StartsPiece (taken ++ rest) → Cut taken content rest →
      Splits (before ++ trivia ++ taken) rest items →
      Splits before (trivia ++ (taken ++ rest))
        (⟨lineAfter (before ++ trivia ++ taken), content⟩ :: items)

/-! ### Reading a lexeme back -/

theorem isWord_text (k : Keyword) : IsWord k.text := by
  cases k <;> exact ⟨_, _, rfl, rfl, List.all_eq_true.mp rfl⟩

/-- A word is the lexeme of its keyword, or of itself as an identifier. -/
theorem lexeme_ofWord {word : Name} (h : IsWord word) : Lexeme word.toList (Token.ofWord word) := by
  unfold Token.ofWord
  cases known : Keyword.ofText? word with
  | some k =>
    obtain rfl := Keyword.text_of_ofText? known
    exact .keyword k
  | none =>
    refine .identifier ⟨h, fun k same => ?_⟩
    rw [same, Keyword.ofText?_text] at known
    cases known

theorem IsIdentifier.ofWord {name : Name} (h : IsIdentifier name) :
    Token.ofWord name = .identifier name := by
  rw [ofWord_eq_identifier_iff, Bool.eq_false_iff, ne_eq, Name.isReserved_iff]
  exact ⟨rfl, fun ⟨k, same⟩ => h.2 k same⟩

/-- What follows cannot be part of a lexeme that has begun: it starts with a blank or a line end, or
there is nothing. -/
def Stops (rest : List Char) : Prop := ∀ c ∈ rest.head?, isBlank c = true ∨ c = '\n'

theorem Stops.of_head {rest : List Char} (h : Stops rest) {p : Char → Bool}
    (blind : ∀ c, isBlank c = true ∨ c = '\n' → p c = false) : ∀ c ∈ rest.head?, p c = false :=
  fun c mem => blind c (h c mem)

theorem isWordRest_of_isBlank {c : Char} (h : isBlank c = true ∨ c = '\n') :
    isWordRest c = false := by
  simp only [isBlank, Bool.or_eq_true, beq_iff_eq] at h
  rcases h with ((rfl | rfl) | rfl) | rfl <;> rfl

theorem isDigit_of_isBlank {c : Char} (h : isBlank c = true ∨ c = '\n') : isDigit c = false := by
  simp only [isBlank, Bool.or_eq_true, beq_iff_eq] at h
  rcases h with ((rfl | rfl) | rfl) | rfl <;> rfl

theorem mark?_eq_some {text rest : List Char} {m : Mark} (h : mark? text = some (m, rest)) :
    text = m.text.toList ++ rest := by
  unfold mark? at h
  split at h <;> cases h <;> rfl

/-- A text that starts with a mark is read as that mark, or as a longer one. -/
theorem exists_mark? (m : Mark) (more : List Char) :
    ∃ longest rest, mark? (m.text.toList ++ more) = some (longest, rest) ∧
      rest.length ≤ more.length ∧ (more.head? ≠ some '=' → longest = m ∧ rest = more) := by
  cases m with
  | less | greater | equal | bang =>
    rcases more with _ | ⟨c, more⟩
    · exact ⟨_, _, rfl, Nat.le_refl _, fun _ => ⟨rfl, rfl⟩⟩
    · by_cases equal : c = '='
      · subst equal
        exact ⟨_, _, rfl, Nat.le_succ _, fun other => absurd rfl other⟩
      · refine ⟨_, c :: more, ?_, Nat.le_refl _, fun _ => ⟨rfl, rfl⟩⟩
        simp [Mark.text, mark?, equal]
  | _ => exact ⟨_, _, rfl, Nat.le_refl _, fun _ => ⟨rfl, rfl⟩⟩

theorem piece_of_mark? {c : Char} {cs rest : List Char} {m : Mark}
    (h : mark? (c :: cs) = some (m, rest)) (line : Nat) :
    piece line c cs = ⟨.ok (.mark m), line, rest⟩ := by
  have shape := mark?_eq_some h
  have first : c ≠ '"' ∧ isDigit c = false ∧ isWordStart c = false := by
    cases m <;> cases shape <;> decide
  obtain ⟨quote, digit, start⟩ := first
  rw [piece, if_neg quote, if_neg (by simp [digit]), if_neg (by simp [start]), h]

theorem count_newline_of_all {p : Char → Bool} (none : p '\n' = false) {text : List Char}
    (all : ∀ c ∈ text, p c = true) : text.count '\n' = 0 := by
  rw [List.count_eq_zero]
  intro mem
  rw [all _ mem] at none
  cases none

theorem piece_of_isDigit {c : Char} (h : isDigit c = true) (line : Nat) (cs : List Char) :
    piece line c cs = numberPiece line (c :: cs) := by
  have quote : c ≠ '"' := by
    rintro rfl
    cases h
  rw [piece, if_neg quote, if_pos h]

theorem IsWord.isWordRest {word : Name} (h : IsWord word) :
    ∀ c ∈ word.toList, isWordRest c = true := by
  obtain ⟨c, cs, shape, start, all⟩ := h
  rw [shape]
  exact List.forall_mem_cons.mpr ⟨isWordRest_of_isWordStart start, all⟩

section

variable {rest : List Char} (stops : Stops rest) (line : Nat)

include stops

theorem piece_of_word {word : Name} (h : IsWord word) :
    ∃ c cs, word.toList = c :: cs ∧ piece line c (cs ++ rest) =
      ⟨.ok (Token.ofWord word), line + word.toList.count '\n', rest⟩ := by
  have all := h.isWordRest
  obtain ⟨c, cs, shape, start, -⟩ := h
  refine ⟨c, cs, shape, ?_⟩
  rw [piece_of_isWordStart start, ← List.cons_append, ← shape,
    wordPiece_of_stop all (stops.of_head fun _ => isWordRest_of_isBlank), String.ofList_toList,
    count_newline_of_all rfl all, Nat.add_zero]

/-- A lexeme is read as a whole where what follows stops it. -/
theorem piece_of_lexeme {taken : List Char} {token : Token} (h : Lexeme taken token) :
    ∃ c cs, taken = c :: cs ∧
      piece line c (cs ++ rest) = ⟨.ok token, line + taken.count '\n', rest⟩ := by
  have digitStop := stops.of_head fun _ => isDigit_of_isBlank
  have head : ∀ {d}, d ≠ ' ' → d ≠ '\t' → d ≠ '\r' → d ≠ '\n' → rest.head? ≠ some d := by
    intro d blank tab back newline mem
    have stop := stops d mem
    simp [isBlank, blank, tab, back, newline] at stop
  cases h with
  | mark m =>
    obtain ⟨longest, behind, found, -, only⟩ := exists_mark? m rest
    obtain ⟨rfl, rfl⟩ := only (head (by decide) (by decide) (by decide) (by decide))
    have count : longest.text.toList.count '\n' = 0 := by cases longest <;> rfl
    obtain ⟨c, cs, shape⟩ : ∃ c cs, longest.text.toList = c :: cs := by
      cases longest <;> exact ⟨_, _, rfl⟩
    refine ⟨c, cs, shape, ?_⟩
    rw [shape, List.cons_append] at found
    rw [count, piece_of_mark? found line, Nat.add_zero]
  | keyword k =>
    have read := piece_of_word stops line (isWord_text k)
    rwa [Token.ofWord, Keyword.ofText?_text] at read
  | identifier identifier =>
    have read := piece_of_word stops line identifier.1
    rwa [identifier.ofWord] at read
  | whole ne all =>
    obtain ⟨c, cs, rfl⟩ := List.exists_cons_of_ne_nil ne
    refine ⟨c, cs, rfl, ?_⟩
    have noFraction : ∀ d more, rest = '.' :: d :: more → isDigit d = false := by
      rintro d more rfl
      exact absurd rfl (head (d := '.') (by decide) (by decide) (by decide) (by decide))
    rw [piece_of_isDigit (all c List.mem_cons_self), ← List.cons_append,
      numberPiece_of_whole all digitStop noFraction, count_newline_of_all rfl all, Nat.add_zero]
  | @fraction whole fraction ne all ne' all' =>
    obtain ⟨c, cs, rfl⟩ := List.exists_cons_of_ne_nil ne
    obtain ⟨d, ds, rfl⟩ := List.exists_cons_of_ne_nil ne'
    obtain ⟨digit, all'⟩ := List.forall_mem_cons.mp all'
    refine ⟨c, cs ++ '.' :: d :: ds, rfl, ?_⟩
    have count : ((c :: cs) ++ '.' :: d :: ds).count '\n' = 0 := by
      rw [List.count_append, count_newline_of_all rfl all]
      have more := count_newline_of_all rfl (List.forall_mem_cons.mpr ⟨digit, all'⟩)
      simpa [List.count_cons] using more
    have split : c :: (cs ++ '.' :: d :: ds ++ rest) = (c :: cs) ++ '.' :: d :: (ds ++ rest) := by
      simp
    rw [piece_of_isDigit (all c List.mem_cons_self), count, split,
      numberPiece_of_fraction all digit all' digitStop, Nat.add_zero]
  | @string contents closed =>
    refine ⟨'"', contents ++ ['"'], rfl, ?_⟩
    have count : ('"' :: (contents ++ ['"'])).count '\n' = contents.count '\n' := by
      simp
    rw [piece, if_pos rfl, List.append_assoc, List.singleton_append, stringPiece_of_closed closed,
      count]

end

/-- A text is a lexeme with one token at most. -/
theorem Lexeme.unique {text : List Char} {token token' : Token} (h : Lexeme text token)
    (h' : Lexeme text token') : token = token' := by
  have nothing : Stops [] := by rintro c ⟨⟩
  obtain ⟨c, cs, rfl, read⟩ := piece_of_lexeme nothing 1 h
  obtain ⟨_, _, ⟨⟩, read'⟩ := piece_of_lexeme nothing 1 h'
  rw [read] at read'
  injection read' with content
  injection content

theorem Lexeme.ne_nil {text : List Char} {token : Token} (h : Lexeme text token) : text ≠ [] := by
  have nothing : Stops [] := by rintro c ⟨⟩
  obtain ⟨c, cs, rfl, -⟩ := piece_of_lexeme nothing 1 h
  exact List.cons_ne_nil c cs

end Lox.Scan
