import Lox.Token

/-!
Scanning: from text to a sequence of items, each a token or a lexical error, with the line it ends
on.

Blanks, line ends and comments separate items and yield none. Every other piece of text yields
exactly one item, and the piece is the longest prefix of what is left that its class allows. An
error yields an item too, and scanning goes on behind it: an unexpected character is skipped, an
unterminated string reaches to the end. The sequence ends with the only `Token.eof`.
-/

namespace Lox

/-- What can be wrong with the text before it is looked at as a program. -/
inductive LexicalError where
  | unexpectedChar (c : Char)
  | unterminatedString
  deriving DecidableEq, Repr

/-- An item of the scanned text: the line it ends on, counted from one, and what was found. -/
structure Item where
  line : Nat
  content : Except LexicalError Token

namespace Scan

/-- A blank separates tokens and does not end a line. -/
def isBlank (c : Char) : Bool := c == ' ' || c == '\t' || c == '\r'

/-- An ASCII decimal digit. -/
def isDigit (c : Char) : Bool := '0' ≤ c && c ≤ '9'

/-- An ASCII letter or an underscore starts a word. -/
def isWordStart (c : Char) : Bool :=
  ('a' ≤ c && c ≤ 'z') || ('A' ≤ c && c ≤ 'Z') || c == '_'

/-- An ASCII letter, an underscore or a digit continues a word. -/
def isWordRest (c : Char) : Bool := isWordStart c || isDigit c

/-- Skip blanks, line ends and comments, counting lines; the flag says that a comment is being
read. A comment ends before the line end. -/
def skipTrivia (inComment : Bool) (line : Nat) : List Char → Nat × List Char
  | [] => (line, [])
  | c :: cs =>
    if c = '\n' then skipTrivia false (line + 1) cs
    else if inComment then skipTrivia true line cs
    else if isBlank c then skipTrivia false line cs
    else if c = '/' ∧ cs.head? = some '/' then skipTrivia true line cs
    else (line, c :: cs)

/-- The longest mark at the front of the text, and what follows it. -/
def mark? : List Char → Option (Mark × List Char)
  | '+' :: cs => some (.plus, cs)
  | '-' :: cs => some (.minus, cs)
  | '*' :: cs => some (.star, cs)
  | '/' :: cs => some (.slash, cs)
  | '(' :: cs => some (.leftParen, cs)
  | ')' :: cs => some (.rightParen, cs)
  | '\x7b' :: cs => some (.leftCurly, cs)
  | '\x7d' :: cs => some (.rightCurly, cs)
  | ';' :: cs => some (.semicolon, cs)
  | ',' :: cs => some (.comma, cs)
  | '.' :: cs => some (.dot, cs)
  | '<' :: '=' :: cs => some (.lessEqual, cs)
  | '<' :: cs => some (.less, cs)
  | '>' :: '=' :: cs => some (.greaterEqual, cs)
  | '>' :: cs => some (.greater, cs)
  | '=' :: '=' :: cs => some (.equalEqual, cs)
  | '=' :: cs => some (.equal, cs)
  | '!' :: '=' :: cs => some (.bangEqual, cs)
  | '!' :: cs => some (.bang, cs)
  | _ => none

/-- What one piece of text yields: the finding, the line it ends on, and the text behind it. -/
structure Piece where
  content : Except LexicalError Token
  line : Nat
  rest : List Char

/-- A string, from behind its opening quote to its closing one. It may span lines. -/
def stringPiece (line : Nat) (text : List Char) : Piece :=
  let contents := text.takeWhile (· ≠ '"')
  let line := line + contents.count '\n'
  match text.dropWhile (· ≠ '"') with
  | [] => ⟨.error .unterminatedString, line, []⟩
  | _ :: rest => ⟨.ok (.string (String.ofList contents)), line, rest⟩

/-- A number: digits, and a point with more digits if a digit follows the point. -/
def numberPiece (line : Nat) (text : List Char) : Piece :=
  let whole := text.takeWhile isDigit
  match text.dropWhile isDigit with
  | '.' :: d :: rest =>
    if isDigit d then
      ⟨.ok (.number (Number.ofDigits whole ((d :: rest).takeWhile isDigit))), line,
        rest.dropWhile isDigit⟩
    else ⟨.ok (.number (Number.ofDigits whole [])), line, '.' :: d :: rest⟩
  | rest => ⟨.ok (.number (Number.ofDigits whole [])), line, rest⟩

/-- A word: a keyword or an identifier. -/
def wordPiece (line : Nat) (text : List Char) : Piece :=
  ⟨.ok (Token.ofWord (String.ofList (text.takeWhile isWordRest))), line,
    text.dropWhile isWordRest⟩

/-- The piece at the front of a text that starts with the character `c` and with no trivia. -/
def piece (line : Nat) (c : Char) (cs : List Char) : Piece :=
  if c = '"' then stringPiece line cs
  else if isDigit c then numberPiece line (c :: cs)
  else if isWordStart c then wordPiece line (c :: cs)
  else
    match mark? (c :: cs) with
    | some (m, rest) => ⟨.ok (.mark m), line, rest⟩
    | none => ⟨.error (.unexpectedChar c), line, cs⟩

theorem length_dropWhile_le (p : Char → Bool) (cs : List Char) :
    (cs.dropWhile p).length ≤ cs.length :=
  (List.dropWhile_sublist p).length_le

theorem length_skipTrivia_le (inComment : Bool) (line : Nat) (text : List Char) :
    (skipTrivia inComment line text).2.length ≤ text.length := by
  induction text generalizing inComment line with
  | nil => simp [skipTrivia]
  | cons c cs ih =>
    unfold skipTrivia
    repeat' split
    all_goals first
      | exact Nat.le_succ_of_le (ih _ _)
      | exact Nat.le_refl _

/-- A mark takes at least one character. -/
theorem length_mark?_lt {text rest : List Char} {m : Mark} (h : mark? text = some (m, rest)) :
    rest.length < text.length := by
  unfold mark? at h
  split at h <;> grind

/-- A piece takes at least the character it starts with. -/
theorem length_piece_le (line : Nat) (c : Char) (cs : List Char) :
    (piece line c cs).rest.length ≤ cs.length := by
  unfold piece
  split
  · unfold stringPiece
    have := length_dropWhile_le (· ≠ '"') cs
    split <;> simp_all
    omega
  split
  · rename_i digit
    have shorter := length_dropWhile_le isDigit cs
    unfold numberPiece
    rw [List.dropWhile_cons_of_pos digit]
    split
    · rename_i d rest shape
      have := length_dropWhile_le isDigit rest
      have : ('.' :: d :: rest).length ≤ cs.length := shape ▸ shorter
      split <;> simp_all
      omega
    · exact shorter
  split
  · rename_i start
    simp only [wordPiece]
    rw [List.dropWhile_cons_of_pos (by simp [isWordRest, start])]
    exact length_dropWhile_le _ _
  split
  · rename_i found
    exact Nat.le_of_lt_succ (length_mark?_lt found)
  · exact Nat.le_refl _

/-- The items of a text that starts on the given line. -/
def items (start : Nat) (text : List Char) : List Item :=
  match _split : skipTrivia false start text with
  | (line, []) => [⟨line, .ok .eof⟩]
  | (line, c :: cs) =>
    ⟨(piece line c cs).line, (piece line c cs).content⟩
      :: items (piece line c cs).line (piece line c cs).rest
termination_by text.length
decreasing_by
  have skipped := length_skipTrivia_le false start text
  have taken := length_piece_le line c cs
  rw [_split] at skipped
  exact Nat.lt_of_le_of_lt taken skipped

end Scan

/-- The items of a program's text, ending with `Token.eof`. -/
def scan (text : String) : List Item := Scan.items 1 text.toList

/-- The tokens of scanned items up to the end of the text, or the first lexical error and its
line. -/
def Item.tokens : List Item → Except (Nat × LexicalError) (List Token)
  | [] => .ok []
  | ⟨line, .error e⟩ :: _ => .error (line, e)
  | ⟨_, .ok .eof⟩ :: _ => .ok []
  | ⟨_, .ok token⟩ :: rest =>
    match tokens rest with
    | .ok more => .ok (token :: more)
    | .error e => .error e

end Lox
