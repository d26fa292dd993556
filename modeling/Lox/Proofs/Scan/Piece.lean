import Lox.Token.Scan

/-!
Single pieces of a text.

A piece is the longest part of its kind, so it ends where the text behind it does not go on with
characters of that kind. What is read from a text is said here in these terms: the text is a part of
the kind, followed by a text that stops it.
-/

namespace Lox

/-! ### Words -/

theorem Keyword.text_of_ofText? {word : Name} {k : Keyword} (h : ofText? word = some k) :
    word = k.text := by
  unfold ofText? at h
  split at h <;> cases h <;> rfl

/-- A word is reserved if it is the spelling of a keyword. -/
theorem Name.isReserved_iff {word : Name} :
    word.isReserved = true ↔ ∃ k, word = Keyword.text k := by
  constructor
  · intro reserved
    obtain ⟨k, found⟩ := Option.isSome_iff_exists.mp reserved
    exact ⟨k, Keyword.text_of_ofText? found⟩
  · rintro ⟨k, rfl⟩
    unfold Name.isReserved
    rw [Keyword.ofText?_text]
    rfl

namespace Scan

/-- A word: letters, digits and underscores, with no digit in front. -/
def IsWord (word : Name) : Prop :=
  ∃ c cs, word.toList = c :: cs ∧ isWordStart c = true ∧ ∀ d ∈ cs, isWordRest d = true

theorem ofWord_eq_identifier_iff {word name : Name} :
    Token.ofWord word = .identifier name ↔ word = name ∧ word.isReserved = false := by
  unfold Token.ofWord Name.isReserved
  cases Keyword.ofText? word <;> simp

/-! ### The first character of a word -/

section

variable {c : Char} (h : isWordStart c = true)

include h

theorem isDigit_of_isWordStart : isDigit c = false := by
  rw [Bool.eq_false_iff]
  intro digit
  simp only [isWordStart, isDigit, Bool.or_eq_true, Bool.and_eq_true, decide_eq_true_eq,
    beq_iff_eq, Char.le_def, UInt32.le_iff_toNat_le] at h digit
  rcases h with ((h | h) | rfl)
  · have := Nat.le_trans h.1 digit.2
    revert this
    decide
  · have := Nat.le_trans h.1 digit.2
    revert this
    decide
  · revert digit
    decide

theorem isBlank_of_isWordStart : isBlank c = false := by
  rw [Bool.eq_false_iff]
  intro blank
  simp only [isBlank, Bool.or_eq_true, beq_iff_eq] at blank
  rcases blank with (rfl | rfl) | rfl <;> cases h

theorem isWordRest_of_isWordStart : isWordRest c = true := by
  simp [isWordRest, h]

theorem ne_of_isWordStart {d : Char} (other : isWordStart d = false) : c ≠ d := by
  rintro rfl
  rw [h] at other
  cases other

end

/-! ### The longest part of a kind -/

section

variable {p : Char → Bool}

theorem takeWhile_of_stop {front rest : List Char} (all : ∀ c ∈ front, p c = true)
    (stop : ∀ c ∈ rest.head?, p c = false) : (front ++ rest).takeWhile p = front := by
  rw [List.takeWhile_append_of_pos all]
  cases rest with
  | nil => simp
  | cons c cs => simp [stop c rfl]

theorem dropWhile_of_stop {front rest : List Char} (all : ∀ c ∈ front, p c = true)
    (stop : ∀ c ∈ rest.head?, p c = false) : (front ++ rest).dropWhile p = rest := by
  rw [List.dropWhile_append_of_pos all]
  cases rest with
  | nil => rfl
  | cons c cs => simp [stop c rfl]

theorem of_mem_takeWhile {text : List Char} : ∀ c ∈ text.takeWhile p, p c = true :=
  List.all_eq_true.mp List.all_takeWhile

theorem head?_dropWhile {text : List Char} : ∀ c ∈ (text.dropWhile p).head?, p c = false := by
  intro c mem
  have stop := List.head?_dropWhile_not p text
  rw [mem] at stop
  exact stop

end

/-- The part of a text before the first occurrence of a character, or all of it. -/
theorem exists_before (d : Char) (text : List Char) : ∃ front rest, text = front ++ rest ∧
    d ∉ front ∧ ∀ c ∈ rest.head?, c = d := by
  refine ⟨text.takeWhile (· ≠ d), text.dropWhile (· ≠ d),
    List.takeWhile_append_dropWhile.symm, fun mem => ?_, fun c mem => ?_⟩
  · simpa using of_mem_takeWhile _ mem
  · simpa using head?_dropWhile c mem

/-! ### Pieces -/

section

variable {line : Nat} {rest : List Char}

theorem stringPiece_of_closed {contents : List Char} (closed : '"' ∉ contents) :
    stringPiece line (contents ++ '"' :: rest) =
      ⟨.ok (.string (String.ofList contents)), line + contents.count '\n', rest⟩ := by
  have all : ∀ c ∈ contents, decide (c ≠ '"') = true := fun c mem =>
    decide_eq_true (ne_of_mem_of_not_mem mem closed)
  have stop : ∀ c ∈ ('"' :: rest).head?, decide (c ≠ '"') = false := by simp
  unfold stringPiece
  rw [takeWhile_of_stop all stop, dropWhile_of_stop all stop]

theorem stringPiece_of_open {contents : List Char} (inside : '"' ∉ contents) :
    stringPiece line contents =
      ⟨.error .unterminatedString, line + contents.count '\n', []⟩ := by
  have all : ∀ c ∈ contents, decide (c ≠ '"') = true := fun c mem =>
    decide_eq_true (ne_of_mem_of_not_mem mem inside)
  have taken := @takeWhile_of_stop _ contents [] all nofun
  have dropped := @dropWhile_of_stop _ contents [] all nofun
  rw [List.append_nil] at taken dropped
  unfold stringPiece
  rw [taken, dropped]

theorem numberPiece_of_whole {whole : List Char} (all : ∀ c ∈ whole, isDigit c = true)
    (stop : ∀ c ∈ rest.head?, isDigit c = false)
    (noFraction : ∀ d more, rest = '.' :: d :: more → isDigit d = false) :
    numberPiece line (whole ++ rest) =
      ⟨.ok (.number (Number.ofDigits whole [])), line, rest⟩ := by
  unfold numberPiece
  rw [takeWhile_of_stop all stop, dropWhile_of_stop all stop]
  split
  · rename_i d more
    rw [if_neg (by simp [noFraction d more rfl])]
  · rfl

theorem numberPiece_of_fraction {whole fraction : List Char} {d : Char}
    (all : ∀ c ∈ whole, isDigit c = true) (digit : isDigit d = true)
    (all' : ∀ c ∈ fraction, isDigit c = true) (stop : ∀ c ∈ rest.head?, isDigit c = false) :
    numberPiece line (whole ++ '.' :: d :: (fraction ++ rest)) =
      ⟨.ok (.number (Number.ofDigits whole (d :: fraction))), line, rest⟩ := by
  have point : ∀ c ∈ ('.' :: d :: (fraction ++ rest)).head?, isDigit c = false := by
    rintro c ⟨⟩
    rfl
  unfold numberPiece
  rw [takeWhile_of_stop all point, dropWhile_of_stop all point]
  split
  · rename_i same
    cases same
    rw [if_pos digit, List.takeWhile_cons_of_pos digit, takeWhile_of_stop all' stop,
      dropWhile_of_stop all' stop]
  · rename_i other
    exact absurd rfl (other d _)

theorem wordPiece_of_stop {word : List Char} (all : ∀ c ∈ word, isWordRest c = true)
    (stop : ∀ c ∈ rest.head?, isWordRest c = false) :
    wordPiece line (word ++ rest) = ⟨.ok (Token.ofWord (String.ofList word)), line, rest⟩ := by
  unfold wordPiece
  rw [takeWhile_of_stop all stop, dropWhile_of_stop all stop]

end

theorem piece_of_isWordStart {c : Char} (h : isWordStart c = true) (line : Nat) (cs : List Char) :
    piece line c cs = wordPiece line (c :: cs) := by
  rw [piece, if_neg (ne_of_isWordStart h rfl), if_neg (by simp [isDigit_of_isWordStart h]),
    if_pos h]

theorem mark?_eq_none {c : Char} {cs : List Char} (h : mark? (c :: cs) = none)
    (ds : List Char) : mark? (c :: ds) = none := by
  cases found : mark? (c :: ds) with
  | none => rfl
  | some result =>
    unfold mark? at found
    split at found
    all_goals cases found
    all_goals rename_i shape
    all_goals cases shape
    all_goals first
      | cases h
      | rcases cs with _ | ⟨d, cs⟩
        · cases h
        · by_cases equal : d = '='
          · subst equal
            cases h
          · simp [mark?, equal] at h

end Scan

end Lox
