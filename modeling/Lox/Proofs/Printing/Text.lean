import Lox.Proofs.Number
import Lox.Proofs.Printing.Tree
import Lox.Proofs.Scan.Exact

/-!
Words and their text.

A text of lexemes with blanks between them is scanned as these lexemes (`tokens_scan_textOf`), and
every token of a scanned text is that of a lexeme (`exists_lexeme_of_mem`). So what can be written,
and what can be read, is what lexemes there are (`Lexicon.written`, `Lexicon.read`), and the tokens
of a text, written with blanks between them, are the tokens of what is written
(`tokens_textOf_of_scan`).
-/

namespace Lox

open Scan

/-! ### What can be written and what can be read -/

/-- Whether the bits stand for a number that is neither an infinity nor NaN. -/
def Double.isFinite (x : Double) : Bool := !x.isNaN && !x.isInfinite

/-- Identifiers, finite numbers without a sign, and strings without quotes. -/
def Lexicon.written : Lexicon where
  name := IsIdentifier
  number x := x.isFinite = true ∧ x.isNegative = false
  string s := '"' ∉ s.toList

/-- As `Lexicon.written`, with the infinity: a literal may be too large for a finite number. -/
def Lexicon.read : Lexicon where
  name := IsIdentifier
  number x := x.isNaN = false ∧ x.isNegative = false
  string s := '"' ∉ s.toList

/-- The text of a number is a literal that denotes it. -/
def Number.ReadsBack (x : Double) : Prop := Lexeme (Number.text x).toList (.number x)

/-- The double of the literal `2.5`. -/
def twoAndAHalf : Double := ⟨0x4004000000000000⟩

theorem readsBack_twoAndAHalf : Number.ReadsBack twoAndAHalf := by
  have text : Number.text twoAndAHalf = "2.5" := by decide +kernel
  have denoted : Number.ofDigits ['2'] ['5'] = twoAndAHalf := by decide +kernel
  unfold Number.ReadsBack
  rw [text, ← denoted]
  exact @Lexeme.fraction ['2'] ['5'] (List.cons_ne_nil _ _) (List.forall_mem_singleton.mpr rfl)
    (List.cons_ne_nil _ _) (List.forall_mem_singleton.mpr rfl)

/-- The text of a token is its lexeme. -/
theorem Token.lexeme {token : Token} (h : token.Admitted .written)
    (readsBack : ∀ x, token = .number x → Number.ReadsBack x) :
    Lexeme token.text.toList token := by
  cases token with
  | eof => exact h.elim
  | mark m => exact .mark m
  | keyword k => exact .keyword k
  | identifier name => exact .identifier h
  | number x => exact readsBack x rfl
  | string contents =>
    have lexeme : Lexeme _ (.string (String.ofList contents.toList)) := .string h
    rw [String.ofList_toList] at lexeme
    simpa [Token.text] using lexeme

theorem Scan.Lexeme.admitted {taken : List Char} {token : Token} (h : Lexeme taken token) :
    token.Admitted .read := by
  cases h with
  | mark | keyword => trivial
  | identifier identifier => exact identifier
  | whole | fraction =>
    obtain ⟨negative, nan⟩ := Double.unsigned_iff.mp (unsigned_ofDigits _ _)
    exact ⟨nan, negative⟩
  | string closed =>
    simpa [Token.Admitted, Lexicon.read] using closed

/-! ### Words with blanks between them -/

/-- Words with blanks between them. -/
def textOf (toks : List Token) : String := " ".intercalate (toks.map Token.text)

/-- A lexeme that stops where it should stands at the front of its text. -/
theorem Scan.Lexeme.startsPiece {taken rest : List Char} {token : Token} (h : Lexeme taken token)
    (stops : Stops rest) : StartsPiece (taken ++ rest) := by
  obtain ⟨c, cs, rfl, read⟩ := piece_of_lexeme stops 1 h
  rw [List.cons_append]
  refine startsPiece_cons ?_ ?_ ?_
  · rintro rfl
    cases read
  · rw [Bool.eq_false_iff]
    intro blank
    simp only [isBlank, Bool.or_eq_true, beq_iff_eq] at blank
    rcases blank with (rfl | rfl) | rfl <;> cases read
  · rintro ⟨rfl, second⟩
    -- the slash alone would be the lexeme, and what follows a lexeme is no slash
    injection read with _ _ same
    obtain rfl := List.append_left_eq_self.mp same
    have stop := stops '/' second
    revert stop
    decide

theorem Scan.Lexes.cons_of_lexeme {taken rest : List Char} {token : Token} {toks : List Token}
    (h : Lexeme taken token) (stops : Stops rest) (lexed : Lexes rest toks) :
    Lexes (taken ++ rest) (token :: toks) := by
  have ahead := (h.startsPiece stops).skipTrivia 1
  obtain ⟨c, cs, rfl, read⟩ := piece_of_lexeme stops 1 h
  rw [List.cons_append] at ahead ⊢
  refine .cons (congrArg Prod.snd ahead) ?_ ?_
  · rw [read]
  · rw [read]
    exact lexed

theorem Scan.Lexes.blank {text : List Char} {toks : List Token} (h : Lexes text toks) :
    Lexes (' ' :: text) toks := by
  have skipped : skipTrivia false 1 (' ' :: text) = skipTrivia false 1 text := rfl
  cases h with
  | nil ended => exact .nil (skipped ▸ ended)
  | cons ahead found behind => exact .cons (skipped ▸ ahead) found behind

theorem toList_textOf_cons (token second : Token) (toks : List Token) :
    (textOf (token :: second :: toks)).toList =
      token.text.toList ++ ' ' :: (textOf (second :: toks)).toList := by
  simp [textOf, String.intercalate_cons_cons]

theorem lexes_textOf {toks : List Token} (h : ∀ token ∈ toks, Lexeme token.text.toList token) :
    Lexes (textOf toks).toList toks := by
  induction toks with
  | nil => exact .nil rfl
  | cons token rest ih =>
    obtain ⟨first, others⟩ := List.forall_mem_cons.mp h
    cases rest with
    | nil =>
      have alone : (textOf [token]).toList = token.text.toList ++ [] := by simp [textOf]
      rw [alone]
      exact .cons_of_lexeme first nofun (.nil rfl)
    | cons second rest =>
      rw [toList_textOf_cons]
      have stops : Stops (' ' :: (textOf (second :: rest)).toList) := by
        rintro c ⟨⟩
        exact .inl rfl
      exact .cons_of_lexeme first stops (ih others).blank

/-- A text of lexemes with blanks between them is scanned as these lexemes. -/
theorem tokens_scan_textOf {toks : List Token}
    (h : ∀ token ∈ toks, Lexeme token.text.toList token) :
    Item.tokens (scan (textOf toks)) = .ok toks :=
  tokens_scan_eq_ok.mpr (lexes_textOf h)

/-! ### The tokens of a text -/

theorem Scan.Splits.lexeme {before text : List Char} {items : List Item}
    (h : Splits before text items) : ∀ item ∈ items, ∀ token, item.content = .ok token →
      token = .eof ∨ ∃ taken, Lexeme taken token := by
  induction h with
  | eof =>
    intro item mem token same
    obtain rfl := List.mem_singleton.mp mem
    cases same
    exact .inl rfl
  | piece _ _ cut _ ih =>
    intro item mem token same
    rcases List.mem_cons.mp mem with rfl | mem
    · cases same
      cases cut with
      | lexeme lexeme => exact .inr ⟨_, lexeme⟩
    · exact ih item mem token same

theorem Item.mem_of_tokens {items : List Item} {toks : List Token}
    (h : Item.tokens items = .ok toks) :
    ∀ token ∈ toks, token ≠ .eof ∧ ∃ item ∈ items, item.content = .ok token := by
  induction items generalizing toks with
  | nil =>
    cases h
    nofun
  | cons item rest ih =>
    obtain ⟨line, content⟩ := item
    by_cases ended : content = .ok .eof
    · subst ended
      cases h
      nofun
    · obtain ⟨first, more, rfl, found, rfl⟩ := (tokens_cons_eq_ok ended).mp h
      intro token mem
      rcases List.mem_cons.mp mem with rfl | mem
      · refine ⟨?_, _, List.mem_cons_self, rfl⟩
        rintro rfl
        exact ended rfl
      · obtain ⟨ne, item, mem, same⟩ := ih found token mem
        exact ⟨ne, item, List.mem_cons_of_mem _ mem, same⟩

/-- Every token of a text is that of a lexeme. -/
theorem exists_lexeme_of_mem {text : String} {toks : List Token}
    (scanned : Item.tokens (scan text) = .ok toks) :
    ∀ token ∈ toks, ∃ taken, Lexeme taken token := by
  intro token mem
  obtain ⟨ne, item, mem, same⟩ := Item.mem_of_tokens scanned token mem
  exact ((splits_items [] text.toList).lexeme item mem token same).resolve_left ne

/-- What can be read can be written, but for numbers that are too large. -/
theorem Token.Admitted.written {token : Token} (h : token.Admitted .read)
    (finite : ∀ x, token = .number x → x.isFinite = true) : token.Admitted .written := by
  cases token with
  | number x => exact ⟨finite x rfl, h.2⟩
  | eof => exact h
  | mark | keyword => trivial
  | identifier | string => exact h

/-! ### The text of the tokens of a text -/

/-- The tokens of a text, written with blanks between them, are read back. Of the numbers among them
it is taken for granted that the text of a finite number without a sign is a literal for it. -/
theorem tokens_textOf_of_scan {text : String} {toks : List Token}
    (scanned : Item.tokens (scan text) = .ok toks)
    (finite : ∀ x, .number x ∈ toks → x.isFinite = true)
    (readsBack : ∀ x, .number x ∈ toks → x.isFinite = true → x.isNegative = false →
      Number.ReadsBack x) :
    Item.tokens (scan (textOf toks)) = .ok toks := by
  refine tokens_scan_textOf fun token mem => ?_
  obtain ⟨taken, lexeme⟩ := exists_lexeme_of_mem scanned token mem
  have written : token.Admitted .written := by
    refine lexeme.admitted.written ?_
    rintro x rfl
    exact finite x mem
  refine Token.lexeme written ?_
  rintro x rfl
  exact readsBack x mem written.1 written.2

/-- Words that stand close together, and a string that looks like a comment. -/
def closeWords : List Token :=
  [.identifier "a", .mark .dot, .keyword .or, .mark .equal, .number twoAndAHalf, .mark .bangEqual,
    .string "b // \n"]

theorem tokens_textOf_of_scan_closeWords :
    Item.tokens (scan "a.or=2.5!=\"b // \n\"") = .ok closeWords ∧
      Item.tokens (scan "a . or = 2.5 != \"b // \n\"") = .ok closeWords := by
  have scanned : Item.tokens (scan "a.or=2.5!=\"b // \n\"") = .ok closeWords := by
    decide +kernel
  have written : textOf closeWords = "a . or = 2.5 != \"b // \n\"" := by
    decide +kernel
  have only : ∀ x, .number x ∈ closeWords → x = twoAndAHalf := by
    simp [closeWords]
  have read := tokens_textOf_of_scan scanned (fun x mem => only x mem ▸ rfl)
    (fun x mem _ _ => only x mem ▸ readsBack_twoAndAHalf)
  rw [written] at read
  exact ⟨scanned, read⟩

end Lox
