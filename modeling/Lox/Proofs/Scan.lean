import Lox.Proofs.Scan.Piece

/-!
Scanning two texts with a line end between them.

The tokens of a text do not depend on the line it starts on. `Lexes text toks` says that the text
has no lexical error and that `toks` are its tokens; unlike the items it does not mention lines. No
piece of a text goes on behind the line end, unless it is a string that is not closed, and a comment
ends there. So the tokens of the two texts stand one behind the other (`tokens_scan_append`).
-/

namespace Lox.Scan

/-! ### Lines do not matter -/

theorem skipTrivia_cons (inComment : Bool) (line : Nat) (c : Char) (cs : List Char) :
    skipTrivia inComment line (c :: cs) =
      if c = '\n' then skipTrivia false (line + 1) cs
      else if inComment then skipTrivia true line cs
      else if isBlank c then skipTrivia false line cs
      else if c = '/' ∧ cs.head? = some '/' then skipTrivia true line cs
      else (line, c :: cs) := rfl

theorem skipTrivia_line (inComment : Bool) (line line' : Nat) (text : List Char) :
    (skipTrivia inComment line text).2 = (skipTrivia inComment line' text).2 := by
  induction text generalizing inComment line line' with
  | nil => rfl
  | cons c cs ih =>
    unfold skipTrivia
    repeat' split
    all_goals first
      | exact ih _ _ _
      | rfl

theorem piece_line (line line' : Nat) (c : Char) (cs : List Char) :
    (piece line c cs).content = (piece line' c cs).content ∧
      (piece line c cs).rest = (piece line' c cs).rest := by
  unfold piece stringPiece numberPiece wordPiece
  dsimp only
  repeat' split
  all_goals exact ⟨rfl, rfl⟩

theorem items_of_nil {start line : Nat} {text : List Char}
    (h : skipTrivia false start text = (line, [])) : items start text = [⟨line, .ok .eof⟩] := by
  rw [items]
  split
  · rename_i split
    rw [h] at split
    cases split
    rfl
  · rename_i split
    rw [h] at split
    cases split

theorem items_of_cons {start line : Nat} {text cs : List Char} {c : Char}
    (h : skipTrivia false start text = (line, c :: cs)) :
    items start text = ⟨(piece line c cs).line, (piece line c cs).content⟩ ::
      items (piece line c cs).line (piece line c cs).rest := by
  rw [items]
  split
  · rename_i split
    rw [h] at split
    cases split
  · rename_i split
    rw [h] at split
    cases split
    rfl

/-! ### The tokens of a text -/

/-- The tokens of a text without lexical errors. -/
inductive Lexes : List Char → List Token → Prop where
  | nil {text} : (skipTrivia false 1 text).2 = [] → Lexes text []
  | cons {text c cs token toks} : (skipTrivia false 1 text).2 = c :: cs →
      (piece 1 c cs).content = .ok token → Lexes (piece 1 c cs).rest toks →
      Lexes text (token :: toks)

theorem ofWord_ne_eof (word : String) : Token.ofWord word ≠ .eof := by
  unfold Token.ofWord
  split <;> simp

/-- The end of the text is not the token of a piece. -/
theorem piece_ne_eof (line : Nat) (c : Char) (cs : List Char) :
    (piece line c cs).content ≠ .ok .eof := by
  unfold piece stringPiece numberPiece wordPiece
  dsimp only
  repeat' split
  all_goals simp [ofWord_ne_eof]

theorem tokens_cons_eq_ok {line : Nat} {content : Except LexicalError Token} {rest : List Item}
    {toks : List Token} (ne : content ≠ .ok .eof) :
    Item.tokens (⟨line, content⟩ :: rest) = .ok toks ↔
      ∃ token more, content = .ok token ∧ Item.tokens rest = .ok more ∧ toks = token :: more := by
  cases content with
  | error e => simp [Item.tokens]
  | ok token =>
    have unfolded : Item.tokens (⟨line, .ok token⟩ :: rest) =
        (Item.tokens rest).map (token :: ·) := by
      cases token with
      | eof => exact absurd rfl ne
      | _ =>
        simp only [Item.tokens]
        cases Item.tokens rest <;> rfl
    rw [unfolded]
    cases Item.tokens rest with
    | error e => simp [Except.map]
    | ok more => simp [Except.map, eq_comm]

theorem tokens_items_eq_ok {start : Nat} {text : List Char} {toks : List Token} :
    Item.tokens (items start text) = .ok toks ↔ Lexes text toks := by
  induction n : text.length using Nat.strongRecOn generalizing start text toks with
  | ind n ih =>
    subst n
    have skipped := skipTrivia_line false start 1 text
    have shorter := length_skipTrivia_le false start text
    cases split : skipTrivia false start text with
    | mk line rest =>
      rw [split] at skipped shorter
      cases rest with
      | nil =>
        rw [items_of_nil split]
        constructor
        · intro h
          cases h
          exact .nil skipped.symm
        · intro h
          cases h with
          | nil => rfl
          | cons other => exact absurd (skipped.trans other) (by simp)
      | cons c cs =>
        obtain ⟨content, behind⟩ := piece_line line 1 c cs
        have less : (piece line c cs).rest.length < text.length :=
          Nat.lt_of_le_of_lt (length_piece_le line c cs) shorter
        rw [items_of_cons split, tokens_cons_eq_ok (piece_ne_eof line c cs)]
        constructor
        · rintro ⟨token, more, found, ahead, rfl⟩
          have lexed := (ih _ less rfl).mp ahead
          rw [behind] at lexed
          exact .cons skipped.symm (content.symm.trans found) lexed
        · intro h
          cases h with
          | nil other => exact absurd (skipped.trans other) (by simp)
          | cons other found lexed =>
            cases skipped.trans other
            rw [← behind] at lexed
            exact ⟨_, _, content.trans found, (ih _ less rfl).mpr lexed, rfl⟩

/-! ### A line end between two texts -/

/-- Where a text is over, a line end and another text may follow: a comment ends with the line. -/
theorem skipTrivia_append_of_nil {inComment : Bool} {start line : Nat} {text : List Char}
    (h : skipTrivia inComment start text = (line, [])) (more : List Char) :
    skipTrivia inComment start (text ++ '\n' :: more) = skipTrivia false (line + 1) more := by
  induction text generalizing inComment start with
  | nil =>
    cases h
    rw [List.nil_append, skipTrivia_cons, if_pos rfl]
  | cons c cs ih =>
    rw [skipTrivia_cons] at h
    rw [List.cons_append, skipTrivia_cons]
    by_cases newline : c = '\n'
    · rw [if_pos newline] at h ⊢
      exact ih h
    rw [if_neg newline] at h ⊢
    by_cases comment : inComment = true
    · rw [if_pos comment] at h ⊢
      exact ih h
    rw [if_neg comment] at h ⊢
    by_cases blank : isBlank c = true
    · rw [if_pos blank] at h ⊢
      exact ih h
    rw [if_neg blank] at h ⊢
    by_cases opens : c = '/' ∧ cs.head? = some '/'
    · rw [if_pos opens] at h
      rw [if_pos ⟨opens.1, by simp [opens.2]⟩]
      exact ih h
    · rw [if_neg opens] at h
      cases h

theorem skipTrivia_append_of_cons {inComment : Bool} {start line : Nat} {text cs : List Char}
    {c : Char} (h : skipTrivia inComment start text = (line, c :: cs)) (more : List Char) :
    skipTrivia inComment start (text ++ '\n' :: more) = (line, c :: (cs ++ '\n' :: more)) := by
  induction text generalizing inComment start with
  | nil => cases h
  | cons d ds ih =>
    rw [skipTrivia_cons] at h
    rw [List.cons_append, skipTrivia_cons]
    by_cases newline : d = '\n'
    · rw [if_pos newline] at h ⊢
      exact ih h
    rw [if_neg newline] at h ⊢
    by_cases comment : inComment = true
    · rw [if_pos comment] at h ⊢
      exact ih h
    rw [if_neg comment] at h ⊢
    by_cases blank : isBlank d = true
    · rw [if_pos blank] at h ⊢
      exact ih h
    rw [if_neg blank] at h ⊢
    have heads : (ds ++ '\n' :: more).head? = some '/' ↔ ds.head? = some '/' := by
      cases ds <;> simp
    by_cases opens : d = '/' ∧ ds.head? = some '/'
    · rw [if_pos opens] at h
      rw [if_pos ⟨opens.1, heads.mpr opens.2⟩]
      exact ih h
    · rw [if_neg opens] at h
      rw [if_neg fun both => opens ⟨both.1, heads.mp both.2⟩]
      cases h
      rfl

section

variable {p : Char → Bool} (h : p '\n' = false) (text more : List Char)

include h

theorem takeWhile_append_newline :
    (text ++ '\n' :: more).takeWhile p = text.takeWhile p := by
  induction text with
  | nil => simp [h]
  | cons c cs ih => by_cases pos : p c <;> simp [pos, ih]

theorem dropWhile_append_newline :
    (text ++ '\n' :: more).dropWhile p = text.dropWhile p ++ '\n' :: more := by
  induction text with
  | nil => simp [h]
  | cons c cs ih => by_cases pos : p c <;> simp [pos, ih]

end

/-- A string that is closed ends before whatever follows. -/
theorem stringPiece_append {line : Nat} {text : List Char}
    (h : (stringPiece line text).content ≠ .error .unterminatedString) (more : List Char) :
    stringPiece line (text ++ more) =
      { stringPiece line text with rest := (stringPiece line text).rest ++ more } := by
  have closed : text.dropWhile (· ≠ '"') ≠ [] := by
    intro unclosed
    unfold stringPiece at h
    rw [unclosed] at h
    exact h rfl
  have before : (text ++ more).takeWhile (· ≠ '"') = text.takeWhile (· ≠ '"') := by
    rw [List.takeWhile_append, if_neg]
    intro same
    have parts := congrArg List.length (@List.takeWhile_append_dropWhile _ (· ≠ '"') text)
    rw [List.length_append, same] at parts
    exact closed (List.eq_nil_of_length_eq_zero (by omega))
  have behind : (text ++ more).dropWhile (· ≠ '"') = text.dropWhile (· ≠ '"') ++ more := by
    rw [List.dropWhile_append, if_neg (mt List.isEmpty_iff.mp closed)]
  unfold stringPiece
  rw [before, behind]
  obtain ⟨quote, rest, shape⟩ := List.exists_cons_of_ne_nil closed
  rw [shape]
  rfl

theorem numberPiece_append (line : Nat) (text more : List Char) :
    numberPiece line (text ++ '\n' :: more) =
      { numberPiece line text with rest := (numberPiece line text).rest ++ '\n' :: more } := by
  have stop : isDigit '\n' = false := rfl
  unfold numberPiece
  rw [takeWhile_append_newline stop, dropWhile_append_newline stop]
  cases text.dropWhile isDigit with
  | nil => rfl
  | cons point rest =>
    by_cases dot : point = '.'
    · subst dot
      cases rest with
      | nil => rfl
      | cons d rest =>
        by_cases digit : isDigit d = true
        · simp [digit, takeWhile_append_newline stop, dropWhile_append_newline stop]
        · simp [digit]
    · simp [dot]

/-- No mark in front of a line end is the beginning of a longer one. -/
theorem mark?_append {c : Char} {cs rest : List Char} {m : Mark}
    (h : mark? (c :: cs) = some (m, rest)) (more : List Char) :
    mark? (c :: (cs ++ '\n' :: more)) = some (m, rest ++ '\n' :: more) := by
  unfold mark? at h
  split at h
  all_goals cases h
  all_goals rename_i shape
  all_goals cases shape
  case h_13.refl.refl | h_15.refl.refl | h_17.refl.refl | h_19.refl.refl =>
    rename_i single
    cases cs with
    | nil => rfl
    | cons d ds =>
      have ne : d ≠ '=' := fun same => single ds (by rw [same])
      simp [mark?, ne]
  all_goals rfl

/-- Only a string that is not closed takes the line end behind it. -/
theorem piece_append {line : Nat} {c : Char} {cs : List Char}
    (h : (piece line c cs).content ≠ .error .unterminatedString) (more : List Char) :
    piece line c (cs ++ '\n' :: more) =
      { piece line c cs with rest := (piece line c cs).rest ++ '\n' :: more } := by
  unfold piece at h ⊢
  split
  · rename_i quote
    rw [if_pos quote] at h
    exact stringPiece_append h _
  · split
    · exact numberPiece_append line (c :: cs) more
    · split
      · have stop : isWordRest '\n' = false := rfl
        unfold wordPiece
        rw [← List.cons_append, takeWhile_append_newline stop, dropWhile_append_newline stop]
      · cases found : mark? (c :: cs) with
        | none => rw [mark?_eq_none found]
        | some mark => rw [mark?_append found]

theorem Lexes.append {text more : List Char} {toks toks' : List Token} (first : Lexes text toks)
    (second : Lexes more toks') : Lexes (text ++ '\n' :: more) (toks ++ toks') := by
  induction first with
  | nil ended =>
    have skipped := (congrArg Prod.snd (skipTrivia_append_of_nil (Prod.ext rfl ended) more)).trans
      (skipTrivia_line false _ 1 more)
    cases second with
    | nil ended => exact .nil (skipped.trans ended)
    | cons split found rest => exact .cons (skipped.trans split) found rest
  | @cons text c cs token toks split found _ ih =>
    have closed : (piece 1 c cs).content ≠ .error .unterminatedString := by simp [found]
    have longer := piece_append closed more
    refine .cons (congrArg Prod.snd (skipTrivia_append_of_cons (Prod.ext rfl split) more)) ?_ ?_
    · rw [longer]
      exact found
    · rw [longer]
      exact ih

/-- A string is open where no quote follows that would close it. -/
theorem open_of_unterminated {line : Nat} {c : Char} {cs : List Char}
    (h : (piece line c cs).content = .error .unterminatedString) : c = '"' ∧ '"' ∉ cs := by
  by_cases quote : c = '"'
  · refine ⟨quote, fun mem => ?_⟩
    obtain ⟨front, rest, rfl, outside, ends⟩ := exists_before '"' cs
    cases rest with
    | nil => exact outside (by simpa using mem)
    | cons d rest =>
      obtain rfl := ends d rfl
      rw [piece, if_pos quote, stringPiece_of_closed outside] at h
      cases h
  · unfold piece numberPiece wordPiece at h
    rw [if_neg quote] at h
    dsimp only at h
    repeat' split at h
    all_goals cases h

theorem Lexes.unique {text : List Char} {toks toks' : List Token} (h : Lexes text toks)
    (h' : Lexes text toks') : toks = toks' := by
  rw [← @tokens_items_eq_ok 1] at h h'
  exact Except.ok.inj (h.symm.trans h')

/-- Where no quote follows behind a line end, the texts in front of it and behind it have no lexical
errors if the whole has none. -/
theorem Lexes.of_append {text more : List Char} {toks : List Token} (noQuote : '"' ∉ more)
    (h : Lexes (text ++ '\n' :: more) toks) :
    ∃ front behind, toks = front ++ behind ∧ Lexes text front ∧ Lexes more behind := by
  induction size : text.length using Nat.strongRecOn generalizing text toks with
  | ind size ih =>
    subst size
    have shorter := length_skipTrivia_le false 1 text
    rcases split : skipTrivia false 1 text with ⟨line, _ | ⟨c, cs⟩⟩
    · have skipped := (congrArg Prod.snd (skipTrivia_append_of_nil split more)).trans
        (skipTrivia_line false _ 1 more)
      have ended : Lexes text [] := .nil (congrArg Prod.snd split)
      cases h with
      | nil finished => exact ⟨[], [], rfl, ended, .nil (skipped.symm.trans finished)⟩
      | cons ahead found rest =>
        exact ⟨[], _, rfl, ended, .cons (skipped.symm.trans ahead) found rest⟩
    · have skipped := congrArg Prod.snd (skipTrivia_append_of_cons split more)
      rw [split] at shorter
      have less : (piece 1 c cs).rest.length < text.length :=
        Nat.lt_of_le_of_lt (length_piece_le 1 c cs) shorter
      cases h with
      | nil finished =>
        rw [skipped] at finished
        cases finished
      | @cons _ c' cs' token toks ahead found rest =>
        cases skipped.symm.trans ahead
        have closed : (piece 1 c cs).content ≠ .error .unterminatedString := by
          intro unclosed
          obtain ⟨rfl, outside⟩ := open_of_unterminated unclosed
          -- there is no quote behind the line end either
          have inside : '"' ∉ cs ++ '\n' :: more := by simp [outside, noQuote]
          rw [piece, if_pos rfl, stringPiece_of_open inside] at found
          cases found
        rw [piece_append closed] at found rest
        obtain ⟨front, behind, rfl, lexed, lexed'⟩ := ih _ less rest rfl
        exact ⟨token :: front, behind, rfl, .cons (congrArg Prod.snd split) found lexed, lexed'⟩

end Lox.Scan

namespace Lox

theorem tokens_scan_eq_ok {text : String} {toks : List Token} :
    Item.tokens (scan text) = .ok toks ↔ Scan.Lexes text.toList toks :=
  Scan.tokens_items_eq_ok

theorem tokens_scan_append {text more : String} {toks toks' : List Token}
    (first : Item.tokens (scan text) = .ok toks) (second : Item.tokens (scan more) = .ok toks') :
    Item.tokens (scan (text ++ "\n" ++ more)) = .ok (toks ++ toks') := by
  rw [tokens_scan_eq_ok] at *
  have lexed := first.append second
  simpa using lexed

end Lox
