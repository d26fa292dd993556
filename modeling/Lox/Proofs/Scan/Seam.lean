import Lox.Proofs.Scan.Exact

/-!
The items of two texts with a line end between them.

What `tokens_scan_append` says of texts without lexical errors holds of the items with their lines,
errors included: but for its line number the scanner keeps nothing over a line end. Only a string
that is not closed reaches over it. So the items of the first text stand in front, without its end,
and behind them the items of the second, as many lines further down as the first text has
(`scan_append_newline`).
-/

namespace Lox

/-- The item as it is found in a text that starts `n` lines further down. -/
def Item.down (n : Nat) (item : Item) : Item := { item with line := item.line + n }

namespace Scan

/-! ### A text further down -/

theorem skipTrivia_down (inComment : Bool) (line n : Nat) (text : List Char) :
    skipTrivia inComment (line + n) text =
      ((skipTrivia inComment line text).1 + n, (skipTrivia inComment line text).2) := by
  induction text generalizing inComment line with
  | nil => rfl
  | cons c cs ih =>
    rw [skipTrivia_cons, skipTrivia_cons, Nat.add_right_comm line n 1]
    repeat' split
    all_goals first
      | exact ih _ _
      | rfl

theorem piece_down (line n : Nat) (c : Char) (cs : List Char) :
    piece (line + n) c cs = { piece line c cs with line := (piece line c cs).line + n } := by
  unfold piece stringPiece numberPiece wordPiece
  dsimp only
  rw [Nat.add_right_comm line n]
  repeat' split
  all_goals rfl

theorem items_down (start n : Nat) (text : List Char) :
    items (start + n) text = (items start text).map (Item.down n) := by
  induction size : text.length using Nat.strongRecOn generalizing start text with
  | ind size ih =>
    subst size
    have below := skipTrivia_down false start n text
    have shorter := length_skipTrivia_le false start text
    rcases split : skipTrivia false start text with ⟨line, _ | ⟨c, cs⟩⟩
    · rw [split] at below
      rw [items_of_nil below, items_of_nil split]
      rfl
    · rw [split] at below shorter
      have less : (piece line c cs).rest.length < text.length :=
        Nat.lt_of_le_of_lt (length_piece_le line c cs) shorter
      rw [items_of_cons below, items_of_cons split, piece_down, ih _ less _ _ rfl]
      rfl

/-! ### The end of a text -/

/-- The items of a text end with its end, which is found on its last line. -/
theorem Splits.exists_eof {before text : List Char} {found : List Item}
    (h : Splits before text found) :
    ∃ front, found = front ++ [⟨lineAfter (before ++ text), .ok .eof⟩] := by
  induction h with
  | eof => exact ⟨[], rfl⟩
  | @piece before trivia taken content rest _ _ _ _ _ ih =>
    obtain ⟨front, rfl⟩ := ih
    refine ⟨⟨lineAfter (before ++ trivia ++ taken), content⟩ :: front, ?_⟩
    rw [List.cons_append]
    simp only [List.append_assoc]

theorem items_ne_nil (start : Nat) (text : List Char) : items start text ≠ [] := by
  rw [items]
  split <;> exact List.cons_ne_nil _ _

theorem items_congr {start line : Nat} {text more : List Char}
    (h : skipTrivia false start text = skipTrivia false line more) :
    items start text = items line more := by
  rcases split : skipTrivia false line more with ⟨ahead, _ | ⟨c, cs⟩⟩
  · rw [items_of_nil split, items_of_nil (h.trans split)]
  · rw [items_of_cons split, items_of_cons (h.trans split)]

/-- Behind the end of a text and a line end, the items of the next text follow. -/
theorem items_append {start line : Nat} {text : List Char} {front : List Item}
    (h : items start text = front ++ [⟨line, .ok .eof⟩])
    (closed : ∀ item ∈ front, item.content ≠ .error .unterminatedString) (more : List Char) :
    items start (text ++ '\n' :: more) = front ++ items (line + 1) more := by
  induction size : text.length using Nat.strongRecOn generalizing start text front with
  | ind size ih =>
    subst size
    have shorter := length_skipTrivia_le false start text
    rcases split : skipTrivia false start text with ⟨ahead, _ | ⟨c, cs⟩⟩
    · rw [items_of_nil split] at h
      obtain ⟨rfl, ended⟩ | ⟨_, never⟩ := List.singleton_eq_append_iff.mp h
      · cases ended
        exact items_congr (skipTrivia_append_of_nil split more)
      · cases never
    · rw [split] at shorter
      have less : (piece ahead c cs).rest.length < text.length :=
        Nat.lt_of_le_of_lt (length_piece_le ahead c cs) shorter
      rw [items_of_cons split] at h
      obtain ⟨rfl, ended⟩ | ⟨behind, rfl, rest⟩ := List.cons_eq_append_iff.mp h
      · exact absurd (List.cons.inj ended).2.symm (items_ne_nil _ _)
      · obtain ⟨here, closed⟩ := List.forall_mem_cons.mp closed
        rw [items_of_cons (skipTrivia_append_of_cons split more), piece_append here,
          ih _ less rest closed rfl]
        rfl

end Scan

/-- The items of two texts with a line end between them, where the first leaves no string open: those
of the first without its end, and those of the second, moved down by the lines of the first. -/
theorem scan_append_newline (text more : String)
    (closed : ∀ item ∈ scan text, item.content ≠ .error .unterminatedString) :
    ∃ items, scan text = items ++ [⟨text.toList.count '\n' + 1, .ok .eof⟩] ∧
      scan (text ++ "\n" ++ more) =
        items ++ (scan more).map (Item.down (text.toList.count '\n' + 1)) := by
  have splits : Scan.Splits [] text.toList (scan text) := Scan.splits_items [] text.toList
  obtain ⟨items, found⟩ := splits.exists_eof
  have line : Scan.lineAfter text.toList = text.toList.count '\n' + 1 := Nat.add_comm _ _
  rw [List.nil_append, line] at found
  refine ⟨items, found, ?_⟩
  rw [found] at closed
  have whole := Scan.items_append found (fun item mem => closed item (List.mem_append_left _ mem))
    more.toList
  rw [Nat.add_comm _ 1, Scan.items_down] at whole
  simpa [scan] using whole

/-- Neither the unexpected character nor the comment nor the half operator in front of the line end
changes what is found behind it, where a string is left open. -/
theorem scan_append_newline_halfOperator :
    (∀ item ∈ scan "@ // a\n!", item.content ≠ .error .unterminatedString) ∧
      ∃ items, scan "@ // a\n!" = items ++ [⟨2, .ok .eof⟩] ∧
        scan ("@ // a\n!" ++ "\n" ++ "= \"b") =
          items ++ (scan "= \"b").map (Item.down 2) := by
  have ended : (scan "@ // a\n!").all (·.content matches .ok _ | .error (.unexpectedChar _)) := by
    cbv
  have closed : ∀ item ∈ scan "@ // a\n!", item.content ≠ .error .unterminatedString := by
    intro item mem never
    have found := List.all_eq_true.mp ended item mem
    rw [never] at found
    cases found
  exact ⟨closed, scan_append_newline "@ // a\n!" "= \"b" closed⟩

end Lox
