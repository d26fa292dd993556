import Lox.Proofs.Renaming.Parse
import Lox.Proofs.Scan
import Lox.Proofs.Scan.Piece

/-!
Renaming the identifiers of a text.

`renameText r text` replaces every identifier token of a text by its image under `r` and keeps
everything else: blanks, comments, strings, numbers, marks and keywords. If `r` takes identifiers to
identifiers, the renamed text scans to the renamed items (`scan_renameText`). What has to be seen is
that the replaced words change nothing around them: each piece of the text ends where it did, since
it is followed by a text that starts alike (`StartsAlike`).
-/

namespace Lox.Scan

/-! ### The renamed text -/

/-- The part of a text in front of what is left of it. -/
def upTo (text rest : List Char) : List Char := text.take (text.length - rest.length)

/-- How a piece is written in the renamed text. -/
def respell (r : Name → Name) (content : Except LexicalError Token) (written : List Char) :
    List Char :=
  match content with
  | .ok (.identifier name) => (r name).toList
  | _ => written

/-- A text that starts on the given line, with every identifier token replaced by its image. -/
def renamed (r : Name → Name) (start : Nat) (text : List Char) : List Char :=
  match _split : skipTrivia false start text with
  | (_, []) => text
  | (line, c :: cs) =>
    upTo text (c :: cs)
      ++ (respell r (piece line c cs).content (upTo (c :: cs) (piece line c cs).rest)
      ++ renamed r (piece line c cs).line (piece line c cs).rest)
termination_by text.length
decreasing_by
  have skipped := length_skipTrivia_le false start text
  have taken := length_piece_le line c cs
  rw [_split] at skipped
  exact Nat.lt_of_le_of_lt taken skipped

theorem upTo_append (front rest : List Char) : upTo (front ++ rest) rest = front := by
  unfold upTo
  rw [List.length_append, Nat.add_sub_cancel, List.take_left]

/-! ### Texts that start alike -/

/-- Two texts with the same first character, or both starting with a word. -/
inductive HeadsAlike : List Char → List Char → Prop where
  | nil : HeadsAlike [] []
  | same (c : Char) (cs ds : List Char) : HeadsAlike (c :: cs) (c :: ds)
  | word {c d : Char} (cs ds : List Char) : isWordStart c = true → isWordStart d = true →
      HeadsAlike (c :: cs) (d :: ds)

/-- Two texts that cannot be told apart by the piece in front of them: both start with a word, or
with the same character and then alike. -/
inductive StartsAlike : List Char → List Char → Prop where
  | nil : StartsAlike [] []
  | same (c : Char) {cs ds : List Char} : HeadsAlike cs ds → StartsAlike (c :: cs) (c :: ds)
  | word {c d : Char} (cs ds : List Char) : isWordStart c = true → isWordStart d = true →
      StartsAlike (c :: cs) (d :: ds)

theorem HeadsAlike.refl (cs : List Char) : HeadsAlike cs cs := by
  cases cs with
  | nil => exact .nil
  | cons c cs => exact .same c cs cs

theorem StartsAlike.refl (cs : List Char) : StartsAlike cs cs := by
  cases cs with
  | nil => exact .nil
  | cons c cs => exact .same c (.refl cs)

theorem StartsAlike.heads {cs ds : List Char} (h : StartsAlike cs ds) : HeadsAlike cs ds := by
  cases h with
  | nil => exact .nil
  | same c _ => exact .same c _ _
  | word cs ds start start' => exact .word cs ds start start'

theorem StartsAlike.append {cs ds : List Char} (h : StartsAlike cs ds) (front : List Char) :
    StartsAlike (front ++ cs) (front ++ ds) := by
  rcases front with _ | ⟨c, _ | ⟨d, front⟩⟩
  · exact h
  · exact .same c h.heads
  · exact .same c (.same d _ _)

/-- Where one text does not go on with a certain kind of character, neither does the other. -/
theorem HeadsAlike.stops {cs ds : List Char} {p : Char → Bool} (h : HeadsAlike cs ds)
    (blind : ∀ c d, isWordStart c = true → isWordStart d = true → p c = p d)
    (stop : ∀ c ∈ cs.head?, p c = false) : ∀ d ∈ ds.head?, p d = false := by
  cases h with
  | nil => exact stop
  | same c _ _ => exact stop
  | word cs ds start start' =>
    intro e mem
    cases mem
    rw [← blind _ _ start start']
    exact stop _ rfl

theorem HeadsAlike.head?_eq_some_iff {cs ds : List Char} {c : Char} (h : HeadsAlike cs ds)
    (other : isWordStart c = false) : cs.head? = some c ↔ ds.head? = some c := by
  cases h with
  | nil => exact Iff.rfl
  | same d _ _ => exact Iff.rfl
  | word cs ds start start' =>
    constructor
    · rintro ⟨⟩
      rw [start] at other
      cases other
    · rintro ⟨⟩
      rw [start'] at other
      cases other

/-! ### Trivia -/

/-- What is skipped in front of a text is skipped in front of every text that starts alike. -/
theorem skipTrivia_local {inComment : Bool} {start line : Nat} {text rest : List Char}
    (h : skipTrivia inComment start text = (line, rest)) :
    ∃ front, text = front ++ rest ∧ ∀ other, StartsAlike rest other →
      skipTrivia inComment start (front ++ other) = (line, other) := by
  induction text generalizing inComment start with
  | nil =>
    cases h
    refine ⟨[], rfl, fun other alike => ?_⟩
    cases alike
    rfl
  | cons c cs ih =>
    rw [skipTrivia_cons] at h
    by_cases newline : c = '\n'
    · rw [if_pos newline] at h
      obtain ⟨front, rfl, skips⟩ := ih h
      refine ⟨c :: front, rfl, fun other alike => ?_⟩
      rw [List.cons_append, skipTrivia_cons, if_pos newline, skips other alike]
    rw [if_neg newline] at h
    by_cases comment : inComment = true
    · rw [if_pos comment] at h
      obtain ⟨front, rfl, skips⟩ := ih h
      refine ⟨c :: front, rfl, fun other alike => ?_⟩
      rw [List.cons_append, skipTrivia_cons, if_neg newline, if_pos comment, skips other alike]
    rw [if_neg comment] at h
    by_cases blank : isBlank c = true
    · rw [if_pos blank] at h
      obtain ⟨front, rfl, skips⟩ := ih h
      refine ⟨c :: front, rfl, fun other alike => ?_⟩
      rw [List.cons_append, skipTrivia_cons, if_neg newline, if_neg comment, if_pos blank,
        skips other alike]
    rw [if_neg blank] at h
    by_cases opens : c = '/' ∧ cs.head? = some '/'
    · rw [if_pos opens] at h
      obtain ⟨front, rfl, skips⟩ := ih h
      refine ⟨c :: front, rfl, fun other alike => ?_⟩
      have second := (alike.append front).heads.head?_eq_some_iff (c := '/') rfl
      rw [List.cons_append, skipTrivia_cons, if_neg newline, if_neg comment, if_neg blank,
        if_pos ⟨opens.1, second.mp opens.2⟩, skips other alike]
    · rw [if_neg opens] at h
      cases h
      refine ⟨[], rfl, fun other alike => ?_⟩
      rw [List.nil_append]
      cases alike with
      | same _ heads =>
        rw [skipTrivia_cons, if_neg newline, if_neg comment, if_neg blank, if_neg]
        rw [← heads.head?_eq_some_iff rfl]
        exact opens
      | @word _ d _ ds _ isStart =>
        have slash := ne_of_isWordStart isStart (d := '/') rfl
        rw [skipTrivia_cons, if_neg (ne_of_isWordStart isStart rfl), if_neg comment,
          if_neg (by simp [isBlank_of_isWordStart isStart]), if_neg fun both => slash both.1]

/-! ### Pieces -/

/-- The piece is read from the front of every text that goes on alike behind it. -/
def Local (read : List Char → Piece) (text : List Char) : Prop :=
  ∃ front, text = front ++ (read text).rest ∧ ∀ other, StartsAlike (read text).rest other →
    read (front ++ other) = { read text with rest := other }

theorem local_stringPiece (line : Nat) (text : List Char) : Local (stringPiece line) text := by
  obtain ⟨contents, behind, rfl, inside, ends⟩ := exists_before '"' text
  cases behind with
  | nil =>
    have ended : (stringPiece line (contents ++ [])).rest = [] := by
      rw [List.append_nil, stringPiece_of_open inside]
    refine ⟨contents, by rw [ended], fun other alike => ?_⟩
    rw [ended] at alike
    cases alike
    exact congrArg (Piece.mk _ _) ended
  | cons quote rest =>
    obtain rfl := ends quote rfl
    refine ⟨contents ++ ['"'], by simp [stringPiece_of_closed inside], fun other _ => ?_⟩
    rw [List.append_assoc, List.singleton_append, stringPiece_of_closed inside,
      stringPiece_of_closed inside]

theorem isDigit_eq_of_isWordStart (c d : Char) (h : isWordStart c = true)
    (h' : isWordStart d = true) : isDigit c = isDigit d := by
  rw [isDigit_of_isWordStart h, isDigit_of_isWordStart h']

theorem isWordRest_eq_of_isWordStart (c d : Char) (h : isWordStart c = true)
    (h' : isWordStart d = true) : isWordRest c = isWordRest d := by
  rw [isWordRest_of_isWordStart h, isWordRest_of_isWordStart h']

theorem local_numberPiece (line : Nat) (text : List Char) : Local (numberPiece line) text := by
  have shape := @List.takeWhile_append_dropWhile _ isDigit text
  have all := @of_mem_takeWhile isDigit text
  have stop := @head?_dropWhile isDigit text
  generalize text.takeWhile isDigit = whole at shape all
  generalize text.dropWhile isDigit = behind at shape stop
  subst shape
  by_cases fraction : ∃ d more, behind = '.' :: d :: more ∧ isDigit d = true
  · obtain ⟨d, more, rfl, digit⟩ := fraction
    have shape := @List.takeWhile_append_dropWhile _ isDigit more
    have all' := @of_mem_takeWhile isDigit more
    have stop' := @head?_dropWhile isDigit more
    generalize more.takeWhile isDigit = fraction at shape all'
    generalize more.dropWhile isDigit = rest at shape stop'
    subst shape
    unfold Local
    rw [numberPiece_of_fraction all digit all' stop']
    refine ⟨whole ++ '.' :: d :: fraction, by simp, fun other alike => ?_⟩
    rw [List.append_assoc, List.cons_append, List.cons_append]
    exact numberPiece_of_fraction all digit all'
      (alike.heads.stops isDigit_eq_of_isWordStart stop')
  · have noFraction : ∀ d more, behind = '.' :: d :: more → isDigit d = false := by
      intro d more shape
      exact Bool.eq_false_iff.mpr fun digit => fraction ⟨d, more, shape, digit⟩
    unfold Local
    rw [numberPiece_of_whole all stop noFraction]
    refine ⟨whole, rfl, fun other alike => ?_⟩
    refine numberPiece_of_whole all (alike.heads.stops isDigit_eq_of_isWordStart stop) ?_
    rintro d more rfl
    cases alike with
    | @same _ cs _ heads =>
      have stop : ∀ c ∈ cs.head?, isDigit c = false := by
        intro c mem
        obtain ⟨rest, rfl⟩ : ∃ rest, cs = c :: rest := List.head?_eq_some_iff.mp mem
        exact noFraction c rest rfl
      exact heads.stops isDigit_eq_of_isWordStart stop d rfl
    | word _ _ _ start => cases start

theorem local_wordPiece (line : Nat) (text : List Char) : Local (wordPiece line) text := by
  refine ⟨text.takeWhile isWordRest, List.takeWhile_append_dropWhile.symm, fun other alike => ?_⟩
  exact wordPiece_of_stop of_mem_takeWhile
    (alike.heads.stops isWordRest_eq_of_isWordStart head?_dropWhile)

theorem mark?_local {c : Char} {cs rest : List Char} {m : Mark}
    (h : mark? (c :: cs) = some (m, rest)) :
    ∃ front, cs = front ++ rest ∧ ∀ other, StartsAlike rest other →
      mark? (c :: (front ++ other)) = some (m, other) := by
  unfold mark? at h
  split at h
  all_goals cases h
  all_goals rename_i shape
  all_goals cases shape
  case h_12.refl.refl | h_14.refl.refl | h_16.refl.refl | h_18.refl.refl =>
    exact ⟨['='], rfl, fun _ _ => rfl⟩
  case h_13.refl.refl | h_15.refl.refl | h_17.refl.refl | h_19.refl.refl =>
    rename_i single
    refine ⟨[], rfl, fun other alike => ?_⟩
    have equal : cs.head? ≠ some '=' := by
      intro mem
      obtain ⟨more, rfl⟩ := List.head?_eq_some_iff.mp mem
      exact single more rfl
    rw [ne_eq, alike.heads.head?_eq_some_iff (c := '=') rfl] at equal
    cases other with
    | nil => rfl
    | cons d ds =>
      have ne : d ≠ '=' := fun same => equal (congrArg some same)
      simp [mark?, ne]
  all_goals exact ⟨[], rfl, fun _ _ => rfl⟩

theorem Local.tail {read : List Char → Piece} {c : Char} {cs : List Char} (h : Local read (c :: cs))
    (shorter : (read (c :: cs)).rest.length ≤ cs.length) :
    Local (fun cs => read (c :: cs)) cs := by
  obtain ⟨front, shape, reads⟩ := h
  cases front with
  | nil =>
    have same := congrArg List.length shape
    simp only [List.length_cons, List.nil_append] at same
    omega
  | cons d front =>
    obtain ⟨rfl, behind⟩ := List.cons.inj shape
    exact ⟨front, behind, reads⟩

theorem local_piece (line : Nat) (c : Char) (cs : List Char) : Local (piece line c) cs := by
  have shorter := length_piece_le line c cs
  by_cases quote : c = '"'
  · have isString : piece line c = stringPiece line := by
      funext cs
      rw [piece, if_pos quote]
    rw [isString]
    exact local_stringPiece line cs
  by_cases digit : isDigit c = true
  · have isNumber : piece line c = fun cs => numberPiece line (c :: cs) := by
      funext cs
      rw [piece, if_neg quote, if_pos digit]
    rw [isNumber] at shorter ⊢
    exact (local_numberPiece line (c :: cs)).tail shorter
  by_cases start : isWordStart c = true
  · have isWord : piece line c = fun cs => wordPiece line (c :: cs) := by
      funext cs
      rw [piece, if_neg quote, if_neg digit, if_pos start]
    rw [isWord] at shorter ⊢
    exact (local_wordPiece line (c :: cs)).tail shorter
  cases found : mark? (c :: cs) with
  | some mark =>
    obtain ⟨m, rest⟩ := mark
    have isMark : ∀ {ds more}, mark? (c :: ds) = some (m, more) →
        piece line c ds = ⟨.ok (.mark m), line, more⟩ := by
      intro ds more found
      rw [piece, if_neg quote, if_neg digit, if_neg start, found]
    obtain ⟨front, shape, reads⟩ := mark?_local found
    unfold Local
    rw [isMark found]
    exact ⟨front, shape, fun other alike => isMark (reads other alike)⟩
  | none =>
    have isError : ∀ ds, piece line c ds = ⟨.error (.unexpectedChar c), line, ds⟩ := by
      intro ds
      rw [piece, if_neg quote, if_neg digit, if_neg start, mark?_eq_none found ds]
    unfold Local
    simp only [isError]
    exact ⟨[], rfl, fun _ _ => rfl⟩

/-- Only a word is an identifier. -/
theorem piece_of_identifier {line : Nat} {c : Char} {cs : List Char} {name : Name}
    (h : (piece line c cs).content = .ok (.identifier name)) :
    isWordStart c = true ∧ piece line c cs = wordPiece line (c :: cs) := by
  unfold piece at h ⊢
  split
  · rename_i quote
    rw [if_pos quote] at h
    unfold stringPiece at h
    dsimp only at h
    split at h <;> cases h
  rename_i quote
  rw [if_neg quote] at h
  split
  · rename_i digit
    rw [if_pos digit] at h
    unfold numberPiece at h
    dsimp only at h
    split at h
    · split at h <;> cases h
    · cases h
  rename_i digit
  rw [if_neg digit] at h
  split
  · rename_i start
    exact ⟨start, rfl⟩
  rename_i start
  rw [if_neg start] at h
  split at h <;> cases h

/-! ### Scanning the renamed text -/

theorem renamed_of_nil {r : Name → Name} {start line : Nat} {text : List Char}
    (h : skipTrivia false start text = (line, [])) : renamed r start text = text := by
  rw [renamed]
  split
  · rfl
  · rename_i split
    rw [h] at split
    cases split

theorem renamed_of_cons {r : Name → Name} {start line : Nat} {front cs : List Char} {c : Char}
    (h : skipTrivia false start (front ++ c :: cs) = (line, c :: cs)) :
    renamed r start (front ++ c :: cs) = front
      ++ (respell r (piece line c cs).content (upTo (c :: cs) (piece line c cs).rest)
      ++ renamed r (piece line c cs).line (piece line c cs).rest) := by
  rw [renamed]
  split
  · rename_i split
    rw [h] at split
    cases split
  · rename_i split
    rw [h] at split
    cases split
    rw [upTo_append]

section

variable {r : Name → Name} (words : ∀ word, IsWord word → IsWord (r word))
  (unreserved : ∀ word, word.isReserved = false → (r word).isReserved = false)

include words unreserved

/-- The piece of the renamed text that stands for an identifier. -/
theorem piece_respelled_identifier {line : Nat} {c : Char} {cs other : List Char} {name : Name}
    (found : (piece line c cs).content = .ok (.identifier name))
    (alike : StartsAlike (piece line c cs).rest other) :
    ∃ d ds, (r name).toList ++ other = d :: ds ∧ StartsAlike (c :: cs) (d :: ds) ∧
      piece line d ds = ⟨.ok (.identifier (r name)), (piece line c cs).line, other⟩ := by
  obtain ⟨start, isWord⟩ := piece_of_identifier found
  rw [isWord] at found alike ⊢
  obtain ⟨rfl, free⟩ := ofWord_eq_identifier_iff.mp (Except.ok.inj found)
  have spelled : IsWord (String.ofList ((c :: cs).takeWhile isWordRest)) := by
    refine ⟨c, cs.takeWhile isWordRest, ?_, start, of_mem_takeWhile⟩
    rw [String.toList_ofList, List.takeWhile_cons_of_pos (isWordRest_of_isWordStart start)]
  obtain ⟨d, ds, shape, start', all⟩ := words _ spelled
  refine ⟨d, ds ++ other, by rw [shape, List.cons_append], .word _ _ start start', ?_⟩
  have all' : ∀ e ∈ d :: ds, isWordRest e = true :=
    List.forall_mem_cons.mpr ⟨isWordRest_of_isWordStart start', all⟩
  have stop := alike.heads.stops isWordRest_eq_of_isWordStart head?_dropWhile
  rw [piece_of_isWordStart start', ← List.cons_append, wordPiece_of_stop all' stop, ← shape,
    String.ofList_toList, ofWord_eq_identifier_iff.mpr ⟨rfl, unreserved _ free⟩]
  rfl

/-- The piece of the renamed text that stands for a piece. -/
theorem piece_respelled {line : Nat} {c : Char} {cs other : List Char}
    (alike : StartsAlike (piece line c cs).rest other) :
    ∃ d ds, respell r (piece line c cs).content (upTo (c :: cs) (piece line c cs).rest) ++ other =
        d :: ds ∧ StartsAlike (c :: cs) (d :: ds) ∧
      piece line d ds =
        ⟨(piece line c cs).content.map (Token.rename r), (piece line c cs).line, other⟩ := by
  by_cases named : ∃ name, (piece line c cs).content = .ok (.identifier name)
  · obtain ⟨name, found⟩ := named
    rw [found]
    exact piece_respelled_identifier words unreserved found alike
  · obtain ⟨front, shape, reads⟩ := local_piece line c cs
    have kept : upTo (c :: cs) (piece line c cs).rest = c :: front := by
      conv => lhs; arg 1; rw [shape]
      exact upTo_append (c :: front) _
    have same : (piece line c cs).content.map (Token.rename r) = (piece line c cs).content := by
      cases found : (piece line c cs).content with
      | error e => rfl
      | ok token =>
        rcases token.identifier_or_rename_eq with ⟨name, rfl⟩ | same
        · exact absurd ⟨name, found⟩ named
        · rw [Except.map, same]
    have written : respell r (piece line c cs).content (c :: front) = c :: front := by
      unfold respell
      split
      · rename_i name found
        exact absurd ⟨name, found⟩ named
      · rfl
    have longer := alike.append (c :: front)
    rw [List.cons_append, ← shape] at longer
    refine ⟨c, front ++ other, by rw [kept, written, List.cons_append], longer, ?_⟩
    rw [reads other alike, same]

theorem items_renamed (start : Nat) (text : List Char) :
    StartsAlike text (renamed r start text) ∧
      items start (renamed r start text) = (items start text).map (Item.rename r) := by
  induction start, text using items.induct with
  | case1 start text line ended =>
    rw [renamed_of_nil ended, items_of_nil ended]
    exact ⟨.refl text, rfl⟩
  | case2 start text line c cs split ih =>
    obtain ⟨alike, same⟩ := ih
    obtain ⟨d, ds, written, alike, reads⟩ := piece_respelled words unreserved alike
    obtain ⟨front, rfl, skips⟩ := skipTrivia_local split
    rw [renamed_of_cons split, written, items_of_cons (skips _ alike), items_of_cons split, reads,
      same]
    exact ⟨alike.append front, rfl⟩

end

end Lox.Scan

namespace Lox

/-- A text with every identifier token replaced by its image. -/
def renameText (r : Name → Name) (text : String) : String :=
  String.ofList (Scan.renamed r 1 text.toList)

/-- A renamed text scans to the renamed items. -/
theorem scan_renameText {r : Name → Name}
    (words : ∀ word, Scan.IsWord word → Scan.IsWord (r word))
    (unreserved : ∀ word, word.isReserved = false → (r word).isReserved = false) (text : String) :
    scan (renameText r text) = (scan text).map (Item.rename r) := by
  unfold scan renameText
  rw [String.toList_ofList]
  exact (Scan.items_renamed words unreserved 1 text.toList).2

end Lox
