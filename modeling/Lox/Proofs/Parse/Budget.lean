import Lox.Parse.Program
import Lox.Proofs.Parse.Faithful
import Lox.Proofs.Scan.Seam

/-!
What parsing a text costs.

The parser asks the scanner at most once for each token of the text and once for the end, and never
again behind the end or a lexical error. Every pass through a loop moves on by at least one token,
or ends parsing. This is so for every text, cut off or malformed anywhere, and no run is left
without an answer (`parsers_economical`).
-/

namespace Lox.Parse

/-- A run over the items ends with the answer, and it asks for no more items than it needs. -/
structure Economical {α : Type} (items : List Item) (answer : Except SyntaxError α)
    (run : Log × Result α) : Prop where
  /-- The run gives the answer, and what it has not asked for is still ahead of it. -/
  answers : (∃ a c, run.2 = .ok a c ∧ answer = .ok a ∧ items = run.1.asked ++ c.rest) ∨
    ∃ e, run.2 = .error e ∧ answer = .error e
  /-- The items asked for are those of the text in their order, each of them once. -/
  inOrder : run.1.asked <+: items
  /-- Only a token that is not the end is followed by another item. -/
  goesOn : ∀ item ∈ run.1.asked.dropLast, item.isToken = true
  budget : run.1.asked.length ≤ items.countP Item.isToken + 1
  passes : ∀ p ∈ run.1.passes, p.Moves ∨ p.stopped = true ∧ ∃ e, answer = .error e

/-- One item for each token in front, and one more. -/
theorem length_le_countP {items read : List Item} {last : Item} (h : read ++ [last] <+: items)
    (tokens : ∀ item ∈ read, item.isToken = true) :
    (read ++ [last]).length ≤ items.countP Item.isToken + 1 := by
  have all : read.countP Item.isToken = read.length := List.countP_eq_length.mpr tokens
  have le : read.countP Item.isToken ≤ items.countP Item.isToken :=
    ((List.prefix_append read [last]).trans h).sublist.countP_le
  rw [List.length_append, List.length_singleton, ← all]
  exact Nat.succ_le_succ le

/-- A parser that begins with a read keeps to its budget on items that end. -/
theorem Faithful.economical {α : Type} {f : Unit → Parser α} {g : Unit → Logged α}
    (h : Faithful (· = .mark .semicolon) true (advance >>= f) (Logged.advance >>= g))
    {items : List Item} (closed : ∃ item ∈ items, item.content = .ok .eof)
    (ends : (advance >>= f) (start items) ≠ .outOfFuel) :
    Economical items (((advance >>= f) (start items)).finding ends)
      ((Logged.advance >>= g) (start items)) := by
  -- The first read does not look at the current token, which may be any.
  have same := h.erases ⟨.mark .semicolon, 1, items⟩ rfl
  have done := h.accounts ⟨.mark .semicolon, 1, items⟩ rfl (.inr closed)
  change ((Logged.advance >>= g) (start items)).2 = (advance >>= f) (start items) at same
  change Accounts true _ ((Logged.advance >>= g) (start items)) at done
  rcases run : (Logged.advance >>= g) (start items) with ⟨log, result⟩
  have ne := Logged.asked_ne_nil run
  rw [run] at same done
  generalize (advance >>= f) (start items) = answer at ends same ⊢
  subst same
  obtain ⟨front, read, last, asked, tokens, -⟩ := done.exists_last ends ne
  constructor
  case answers =>
    cases done with
    | ok asks _ _ => exact .inl ⟨_, _, rfl, rfl, asks.rest_eq⟩
    | error _ _ _ _ => exact .inr ⟨_, rfl, rfl⟩
    | outOfFuel => exact absurd rfl ends
  case inOrder => exact front
  case goesOn =>
    rw [asked, List.dropLast_concat]
    exact tokens
  case budget => exact asked ▸ length_le_countP (asked ▸ front) tokens
  case passes =>
    intro p mem
    cases done with
    | ok _ _ moves => exact .inl (moves p mem)
    | error _ _ _ moves => exact (moves p mem).imp_right fun stopped => ⟨stopped, _, rfl⟩
    | outOfFuel => exact absurd rfl ends

theorem exists_eof_scan (text : String) : ∃ item ∈ scan text, item.content = .ok .eof := by
  have splits : Scan.Splits [] text.toList (scan text) := Scan.splits_items [] text.toList
  obtain ⟨front, found⟩ := splits.exists_eof
  exact ⟨_, found ▸ List.mem_append_right _ List.mem_cons_self, rfl⟩

end Lox.Parse

namespace Lox

open Parse

/-- Parsing a text as a program, or as an expression, ends within the budget of its tokens. -/
theorem parsers_economical (text : String) :
    Economical (scan text) (parseProgram text)
        (Logged.program (fuelFor (scan text)) (start (scan text))) ∧
      Economical (scan text) (parseExpression text)
        (Logged.wholeExpression (fuelFor (scan text)) (start (scan text))) :=
  ⟨faithful_program.economical (exists_eof_scan text) _,
    faithful_wholeExpression.economical (exists_eof_scan text) _⟩

/-- Where `f(a` is cut off, the first argument is read, and the passes around it stop at the end. -/
example :
    (Logged.program 100 (start [⟨1, .ok (.identifier "f")⟩, ⟨1, .ok (.mark .leftParen)⟩,
      ⟨1, .ok (.identifier "a")⟩, ⟨1, .ok .eof⟩])).1.passes.map (fun p => (p.loop, p.stopped)) =
        [(.arguments, false), (.suffixes, true), (.declarations, true)] := by
  rfl

end Lox
