import Mathlib
import Lox.Proofs.Output.Records

/-!
A limit on the output truncates a run and does nothing else.

A run whose output fits ends as it does without the limit. A run whose output does not fit ends at
the first print that there is no room for: as much as fits has been written, and the rest of the
store is as evaluating the operand of that print has left it. Nothing is done after that, whatever
loops, calls and initializers are around. The main statement is `execProgram_truncated`.
-/

namespace Lox

open Run

/-- The bytes written when a computation ends. -/
def Outcome.written {α : Type} : Outcome RuntimeError Store α → ByteArray
  | .ok _ s | .error _ s => s.output.bytes
  | .outOfFuel => .empty

theorem Accounts.exists_append {bytes bytes' : ByteArray} {lines : List Printed}
    (h : Accounts bytes lines bytes') : ∃ more, bytes' = bytes ++ more := by
  induction h with
  | nil => exact ⟨.empty, ByteArray.append_empty.symm⟩
  | @cons bytes p _ _ _ _ ih =>
    obtain ⟨more, rfl⟩ := ih
    exact ⟨p.line.toUTF8 ++ more, ByteArray.append_assoc⟩

/-- When a line is printed, the bytes before it have been written, and it goes behind them. -/
theorem Accounts.at {bytes bytes' : ByteArray} {earlier later : List Printed} {p : Printed}
    (h : Accounts bytes (earlier ++ p :: later) bytes') :
    ∃ more, bytes' = p.before.output.bytes ++ p.line.toUTF8 ++ more := by
  induction earlier generalizing bytes with
  | nil =>
    cases h with
    | cons before rest =>
      rw [before]
      exact rest.exists_append
  | cons q earlier ih =>
    cases h with
    | cons _ rest => exact ih rest

theorem extract_append_of_le {bytes more : ByteArray} {limit : Nat} (h : limit ≤ bytes.size) :
    (bytes ++ more).extract 0 limit = bytes.extract 0 limit := by
  have none : limit - bytes.size = 0 := Nat.sub_eq_zero_of_le h
  rw [ByteArray.extract_append, none, Nat.zero_sub, ByteArray.extract_same, ByteArray.append_empty]

theorem Records.accounts {α : Type} {x : Run α} {x' : Traced α} (h : Records x x') {s : Store}
    (unlimited : s.output.limit = none) (ends : x s ≠ .outOfFuel) :
    Accounts s.output.bytes (x' s).1 (x s).written := by
  have writes := h.writes s unlimited
  unfold Ensures at writes
  cases result : x s with
  | ok a s' | error e s' =>
    rw [result] at writes
    exact writes.2
  | outOfFuel => exact absurd result ends

/-- How a traced computation ends under a limit. -/
theorem Records.truncated {α : Type} {x : Run α} {x' : Traced α} (h : Records x x') {s : Store}
    {limit : Nat} (unlimited : s.output.limit = none) (room : s.output.bytes.size ≤ limit)
    (ends : x s ≠ .outOfFuel) :
    ((x s).written.size ≤ limit → x (s.limited limit) = (x s).limited limit) ∧
    (limit < (x s).written.size → ∃ earlier p later, (x' s).1 = earlier ++ p :: later ∧
      (∀ q ∈ earlier, q.before.output.bytes.size + q.line.toUTF8.size ≤ limit) ∧
      limit < p.before.output.bytes.size + p.line.toUTF8.size ∧
      x (s.limited limit) = .error .outputFull
        (p.before.withOutput ⟨(x s).written.extract 0 limit, some limit⟩)) := by
  have accounts := h.accounts unlimited ends
  have cuts := h.cuts s limit unlimited room ends
  generalize (x' s).1 = lines at accounts cuts
  cases full : lines.find? (Printed.overflows limit) with
  | none =>
    have all := accounts.size_le room (by simpa using full)
    rw [cut_of_fits full] at cuts
    exact ⟨fun _ => cuts, fun more => absurd all (Nat.not_le.mpr more)⟩
  | some p =>
    obtain ⟨overflows, earlier, later, rfl, fit⟩ := List.find?_eq_some_iff_append.mp full
    have tooLong : limit < p.before.output.bytes.size + p.line.toUTF8.size :=
      of_decide_eq_true overflows
    obtain ⟨more, written⟩ := accounts.at
    have longer : limit ≤ (p.before.output.bytes ++ p.line.toUTF8).size := by
      rw [ByteArray.size_append]
      exact Nat.le_of_lt tooLong
    rw [cut_of_overflows full] at cuts
    refine ⟨fun all => ?_, fun _ => ⟨earlier, p, later, rfl, fun q mem => ?_, tooLong, ?_⟩⟩
    · rw [written, ByteArray.size_append, ByteArray.size_append] at all
      omega
    · have fits : q.overflows limit = false := by simpa using fit q mem
      exact Nat.not_lt.mp (of_decide_eq_false fits)
    · rw [cuts, written, extract_append_of_le longer]
      rfl

/-- A program is run in any scope, on any store without a limit on its output, until it ends. Its
trace holds the same run and accounts for what is written. With a limit that leaves room for what
was written before, the run ends in the same way if its output fits. Otherwise it fails at the first
print whose line does not fit: the output is cut at the limit, and everything else is as that print
found it. -/
theorem execProgram_truncated (host : Host) (fuel : Nat) (scope : Scope) (last : Value)
    (program : List Stmt) {s : Store} {limit : Nat} (unlimited : s.output.limit = none)
    (room : s.output.bytes.size ≤ limit)
    (ends : execProgram host fuel scope last program s ≠ .outOfFuel) :
    ∃ lines, Traced.execProgram host fuel scope last program s =
        (lines, execProgram host fuel scope last program s) ∧
      Accounts s.output.bytes lines (execProgram host fuel scope last program s).written ∧
      ((execProgram host fuel scope last program s).written.size ≤ limit →
        execProgram host fuel scope last program (s.limited limit) =
          (execProgram host fuel scope last program s).limited limit) ∧
      (limit < (execProgram host fuel scope last program s).written.size →
        ∃ earlier p later, lines = earlier ++ p :: later ∧
          (∀ q ∈ earlier, q.before.output.bytes.size + q.line.toUTF8.size ≤ limit) ∧
          limit < p.before.output.bytes.size + p.line.toUTF8.size ∧
          execProgram host fuel scope last program (s.limited limit) =
            .error .outputFull (p.before.withOutput
              ⟨(execProgram host fuel scope last program s).written.extract 0 limit,
                some limit⟩)) := by
  have records := records_execProgram host fuel scope last program
  exact ⟨_, Prod.ext rfl (records.erases s), records.accounts unlimited ends,
    records.truncated unlimited room ends⟩

/-- A host with nothing to supply. -/
def Host.bare : Host := ⟨fun _ => 0, fun _ _ => .ok .nil⟩

/-- An initializer that prints two lines, and is called. -/
def printsTwice : List Stmt :=
  [.classDecl ⟨"A", none, [⟨"init", [], [.print (.string "ab"), .print (.string "cd")]⟩]⟩,
    .expr (.call (.var "A") []),
    .print (.string "ef")]

/-- With room for four bytes, the second line of the initializer is cut, and the line behind the
call is not printed. -/
theorem execProgram_truncated_printsTwice :
    ∃ s', execProgram Host.bare 10 ⟨1, [0]⟩ .nil printsTwice
        (Store.limited 4 ⟨#[[], []], #[], 0, 0, .empty none⟩) = .error .outputFull s' ∧
      s'.output.bytes = "ab\nc".toUTF8 := by
  have written : (execProgram Host.bare 10 ⟨1, [0]⟩ .nil printsTwice
      ⟨#[[], []], #[], 0, 0, .empty none⟩).written = "ab\ncd\nef\n".toUTF8 := by
    cbv
  have ends : execProgram Host.bare 10 ⟨1, [0]⟩ .nil printsTwice
      ⟨#[[], []], #[], 0, 0, .empty none⟩ ≠ .outOfFuel := by
    intro out
    rw [out] at written
    revert written
    decide
  obtain ⟨lines, -, -, -, long⟩ := @execProgram_truncated Host.bare 10 ⟨1, [0]⟩ .nil printsTwice
    ⟨#[[], []], #[], 0, 0, .empty none⟩ 4 rfl (Nat.zero_le _) ends
  rw [written] at long
  obtain ⟨earlier, p, later, -, -, -, failed⟩ := long (by decide)
  have kept : "ab\ncd\nef\n".toUTF8.extract 0 4 = "ab\nc".toUTF8 := by decide
  exact ⟨_, failed, kept⟩

end Lox
