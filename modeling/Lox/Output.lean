/-!
Where a program's output goes: the bytes written so far, and the number of bytes that fit in all.
A write that does not fit is cut where the room ends.
-/

namespace Lox

/-- The output written so far. Without a limit everything fits. -/
structure Output where
  bytes : ByteArray
  limit : Option Nat

namespace Output

/-- An output that nothing has been written to. -/
def empty (limit : Option Nat) : Output := ⟨ByteArray.empty, limit⟩

/-- Whether the text, written next, fits. -/
def fits (o : Output) (text : String) : Bool :=
  match o.limit with
  | none => true
  | some limit => o.bytes.size + text.toUTF8.size ≤ limit

/-- Write a text, or as many of its bytes as fit. -/
def write (o : Output) (text : String) : Output :=
  match o.limit with
  | none => { o with bytes := o.bytes ++ text.toUTF8 }
  | some limit => { o with bytes := (o.bytes ++ text.toUTF8).extract 0 limit }

end Output

end Lox
