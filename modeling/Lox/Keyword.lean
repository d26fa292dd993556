/-!
The sixteen reserved words of the language. A word is reserved exactly when `Keyword.ofText?`
knows it, and `ofText?_text` says that each keyword is read back from its own spelling.
-/

namespace Lox

/-- An identifier as it is written in a program. -/
abbrev Name := String

/-- The words that cannot name a variable, parameter, function, method or class. -/
inductive Keyword where
  | and
  | cls
  | else
  | false
  | for
  | fun
  | if
  | nil
  | or
  | print
  | return
  | super
  | this
  | true
  | var
  | while
  deriving DecidableEq, Repr

namespace Keyword

/-- The spelling of a keyword. -/
def text : Keyword → String
  | .and => "and"
  | .cls => "class"
  | .else => "else"
  | .false => "false"
  | .for => "for"
  | .fun => "fun"
  | .if => "if"
  | .nil => "nil"
  | .or => "or"
  | .print => "print"
  | .return => "return"
  | .super => "super"
  | .this => "this"
  | .true => "true"
  | .var => "var"
  | .while => "while"

/-- The keyword spelled by a word, if it is one. Case matters. -/
def ofText? : String → Option Keyword
  | "and" => some .and
  | "class" => some .cls
  | "else" => some .else
  | "false" => some .false
  | "for" => some .for
  | "fun" => some .fun
  | "if" => some .if
  | "nil" => some .nil
  | "or" => some .or
  | "print" => some .print
  | "return" => some .return
  | "super" => some .super
  | "this" => some .this
  | "true" => some .true
  | "var" => some .var
  | "while" => some .while
  | _ => none

@[simp] theorem ofText?_text (k : Keyword) : ofText? k.text = some k := by
  cases k <;> rfl

end Keyword

/-- A reserved word is the spelling of a keyword. -/
def Name.isReserved (n : Name) : Bool := (Keyword.ofText? n).isSome

end Lox
