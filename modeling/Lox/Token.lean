import Lox.Keyword
import Lox.Number.Text

/-!
The words of the language: operators and punctuation, keywords, identifiers and literals, and the
way each of them is shown in a message.
-/

namespace Lox

/-- Operators and punctuation. -/
inductive Mark where
  | plus
  | minus
  | star
  | slash
  | leftParen
  | rightParen
  | leftCurly
  | rightCurly
  | equal
  | equalEqual
  | bang
  | bangEqual
  | less
  | lessEqual
  | greater
  | greaterEqual
  | semicolon
  | comma
  | dot
  deriving DecidableEq, Repr

/-- The spelling of a mark. -/
def Mark.text : Mark → String
  | .plus => "+"
  | .minus => "-"
  | .star => "*"
  | .slash => "/"
  | .leftParen => "("
  | .rightParen => ")"
  | .leftCurly => "\x7b"
  | .rightCurly => "\x7d"
  | .equal => "="
  | .equalEqual => "=="
  | .bang => "!"
  | .bangEqual => "!="
  | .less => "<"
  | .lessEqual => "<="
  | .greater => ">"
  | .greaterEqual => ">="
  | .semicolon => ";"
  | .comma => ","
  | .dot => "."

/-- One word of a program. The end of the text is a word of its own. -/
inductive Token where
  | eof
  | mark (m : Mark)
  | keyword (k : Keyword)
  | identifier (name : Name)
  | number (x : Double)
  | string (contents : String)
  deriving DecidableEq

/-- A token as a message shows it: a string between its quotes, everything else as it is spelled,
the end of the text as `EOF`. -/
def Token.text : Token → String
  | .eof => "EOF"
  | .mark m => m.text
  | .keyword k => k.text
  | .identifier name => name
  | .number x => Number.text x
  | .string contents => "\"" ++ contents ++ "\""

/-- The token of a word made of letters, digits and underscores: a keyword if it is spelled like
one, an identifier otherwise. -/
def Token.ofWord (word : String) : Token :=
  match Keyword.ofText? word with
  | some k => .keyword k
  | none => .identifier word

end Lox
