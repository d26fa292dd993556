import Lox.Session

/-!
The command line: files run in order in one session, or a prompt that reads lines.

With files, a program's output goes to the standard output and the first failure ends the run with a
report. At the prompt each line is a program; its value, unless it is `nil`, or its failure is
written behind its output, and the session goes on.
-/

namespace Lox.CommandLine

/-- Why a file or the input could not be read as text. -/
inductive ReadError where
  /-- The operating system refused, with a description and a number. -/
  | system (description : String) (code : Nat)
  | notUtf8
  deriving DecidableEq, Repr

namespace ReadError

/-- There is nothing under the path. -/
def notFound : ReadError := .system "No such file or directory" 2

/-- A part of the path that should be a directory is a file. -/
def notDirectory : ReadError := .system "Not a directory" 20

/-- The path names a directory. -/
def isDirectory : ReadError := .system "Is a directory" 21

/-- A path, or a name in it, has more bytes than the file system allows. -/
def nameTooLong : ReadError := .system "File name too long" 36

/-- The text of a read error. -/
def message : ReadError → String
  | .system description code => description ++ " (os error " ++ toString code ++ ")"
  | .notUtf8 => "stream did not contain valid UTF-8"

end ReadError

/-- The text held by some bytes. -/
def decode (bytes : ByteArray) : Except ReadError String :=
  match String.fromUTF8? bytes with
  | some text => .ok text
  | none => .error .notUtf8

/-- A text with every line but the first indented by a number of blanks. -/
def hang (indent : Nat) (text : String) : String :=
  ("\n" ++ String.ofList (List.replicate indent ' ')).intercalate (text.splitOn "\n")

/-- The causes of an error, outermost first, each on its own lines; several are numbered. -/
def causesText : List String → String
  | [cause] => "    " ++ hang 4 cause ++ "\n"
  | causes =>
    String.join (causes.mapIdx fun i cause => "    " ++ toString i ++ ": " ++ hang 7 cause ++ "\n")

/-- The report of an error with its causes. -/
def report (headline : String) (causes : List String) : String :=
  "Error: " ++ headline ++ "\n" ++
    (if causes.isEmpty then "" else "\nCaused by:\n" ++ causesText causes)

/-- The causes reported for a failure. A runtime error is named both as a failure and by itself. -/
def causes : Failure → List String
  | .runtime e => [e.message, e.description]
  | e => [e.message]

/-- What is written to the standard error for a program that failed: for a runtime error a listing
of the global scope first. -/
def failureReport (path : String) (e : Failure) (s : Session) : String :=
  let listing := match e with
    | .runtime _ => s.listing ++ "\n"
    | _ => ""
  listing ++ report ("failed to run " ++ path) (causes e)

/-- Run the program in a file, given what reading the file gave. An error is what is written to the
standard error. -/
def runFile (fuel : Nat) (path : String) (contents : Except ReadError ByteArray) (s : Session) :
    Outcome String Session Unit :=
  match contents >>= decode with
  | .error e => .error (report ("failed to open " ++ path) [e.message]) s
  | .ok text =>
    match s.eval fuel text with
    | .ok _ s => .ok () s
    | .error e s => .error (failureReport path e s) s
    | .outOfFuel => .outOfFuel

/-- Run the programs in some files in order, up to the first failure. With the path of each file comes
what reading it gives. -/
def runFiles (fuel : Nat) (s : Session) :
    List (String × Except ReadError ByteArray) → Outcome String Session Unit
  | [] => .ok () s
  | (path, contents) :: rest =>
    match runFile fuel path contents s with
    | .ok () s => runFiles fuel s rest
    | e => e

/-- Ask for a line. -/
def prompt (s : Session) : Session := s.write "\n> "

/-- Run the program on a line. -/
def runLine (fuel : Nat) (line : ByteArray) (s : Session) : Outcome String Session Unit :=
  match decode line with
  | .error e => .error (report e.message []) s
  | .ok text =>
    match s.eval fuel text with
    | .ok .nil s => .ok () s
    | .ok v s => .ok () (s.write (v.text ++ "\n"))
    | .error e s => .ok () (s.write (e.message ++ "\n"))
    | .outOfFuel => .outOfFuel

/-- Run the programs on some lines, asking for each line and once more at the end. -/
def runLines (fuel : Nat) (s : Session) : List ByteArray → Outcome String Session Unit
  | [] => .ok () (prompt s)
  | line :: rest =>
    match runLine fuel line (prompt s) with
    | .ok () s => runLines fuel s rest
    | e => e

/-- The lines of some bytes, each with its line end. The last may lack one. -/
def lines (bytes : List UInt8) : List (List UInt8) :=
  match bytes with
  | [] => []
  | b :: rest =>
    if b = 10 then [b] :: lines rest
    else
      match lines rest with
      | [] => [[b]]
      | line :: more => (b :: line) :: more

/-- Run the command line: the given files, or without any the lines of the standard input. -/
def run (fuel : Nat) (stdin : ByteArray) (s : Session) :
    List (String × Except ReadError ByteArray) → Outcome String Session Unit
  | [] => runLines fuel s ((lines stdin.toList).map fun line => ⟨line.toArray⟩)
  | files => runFiles fuel s files

end Lox.CommandLine
