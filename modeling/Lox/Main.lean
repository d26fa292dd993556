import Std.Time.DateTime.Timestamp
import Lox.CommandLine

/-!
The program: files named on the command line, or lines from the standard input.
-/

namespace Lox.Main

open CommandLine

/-- Fuel that no program that can be waited for uses up. -/
def fuel : Nat := 1000000000000000000

/-- Write to the standard output what a session has written, and forget it. -/
def flush (s : Session) : IO Session := do
  let out ← IO.getStdout
  out.write s.written
  out.flush
  return { s with store := { s.store with output := .empty none } }

/-- A session at the present time. The first moment of a program that is run is the time at which it
was started, and a microsecond passes from each moment to the next. -/
def atPresent (s : Session) : IO Session := do
  let now ← Std.Time.Timestamp.now
  let start := Float.ofInt now.toNanosecondsSinceUnixEpoch.val / 1000000000
  let first := s.store.moment
  let time := fun moment : Nat => start + (moment - first).toFloat / 1000000
  return { s with host := { s.host with time } }

/-- Read a file, or tell why not. -/
def readFile (path : String) : IO (Except ReadError ByteArray) := do
  try
    let contents ← IO.FS.readBinFile path
    return .ok contents
  catch e =>
    match e with
    | .noFileOrDirectory _ _ _ => return .error .notFound
    | .inappropriateType _ 21 _ => return .error .isDirectory
    | .inappropriateType _ _ _ => return .error .notDirectory
    | .invalidArgument _ _ "name too long" => return .error .nameTooLong
    | .permissionDenied _ _ _ => return .error (.system "Permission denied" 13)
    | e => return .error (.system (toString e) 5)

/-- Read a line from the standard input, byte by byte up to its end. -/
partial def readLine (input : IO.FS.Stream) (line : ByteArray) : IO ByteArray := do
  let byte ← input.read 1
  if byte.isEmpty then return line
  else if byte.data[0]? = some 10 then return line ++ byte
  else readLine input (line ++ byte)

/-- End with a report. -/
def stop (report : String) (s : Session) : IO UInt32 := do
  let _ ← flush s
  (← IO.getStderr).putStr report
  return 1

/-- Run files in order. -/
def files (s : Session) : List String → IO UInt32
  | [] => return 0
  | path :: rest => do
    match runFile fuel path (← readFile path) (← atPresent s) with
    | .ok () s => files (← flush s) rest
    | .error report s => stop report s
    | .outOfFuel => return 1

/-- Read and run lines. -/
partial def lines (input : IO.FS.Stream) (s : Session) : IO UInt32 := do
  let s ← flush (prompt s)
  let line ← readLine input .empty
  if line.isEmpty then return 0
  match runLine fuel line (← atPresent s) with
  | .ok () s => lines input s
  | .error report s => stop report s
  | .outOfFuel => return 1

end Lox.Main

/-- Run the command line. -/
def main (args : List String) : IO UInt32 := do
  let session := Lox.Session.new ⟨fun _ => 0, fun _ _ => .ok .nil⟩ none
  if args.isEmpty then Lox.Main.lines (← IO.getStdin) session
  else Lox.Main.files session args
