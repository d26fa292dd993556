import Lox.CommandLine

/-!
A file system held in memory, and how a path is followed in it.

A location is the list of the names on the way from the root, and the root is the empty list. A path
is followed step by step through directories: from the root if it starts with a slash, and from the
working directory otherwise. The directory around the root is the root itself.
-/

namespace Lox.CommandLine

/-- The names on the way from the root. -/
abbrev Location := List String

/-- What is found at a location. -/
inductive Node where
  | directory
  | file (contents : ByteArray)
  /-- The standard input, as a file. -/
  | input

/-- Some files and directories, and the standard input, which is read as a file at some locations.
Whatever lies above a file or directory is a directory as well. Of two files at one location the later
one counts. -/
structure FileSystem where
  files : List (Location × ByteArray)
  directories : List Location
  inputs : List Location
  /-- What is left of the standard input. -/
  stdin : ByteArray
  /-- The directory that paths start from which do not start with a slash. -/
  working : Location

namespace FileSystem

/-! ### Paths -/

/-- The parts of a path between its slashes. Empty parts and `.` stand for no step. -/
def steps (path : String) : List String :=
  (path.splitOn "/").filter (fun part => part ≠ "" ∧ part ≠ ".")

/-- Whether a path asks for a directory by its form. -/
def asksForDirectory (path : String) : Bool :=
  path.endsWith "/" || path.endsWith "/."

/-- The location that a path starts from. -/
def origin (t : FileSystem) (path : String) : Location :=
  if path.startsWith "/" then [] else t.working

/-- How many bytes a name may have. -/
def maxNameSize : Nat := 255

/-- How many bytes a path may have. -/
def maxPathSize : Nat := 4095

/-! ### Making a file system -/

/-- The directories of a conventional file system. -/
def conventionalDirectories : List Location :=
  (["bin", "boot", "dev", "etc", "home", "lib", "media", "mnt", "opt", "proc", "root", "run", "sbin",
    "srv", "sys", "tmp", "usr", "var"].map ([·]))
  ++ (["bin", "include", "lib", "local", "sbin", "share", "src"].map (["usr", ·]))
  ++ (["cache", "lib", "log", "spool", "tmp"].map (["var", ·]))

/-- The locations where the standard input is conventionally found. -/
def conventionalInputs : List Location :=
  [["dev", "stdin"], ["dev", "fd", "0"], ["proc", "self", "fd", "0"]]

/-- A conventional file system with a working directory. Its only file is the empty device. -/
def conventional (working : Location) (stdin : ByteArray) : FileSystem :=
  ⟨[(["dev", "null"], .empty)], conventionalDirectories, conventionalInputs, stdin, working⟩

/-- The location a path leads to when every step succeeds. -/
def locate (t : FileSystem) (path : String) : Location :=
  (steps path).foldl (fun place step => if step = ".." then place.dropLast else place ++ [step])
    (t.origin path)

/-- Put files under the given paths. -/
def addFiles (t : FileSystem) (files : List (String × ByteArray)) : FileSystem :=
  { t with files := t.files ++ files.map fun f => (t.locate f.1, f.2) }

/-! ### Reading -/

/-- The contents of the file at a location. -/
def file? (t : FileSystem) (place : Location) : Option ByteArray :=
  ((t.files.filter (·.1 = place)).getLast?).map Prod.snd

/-- Whether there is a directory at a location. -/
def isDirectory (t : FileSystem) (place : Location) : Bool :=
  place.isPrefixOf t.working || t.directories.any place.isPrefixOf
    || t.files.any (fun f => place.isPrefixOf f.1.dropLast)
    || t.inputs.any (fun l => place.isPrefixOf l.dropLast)

/-- What is found at a location. -/
def node? (t : FileSystem) (place : Location) : Option Node :=
  if t.isDirectory place then some .directory
  else if place ∈ t.inputs then some .input
  else (t.file? place).map .file

/-- What is found by taking steps from a directory. -/
def follow (t : FileSystem) (place : Location) : List String → Except ReadError Node
  | [] => .ok .directory
  | step :: rest =>
    if step = ".." then t.follow place.dropLast rest
    else if maxNameSize < step.utf8ByteSize then .error .nameTooLong
    else
      match t.node? (place ++ [step]) with
      | none => .error .notFound
      | some .directory => t.follow (place ++ [step]) rest
      | some found => if rest.isEmpty then .ok found else .error .notDirectory

/-- What is found under a path. -/
def look? (t : FileSystem) (path : String) : Except ReadError Node :=
  if path = "" then .error .notFound
  else if maxPathSize < path.utf8ByteSize then .error .nameTooLong
  else
    match t.follow (t.origin path) (steps path) with
    | .ok .directory => .ok .directory
    | .ok found => if asksForDirectory path then .error .notDirectory else .ok found
    | .error e => .error e

/-- Read the file under a path. What has been read of the standard input is gone from it. -/
def read (t : FileSystem) (path : String) : Except ReadError ByteArray × FileSystem :=
  match t.look? path with
  | .ok .directory => (.error .isDirectory, t)
  | .ok (.file contents) => (.ok contents, t)
  | .ok .input => (.ok t.stdin, { t with stdin := .empty })
  | .error e => (.error e, t)

/-- Read files in order. With the path of each comes what reading it gives. -/
def readAll (t : FileSystem) : List String → List (String × Except ReadError ByteArray)
  | [] => []
  | path :: rest => (path, (t.read path).1) :: (t.read path).2.readAll rest

end FileSystem

end Lox.CommandLine
