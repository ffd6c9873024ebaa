import ObjectGraph.CommandLine

/-!
# `Main` — the program

The commands are functions of the files they ask for. The program runs them on the files it has read so
far, reads those that they asked for in vain, and starts again until they ask for nothing new.

Contents:
* `failureOf`, why a file cannot be read; `readFile`;
* `settle`, the runs; `main`.
-/

namespace ObjectGraph

/-- Files that have been read, by their paths. -/
abbrev KnownFiles := List (String × Except Files.Failure (List UInt8))

/-- The known files as a file system. -/
def KnownFiles.files (known : KnownFiles) : Files := fun path =>
  (known.lookup path).getD (.error .missing)

/-- Why a file cannot be read. -/
def failureOf : IO.Error → Files.Failure
  | .noFileOrDirectory _ _ _ => .missing
  | .inappropriateType _ 20 _ => .notDirectory
  | .inappropriateType _ _ _ => .isDirectory
  | .invalidArgument _ 36 _ => .nameTooLong
  | .invalidArgument _ _ _ => .badName
  | e => .other (toString e)

/-- The contents of a file. -/
def readFile (path : String) : IO (Except Files.Failure (List UInt8)) := do
  try
    return .ok (← IO.FS.readBinFile path).toList
  catch e => return .error (failureOf e)

/-- Reads files and adds them to the known ones. -/
def readAll (known : KnownFiles) : List String → IO KnownFiles
  | [] => return known
  | path :: paths => do
      let contents ← readFile path
      readAll ((path, contents) :: known) paths

/-- Runs a command line until every file that it asks for is known. -/
partial def settle (surroundings : Option String) (words : List String) (known : KnownFiles) :
    IO (Option CommandLine.Ending) := do
  let host := Host.ofFiles known.files
  match CommandLine.run host Container.defaultSteps surroundings words with
  | none => return none
  | some (ending, opened) =>
      -- a run on missing files asked in vain: read them and run again
      match (opened.filter fun path => (known.lookup path).isNone).eraseDups with
      | [] => return some ending
      | unknown => settle surroundings words (← readAll known unknown)

/-- The variable of the surroundings that chooses a filter of events. -/
def filterVariable : String := "RUST_LOG"

end ObjectGraph

open ObjectGraph in
/-- Runs the program. -/
def main (words : List String) : IO UInt32 := do
  match ← settle (← IO.getEnv filterVariable) words [] with
  | none => do
      IO.eprintln "the configuration recurses without end"
      return 3
  | some ending => do
      IO.print ending.output
      IO.eprint ending.errors
      return ending.code.toUInt32
