import ObjectGraph.Table
import ObjectGraph.Text.Octets
import ObjectGraph.Text.Split

/-!
# `Files` — reading files

The library sees a file system as a function from paths to contents or to the reason why there are
none. `Tree` is such a system: files by the names on the way to them, below a working directory
about whose surroundings nothing is known.

Contents:
* `Files`, `Files.Failure` and its message;
* `Tree`, `Tree.walk`, `Tree.read`;
* `joinPath`, a path below a directory.
-/

namespace ObjectGraph

/-- Why a file cannot be read. -/
inductive Files.Failure where
  | missing
  | notDirectory
  | isDirectory
  | nameTooLong
  | badName
  | notText
  | other (message : String)
  deriving DecidableEq, Repr

/-- The contents of the file at a path, or why there are none. -/
abbrev Files := String → Except Files.Failure (List UInt8)

namespace Files

/-- The wording of the operating system. -/
def Failure.message : Failure → String
  | missing => "No such file or directory (os error 2)"
  | notDirectory => "Not a directory (os error 20)"
  | isDirectory => "Is a directory (os error 21)"
  | nameTooLong => "File name too long (os error 36)"
  | badName => "file name contained an unexpected NUL byte"
  | notText => "stream did not contain valid UTF-8"
  | other m => m

/-- A file system without files. -/
def none : Files := fun _ => .error .missing

/-- The text of a file. -/
def text (files : Files) (path : String) : Except Failure String :=
  match files path with
  | .error e => .error e
  | .ok bytes => match Text.ofOctets? bytes with
    | some s => .ok s
    | .none => .error .notText

/-- The path is not relative. -/
def isAbsolute (path : String) : Bool := path.toList.head? == some '/'

/-- A path below a directory; an absolute path stands for itself. -/
def joinPath (directory path : String) : String :=
  if isAbsolute path || directory = "" then path
  else if directory.toList.getLast? = some '/' then directory ++ path
  else directory ++ "/" ++ path

/-! ## Trees of files -/

/-- Files by the names that lead to them. -/
abbrev Tree := List (List String × List UInt8)

namespace Tree

/-- A tree from files by their paths. -/
def ofPaths (files : List (String × List UInt8)) : Tree :=
  files.map fun f => ((Text.splitText '/' f.1).filter fun s => s ≠ "" && s ≠ ".", f.2)

/-- What a path inside the tree leads to. -/
inductive Kind where
  | file (bytes : List UInt8)
  | directory
  | nothing

/-- What some names lead to. -/
def kind (t : Tree) (names : List String) : Kind :=
  match t.lookup names with
  | some bytes => .file bytes
  | .none =>
      if names = [] || t.any fun f => names.isPrefixOf f.1 then .directory else .nothing

/-- What a walk reaches; `none` stands for the surroundings of the tree, which hold directories
above the working directory and nothing else. -/
def reached (t : Tree) : Option (List String) → Kind
  | some names => t.kind names
  | .none => .directory

/-- Where the next name of a path leads, from a directory. -/
def stepTo : Option (List String) → String → Except Failure (Option (List String))
  | here, "" => .ok here
  | here, "." => .ok here
  | .none, ".." => .ok .none
  -- above the working directory nothing is known but that it can be left and entered
  | some [], ".." => .ok .none
  | some here, ".." => .ok (some here.dropLast)
  | here, name =>
      if name.utf8ByteSize > 255 then .error .nameTooLong
      else match here with
        | some here => .ok (some (here ++ [name]))
        -- above the working directory no name is known to stand for anything
        | .none => .error .missing

/-- Walks a path, name by name; every name but the first needs a directory to stand in. -/
def walk (t : Tree) (here : Option (List String)) : List String → Except Failure (Option (List String))
  | [] => .ok here
  | name :: rest =>
      match t.reached here with
      | .nothing => .error .missing
      -- even an empty name after a file asks for a directory
      | .file _ => .error .notDirectory
      | .directory => (stepTo here name).bind fun next => walk t next rest

/-- The tree as a file system. -/
def read (t : Tree) : Files := fun path =>
  if path.toList.contains (Char.ofNat 0) then .error .badName
  else if path = "" then .error .missing
  else if path.utf8ByteSize ≥ 4096 then .error .nameTooLong
  else match walk t (if isAbsolute path then .none else some []) (Text.splitText '/' path) with
    | .error e => .error e
    | .ok here => match t.reached here with
      | .file bytes => .ok bytes
      | .directory => .error .isDirectory
      | .nothing => .error .missing

end Tree

end Files

end ObjectGraph
