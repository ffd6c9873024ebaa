import ObjectGraph.Configuration
import ObjectGraph.Conversion

/-!
# `Document` — loading configurations

A document is a file in one of two notations; its ending says in which. What it holds at the top must be
an object. URIs of files in a loaded document are relative to the document itself.

Contents:
* `Notation`, `fileName?`, `ending?`, `ofPath?`;
* `read`, a configuration from text; `load`, from a file.
-/

namespace ObjectGraph.Document

/-- How a document is written. -/
inductive Notation where
  | json
  | ron
  deriving DecidableEq, Repr

namespace Notation

/-- The word for a notation in events. -/
def word : Notation → String
  | json => "Json"
  | ron => "Ron"

end Notation

/-- The last name of a path, unless the path ends by going up. -/
def fileName? (path : String) : Option String :=
  match ((Text.splitText '/' path).filter fun s => s ≠ "" && s ≠ ".").getLast? with
  | some ".." => none
  | name => name

/-- What follows the last point of a file name, if something precedes it. -/
def ending? (name : String) : Option String :=
  let cs := name.toList.reverse
  match cs.dropWhile (· != '.') with
  -- a point at the beginning of the name begins no ending
  | '.' :: _ :: _ => some (String.ofList (cs.takeWhile (· != '.')).reverse)
  | _ => none

/-- The notation of the file at a path. -/
def notationOf? (path : String) : Option Notation :=
  match (fileName? path).bind ending? with
  | some "json" => some .json
  | some "ron" => some .ron
  | _ => none

/-- The message about a malformed RON document. -/
def ronMessage : String := "RON parse error: malformed document"

/-- The data of a document, or where it is malformed. -/
def readData (source : String) (form : Notation) (path : Option String) : Except Error Json :=
  match form with
  | .json =>
      match Json.parse source with
      | .ok j => .ok j
      | .error e => .error (.parse path e.line e.column e.message (excerptAt source e.line e.column))
  | .ron =>
      match Ron.parse? source with
      | some j => .ok j
      | none => .error (.validation path none none ronMessage none)

/-- A configuration from the text of a document. -/
def read (source : String) (form : Notation) (path : Option String) (handler : Handler) :
    Except Error Configuration :=
  match readData source form path with
  | .error e => .error e
  | .ok j =>
      if j.isObject then .ok (Configuration.make j handler)
      else .error (.validation path none none "top-level configuration must be a map" none)

/-- The handler of a document at a path: files are found, and relative ones from the document. -/
def handlerAt (path : String) (handler : Handler) : Handler :=
  let withFiles := if handler.hasScheme "file" then handler else handler.withScheme "file" (.files ".")
  withFiles.withBase "file" (Uri.simple "file" path)

/-- The message about a file whose ending says nothing. -/
def unsupportedMessage : String := "Unsupported config format (expected a .json or .ron file)"

/-- Loads a configuration from a file. -/
def load (host : Host) (path : String) (handler : Handler) : Run (Except Error Configuration) := do
  match notationOf? path with
  | none => return .error (.read (some path) unsupportedMessage)
  | some form =>
      match ← Run.openFile host path with
      | .error e => return .error (.read (some path) e.message)
      | .ok bytes =>
          match Text.ofOctets? bytes with
          | none => return .error (.read (some path) Files.Failure.notText.message)
          | some source => do
              Run.report .debug "config::loader" "loading configuration"
                [("path", .shown path), ("format", .shown form.word)]
              return read source form (some path) (handlerAt path handler)

end ObjectGraph.Document
