import ObjectGraph.Configuration
import ObjectGraph.Conversion

/-!
# `Sample.Shelf` — a host with documents in memory

A host whose schemes find documents on shelves: each shelf holds documents by name. Beside them are a
scheme that answers with its own parameters, one that fails and one that finds nothing, a format that
shouts and a converter that labels images.

Contents:
* `Document`, `Shelf`;
* `Role`, the schemes of a shelf, and `schemeFor`;
* `shout`, `imaging`, and `host`.
-/

namespace ObjectGraph.Sample

/-- A document on a shelf: as a resource holds it, and as the data of a configuration. -/
structure Document where
  payload : Payload
  data : Json

/-- Documents by name. -/
abbrev Shelf := List (String × Document)

/-- What a scheme does with the name of a URI. -/
inductive Role where
  /-- Answers with the parameters, the name and the fragment. -/
  | echo
  /-- The document of the name. Names may be relative. -/
  | doc
  /-- The document of the name. -/
  | mem
  /-- The document of the name as a configuration that sees the parameters. Names may be relative. -/
  | cfg
  /-- Fails. -/
  | fail
  /-- Finds nothing. -/
  | none
  deriving DecidableEq, Repr

namespace Role

/-- The roles, each at the position of its number. -/
def all : List Role := [echo, doc, mem, cfg, fail, none]

/-- The name of the scheme. -/
def name : Role → String
  | echo => "echo"
  | doc => "doc"
  | mem => "mem"
  | cfg => "cfg"
  | fail => "fail"
  | none => "none"

/-- The number of a role. -/
def number (r : Role) : Nat := all.idxOf r

/-- The names of the scheme may be relative. -/
def isRelative : Role → Bool
  | doc => true
  | cfg => true
  | _ => false

/-- The role of a number. -/
theorem all_number (r : Role) : all[r.number]? = some r := by cases r <;> rfl

end Role

/-- The scheme of a role on a shelf, by the number of the shelf. -/
def schemeFor (shelf : Nat) (r : Role) : Scheme :=
  .custom (shelf * Role.all.length + r.number) r.isRelative

/-- The parameters of a URI with its name and fragment. -/
def echoed (u : Uri) (params : Params) : Params :=
  Table.insertAll params
    (("name", .string u.name) :: (u.fragment.map fun f => ("fragment", Value.string f)).toList)

/-- A document as a configuration that sees some parameters. -/
def Document.configuration (d : Document) (params : Params) : Configuration :=
  (Configuration.make d.data Handler.standard).withParameters params

/-- What a URI means on a shelf. -/
def resolve (shelf : Shelf) (u : Uri) (params : Params) : Role → Except Error (Option Value)
  | .echo => .ok (some (.map (echoed u params)))
  | .doc => .ok ((shelf.lookup u.name).map fun d => .resource (.plain u d.payload))
  | .mem => .ok ((shelf.lookup u.name).map fun d => .resource (.plain u d.payload))
  | .cfg => .ok ((shelf.lookup u.name).map fun d => .configuration (d.configuration params))
  | .fail => .error (.dereference u.canonical "boom")
  | .none => .ok Option.none

/-- A text in capitals. -/
def shout : Value → Option Value
  | .string s => some (.string (String.ofList (s.toList.map Char.toUpper)))
  | _ => Option.none

/-- The standard conversion, and images by the text of a value. -/
def imaging (heap : Heap) (v : Value) : Representation → Option Value
  | .image => (v.display? heap).map fun s => .string ("image:" ++ s)
  | r => Conversion.standard heap v r

/-- The host of some shelves. -/
def host (files : Files) (shelves : List Shelf) : Host where
  files := files
  scheme id u params :=
    match shelves[id / Role.all.length]?, Role.all[id % Role.all.length]? with
    | some shelf, some r => resolve shelf u params r
    | _, _ => .ok Option.none
  format _ _ v := shout v
  converter _ heap v r := imaging heap v r

end ObjectGraph.Sample
