import ObjectGraph.Text.Case

/-!
# `Representation` — what a value is converted to

Contents:
* `Representation`, `all`, `name`, `ofName?`.
-/

namespace ObjectGraph

/-- What a value is converted to when it is read. -/
inductive Representation where
  /-- The value as it is. -/
  | default
  | string
  | number
  | boolean
  | date
  /-- Images come from converters of the host only. -/
  | image
  | url
  | binary
  /-- Maps and lists. -/
  | data
  /-- A configuration of its own. -/
  | configuration
  deriving DecidableEq, Repr

namespace Representation

/-- Every representation. -/
def all : List Representation :=
  [default, string, number, boolean, date, image, url, binary, data, configuration]

/-- The name of a representation. -/
def name : Representation → String
  | default => "default"
  | string => "string"
  | number => "number"
  | boolean => "boolean"
  | date => "date"
  | image => "image"
  | url => "url"
  | binary => "binary"
  | data => "data"
  | configuration => "configuration"

/-- The other names that are understood. -/
def otherNames : List (String × Representation) :=
  [("text", string), ("bool", boolean), ("uri", url), ("json", data), ("config", configuration)]

/-- A representation by its name, in any case, or by another name for it. -/
def ofName? (s : String) : Option Representation :=
  ((all.map fun r => (r.name, r)) ++ otherNames).lookup (Text.lower s)

/-- What is said about a name that is not understood. -/
def unknownMessage (s : String) : String := "unknown representation '" ++ Text.lower s ++ "'"

/-- A representation is found by its name. -/
theorem ofName?_name (r : Representation) : ofName? r.name = some r := by
  cases r <;> decide

end Representation

end ObjectGraph
