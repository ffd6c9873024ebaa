import ObjectGraph.Json.Printer
import ObjectGraph.Text.Quoted
import ObjectGraph.Uri.Parser

/-!
# `Uri.Data` — compound URIs in raw data

In raw data a URI is a string. It is written in canonical form and read in any form; other data is no
URI.

Contents:
* `DataError` and its message;
* `Uri.toData`, `Uri.ofData`.
-/

namespace ObjectGraph

/-- What raw data is, as far as a reader of strings cares. -/
def Json.describe : Json → String
  | .null => "null"
  | .bool b => "boolean \x60" ++ (if b then "true" else "false") ++ "\x60"
  | .number (.integer n range) => "integer \x60" ++ (Number.integer n range).text ++ "\x60"
  | .number (.float x) => "floating point \x60" ++ (Number.float x).text ++ "\x60"
  | .string s => "string " ++ Text.quote s
  | .array _ => "sequence"
  | .object _ => "map"

namespace Uri

/-- Why raw data is no URI. -/
inductive DataError where
  /-- It is no string. -/
  | wrongKind (found : Json)
  /-- It is a string of another form. -/
  | malformed (e : SyntaxError)

/-- The message, in one line. -/
def DataError.message : DataError → String
  | wrongKind found => "invalid type: " ++ found.describe ++ ", expected a string"
  | malformed e => e.message

/-- A URI as raw data. -/
def toData (u : Uri) : Json := .string u.canonical

/-- The URI that raw data holds. -/
def ofData : Json → Except DataError Uri
  | .string s =>
      match parse s with
      | .ok u => .ok u
      | .error e => .error (.malformed e)
  | j => .error (.wrongKind j)

end Uri

end ObjectGraph
