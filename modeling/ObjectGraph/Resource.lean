import ObjectGraph.Handler
import ObjectGraph.Json.Parser
import ObjectGraph.Json.Printer
import ObjectGraph.Ron.Parser

/-!
# `Resource` — fetched data

A resource is what a URI led to: a text, octets, or data that is structured already, together with the
handler by which references inside it are resolved.

Contents:
* `Payload`, `Resource`;
* `text?`, `structured?`.
-/

namespace ObjectGraph

/-- What a resource holds. -/
inductive Payload where
  | text (s : String)
  | octets (bytes : List UInt8)
  | json (j : Json)

/-- Data fetched from a URI. -/
structure Resource where
  uri : Uri
  payload : Payload
  /-- By what references inside the data are resolved, once it has been dereferenced. -/
  handler : Option Handler

namespace Resource

/-- A resource that has not been dereferenced. -/
def plain (uri : Uri) (payload : Payload) : Resource := ⟨uri, payload, none⟩

/-- The resource with a handler. -/
def withHandler (r : Resource) (h : Handler) : Resource := { r with handler := some h }

/-- The text of a resource; octets must be well-formed. -/
def text? (r : Resource) : Option String :=
  match r.payload with
  | .text s => some s
  | .octets bytes => Text.ofOctets? bytes
  | .json j => some j.compact

/-- The URI names a document in RON. -/
def isRon (r : Resource) : Bool := ".ron".toList.isSuffixOf r.uri.name.toList

/-- The structured data of a resource, read in the notation its URI names. -/
def structured? (r : Resource) : Option Json :=
  match r.payload with
  | .json j => some j
  | _ => r.text?.bind fun s => if r.isRon then Ron.parse? s else Json.parse? s

end Resource

end ObjectGraph
