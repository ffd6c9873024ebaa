import ObjectGraph.Component
import ObjectGraph.Text.Base64
import ObjectGraph.Text.Quoted

/-!
# `Value.Render` — values as data and as text

Every value has a rendering as data. A component is rendered by its type and its properties; one that is
met again inside its own rendering stands as its type name in angle brackets, so that components which
refer to each other in circles have a rendering too.

Contents:
* `Value.toJsonWith`, the rendering given that of components; `Heap.objectJson`, that of components;
* `Value.toJson`, `Value.display?`, `Value.debug`;
* `itemsToJson_eq_map`, `entriesToJson_eq_map`;
* `PropertyType.debug`, `Handler.debug`.
-/

namespace ObjectGraph

namespace Value

/-- A placeholder's rendering. -/
def pendingText (p : Pending) : String :=
  match p.path with
  | some path => "<pending " ++ p.name ++ "#" ++ path ++ ">"
  | none => "<pending " ++ p.name ++ ">"

/-- The data of a resource: structured if it can be, else its text. -/
def resourceJson (r : Resource) : Json :=
  match r.structured?, r.text? with
  | some j, _ => j
  | none, some s => .string s
  | none, none => .null

mutual

/-- A value as data, given the rendering of components. -/
def toJsonWith (object : ObjectId → Json) : Value → Json
  | null => .null
  | bool b => .bool b
  | number n => .number n
  | string s => .string s
  | date t => .string t.text
  | binary bytes => .string (Text.Base64.encodeText bytes)
  | uri u => .string u.canonical
  | list items => .array (itemsToJson object items)
  | map entries => .object (entriesToJson object entries)
  | configuration c => c.data
  | resource r => resourceJson r
  | .object id => object id
  | pending p => .string (pendingText p)

/-- The items of a list as data. -/
def itemsToJson (object : ObjectId → Json) : List Value → List Json
  | [] => []
  | v :: vs => toJsonWith object v :: itemsToJson object vs

/-- The entries of a map as data. -/
def entriesToJson (object : ObjectId → Json) : List (String × Value) → List (String × Json)
  | [] => []
  | (k, v) :: es => (k, toJsonWith object v) :: entriesToJson object es

end

end Value

namespace Heap

/-- A component as data: its type name and its properties. `visiting` are the components whose rendering
this is part of; `budget` bounds how many more may be. -/
def objectJson (h : Heap) : Nat → List ObjectId → ObjectId → Json
  | 0, _, _ => .null
  | budget + 1, visiting, o =>
      match h[o]? with
      | none => .null
      | some c =>
          -- a circle is cut here
          if visiting.contains o then .string ("<" ++ c.typeName ++ ">")
          else
            .object (Table.overlay [("-type", .string c.typeName)]
              (c.readings.map fun r => (r.1, r.2.toJsonWith (objectJson h budget (o :: visiting)))))

end Heap

namespace Value

/-- A value as data. -/
def toJson (h : Heap) (v : Value) : Json := v.toJsonWith (h.objectJson (h.length + 1) [])

/-- The text that stands for a value in a template: nothing for null and placeholders, the value itself
for what is written in one word, and data for the rest. -/
def display? (h : Heap) (v : Value) : Option String :=
  match v with
  | null => none
  | pending _ => none
  | bool b => some (if b then "true" else "false")
  | number n => some n.text
  | string s => some s
  | date t => some t.text
  | uri u => some u.canonical
  | resource r => r.text?
  | v => some (v.toJson h).compact

/-! ## Items and entries one by one -/

theorem itemsToJson_eq_map (object : ObjectId → Json) (items : List Value) :
    itemsToJson object items = items.map (toJsonWith object) := by
  induction items with
  | nil => rfl
  | cons v items ih => rw [itemsToJson, ih, List.map_cons]

theorem entriesToJson_eq_map (object : ObjectId → Json) (entries : List (String × Value)) :
    entriesToJson object entries = entries.map fun e => (e.1, e.2.toJsonWith object) := by
  induction entries with
  | nil => rfl
  | cons e entries ih =>
      obtain ⟨k, v⟩ := e
      rw [entriesToJson, ih, List.map_cons]

/-! ## Diagnostics -/

/-- A constructor and its argument. -/
def wrapped (name argument : String) : String := name ++ "(" ++ argument ++ ")"

/-- A URI for diagnostics. -/
def debugUri (u : Uri) : String := wrapped "CompoundUri" (Text.quote u.canonical)

/-- A configuration for diagnostics. -/
def debugConfiguration (c : Configuration) : String := wrapped "Configuration" c.data.compact

/-- A resource for diagnostics: its URI, and what kind of data it holds and how much. -/
def debugResource (r : Resource) : String :=
  let held := match r.payload with
    | .text s => "text, " ++ Decimal.natText s.utf8ByteSize ++ " bytes"
    | .octets bytes => "binary, " ++ Decimal.natText bytes.length ++ " bytes"
    | .json _ => "json"
  wrapped "Resource" (r.uri.canonical ++ ", " ++ held)

/-- A placeholder for diagnostics. -/
def debugPending (p : Pending) : String :=
  "Pending \x7b name: " ++ Text.quote p.name ++ ", path: "
    ++ (match p.path with
      | some path => wrapped "Some" (Text.quote path)
      | none => "None")
    ++ " \x7d"

mutual

/-- A value for diagnostics. -/
def debug : Value → String
  | null => "Null"
  | bool b => wrapped "Bool" (if b then "true" else "false")
  | number n => wrapped "Number" (wrapped "Number" n.text)
  | string s => wrapped "String" (Text.quote s)
  | date t => wrapped "Date" t.text
  | binary bytes => wrapped "Binary" (Decimal.natText bytes.length)
  | uri u => wrapped "Uri" (debugUri u)
  | list items => "[" ++ String.intercalate ", " (debugItems items) ++ "]"
  | map entries => "\x7b" ++ String.intercalate ", " (debugEntries entries) ++ "\x7d"
  | configuration c => wrapped "Configuration" (debugConfiguration c)
  | resource r => wrapped "Resource" (debugResource r)
  | object id => wrapped "Object" (Decimal.natText id)
  | pending p => wrapped "Pending" (debugPending p)

/-- The items of a list for diagnostics. -/
def debugItems : List Value → List String
  | [] => []
  | v :: vs => debug v :: debugItems vs

/-- The entries of a map for diagnostics. -/
def debugEntries : List (String × Value) → List String
  | [] => []
  | (k, v) :: es => (Text.quote k ++ ": " ++ debug v) :: debugEntries es

end

end Value

/-- A declared type for diagnostics. -/
def PropertyType.debug : PropertyType → String
  | any => "Any"
  | bool => "Bool"
  | integer => "Integer"
  | number => "Number"
  | string => "String"
  | date => "Date"
  | uri => "Uri"
  | binary => "Binary"
  | list => "List"
  | map => "Map"
  | configuration => "Configuration"
  | object (some c) => Value.wrapped "Object" (Value.wrapped "Some" (Text.quote c))
  | object none => Value.wrapped "Object" "None"

/-- A handler for diagnostics: its schemes, formats and bases. -/
def Handler.debug (h : Handler) : String :=
  "UriHandler \x7b schemes: " ++ Text.quoteRow h.schemeNames
    ++ ", formats: " ++ Text.quoteRow (Table.keys h.formats)
    ++ ", contexts: \x7b"
    ++ String.intercalate ", " (h.bases.map fun b => Text.quote b.1 ++ ": " ++ Value.debugUri b.2)
    ++ "\x7d \x7d"

end ObjectGraph
