import ObjectGraph.Build.Types
import ObjectGraph.Component.Declared

/-!
# `Sample.Classes` — some classes to build graphs of

Nodes and hubs, which refer to each other; engines and cars, whose engine is there from the beginning; a
kit with a field of every type; and blobs. Nodes, hubs and engines count how often they have been told
that they are configured, and note what they held by then.

Contents:
* `node`, `hub`, `engine`, `car`, `kit`, `blob`, and the constructors of their instances;
* `instanceOf`, a new instance.
-/

namespace ObjectGraph.Sample

/-- A field of a type. -/
def field (name : String) (type : FieldType) : Field := ⟨name, type, none⟩

/-- A field that may hold a component, by default of a given class. -/
def part (name declared : String) : Field := ⟨name, .option .object, some declared⟩

/-- How often the component has been configured. -/
def hooks (fields : Fields) : Int := ((fields.lookup "hooks").bind Value.wholeNumber?).getD 0

/-- Counts that the component has been configured. -/
def countHook (fields : Fields) : Fields := Table.put "hooks" (.ofInt (hooks fields + 1)) fields

/-- A new instance of a class with declared fields. -/
def instanceOf (c : Class) (fields : List Field) : Component :=
  Component.fresh c (Field.initialValues fields)

/-! ## Nodes and hubs -/

/-- The fields of a node. -/
def nodeFields : List Field :=
  [field "label" .string, part "peer" "Node", field "hooks" .int64, field "peer_at_hook" .bool]

/-- The node has a peer. -/
def hasPeer (fields : Fields) : Bool := (fields.lookup "peer").any fun v => !v.isNull

/-- A component that may have a peer. It notes whether it had one when it was configured. -/
def node : Class :=
  .declared "Node" nodeFields fun fields =>
    Table.put "peer_at_hook" (.bool (hasPeer fields)) (countHook fields)

/-- The fields of a hub. -/
def hubFields : List Field :=
  [field "label" .string, field "members" (.list .object), field "tags" (.list .string),
   field "hooks" .int64, field "members_at_hook" .int64]

/-- How many members a hub has. -/
def memberCount (fields : Fields) : Nat :=
  match fields.lookup "members" with
  | some (.list members) => members.length
  | _ => 0

/-- A component with members. It notes how many it had when it was configured. -/
def hub : Class :=
  .declared "Hub" hubFields fun fields =>
    Table.put "members_at_hook" (.ofInt (memberCount fields)) (countHook fields)

/-! ## Engines and cars -/

/-- The fields of an engine. -/
def engineFields : List Field :=
  [field "cylinders" .int64, field "label" .string, field "hooks" .int64]

/-- An engine. -/
def engine : Class := .declared "Engine" engineFields countHook

/-- An engine with a label and a number of cylinders. -/
def engineWith (cylinders : Int) (label : String) : Component :=
  .fresh engine
    (Table.overlay (Field.initialValues engineFields)
      [("cylinders", .ofInt cylinders), ("label", .string label)])

/-- The fields of a car. -/
def carFields : List Field :=
  [field "model" .string, part "engine" "Engine", field "trailer" (.option .object),
   field "extras" (.list .string), field "enabled" .bool, field "class" .string]

/-- A car. -/
def car : Class := .declared "Car" carFields id

/-- A new car has an engine from stock. -/
def makeCar : Constructor := fun heap =>
  let (e, heap) := heap.allocate (engineWith 0 "stock")
  heap.allocate (.fresh car (Table.put "engine" (.object e) (Field.initialValues carFields)))

/-! ## Kits and blobs -/

/-- The fields of a kit, one of every type. -/
def kitFields : List Field :=
  [field "flag" .bool, field "int" .int64, field "small" .int32, field "unsigned" .nat32,
   field "size" .size, field "num" .float, field "single" .single, field "text" .string,
   field "when" (.option .date), field "link" (.option .uri), field "part" (.option .object),
   part "typed" "Engine", part "ghost" "Missing", field "cfg" (.option .configuration),
   field "any" .value, field "opt" (.option .int64), field "ints" (.list .int64),
   field "flags" (.list .bool), field "grid" (.list (.list .string)), field "table" (.map .float),
   field "parts" (.map .object)]

/-- A kit. -/
def kit : Class := .declared "Kit" kitFields id

/-- The fields of a blob. -/
def blobFields : List Field := [field "data" .binary, field "Raw" .bool]

/-- Some octets, and whether they are raw. -/
def blob : Class := .declared "Blob" blobFields id

end ObjectGraph.Sample
