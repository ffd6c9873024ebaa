import ObjectGraph.Configuration
import ObjectGraph.Sample.Classes

/-!
# `Sample.Factories` — some factories, and a registry of everything

Factories that build through the container: one that makes a record of all entries, one that sets a
property without asking the container, one that computes a property, one that fails and one that gives
several components at once.

Contents:
* `wired`, `careless`, `vEngine`, `failing`, `nodePair`;
* `registry`.
-/

namespace ObjectGraph.Sample

/-- What a step of a factory gives, or why the factory fails. -/
abbrev Attempt (α : Type) := Script (Except BuildError α)

/-- Builds the value at a key, without conversion. -/
def built (c : Configuration) (key : String) (type : PropertyType) : Attempt (Option Value) :=
  .build c key type .done

/-- Injects the value at a key, if there is one, into a property of a component. -/
def wire (c : Configuration) (o : ObjectId) (key property : String) : Attempt Unit :=
  (built c key .any).bind fun
    | .error e => .done (.error e)
    | .ok none => .done (.ok ())
    | .ok (some v) => .inject o property v fun _ => .done (.ok ())

/-- Sets a property of a component to the value at a key, if there is one. -/
def setFrom (c : Configuration) (o : ObjectId) (key : String) (type : PropertyType) : Attempt Unit :=
  (built c key type).bind fun
    | .error e => .done (.error e)
    | .ok none => .done (.ok ())
    | .ok (some v) => .set o key v fun _ => .done (.ok ())

/-- One attempt after another; the first failure ends both. -/
def andThen {α β : Type} (first : Attempt α) (second : α → Attempt β) : Attempt β :=
  first.bind fun
    | .error e => .done (.error e)
    | .ok a => second a

/-- Injects the values at some keys into the properties of the same names. -/
def wireAll (c : Configuration) (o : ObjectId) : List String → Attempt Unit
  | [] => .done (.ok ())
  | key :: keys => andThen (wire c o key key) fun _ => wireAll c o keys

/-- A record of all entries whose keys do not begin with a minus sign. -/
def wired : Factory := fun c =>
  .create (.fresh .record []) fun o =>
    andThen (wireAll c o (c.keys.filter fun key => key.toList.head? != some '-'))
      fun _ => .done (.ok (.object o))

/-- A record whose peer is set as it is built. -/
def careless : Factory := fun c =>
  .create (.fresh .record []) fun o =>
    andThen (setFrom c o "peer" .any) fun _ => .done (.ok (.object o))

/-- A number without its fraction, kept within 64 signed bits. -/
def clampInt64 (n : Int) : Int := max (-Int.pow 2 63) (min n (Int.pow 2 63 - 1))

/-- The whole part of a numeric value. -/
def wholePart (v : Value) : Option Int := v.float?.map fun x => clampInt64 x.truncate

/-- An engine with four cylinders for every bank. -/
def vEngine : Factory := fun c =>
  .read c "banks" .number fun banks =>
    .instantiate "Engine" [] fun
      | .error e => .done (.error e)
      | .ok o =>
          .set o "cylinders" (.ofInt (clampInt64 ((banks.bind wholePart).getD 1 * 4))) fun _ =>
            andThen (setFrom c o "label" .string) fun _ => .done (.ok (.object o))

/-- Nothing: it is out of parts. -/
def failing : Factory := fun _ => .done (.error (.construction "failing" "" "out of parts"))

/-- Two nodes in a list, the second inside a map, and a value beside them. -/
def nodePair : Factory := fun c =>
  .create (instanceOf node nodeFields) fun a =>
    .create (instanceOf node nodeFields) fun b =>
      andThen (wire c a "first" "peer") fun _ =>
        andThen (wire c b "second" "peer") fun _ =>
          andThen (built c "value" .any) fun v =>
            .done (.ok (.list [.object a, .map [("b", .object b)], v.getD .null]))

/-- The classes, logical types and factories. One logical type stands for a class that does not exist,
and one has the name of a class. -/
def registry : TypeRegistry where
  classes := Table.insertAll []
    [("record", .ofComponent (.fresh .record [])),
     ("Node", .ofComponent (instanceOf node nodeFields)),
     ("Hub", .ofComponent (instanceOf hub hubFields)),
     ("Engine", .ofComponent (instanceOf engine engineFields)),
     ("tuned", .ofComponent (engineWith 12 "tuned")),
     ("Car", makeCar),
     ("Kit", .ofComponent (instanceOf kit kitFields)),
     ("Blob", .ofComponent (instanceOf blob blobFields))]
  types := Table.insertAll [] [("motor", "Engine"), ("lost", "Missing"), ("record", "Node")]
  factories := Table.insertAll []
    [("wired", wired), ("careless", careless), ("v-engine", vEngine), ("failing", failing),
     ("crate", nodePair)]

end ObjectGraph.Sample
