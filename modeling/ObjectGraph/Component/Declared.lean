import ObjectGraph.Component

/-!
# `Component.Declared` — classes by the types of their fields

A class may be given by its fields: their names, their types, and for components the class that is
built when the configuration does not say otherwise. A field takes a value if the value fits its type;
it holds the value in the form that its type gives to it.

Contents:
* `FieldType`, `propertyType`, `initial`, `accept`;
* `Field`, `Field.initialValues`, `Class.declared`;
* `Class.set?_declared`, `Class.get?_declared`: what such a class takes, and what it holds then.
-/

namespace ObjectGraph

/-- The type of a field. -/
inductive FieldType where
  | bool
  /-- Whole numbers from `least` to `greatest`. -/
  | integer (least greatest : Int)
  /-- Floating point numbers. -/
  | float
  /-- Floating point numbers of half the width. -/
  | single
  | string
  | date
  | uri
  | binary
  | object
  | configuration
  | value
  /-- Null, or a value of another type. -/
  | option (t : FieldType)
  | list (t : FieldType)
  | map (t : FieldType)
  deriving DecidableEq, Repr

namespace FieldType

/-- Whole numbers of 64 signed bits. -/
def int64 : FieldType := integer (-Int.pow 2 63) (Int.pow 2 63 - 1)

/-- Whole numbers of 32 signed bits. -/
def int32 : FieldType := integer (-Int.pow 2 31) (Int.pow 2 31 - 1)

/-- Whole numbers of 32 unsigned bits. -/
def nat32 : FieldType := integer 0 (Int.pow 2 32 - 1)

/-- Whole numbers that count something: 64 unsigned bits. -/
def size : FieldType := integer 0 (Int.pow 2 64 - 1)

/-- The declared type of a property with such a field. -/
def propertyType : FieldType → PropertyType
  | bool => .bool
  | integer _ _ => .integer
  | float => .number
  | single => .number
  | string => .string
  | date => .date
  | uri => .uri
  | binary => .binary
  | object => .object none
  | configuration => .configuration
  | value => .any
  | option t => t.propertyType
  | list _ => .list
  | map _ => .map

/-- What a field holds before it has been set. -/
def initial : FieldType → Value
  | bool => .bool false
  | integer _ _ => .ofInt 0
  | float => .ofFloat (.ofInt 0)
  | single => .ofFloat (.ofInt 0)
  | string => .string ""
  | binary => .binary []
  | list _ => .list []
  | map _ => .map []
  | _ => .null

/-- A value in every place of a row, if every place has one. -/
def acceptAll (accept : Value → Option Value) : List Value → Option (List Value)
  | [] => some []
  | v :: vs => do pure ((← accept v) :: (← acceptAll accept vs))

/-- A value in every entry, if every entry has one. -/
def acceptEntries (accept : Value → Option Value) :
    List (String × Value) → Option (List (String × Value))
  | [] => some []
  | (k, v) :: es => do pure ((k, ← accept v) :: (← acceptEntries accept es))

/-- The form in which a field holds a value, if the value fits the field's type. -/
def accept : FieldType → Value → Option Value
  | bool, .bool b => some (.bool b)
  | integer least greatest, v =>
      v.wholeNumber?.bind fun n => if least ≤ n ∧ n ≤ greatest then some (.ofInt n) else none
  | float, v => v.float?.map .ofFloat
  | single, v => v.float?.map fun x => match x.toSingle? with
      | some y => .ofFloat y
      | none => .null
  | string, .string s => some (.string s)
  | date, .date t => some (.date t)
  | uri, .uri u => some (.uri u)
  | binary, .binary bytes => some (.binary bytes)
  | object, .object id => some (.object id)
  | configuration, .configuration c => some (.configuration c)
  | value, v => some v
  | option _, .null => some .null
  | option t, v => t.accept v
  | list t, .list items => (acceptAll t.accept items).map .list
  | map t, .map entries => (acceptEntries t.accept entries).map .map
  | _, _ => none

end FieldType

/-- A declared field. -/
structure Field where
  name : String
  type : FieldType
  /-- The class of the component it holds, if the configuration does not say otherwise. -/
  declared : Option String
  deriving DecidableEq, Repr

/-- The property a field makes. -/
def Field.property (f : Field) : Property :=
  ⟨f.name, match f.declared with
    | some c => .object (some c)
    | none => f.type.propertyType⟩

/-- What the fields of a new instance hold. -/
def Field.initialValues (fields : List Field) : Fields := fields.map fun f => (f.name, f.type.initial)

/-- The class with given fields, and what happens once every property has been set. -/
def Class.declared (name : String) (fields : List Field) (configured : Fields → Fields) : Class where
  name := name
  properties _ := fields.map Field.property
  property? _ key := Class.findProperty (fields.map Field.property) key
  get? held key := if fields.any (·.name == key) then held.lookup key else none
  set? held key v := do
    let f ← fields.find? (·.name == key)
    let w ← f.type.accept v
    pure (Table.put key w held)
  configured := configured

/-! ## Laws -/

variable {name key : String} {fields : List Field} {configured : Fields → Fields} {held held' : Fields} {v : Value}

theorem Field.of_find? {f : Field} (found : fields.find? (·.name == key) = some f) :
    f ∈ fields ∧ f.name = key := by
  have named := List.find?_some (p := fun f : Field => f.name == key) found
  exact ⟨List.mem_of_find?_eq_some found, beq_iff_eq.mp named⟩

/-- A property is set if there is a field of this name and it accepts the value. -/
theorem Class.set?_declared :
    (Class.declared name fields configured).set? held key v = some held' ↔
      ∃ f w, fields.find? (·.name == key) = some f ∧ f.type.accept v = some w ∧ held' = Table.put key w held := by
  show ((fields.find? (·.name == key)).bind fun f => (f.type.accept v).bind fun w => some (Table.put key w held))
    = some held' ↔ _
  constructor
  · intro h
    obtain ⟨f, found, h⟩ := Option.bind_eq_some_iff.mp h
    obtain ⟨w, accepted, h⟩ := Option.bind_eq_some_iff.mp h
    exact ⟨f, w, found, accepted, (Option.some.inj h).symm⟩
  · rintro ⟨f, w, found, accepted, rfl⟩
    rw [found, Option.bind_some, accepted, Option.bind_some]

/-- A property that has been set has the value, and no other property has changed. -/
theorem Class.get?_declared {f : Field} (found : fields.find? (·.name == key) = some f) (w : Value) (q : String) :
    (Class.declared name fields configured).get? (Table.put key w held) q
      = if q = key then some w else (Class.declared name fields configured).get? held q := by
  obtain ⟨member, named⟩ := Field.of_find? found
  have there : fields.any (·.name == key) = true := List.any_eq_true.mpr ⟨f, member, beq_iff_eq.mpr named⟩
  show (if fields.any (·.name == q) then (Table.put key w held).lookup q else none)
    = if q = key then some w else if fields.any (·.name == q) then held.lookup q else none
  rw [Table.lookup_put]
  by_cases same : q = key
  · rw [same, if_pos there, if_pos rfl, if_pos rfl]
  · rw [if_neg same, if_neg same]

end ObjectGraph
