import ObjectGraph.Value

/-!
# `Component` — live objects and the heap they live on

A component is an instance of a class, which says by what properties it is configured, which values
each of them takes and what happens once all of them have been set. Components refer to each other by
number, so that they may refer to each other in circles; the heap holds them in order of creation.

Contents:
* `PropertyType` and the representation it asks for; `Property`;
* `Class`, `Component` and its operations;
* `Heap`: `allocate`, `property?`, `get?`, `set`, `finish`, with their laws.
-/

namespace ObjectGraph

/-- The declared type of a property. -/
inductive PropertyType where
  /-- Any value, as it is. -/
  | any
  | bool
  | integer
  | number
  | string
  | date
  | uri
  | binary
  | list
  | map
  /-- The configuration itself, not what it would build. -/
  | configuration
  /-- A component, of a given class if the configuration does not say otherwise. -/
  | object (declared : Option String)
  deriving DecidableEq, Repr

/-- What a value is converted to before it is set. -/
def PropertyType.representation : PropertyType → Representation
  | bool => .boolean
  | integer => .number
  | number => .number
  | string => .string
  | date => .date
  | uri => .url
  | binary => .binary
  | configuration => .configuration
  | any | list | map | object _ => .default

/-- The name and the declared type of a property. -/
structure Property where
  name : String
  type : PropertyType
  deriving DecidableEq, Repr

/-- What a component holds: a value for each of its properties. -/
abbrev Fields := List (String × Value)

/-- What the components of one kind have in common. -/
structure Class where
  /-- The type name of the components. -/
  name : String
  /-- The properties, in order. -/
  properties : Fields → List Property
  /-- The property that a name in a configuration means. -/
  property? : Fields → String → Option Property
  /-- The value of a property. -/
  get? : Fields → String → Option Value
  /-- The fields with a property set, if there is one of this name and it takes the value. -/
  set? : Fields → String → Value → Option Fields
  /-- What happens once every property has been set. -/
  configured : Fields → Fields

namespace Class

/-- A name without a leading `is` or `has`. -/
def accessorStem? (name : String) : Option (List Char) :=
  match name.toList with
  | 'i' :: 's' :: stem => some stem
  | 'h' :: 'a' :: 's' :: stem => some stem
  | _ => none

/-- The property of a name among some; a Boolean one is also found by its name after `is` or `has`,
with or without a capital. Names of properties are ASCII. -/
def findProperty (properties : List Property) (name : String) : Option Property :=
  match properties.find? (·.name == name) with
  | some p => some p
  | none =>
      -- `isEnabled` and `hasEnabled` mean `enabled`, if that is Boolean
      match accessorStem? name with
      | some (c :: cs) =>
          let lowered := String.ofList (c.toLower :: cs)
          let stem := String.ofList (c :: cs)
          properties.find? fun p => p.type == .bool && (p.name == lowered || p.name == stem)
      | _ => none

/-- The class of records: every name is a property, and every property takes every value. -/
def record : Class where
  name := "Record"
  properties fields := fields.map fun f => ⟨f.1, .any⟩
  property? _ name := some ⟨name, .any⟩
  get? fields name := fields.lookup name
  set? fields name v := some (Table.insert name v fields)
  configured fields := fields

end Class

/-- A live object. -/
structure Component where
  ofClass : Class
  fields : Fields
  /-- How often it has been told that every property has been set. -/
  timesConfigured : Nat

namespace Component

/-- A new instance of a class. -/
def fresh (c : Class) (fields : Fields) : Component := ⟨c, fields, 0⟩

/-- The type name. -/
def typeName (c : Component) : String := c.ofClass.name

/-- The properties, in order. -/
def properties (c : Component) : List Property := c.ofClass.properties c.fields

/-- The property that a name in a configuration means. -/
def property? (c : Component) (name : String) : Option Property := c.ofClass.property? c.fields name

/-- The value of a property. -/
def get? (c : Component) (name : String) : Option Value := c.ofClass.get? c.fields name

/-- The component with a property set, if it takes the value. -/
def set? (c : Component) (name : String) (v : Value) : Option Component :=
  (c.ofClass.set? c.fields name v).map fun fields => { c with fields }

/-- The component once every property has been set. -/
def finish (c : Component) : Component :=
  { c with fields := c.ofClass.configured c.fields, timesConfigured := c.timesConfigured + 1 }

/-- The properties that have a value, with their values. -/
def readings (c : Component) : List (String × Value) :=
  c.properties.filterMap fun p => (c.get? p.name).map fun v => (p.name, v)

end Component

/-- The components that exist, in order of creation; the number of one is its position. -/
abbrev Heap := List Component

namespace Heap

/-- A heap with one more component, and its number. -/
def allocate (h : Heap) (c : Component) : ObjectId × Heap := (h.length, h ++ [c])

/-- The type name of a component. -/
def typeName (h : Heap) (o : ObjectId) : String :=
  match h[o]? with
  | some c => c.typeName
  | none => ""

/-- The property of a component that a name means. -/
def property? (h : Heap) (o : ObjectId) (name : String) : Option Property :=
  h[o]?.bind (·.property? name)

/-- The value of a property of a component. -/
def get? (h : Heap) (o : ObjectId) (name : String) : Option Value := h[o]?.bind (·.get? name)

/-- Sets a property of a component; tells whether it took the value. -/
def set (h : Heap) (o : ObjectId) (name : String) (v : Value) : Bool × Heap :=
  match h[o]?.bind (·.set? name v) with
  | some c => (true, List.set h o c)
  | none => (false, h)

/-- Tells a component that every property has been set. -/
def finish (h : Heap) (o : ObjectId) : Heap :=
  match h[o]? with
  | some c => List.set h o c.finish
  | none => h

/-! ## Laws -/

/-- A new component is found under its number. -/
theorem getElem?_allocate (h : Heap) (c : Component) : (h.allocate c).2[(h.allocate c).1]? = some c := by
  simp [allocate]

/-- A new component changes no other. -/
theorem getElem?_allocate_of_lt {h : Heap} {o : ObjectId} (ho : o < h.length) (c : Component) :
    (h.allocate c).2[o]? = h[o]? := by
  simp [allocate, List.getElem?_append_left ho]

/-- Setting a property changes the size of no heap. -/
theorem length_set (h : Heap) (o : ObjectId) (name : String) (v : Value) :
    (h.set o name v).2.length = h.length := by
  unfold set; split <;> simp

/-- Setting a property of one component changes no other. -/
theorem getElem?_set_of_ne {h : Heap} {o p : ObjectId} (hp : o ≠ p) (name : String) (v : Value) :
    (h.set o name v).2[p]? = h[p]? := by
  unfold set; split
  · exact List.getElem?_set_ne hp
  · rfl

/-- A property that was refused leaves the heap as it is. -/
theorem set_of_refused {h : Heap} {o : ObjectId} {name : String} {v : Value}
    (hr : (h.set o name v).1 = false) : (h.set o name v).2 = h := by
  unfold set at hr ⊢; split
  · rename_i c hc; simp [hc] at hr
  · rfl

/-- A component that has been put in another's place is found there. -/
theorem getElem?_listSet_eq {h : Heap} {o : ObjectId} {c : Component} (hc : h[o]? = some c) (c' : Component) :
    (List.set h o c')[o]? = some c' :=
  List.getElem?_set_self (List.getElem?_eq_some_iff.mp hc).1

theorem set_taken {h : Heap} {o : ObjectId} {c : Component} {name : String} {v : Value} {taken : Fields}
    (there : h[o]? = some c) (set : c.ofClass.set? c.fields name v = some taken) :
    h.set o name v = (true, List.set h o { c with fields := taken }) := by
  rw [Heap.set, there, Option.bind_some, Component.set?, set, Option.map_some]

theorem set_refused {h : Heap} {o : ObjectId} {c : Component} {name : String} {v : Value}
    (there : h[o]? = some c) (set : c.ofClass.set? c.fields name v = none) : h.set o name v = (false, h) := by
  rw [Heap.set, there, Option.bind_some, Component.set?, set, Option.map_none]

/-- Finishing a component changes the size of no heap. -/
theorem length_finish (h : Heap) (o : ObjectId) : (h.finish o).length = h.length := by
  unfold finish; split <;> simp

end Heap

end ObjectGraph
