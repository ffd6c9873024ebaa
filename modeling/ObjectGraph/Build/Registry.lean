import ObjectGraph.Build.Wiring

/-!
# `Build.Registry` — what a pass has built, and whether it is complete

A pass is complete when no name is building, no assignment is parked, and no placeholder is left in a
built value or in a property of a component, as far as components lead to each other.

Contents:
* `Registry` and its lookups;
* `Build.registry`;
* `Heap.unresolved`, the names of the placeholders that can be reached from some values;
* `Build.unsettled`, what is left of a pass.
-/

namespace ObjectGraph

/-- Named values in order of completion. -/
abbrev Registry := List (String × Value)

namespace Registry

/-- The value of a name. -/
def get? (r : Registry) (name : String) : Option Value := r.lookup name

/-- The name has a value. -/
def contains (r : Registry) (name : String) : Bool := Table.has r name

/-- The names, in order of completion. -/
def names (r : Registry) : List String := Table.keys r

/-- The registry as data. -/
def toJson (r : Registry) (heap : Heap) : Json :=
  .object (Table.ofPairs (r.map fun e => (e.1, e.2.toJson heap)))

end Registry

/-! ## Unresolved placeholders -/

/-- The components visited, and the names of the placeholders found. -/
structure Found where
  visited : List ObjectId
  names : List String

namespace Value

mutual

/-- Adds the placeholders in a value, given how to add those of a component. -/
def addUnresolved (object : ObjectId → Found → Found) : Value → Found → Found
  | pending p, f => { f with names := f.names ++ [p.name] }
  | list items, f => addItems object items f
  | map entries, f => addEntries object entries f
  | .object o, f => object o f
  | _, f => f

/-- Adds the placeholders in some items. -/
def addItems (object : ObjectId → Found → Found) : List Value → Found → Found
  | [], f => f
  | v :: vs, f => addItems object vs (addUnresolved object v f)

/-- Adds the placeholders in some entries. -/
def addEntries (object : ObjectId → Found → Found) : List (String × Value) → Found → Found
  | [], f => f
  | (_, v) :: es, f => addEntries object es (addUnresolved object v f)

end

end Value

namespace Heap

/-- Adds the placeholders in the properties of a component that has not been visited; `budget` bounds how
many components lead to each other. -/
def addObject (h : Heap) : Nat → ObjectId → Found → Found
  | 0, _, f => f
  | budget + 1, o, f =>
      -- components may lead to each other in circles
      if f.visited.contains o then f
      else match h[o]? with
        | none => { f with visited := o :: f.visited }
        | some c =>
            Value.addItems (addObject h budget) (c.readings.map Prod.snd)
              { f with visited := o :: f.visited }

/-- The placeholders that can be reached from some values. -/
def unresolved (h : Heap) (vs : List Value) : List String :=
  (Value.addItems (h.addObject (h.length + 1)) vs ⟨[], []⟩).names

end Heap

/-! ## The end of a pass -/

namespace NameState

/-- The value of a built name. -/
def value? : NameState → Option Value
  | built v => some v
  | building _ => none

end NameState

namespace Build

/-- The built names with their values, in order of completion. -/
def registry (b : Build) : Registry :=
  b.order.filterMap fun name =>
    ((b.names.lookup name).bind NameState.value?).map fun v => (name, v)

/-- The names that are building. -/
def buildingNames (b : Build) : List String :=
  (b.names.filter fun e => e.2.value?.isNone).map Prod.fst

/-- How many assignments are parked. -/
def parkedCount (b : Build) : Nat := (b.deferred.filter Option.isSome).length

/-- The values of a pass: those of the built names, and the tracked components. -/
def values (b : Build) : List Value :=
  b.names.filterMap (fun e => e.2.value?) ++ b.objects.map fun t => .object t.object

/-- Texts in ascending order, each once. -/
def ascending (names : List String) : List String :=
  Table.keys (Table.insertAll [] (names.map fun n => (n, ())))

/-- What keeps a pass from being complete: nothing, or the names that placeholders wait for. -/
def unsettled (b : Build) (h : Heap) : Option (List String) :=
  let names := b.buildingNames ++ h.unresolved b.values
  if names = [] ∧ b.parkedCount = 0 then none else some (ascending names)

end Build

end ObjectGraph
