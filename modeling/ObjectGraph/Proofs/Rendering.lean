import ObjectGraph.Proofs.Unresolved
import ObjectGraph.Value.Render

/-!
# `Proofs.Rendering` — components in circles are rendered, and nothing but circles is cut

A component stands as its type name inside of its own rendering, and in full everywhere else. Whoever renders
components so, one inside of another, needs no bound on how many there may be: each is on the heap, and none is
inside of itself in full, so the heap is longer than any row of them. `Heap.rendering` is the rendering without a
bound, and the one with a bound never comes to it.

What stands in a value stands at the same place in its rendering. So a component that is shared is rendered as often
as it occurs.

Contents:
* `Heap.rendering`, `Heap.render` and their equations; `objectJson_eq_rendering`, `toJson_eq_render`;
* `Json.at?`, what stands in data at a place; `Heap.Occurs`, what stands in a value at a place, with the components
  that it stands inside of;
* `at?_render`, `toJson_renders`.
-/

namespace ObjectGraph

/-! ## Rendering without a bound -/

namespace Heap

/-- A component as data, inside of the renderings of others. -/
def rendering (h : Heap) (inside : List ObjectId) (o : ObjectId) : Json :=
  match _ : h[o]? with
  | none => .null
  | some c =>
      if _ : o ∈ inside then .string ("<" ++ c.typeName ++ ">")
      else
        .object (Table.overlay [("-type", .string c.typeName)]
          (c.readings.map fun r => (r.1, r.2.toJsonWith (h.rendering (o :: inside)))))
termination_by h.unvisited inside
decreasing_by
  rename_i found first
  exact unvisited_cons_lt (List.getElem?_eq_some_iff.mp found).1 first

/-- A value as data, inside of the renderings of components. -/
def render (h : Heap) (inside : List ObjectId) (v : Value) : Json := v.toJsonWith (h.rendering inside)

variable {h : Heap} {inside : List ObjectId} {o : ObjectId} {c : Component}

theorem rendering_of_none (none : h[o]? = none) : h.rendering inside o = .null := by
  rw [rendering]
  split
  next => rfl
  next found => exact absurd (none.symm.trans found) (by simp)

/-- A component inside of itself stands as its type name. -/
theorem rendering_again (hc : h[o]? = some c) (again : o ∈ inside) :
    h.rendering inside o = .string ("<" ++ c.typeName ++ ">") := by
  rw [rendering]
  split
  next none => exact absurd (hc.symm.trans none) (by simp)
  next found =>
    rw [dif_pos again, Option.some.inj (hc.symm.trans found)]

/-- A component anywhere else stands with its properties. -/
theorem rendering_whole (hc : h[o]? = some c) (first : o ∉ inside) :
    h.rendering inside o = .object (Table.overlay [("-type", .string c.typeName)]
      (c.readings.map fun r => (r.1, r.2.toJsonWith (h.rendering (o :: inside))))) := by
  rw [rendering]
  split
  next none => exact absurd (hc.symm.trans none) (by simp)
  next found =>
    rw [dif_neg first, Option.some.inj (hc.symm.trans found)]

theorem render_list (items : List Value) :
    h.render inside (.list items) = .array (items.map (h.render inside)) := by
  rw [render, Value.toJsonWith, Value.itemsToJson_eq_map]
  rfl

theorem render_map (entries : List (String × Value)) :
    h.render inside (.map entries) = .object (entries.map fun e => (e.1, h.render inside e.2)) := by
  rw [render, Value.toJsonWith, Value.entriesToJson_eq_map]
  rfl

/-- The bound is not reached while it is greater than the number of components there are still to go into. -/
theorem objectJson_eq_rendering {budget : Nat} (enough : h.unvisited inside < budget) :
    h.objectJson budget inside o = h.rendering inside o := by
  induction budget generalizing inside o with
  | zero => exact absurd enough (Nat.not_lt_zero _)
  | succ budget ih =>
      rw [objectJson]
      split
      next none => rw [rendering_of_none none]
      next c found =>
        by_cases again : o ∈ inside
        · rw [if_pos (by simpa using again), rendering_again found again]
        · have less := unvisited_cons_lt (List.getElem?_eq_some_iff.mp found).1 again
          have same : h.objectJson budget (o :: inside) = h.rendering (o :: inside) :=
            funext fun _ => ih (by omega)
          rw [if_neg (by simpa using again), rendering_whole found again, same]

/-- No bound beyond the number of components is ever reached. -/
theorem render_of_budget {budget : Nat} (enough : h.length < budget) (v : Value) :
    v.toJsonWith (h.objectJson budget []) = h.render [] v := by
  have same : h.objectJson budget [] = h.rendering [] :=
    funext fun _ => objectJson_eq_rendering (Nat.lt_of_le_of_lt h.unvisited_nil_le enough)
  rw [same, render]

end Heap

theorem Value.toJson_eq_render (h : Heap) (v : Value) : v.toJson h = h.render [] v :=
  Heap.render_of_budget (Nat.lt_succ_self _) v

/-! ## The parts of a rendering -/

/-- What stands in data at a place. -/
def Json.at? : List Place → Json → Option Json
  | [], j => some j
  | .index i :: rest, .array items => items[i]?.bind (at? rest)
  | .key k :: rest, .object members => (members.lookup k).bind (at? rest)
  | _ :: _, _ => none

/-- A value occurs in another, which stands inside of some components: the steps that lead to it, and the components
that it stands inside of. The steps go through items, entries and the properties of components; there are none from
a component inside of itself. -/
inductive Heap.Occurs (h : Heap) : List ObjectId → Value → List Place → List ObjectId → Value → Prop
  | here {inside : List ObjectId} {v : Value} : Occurs h inside v [] inside v
  | item {inside nested : List ObjectId} {items : List Value} {i : Nat} {v w : Value} {path : List Place}
      (hv : items[i]? = some v) (hw : Occurs h inside v path nested w) :
      Occurs h inside (.list items) (.index i :: path) nested w
  | entry {inside nested : List ObjectId} {entries : List (String × Value)} {k : String} {v w : Value}
      {path : List Place} (hv : entries.lookup k = some v) (hw : Occurs h inside v path nested w) :
      Occurs h inside (.map entries) (.key k :: path) nested w
  | property {inside nested : List ObjectId} {o : ObjectId} {c : Component} {name : String} {v w : Value}
      {path : List Place} (hc : h[o]? = some c) (first : o ∉ inside) (hv : (name, v) ∈ c.readings)
      (hw : Occurs h (o :: inside) v path nested w) : Occurs h inside (.object o) (.key name :: path) nested w

/-- A property reads the same however often it is listed. -/
theorem Component.get?_of_mem_readings {c : Component} {name : String} {v : Value} (hv : (name, v) ∈ c.readings) :
    c.get? name = some v := by
  obtain ⟨p, -, hp⟩ := List.mem_filterMap.mp hv
  obtain ⟨w, got, pair⟩ := Option.map_eq_some_iff.mp hp
  obtain ⟨rfl, rfl⟩ := Prod.mk.inj pair
  exact got

namespace Heap

variable {h : Heap} {inside nested : List ObjectId} {o : ObjectId} {c : Component} {v w : Value} {path : List Place}

/-- A component that is not inside of itself is an object with its type, unless a property has that name, and with
every property that has a value. -/
theorem render_members (hc : h[o]? = some c) (first : o ∉ inside) :
    ∃ members, h.render inside (.object o) = .object members ∧
      Table.keys members = ("-type" :: Table.keys c.readings).eraseDups ∧
      ("-type" ∉ Table.keys c.readings → members.lookup "-type" = some (.string c.typeName)) ∧
      ∀ name v, (name, v) ∈ c.readings → members.lookup name = some (h.render (o :: inside) v) := by
  obtain ⟨upper, written⟩ : ∃ upper, upper = c.readings.map fun r => (r.1, h.render (o :: inside) r.2) := ⟨_, rfl⟩
  have whole : h.render inside (.object o) = .object (Table.overlay [("-type", .string c.typeName)] upper) :=
    written ▸ rendering_whole hc first
  have keys : Table.keys upper = Table.keys c.readings := by simp [written, Table.keys]
  refine ⟨_, whole, ?_, fun free => ?_, fun name v hv => ?_⟩
  · have type : Table.keys [("-type", Json.string c.typeName)] = ["-type"].eraseDups := rfl
    rw [Table.keys_overlay type, keys]
    rfl
  · have absent : upper.reverse.lookup "-type" = none := by
      rw [← Option.not_isSome_iff_eq_none, ← Table.mem_keys_iff, Table.keys, List.map_reverse, List.mem_reverse]
      rwa [← Table.keys, keys]
    rw [Table.lookup_overlay, absent, Option.none_or, Table.lookup_cons, if_pos rfl]
  · have last : upper.reverse.lookup name = some (h.render (o :: inside) v) := by
      rw [written]
      refine Table.lookup_of_unique (List.mem_reverse.mpr (List.mem_map_of_mem hv)) fun j hj => ?_
      obtain ⟨⟨l, w⟩, hw, pair⟩ := List.mem_map.mp (List.mem_reverse.mp hj)
      obtain ⟨rfl, rfl⟩ := Prod.mk.inj pair
      have same := (Component.get?_of_mem_readings hw).symm.trans (Component.get?_of_mem_readings hv)
      rw [Option.some.inj same]
    rw [Table.lookup_overlay, last, Option.some_or]

/-- What occurs in a value is rendered at its place in the rendering of the value. -/
theorem at?_render (occurs : h.Occurs inside v path nested w) :
    (h.render inside v).at? path = some (h.render nested w) := by
  induction occurs with
  | here => rfl
  | item hv _ ih => rw [render_list, Json.at?, List.getElem?_map, hv, Option.map_some, Option.bind_some, ih]
  | entry hv _ ih => rw [render_map, Json.at?, Table.lookup_map, hv, Option.map_some, Option.bind_some, ih]
  | property hc first hv _ ih =>
      obtain ⟨members, whole, -, -, properties⟩ := render_members hc first
      rw [whole, Json.at?, properties _ _ hv, Option.bind_some, ih]

end Heap

/-! ## Values as data -/

/-- Rendering ends: it is what it would be without a bound on the components inside of each other. In it, whatever
occurs in the value stands at its place. A component stands there as its type name in angle brackets inside of
itself, and anywhere else as an object with its type, unless a property has that name, and with every property that
has a value. -/
theorem Value.toJson_renders (h : Heap) (v : Value) :
    (∀ budget, h.length < budget → v.toJsonWith (h.objectJson budget []) = v.toJson h) ∧
    v.toJson h = h.render [] v ∧
    (∀ path inside w, h.Occurs [] v path inside w → (v.toJson h).at? path = some (h.render inside w)) ∧
    ∀ path inside o c, h.Occurs [] v path inside (.object o) → h[o]? = some c →
      (o ∈ inside → (v.toJson h).at? path = some (.string ("<" ++ c.typeName ++ ">"))) ∧
      (o ∉ inside → ∃ members, (v.toJson h).at? path = some (.object members) ∧
        Table.keys members = ("-type" :: Table.keys c.readings).eraseDups ∧
        ("-type" ∉ Table.keys c.readings → members.lookup "-type" = some (.string c.typeName)) ∧
        ∀ name w, (name, w) ∈ c.readings → members.lookup name = some (h.render (o :: inside) w)) := by
  have placed : ∀ path inside w, h.Occurs [] v path inside w →
      (v.toJson h).at? path = some (h.render inside w) := by
    intro path inside w occurs
    rw [toJson_eq_render, Heap.at?_render occurs]
  refine ⟨fun budget enough => ?_, toJson_eq_render h v, placed, ?_⟩
  · rw [Heap.render_of_budget enough, toJson_eq_render]
  · intro path inside o c occurs hc
    refine ⟨fun again => ?_, fun first => ?_⟩
    · rw [placed _ _ _ occurs, Heap.render, toJsonWith, Heap.rendering_again hc again]
    · obtain ⟨members, whole, parts⟩ := Heap.render_members hc first
      exact ⟨members, by rw [placed _ _ _ occurs, whole], parts⟩

/-- Two components that have each other are each rendered with the other, as often as they occur. -/
example :
    (Value.list [.object 0, .object 1, .object 0]).toJson
        [.fresh .record [("next", .object 1)], .fresh .record [("next", .object 0)]] =
      .array (List.replicate 3 (.object [("-type", .string "Record"),
        ("next", .object [("-type", .string "Record"), ("next", .string "<Record>")])])) := by
  rfl

end ObjectGraph
