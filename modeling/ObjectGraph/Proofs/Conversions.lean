import ObjectGraph.Conversion
import ObjectGraph.Proofs.JsonText

/-!
# `Proofs.Conversions` — converting again changes nothing

A conversion gives a value of the kind that the representation names, and values of that kind are left as they are.
So it does not matter how often a value is converted. Only data may be something else: a text that is the JSON text of
a number, say, becomes that number and no list or map, and from there the next conversion leads nowhere, or on to what
the text in the text stands for.

Contents:
* `Representation.Names`, the kind of a representation; `standard_of_names`;
* `Value.held?`, `Value.HoldsScalar`; `names_of_data?`, `data?_ofJson_ne`;
* `standard_settles`, `not_standard_settles`.
-/

namespace ObjectGraph

/-- A representation names the kind of a value. -/
inductive Representation.Names : Representation → Value → Prop
  | default (v : Value) : Names .default v
  | configuration (v : Value) : Names .configuration v
  | string (s : String) : Names .string (.string s)
  | number (n : Number) : Names .number (.number n)
  | boolean (b : Bool) : Names .boolean (.bool b)
  | date (t : Instant) : Names .date (.date t)
  | url (u : Uri) : Names .url (.uri u)
  | binary (bytes : List UInt8) : Names .binary (.binary bytes)
  | list (items : List Value) : Names .data (.list items)
  | map (entries : List (String × Value)) : Names .data (.map entries)

/-- The data that a text is written for, that a resource holds or that a configuration is a node of. -/
def Value.held? : Value → Option Json
  | .string s => Json.parse? s
  | .resource r => r.structured?
  | .configuration c => some c.data
  | _ => none

/-- The value holds data that is neither an array nor an object. -/
def Value.HoldsScalar (v : Value) : Prop := ∃ j, v.held? = some j ∧ j.isContainer = false

namespace Conversion

variable {h : Heap} {v w : Value} {r : Representation} {j : Json}

/-- A value of the kind that a representation names is left as it is. -/
theorem standard_of_names (h : Heap) (named : r.Names w) : standard h w r = some w := by
  cases named <;> rfl

/-- What is read as data is a list or a map already, or what the value holds. -/
theorem data?_cases (converted : data? v = some w) :
    (v = w ∧ Representation.data.Names w ∧ v.held? = none) ∨ ∃ j, v.held? = some j ∧ w = .ofJson j := by
  cases v with
  | list items =>
      obtain rfl := Option.some.inj converted
      exact .inl ⟨rfl, .list items, rfl⟩
  | map entries =>
      obtain rfl := Option.some.inj converted
      exact .inl ⟨rfl, .map entries, rfl⟩
  | string s =>
      obtain ⟨j, read, rfl⟩ := Option.map_eq_some_iff.mp converted
      exact .inr ⟨j, read, rfl⟩
  | resource r =>
      obtain ⟨j, read, rfl⟩ := Option.map_eq_some_iff.mp converted
      exact .inr ⟨j, read, rfl⟩
  | configuration c =>
      obtain rfl := Option.some.inj converted
      exact .inr ⟨c.data, rfl, rfl⟩
  | _ => exact absurd converted (by simp [data?])

/-- Arrays and objects become lists and maps, and nothing else does. -/
theorem names_ofJson (j : Json) : Representation.data.Names (.ofJson j) ↔ j.isContainer = true := by
  cases j with
  | array items => exact iff_of_true (.list _) rfl
  | object members => exact iff_of_true (.map _) rfl
  | _ => exact iff_of_false nofun Bool.false_ne_true

/-- Data that is neither an array nor an object does not come back. A string cannot be its own JSON text. -/
theorem data?_ofJson_ne (scalar : j.isContainer = false) : data? (.ofJson j) ≠ some (.ofJson j) := by
  cases j with
  | string s =>
      intro again
      obtain ⟨k, read, same⟩ := Option.map_eq_some_iff.mp (again : (Json.parse? s).map Value.ofJson = some (.string s))
      cases k with
      | string t =>
          obtain rfl := Value.string.inj same
          exact Nat.lt_irrefl _ (Json.length_of_parse?_string read)
      | _ => exact absurd same (by simp [Value.ofJson])
  | array items => exact absurd scalar (by simp [Json.isContainer, Json.isArray])
  | object members => exact absurd scalar (by simp [Json.isContainer, Json.isObject])
  | _ => simp [Value.ofJson, data?]

/-- A converted value is of the kind that the representation names, if that is not data. -/
theorem names_of_standard (converted : standard h v r = some w) (hr : r ≠ .data) : r.Names w := by
  cases r with
  | default => exact .default w
  | configuration => exact .configuration w
  | image => exact absurd converted (by simp [standard])
  | data => exact absurd rfl hr
  | _ =>
      obtain ⟨x, -, rfl⟩ := Option.map_eq_some_iff.mp converted
      constructor

/-- A conversion that succeeds gives a value of the kind that the representation names, and the value itself where
that is any kind; a further conversion, whenever it is made, succeeds and changes nothing. The exception is the data
that a text, a resource or a configuration holds, when it is neither an array nor an object: it becomes neither a list
nor a map, and a further conversion fails or gives something else. -/
theorem standard_settles (converted : standard h v r = some w) :
    (r = .default ∨ r = .configuration → w = v) ∧
    (¬ (r = .data ∧ v.HoldsScalar) → r.Names w ∧ ∀ h', standard h' w r = some w) ∧
    (r = .data ∧ v.HoldsScalar → ¬ r.Names w ∧ ∀ h', standard h' w r ≠ some w) := by
  refine ⟨?_, fun usual => ?_, ?_⟩
  · rintro (rfl | rfl)
    · exact (Option.some.inj converted).symm
    · exact (Option.some.inj converted).symm
  · have named : r.Names w := by
      by_cases hr : r = .data
      · subst hr
        rcases data?_cases converted with ⟨-, named, -⟩ | ⟨j, held, rfl⟩
        · exact named
        · refine (names_ofJson j).mpr (Bool.of_not_eq_false fun scalar => ?_)
          exact absurd ⟨rfl, j, held, scalar⟩ usual
      · exact names_of_standard converted hr
    exact ⟨named, fun h' => standard_of_names h' named⟩
  · rintro ⟨rfl, j, held, scalar⟩
    rcases data?_cases converted with ⟨-, -, none⟩ | ⟨k, held', rfl⟩
    · exact absurd (held.symm.trans none) (by simp)
    · obtain rfl := Option.some.inj (held.symm.trans held')
      refine ⟨fun named => ?_, fun h' => data?_ofJson_ne scalar⟩
      exact absurd ((names_ofJson j).mp named) (by simp [scalar])

/-- A text of a list is read once; a text of a number, and a text of a text, are read and do not stay. -/
theorem standard_settles_texts :
    (standard [] (.string " [1, null]") .data = some (.list [.ofInt 1, .null]) ∧
      ¬ (Representation.data = .data ∧ (Value.string " [1, null]").HoldsScalar) ∧
      ∀ h', standard h' (.list [.ofInt 1, .null]) .data = some (.list [.ofInt 1, .null])) ∧
    (standard [] (.string "yes") .configuration = some (.string "yes") ∧ Value.string "yes" = .string "yes") ∧
    standard [] (.string "\"[1]\"") .data = some (.string "[1]") ∧ (Value.string "\"[1]\"").HoldsScalar ∧
    ∀ h', standard h' (.string "[1]") .data ≠ some (.string "[1]") := by
  have list : standard [] (.string " [1, null]") .data = some (.list [.ofInt 1, .null]) := rfl
  have usual : ¬ (Representation.data = .data ∧ (Value.string " [1, null]").HoldsScalar) := by
    rintro ⟨-, j, held, scalar⟩
    obtain rfl := Option.some.inj (held.symm.trans (rfl : _ = some (Json.array [.number (.ofInt 1), .null])))
    exact absurd scalar (by decide)
  have text : standard [] (.string "\"[1]\"") .data = some (.string "[1]") := rfl
  have scalar : (Value.string "\"[1]\"").HoldsScalar := ⟨.string "[1]", rfl, rfl⟩
  exact ⟨⟨list, usual, ((standard_settles list).2.1 usual).2⟩,
    ⟨rfl, (standard_settles (h := []) (v := .string "yes") (r := .configuration) rfl).1 (.inr rfl)⟩,
    text, scalar, ((standard_settles text).2.2 ⟨rfl, scalar⟩).2⟩

/-- A conversion to data may give what is neither a list nor a map and has no conversion to data itself, or a text
that another conversion to data changes. -/
theorem not_standard_settles :
    (standard [] (.string "5") .data = some (.ofInt 5) ∧ ¬ Representation.data.Names (.ofInt 5) ∧
      standard [] (.ofInt 5) .data = none) ∧
    standard [] (.string "\"[1]\"") .data = some (.string "[1]") ∧
    standard [] (.string "[1]") .data = some (.list [.ofInt 1]) :=
  ⟨⟨rfl, nofun, rfl⟩, rfl, rfl⟩

end Conversion

end ObjectGraph
