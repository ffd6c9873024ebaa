import ObjectGraph.Value

/-!
# `Build.Placeholder` — placeholders in values

A value may hold placeholders at several places; when the named value they stand for exists, it is put
into the place.

Contents:
* `Value.placeholders`: the placeholders of a value and their places;
* `Value.setAt`: a value with something else at a place;
* `Value.components`: the components in a value;
* `placeholders_eq_nil`.
-/

namespace ObjectGraph.Value

mutual

/-- The placeholders in a value with the steps that lead to them, in order. -/
def placeholders : Value → List (List Place × Pending)
  | pending p => [([], p)]
  | list items => itemPlaceholders 0 items
  | map entries => entryPlaceholders [] entries
  | _ => []

/-- The placeholders in some items, the first of which has position `i`. -/
def itemPlaceholders (i : Nat) : List Value → List (List Place × Pending)
  | [] => []
  | v :: vs =>
      (placeholders v).map (fun l => (.index i :: l.1, l.2)) ++ itemPlaceholders (i + 1) vs

/-- The placeholders in some entries, after those with the keys `seen`; of entries with one key the first
counts, as it does in looking up. -/
def entryPlaceholders (seen : List String) : List (String × Value) → List (List Place × Pending)
  | [] => []
  | (k, v) :: es =>
      (if k ∈ seen then [] else (placeholders v).map fun l => (.key k :: l.1, l.2))
        ++ entryPlaceholders (k :: seen) es

end

/-- The items of a list with one of them changed. -/
def modifyItem (f : Value → Value) : Nat → List Value → List Value
  | _, [] => []
  | 0, v :: vs => f v :: vs
  | i + 1, v :: vs => v :: modifyItem f i vs

/-- The entries of a map with one of them changed. -/
def modifyEntry (f : Value → Value) (k : String) : List (String × Value) → List (String × Value)
  | [] => []
  | (l, v) :: es => if l = k then (l, f v) :: es else (l, v) :: modifyEntry f k es

/-- The value with another one at a place. A place that is not there changes nothing. -/
def setAt (new : Value) : List Place → Value → Value
  | [], _ => new
  | .index i :: rest, list items => list (modifyItem (setAt new rest) i items)
  | .key k :: rest, map entries => map (modifyEntry (setAt new rest) k entries)
  | _, v => v

mutual

/-- The components in a value, in its lists and in its maps, in order. -/
def components : Value → List ObjectId
  | object o => [o]
  | list items => itemComponents items
  | map entries => entryComponents entries
  | _ => []

/-- The components in some items. -/
def itemComponents : List Value → List ObjectId
  | [] => []
  | v :: vs => components v ++ itemComponents vs

/-- The components in some entries. -/
def entryComponents : List (String × Value) → List ObjectId
  | [] => []
  | (_, v) :: es => components v ++ entryComponents es

end

/-! ## Laws -/

mutual

/-- A value that contains no placeholder has one at no place. -/
theorem placeholders_eq_nil {v : Value} (h : v.containsPending = false) : v.placeholders = [] := by
  cases v with
  | list items => exact itemPlaceholders_eq_nil 0 (by simpa [containsPending] using h)
  | map entries => exact entryPlaceholders_eq_nil [] (by simpa [containsPending] using h)
  | pending p => simp [containsPending] at h
  | _ => rfl

/-- Items that contain no placeholder have one at no place. -/
theorem itemPlaceholders_eq_nil (i : Nat) {vs : List Value} (h : itemsContainPending vs = false) :
    itemPlaceholders i vs = [] := by
  cases vs with
  | nil => rfl
  | cons v vs =>
      simp only [itemsContainPending, Bool.or_eq_false_iff] at h
      simp [itemPlaceholders, placeholders_eq_nil h.1, itemPlaceholders_eq_nil (i + 1) h.2]

/-- Entries that contain no placeholder have one at no place. -/
theorem entryPlaceholders_eq_nil (seen : List String) {es : List (String × Value)}
    (h : entriesContainPending es = false) : entryPlaceholders seen es = [] := by
  match es with
  | [] => rfl
  | (k, v) :: es =>
      simp only [entriesContainPending, Bool.or_eq_false_iff] at h
      simp [entryPlaceholders, placeholders_eq_nil h.1, entryPlaceholders_eq_nil (k :: seen) h.2]

end

end ObjectGraph.Value
