import ObjectGraph.Number
import ObjectGraph.Table
import ObjectGraph.Text.Split

/-!
# `Json` — raw configuration data

The data of a document before anything in it has been resolved: the six kinds of JSON, with the
members of an object in the order of their declaration.

Contents:
* `Json`, `isObject`, `isArray`, `isContainer`;
* `same`: equality up to the order of members;
* `child?`, one step of a key path, with `index?`, the row position a segment names;
* `atPath?`, a whole key path, over which empty segments are skipped.
-/

namespace ObjectGraph

/-- Raw configuration data. -/
inductive Json where
  | null
  | bool (b : Bool)
  | number (n : Number)
  | string (s : String)
  | array (items : List Json)
  | object (members : List (String × Json))
  deriving Inhabited

namespace Json

/-- True of objects. -/
def isObject : Json → Bool
  | .object _ => true
  | _ => false

/-- True of arrays. -/
def isArray : Json → Bool
  | .array _ => true
  | _ => false

/-- True of objects and arrays. -/
def isContainer (j : Json) : Bool := j.isObject || j.isArray

/-! ## Equality -/

mutual

/-- Equal data; the order of an object's members does not count. -/
def same : Json → Json → Bool
  | .null, .null => true
  | .bool a, .bool b => a == b
  | .number a, .number b => a.same b
  | .string a, .string b => a == b
  | .array a, .array b => sameItems a b
  | .object a, .object b => a.length == b.length && sameMembers a b
  | _, _ => false

/-- Equal rows. -/
def sameItems : List Json → List Json → Bool
  | [], [] => true
  | a :: as, b :: bs => a.same b && sameItems as bs
  | _, _ => false

/-- Every member of the first table is in the second, with equal data. -/
def sameMembers : List (String × Json) → List (String × Json) → Bool
  | [], _ => true
  | (k, a) :: as, bs =>
      (match bs.lookup k with
        | some b => a.same b
        | none => false) && sameMembers as bs

end

/-! ## Key paths -/

/-- The position in a row that a path segment names: digits, after a plus sign if one likes. -/
def index? (segment : String) : Option Nat :=
  let digits := match segment.toList with
    | '+' :: rest => rest
    | cs => cs
  match Decimal.readDigits? digits with
  | some n => if n < Nat.pow 2 64 then some n else none
  | none => none

/-- One step of a key path: a member of an object, or an item of an array by its position. -/
def child? (j : Json) (segment : String) : Option Json :=
  match j with
  | .object members => members.lookup segment
  | .array items => (index? segment).bind fun i => items[i]?
  | _ => none

/-- The data at the end of a path given by its segments. -/
def follow? (j : Json) : List String → Option Json
  | [] => some j
  | segment :: rest => (j.child? segment).bind (follow? · rest)

/-- The data at a key path; empty segments are skipped. -/
def atPath? (j : Json) (path : String) : Option Json :=
  j.follow? ((Text.splitText '.' path).filter fun segment => segment ≠ "")

/-! ## Laws -/

/-- Following a path and then another is following the two joined. -/
theorem follow?_append (j : Json) (p q : List String) :
    j.follow? (p ++ q) = (j.follow? p).bind (follow? · q) := by
  induction p generalizing j with
  | nil => rfl
  | cons s p ih =>
      simp only [List.cons_append, follow?]
      cases j.child? s with
      | none => rfl
      | some c => exact ih c

end Json

end ObjectGraph
