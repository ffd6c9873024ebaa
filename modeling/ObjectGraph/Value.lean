import ObjectGraph.Instant
import ObjectGraph.Resource

/-!
# `Value` — what reading a configuration gives

Raw data gives the kinds of values that JSON has. The others come from schemes, from conversion and
from the container: dates, octets, URIs, nested configurations, resources, components, and
placeholders for values that are still being built.

A configuration is a node of raw data with what it needs to read it: the parameters it sees, the root
that paths refer to, and a handler for URIs.

Contents:
* `Pending` and its projection, `Pending.project_project`;
* `Place`, `Origin`, `Value`, `Configuration`;
* `Value.ofJson`, `kind`, the views `string?`, `bool?`, `number?`, `object?`, and `containsPending`.
-/

namespace ObjectGraph

/-- A component is known by its number. -/
abbrev ObjectId := Nat

/-- A placeholder for a named value that is being built further up, and the path to follow into it. -/
structure Pending where
  name : String
  path : Option String
  deriving DecidableEq, Repr

namespace Pending

/-- A placeholder; an empty path counts as none. -/
def make (name : String) (path : Option String) : Pending :=
  ⟨name, path.filter (· ≠ "")⟩

/-- The placeholder for what a further path leads to. -/
def project (p : Pending) (path : String) : Pending :=
  match p.path with
  | some first => make p.name (some (if path = "" then first else first ++ "." ++ path))
  | none => make p.name (some path)

/-- A placeholder with a path. -/
theorem make_of_ne (name : String) {path : String} (h : path ≠ "") :
    make name (some path) = ⟨name, some path⟩ := by
  rw [make, Option.filter_some, if_pos (decide_eq_true h)]

/-- A placeholder takes a path in one part or in two. -/
theorem project_project {a b : String} (ha : a ≠ "") (hb : b ≠ "") (p : Pending) :
    (p.project a).project b = p.project (a ++ "." ++ b) := by
  have joined : ∀ {x y : String}, x ++ "." ++ y ≠ "" := by simp
  obtain ⟨name, path⟩ := p
  cases path with
  | none =>
      show (make name (some a)).project b = make name (some (a ++ "." ++ b))
      rw [make_of_ne name ha, make_of_ne name joined, project]
      dsimp only
      rw [if_neg hb, make_of_ne name joined]
  | some first =>
      show (make name (some (if a = "" then first else first ++ "." ++ a))).project b
        = make name (some (if a ++ "." ++ b = "" then first else first ++ "." ++ (a ++ "." ++ b)))
      rw [if_neg ha, if_neg joined, make_of_ne name joined, make_of_ne name joined, project]
      dsimp only
      rw [if_neg hb, make_of_ne name joined]
      simp only [String.append_assoc]

end Pending

/-- One step into a value: a position in a list, or a key of a map or of a context. -/
inductive Place where
  | index (i : Nat)
  | key (k : String)
  deriving DecidableEq, Repr

/-- Which context of parameters a configuration sees. Two contexts are one and the same when their
origins are equal: the computation that made them, where in its result they were found, the last step
first, and how many were made before in a row. Scope zero is the computation at hand. -/
structure Origin where
  scope : Nat
  place : List Place
  depth : Nat
  deriving DecidableEq, Repr

namespace Origin

/-- The origin of a context that follows no other. -/
def first : Origin := ⟨0, [], 0⟩

/-- The origin of a context that is made from another. -/
def next (o : Origin) : Origin := ⟨0, [], o.depth + 1⟩

end Origin

mutual

/-- What reading a configuration gives. The entries of a map ascend. -/
inductive Value where
  | null
  | bool (b : Bool)
  | number (n : Number)
  | string (s : String)
  | date (t : Instant)
  | binary (bytes : List UInt8)
  | uri (u : Uri)
  | list (items : List Value)
  | map (entries : List (String × Value))
  | configuration (c : Configuration)
  | resource (r : Resource)
  | object (id : ObjectId)
  | pending (p : Pending)

/-- A node of raw data and what it takes to read it. -/
structure Configuration where
  /-- The node's data, without parameters at its top. -/
  data : Json
  /-- The data as it was supplied. -/
  source : Json
  /-- The parameters the node sees, each with its dollar sign, ascending. -/
  context : List (String × Value)
  origin : Origin
  /-- The node that paths refer to; none if it is this one. -/
  root? : Option Configuration
  handler : Handler
  /-- A path that leads nowhere gives nothing, and not its own text. -/
  strict : Bool

end

instance : Inhabited Value := ⟨.null⟩

/-- Parameters of a URI or of a configuration. -/
abbrev Params := List (String × Value)

namespace Value

/-! ## Raw data as values -/

mutual

/-- Raw data as a value. -/
def ofJson : Json → Value
  | .null => .null
  | .bool b => .bool b
  | .number n => .number n
  | .string s => .string s
  | .array items => .list (ofItems items)
  | .object members => .map (Table.insertAll [] (ofMembers members))

/-- The items of an array as values. -/
def ofItems : List Json → List Value
  | [] => []
  | j :: js => ofJson j :: ofItems js

/-- The members of an object as values. -/
def ofMembers : List (String × Json) → List (String × Value)
  | [] => []
  | (k, j) :: ms => (k, ofJson j) :: ofMembers ms

end

/-! ## Views -/

/-- A word for the kind of a value. -/
def kind : Value → String
  | null => "null"
  | bool _ => "bool"
  | number _ => "number"
  | string _ => "string"
  | date _ => "date"
  | binary _ => "binary"
  | uri _ => "uri"
  | list _ => "list"
  | map _ => "map"
  | configuration _ => "configuration"
  | resource _ => "resource"
  | object _ => "object"
  | pending _ => "pending"

/-- The value is null. -/
def isNull : Value → Bool
  | null => true
  | _ => false

/-- The text of a string. -/
def string? : Value → Option String
  | string s => some s
  | _ => none

/-- The truth value of a Boolean. -/
def bool? : Value → Option Bool
  | bool b => some b
  | _ => none

/-- A number. -/
def number? : Value → Option Number
  | number n => some n
  | _ => none

/-- A number as a floating point number. -/
def float? (v : Value) : Option Binary64 := v.number?.map Number.toFloat

/-- A number as a whole number of 64 signed bits. -/
def wholeNumber? (v : Value) : Option Int := v.number?.bind Number.wholeNumber?

/-- A component. -/
def object? : Value → Option ObjectId
  | object id => some id
  | _ => none

/-- A floating point number as a value. -/
def ofFloat (x : Binary64) : Value := number (.float x)

/-- A whole number as a value. -/
def ofInt (n : Int) : Value := number (Number.ofInt n)

mutual

/-- A placeholder stands in the value, in a list or map of it, and so on. -/
def containsPending : Value → Bool
  | pending _ => true
  | list items => itemsContainPending items
  | map entries => entriesContainPending entries
  | _ => false

/-- A placeholder stands in one of some items. -/
def itemsContainPending : List Value → Bool
  | [] => false
  | v :: vs => containsPending v || itemsContainPending vs

/-- A placeholder stands in one of some entries. -/
def entriesContainPending : List (String × Value) → Bool
  | [] => false
  | (_, v) :: es => containsPending v || entriesContainPending es

end

/-! ## Equality -/

mutual

/-- Equality of values. Configurations are equal when their data is, resources when their URIs are,
and components when they are the same. -/
def equals : Value → Value → Bool
  | null, null => true
  | bool a, bool b => a == b
  | number a, number b => a.equals b
  | string a, string b => a == b
  | date a, date b => a == b
  | binary a, binary b => a == b
  | uri a, uri b => a.equals b
  | list a, list b => equalItems a b
  | map a, map b => equalEntries a b
  | configuration a, configuration b => a.data.same b.data
  | resource a, resource b => a.uri.equals b.uri
  | object a, object b => a == b
  | pending a, pending b => a == b
  | _, _ => false

/-- Equal rows of values. -/
def equalItems : List Value → List Value → Bool
  | [], [] => true
  | a :: as, b :: bs => equals a b && equalItems as bs
  | _, _ => false

/-- Equal rows of entries. -/
def equalEntries : List (String × Value) → List (String × Value) → Bool
  | [], [] => true
  | (k, a) :: as, (l, b) :: bs => k == l && equals a b && equalEntries as bs
  | _, _ => false

end

end Value

end ObjectGraph
