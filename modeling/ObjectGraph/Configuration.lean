import ObjectGraph.Template
import ObjectGraph.Value

/-!
# `Configuration` — nodes of a configuration

A node is made from raw data, either as a root or as the child of another node, whose parameters, root
and handler it takes over. The members of its data that begin with a dollar sign are parameters: they
leave the data and extend the context.

Contents:
* `splitParameters`; `make`, `empty`, `child`;
* copies with a change: `withHandler`, `withStrict`, `derive`, `withParameters`;
* what a node shows without resolving anything: `root`, `keys`, `raw?`, `has`, `parameter?`,
  `sharesContext`, `equals`;
* `Resource.toConfiguration?`.
-/

namespace ObjectGraph

namespace Configuration

/-- A key that names a parameter. -/
def isParameter (key : String) : Bool := key.toList.head? == some '$'

/-- The members of an object that are parameters, and those that are not. -/
def splitMembers (members : List (String × Json)) : List (String × Json) × List (String × Json) :=
  members.partition fun m => isParameter m.1

/-- Data without the parameters at its top, and these as values. -/
def splitParameters : Json → Json × Params
  | .object members =>
      let (params, rest) := splitMembers members
      (.object rest, params.map fun m => (m.1, Value.ofJson m.2))
  | j => (j, [])

/-- A root. -/
def make (data : Json) (handler : Handler) : Configuration :=
  let (rest, params) := splitParameters data
  ⟨rest, data, Table.insertAll [] params, .first, none, handler, false⟩

/-- A root without keys. -/
def empty (handler : Handler) : Configuration := make (.object []) handler

instance : Inhabited Configuration := ⟨empty Handler.standard⟩

/-- The node that paths refer to. -/
def root (c : Configuration) : Configuration := c.root?.getD c

/-- The node is its own root. -/
def isRoot (c : Configuration) : Bool := c.root?.isNone

/-- A child node with other data. -/
def child (c : Configuration) (data : Json) : Configuration :=
  let (rest, params) := splitParameters data
  { c with
    data := rest
    source := data
    -- a child without parameters of its own shares its parent's context
    context := if params = [] then c.context else Table.insertAll c.context params
    origin := if params = [] then c.origin else c.origin.next
    root? := some c.root }

/-- The node with another handler. -/
def withHandler (c : Configuration) (h : Handler) : Configuration := { c with handler := h }

/-- The node with paths that are strict, or not. -/
def withStrict (c : Configuration) (strict : Bool) : Configuration := { c with strict }

/-- The node with other data and another context. -/
def derive (c : Configuration) (data : Json) (context : Params) (origin : Origin) : Configuration :=
  { c with data, context, origin }

/-- The node with more parameters; each gets its dollar sign. -/
def withParameters (c : Configuration) (params : Params) : Configuration :=
  match params with
  | [] => c
  | _ =>
      { c with
        context := Table.insertAll c.context (params.map fun p => (Template.parameterKey p.1, p.2))
        origin := c.origin.next }

/-- A parameter the node sees, by its name with or without dollar sign. -/
def parameter? (c : Configuration) (name : String) : Option Value :=
  c.context.lookup (Template.parameterKey name)

/-- The names of the parameters the node sees, with their dollar signs. -/
def parameterNames (c : Configuration) : List String := Table.keys c.context

/-- Two nodes see the same context. -/
def sharesContext (a b : Configuration) : Bool := a.origin == b.origin

/-- Two nodes are equal when their data is. -/
def equals (a b : Configuration) : Bool := a.data.same b.data

/-- The keys of a node, or the positions in a list. -/
def keysOf : Json → List String
  | .object members => Table.keys members
  | .array items => (List.range items.length).map Decimal.natText
  | _ => []

/-- The keys of the node, or the positions in it. -/
def keys (c : Configuration) : List String := keysOf c.data

/-- The node is a list. -/
def isList (c : Configuration) : Bool := c.data.isArray

/-- The data at a path, unresolved. -/
def raw? (c : Configuration) (path : String) : Option Json := c.data.atPath? path

/-- There is data at a path. -/
def has (c : Configuration) (path : String) : Bool := (c.raw? path).isSome

/-! ## Laws -/

@[simp] theorem root_child (c : Configuration) (data : Json) : (c.child data).root = c.root := rfl

@[simp] theorem strict_child (c : Configuration) (data : Json) : (c.child data).strict = c.strict := rfl

@[simp] theorem handler_child (c : Configuration) (data : Json) :
    (c.child data).handler = c.handler := rfl

@[simp] theorem isRoot_make (data : Json) (h : Handler) : (make data h).isRoot = true := rfl

end Configuration

/-- Structured data of a resource as a root of its own. -/
def Resource.toConfiguration? (r : Resource) : Option Configuration :=
  match r.structured? with
  | some j =>
      if j.isContainer then some (Configuration.make j (r.handler.getD Handler.standard)) else none
  | none => none

end ObjectGraph
