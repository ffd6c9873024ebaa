import ObjectGraph.Configuration.Read

/-!
# `Configuration.Merge` — mixins and inheritance

A node may name configurations to be written over it, `*config`, `*mixin` and the list `*mixins`, and one
to be written under it, `*extends`, which may extend another in turn. Only whole values are written
over, key by key; nothing is merged inside them. The parameters of a node stay visible to what is
written over it, and win.

Contents:
* the keys; `unite`, the union of contexts;
* `mixin`, `extend`;
* `mixins`, `flatten`; `parent?`, `chain`, `merged`, `normalize`.
-/

namespace ObjectGraph.Configuration

/-- The key of the configuration a node extends. -/
def extendsKey : String := "*extends"

/-- A key of a configuration that is written over a node. -/
def configKey : String := "*config"

/-- A key of a configuration that is written over a node. -/
def mixinKey : String := "*mixin"

/-- The key of a list of configurations that are written over a node, in order. -/
def mixinsKey : String := "*mixins"

/-- The keys that say what to merge. -/
def directiveKeys : List String := [extendsKey, configKey, mixinKey, mixinsKey]

/-- A context with the names of another that it does not bind. If there are none it is the same
context. -/
def unite (own : Params × Origin) (other : Params) : Params × Origin :=
  if other.all fun p => Table.has own.1 p.1 then own
  else (Table.insertAll other own.1, own.2.next)

/-- The node with the keys of another written over its own. -/
def mixin (c upper : Configuration) : Configuration :=
  match c.data, upper.data with
  | .object own, .object members =>
      let (context, origin) := unite (c.context, c.origin) upper.context
      c.derive (.object (Table.overlay own members)) context origin
  | _, _ => c

/-- The node with its keys written over those of a parent. -/
def extend (c parent : Configuration) : Configuration :=
  match parent.data, c.data with
  | .object members, .object own =>
      let (context, origin) := unite (c.context, c.origin) parent.context
      c.derive (.object (Table.overlay members own)) context origin
  | _, _ => c

/-! ## Mixins -/

/-- The configuration at a key that names a mixin, if the node has the key. -/
def mixinAt (env : Surroundings) (hops : Nat) (c : Configuration) (key : String) :
    Run (List Configuration) := do
  if c.has key then
    match ← c.readNode env hops key with
    | some upper => return [upper]
    | none => do
        Run.report .warn target "mixin did not resolve to a configuration" [("key", .text key)]
        return []
  else return []

/-- The configurations that a node names to be written over it, in order. -/
def mixins (env : Surroundings) (hops : Nat) (c : Configuration) : Run (List Configuration) := do
  let first ← c.mixinAt env hops configKey
  let second ← c.mixinAt env hops mixinKey
  let more ← if c.has mixinsKey then c.readList env hops mixinsKey else pure []
  return first ++ second ++ more

/-- The node with its mixins written over it. -/
def flatten (env : Surroundings) (hops : Nat) (c : Configuration) : Run Configuration := do
  return (← c.mixins env hops).foldl mixin c

/-! ## Inheritance -/

/-- The flattened configuration that a node extends. -/
def parent? (env : Surroundings) (hops : Nat) (c : Configuration) : Run (Option Configuration) := do
  if c.has extendsKey then
    match ← c.readNode env hops extendsKey with
    | some p => return some (← p.flatten env hops)
    | none => do
        Run.report .warn target "*extends did not resolve to a configuration" []
        return none
  else return none

/-- The chain of nodes from one to its most distant ancestor, after those already `seen`. A node whose data
has been seen ends the chain. `n` bounds how long it is. -/
def chain (env : Surroundings) (hops : Nat) : Nat → List Configuration → Configuration →
    Run (List Configuration)
  | 0, _, _ => Run.exhausted
  | n + 1, seen, node => do
      -- equal data counts as the same node, so that a circle ends
      if seen.any (·.equals node) then do
        Run.report .debug target "inheritance cycle; chain ends at the repeated node" []
        return seen
      else
        match ← node.parent? env hops with
        | none => return seen ++ [node]
        | some p => chain env hops n (seen ++ [node]) p

/-- Data without the keys that say what to merge. -/
def stripDirectives (members : List (String × Json)) : List (String × Json) :=
  members.filter fun m => !directiveKeys.contains m.1

/-- The members of an object; other data has none. -/
def members : Json → List (String × Json)
  | .object ms => ms
  | _ => []

/-- One node of a chain written over what its ancestors gave. -/
def overlayNode (acc : List (String × Json) × Params × Origin) (node : Configuration) :
    List (String × Json) × Params × Origin :=
  match node.data with
  | .object ms => (Table.overlay acc.1 ms, unite acc.2 node.context)
  | _ => acc

/-- A node with its chain merged into it, the most distant ancestor first. -/
def merged (c : Configuration) (chain : List Configuration) : Configuration :=
  let (data, context, origin) := chain.reverse.foldl overlayNode ([], c.context, c.origin)
  c.derive (.object (stripDirectives data)) context origin

/-- The node with its mixins and its ancestors merged into it; `n` bounds how many ancestors there are. -/
def normalize (env : Surroundings) (hops : Nat) (n : Nat) (c : Configuration) : Run Configuration := do
  if c.data.isObject then
    return c.merged (← chain env hops n [] (← c.flatten env hops))
  else c.flatten env hops

end ObjectGraph.Configuration
