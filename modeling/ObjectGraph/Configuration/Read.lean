import ObjectGraph.Handler.Dereference
import ObjectGraph.Text.Split

/-!
# `Configuration.Read` — reading along paths

A path is walked segment by segment, first through raw data and then, from the first reference on,
through values. A text in raw data may be a reference: its first character says of what kind.

| prefix | meaning |
|--------|---------|
| `$` | a parameter; if it is a text, that is resolved again |
| `?` | a template, which is filled and resolved again |
| `@` | a URI, which is dereferenced |
| `#` | a path from the root |
| a grave accent | the rest of the text, as it is |

A text is replaced at most thirty-two times, and as many references to the root are followed inside
each other.

Contents:
* `Cursor`, `step`, `walk`: walking, given how texts are resolved;
* `replaceText`, `resolveText`: resolving texts;
* `valueAt`, `Value.atPath`; `promote`, `represent`, `readAs`; the typed readings;
* `segments_ne_nil`, `joinText_segments`, `segments_join`, `joinText_append`.
-/

namespace ObjectGraph

namespace Configuration

/-- The target of events about configurations. -/
def target : String := "config::configuration"

/-- The most replacements of a text, and the most references to the root inside each other. -/
def depthLimit : Nat := 32

/-- How the texts in a configuration are resolved. -/
abbrev Resolver := Configuration → String → Run (Option Value)

/-! ## Walking -/

/-- Where a walk stands: at a value, or at raw data of a node. -/
inductive Cursor where
  | value (v : Value)
  | raw (c : Configuration) (j : Json)

/-- Raw data, resolved: objects and arrays become child nodes. -/
def resolveJson (resolve : Resolver) (c : Configuration) : Json → Run (Option Value)
  | .string s => resolve c s
  | .object members => return some (.configuration (c.child (.object members)))
  | .array items => return some (.configuration (c.child (.array items)))
  | j => return some (Value.ofJson j)

/-- What the cursor stands at, as a value. -/
def arrive (resolve : Resolver) : Cursor → Run (Option Value)
  | .value v => return some v
  | .raw c j => resolveJson resolve c j

/-- The cursor before a further step: a text has to be resolved first. -/
def settle (resolve : Resolver) : Cursor → Run (Option Cursor)
  | .raw c (.string s) => return (← resolve c s).map .value
  | cursor => return some cursor

/-- What a step gives: the end of the walk, or another cursor. -/
inductive Move where
  | stop (v : Value)
  | go (cursor : Cursor)

/-- A step from raw data of a node. -/
def stepRaw (c : Configuration) (j : Json) (segment : String) : Option Move :=
  (j.child? segment).map fun child => .go (.raw c child)

/-- A step from a value. A path whose only segment is empty leads no further, and a placeholder takes
all of it. -/
def stepValue (heap : Heap) (v : Value) (segment : String) (rest : List String) : Option Move :=
  -- an empty path stays where it is
  if segment = "" ∧ rest = [] then some (.stop v)
  else match v with
    | .configuration c => stepRaw c c.data segment
    | .pending p => some (.stop (.pending (p.project (Text.joinText '.' (segment :: rest)))))
    | .map entries => (entries.lookup segment).map fun w => .go (.value w)
    | .list items => ((Json.index? segment).bind fun i => items[i]?).map fun w => .go (.value w)
    | .resource r => r.toConfiguration?.bind fun c => stepRaw c c.data segment
    | .object o => (heap.get? o segment).map fun w => .go (.value w)
    | _ => none

/-- A step along a path. -/
def step (heap : Heap) (segment : String) (rest : List String) : Cursor → Option Move
  | .value v => stepValue heap v segment rest
  | .raw c j => stepRaw c j segment

/-- Walks along the segments of a path. -/
def walk (resolve : Resolver) : List String → Cursor → Run (Option Value)
  | [], cursor => arrive resolve cursor
  | segment :: rest, cursor => do
      match ← settle resolve cursor with
      | none => return none
      | some cursor =>
          match step (← Run.heap) segment rest cursor with
          | none => return none
          | some (.stop v) => return some v
          | some (.go next) => walk resolve rest next

/-- The segments of a path. -/
def segments (path : String) : List String := Text.splitText '.' path

/-- The value at a path from a value. -/
def follow (resolve : Resolver) (v : Value) (path : String) : Run (Option Value) :=
  walk resolve (segments path) (.value v)

/-! ## Resolving texts -/

/-- Resolves a path from the root of a node; `back` reads from the root, if one more reference to it may
be followed. A path that leads nowhere is its own text, unless the node is strict. -/
def followRoot (back : Option Resolver) (c : Configuration) (path literal : String) :
    Run (Option Value) := do
  match back with
  | none => do
      Run.report .warn target "reference chain too deep; treating as absent" [("path", .text path)]
      return none
  | some read =>
      match ← read c.root path with
      | some v => return some v
      | none =>
          -- a path that leads nowhere was perhaps meant as text
          if c.strict then do
            Run.report .warn target "root path did not resolve" [("path", .text path)]
            return none
          else do
            Run.report .debug target "root path did not resolve; using literal text"
              [("path", .text path)]
            return some (.string literal)

/-- Reports the places of a template that have no text. -/
def reportUnbound : List String → Run Unit
  | [] => return ()
  | name :: names => do
      Run.report .debug "config::template" "template variable not bound" [("name", .text name)]
      reportUnbound names

/-- Resolves a text; `n` is how many more replacements there may be. -/
def replaceText (env : Surroundings) (back : Option Resolver) (hops : Nat) (c : Configuration)
    (supplied : String) : Nat → String → Run (Option Value)
  | 0, _ => do
      Run.report .warn target "prefix resolution did not settle; treating as absent"
        [("value", .text supplied)]
      return none
  | n + 1, current => do
      match current.toList with
      | '$' :: _ =>
          match c.context.lookup current with
          -- a text is resolved again, whatever it begins with; other values stand
          | some (.string next) => replaceText env back hops c supplied n next
          | some v => return some v
          | none => do
              Run.report .debug target "context parameter not bound" [("parameter", .shown current)]
              return none
      | '?' :: rest => do
          let heap ← Run.heap
          let template := String.ofList rest
          reportUnbound (Template.unbound heap c.context template)
          replaceText env back hops c supplied n (Template.expand heap c.context template)
      | '@' :: rest => c.handler.dereferenceText env hops (String.ofList rest)
      | '#' :: rest => followRoot back c (String.ofList rest) current
      | '\x60' :: rest => return some (.string (String.ofList rest))
      | _ => return some (.string current)

/-- Resolves a text of a node; `hops` is how many references to the root may be followed inside each
other. -/
def resolveText (env : Surroundings) : Nat → Resolver
  | 0, c, s => replaceText env none 0 c s depthLimit s
  | hops + 1, c, s =>
      replaceText env (some fun root path => follow (resolveText env hops) (.configuration root) path)
        (hops + 1) c s depthLimit s

/-! ## Reading -/

/-- The value at a path of a node. -/
def valueAt (env : Surroundings) (hops : Nat) (c : Configuration) (path : String) :
    Run (Option Value) :=
  follow (resolveText env hops) (.configuration c) path

/-- A structured value as a configuration. Maps and lists become children of the node; a resource becomes
a root, as strict as the node. -/
def promote (c : Configuration) (heap : Heap) : Value → Option Configuration
  | .configuration d => some d
  | .resource r =>
      r.toConfiguration?.map fun d =>
        (if r.handler.isNone then d.withHandler c.handler else d).withStrict c.strict
  | .map entries => some (c.child ((Value.map entries).toJson heap))
  | .list items => some (c.child ((Value.list items).toJson heap))
  | _ => none

/-- A value in another representation, as the node sees it. -/
def represent (host : Host) (c : Configuration) (heap : Heap) (v : Value) :
    Representation → Option Value
  | .default => some v
  | .configuration => (c.promote heap v).map .configuration
  | r => c.handler.converter.convert host heap v r

/-- The value at a path, in a representation. -/
def readAs (env : Surroundings) (hops : Nat) (c : Configuration) (path : String)
    (r : Representation) : Run (Option Value) := do
  match ← c.valueAt env hops path with
  | none => return none
  | some v => return c.represent env.host (← Run.heap) v r

/-- The text at a path. -/
def readString (env : Surroundings) (hops : Nat) (c : Configuration) (path : String) :
    Run (Option String) := do
  return (← c.readAs env hops path .string).bind Value.string?

/-- The number at a path. -/
def readNumber (env : Surroundings) (hops : Nat) (c : Configuration) (path : String) :
    Run (Option Binary64) := do
  return (← c.readAs env hops path .number).bind Value.float?

/-- The truth value at a path. -/
def readBool (env : Surroundings) (hops : Nat) (c : Configuration) (path : String) :
    Run (Option Bool) := do
  return (← c.readAs env hops path .boolean).bind Value.bool?

/-- The date at a path. -/
def readDate (env : Surroundings) (hops : Nat) (c : Configuration) (path : String) :
    Run (Option Instant) := do
  match ← c.readAs env hops path .date with
  | some (.date t) => return some t
  | _ => return none

/-- The URI at a path. -/
def readUri (env : Surroundings) (hops : Nat) (c : Configuration) (path : String) :
    Run (Option Uri) := do
  match ← c.readAs env hops path .url with
  | some (.uri u) => return some u
  | _ => return none

/-- The configuration at a path. -/
def readNode (env : Surroundings) (hops : Nat) (c : Configuration) (path : String) :
    Run (Option Configuration) := do
  match ← c.readAs env hops path .configuration with
  | some (.configuration d) => return some d
  | _ => return none

/-- The configurations at some keys; a key without one is passed over. -/
def readNodes (env : Surroundings) (hops : Nat) (c : Configuration) :
    List String → Run (List Configuration)
  | [] => return []
  | key :: keys => do
      let node ← c.readNode env hops key
      let nodes ← c.readNodes env hops keys
      return node.toList ++ nodes

/-- The configurations listed at a path, or the one configuration that is there. -/
def readList (env : Surroundings) (hops : Nat) (c : Configuration) (path : String) :
    Run (List Configuration) := do
  match ← c.readNode env hops path with
  | none => return []
  | some d => if d.isList then d.readNodes env hops d.keys else return [d]

/-! ## Laws -/

theorem segments_ne_nil (path : String) : segments path ≠ [] := by
  simp [segments, Text.splitText, Text.split_ne_nil]

/-- The segments of a path put together are the path. -/
theorem joinText_segments (path : String) : Text.joinText '.' (segments path) = path := by
  have back : String.toList ∘ String.ofList = id := funext fun _ => String.toList_ofList
  rw [segments, Text.splitText, Text.joinText, List.map_map, back, List.map_id, Text.join_split,
    String.ofList_toList]

/-- The segments of a path of two parts. -/
theorem segments_join (p q : String) : segments (p ++ "." ++ q) = segments p ++ segments q := by
  have cut : (p ++ "." ++ q).toList = p.toList ++ '.' :: q.toList := by
    simp [String.toList_append]
  rw [segments, Text.splitText, cut, Text.split_append_sep, List.map_append]
  rfl

theorem joinText_append {before after : List String} (hb : before ≠ []) (ha : after ≠ []) :
    Text.joinText '.' (before ++ after) = Text.joinText '.' before ++ "." ++ Text.joinText '.' after := by
  apply String.toList_injective
  simp only [Text.joinText, List.map_append, String.toList_append, String.toList_ofList]
  rw [Text.join_append _ (by simpa using hb) (by simpa using ha)]
  simp

theorem joinText_ne_empty {segment : String} (h : segment ≠ "") (rest : List String) :
    Text.joinText '.' (segment :: rest) ≠ "" := by
  cases rest with
  | nil => simpa [Text.joinText, Text.join] using h
  | cons next rest =>
      intro e
      have := congrArg String.toList e
      simp [Text.joinText, Text.join] at this

end Configuration

/-- The value at a path from a value. -/
def Value.atPath (env : Surroundings) (hops : Nat) (v : Value) (path : String) : Run (Option Value) :=
  Configuration.follow (Configuration.resolveText env hops) v path

end ObjectGraph
