import ObjectGraph.Build.Placeholder
import ObjectGraph.Build.Types
import ObjectGraph.Configuration.Merge

/-!
# `Build.Wiring` — values that wait for names

A name is unbuilt, building or built. A value that refers to a name while that is building holds a
placeholder. The assignment of such a value to a property is parked, and so is a named value that holds
placeholders; each placeholder is a waiter of the name it stands for. When a name is built, or given up,
its waiters are served, and what is complete then is assigned or built in turn. A component is told
that it has been configured once all its properties have been visited and none of its assignments is
parked any more.

The operations take a `Machine`: the operations again, with fewer steps, by which one goes on into
another.

Contents:
* `Container`, `Machine`;
* `assign`, `track`, `release`, `markConfigured`;
* `waitOn`, `finishName`, `abandon`, `deliver`;
* `injectAt`, `settleName`.
-/

namespace ObjectGraph

/-- What a container is made of: its host, what it can construct, and the handler its own schemes are
added to. What it has built is part of the session. -/
structure Container where
  host : Host
  types : TypeRegistry
  handler : Handler

/-- The operations of a container by which one goes on into another. -/
structure Machine where
  /-- How many steps are left, which bounds how many ancestors a node has. -/
  steps : Nat
  portal : Portal → Nat → Uri → Params → Run Outcome
  buildNode : Nat → Configuration → PropertyType → Option Value → String →
    Run (Except BuildError (Option Value))
  deliver : Nat → Waiter → Option Value → Run Unit

/-- The machine that has no steps left. -/
def Machine.exhausted : Machine :=
  ⟨0, fun _ _ _ _ => Run.exhausted, fun _ _ _ _ _ => Run.exhausted, fun _ _ _ => Run.exhausted⟩

namespace Container

/-- The target of events about building. -/
def target : String := "trellis_graph::container"

/-- The target of events about circles of references. -/
def cycleTarget : String := "trellis_graph::cycle"

/-- The surroundings of readings while the container builds. -/
def surroundings (k : Container) (m : Machine) : Surroundings := ⟨k.host, m.portal⟩

/-! ## Assignments -/

/-- Converts a value to the type of a property and sets the property. -/
def assign (host : Host) (o : ObjectId) (p : Property) (v : Value) (handler : Handler) : Run Unit := do
  let heap ← Run.heap
  let converted := match p.type.representation with
    | .default => some v
    | .configuration => some v
    | r => handler.converter.convert host heap v r
  match converted with
  | none =>
      Run.report .warn target "value does not convert to the property type"
        [("type_name", .text (heap.typeName o)), ("property", .shown p.name)]
  | some v => do
      Run.act (.write o p.name)
      if ← Run.setProperty o p.name v then return ()
      else
        Run.report .warn target "property rejected value"
          [("type_name", .text (heap.typeName o)), ("property", .shown p.name)]

/-- The position of a component among the tracked ones. -/
def position? (objects : List Tracked) (o : ObjectId) : Option Nat :=
  objects.findIdx? (·.object == o)

/-- Tracks a component; gives its position among the tracked ones. -/
def track (o : ObjectId) : Run Nat := do
  let b ← Run.build
  match position? b.objects o with
  | some i => return i
  | none => do
      Run.act (.track o)
      return b.objects.length

/-- Tells a tracked component that it is configured, once it is. -/
def notifyIfReady (i : Nat) : Run Unit := do
  match (← Run.build).objects[i]? with
  | none => return ()
  | some t =>
      -- told once, and not before the last assignment has been made
      if !t.configured || 0 < t.pending || t.notified then return ()
      else do
        Run.act (.notify i)
        Run.report .trace target "after_configured"
          [("type_name", .text ((← Run.heap).typeName t.object))]
        Run.finish t.object

/-- Every property of a tracked component has been visited. -/
def markConfigured (i : Nat) : Run Unit := do
  Run.act (.configured i)
  notifyIfReady i

/-- A parked assignment of a tracked component has been made. -/
def release (i : Nat) : Run Unit := do
  Run.act (.release i)
  notifyIfReady i

/-! ## Names -/

/-- A placeholder waits for its name, unless that is no longer building: then it is served at once. -/
def waitOn (m : Machine) (hops : Nat) (p : Pending) (slot : Slot) (place : List Place) : Run Unit := do
  let waiter : Waiter := ⟨slot, place, p.path⟩
  match (← Run.build).stateOf? p.name with
  | some (.building _) => Run.act (.await p.name waiter)
  | some (.built v) => m.deliver hops waiter (some v)
  | none => m.deliver hops waiter none

/-- Placeholders wait for their names, one after the other. -/
def waitOnAll (m : Machine) (hops : Nat) (slot : Slot) : List (List Place × Pending) → Run Unit
  | [] => return ()
  | (place, p) :: rest => do
      waitOn m hops p slot place
      waitOnAll m hops slot rest

/-- Serves waiters, one after the other. -/
def deliverAll (m : Machine) (hops : Nat) (v : Option Value) : List Waiter → Run Unit
  | [] => return ()
  | w :: ws => do
      m.deliver hops w v
      deliverAll m hops v ws

/-- A name is built: its waiters are served. -/
def finishName (m : Machine) (hops : Nat) (name : String) (v : Value) : Run Unit := do
  let waiters := NameState.waiters ((← Run.build).stateOf? name)
  Run.act (.finish name v)
  Run.report .debug target "built"
    [("name", .text name), ("kind", .text v.kind), ("waiters", .shown (Decimal.natText waiters.length))]
  deliverAll m hops (some v) waiters

/-- A name is given up and unbuilt again: its waiters get nothing. -/
def abandon (m : Machine) (hops : Nat) (name : String) : Run Unit := do
  let waiters := NameState.waiters ((← Run.build).stateOf? name)
  Run.act (.abandon name)
  deliverAll m hops none waiters

/-! ## Parked values -/

/-- Fills a place of a parked assignment, and makes it if no placeholder is left. -/
def fillProperty (k : Container) (i : Nat) (place : List Place) (v : Option Value) : Run Unit := do
  match (← Run.build).deferred[i]?.join with
  | none => return ()
  | some d => do
      let filled := d.filled place (v.getD .null)
      Run.act (.fill i place (v.getD .null))
      -- other placeholders are left: it stays parked
      if 0 < filled.outstanding then return ()
      else
        match (← Run.build).objects[d.owner]? with
        | none => return ()
        | some t => do
            -- nothing is assigned, but the component has waited for it all the same
            if filled.value.isNull then
              Run.report .debug target "deferred reference resolved to nothing"
                [("property", .shown d.property.name)]
            else assign k.host t.object d.property filled.value d.handler
            release d.owner

/-- Fills a place of a parked named value, which is built if no placeholder is left. -/
def fillName (m : Machine) (hops : Nat) (i : Nat) (place : List Place) (v : Option Value) :
    Run Unit := do
  match (← Run.build).deferredNames[i]?.join with
  | none => return ()
  | some d => do
      let filled := d.filled place (v.getD .null)
      Run.act (.fillName i place (v.getD .null))
      if 0 < filled.outstanding then return ()
      else finishName m hops d.name filled.value

/-- Serves a waiter with the value of its name, or with nothing if the name was given up. -/
def deliver (k : Container) (m : Machine) (hops : Nat) (w : Waiter) (v : Option Value) : Run Unit := do
  let resolved ← match v, w.path with
    | some v, some path => v.atPath (k.surroundings m) hops path
    | v, _ => pure v
  match w.slot with
  | .property i => fillProperty k i w.place resolved
  | .name i => fillName m hops i w.place resolved

/-- Assigns a value to a property of a tracked component, or parks it while it holds placeholders. -/
def injectAt (k : Container) (m : Machine) (hops : Nat) (i : Nat) (o : ObjectId) (p : Property)
    (v : Value) (handler : Handler) : Run Unit := do
  match v.placeholders with
  | [] => assign k.host o p v handler
  | leaves => do
      Run.report .debug cycleTarget "deferring injection"
        [("type_name", .text ((← Run.heap).typeName o)), ("property", .shown p.name),
         ("waiting", .shown (Decimal.natText leaves.length))]
      -- parked before the placeholders wait: one may be served at once
      let slot := (← Run.build).deferred.length
      Run.act (.park ⟨i, p, v, leaves.length, handler⟩)
      waitOnAll m hops (.property slot) leaves

/-- A value for a name: the name is built, or the value is parked while it holds placeholders. -/
def settleName (m : Machine) (hops : Nat) (name : String) (v : Value) : Run Unit := do
  match v.placeholders with
  | [] => finishName m hops name v
  | leaves => do
      Run.report .debug cycleTarget "named value waits on placeholders"
        [("name", .text name), ("waiting", .shown (Decimal.natText leaves.length))]
      let slot := (← Run.build).deferredNames.length
      Run.act (.parkName ⟨name, v, leaves.length⟩)
      waitOnAll m hops (.name slot) leaves

end Container

end ObjectGraph
