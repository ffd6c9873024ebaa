import ObjectGraph.Build.Placeholder
import ObjectGraph.Component

/-!
# `Build.State` — what a container knows while it builds, and what changes it

A container knows the state of every name, the components it configures, and the assignments and named
values that are parked because they wait for names. Nothing but acts changes this: a name begins to be
built, an assignment is parked, a placeholder waits, a place is filled, and so on, one thing at a time.
Some acts change none of the tables; they say what the container does to components.

Contents:
* `Slot`, `Waiter`, `NameState`, `Deferred`, `DeferredName`, `Tracked`;
* `Build`, `Build.start`, `Build.stateOf?`;
* `Act` and `Build.apply`; what it makes of the state of a name.
-/

namespace ObjectGraph

/-- Who receives the value for a placeholder: a parked assignment, or a parked named value. -/
inductive Slot where
  | property (i : Nat)
  | name (i : Nat)
  deriving DecidableEq, Repr

/-- A placeholder that waits for a name: who receives the value and where in it, and the path to follow
into the named value. -/
structure Waiter where
  slot : Slot
  place : List Place
  path : Option String
  deriving DecidableEq, Repr

/-- The state of a name. A name without state has not been built. -/
inductive NameState where
  | building (waiters : List Waiter)
  | built (v : Value)

/-- The waiters of a name in some state. -/
def NameState.waiters : Option NameState → List Waiter
  | some (.building ws) => ws
  | _ => []

/-- An assignment that waits for placeholders in its value. -/
structure Deferred where
  /-- The position of the receiver among the tracked components. -/
  owner : Nat
  property : Property
  value : Value
  /-- How many placeholders are left. -/
  outstanding : Nat
  /-- By what the value is converted in the end. -/
  handler : Handler

/-- The assignment with one more place filled. -/
def Deferred.filled (d : Deferred) (place : List Place) (v : Value) : Deferred :=
  { d with value := Value.setAt v place d.value, outstanding := d.outstanding - 1 }

/-- A named value that waits for placeholders in it. -/
structure DeferredName where
  name : String
  value : Value
  /-- How many placeholders are left. -/
  outstanding : Nat

/-- The named value with one more place filled. -/
def DeferredName.filled (d : DeferredName) (place : List Place) (v : Value) : DeferredName :=
  { d with value := Value.setAt v place d.value, outstanding := d.outstanding - 1 }

/-- A component that the container configures. -/
structure Tracked where
  object : ObjectId
  /-- How many assignments it waits for. -/
  pending : Nat
  /-- Every property has been visited. -/
  configured : Bool
  /-- It has been told so. -/
  notified : Bool
  deriving DecidableEq, Repr

/-- What a container knows while it builds. -/
structure Build where
  root : Option Configuration
  /-- The names to build first. -/
  priority : List String
  names : List (String × NameState)
  /-- The names that are built, in order of completion. -/
  order : List String
  objects : List Tracked
  /-- The parked assignments; none once delivered. -/
  deferred : List (Option Deferred)
  /-- The parked named values; none once delivered. -/
  deferredNames : List (Option DeferredName)

namespace Build

/-- A container that has built nothing. -/
def start (priority : List String) : Build := ⟨none, priority, [], [], [], [], []⟩

/-- The state of a name; none if it is unbuilt. -/
def stateOf? (b : Build) (name : String) : Option NameState := b.names.lookup name

end Build

/-! ## Acts -/

/-- One thing that a container does. -/
inductive Act where
  /-- A pass over a normalized root starts; what an earlier pass built is forgotten. -/
  | start (root : Configuration)
  /-- From here on a reference to the name gives a placeholder. -/
  | begin (name : String)
  /-- A name is built. -/
  | finish (name : String) (v : Value)
  /-- A name is given up and unbuilt again. -/
  | abandon (name : String)
  /-- A placeholder waits for a name, after those that came before. -/
  | await (name : String) (w : Waiter)
  /-- An assignment is parked. -/
  | park (d : Deferred)
  /-- A named value is parked. -/
  | parkName (d : DeferredName)
  /-- A place of a parked assignment is filled; with the last one it is parked no more. -/
  | fill (i : Nat) (place : List Place) (v : Value)
  /-- A place of a parked named value is filled; with the last one it is parked no more. -/
  | fillName (i : Nat) (place : List Place) (v : Value)
  /-- A component is tracked. -/
  | track (o : ObjectId)
  /-- A parked assignment of a tracked component has been made. -/
  | release (i : Nat)
  /-- Every property of a tracked component has been visited. -/
  | configured (i : Nat)
  /-- A tracked component is told that it is configured. -/
  | notify (i : Nat)
  /-- The properties of a tracked component are going to be visited, by these names. -/
  | enter (i : Nat) (names : List String)
  /-- A property of a tracked component is going to be visited. -/
  | reach (i : Nat) (name : String)
  /-- A property of a tracked component has been visited. -/
  | visit (i : Nat) (name : String)
  /-- A property of a component is written. -/
  | write (o : ObjectId) (name : String)
  /-- A factory takes over a node. -/
  | delegate (factory : String)

namespace Build

/-- What a container knows after an act. -/
def apply (b : Build) : Act → Build
  | .start root => { Build.start b.priority with root := some root }
  | .begin name => { b with names := Table.put name (.building []) b.names }
  | .finish name v =>
      { b with order := b.order ++ [name], names := Table.put name (.built v) b.names }
  | .abandon name => { b with names := b.names.filter (·.1 != name) }
  | .await name w =>
      { b with
        names := Table.put name (.building (NameState.waiters (b.stateOf? name) ++ [w])) b.names }
  | .park d =>
      { b with
        objects := b.objects.modify d.owner fun t => { t with pending := t.pending + 1 }
        deferred := b.deferred ++ [some d] }
  | .parkName d => { b with deferredNames := b.deferredNames ++ [some d] }
  | .fill i place v =>
      { b with
        deferred := b.deferred.modify i fun d =>
          (d.map (·.filled place v)).filter fun d => 0 < d.outstanding }
  | .fillName i place v =>
      { b with
        deferredNames := b.deferredNames.modify i fun d =>
          (d.map (·.filled place v)).filter fun d => 0 < d.outstanding }
  | .track o => { b with objects := b.objects ++ [⟨o, 0, false, false⟩] }
  | .release i =>
      { b with objects := b.objects.modify i fun t => { t with pending := t.pending - 1 } }
  | .configured i => { b with objects := b.objects.modify i fun t => { t with configured := true } }
  | .notify i => { b with objects := b.objects.modify i fun t => { t with notified := true } }
  -- what is done to components leaves the tables as they are
  | .enter _ _ => b
  | .reach _ _ => b
  | .visit _ _ => b
  | .write _ _ => b
  | .delegate _ => b

variable (b : Build) (name : String)

theorem stateOf?_begin (m : String) :
    (b.apply (.begin name)).stateOf? m = if m = name then some (.building []) else b.stateOf? m :=
  Table.lookup_put name _ b.names m

theorem stateOf?_finish (v : Value) (m : String) :
    (b.apply (.finish name v)).stateOf? m = if m = name then some (.built v) else b.stateOf? m :=
  Table.lookup_put name _ b.names m

theorem stateOf?_abandon (m : String) :
    (b.apply (.abandon name)).stateOf? m = if m = name then none else b.stateOf? m := by
  show (b.names.filter fun e => e.1 != name).lookup m = _
  rw [Table.lookup_filter (· != name)]
  by_cases same : m = name
  · rw [if_neg (by simp [same]), if_pos same]
  · rw [if_pos (by simp [same]), if_neg same, stateOf?]

theorem stateOf?_await (x : Waiter) (m : String) :
    (b.apply (.await name x)).stateOf? m
      = if m = name then some (.building (NameState.waiters (b.stateOf? name) ++ [x])) else b.stateOf? m :=
  Table.lookup_put name _ b.names m

/-- Where a name that is known is built, or waited for, the same names are known as before. -/
theorem isSome_stateOf?_finish {b : Build} {name : String} {st : NameState} (hn : b.stateOf? name = some st)
    (v : Value) (m : String) :
    ((b.apply (.finish name v)).stateOf? m).isSome = (b.stateOf? m).isSome := by
  rw [stateOf?_finish]
  by_cases hm : m = name
  · rw [if_pos hm, hm, hn]
    rfl
  · rw [if_neg hm]

theorem isSome_stateOf?_await {b : Build} {name : String} {st : NameState} (hn : b.stateOf? name = some st)
    (x : Waiter) (m : String) :
    ((b.apply (.await name x)).stateOf? m).isSome = (b.stateOf? m).isSome := by
  rw [stateOf?_await]
  by_cases hm : m = name
  · rw [if_pos hm, hm, hn]
    rfl
  · rw [if_neg hm]

end Build

end ObjectGraph
