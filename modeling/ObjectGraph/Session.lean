import ObjectGraph.Build.State
import ObjectGraph.Error
import ObjectGraph.Files
import ObjectGraph.Log

/-!
# `Session` — runs and what they leave behind

Reading a configuration may fetch files, build components and report events. A run takes a session,
which holds what exists and what has happened, and gives a result and the session after it. A run that
takes more steps than it was granted gives no result, and what happened until then stays; that is the
only way it can fail, since the errors of the domain are part of its result.

What a host adds, its files, schemes, formats and converters, is a `Host`.

Contents:
* `Host`;
* `Session`, `Run` and its primitives.
-/

namespace ObjectGraph

/-- What the surroundings add. -/
structure Host where
  files : Files
  /-- The schemes of the host: what a URI means, given the values of its parameters. -/
  scheme : Nat → Uri → Params → Except Error (Option Value)
  /-- The formats of the host. -/
  format : Nat → Heap → Value → Option Value
  /-- The converters of the host. -/
  converter : Nat → Heap → Value → Representation → Option Value

namespace Host

/-- Surroundings that add files only. -/
def ofFiles (files : Files) : Host :=
  ⟨files, fun _ _ _ => .ok none, fun _ _ _ => none, fun _ _ _ _ => none⟩

/-- Surroundings that add nothing. -/
def bare : Host := ofFiles Files.none

end Host

/-! ## Runs -/

/-- What exists and what has happened. -/
structure Session where
  /-- The events reported, the newest first. -/
  events : List Log.Event
  /-- The paths of the files asked for, the newest first. -/
  opened : List String
  heap : Heap
  build : Build
  /-- The acts of the container, the newest first. -/
  acts : List Act

/-- A session in which nothing has happened. -/
def Session.start : Session := ⟨[], [], [], Build.start [], []⟩

/-- A computation within a session. It has no result if it runs out of steps. -/
structure Run (α : Type) where
  run : Session → Option α × Session

namespace Run

instance : Monad Run where
  pure a := ⟨fun s => (some a, s)⟩
  bind x f := ⟨fun s =>
    match x.run s with
    | (some a, t) => (f a).run t
    | (none, t) => (none, t)⟩

instance : MonadStateOf Session Run where
  get := ⟨fun s => (some s, s)⟩
  set t := ⟨fun _ => (some ⟨⟩, t)⟩
  modifyGet f := ⟨fun s => (some (f s).1, (f s).2)⟩

/-- The result and the session after it, of a run that does not run out of steps. -/
def ended? {α : Type} (x : Run α) (s : Session) : Option (α × Session) :=
  match x.run s with
  | (some a, t) => some (a, t)
  | (none, _) => none

instance {α : Type} : CoeFun (Run α) fun _ => Session → Option (α × Session) := ⟨ended?⟩

/-- There are no steps left. -/
def exhausted {α : Type} : Run α := ⟨fun s => (none, s)⟩

/-- Reports an event. -/
def report (level : Log.Level) (target : String) (message : String)
    (fields : List (String × Log.Field)) : Run Unit :=
  modify fun s => { s with events := ⟨level, target, some message, fields⟩ :: s.events }

/-- The components that exist. -/
def heap : Run Heap := do return (← get).heap

/-- Makes a component. -/
def allocate (c : Component) : Run ObjectId := do
  let s ← get
  let (o, h) := s.heap.allocate c
  set { s with heap := h }
  return o

/-- Sets a property of a component; tells whether it took the value. -/
def setProperty (o : ObjectId) (name : String) (v : Value) : Run Bool := do
  let s ← get
  let (taken, h) := s.heap.set o name v
  set { s with heap := h }
  return taken

/-- Tells a component that every property has been set. -/
def finish (o : ObjectId) : Run Unit := modify fun s => { s with heap := s.heap.finish o }

/-- What the container knows. -/
def build : Run Build := do return (← get).build

/-- The container does something. -/
def act (a : Act) : Run Unit := modify fun s => { s with build := s.build.apply a, acts := a :: s.acts }

/-- A container that has built nothing takes the place of the one at hand. -/
def renew (priority : List String) : Run Unit :=
  modify fun s => { s with build := Build.start priority, acts := [] }

/-- The contents of a file of the host. -/
def openFile (host : Host) (path : String) : Run (Except Files.Failure (List UInt8)) := do
  modify fun s => { s with opened := path :: s.opened }
  return host.files path

end Run

end ObjectGraph
