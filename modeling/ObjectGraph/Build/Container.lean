import ObjectGraph.Build.Node
import ObjectGraph.Build.Registry

/-!
# `Build.Container` — building graphs

A pass takes a root configuration, normalizes it and builds every key of it that is not a directive, the
priority names first. Entries that fail are reported and left out; the pass fails if the root is not a
map or if placeholders are left in the end.

The operations of the container go on into one another: building a value dereferences URIs, which build
other values. Each time one does it has a step less; a configuration that recurses without end
exhausts its steps.

Contents:
* `machine`, the operations with a number of steps, and `steps_machine`;
* `buildOrder`, `pass`, `resolve`;
* `getNamed`, `tryGetNamed`, `make`, `instantiate`, `configure`, `inject`, as the outside calls them.
-/

namespace ObjectGraph.Container

/-- The operations of the container, with a number of steps. -/
def machine (k : Container) : Nat → Machine
  | 0 => Machine.exhausted
  | n + 1 =>
      ⟨n + 1,
        fun p hops u params => k.portal (machine k n) p hops u params,
        fun hops node type existing context =>
          k.buildNode (machine k n) hops node type existing context,
        fun hops w v => k.deliver (machine k n) hops w v⟩

theorem steps_machine (k : Container) (n : Nat) : (k.machine n).steps = n := by
  cases n with
  | zero => rfl
  | succ n => rfl

/-- How many steps a call from the outside has. One that needs more is taken to have no end. -/
def defaultSteps : Nat := 20000

/-- The surroundings of readings from the outside. -/
def outside (k : Container) (steps : Nat) : Surroundings := k.surroundings (k.machine steps)

/-- The container's handler: its base and its own schemes. -/
def ownHandler (k : Container) : Handler := k.handler.withContainer

/-! ## Passes -/

/-- Names without those that are not to be built, each once, if the root has them. -/
def buildableNames (root : Configuration) : List String → List String → List String
  | done, [] => done
  | done, name :: names =>
      if isDirective name || name.toList.head? == some '-' || done.contains name || !root.has name then
        buildableNames root done names
      else buildableNames root (done ++ [name]) names

/-- The names of a root in the order in which they are built: the priority names, then the rest. -/
def buildOrder (priority : List String) (root : Configuration) : List String :=
  buildableNames root [] (priority ++ root.keys)

/-- Builds names, one after the other; a failure is reported. -/
def buildAll (k : Container) (m : Machine) (hops : Nat) : List String → Run Unit
  | [] => return ()
  | name :: names => do
      match ← k.tryGetNamed m hops name with
      | .ok _ => pure ()
      | .error e =>
          Run.report .warn target "named entry failed"
            [("name", .shown name), ("error", .shown e.message)]
      buildAll k m hops names

/-- What is said about a root that is not a map. -/
def rootNotMap : BuildError := .rootConfiguration "top-level configuration must be a map"

/-- Starts a pass over a normalized root; what an earlier pass built is forgotten. -/
def startPass (root : Configuration) : Run Unit :=
  Run.act (.start root)

/-- The end of a pass: its registry, unless something is left. -/
def settle : Run (Except BuildError Registry) := do
  let b ← Run.build
  match b.unsettled (← Run.heap) with
  | none => return .ok b.registry
  | some names => return .error (.unresolvedPending names)

/-- A pass over a normalized root. -/
def pass (k : Container) (steps : Nat) (root : Configuration) : Run (Except BuildError Registry) := do
  startPass root
  k.buildAll (k.machine steps) Configuration.depthLimit (buildOrder (← Run.build).priority root)
  settle

/-- Builds every name of a configuration. -/
def resolve (k : Container) (steps : Nat) (c : Configuration) : Run (Except BuildError Registry) := do
  if !c.data.isObject then return .error rootNotMap
  else
    -- the root is normalized before anything of an earlier pass is forgotten
    let root ← (c.withHandler c.handler.withContainer).normalize (k.surroundings (k.machine steps))
      Configuration.depthLimit steps
    k.pass steps root

/-- A named value; a failure is reported and counts as nothing. -/
def getNamed (k : Container) (steps : Nat) (name : String) : Run (Option Value) := do
  match ← k.tryGetNamed (k.machine steps) Configuration.depthLimit name with
  | .ok v => return v
  | .error e => do
      Run.report .warn target "named lookup failed"
        [("name", .text name), ("error", .shown e.message)]
      return none

/-- The container for diagnostics. -/
def debug (k : Container) (b : Build) : String :=
  "Container \x7b types: " ++ k.types.debug ++ ", built: " ++ Text.quoteRow b.order
    ++ ", objects: " ++ Decimal.natText b.objects.length ++ " \x7d"

/-- A session in which the container has built nothing. -/
def session (priority : List String) : Session := { Session.start with build := Build.start priority }

end ObjectGraph.Container
