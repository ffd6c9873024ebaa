import ObjectGraph.Build.Wiring

/-!
# `Build.Node` — from configurations to values

A node of a configuration is built into a value. A factory takes it over if it names one; otherwise it
becomes a component if it names a class or a logical type, or if the property it is for holds a
component or declares a class; otherwise a list or a map of what its entries build. The keys that say
how to build and how to merge are not built themselves.

Contents:
* the keys that say how to build; `isDirective`, `propertyName`;
* `buildValue`, `buildCollection`, `configureAt`;
* `runScript`, `buildNode`;
* `tryGetNamed`, `make`, `instantiate`, `inject`, `configure`; `portal`.
-/

namespace ObjectGraph.Container

/-! ## Keys -/

/-- The key of a class, before all others. -/
def andClassKey : String := "-and-class"

/-- The key of a class. -/
def classKey : String := "-class"

/-- The key of a logical type. -/
def typeKey : String := "-type"

/-- The key of a factory. -/
def factoryKey : String := "-factory"

/-- What lets a key name a property, whatever the key looks like. -/
def andMark : String := "-and:"

/-- The keys that say how to build. -/
def hintKeys : List String := [andClassKey, classKey, typeKey, factoryKey]

/-- The key says how to build or how to merge. -/
def isDirective (key : String) : Bool :=
  key.toList.head? == some '*' || key.toList.head? == some '$' || hintKeys.contains key

/-- The name of the property or entry that a key means. -/
def propertyName (key : String) : String :=
  if andMark.toList.isPrefixOf key.toList then String.ofList (key.toList.drop andMark.length) else key

/-- The diagnostic name of an entry of a node. -/
def entryContext (context name : String) : String := context ++ "." ++ name

/-! ## Values -/

/-- A structured value for a property of this type is built, and not passed on. -/
def buildsObjects : PropertyType → Bool
  | .any => true
  | .list => true
  | .map => true
  | .object _ => true
  | _ => false

/-- The value at a key of a node, for a property of a type that may hold a value already. -/
def buildValue (k : Container) (m : Machine) (hops : Nat) (parent : Configuration) (key : String)
    (type : PropertyType) (existing : Option Value) (context : String) :
    Run (Except BuildError (Option Value)) := do
  let env := k.surroundings m
  -- structured data is a node of this configuration; anything else is resolved first
  if (parent.raw? key).any Json.isContainer then
    match ← parent.readNode env hops key with
    | some node => m.buildNode hops node type existing context
    | none => return .ok none
  else
    match ← parent.valueAt env hops key with
    | none => return .ok none
    | some (.configuration node) => m.buildNode hops node type existing context
    | some (.resource r) =>
        -- a resource is opened only for a property that can hold what it builds
        match if buildsObjects type then r.toConfiguration? else none with
        | some node => m.buildNode hops node type existing context
        | none => return .ok (some (.resource r))
    | some v => return .ok (some v)

/-- An entry of a list or a map; a failure is reported and counts as nothing. -/
def buildEntry (k : Container) (m : Machine) (hops : Nat) (node : Configuration) (key context : String) :
    Run (Option Value) := do
  match ← k.buildValue m hops node key .any none context with
  | .ok v => return v
  | .error e => do
      Run.report .warn target "collection entry failed"
        [("context", .text context), ("error", .shown e.message)]
      return none

/-- The items of a list; one that cannot be built is null. -/
def buildItems (k : Container) (m : Machine) (hops : Nat) (node : Configuration) (context : String) :
    List String → Run (List Value)
  | [] => return []
  | key :: keys => do
      let v ← k.buildEntry m hops node key (entryContext context key)
      return v.getD .null :: (← buildItems k m hops node context keys)

/-- The entries of a map, after those already `done`; one that cannot be built is left out. -/
def buildEntries (k : Container) (m : Machine) (hops : Nat) (node : Configuration) (context : String)
    (done : List (String × Value)) : List String → Run (List (String × Value))
  | [] => return done
  | key :: keys => do
      if isDirective key then buildEntries k m hops node context done keys
      else
        let name := propertyName key
        match ← k.buildEntry m hops node key (entryContext context name) with
        | some v => buildEntries k m hops node context (Table.insert name v done) keys
        | none => buildEntries k m hops node context done keys

/-- A node as a list or a map. -/
def buildCollection (k : Container) (m : Machine) (hops : Nat) (node : Configuration)
    (context : String) : Run Value := do
  if node.isList then return .list (← k.buildItems m hops node context node.keys)
  else return .map (← k.buildEntries m hops node context [] node.keys)

/-! ## Components -/

/-- The value that a property holds, if what is built for it may be built into that. -/
def existingValue (heap : Heap) (o : ObjectId) (p : Property) : Option Value :=
  match p.type with
  | .any => heap.get? o p.name
  | .object _ => heap.get? o p.name
  | _ => none

/-- Sets one property of a component from a key of its node. -/
def configureKey (k : Container) (m : Machine) (hops : Nat) (i : Nat) (o : ObjectId)
    (node : Configuration) (context key : String) : Run Unit := do
  let name := propertyName key
  let path := entryContext context name
  let heap ← Run.heap
  match heap.property? o name with
  | none =>
      Run.report .warn target "no such property"
        [("context", .shown path), ("type_name", .text (heap.typeName o))]
  | some p =>
      match ← k.buildValue m hops node key p.type (existingValue heap o p) path with
      | .ok (some v) => k.injectAt m hops i o p v node.handler
      | .ok none =>
          Run.report .debug target "property resolved to nothing" [("context", .shown path)]
      | .error e =>
          Run.report .warn target "property failed"
            [("context", .shown path), ("error", .shown e.message)]

/-- Sets the properties of a component from keys of its node. -/
def configureKeys (k : Container) (m : Machine) (hops : Nat) (i : Nat) (o : ObjectId)
    (node : Configuration) (context : String) : List String → Run Unit
  | [] => return ()
  | key :: keys => do
      Run.act (.reach i (propertyName key))
      k.configureKey m hops i o node context key
      Run.act (.visit i (propertyName key))
      configureKeys k m hops i o node context keys

/-- The keys of a node that are properties or entries of what it builds. -/
def entryKeys (node : Configuration) : List String := node.keys.filter fun key => !isDirective key

/-- Configures a component: its properties are visited, by these names and in this way. -/
def configureBy (o : ObjectId) (names : List String) (visit : Nat → Run Unit) : Run Unit := do
  let i ← track o
  Run.act (.enter i names)
  visit i
  markConfigured i

/-- Configures a component by a normalized node. -/
def configureAt (k : Container) (m : Machine) (hops : Nat) (o : ObjectId) (node : Configuration)
    (context : String) : Run Unit :=
  configureBy o ((entryKeys node).map propertyName) fun i =>
    k.configureKeys m hops i o node context (entryKeys node)

/-- Configures a component by a node. -/
def configure (k : Container) (m : Machine) (hops : Nat) (o : ObjectId) (node : Configuration) :
    Run Unit := do
  let normal ← node.normalize (k.surroundings m) hops m.steps
  k.configureAt m hops o normal ((← Run.heap).typeName o)

/-- Assigns a value to a property of a component, or parks it while it holds placeholders; tells whether
the component has the property. -/
def inject (k : Container) (m : Machine) (hops : Nat) (o : ObjectId) (name : String) (v : Value) :
    Run Bool := do
  let heap ← Run.heap
  match heap.property? o name with
  | none => do
      Run.report .warn target "no such property"
        [("type_name", .text (heap.typeName o)), ("property", .text name)]
      return false
  | some p => do
      let i ← track o
      k.injectAt m hops i o p v k.handler
      return true

/-- A new instance of a class. -/
def construct (k : Container) (name context : String) : Run (Except BuildError ObjectId) := do
  match k.types.constructor? name with
  | none => return .error (.unknownType name context)
  | some make => do
      let s ← get
      let (o, heap) := make s.heap
      set { s with heap }
      return .ok o

/-- Sets properties of a component to given values. -/
def injectAll (k : Container) (m : Machine) (hops : Nat) (name : String) (i : Nat) (o : ObjectId) :
    Params → Run Unit
  | [] => return ()
  | (key, v) :: rest => do
      Run.act (.reach i key)
      match (← Run.heap).property? o key with
      | some p => k.injectAt m hops i o p v k.handler
      | none =>
          Run.report .warn target "no such property" [("class", .text name), ("property", .shown key)]
      Run.act (.visit i key)
      injectAll k m hops name i o rest

/-- A new instance of a class with given properties. -/
def instantiate (k : Container) (m : Machine) (hops : Nat) (name : String) (params : Params) :
    Run (Except BuildError ObjectId) := do
  match ← k.construct name name with
  | .error e => return .error e
  | .ok o => do
      configureBy o (Table.keys params) fun i => k.injectAll m hops name i o params
      return .ok o

/-! ## Names -/

/-- The value of a name, or a placeholder while the name is building. -/
def current (name : String) : Run (Option Value) := do
  match (← Run.build).stateOf? name with
  | none => return none
  | some (.built v) => return some v
  | some (.building _) => return some (.pending (Pending.make name none))

/-- Builds a name. -/
def buildNamed (k : Container) (m : Machine) (hops : Nat) (root : Configuration) (name : String) :
    Run (Except BuildError (Option Value)) := do
  Run.act (.begin name)
  Run.report .trace target "building" [("name", .text name)]
  match ← k.buildValue m hops root name .any none name with
  | .ok (some v) => do
      settleName m hops name v
      return .ok (← current name)
  | .ok none => do
      abandon m hops name
      return .ok none
  | .error e => do
      abandon m hops name
      return .error e

/-- What is said when nothing has been resolved yet. -/
def noRoot : BuildError := .rootConfiguration "no configuration has been resolved"

/-- A named value, which is built if it has not been; a placeholder for it if it is building. -/
def tryGetNamed (k : Container) (m : Machine) (hops : Nat) (name : String) :
    Run (Except BuildError (Option Value)) := do
  let b ← Run.build
  match b.stateOf? name with
  | some (.built v) => return .ok (some v)
  | some (.building _) => do
      Run.report .debug cycleTarget "cycle detected; handing out placeholder" [("name", .text name)]
      return .ok (some (.pending (Pending.make name none)))
  | none =>
      match b.root with
      | none => return .error noRoot
      | some root => if root.has name then k.buildNamed m hops root name else return .ok none

/-- Builds the template at a path of the root anew, with given parameters. -/
def make (k : Container) (m : Machine) (hops : Nat) (path : String) (params : Params) :
    Run (Except BuildError (Option Value)) := do
  match (← Run.build).root with
  | none => return .error noRoot
  | some root =>
      match ← root.readNode (k.surroundings m) hops path with
      | none => do
          Run.report .debug target "no template at key path" [("template", .text path)]
          return .ok none
      -- built anew each time: nothing is kept under the path
      | some template => m.buildNode hops (template.withParameters params) .any none path

/-! ## Factories -/

/-- Runs the script of a factory. -/
def runScript (k : Container) (m : Machine) (hops : Nat) {α : Type} : Script α → Run α
  | .done a => return a
  | .inspect next => do runScript k m hops (next (← Run.heap) (← Run.build))
  | .read c path r next => do
      runScript k m hops (next (← c.readAs (k.surroundings m) hops path r))
  | .create c next => do runScript k m hops (next (← Run.allocate c))
  | .set o name v next => do runScript k m hops (next (← Run.setProperty o name v))
  | .build c key type next => do
      runScript k m hops (next (← k.buildValue m hops c key type none key))
  | .inject o name v next => do runScript k m hops (next (← k.inject m hops o name v))
  | .configure o c next => do
      k.configure m hops o c
      runScript k m hops next
  | .instantiate name params next => do
      runScript k m hops (next (← k.instantiate m hops name params))
  | .named name next => do runScript k m hops (next (← k.tryGetNamed m hops name))
  | .make path params next => do runScript k m hops (next (← k.make m hops path params))

/-- Every property of a component that a factory made and injected into has been visited. -/
def finishOutput (o : ObjectId) : Run Unit := do
  let b ← Run.build
  match position? b.objects o with
  | none => return ()
  | some i => if b.objects[i]?.any (·.configured) then return () else markConfigured i

/-- The components that a factory gives are done, one after the other. -/
def finishOutputs : List ObjectId → Run Unit
  | [] => return ()
  | o :: os => do
      finishOutput o
      finishOutputs os

/-- Runs a factory for a node. -/
def delegate (k : Container) (m : Machine) (hops : Nat) (name : String) (factory : Factory)
    (node : Configuration) (context : String) : Run (Except BuildError (Option Value)) := do
  Run.report .trace target "delegating to factory" [("factory", .shown name), ("context", .text context)]
  match ← k.runScript m hops (factory node) with
  | .error e => return .error e
  | .ok v => do
      finishOutputs v.components
      return .ok (some v)

/-- Lets a factory build a node. -/
def runFactory (k : Container) (m : Machine) (hops : Nat) (name : String) (node : Configuration)
    (context : String) : Run (Except BuildError (Option Value)) := do
  match k.types.factory? name with
  | none => return .error (.unknownFactory name context)
  | some factory => do
      Run.act (.delegate name)
      k.delegate m hops name factory node context

/-! ## Nodes -/

/-- The class a node names, by one of the keys for it. -/
def classHint (k : Container) (m : Machine) (hops : Nat) (node : Configuration) (context : String) :
    Run (Except BuildError (Option String)) := do
  let env := k.surroundings m
  match ← node.readString env hops andClassKey with
  | some name => return .ok (some name)
  | none =>
      match ← node.readString env hops classKey with
      | some name => return .ok (some name)
      | none =>
          match ← node.readString env hops typeKey with
          | none => return .ok none
          | some logical =>
              match k.types.classFor? logical with
              | some name => return .ok (some name)
              | none =>
                  if k.types.hasClass logical then return .ok (some logical)
                  else return .error (.unknownType logical context)

/-- The component that a node configures: a new one of the class it names, the one its property holds, or a
new one of the class its property declares. None if the node is a list or a map. -/
def componentFor (k : Container) (type : PropertyType) (existing : Option Value) (context : String)
    (hint : Option String) : Run (Except BuildError (Option ObjectId)) := do
  match hint, existing, type with
  | some name, _, _ => return (← k.construct name context).map some
  -- what the property holds is configured further
  | none, some (.object o), _ => return .ok (some o)
  | none, _, .object (some declared) => return (← k.construct declared context).map some
  | none, _, .object none => return .error (.missingTypeHint context)
  | none, _, _ => return .ok none

/-- The value a node builds, for a property of a type that may hold a value already. -/
def buildNode (k : Container) (m : Machine) (hops : Nat) (node : Configuration) (type : PropertyType)
    (existing : Option Value) (context : String) : Run (Except BuildError (Option Value)) := do
  let env := k.surroundings m
  let node ← node.normalize env hops m.steps
  -- the property wants the node itself
  if type = .configuration then return .ok (some (.configuration node))
  else
    match ← node.readString env hops factoryKey with
    | some name => k.runFactory m hops name node context
    | none =>
        match ← k.classHint m hops node context with
        | .error e => return .error e
        | .ok hint =>
            match ← k.componentFor type existing context hint with
            | .error e => return .error e
            | .ok (some o) => do
                k.configureAt m hops o node context
                return .ok (some (.object o))
            | .ok none => return .ok (some (← k.buildCollection m hops node context))

/-! ## The container's schemes -/

/-- A value, followed along the fragment of a URI. -/
def project (k : Container) (m : Machine) (hops : Nat) (u : Uri) (v : Option Value) :
    Run (Option Value) := do
  match u.fragment, v with
  | some path, some v => v.atPath (k.surroundings m) hops path
  | _, v => return v

/-- What a URI of one of the container's schemes means. -/
def portal (k : Container) (m : Machine) (p : Portal) (hops : Nat) (u : Uri) (params : Params) :
    Run Outcome := do
  let v ← match p with
    | .named => k.tryGetNamed m hops u.name
    | .make => k.make m hops u.name params
    | .new => do pure ((← k.instantiate m hops u.name params).map fun o => some (Value.object o))
  match v with
  | .error e => return .error (.dereference u.canonical e.message)
  | .ok v => return .ok (← k.project m hops u v)

end ObjectGraph.Container
