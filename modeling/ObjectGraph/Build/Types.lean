import ObjectGraph.Build.Error
import ObjectGraph.Session

/-!
# `Build.Types` — what can be constructed

Classes, logical types that stand for classes, and factories. A class is known by how an instance of it is
made: a constructor may make several components and gives one of them. A factory takes over a whole
node: it is a script of requests to the container, each of which goes on with the container's answer.

Contents:
* `Constructor`, `Script`, `Factory`;
* `TypeRegistry` and its lookups.
-/

namespace ObjectGraph

/-- How an instance of a class is made: its number, and the heap with it. -/
abbrev Constructor := Heap → ObjectId × Heap

/-- The constructor of a single component. -/
def Constructor.ofComponent (c : Component) : Constructor := fun h => h.allocate c

/-- What a factory does: requests to the container, one after the other, and a result. -/
inductive Script (α : Type) : Type where
  | done (a : α)
  /-- Looks at the components that exist, and at what the container knows. -/
  | inspect (next : Heap → Build → Script α)
  /-- Reads a configuration. -/
  | read (c : Configuration) (path : String) (r : Representation) (next : Option Value → Script α)
  /-- Makes a component. -/
  | create (c : Component) (next : ObjectId → Script α)
  /-- Sets a property of a component, without further ado. -/
  | set (o : ObjectId) (name : String) (v : Value) (next : Bool → Script α)
  /-- Builds the value at a key of a configuration. -/
  | build (c : Configuration) (key : String) (type : PropertyType)
      (next : Except BuildError (Option Value) → Script α)
  /-- Assigns a value, which may wait for placeholders in it. -/
  | inject (o : ObjectId) (name : String) (v : Value) (next : Bool → Script α)
  /-- Configures a component. -/
  | configure (o : ObjectId) (c : Configuration) (next : Script α)
  /-- Makes an instance of a class with given properties. -/
  | instantiate (name : String) (params : Params) (next : Except BuildError ObjectId → Script α)
  /-- Asks for a named value. -/
  | named (name : String) (next : Except BuildError (Option Value) → Script α)
  /-- Builds a template of the root. -/
  | make (path : String) (params : Params) (next : Except BuildError (Option Value) → Script α)

namespace Script

/-- One script after another. -/
def bind {α β : Type} : Script α → (α → Script β) → Script β
  | done a, f => f a
  | inspect next, f => inspect fun x y => (next x y).bind f
  | read c path r next, f => read c path r fun x => (next x).bind f
  | create c next, f => create c fun x => (next x).bind f
  | set o name v next, f => set o name v fun x => (next x).bind f
  | build c key type next, f => build c key type fun x => (next x).bind f
  | inject o name v next, f => inject o name v fun x => (next x).bind f
  | configure o c next, f => configure o c (next.bind f)
  | instantiate name params next, f => instantiate name params fun x => (next x).bind f
  | named name next, f => named name fun x => (next x).bind f
  | make path params next, f => make path params fun x => (next x).bind f

instance : Monad Script where
  pure := done
  bind := bind

/-- After nothing comes what comes next. -/
@[simp] theorem done_bind {α β : Type} (a : α) (f : α → Script β) : (done a).bind f = f a := rfl

/-- Ending with nothing more changes nothing. -/
theorem bind_done {α : Type} (s : Script α) : s.bind done = s := by
  induction s with
  | done a => rfl
  | _ => simp only [bind, *]

/-- Scripts in a row may be grouped in any way. -/
theorem bind_assoc {α β γ : Type} (s : Script α) (f : α → Script β) (g : β → Script γ) :
    (s.bind f).bind g = s.bind fun a => (f a).bind g := by
  induction s with
  | done a => rfl
  | _ => simp only [bind, *]

end Script

/-- What takes over the building of a node. -/
abbrev Factory := Configuration → Script (Except BuildError Value)

/-- What can be constructed. Each table ascends. -/
structure TypeRegistry where
  classes : List (String × Constructor)
  /-- The classes that logical types stand for. -/
  types : List (String × String)
  factories : List (String × Factory)

namespace TypeRegistry

/-- Nothing can be constructed. -/
def empty : TypeRegistry := ⟨[], [], []⟩

/-- The registry with a class. -/
def withClass (t : TypeRegistry) (name : String) (c : Constructor) : TypeRegistry :=
  { t with classes := Table.insert name c t.classes }

/-- The registry with a logical type. -/
def withType (t : TypeRegistry) (logical name : String) : TypeRegistry :=
  { t with types := Table.insert logical name t.types }

/-- The registry with a factory. -/
def withFactory (t : TypeRegistry) (name : String) (f : Factory) : TypeRegistry :=
  { t with factories := Table.insert name f t.factories }

/-- The registry with records only. -/
def builtins : TypeRegistry :=
  empty.withClass "record" (.ofComponent (.fresh .record []))

/-- A class of this name is registered. -/
def hasClass (t : TypeRegistry) (name : String) : Bool := Table.has t.classes name

/-- The class that a logical type stands for. -/
def classFor? (t : TypeRegistry) (logical : String) : Option String := t.types.lookup logical

/-- The constructor of a class, by its name or by that of a logical type. -/
def constructor? (t : TypeRegistry) (name : String) : Option Constructor :=
  match t.classes.lookup name with
  | some c => some c
  | none => (t.classFor? name).bind fun c => t.classes.lookup c

/-- The factory of a name. -/
def factory? (t : TypeRegistry) (name : String) : Option Factory := t.factories.lookup name

/-- The registry for diagnostics. -/
def debug (t : TypeRegistry) : String :=
  "TypeRegistry \x7b classes: " ++ Text.quoteRow (Table.keys t.classes) ++ ", types: \x7b"
    ++ String.intercalate ", " (t.types.map fun p => Text.quote p.1 ++ ": " ++ Text.quote p.2)
    ++ "\x7d, factories: " ++ Text.quoteRow (Table.keys t.factories) ++ " \x7d"

end TypeRegistry

end ObjectGraph
