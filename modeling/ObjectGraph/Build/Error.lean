import ObjectGraph.Error

/-!
# `Build.Error` — what can go wrong with a graph

Contents:
* `BuildError`, `message`.
-/

namespace ObjectGraph

/-- Why a graph, or a value of it, cannot be built. -/
inductive BuildError where
  /-- A configuration could not be read. -/
  | config (e : Error)
  /-- A map was to become a component and nothing says of which class. -/
  | missingTypeHint (context : String)
  /-- No class of this name is registered. -/
  | unknownType (name context : String)
  /-- No factory of this name is registered. -/
  | unknownFactory (name context : String)
  /-- A factory failed. -/
  | construction (name context message : String)
  /-- The root cannot be built at all. -/
  | rootConfiguration (message : String)
  /-- Placeholders for these names were left at the end. -/
  | unresolvedPending (names : List String)

namespace BuildError

/-- The message, in one line. -/
def message : BuildError → String
  | config e => e.message
  | missingTypeHint context => "no type hint for '" ++ context ++ "'"
  | unknownType name context => "unknown type '" ++ name ++ "' at '" ++ context ++ "'"
  | unknownFactory name context => "unknown factory '" ++ name ++ "' at '" ++ context ++ "'"
  | construction name context m => "factory '" ++ name ++ "' failed at '" ++ context ++ "': " ++ m
  | rootConfiguration m => "root configuration: " ++ m
  | unresolvedPending names => "unresolved pending references to: " ++ String.intercalate ", " names

end BuildError

end ObjectGraph
