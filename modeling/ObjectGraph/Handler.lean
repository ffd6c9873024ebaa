import ObjectGraph.Representation
import ObjectGraph.Table
import ObjectGraph.Uri

/-!
# `Handler` — what a configuration knows about URIs

A handler says which scheme resolves the URIs of each name, which formats and aliases exist, and
against which base the relative URIs of a scheme are resolved. It is data: the schemes, formats and
converters a host adds are numbers here, and the host gives them their meaning.

Contents:
* `Scheme`, `Scheme.isRelative`; `Format`; `Converter`;
* `Handler`, `empty`, `standard` and the copies with one entry changed.
-/

namespace ObjectGraph

/-- The ways into a container. -/
inductive Portal where
  /-- A named value, built when it is asked for. -/
  | named
  /-- A template of the root, built anew each time. -/
  | make
  /-- A bare instance of a class. -/
  | new
  deriving DecidableEq, Repr

/-- What resolves the URIs of a scheme. -/
inductive Scheme where
  /-- The name of the URI itself. -/
  | literal
  /-- Files below a directory. -/
  | files (directory : String)
  /-- The values of the container. -/
  | container (portal : Portal)
  /-- The values of a container that is no more. -/
  | detached
  /-- A scheme of the host. -/
  | custom (id : Nat) (relative : Bool)
  deriving DecidableEq, Repr

/-- The names of the scheme are paths, which may be relative to the document they stand in. -/
def Scheme.isRelative : Scheme → Bool
  | files _ => true
  | custom _ relative => relative
  | _ => false

/-- What a format makes of a value. -/
inductive Format where
  /-- Structured data from a text or a resource. -/
  | data
  /-- A representation. -/
  | representation (r : Representation)
  /-- A format of the host. -/
  | custom (id : Nat)
  deriving DecidableEq, Repr

/-- What converts values to representations. -/
inductive Converter where
  | standard
  /-- A converter of the host. -/
  | custom (id : Nat)
  deriving DecidableEq, Repr

/-- What a configuration knows about URIs: schemes, formats, the texts of aliases, and the bases of
relative URIs. Each table ascends. -/
structure Handler where
  schemes : List (String × Scheme)
  formats : List (String × Format)
  aliases : List (String × String)
  bases : List (String × Uri)
  converter : Converter

namespace Handler

/-- A handler without schemes and formats. -/
def empty : Handler := ⟨[], [], [], [], .standard⟩

/-- The handler with a scheme. -/
def withScheme (h : Handler) (name : String) (s : Scheme) : Handler :=
  { h with schemes := Table.insert name s h.schemes }

/-- The handler with a format. -/
def withFormat (h : Handler) (name : String) (f : Format) : Handler :=
  { h with formats := Table.insert name f h.formats }

/-- The handler with an alias for the text of a URI. -/
def withAlias (h : Handler) (name target : String) : Handler :=
  { h with aliases := Table.insert name target h.aliases }

/-- The handler with a base for the relative URIs of a scheme. -/
def withBase (h : Handler) (scheme : String) (base : Uri) : Handler :=
  { h with bases := Table.insert scheme base h.bases }

/-- The handler with another converter. -/
def withConverter (h : Handler) (c : Converter) : Handler := { h with converter := c }

/-- The formats named for representations. -/
def representationFormats : List (String × Format) :=
  (Representation.all.filter (· ≠ .default)).map fun r => (r.name, .representation r)

/-- The literal scheme, the format `json` and a format for every representation. -/
def standard : Handler :=
  ⟨[(Uri.literalScheme, .literal)], Table.insertAll [("json", .data)] representationFormats, [], [],
    .standard⟩

instance : Inhabited Handler := ⟨standard⟩

/-- The handler with the schemes of the container. -/
def withContainer (h : Handler) : Handler :=
  ((h.withScheme "named" (.container .named)).withScheme "make" (.container .make)).withScheme
    "new" (.container .new)

/-- The handler with the schemes of a container that is no more. -/
def withDetached (h : Handler) : Handler :=
  ((h.withScheme "named" .detached).withScheme "make" .detached).withScheme "new" .detached

/-- The base for the relative URIs of a scheme. -/
def base? (h : Handler) (scheme : String) : Option Uri := h.bases.lookup scheme

/-- A scheme of this name is registered. -/
def hasScheme (h : Handler) (name : String) : Bool := Table.has h.schemes name

/-- The names of the schemes, ascending. -/
def schemeNames (h : Handler) : List String := Table.keys h.schemes

end Handler

end ObjectGraph
