import ObjectGraph.Configuration
import ObjectGraph.Conversion
import ObjectGraph.Uri.Relative

/-!
# `Handler.Dereference` — from a URI to its value

A URI is dereferenced in four steps: its parameters are dereferenced, the scheme gives a value, the
value learns by which handler references inside it are resolved, and the format of the URI is applied.
An alias stands for another URI, whose value gets the alias's own format; at most sixteen aliases are
followed in a row. Parameters that fail are left out.

The container's schemes are a parameter, `Surroundings`, since what they do is defined by means of this
module; `hops` is what is left of the references to the root that may still be followed inside.

Contents:
* `Surroundings`;
* `applyFormat`, `readFile`, `resolveScheme`, `attach`;
* `dereference`, `dereferenceParameters`; `tryDereference`, `dereferenceUri`, `dereferenceText`.
-/

namespace ObjectGraph

/-- What a URI leads to: a value, nothing, or an error. -/
abbrev Outcome := Except Error (Option Value)

/-- What dereferencing reaches beyond the handler: the host, and the values of the container. -/
structure Surroundings where
  host : Host
  portal : Portal → Nat → Uri → Params → Run Outcome

namespace Surroundings

/-- Surroundings without a container. -/
def ofHost (host : Host) : Surroundings := ⟨host, fun _ _ _ _ => pure (.ok none)⟩

end Surroundings

namespace Handler

/-- The target of events about URIs. -/
def target : String := "config::scheme"

/-! ## Formats -/

/-- A value as a configuration of its own, if it is structured. -/
def configurationOf? (handler : Handler) (heap : Heap) : Value → Option Value
  | .configuration c => some (.configuration c)
  | .resource r => r.toConfiguration?.map .configuration
  | .map entries => some (.configuration (Configuration.make ((Value.map entries).toJson heap) handler))
  | .list items => some (.configuration (Configuration.make ((Value.list items).toJson heap) handler))
  | _ => none

/-- What a format makes of a value. -/
def format (host : Host) (handler : Handler) (heap : Heap) (v : Value) : Format → Option Value
  | .data => handler.converter.convert host heap v .data
  | .representation .configuration => configurationOf? handler heap v
  | .representation r => handler.converter.convert host heap v r
  | .custom id => host.format id heap v

/-- Applies the format of a URI to a value. -/
def applyFormat (host : Host) (handler : Handler) (v : Value) (u : Uri) : Run Outcome := do
  match u.format with
  | none => return .ok (some v)
  | some name =>
      match handler.formats.lookup name with
      | none => return .error (.unknownFormat name)
      | some f => return .ok (format host handler (← Run.heap) v f)

/-! ## Schemes -/

/-- The data of a file: text if it is well-formed. -/
def filePayload (bytes : List UInt8) : Payload :=
  match Text.ofOctets? bytes with
  | some s => .text s
  | none => .octets bytes

/-- What a URI means in a file: the file, or what the path of its fragment leads to in it. -/
def inFile (u : Uri) (bytes : List UInt8) : Outcome :=
  let file := Resource.plain (u.withFragment none) (filePayload bytes)
  match u.fragment.filter (· ≠ "") with
  | none => .ok (some (.resource file))
  | some path =>
      match file.structured? with
      | none => .error (.dereference u.canonical "fragment requires structured data")
      | some j => .ok ((j.atPath? path).map fun part =>
          if part.isContainer then .resource (Resource.plain u (.json part)) else Value.ofJson part)

/-- The file a URI names. -/
def readFile (host : Host) (directory : String) (u : Uri) : Run Outcome := do
  let path := Files.joinPath directory u.name
  match ← Run.openFile host path with
  | .error e => return .error (.read (some path) e.message)
  | .ok bytes => return inFile u bytes

/-- The value that a scheme gives to a URI. -/
def resolveScheme (env : Surroundings) (hops : Nat) (u : Uri) (params : Params) : Scheme → Run Outcome
  | .literal => return .ok (some (.string u.name))
  | .files directory => readFile env.host directory u
  | .container portal => env.portal portal hops u params
  | .detached => return .ok none
  | .custom id _ => return env.host.scheme id u params

/-- A value with the handler by which references inside it are resolved. References in what a relative
URI led to are relative to that URI. -/
def attach (handler : Handler) (s : Scheme) (u : Uri) (v : Value) : Value :=
  if s.isRelative then
    -- what was found becomes the base of what it refers to
    let derived := handler.withBase u.scheme u.withoutParameters
    match v with
    | .resource r => .resource (r.withHandler derived)
    | .configuration c => .configuration (c.withHandler derived)
    | v => v
  else
    match v with
    -- a resource that knows its handler keeps it
    | .resource r => .resource (if r.handler.isNone then r.withHandler handler else r)
    | v => v

/-- A URI, resolved against the base of its scheme if the scheme's names may be relative. -/
def absolute (handler : Handler) (s : Scheme) (u : Uri) : Uri :=
  if s.isRelative then
    match handler.base? u.scheme with
    | some base => u.resolveAgainst base
    | none => u
  else u

/-- Dereferences a URI of a scheme, given the values of its parameters. -/
def dereferenceIn (env : Surroundings) (handler : Handler) (hops : Nat) (s : Scheme) (u : Uri)
    (params : Params) : Run Outcome := do
  let u := handler.absolute s u
  Run.report .debug target "dereference" [("uri", .shown u.canonical)]
  match ← resolveScheme env hops u params s with
  | .error e => return .error e
  | .ok none => return .ok none
  | .ok (some v) => applyFormat env.host handler (handler.attach s u v) u

/-- Dereferences an alias, by the means to dereference what it stands for; without them too many aliases
have been followed. -/
def dereferenceAlias (env : Surroundings) (handler : Handler) (follow : Option (Uri → Run Outcome))
    (u : Uri) : Run Outcome := do
  match follow, handler.aliases.lookup u.name with
  | some follow, some text =>
      match Uri.parse text with
      | .error e => return .error (.malformed e)
      | .ok meant =>
          match ← follow meant with
          | .error e => return .error e
          | .ok none => return .ok none
          | .ok (some v) => applyFormat env.host handler v u
  | _, _ => return .error (.unknownAlias u.name)

/-! ## URIs -/

/-- The text of a parameter that is a literal and nothing else. -/
def plainText? (u : Uri) : Option String :=
  if u.parameters.isEmpty && u.format.isNone then u.literalText? else none

/-- The value of a parameter in the end; one that has none is left out. -/
def keepParameter (whole : Uri) (name : String) (rest : Params) : Outcome → Run Params
  | .ok (some v) => return Table.insert name v rest
  | .ok none => do
      Run.report .debug target "parameter resolved to nothing"
        [("uri", .shown whole.canonical), ("param", .shown name)]
      return rest
  | .error e => do
      Run.report .warn target "parameter failed"
        [("uri", .shown whole.canonical), ("param", .shown name), ("error", .shown e.message)]
      return rest

mutual

/-- Dereferences a URI, by the means to follow an alias. -/
def dereferenceWith (env : Surroundings) (handler : Handler) (hops : Nat)
    (follow : Option (Uri → Run Outcome)) : Uri → Run Outcome
  | .mk scheme name fragment parameters format => do
      let u := Uri.mk scheme name fragment parameters format
      if u.isAlias then dereferenceAlias env handler follow u
      else match handler.schemes.lookup scheme with
        | none => return .error (.schemeNotFound scheme)
        | some s =>
            -- parameters come first: the scheme sees their values
            let params ← dereferenceParameters env handler hops follow u [] parameters
            dereferenceIn env handler hops s u params

/-- Dereferences the parameters of a URI, one after the other. -/
def dereferenceParameters (env : Surroundings) (handler : Handler) (hops : Nat)
    (follow : Option (Uri → Run Outcome)) (whole : Uri) (done : Params) :
    List (String × Uri) → Run Params
  | [] => return done
  | (name, u) :: rest => do
      let done ← match plainText? u with
        | some text => pure (Table.insert name (.string text) done)
        | none => do keepParameter whole name done (← dereferenceWith env handler hops follow u)
      dereferenceParameters env handler hops follow whole done rest

end

/-- Dereferences a URI; `aliases` is how many aliases may be followed in a row. -/
def dereference (env : Surroundings) (handler : Handler) (hops : Nat) : Nat → Uri → Run Outcome
  | 0 => dereferenceWith env handler hops none
  | aliases + 1 => dereferenceWith env handler hops (some (dereference env handler hops aliases))

/-- How many aliases are followed in a row. -/
def aliasLimit : Nat := 16

/-- Dereferences a URI. -/
def tryDereference (env : Surroundings) (handler : Handler) (hops : Nat) (u : Uri) : Run Outcome :=
  dereference env handler hops aliasLimit u

/-- Dereferences a URI; a failure is reported and counts as nothing. -/
def dereferenceUri (env : Surroundings) (handler : Handler) (hops : Nat) (u : Uri) :
    Run (Option Value) := do
  match ← tryDereference env handler hops u with
  | .ok v => return v
  | .error e => do
      Run.report .warn target "dereference failed"
        [("uri", .shown u.canonical), ("error", .shown e.message)]
      return none

/-- Dereferences the text of a URI; a failure is reported and counts as nothing. -/
def dereferenceText (env : Surroundings) (handler : Handler) (hops : Nat) (text : String) :
    Run (Option Value) := do
  match Uri.parse text with
  | .ok u => dereferenceUri env handler hops u
  | .error e => do
      Run.report .warn target "invalid compound URI" [("uri", .text text), ("error", .shown e.message)]
      return none

end Handler

end ObjectGraph
