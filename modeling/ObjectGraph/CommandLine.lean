import ObjectGraph.Build.Container
import ObjectGraph.CommandLine.Arguments
import ObjectGraph.CommandLine.Help
import ObjectGraph.Document
import ObjectGraph.Log.Capture

/-!
# `CommandLine` — the commands

A command prints what it finds; if it fails, it prints why and ends with code 1. A command line that makes
no sense ends with code 2. Events that the chosen filter lets through are printed on the side, and
`build` can print the events about circles of references after it has succeeded.

Contents:
* `Failure`, `message`, `pretty`;
* `describe`, the lines about a URI; `render`, the text of a value;
* `execute`, what a command prints; `finish`, with the events;
* `run`, a whole command line.
-/

namespace ObjectGraph.CommandLine

/-! ## Failures -/

/-- Why a command fails. -/
inductive Failure where
  | config (e : Error)
  | graph (e : BuildError)
  | malformed (e : Uri.SyntaxError)
  /-- There is no value at a path. -/
  | notFound (path : String)

namespace Failure

/-- The message, in one line. -/
def message : Failure → String
  | config e => "Configuration error: " ++ e.message
  | graph e => "Graph error: " ++ e.message
  | malformed e => e.message
  | notFound path => "No value at '" ++ path ++ "'"

/-- The full rendering. -/
def pretty : Failure → String
  | config e => e.pretty
  | graph (.config e) => e.pretty
  | malformed e => e.pretty
  | failure => failure.message

end Failure

/-! ## Texts -/

/-- A blank margin. -/
def margin (depth : Nat) : String := String.ofList (List.replicate (2 * depth) ' ')

/-- A named part of a URI. -/
def entry (depth : Nat) (name text : String) : String := margin depth ++ name ++ ": " ++ text

mutual

/-- The lines about a URI at some depth. -/
def describe (depth : Nat) : Uri → List String
  | .mk scheme name fragment parameters format =>
      let u := Uri.mk scheme name fragment parameters format
      entry depth "canonical" u.canonical ::
        if u.isLiteral then [entry depth "literal" name]
        else if u.isAlias then [entry depth "alias" name]
        else
          [entry depth "scheme" scheme, entry depth "name" name]
            ++ (fragment.map (entry depth "fragment")).toList
            ++ (format.map (entry depth "format")).toList
            ++ describeParameters depth parameters

/-- The lines about the parameters of a URI at some depth. -/
def describeParameters (depth : Nat) : List (String × Uri) → List String
  | [] => []
  | (name, u) :: rest =>
      (margin depth ++ "param " ++ name ++ ":") :: describe (depth + 1) u
        ++ describeParameters depth rest

end

/-- A text as a line, or as the lines it has. -/
def line (s : String) : String := s ++ "\n"

/-- The text of a value: a string as it is, and data for the rest. -/
def render (heap : Heap) : Value → String
  | .string s => s
  | v => (v.toJson heap).pretty

/-! ## Commands -/

/-- What a command prints, and why it stops if it fails. -/
abbrev Printed := String × Option Failure

/-- Describes URIs until one is malformed. -/
def describeAll : List String → Printed
  | [] => ("", none)
  | text :: texts =>
      match Uri.parse text with
      | .error e => ("", some (.malformed e))
      | .ok u =>
          let (rest, failure) := describeAll texts
          (String.join ((describe 0 u).map line) ++ rest, failure)

/-- The document at a path. -/
def load (host : Host) (file : String) : Run (Except Failure Configuration) := do
  match ← Document.load host file Handler.standard with
  | .ok c => return .ok c
  | .error e => return .error (.config e)

/-- Prints a text, or stops. -/
def printed : Except Failure String → Printed
  | .ok s => (line s, none)
  | .error e => ("", some e)

/-- The value at a path of a document. -/
def get (host : Host) (file path : String) (representation : Option Representation) (strict : Bool) :
    Run (Except Failure String) := do
  match ← load host file with
  | .error e => return .error e
  | .ok c =>
      let c := c.withStrict strict
      let env := Surroundings.ofHost host
      let v ← match representation with
        | some r => c.readAs env Configuration.depthLimit path r
        | none => c.valueAt env Configuration.depthLimit path
      match v with
      | none => return .error (.notFound path)
      | some v => return .ok (render (← Run.heap) v)

/-- A document, or a node of it, with mixins and ancestors merged. -/
def normalize (host : Host) (steps : Nat) (file : String) (path : Option String) :
    Run (Except Failure String) := do
  match ← load host file with
  | .error e => return .error e
  | .ok c =>
      let env := Surroundings.ofHost host
      let node ← match path with
        | some path => c.readNode env Configuration.depthLimit path
        | none => pure (some c)
      match node with
      | none => return .error (.notFound (path.getD ""))
      | some node =>
          return .ok (← node.normalize env Configuration.depthLimit steps).data.pretty

/-- Every name of a document, built. -/
def build (host : Host) (steps : Nat) (file : String) (priority : List String) :
    Run (Except Failure String) := do
  match ← load host file with
  | .error e => return .error e
  | .ok c => do
      let k : Container := ⟨host, .builtins, .standard⟩
      Run.renew priority
      match ← k.resolve steps c with
      | .error e => return .error (.graph e)
      | .ok registry => return .ok (registry.toJson (← Run.heap)).pretty

/-- What a command prints. -/
def execute (host : Host) (steps : Nat) : Command → Run Printed
  | .uri texts => return describeAll texts
  | .get file path representation strict => do
      return printed (← get host file path representation strict)
  | .normalize file path => do return printed (← normalize host steps file path)
  | .build file priority _ => do return printed (← build host steps file priority)

/-! ## Whole command lines -/

/-- The version. -/
def version : String := "0.0.1"

/-- How a run of the program ends. -/
structure Ending where
  code : Nat
  output : String
  errors : String
  deriving DecidableEq, Repr

/-- The event of a failure. -/
def failureEvent (e : Failure) : Log.Event := ⟨.error, program, some e.message, []⟩

/-- The lines of some events that a filter lets through. -/
def consoleLines (filter : Log.Filter) (events : List Log.Event) : String :=
  String.join ((events.filter filter.enables).map fun e => line e.consoleLine)

/-- The lines about circles of references. -/
def cycleLines (events : List Log.Event) : String :=
  let capture := Log.Capture.start (some Container.cycleTarget) Log.Capture.defaultCapacity
  String.join ((capture.recordAll events).lines.map line)

/-- The user wants to see the events about circles of references. -/
def Command.tracesCycles : Command → Bool
  | .build _ _ traceCycles => traceCycles
  | _ => false

/-- The end of a run: what was printed, and what happened, the oldest event first. -/
def finish (spec : String) (command : Command) (printed : Printed) (events : List Log.Event) : Ending :=
  let filter := Log.Filter.ofSpec spec
  -- the filter is read before the command runs
  let complaints := String.join ((Log.Filter.complaints spec).map line)
  match printed.2 with
  | none =>
      let cycles := if command.tracesCycles then cycleLines events else ""
      ⟨0, printed.1, complaints ++ consoleLines filter events ++ cycles⟩
  | some e =>
      ⟨1, printed.1, complaints ++ consoleLines filter (events ++ [failureEvent e])
        ++ line ("error: " ++ e.pretty)⟩

/-- A run that stops before it has begun. -/
def ended : Stop → Ending
  | .misuse => ⟨2, "", line (programPage.usageLine program)⟩
  | .help command => ⟨0, helpText command, ""⟩
  | .version => ⟨0, line (program ++ " " ++ version), ""⟩

/-- Runs the program: how it ends, and which files it asked for. `surroundings` is the filter of events
that is chosen outside; none is given if the run takes more steps than it may. -/
def run (host : Host) (steps : Nat) (surroundings : Option String) (words : List String) :
    Option (Ending × List String) :=
  match parse words with
  | .error stop => some (ended stop, [])
  | .ok request =>
      (execute host steps request.command Session.start).map fun (printed, session) =>
        (finish (request.log.spec surroundings) request.command printed session.events.reverse,
          session.opened.reverse)

end ObjectGraph.CommandLine
