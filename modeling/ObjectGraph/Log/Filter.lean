import ObjectGraph.Log
import ObjectGraph.Log.Pattern
import ObjectGraph.Number.Decimal
import ObjectGraph.Table
import ObjectGraph.Text.Case
import ObjectGraph.Text.Split

/-!
# `Log.Filter` — which events reach the console

A filter is a row of directives between commas. A directive is a level, a target, or a target and a
level after an equals sign; a target without a level lets everything through. In brackets a target
may be followed by the name of a span and, in braces, by a field. Of the directives whose target
begins an event's target and whose field the event has, the most specific one decides. A directive
that names a span or the value of a field concerns no event outside a span, and here there are no
spans.

Contents:
* `Threshold`, the verbosity let through, and its names;
* `Directive`, `Directive.parse`, `Problem.message`;
* `Filter`, `ofSpec`, `complaints`, `enables`.
-/

namespace ObjectGraph.Log

/-- The greatest verbosity let through; zero lets nothing through. -/
abbrev Threshold := Nat

namespace Threshold

/-- The threshold of each level name, and of `off`. -/
def names : List (String × Threshold) :=
  [("off", 0), ("error", 1), ("warn", 2), ("info", 3), ("debug", 4), ("trace", 5)]

/-- Everything goes through. -/
def everything : Threshold := 5

/-- The number that a row of digits stands for; a plus sign may come before. -/
def number? : List Char → Option Nat
  | '+' :: cs => Decimal.readDigits? cs
  | cs => Decimal.readDigits? cs

/-- A threshold by its name, in any case, or by its number. -/
def parse? (s : String) : Option Threshold :=
  match number? s.toList with
  -- a row of digits is a number, whatever the names are
  | some n => if n ≤ everything then some n else none
  | none => if s = "" then some 1 else names.lookup (Text.lower s)

end Threshold

namespace Filter

/-- Why a directive cannot be read. -/
inductive Problem where
  | directive
  | level
  | field (fault : Pattern.Fault)
  deriving DecidableEq, Repr

/-- The wording of a problem. -/
def Problem.message : Problem → String
  | .directive => "invalid filter directive"
  | .level =>
      "error parsing level filter: expected one of \"off\", \"error\", \"warn\", \"info\", "
        ++ "\"debug\", \"trace\", or a number 0-5"
  | .field fault => "invalid field filter: " ++ fault.message

/-- A field that a directive asks for: its name, and what its value is compared with. -/
structure FieldMatch where
  name : String
  value : Option String
  deriving DecidableEq, Repr

/-- One directive of a filter. -/
structure Directive where
  /-- What the targets of its events begin with. -/
  target : Option String
  /-- The name of the span that its events lie in. -/
  span : Option String
  field : Option FieldMatch
  threshold : Threshold
  deriving DecidableEq, Repr

/-! ## Directives -/

/-- A character that may begin a directive without a bracket. -/
def opens (c : Char) : Bool := c == '-' || c == ':' || c == '_' || Text.isAlphanumeric c

/-- A part of a directive between two places counted in octets. -/
def part (text : List Char) (start stop : Nat) : Except Problem String :=
  match (Text.dropOctets? start text).bind (Text.takeOctets? (stop - start)) with
  | some cs => .ok (String.ofList cs)
  | none => .error .directive

/-- The rest of a directive from a place counted in octets. -/
def restFrom (text : List Char) (start : Nat) : Except Problem String :=
  part text start (Text.octetCount text)

/-- The threshold after an equals sign. -/
def readThreshold (s : String) : Except Problem Threshold :=
  if s = "" then .ok Threshold.everything
  else match Threshold.parse? s with
    | some t => .ok t
    | none => .error .level

/-- A directive that is a level or a target. -/
def bare (s : String) : Directive :=
  match Threshold.parse? s with
  | some t => ⟨none, none, none, t⟩
  | none => ⟨some s, none, none, Threshold.everything⟩

/-- A field, and after an equals sign a truth value, a number or an expression. -/
def readField (s : String) : Except Problem FieldMatch :=
  match Text.splitText '=' s with
  | name :: value :: _ =>
      let cs := value.toList
      if value = "true" ∨ value = "false" ∨ (Decimal.readFloat? .double cs).isSome then
        .ok ⟨name, some value⟩
      else match Pattern.fault? cs with
        | some fault => .error (.field fault)
        | none => .ok ⟨name, some value⟩
  | _ => if s = "" then .error .directive else .ok ⟨s, none⟩

/-- The threshold after a closing bracket, where `place` octets have been read. -/
def thresholdAfter (text : List Char) (place : Nat) : List Char → Except Problem Threshold
  | [] => .ok Threshold.everything
  | '=' :: _ => do readThreshold (← restFrom text (place + 1))
  | _ => .error .directive

/-- A directive with a span or a field, from its opening bracket on: `place` octets have been read,
that bracket included, and `cs` is left. -/
def bracketed (text : List Char) (target : Option String) (place : Nat) (cs : List Char) :
    Except Problem Directive := do
  let name := cs.takeWhile fun c => c != ']' && c != '\x7b'
  let stop := place + Text.octetCount name
  match cs.dropWhile fun c => c != ']' && c != '\x7b' with
  | ']' :: rest =>
      let span ← part text place stop
      pure ⟨target, some span, none, ← thresholdAfter text (stop + 1) rest⟩
  | _ :: inside =>
      let span ← part text place stop
      match inside.dropWhile (· != '\x7d') with
      | _ :: after =>
          let close := stop + 1 + Text.octetCount (inside.takeWhile (· != '\x7d'))
          -- the field is judged before what follows it
          let field ← readField (← part text (stop + 1) close)
          match after with
          | ']' :: rest =>
              pure ⟨target, if span = "" then none else some span, some field,
                ← thresholdAfter text (close + 2) rest⟩
          | _ => .error .directive
      | [] => .error .directive
  | [] => .error .directive

/-- Reads a directive. Its form is that of the text without blanks at its ends, but its parts are cut
out of the text as it stands, at the same places: blanks at the end belong to the last part, and
blanks at the beginning move every part. -/
def Directive.parse (s : String) : Except Problem Directive :=
  let text := s.toList
  match Text.trim text with
  | [] => .error .directive
  | '[' :: rest => bracketed text none 1 rest
  | c :: rest =>
      if !opens c then .error .directive
      else do
        let stop := Text.octetCount ((c :: rest).takeWhile fun c => c != '=' && c != '[')
        match (c :: rest).dropWhile fun c => c != '=' && c != '[' with
        | [] => pure (bare s)
        | '[' :: rest => bracketed text (some (← part text 0 stop)) (stop + 1) rest
        | _ => pure ⟨some (← part text 0 stop), none, none,
            ← readThreshold (← restFrom text (stop + 1))⟩

/-- It decides about events by what they are alone: it names no span, and no value of a field. Any
other directive concerns what happens inside spans. -/
def Directive.isStatic (d : Directive) : Bool :=
  d.span.isNone && !d.field.any (·.value.isSome)

end Filter

/-- Which events reach the console: the directives that could be read. -/
structure Filter where
  directives : List Filter.Directive
  deriving Repr

namespace Filter

/-- The directives of a filter's text. -/
def pieces (spec : String) : List String := (Text.splitText ',' spec).filter (· ≠ "")

/-- The filter of a text; a text without directives lets errors through. -/
def ofSpec (spec : String) : Filter :=
  match (pieces spec).filterMap fun s => (Directive.parse s).toOption with
  -- a text that says nothing still lets errors through
  | [] => ⟨[⟨none, none, none, 1⟩]⟩
  | ds => ⟨ds⟩

/-- What is said about the directives that cannot be read. -/
def complaints (spec : String) : List String :=
  (pieces spec).filterMap fun s =>
    match Directive.parse s with
    | .ok _ => none
    | .error p => some ("ignoring \x60" ++ s ++ "\x60: " ++ p.message)

end Filter

/-- The names of an event's fields; its message counts as one. -/
def Event.fieldNames (e : Event) : List String :=
  (if e.message.isSome then ["message"] else []) ++ e.fields.map (·.1)

namespace Filter

/-! ## Deciding -/

/-- The directive decides about an event: one outside any span, with a target that begins like its
own and with the field it names. -/
def Directive.concerns (d : Directive) (e : Event) : Bool :=
  d.isStatic
    && d.target.all (·.toList.isPrefixOf e.target.toList)
    && d.field.all fun f => e.fieldNames.contains f.name

/-- How specific a directive's target is: one more than its length, or zero. -/
def Directive.reach (d : Directive) : Nat :=
  match d.target with
  | some p => p.utf8ByteSize + 1
  | none => 0

/-- The name of a directive's field; the empty one stands for no field. -/
def Directive.fieldName (d : Directive) : String :=
  match d.field with
  | some f => f.name
  | none => ""

/-- The directive gives way to another one that is no less specific: by its target, then by its
field. -/
def Directive.givesWay (a b : Directive) : Bool :=
  a.reach < b.reach || (a.reach == b.reach && !(b.fieldName < a.fieldName))

/-- Of two directives the more specific one, and of two alike the later. -/
def prefer : Option Directive → Directive → Option Directive
  -- directives are compared in order, so the later wins among equals
  | some a, b => if a.givesWay b then some b else some a
  | none, b => some b

/-- The event reaches the console. -/
def enables (f : Filter) (e : Event) : Bool :=
  match (f.directives.filter (·.concerns e)).foldl prefer none with
  | some d => e.level.verbosity ≤ d.threshold
  | none => false

/-! ## The choice of a filter -/

/-- The targets that belong to the program itself. -/
def ownTargets : List String := ["trellis", "trellis_graph", "config", "compound_uri", "logging"]

/-- The filter that gives every target of the program one level. -/
def levelSpec (level : String) : String :=
  String.intercalate "," (ownTargets.map fun t => t ++ "=" ++ Text.lower level)

/-- What the caller asked for. -/
structure Choice where
  trace : Bool := false
  debug : Bool := false
  level : Option String := none
  filter : Option String := none
  deriving Repr

/-- The filter chosen: an explicit one, else `trace`, else `debug`, else a level, else the
surroundings' own choice, else `info`. -/
def Choice.spec (c : Choice) (surroundings : Option String) : String :=
  match c.filter with
  | some s => s
  | none =>
      if c.trace then levelSpec "trace"
      else if c.debug then levelSpec "debug"
      else match c.level with
        | some l => levelSpec l
        | none => surroundings.getD (levelSpec "info")

end Filter

end ObjectGraph.Log
