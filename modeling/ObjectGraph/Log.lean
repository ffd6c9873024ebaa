import ObjectGraph.Text.Blank
import ObjectGraph.Text.Quoted

/-!
# `Log` — what a run reports on the way

An event has a level, a target, an optional message and named fields. Two one-line forms exist: the
line of a captured event, in which the text of a field stands between plain quotes, and the line of
the console, in which it is escaped and the level is aligned to the right.

Contents:
* `Level`, `Field`, `Event`;
* `Event.body`, `Event.line`, `Event.consoleLine`.
-/

namespace ObjectGraph.Log

/-- How much an event matters, the gravest first. -/
inductive Level where
  | error | warn | info | debug | trace
  deriving DecidableEq, Repr

namespace Level

/-- The name of a level. -/
def text : Level → String
  | error => "ERROR"
  | warn => "WARN"
  | info => "INFO"
  | debug => "DEBUG"
  | trace => "TRACE"

/-- How verbose a level is, from 1 for errors to 5 for traces. -/
def verbosity : Level → Nat
  | error => 1
  | warn => 2
  | info => 3
  | debug => 4
  | trace => 5

end Level

/-- The value of a field: a text, which is quoted, or something shown as it is. -/
inductive Field where
  | text (s : String)
  | shown (s : String)
  deriving DecidableEq, Repr

/-- Something a run reports. -/
structure Event where
  level : Level
  target : String
  message : Option String
  fields : List (String × Field)
  deriving DecidableEq, Repr

namespace Field

/-- A field of a captured event. -/
def captured (name : String) : Field → String
  | text s => name ++ "=\"" ++ s ++ "\" "
  | shown s => name ++ "=" ++ s ++ " "

/-- A field on the console. -/
def console (name : String) : Field → String
  | text s => name ++ "=" ++ Text.quote s
  | shown s => name ++ "=" ++ s

end Field

namespace Event

/-- The fields of a captured event, without blanks at the end. -/
def fieldText (e : Event) : String :=
  String.ofList (Text.trimEnd (String.join (e.fields.map fun f => f.2.captured f.1)).toList)

/-- The message, if there is one, and the fields. -/
def body (e : Event) : String :=
  match e.message with
  | some m => if e.fieldText = "" then m else m ++ " " ++ e.fieldText
  | none => e.fieldText

/-- The line of a captured event. -/
def line (e : Event) : String := e.level.text ++ " " ++ e.target ++ ": " ++ e.body

/-- A character of a message on the console: controls that a terminal obeys are written by number. -/
def tame (c : Char) : List Char :=
  if [0x1b, 0x07, 0x08, 0x0c, 0x7f].contains c.toNat then
    '\\' :: 'x' :: Nat.toDigits 16 (c.toNat / 16) ++ Nat.toDigits 16 (c.toNat % 16)
  else if 0x80 ≤ c.toNat ∧ c.toNat ≤ 0x9f then
    '\\' :: 'u' :: '\x7b' :: Nat.toDigits 16 c.toNat ++ ['\x7d']
  else [c]

/-- The message on the console. -/
def tamedMessage? (e : Event) : Option String :=
  e.message.map fun m => String.ofList (m.toList.flatMap tame)

/-- The line of an event on the console. -/
def consoleLine (e : Event) : String :=
  let level := e.level.text
  let parts := e.tamedMessage?.toList ++ e.fields.map fun f => f.2.console f.1
  String.ofList (List.replicate (5 - level.length) ' ') ++ level ++ " " ++ e.target ++ ": "
    ++ String.intercalate " " parts

end Event

end ObjectGraph.Log
