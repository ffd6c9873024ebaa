import ObjectGraph.Text.Split
import ObjectGraph.Uri.Parser

/-!
# `Error` — what can go wrong with a configuration

Loading a document and dereferencing a URI fail for the causes below. Each has a one-line message
and a fuller rendering, which names the place in the document and may show an excerpt of it with a
caret under the place.

Contents:
* `linesOf`, `excerptAt`;
* `Error`, `message`, `pretty`, `path?`.
-/

namespace ObjectGraph

/-! ## Excerpts -/

/-- A line without the carriage return before its end. -/
def dropReturn (line : List Char) : List Char :=
  if line.getLast? = some '\r' then line.dropLast else line

/-- The lines of a text. A line ends at a line feed, which may follow a carriage return; what follows
the last line feed is a line unless it is empty. -/
def linesOf (source : String) : List String :=
  let pieces := Text.split '\n' source.toList
  let ended := pieces.dropLast.map dropReturn
  let last := (pieces.getLast?.getD [])
  (ended ++ (if last = [] then [] else [last])).map String.ofList

/-- A text aligned to the right. -/
def alignRight (width : Nat) (s : String) : String :=
  String.ofList (List.replicate (width - s.length) ' ') ++ s

/-- What stands before a line of an excerpt: its number and a bar. -/
def lineMargin (number : Nat) : String := " " ++ alignRight 4 (Decimal.natText number) ++ " | "

/-- A line of spaces with a caret after `margin` columns, under column `column`. -/
def caretLine (margin column : Nat) : String :=
  String.ofList (List.replicate (margin + (column - 1)) ' ') ++ "^\n"

/-- The lines around line `line` of a document, from two before it to one after it, with a caret under
column `column`. -/
def excerptAt (source : String) (line column : Nat) : String :=
  let ls := linesOf source
  let first := max 1 (line - 2)
  -- two lines before and one after, as far as there are any
  let last := min ls.length (line + 1)
  String.join <| (List.range' first (last + 1 - first)).map fun n =>
    lineMargin n ++ ls.getD (n - 1) "" ++ "\n"
      ++ (if n = line then caretLine (lineMargin n).length column else "")

/-! ## Errors -/

/-- Why a configuration cannot be loaded or a URI not be dereferenced. -/
inductive Error where
  /-- A file could not be read. -/
  | read (path : Option String) (message : String)
  /-- A document is malformed at a place. -/
  | parse (path : Option String) (line column : Nat) (message excerpt : String)
  /-- A document is well-formed but of no use. -/
  | validation (path : Option String) (line column : Option Nat) (message : String)
      (excerpt : Option String)
  /-- A URI is malformed. -/
  | malformed (e : Uri.SyntaxError)
  /-- No scheme of this name is registered. -/
  | schemeNotFound (scheme : String)
  /-- The name is not in the table of aliases, or too many aliases lead to it. -/
  | unknownAlias (name : String)
  /-- No format of this name is registered. -/
  | unknownFormat (format : String)
  /-- A scheme failed. -/
  | dereference (uri message : String)

namespace Error

/-- The message, in one line. -/
def message : Error → String
  | read _ m => m
  | parse _ _ _ m _ => m
  | validation _ _ _ m _ => m
  | malformed e => e.message
  | schemeNotFound s => "no resolver registered for scheme '" ++ s ++ "'"
  | unknownAlias a => "unknown alias '" ++ a ++ "'"
  | unknownFormat f => "unknown format '" ++ f ++ "'"
  | dereference u m => "cannot dereference " ++ u ++ ": " ++ m

/-- A place in a document: nothing, a line, or a line and a column. -/
def place : Option Nat → Option Nat → String
  | some l, some c => Decimal.natText l ++ ":" ++ Decimal.natText c
  | some l, none => Decimal.natText l
  | none, _ => ""

/-- The full rendering, with the place and an excerpt where they are known. -/
def pretty : Error → String
  | read (some p) m => "Read error at " ++ p ++ ": " ++ m
  | read none m => "Read error: " ++ m
  | parse (some p) l c m ex =>
      "Config parse error at " ++ p ++ ":" ++ Decimal.natText l ++ ":" ++ Decimal.natText c
        ++ "\n" ++ m ++ "\n" ++ ex
  | parse none l c m ex =>
      "Config parse error at line " ++ Decimal.natText l ++ ", column " ++ Decimal.natText c
        ++ "\n" ++ m ++ "\n" ++ ex
  | validation (some p) l c m ex =>
      let here := place l c
      if here = "" then "Config validation error at " ++ p ++ "\n" ++ m
      else "Config validation error at " ++ p ++ ":" ++ here ++ "\n" ++ m
        ++ (match ex with
          | some ex => "\n" ++ ex
          | none => "")
  | validation none _ _ m _ => "Config validation error\n" ++ m
  | malformed e => e.pretty
  | e => e.message

/-- The document the error is about. -/
def path? : Error → Option String
  | read p _ => p
  | parse p _ _ _ _ => p
  | validation p _ _ _ _ => p
  | _ => none

end Error

end ObjectGraph
