import ObjectGraph.Text.Blank
import ObjectGraph.Value.Render

/-!
# `Template` — texts with places for parameters

A name in braces is a place, which is filled with the text of a parameter. Braces that enclose no name,
or a name with a brace in it, stand for themselves, and so do the braces of a filled-in text.

Contents:
* `Piece`, `pieces`: a template taken apart;
* `parameterKey`, `fill`, `expand`, `unbound`.
-/

namespace ObjectGraph.Template

/-- A part of a template. -/
inductive Piece where
  | text (cs : List Char)
  | slot (name : List Char)
  deriving DecidableEq, Repr

/-- The parts of a template. The state says whether an opening brace was the last brace, and what has
come since, in reverse. -/
def scan : Option (List Char) → List Char → List Piece
  | none, [] => []
  | some run, [] => [.text ('\x7b' :: run.reverse)]
  | none, c :: cs => if c = '\x7b' then scan (some []) cs else .text [c] :: scan none cs
  | some run, c :: cs =>
      if c = '\x7b' then .text ('\x7b' :: run.reverse) :: scan (some []) cs
      else if c = '\x7d' then
        (match run with
          | [] => .text ['\x7b', '\x7d']
          | _ => .slot run.reverse) :: scan none cs
      else scan (some (c :: run)) cs

/-- The parts of a template. -/
def pieces (cs : List Char) : List Piece := scan none cs

/-- The key of the parameter that a name means: with a dollar sign, whether it is written or not. -/
def parameterKey (name : String) : String :=
  if name.toList.head? = some '$' then name else "$" ++ name

/-- The text of a parameter, by the name in a place. -/
def lookup? (h : Heap) (context : Params) (name : List Char) : Option String :=
  (context.lookup (parameterKey (String.ofList (Text.trim name)))).bind (·.display? h)

/-- A part with its place filled; a place without text is filled with nothing. -/
def fill (h : Heap) (context : Params) : Piece → List Char
  | .text cs => cs
  | .slot name => ((lookup? h context name).getD "").toList

/-- The text of a template. -/
def expand (h : Heap) (context : Params) (template : String) : String :=
  String.ofList ((pieces template.toList).flatMap (fill h context))

/-- The trimmed names of the places that have no text, in order. -/
def unbound (h : Heap) (context : Params) (template : String) : List String :=
  (pieces template.toList).filterMap fun p =>
    match p with
    | .text _ => none
    | .slot name =>
        match lookup? h context name with
        | some _ => none
        | none => some (String.ofList (Text.trim name))

end ObjectGraph.Template
