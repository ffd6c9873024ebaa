import ObjectGraph.Json

/-!
# `Json.Printer` — the text of JSON data

Two layouts: compact, without any blank, and pretty, with one member or item a line and two spaces
of indentation. In strings a quote, a backslash and the control characters are escaped, the usual
ones with their letter; everything else stands for itself.

Contents:
* `escape`, `quote`: the text of a string;
* `compact`, `pretty`.
-/

namespace ObjectGraph.Json

/-- How one character is written inside a string. -/
def escape (c : Char) : List Char :=
  if c = '"' then ['\\', '"']
  else if c = '\\' then ['\\', '\\']
  else if c = '\n' then ['\\', 'n']
  else if c = '\r' then ['\\', 'r']
  else if c = '\t' then ['\\', 't']
  else if c.toNat = 8 then ['\\', 'b']
  else if c.toNat = 12 then ['\\', 'f']
  else if c.toNat < 32 then
    ['\\', 'u', '0', '0', Nat.digitChar (c.toNat / 16), Nat.digitChar (c.toNat % 16)]
  else [c]

/-- The text of a string, with its quotes. -/
def quote (s : String) : List Char := '"' :: s.toList.flatMap escape ++ ['"']

mutual

/-- The text of data, without blanks. -/
def write : Json → List Char
  | .null => ['n', 'u', 'l', 'l']
  | .bool true => ['t', 'r', 'u', 'e']
  | .bool false => ['f', 'a', 'l', 's', 'e']
  | .number n => n.text.toList
  | .string s => quote s
  | .array items => '[' :: writeItems items ++ [']']
  | .object members => '\x7b' :: writeMembers members ++ ['\x7d']

/-- The items of a row with commas between them. -/
def writeItems : List Json → List Char
  | [] => []
  | [j] => write j
  | j :: js => write j ++ ',' :: writeItems js

/-- The members of an object with commas between them. -/
def writeMembers : List (String × Json) → List Char
  | [] => []
  | [(k, j)] => quote k ++ ':' :: write j
  | (k, j) :: ms => quote k ++ ':' :: write j ++ ',' :: writeMembers ms

end

/-- The text of data, without blanks. -/
def compact (j : Json) : String := String.ofList j.write

/-- A new line at some depth. -/
def newline (depth : Nat) : List Char := '\n' :: List.replicate (2 * depth) ' '

mutual

/-- The text of data at some depth, a line for each item and member. -/
def writePretty (depth : Nat) : Json → List Char
  | .array [] => ['[', ']']
  | .array (j :: js) => '[' :: writePrettyItems (depth + 1) (j :: js) ++ newline depth ++ [']']
  | .object [] => ['\x7b', '\x7d']
  | .object (m :: ms) =>
      '\x7b' :: writePrettyMembers (depth + 1) (m :: ms) ++ newline depth ++ ['\x7d']
  | .null => write .null
  | .bool b => write (.bool b)
  | .number n => write (.number n)
  | .string s => write (.string s)

/-- The items of a row, each on its line. -/
def writePrettyItems (depth : Nat) : List Json → List Char
  | [] => []
  | [j] => newline depth ++ writePretty depth j
  | j :: js => newline depth ++ writePretty depth j ++ ',' :: writePrettyItems depth js

/-- The members of an object, each on its line. -/
def writePrettyMembers (depth : Nat) : List (String × Json) → List Char
  | [] => []
  | [(k, j)] => newline depth ++ quote k ++ [':', ' '] ++ writePretty depth j
  | (k, j) :: ms =>
      newline depth ++ quote k ++ [':', ' '] ++ writePretty depth j
        ++ ',' :: writePrettyMembers depth ms

end

/-- The text of data, a line for each item and member, indented by two spaces. -/
def pretty (j : Json) : String := String.ofList (j.writePretty 0)

end ObjectGraph.Json
