import ObjectGraph.Text.Octets
import ObjectGraph.Text.Printable

/-!
# `Text.Quoted` — quoted text for diagnostics

A text in double quotes, in which a quote and a backslash are escaped, the usual controls have
their letter, and every other hidden character is written by its number, `\u{…}`.

Contents:
* `quoteChar`, `quote`; `quoteRow`, several texts.
-/

namespace ObjectGraph.Text

/-- A number in hexadecimal digits, without capitals. -/
def hexNumber (n : Nat) : List Char := Nat.toDigits 16 n

/-- How one character stands in a quoted text. -/
def quoteChar (c : Char) : List Char :=
  if c = '"' then ['\\', '"']
  else if c = '\\' then ['\\', '\\']
  else if c = '\n' then ['\\', 'n']
  else if c = '\r' then ['\\', 'r']
  else if c = '\t' then ['\\', 't']
  else if c.toNat = 0 then ['\\', '0']
  else if isHidden c then '\\' :: 'u' :: '\x7b' :: hexNumber c.toNat ++ ['\x7d']
  else [c]

/-- A text in quotes. -/
def quote (s : String) : String :=
  String.ofList ('"' :: s.toList.flatMap quoteChar ++ ['"'])

/-- A row of texts in quotes, between brackets. -/
def quoteRow (texts : List String) : String := "[" ++ String.intercalate ", " (texts.map quote) ++ "]"

end ObjectGraph.Text
