import ObjectGraph.Text.Blank
import ObjectGraph.Text.Octets

/-!
# `Log.Pattern.Item` — the single places of a regular expression

An item stands for one character, for one of a class, or for a place between two characters. How it
is read depends on the flags in force, the `Mode`: a flag may take back the characters of all
scripts, so that classes mean octets, and one lets blanks and comments count for nothing.

Contents:
* `Mode`, `Mode.skip`, `Mode.allows`;
* `Item`, `escape?`: items and their escaped spellings;
* `joined`: how deep parts put together are.
-/

namespace ObjectGraph.Log.Pattern

/-! ## Modes -/

/-- How an expression is read; flags inside it may change that. -/
structure Mode where
  /-- Classes and boundaries mean characters of all scripts, not single octets. -/
  unicode : Bool := true
  /-- Blanks and comments do not count. -/
  spaced : Bool := false
  deriving DecidableEq, Repr

/-- What follows blanks and comments, where they do not count; `n` bounds how many there are. -/
def skipSpaces : Nat → List Char → List Char
  | 0, cs => cs
  | n + 1, cs =>
      match cs.dropWhile Text.isBlank with
      | '#' :: rest => skipSpaces n (rest.dropWhile (· != '\n'))
      | rest => rest

/-- What is read next. -/
def Mode.skip (m : Mode) (cs : List Char) : List Char :=
  if m.spaced then skipSpaces (cs.length + 1) cs else cs

/-- A character is a single octet, or more than one is allowed. -/
def Mode.allows (m : Mode) (c : Char) : Bool := m.unicode || c.toNat < 128

/-! ## Escapes -/

/-- What a single place of an expression stands for. -/
inductive Item where
  | character (c : Char)
  /-- A class of characters, such as the digits. -/
  | oneOf
  /-- The beginning or the end of the text. -/
  | edge
  /-- The boundary of a word. -/
  | boundary
  deriving DecidableEq, Repr

/-- A character given by a fixed number of hexadecimal digits. -/
def numbered? (m : Mode) : Nat → Nat → List Char → Option (Char × List Char)
  | acc, 0, cs => if acc.isValidChar then some (Char.ofNat acc, cs) else none
  | acc, n + 1, cs =>
      match m.skip cs with
      | c :: rest => (Text.hexValue? c).bind fun d => numbered? m (16 * acc + d) n rest
      | [] => none

/-- The general categories of characters that have one letter. -/
def categories : List Char := ['C', 'L', 'M', 'N', 'P', 'S', 'Z']

/-- A category after its mark; long names would need braces. -/
def category? (m : Mode) (cs : List Char) : Option (Item × List Char) :=
  match m.skip cs with
  | c :: rest => if m.unicode ∧ categories.contains c.toUpper then some (.oneOf, rest) else none
  | [] => none

/-- An item after a backslash. -/
def escape? (m : Mode) : List Char → Option (Item × List Char)
  | [] => none
  | c :: rest =>
      match c with
      -- two digits give an octet, and beyond ASCII a single octet is no text
      | 'x' => (numbered? m 0 2 rest).bind fun (c, rest) =>
          if m.allows c then some (.character c, rest) else none
      | 'u' => (numbered? m 0 4 rest).map fun (c, rest) => (.character c, rest)
      | 'U' => (numbered? m 0 8 rest).map fun (c, rest) => (.character c, rest)
      | 'p' | 'P' => category? m rest
      | 'd' | 's' | 'w' => some (.oneOf, rest)
      -- without the characters of all scripts the rest of a class is octets
      | 'D' | 'S' | 'W' => if m.unicode then some (.oneOf, rest) else none
      | 'a' => some (.character (Char.ofNat 7), rest)
      | 'f' => some (.character (Char.ofNat 12), rest)
      | 't' => some (.character '\t', rest)
      | 'n' => some (.character '\n', rest)
      | 'r' => some (.character '\r', rest)
      | 'v' => some (.character (Char.ofNat 11), rest)
      | 'A' | 'z' => some (.edge, rest)
      | 'b' => if rest.head? = some '\x7b' then none else some (.boundary, rest)
      | 'B' | '<' | '>' => some (.boundary, rest)
      | _ => if c.toNat < 128 ∧ !c.isAlphanum then some (.character c, rest) else none

/-! ## Depth -/

/-- How deep parts put together are, by their own depths: a part alone stands for itself, and more
of them are one level above the deepest. -/
def joined : List Nat → Nat
  | [] => 0
  | [d] => d
  | ds => ds.foldr max 0 + 1

end ObjectGraph.Log.Pattern
