import ObjectGraph.Log.Pattern.Item

/-!
# `Log.Pattern.CharacterSet` — sets of characters between brackets

A set lists characters, ranges of them, classes and further sets, and may be combined with others by
intersection, difference and symmetric difference. What counts of a set is where it ends and how
deep it is. The set of all other characters needs characters of all scripts to choose from: of
octets alone, it would hold some that are no text.

Contents:
* `namedClass?`, `member?`, `range?`: the items of a set;
* `OpenSet`, `setOpened?`, `set?`: sets inside sets.
-/

namespace ObjectGraph.Log.Pattern

/-! ## Items of a set -/

/-- The names of the classes that may stand in a set between colons. -/
def namedClasses : List String :=
  ["alnum", "alpha", "ascii", "blank", "cntrl", "digit", "graph", "lower", "print", "punct", "space",
   "upper", "word", "xdigit"]

/-- A class between colons, after its opening bracket: whether all other characters are meant, and
what follows it. -/
def namedClass? (cs : List Char) : Option (Bool × List Char) :=
  match cs with
  | ':' :: rest =>
      let negated := rest.head? = some '^'
      let rest := if negated then rest.drop 1 else rest
      match rest.dropWhile (· != ':') with
      | ':' :: ']' :: after =>
          if namedClasses.contains (String.ofList (rest.takeWhile (· != ':'))) then
            some (negated, after)
          else none
      | _ => none
  | _ => none

/-- One item of a set. -/
def member? (m : Mode) (cs : List Char) : Option (Item × List Char) :=
  let found := match cs with
    | '\\' :: rest => escape? m rest
    | c :: rest => some (.character c, rest)
    | [] => none
  match found with
  | some (.character c, rest) => if m.allows c then some (.character c, rest) else none
  | some (.oneOf, rest) => some (.oneOf, rest)
  | _ => none

/-- The first character that counts. A comment is not looked through: of a second one, or of its
text, the first character is what is found. -/
def Mode.ahead (m : Mode) (cs : List Char) : Option Char :=
  if m.spaced then
    match cs.dropWhile Text.isBlank with
    | '#' :: rest => (rest.dropWhile Text.isBlank).head?
    | rest => rest.head?
  else cs.head?

/-- An item of a set, or a range of them. A minus sign before a closing bracket or another minus sign
makes no range, and is left where it stands. -/
def range? (m : Mode) (cs : List Char) : Option (List Char) := do
  let (low, rest) ← member? m cs
  match m.skip rest with
  | '-' :: more =>
      if m.ahead more = some ']' ∨ m.ahead more = some '-' then pure ('-' :: more)
      else
        match low, ← member? m (m.skip more) with
        | .character a, (.character b, rest) => if a ≤ b then pure rest else none
        | _, _ => none
  | rest => pure rest

/-! ## Sets inside sets -/

/-- A set whose closing bracket has not come yet. -/
structure OpenSet where
  /-- The depths of its items since the last operation. -/
  items : List Nat := []
  /-- The depth of what stands left of that operation. -/
  left : Option Nat := none
  deriving DecidableEq, Repr

/-- The depth of what a set holds. -/
def OpenSet.depth (s : OpenSet) : Nat :=
  match s.left with
  | none => joined s.items
  | some d => max d (joined s.items) + 1

/-- After one more item. -/
def OpenSet.past (s : OpenSet) (depth : Nat) : OpenSet := { s with items := depth :: s.items }

/-- After an operation: all so far is on its left. -/
def OpenSet.operated (s : OpenSet) : OpenSet := { left := some s.depth }

/-- The minus signs a set begins with, which stand for themselves: how many they are and what follows
them; `n` bounds their number. -/
def signs (m : Mode) : Nat → List Char → Nat × List Char
  | 0, cs => (0, cs)
  | n + 1, cs =>
      match m.skip cs with
      | '-' :: rest =>
          let (count, rest) := signs m n rest
          (count + 1, rest)
      | rest => (0, rest)

/-- A set that opens here, after its bracket: a mark for all other characters, and signs that stand
for themselves at this place. -/
def setOpened? (m : Mode) (cs : List Char) : Option (OpenSet × List Char) :=
  let (negated, rest) := match m.skip cs with
    | '^' :: rest => (true, rest)
    | rest => (false, rest)
  if negated ∧ !m.unicode then none
  else
    match signs m rest.length rest with
    | (0, ']' :: rest) => some (({} : OpenSet).past 0, rest)
    | (count, rest) => some ({ items := List.replicate count 0 }, rest)

/-- The end of a set, given the sets that are open, the innermost apart: how deep the outermost is
and what follows it; `n` bounds how many items there are. -/
def setEnd? (m : Mode) : Nat → OpenSet → List OpenSet → List Char → Option (Nat × List Char)
  | 0, _, _, _ => none
  | n + 1, s, outer, cs =>
      match m.skip cs with
      | '[' :: rest =>
          match namedClass? rest with
          | some (negated, rest) =>
              if negated ∧ !m.unicode then none else setEnd? m n (s.past 0) outer rest
          | none => (setOpened? m rest).bind fun (t, rest) => setEnd? m n t (s :: outer) rest
      | ']' :: rest =>
          match outer with
          | [] => some (s.depth + 1, rest)
          | t :: outer => setEnd? m n (t.past (s.depth + 1)) outer rest
      | '&' :: '&' :: rest => setEnd? m n s.operated outer rest
      | '-' :: '-' :: rest => setEnd? m n s.operated outer rest
      | '~' :: '~' :: rest => setEnd? m n s.operated outer rest
      | rest => (range? m rest).bind (setEnd? m n (s.past 0) outer)

/-- A set, after its opening bracket: how deep it is and what follows it. -/
def set? (m : Mode) (cs : List Char) : Option (Nat × List Char) :=
  (setOpened? m cs).bind fun (s, rest) => setEnd? m (cs.length + 1) s [] rest

end ObjectGraph.Log.Pattern
