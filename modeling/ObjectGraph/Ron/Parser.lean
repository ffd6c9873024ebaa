import ObjectGraph.Json
import ObjectGraph.Ron.Token

/-!
# `Ron.Parser` — documents in RON

Every value of the notation has a counterpart in raw data: a structure becomes an object, a tuple an
array, an optional value what it holds or null, a name null, and a character a text. Numbers that are
infinite or undefined become null.

Contents:
* `Extensions`, `attributes?`: what a document may ask for;
* `elements?`, `entries?`: what stands in brackets of each kind;
* `Shape`, `shapeAfter?`, `heldShape?`: what stands in round brackets;
* `optional?`, `structure?`, `plain?`: values of each kind, and `Below`, the readers of their parts;
* `value?`, `parse?`.
-/

namespace ObjectGraph.Ron

/-! ## Attributes -/

/-- What a document asks for beyond the plain notation. -/
structure Extensions where
  /-- The brackets after `Some` may be left out. -/
  implicitSome : Bool := false
  /-- The brackets after `Some` may be those of a tuple or of named fields as well. -/
  unwrapVariants : Bool := false
  deriving DecidableEq, Repr

/-- The extensions with one more, by its name. -/
def Extensions.enable? (e : Extensions) (name : String) : Option Extensions :=
  if name = "implicit_some" then some { e with implicitSome := true }
  else if name = "unwrap_variant_newtypes" then some { e with unwrapVariants := true }
  -- these two concern structures of a known type, which raw data does not have
  else if name = "unwrap_newtypes" ∨ name = "explicit_struct_names" then some e
  else none

/-- What follows each of some words, with blanks after each. -/
def words? : List String → List Char → Option (List Char)
  | [], cs => some cs
  | w :: ws, cs =>
      if w.toList.isPrefixOf cs then (skipBlank (cs.drop w.length)).bind (words? ws) else none

/-- A row of extension names; `n` bounds how many there are. -/
def extensionNames? (e : Extensions) : Nat → Reader Extensions
  | 0, _ => none
  | n + 1, cs => do
      let (name, rest) ← fieldName? cs
      let e ← e.enable? name
      let (more, rest) ← comma? rest
      match more, rest with
      | true, c :: cs => if opensName c then extensionNames? e n (c :: cs) else some (e, c :: cs)
      | _, _ => some (e, rest)

/-- The extensions a document asks for, row by row; `n` bounds how many rows there are. -/
def attributes? (e : Extensions) : Nat → Reader Extensions
  | 0, cs => some (e, cs)
  | n + 1, cs =>
      match cs with
      | '#' :: _ => do
          let rest ← words? ["#", "!", "[", "enable", "("] cs
          let (e, rest) ← extensionNames? e (rest.length + 1) rest
          let rest ← words? [")", "]"] (← skipBlank rest)
          attributes? e n rest
      | _ => some (e, cs)

/-! ## Rows in brackets -/

/-- Elements up to the closing bracket, with commas between them; `n` bounds how many there are. -/
def elements? (close : Char) (one : Reader Json) (done : List Json) : Nat → Reader (List Json)
  | 0, _ => none
  | n + 1, cs =>
      match skipBlank cs with
      | none => none
      | some [] => none
      | some (c :: rest) =>
          if c = close then some (done.reverse, rest)
          else do
            let (j, rest) ← one (c :: rest)
            let (more, rest) ← comma? rest
            if more then elements? close one (j :: done) n rest
            else match rest with
              | d :: rest => if d = close then pure ((j :: done).reverse, rest) else none
              | [] => none

/-- A key, a colon and a value. -/
def entry? (key : Reader String) (one : Reader Json) (cs : List Char) :
    Option ((String × Json) × List Char) := do
  let (k, rest) ← key cs
  match ← skipBlank rest with
  | ':' :: rest =>
      let (j, rest) ← one (← skipBlank rest)
      pure ((k, j), rest)
  | _ => none

/-- Entries up to the closing bracket, with commas between them; `n` bounds how many there are. -/
def entries? (close : Char) (key : Reader String) (one : Reader Json) (done : List (String × Json)) :
    Nat → Reader (List (String × Json))
  | 0, _ => none
  | n + 1, cs =>
      match skipBlank cs with
      | none => none
      | some [] => none
      | some (c :: rest) =>
          if c = close then some (done.reverse, rest)
          else do
            let (e, rest) ← entry? key one (c :: rest)
            let (more, rest) ← comma? rest
            if more then entries? close key one (e :: done) n rest
            else match rest with
              | d :: rest => if d = close then pure ((e :: done).reverse, rest) else none
              | [] => none

/-! ## Round brackets -/

/-- What may stand in round brackets: nothing, one value, named fields, or a tuple. -/
inductive Shape where
  | unit
  | value
  | fields
  | tuple
  deriving DecidableEq, Repr

/-- What stands at some characters: nothing in round brackets, named fields in them, or a tuple. -/
def shapeAfter? : List Char → Option Shape
  | '(' :: cs => do
      match ← skipBlank cs with
      -- empty brackets count as a tuple without elements
      | ')' :: _ => pure .tuple
      | rest =>
          match identifier? rest with
          | some (_, rest) =>
              match ← skipBlank rest with
              | ':' :: _ => pure .fields
              | _ => pure .tuple
          | none => pure .tuple
  | _ => some .unit

/-- One value or a tuple, up to a closing round bracket. -/
def valueOrTuple? (cs : List Char) : Option Shape :=
  (goesOn? (cs.length + 1) 1 cs).map fun more => if more then .tuple else .value

/-- What stands in round brackets that hold one value or serve as the brackets of that value. -/
def innerShape? (cs : List Char) : Option Shape :=
  match identifier? cs with
  | some (_, rest) => do
      match ← skipBlank rest with
      | ':' :: _ => pure .fields
      | rest => valueOrTuple? rest
  | none => valueOrTuple? cs

/-- What stands in the brackets of an optional value. -/
def heldShape? (e : Extensions) (cs : List Char) : Option Shape :=
  if !e.unwrapVariants then some .value
  else match cs with
    | ')' :: _ => some .unit
    | _ => innerShape? cs

/-! ## Values -/

/-- A value without parts. -/
def atom? (cs : List Char) : Option (Json × List Char) :=
  match keyword? "true" cs, keyword? "false" cs, keyword? "None" cs with
  | some rest, _, _ => some (.bool true, rest)
  | _, some rest, _ => some (.bool false, rest)
  | _, _, some rest => some (.null, rest)
  | none, none, none =>
      if ['(', ')'].isPrefixOf cs then some (.null, cs.drop 2)
      else (["inf", "inff32", "inff64", "NaN", "NaNf32", "NaNf64"].findSome? (keyword? · cs)).map
        fun rest => (.null, rest)

/-- The readers of values one, two, … steps further down, as long as steps are left. A bracket is one
step down, and each of its elements another; what an optional value holds is one step down. -/
abbrev Below := List (Reader Json)

/-- The reader of the elements of a bracket, if one may still be opened. -/
def Below.elements? (below : Below) : Option (Reader Json) :=
  match below with
  | [] => none
  | _ :: deeper => some (deeper.headD fun _ => none)

/-- Named fields up to the round bracket that closes them. -/
def fields? (below : Below) (cs : List Char) : Option (Json × List Char) := do
  let one ← below.elements?
  let (members, rest) ← entries? ')' fieldName? one [] (cs.length + 1) cs
  pure (.object (Table.ofPairs members), rest)

/-- A tuple up to the round bracket that closes it. -/
def tuple? (below : Below) (cs : List Char) : Option (Json × List Char) := do
  let one ← below.elements?
  let (items, rest) ← elements? ')' one [] (cs.length + 1) cs
  pure (.array items, rest)

/-- What stands in round brackets after a name, or without one. -/
def structure? (below : Below) (cs : List Char) : Option (Json × List Char) := do
  match ← shapeAfter? cs with
  | .unit => pure (.null, cs)
  | .fields => fields? below (cs.drop 1)
  | _ => tuple? below (cs.drop 1)

/-- What an optional value holds, from its opening bracket on up to the closing one. -/
def held? (e : Extensions) (below : Below) (cs : List Char) : Option (Json × List Char) := do
  let one ← below.head?
  match ← heldShape? e cs with
  | .unit => pure (.null, cs.drop 1)
  | .fields => fields? below.tail cs
  | .tuple => tuple? below.tail cs
  | .value =>
      let (j, rest) ← one cs
      let (_, rest) ← comma? rest
      match rest with
      | ')' :: rest => pure (j, rest)
      | _ => none

/-- An optional value, after its name. -/
def optional? (e : Extensions) (below : Below) (cs : List Char) : Option (Json × List Char) := do
  match ← skipBlank cs with
  | '(' :: rest => held? e below (← skipBlank rest)
  | rest => if e.implicitSome then (← below.head?) rest else none

/-- A value that begins with a punctuation mark, a digit or a quote. -/
def plain? (below : Below) (cs : List Char) : Option (Json × List Char) :=
  match cs with
  | [] => none
  | '(' :: _ => structure? below cs
  | '[' :: rest => do
      let (items, rest) ← elements? ']' (← below.elements?) [] (cs.length + 1) rest
      pure (.array items, rest)
  | '\x7b' :: rest => do
      let (members, rest) ← entries? '\x7d' string? (← below.elements?) [] (cs.length + 1) rest
      pure (.object (Table.ofPairs members), rest)
  | '\'' :: _ => (character? cs).map fun r => (.string (String.singleton r.1), r.2)
  | 'b' :: _ => (byte? cs).map fun r => (.number (Number.ofInt r.1), r.2)
  | c :: _ =>
      if c.isDigit || c == '+' || c == '-' || c == '.' then
        (number? cs).map fun r => (match r.1 with
          | some n => .number n
          | none => .null, r.2)
      else (string? cs).map fun r => (.string r.1, r.2)

/-- A value, given the readers of what it may hold. -/
def valueWith (e : Extensions) (below : Below) (cs : List Char) : Option (Json × List Char) :=
  match atom? cs with
  | some r => some r
  | none =>
      match keyword? "Some" cs, identifier? cs with
      | some rest, _ => optional? e below rest
      -- the name of a structure is not kept
      | none, some (_, rest) => (skipBlank rest).bind (structure? below)
      | none, none => plain? below cs

/-- The readers of values inside which `limit - 1`, …, 1, 0 more steps down may be taken. -/
def readers (e : Extensions) : (limit : Nat) → Below
  | 0 => []
  | n + 1 =>
      let below := readers e n
      valueWith e below :: below

/-- A value inside which `limit` more steps down may be taken. -/
def value? (e : Extensions) (limit : Nat) : Reader Json := valueWith e (readers e limit)

/-- How many steps down a document may take. -/
def depthLimit : Nat := 128

/-- Reads a document. -/
def parse? (text : String) : Option Json := do
  let cs ← skipBlank text.toList
  let (e, cs) ← attributes? {} (cs.length + 1) cs
  let (j, rest) ← value? e depthLimit cs
  match ← skipBlank rest with
  | [] => pure j
  | _ => none

end ObjectGraph.Ron
