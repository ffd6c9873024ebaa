import ObjectGraph.Json
import ObjectGraph.Text.Octets

/-!
# `Json.Parser` — reading JSON text

The reader works on the characters that are left. A failure says what is wrong and where: the
characters left at that point, and how many octets past it the fault lies; the line and the column,
counted in octets, follow from the text (`Failure.position`).

Numbers that are not plain whole numbers of 64 bits are read in floating point: as many digits as
fit 64 bits are gathered, the rest only move the exponent, and the gathered number is multiplied or
divided once by a power of ten. Containers nest at most 127 deep.

Contents:
* `Problem`, `Failure`, `SyntaxError`;
* `readNumber`, `readText`, `readValue`: readers that return what they read and what is left;
* `parse`, which reads a whole document.
-/

namespace ObjectGraph.Json

/-- What is wrong with a JSON text. -/
inductive Problem where
  | endInList | endInObject | endInString | endInValue
  | expectedColon | expectedListEnd | expectedObjectEnd | expectedIdent | expectedValue
  | invalidEscape | invalidNumber | numberTooLarge
  | controlCharacter | keyNotString | loneSurrogate | brokenSurrogatePair
  | trailingComma | trailingCharacters | tooDeep
  deriving DecidableEq, Repr

/-- The wording of a problem. -/
def Problem.message : Problem → String
  | .endInList => "EOF while parsing a list"
  | .endInObject => "EOF while parsing an object"
  | .endInString => "EOF while parsing a string"
  | .endInValue => "EOF while parsing a value"
  | .expectedColon => "expected `:`"
  | .expectedListEnd => "expected `,` or `]`"
  | .expectedObjectEnd => "expected `,` or `\x7d`"
  | .expectedIdent => "expected ident"
  | .expectedValue => "expected value"
  | .invalidEscape => "invalid escape"
  | .invalidNumber => "invalid number"
  | .numberTooLarge => "number out of range"
  | .controlCharacter => "control character (\\u0000-\\u001F) found while parsing a string"
  | .keyNotString => "key must be a string"
  | .loneSurrogate => "lone leading surrogate in hex escape"
  | .brokenSurrogatePair => "unexpected end of hex escape"
  | .trailingComma => "trailing comma"
  | .trailingCharacters => "trailing characters"
  | .tooDeep => "recursion limit exceeded"

/-- A failure: what is wrong, what was left, and how many octets further the fault lies. -/
structure Failure where
  problem : Problem
  rest : List Char
  past : Nat
  deriving DecidableEq, Repr

/-- A fault in front of what is left. -/
def failAt {α : Type} (problem : Problem) (rest : List Char) : Except Failure α :=
  .error ⟨problem, rest, 0⟩

/-- A fault at the next octet, if there is one. -/
def failNext {α : Type} (problem : Problem) (rest : List Char) : Except Failure α :=
  .error ⟨problem, rest, if rest.isEmpty then 0 else 1⟩

/-- Blanks between tokens. -/
def isSpace (c : Char) : Bool := c == ' ' || c == '\n' || c == '\t' || c == '\r'

/-- What is left after blanks. -/
def skipSpace (cs : List Char) : List Char := cs.dropWhile isSpace

/-! ## Numbers -/

/-- The value of a digit. -/
def digitValue (c : Char) : Nat := c.toNat - 48

/-- Gathers digits while the number stays below `2 ^ 64`; returns it, how many digits it took, and
what is left. -/
def gather (n count : Nat) : List Char → Nat × Nat × List Char
  | [] => (n, count, [])
  | c :: cs =>
      if c.isDigit && 10 * n + digitValue c < Nat.pow 2 64 then
        gather (10 * n + digitValue c) (count + 1) cs
      else (n, count, c :: cs)

/-- The power of ten that scaling uses. -/
def powerOfTen (n : Nat) : Binary64 := (Binary64.ofDecimal? .double false 1 n).getD (Binary64.zero false)

/-- `x · 10 ^ exponent`, by one multiplication or as few divisions as the range of powers allows;
`none` if it is too large. -/
def scale? (x : Binary64) (exponent : Int) : Nat → Option Binary64
  | 0 => some (Binary64.zero false)
  | n + 1 =>
      if exponent.natAbs ≤ 308 then
        if 0 ≤ exponent then x.mul? (powerOfTen exponent.natAbs)
        else x.div? (powerOfTen exponent.natAbs)
      else if x.isZero then some x
      else if 0 ≤ exponent then none
      else match x.div? (powerOfTen 308) with
        | some y => scale? y (exponent + 308) n
        | none => none

/-- The floating point number `± significand · 10 ^ exponent`. -/
def floating (positive : Bool) (significand : Nat) (exponent : Int) (rest : List Char) :
    Except Failure (Number × List Char) :=
  match scale? (Binary64.ofInt significand) exponent 8 with
  | some x => .ok (.float (if positive then x else x.neg), rest)
  | none => failAt .numberTooLarge rest

/-- The digits of an exponent, after its first. Exponents beyond 31 bits are zero or too large. -/
def exponentDigits (positive : Bool) (significand : Nat) (start : Int) (up : Bool) (n : Nat) :
    List Char → Except Failure (Number × List Char)
  | [] => floating positive significand (if up then start + n else start - n) []
  | c :: cs =>
      if c.isDigit then
        let m := 10 * n + digitValue c
        if m < Nat.pow 2 31 then exponentDigits positive significand start up m cs
        -- beyond 31 bits nothing but the sign of the exponent matters
        else if significand ≠ 0 && up then failAt .numberTooLarge cs
        else .ok (.float (Binary64.zero (!positive)), cs.dropWhile Char.isDigit)
      else floating positive significand (if up then start + n else start - n) (c :: cs)

/-- An exponent, after its letter. -/
def exponent (positive : Bool) (significand : Nat) (start : Int) (rest : List Char) :
    Except Failure (Number × List Char) :=
  let (up, rest) := match rest with
    | '+' :: cs => (true, cs)
    | '-' :: cs => (false, cs)
    | _ => (true, rest)
  match rest with
  | [] => failAt .endInValue []
  | c :: cs =>
      if c.isDigit then exponentDigits positive significand start up (digitValue c) cs
      else failNext .invalidNumber rest

/-- An exponent, if one is there. -/
def maybeExponent (positive : Bool) (significand : Nat) (start : Int) (rest : List Char) :
    Except Failure (Number × List Char) :=
  match rest with
  | 'e' :: cs => exponent positive significand start cs
  | 'E' :: cs => exponent positive significand start cs
  | _ => floating positive significand start rest

/-- The digits after a decimal point. -/
def fraction (positive : Bool) (significand : Nat) (start : Int) (rest : List Char) :
    Except Failure (Number × List Char) :=
  let (n, count, rest) := gather significand 0 rest
  match rest with
  | [] => if count = 0 then failNext .endInValue [] else floating positive n (start - count) []
  | c :: cs =>
      if c.isDigit then
        maybeExponent positive n (start - count) ((c :: cs).dropWhile Char.isDigit)
      else if count = 0 then failNext .invalidNumber (c :: cs)
      else maybeExponent positive n (start - count) (c :: cs)

/-- What follows whole digits that fit 64 bits. -/
def afterWhole (positive : Bool) (n : Nat) (rest : List Char) : Except Failure (Number × List Char) :=
  match rest with
  | '.' :: cs => fraction positive n 0 cs
  | 'e' :: cs => exponent positive n 0 cs
  | 'E' :: cs => exponent positive n 0 cs
  | _ =>
      if positive then .ok (Number.ofInt n, rest)
      -- only floating point knows minus zero, and what lies below 64 signed bits
      else if n = 0 ∨ Nat.pow 2 63 < n then .ok (.float (Binary64.ofInt n).neg, rest)
      else .ok (Number.ofInt (-n), rest)

/-- What follows whole digits that do not fit 64 bits: the digits left only move the exponent. -/
def afterLongWhole (positive : Bool) (n : Nat) (rest : List Char) : Except Failure (Number × List Char) :=
  let more := (rest.takeWhile Char.isDigit).length
  match rest.dropWhile Char.isDigit with
  | '.' :: cs => fraction positive n more cs
  | 'e' :: cs => exponent positive n more cs
  | 'E' :: cs => exponent positive n more cs
  | rest => floating positive n more rest

/-- A number, after its sign. -/
def readNumber (positive : Bool) (rest : List Char) : Except Failure (Number × List Char) :=
  match rest with
  | [] => failAt .endInValue []
  | '0' :: cs =>
      -- no digit follows a leading zero
      if (cs.head?.map Char.isDigit).getD false then failNext .invalidNumber cs
      else afterWhole positive 0 cs
  | c :: cs =>
      if c.isDigit then
        let (n, _, rest) := gather (digitValue c) 0 cs
        if (rest.head?.map Char.isDigit).getD false then afterLongWhole positive n rest
        else afterWhole positive n rest
      else failNext .invalidNumber rest

/-! ## Strings -/

/-- Four hexadecimal digits. -/
def fourHex (rest : List Char) : Except Failure (Nat × List Char) :=
  -- four octets are taken before any of them is looked at
  if Text.octetCount rest < 4 then failAt .endInString []
  else match rest with
    | a :: b :: c :: d :: cs =>
        match Text.hexValue? a, Text.hexValue? b, Text.hexValue? c, Text.hexValue? d with
        | some w, some x, some y, some z => .ok (((w * 16 + x) * 16 + y) * 16 + z, cs)
        | _, _, _, _ => .error ⟨.invalidEscape, rest, 4⟩
    | _ => .error ⟨.invalidEscape, rest, 4⟩

/-- The second half of a surrogate pair. -/
def lowSurrogate (high : Nat) (rest : List Char) : Except Failure (Char × List Char) :=
  match rest with
  | [] => failAt .endInString []
  | '\\' :: cs =>
      match cs with
      | [] => failAt .endInString []
      | 'u' :: ds => do
          let (low, es) ← fourHex ds
          if 0xDC00 ≤ low ∧ low ≤ 0xDFFF then
            pure (Char.ofNat ((high - 0xD800) * 1024 + (low - 0xDC00) + 0x10000), es)
          else failAt .loneSurrogate es
      | _ => failNext .brokenSurrogatePair cs
  | _ => failNext .brokenSurrogatePair rest

/-- A character written by its number. -/
def unicodeEscape (rest : List Char) : Except Failure (Char × List Char) := do
  let (n, cs) ← fourHex rest
  if 0xDC00 ≤ n ∧ n ≤ 0xDFFF then failAt .loneSurrogate cs
  else if 0xD800 ≤ n ∧ n ≤ 0xDBFF then lowSurrogate n cs
  else pure (Char.ofNat n, cs)

/-- The character that an escape stands for, after its backslash. -/
def escaped (rest : List Char) : Except Failure (Char × List Char) :=
  match rest with
  | [] => failAt .endInString []
  | c :: cs =>
      if c = '"' ∨ c = '\\' ∨ c = '/' then .ok (c, cs)
      else if c = 'b' then .ok (Char.ofNat 8, cs)
      else if c = 'f' then .ok (Char.ofNat 12, cs)
      else if c = 'n' then .ok ('\n', cs)
      else if c = 'r' then .ok ('\r', cs)
      else if c = 't' then .ok ('\t', cs)
      else if c = 'u' then unicodeEscape cs
      else failNext .invalidEscape rest

/-- The characters of a string up to its closing quote; `n` bounds how many steps it takes. -/
def stringBody (done : List Char) : Nat → List Char → Except Failure (String × List Char)
  | 0, rest => failAt .endInString rest
  | _, [] => failAt .endInString []
  | n + 1, c :: cs =>
      if c = '"' then .ok (String.ofList done.reverse, cs)
      else if c = '\\' then do
        let (d, ds) ← escaped cs
        stringBody (d :: done) n ds
      else if c.toNat < 32 then failNext .controlCharacter (c :: cs)
      else stringBody (c :: done) n cs

/-- A string, after its opening quote. -/
def readText (rest : List Char) : Except Failure (String × List Char) := stringBody [] (rest.length + 1) rest

/-! ## Values -/

/-- The rest of a keyword. -/
def keyword {α : Type} (a : α) : List Char → List Char → Except Failure (α × List Char)
  | [], rest => .ok (a, rest)
  | _ :: _, [] => failAt .endInValue []
  | w :: ws, c :: cs => if c = w then keyword a ws cs else failNext .expectedIdent (c :: cs)

/-- The items of a row and its closing bracket; `n` bounds how many there are. -/
def items (one : List Char → Except Failure (Json × List Char)) (done : List Json) :
    Nat → List Char → Except Failure (Json × List Char)
  | 0, rest => failAt .endInList rest
  | n + 1, rest =>
      match skipSpace rest with
      | [] => failNext .endInList []
      | ']' :: cs => .ok (.array done.reverse, cs)
      | c :: cs =>
          -- the first item stands without a comma
          if done.isEmpty then do
            let (j, rest) ← one (c :: cs)
            items one (j :: done) n rest
          else if c = ',' then
            match skipSpace cs with
            | [] => failNext .endInValue []
            | ']' :: ds => failNext .trailingComma (']' :: ds)
            | ds => do
                let (j, rest) ← one ds
                items one (j :: done) n rest
          else failNext .expectedListEnd (c :: cs)

/-- A member of an object, after the quote that opens its key. -/
def member (one : List Char → Except Failure (Json × List Char)) (rest : List Char) :
    Except Failure ((String × Json) × List Char) := do
  let (k, rest) ← readText rest
  match skipSpace rest with
  | [] => failNext .endInObject []
  | ':' :: cs =>
      let (j, rest) ← one cs
      pure ((k, j), rest)
  | cs => failNext .expectedColon cs

/-- The members of an object and its closing brace; `n` bounds how many there are. -/
def members (one : List Char → Except Failure (Json × List Char)) (done : List (String × Json)) :
    Nat → List Char → Except Failure (Json × List Char)
  | 0, rest => failAt .endInObject rest
  | n + 1, rest =>
      match skipSpace rest with
      | [] => failNext .endInObject []
      | '\x7d' :: cs => .ok (.object (Table.ofPairs done.reverse), cs)
      | c :: cs =>
          if done.isEmpty then
            if c = '"' then do
              let (m, rest) ← member one cs
              members one (m :: done) n rest
            else failNext .keyNotString (c :: cs)
          else if c = ',' then
            match skipSpace cs with
            | [] => failNext .endInValue []
            | '"' :: ds => do
                let (m, rest) ← member one ds
                members one (m :: done) n rest
            | '\x7d' :: ds => failNext .trailingComma ('\x7d' :: ds)
            | ds => failNext .keyNotString ds
          else failNext .expectedObjectEnd (c :: cs)

/-- A value; containers may nest one less than `depth` deep. -/
def readValue : Nat → List Char → Except Failure (Json × List Char)
  | 0, rest => failNext .tooDeep rest
  | depth + 1, rest =>
      match skipSpace rest with
      | [] => failNext .endInValue []
      | 'n' :: cs => keyword .null ['u', 'l', 'l'] cs
      | 't' :: cs => keyword (.bool true) ['r', 'u', 'e'] cs
      | 'f' :: cs => keyword (.bool false) ['a', 'l', 's', 'e'] cs
      | '-' :: cs => do
          let (x, rest) ← readNumber false cs
          pure (.number x, rest)
      | '"' :: cs => do
          let (s, rest) ← readText cs
          pure (.string s, rest)
      | '[' :: cs =>
          if depth = 0 then failNext .tooDeep ('[' :: cs)
          else items (readValue depth) [] (cs.length + 1) cs
      | '\x7b' :: cs =>
          if depth = 0 then failNext .tooDeep ('\x7b' :: cs)
          else members (readValue depth) [] (cs.length + 1) cs
      | c :: cs =>
          if c.isDigit then do
            let (x, rest) ← readNumber true (c :: cs)
            pure (.number x, rest)
          else failNext .expectedValue (c :: cs)

/-- How deep containers may nest, and one. -/
def depthLimit : Nat := 128

/-- A whole document. -/
def document (cs : List Char) : Except Failure Json := do
  let (j, rest) ← readValue depthLimit cs
  match skipSpace rest with
  | [] => pure j
  | rest => failNext .trailingCharacters rest

/-! ## Positions -/

/-- A fault with its line and its column, both counted from one; the column counts octets. -/
structure SyntaxError where
  problem : Problem
  line : Nat
  column : Nat
  deriving DecidableEq, Repr

/-- The wording of a fault, with its place. -/
def SyntaxError.message (e : SyntaxError) : String :=
  e.problem.message ++ " at line " ++ Decimal.natText e.line
    ++ " column " ++ Decimal.natText e.column

/-- The line and column of an octet of a text, counted on from `line` and `column`. -/
def position (line column : Nat) : Nat → List Char → Nat × Nat
  | 0, _ => (line, column)
  | n + 1, [] => (line, column + (n + 1))
  | n + 1, c :: cs =>
      -- the octet lies inside this character
      if n + 1 < c.utf8Size then (line, column + (n + 1))
      else if c = '\n' then position (line + 1) 0 (n + 1 - c.utf8Size) cs
      else position line (column + c.utf8Size) (n + 1 - c.utf8Size) cs
termination_by _ cs => cs.length

/-- Where a failure is in a text. -/
def Failure.locate (f : Failure) (cs : List Char) : SyntaxError :=
  let offset := Text.octetCount cs - Text.octetCount f.rest + f.past
  let (line, column) := position 1 0 offset cs
  ⟨f.problem, line, column⟩

/-- The data of a JSON text. -/
def parse (s : String) : Except SyntaxError Json :=
  match document s.toList with
  | .ok j => .ok j
  | .error f => .error (f.locate s.toList)

/-- The data of a JSON text, if it is one. -/
def parse? (s : String) : Option Json := (parse s).toOption

end ObjectGraph.Json
