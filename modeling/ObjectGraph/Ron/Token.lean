import ObjectGraph.Number
import ObjectGraph.Text.Identifier
import ObjectGraph.Text.Octets

/-!
# `Ron.Token` — the words of RON

Blanks and comments, identifiers, numbers, characters and strings. A reader takes the characters left
and gives what it read and the characters after it; it fails without a reason, as nothing is said
about malformed documents but that they are malformed.

Contents:
* `skipBlank`: blanks, line comments and nested block comments;
* `identifier?`, `fieldName?`, `keyword?`;
* `number?`: whole numbers in four bases, with or without a type, and floating point numbers;
* `escape?`, `character?`, `string?`;
* `goesOn?`: whether more than one value stands before a closing bracket.
-/

namespace ObjectGraph.Ron

/-- A reader: what was read and the characters after it. -/
abbrev Reader (α : Type) := List Char → Option (α × List Char)

/-! ## Blanks and comments -/

/-- A character that separates words. -/
def isSpace (c : Char) : Bool :=
  [0x20, 0x09, 0x0A, 0x0D, 0x0B, 0x0C, 0x85, 0x200E, 0x200F, 0x2028, 0x2029].contains c.toNat

/-- What follows a block comment, inside which `level` comments are open. -/
def afterBlock : Nat → List Char → Option (List Char)
  | level, '/' :: '*' :: cs => afterBlock (level + 1) cs
  | level, '*' :: '/' :: cs => if level ≤ 1 then some cs else afterBlock (level - 1) cs
  | level, _ :: cs => afterBlock level cs
  | _, [] => none

/-- What follows blanks and comments; `n` bounds how many comments there are. -/
def skipBlanks : Nat → List Char → Option (List Char)
  | 0, cs => some cs
  | n + 1, cs =>
      match cs.dropWhile isSpace with
      | '/' :: '/' :: rest => skipBlanks n (rest.dropWhile (· != '\n'))
      | '/' :: '*' :: rest => (afterBlock 1 rest).bind (skipBlanks n)
      | '/' :: _ => none
      | rest => some rest

/-- What follows blanks and comments. -/
def skipBlank (cs : List Char) : Option (List Char) := skipBlanks (cs.length + 1) cs

/-- Whether a comma follows, among blanks, and what comes then. -/
def comma? (cs : List Char) : Option (Bool × List Char) := do
  match ← skipBlank cs with
  | ',' :: rest => pure (true, ← skipBlank rest)
  | rest => pure (false, rest)

/-! ## Identifiers -/

/-- A character that may begin a name. -/
def opensName (c : Char) : Bool := c == '_' || Text.isIdentifierStart c

/-- A character of a raw name. -/
def isRawPart (c : Char) : Bool := c == '.' || c == '+' || c == '-' || Text.isIdentifierPart c

/-- A raw string, a byte string or a byte begins here. -/
def opensLiteral : List Char → Bool
  | 'b' :: '"' :: _ => true
  | 'b' :: '\'' :: _ => true
  | 'b' :: 'r' :: '#' :: _ => true
  | 'b' :: 'r' :: '"' :: _ => true
  | 'r' :: '"' :: _ => true
  | 'r' :: '#' :: '"' :: _ => true
  | 'r' :: '#' :: '#' :: _ => true
  | _ => false

/-- A name of a value: plain, or raw after `r#`. -/
def identifier? (cs : List Char) : Option (String × List Char) :=
  if opensLiteral cs then none
  else match cs with
    | 'r' :: '#' :: rest =>
        let name := rest.takeWhile isRawPart
        if name = [] then none else some (String.ofList name, rest.dropWhile isRawPart)
    | c :: rest =>
        if opensName c then
          some (String.ofList (c :: rest.takeWhile Text.isIdentifierPart),
            rest.dropWhile Text.isIdentifierPart)
        else none
    | [] => none

/-- A name of a field. A plain one must not go on with characters of raw names. -/
def fieldName? (cs : List Char) : Option (String × List Char) :=
  match identifier? cs with
  | none => none
  | some (name, rest) =>
      match cs, rest with
      -- a raw name has taken all its characters already
      | 'r' :: '#' :: _, _ => some (name, rest)
      | _, c :: _ => if isRawPart c then none else some (name, rest)
      | _, [] => some (name, rest)

/-- What follows a given word that does not go on as an identifier. -/
def keyword? (word : String) (cs : List Char) : Option (List Char) :=
  if word.toList.isPrefixOf cs then
    match cs.drop word.length with
    | c :: rest => if Text.isIdentifierPart c then none else some (c :: rest)
    | [] => some []
  else none

/-! ## Numbers -/

/-- A character of a whole number in any base. -/
def isWholePart (c : Char) : Bool := (Text.hexValue? c).isSome || c == '_'

/-- A character of a floating point number. -/
def isFloatPart (c : Char) : Bool :=
  c.isDigit || c == 'e' || c == 'E' || c == '.' || c == '+' || c == '-' || c == '_'

/-- The base a number announces, and what follows the announcement. -/
def base (cs : List Char) : Nat × List Char :=
  match cs with
  | '0' :: 'b' :: rest => (2, rest)
  | '0' :: 'o' :: rest => (8, rest)
  | '0' :: 'x' :: rest => (16, rest)
  | _ => (10, cs)

/-- The value of digits in a base; low lines between them do not count. -/
def digitsValue? (b : Nat) : Nat → List Char → Option Nat
  | acc, [] => some acc
  | acc, '_' :: cs => digitsValue? b acc cs
  | acc, c :: cs =>
      match Text.hexValue? c with
      | some d => if d < b then digitsValue? b (acc * b + d) cs else none
      | none => none

/-- The value of the digits of a number without its sign, and what follows them. -/
def magnitude? (cs : List Char) : Option (Nat × List Char) :=
  let (b, rest) := base cs
  let digits := rest.takeWhile isWholePart
  match digits with
  | [] => none
  | '_' :: _ => none
  | _ => (digitsValue? b 0 digits).map fun n => (n, rest.dropWhile isWholePart)

/-- The types of whole numbers: the name and the first value out of range on each side. -/
def wholeTypes : List (String × Int × Int) :=
  [("i8", -Int.pow 2 7 - 1, Int.pow 2 7), ("i16", -Int.pow 2 15 - 1, Int.pow 2 15),
   ("i32", -Int.pow 2 31 - 1, Int.pow 2 31), ("i64", -Int.pow 2 63 - 1, Int.pow 2 63),
   ("u8", -1, Int.pow 2 8), ("u16", -1, Int.pow 2 16), ("u32", -1, Int.pow 2 32),
   ("u64", -1, Int.pow 2 64)]

/-- The type named at the head of some characters, and what follows its name. -/
def wholeType? (cs : List Char) : Option ((Int × Int) × List Char) :=
  wholeTypes.findSome? fun t => (keyword? t.1 cs).map fun rest => (t.2, rest)

/-- A sign, and what follows it. -/
def sign (cs : List Char) : Bool × List Char :=
  match cs with
  | '+' :: rest => (false, rest)
  | '-' :: rest => (true, rest)
  | _ => (false, cs)

/-- A whole number with an optional type. Without a type a number without minus sign has 64 unsigned
bits, and one with a minus sign 64 signed ones. -/
def whole? (cs : List Char) : Option (Number × List Char) := do
  let (negative, rest) := sign cs
  let typed := wholeType? (rest.dropWhile isWholePart)
  let (n, after) ← magnitude? rest
  let value : Int := if negative then -(n : Int) else n
  match typed with
  | some ((low, high), afterType) =>
      if low < value ∧ value < high ∧ after = rest.dropWhile isWholePart then
        pure (← Number.ofInt? value, afterType)
      else none
  | none =>
      -- a number that fits no type may still be read as a floating point one
      if negative ∧ value < leastInteger then none else pure (← Number.ofInt? value, after)

/-- The characters of a floating point number without its low lines; one may stand only after a
digit or an exponent mark. -/
def withoutLows : Bool → List Char → Option (List Char)
  | _, [] => some []
  | allowed, '_' :: cs => if allowed then withoutLows true cs else none
  | allowed, c :: cs =>
      -- no low line directly after the point
      let next := if c = '.' then false else allowed || c.isDigit || c == 'e' || c == 'E'
      (withoutLows next cs).map (c :: ·)

/-- The words for numbers that are infinite or undefined. -/
def unboundedWords : List String :=
  ["inf", "NaN"].flatMap fun w => ["", "f32", "f64"].flatMap fun t => ["", "+", "-"].map (· ++ w ++ t)

/-- The format a floating point number asks for, and what follows the name of its type. -/
def floatType (cs : List Char) : Binary64.Width × List Char :=
  match keyword? "f32" cs, keyword? "f64" cs with
  | some rest, _ => (.single, rest)
  | none, some rest => (.double, rest)
  | none, none => (.double, cs)

/-- A floating point number, with an optional type; one too large for the format is nothing. -/
def decimalFloat? (cs : List Char) : Option (Option Binary64 × List Char) := do
  let digits := cs.takeWhile isFloatPart
  if digits = [] then none
  else
    let text ← withoutLows false digits
    let (width, rest) := floatType (cs.dropWhile isFloatPart)
    -- the digits are rounded once, to the format asked for
    match ← Decimal.readFloat? width text with
    | .finite x => pure (some x, rest)
    | _ => pure (none, rest)

/-- A floating point number in digits or as a word. -/
def float? (cs : List Char) : Option (Option Binary64 × List Char) :=
  match unboundedWords.findSome? (keyword? · cs) with
  | some rest => some (none, rest)
  | none => decimalFloat? cs

/-- The number is written with a point, a sign or an exponent that no whole number has. -/
def looksFloating (cs : List Char) : Bool :=
  let rest := (sign cs).2
  (rest.takeWhile isWholePart).length < (rest.takeWhile isFloatPart).length

/-- How far a whole number was read before it failed. -/
def wholeExtent (cs : List Char) : Nat :=
  let rest := (sign cs).2
  let (b, digits) := base rest
  let run := digits.takeWhile isWholePart
  let good := run.takeWhile fun c => c == '_' || ((Text.hexValue? c).any (· < b))
  (cs.length - digits.length) + good.length

/-- A number. A whole number that cannot be read as one may be read as a floating point number, if
that reads at least as far. -/
def number? (cs : List Char) : Option (Option Number × List Char) :=
  let floating := (float? cs).map fun r => (r.1.map Number.float, r.2)
  if looksFloating cs then floating
  else match whole? cs with
    | some (n, rest) => some (some n, rest)
    | none => match floating with
      | some (x, rest) => if wholeExtent cs ≤ cs.length - rest.length then some (x, rest) else none
      | none => none

/-! ## Characters and strings -/

/-- Two hexadecimal digits. -/
def octet? : List Char → Option (UInt8 × List Char)
  | a :: b :: rest => do
      let high ← Text.hexValue? a
      let low ← Text.hexValue? b
      pure (UInt8.ofNat (16 * high + low), rest)
  | _ => none

/-- One to six hexadecimal digits and a closing brace, as a character. -/
def codePoint? (cs : List Char) : Option (Char × List Char) :=
  let digits := cs.takeWhile (· != '\x7d')
  match digits, digitsValue? 16 0 (digits.filter (· != '_')), cs.dropWhile (· != '\x7d') with
  | _ :: _, some n, _ :: rest =>
      if digits.length ≤ 6 ∧ !digits.contains '_' ∧ n.isValidChar then some (Char.ofNat n, rest)
      else none
  | _, _, _ => none

/-- The character some octets encode, if they encode exactly one. -/
def characterOf? (bytes : List UInt8) : Option Char :=
  match (Text.ofOctets? bytes).map String.toList with
  | some [c] => some c
  | _ => none

/-- A character given by the octets of its encoding, each escaped; `n` more may follow. -/
def octetCharacter? (bytes : List UInt8) : Nat → List Char → Option (Char × List Char)
  | n, cs =>
      match characterOf? bytes, n, cs with
      | some c, _, _ => some (c, cs)
      | none, n + 1, '\\' :: 'x' :: rest =>
          match octet? rest with
          | some (b, rest) => octetCharacter? (bytes ++ [b]) n rest
          | none => none
      | none, _, _ => none

/-- An escaped character, after the backslash; `more` octets may follow a first one. -/
def escape? (more : Nat) : List Char → Option (Char × List Char)
  | '\'' :: cs => some ('\'', cs)
  | '"' :: cs => some ('"', cs)
  | '\\' :: cs => some ('\\', cs)
  | 'n' :: cs => some ('\n', cs)
  | 'r' :: cs => some ('\r', cs)
  | 't' :: cs => some ('\t', cs)
  | '0' :: cs => some (Char.ofNat 0, cs)
  | 'x' :: cs => (octet? cs).bind fun r => octetCharacter? [r.1] more r.2
  | 'u' :: '\x7b' :: cs => codePoint? cs
  | _ => none

/-- A character in single quotes. -/
def character? : List Char → Option (Char × List Char)
  | '\'' :: '\\' :: cs =>
      match escape? 0 cs with
      | some (c, '\'' :: rest) => some (c, rest)
      | _ => none
  | '\'' :: c :: '\'' :: rest => some (c, rest)
  | _ => none

/-- A byte in single quotes after `b`. -/
def byte? : List Char → Option (Nat × List Char)
  | 'b' :: '\'' :: '\\' :: 'x' :: cs =>
      match octet? cs with
      | some (b, '\'' :: rest) => some (b.toNat, rest)
      | _ => none
  | 'b' :: '\'' :: '\\' :: 'u' :: _ => none
  | 'b' :: rest =>
      match character? rest with
      | some (c, rest) => if c.toNat < 128 then some (c.toNat, rest) else none
      | none => none
  | _ => none

/-- Why a string cannot be read. -/
inductive StringFault where
  /-- Nothing closes it. -/
  | unclosed
  /-- It has an escape that means nothing, or no string begins here at all. -/
  | malformed
  deriving DecidableEq, Repr

/-- The characters of a string up to its closing quote, with a reader of what follows a backslash;
`n` bounds how many steps it takes. -/
def stringBody (escaped : Reader Char) (done : List Char) :
    Nat → List Char → Except StringFault (String × List Char)
  | 0, _ => .error .unclosed
  | _, [] => .error .unclosed
  | _ + 1, '"' :: cs => .ok (String.ofList done.reverse, cs)
  | n + 1, '\\' :: cs =>
      match escaped cs with
      | some (c, rest) => stringBody escaped (c :: done) n rest
      -- without any quote left the string is not closed, whatever the escape says
      | none => .error (if cs.contains '"' then .malformed else .unclosed)
  | n + 1, c :: cs => stringBody escaped (c :: done) n cs

/-- The characters before the first place where `stop` stands, and those after it. -/
def upTo? (stop : List Char) : List Char → Option (List Char × List Char)
  | [] => if stop = [] then some ([], []) else none
  | c :: cs =>
      if stop.isPrefixOf (c :: cs) then some ([], (c :: cs).drop stop.length)
      else (upTo? stop cs).map fun r => (c :: r.1, r.2)

/-- A raw string after its `r`: between quotes, with as many number signs around them as one
likes. -/
def rawBody (cs : List Char) : Except StringFault (String × List Char) :=
  match cs.dropWhile (· == '#') with
  | '"' :: body =>
      match upTo? ('"' :: cs.takeWhile (· == '#')) body with
      | some (text, rest) => .ok (String.ofList text, rest)
      | none => .error .unclosed
  | _ => .error .malformed

/-- A string: in quotes with escapes, or raw. -/
def readString : List Char → Except StringFault (String × List Char)
  | '"' :: cs => stringBody (escape? 3) [] (cs.length + 1) cs
  | 'r' :: cs => rawBody cs
  | _ => .error .malformed

/-- A string, without the reason of a failure. -/
def string? (cs : List Char) : Option (String × List Char) := (readString cs).toOption

/-- An escaped octet of a byte string, after the backslash. -/
def octetEscape? : List Char → Option (Char × List Char)
  | 'x' :: cs => (octet? cs).map fun r => (Char.ofNat r.1.toNat, r.2)
  | 'u' :: _ => none
  | cs => escape? 0 cs

/-- A byte string: a string after `b`. -/
def readByteString : List Char → Except StringFault (String × List Char)
  | 'b' :: '"' :: cs => stringBody octetEscape? [] (cs.length + 1) cs
  | 'b' :: 'r' :: cs => rawBody cs
  | _ => .error .malformed

/-! ## Looking ahead -/

/-- What follows the string that was looked for at some characters; these themselves if there is
none, and nothing if it is not closed. -/
def pastString? (found : Except StringFault (String × List Char)) (cs : List Char) :
    Option (List Char) :=
  match found with
  | .ok (_, rest) => some rest
  | .error .unclosed => none
  | .error .malformed => some cs

/-- What follows the literals at some characters, in which brackets and commas do not count. -/
def afterLiterals? (cs : List Char) : Option (List Char) := do
  let cs := match character? cs with
    | some (_, rest) => rest
    | none => cs
  let cs ← pastString? (readString cs) cs
  pastString? (readByteString cs) cs

/-- Whether a comma and something more stand before the bracket that closes the innermost of `level`
open ones; `n` bounds how many characters are looked at. -/
def goesOn? : Nat → Nat → List Char → Option Bool
  | 0, _, _ => none
  | n + 1, level, cs => do
      match ← afterLiterals? (← skipBlank cs) with
      | [] => none
      | c :: rest =>
          if ['(', '[', '\x7b'].contains c then goesOn? n (level + 1) rest
          else if [')', ']', '\x7d'].contains c then
            if level ≤ 1 then pure false else goesOn? n (level - 1) rest
          else if c = ',' ∧ level = 1 then
            -- a comma directly before the bracket adds nothing
            pure ((← skipBlank rest).head? != some ')')
          else goesOn? n level rest

end ObjectGraph.Ron
