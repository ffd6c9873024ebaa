import ObjectGraph.Number.Decimal
import ObjectGraph.Text.Blank
import ObjectGraph.Uri

/-!
# `Uri.Parser` — reading compound URIs

The grammar, where blanks may stand in front of a compound URI, after `[`, before `]`, `+` and `|`,
after `|`, and at the end of the text:

    compound  ::= '[' reference ']' | reference
    reference ::= '~' name format? | uri
    uri       ::= scheme ':' name ('#' fragment)? parameter* format?
    parameter ::= '+' key ('@' compound | '=' literal)
    format    ::= '|' word

Every token is the longest row of characters of its class, and names, fragments and literals are
percent-decoded. A nested URI without brackets takes all parameters that follow it. Each production
returns what it read and what is left, or the place where it stopped and what it expected there;
since no token of a reference begins with a bracket, an open bracket leaves no alternative.

Contents:
* the token classes, `Expectation`, `Stop`;
* a function for each production, and `parse`, `parse?`;
* `SyntaxError` with `offset`, `near`, `message` and `pretty`.
-/

namespace ObjectGraph.Uri

/-! ## Tokens -/

/-- An ASCII letter. -/
def isLetter (c : Char) : Bool := ('a' ≤ c && c ≤ 'z') || ('A' ≤ c && c ≤ 'Z')

/-- A character of a word: ASCII letters, digits and `_.-`. -/
def isWord (c : Char) : Bool := isLetter c || c.isDigit || c == '_' || c == '.' || c == '-'

/-- A character of a parameter key. -/
def isKey (c : Char) : Bool := isWord c || c == '*' || c == '$'

/-- A character of a fragment or a literal, before decoding. -/
def isPlain (c : Char) : Bool :=
  !(c == '+' || c == '|' || c == '[' || c == ']' || Text.isBlank c)

/-- A character of a name, before decoding. -/
def isName (c : Char) : Bool := isPlain c && c != '#'

/-- The longest row of characters of a class in front of a text, and what is left. -/
def token (p : Char → Bool) (cs : List Char) : List Char × List Char :=
  (cs.takeWhile p, cs.dropWhile p)

/-- A row of characters of the class is the token if what follows it is not of the class. -/
theorem token_append {p : Char → Bool} {xs ys : List Char} (hx : ∀ c ∈ xs, p c = true)
    (hy : ∀ c ∈ ys.head?, p c = false) : token p (xs ++ ys) = (xs, ys) := by
  have stop : ys.takeWhile p = [] ∧ ys.dropWhile p = ys := by
    cases ys with
    | nil => exact ⟨rfl, rfl⟩
    | cons c ys => simp [hy c rfl]
  rw [token, List.takeWhile_append_of_pos hx, List.dropWhile_append_of_pos hx, stop.1, stop.2, List.append_nil]

/-- A token is of its class. -/
theorem of_mem_token {p : Char → Bool} {cs : List Char} {c : Char} (h : c ∈ (token p cs).1) : p c = true :=
  List.all_eq_true.mp List.all_takeWhile c h

/-- A scheme: a letter and characters of a word. -/
def schemeToken : List Char → List Char × List Char
  | [] => ([], [])
  | c :: cs => if isLetter c then (c :: cs.takeWhile isWord, cs.dropWhile isWord) else ([], c :: cs)

/-! ## Failures -/

/-- What a text lacks, or has too much of, at the place where reading stopped. -/
inductive Expectation where
  | aliasName | scheme | colon | key | value | format | closing | encoding | ending
  deriving DecidableEq, Repr

/-- The wording of an expectation. -/
def Expectation.message : Expectation → String
  | .aliasName => "expected alias name after '~'"
  | .scheme => "expected scheme"
  | .colon => "expected ':' after scheme"
  | .key => "expected parameter name after '+'"
  | .value => "expected '@' or '=' after parameter name"
  | .format => "expected format name after '|'"
  | .closing => "expected ']'"
  | .encoding => "invalid percent-encoding"
  | .ending => "unexpected trailing characters"

/-- The place where reading stopped, by what is left there. -/
structure Stop where
  expected : Expectation
  rest : List Char
  deriving DecidableEq, Repr

/-! ## Productions -/

/-- The text of a token that starts where `start` is left. -/
def decodeToken (raw start : List Char) : Except Stop String :=
  match Text.Percent.decode? raw with
  | some s => .ok s
  | none => .error ⟨.encoding, start⟩

/-- A format, if a bar is there. -/
def parseFormat (cs : List Char) : Except Stop (Option String × List Char) :=
  match Text.trimStart cs with
  | '|' :: after =>
      let (word, rest) := token isWord (Text.trimStart after)
      if word = [] then .error ⟨.format, after⟩
      else .ok (some (String.ofList word), rest)
  -- without a bar the blanks are left for whoever reads on
  | _ => .ok (none, cs)

/-- A parameter, after its plus sign; `nested` reads a compound URI. -/
def parseParameter (nested : List Char → Except Stop (Uri × List Char)) (cs : List Char) :
    Except Stop ((String × Uri) × List Char) :=
  let (key, rest) := token isKey cs
  if key = [] then .error ⟨.key, cs⟩
  else match rest with
    | '@' :: after => do
        let (u, rest) ← nested after
        pure ((String.ofList key, u), rest)
    | '=' :: after => do
        let (raw, rest) := token isPlain after
        let text ← decodeToken raw after
        pure ((String.ofList key, literal text), rest)
    | _ => .error ⟨.value, rest⟩

/-- The parameters; the last value of a key counts. `n` bounds how many there are. -/
def parseParameters (nested : List Char → Except Stop (Uri × List Char))
    (done : List (String × Uri)) : Nat → List Char → Except Stop (List (String × Uri) × List Char)
  | 0, cs => .ok (done, cs)
  | n + 1, cs =>
      match Text.trimStart cs with
      | '+' :: after => do
          let ((key, u), rest) ← parseParameter nested after
          parseParameters nested (Table.insert key u done) n rest
      | _ => .ok (done, cs)

/-- A fragment, if a hash is there. -/
def parseFragment (cs : List Char) : Except Stop (Option String × List Char) :=
  match cs with
  | '#' :: after => do
      let (raw, rest) := token isPlain after
      let text ← decodeToken raw after
      pure (some text, rest)
  | _ => .ok (none, cs)

/-- A URI that is no alias. -/
def parseUri (nested : List Char → Except Stop (Uri × List Char)) (cs : List Char) :
    Except Stop (Uri × List Char) :=
  let (scheme, rest) := schemeToken cs
  if scheme = [] then .error ⟨.scheme, cs⟩
  else match rest with
    | ':' :: after => do
        let (raw, rest) := token isName after
        let name ← decodeToken raw after
        let (fragment, rest) ← parseFragment rest
        let (parameters, rest) ← parseParameters nested [] rest.length rest
        let (format, rest) ← parseFormat rest
        pure (mk (String.ofList scheme) name fragment parameters format, rest)
    | _ => .error ⟨.colon, rest⟩

/-- An alias or a URI. -/
def parseReference (nested : List Char → Except Stop (Uri × List Char)) (cs : List Char) :
    Except Stop (Uri × List Char) :=
  match Text.trimStart cs with
  -- an alias takes a format, but neither fragment nor parameters
  | '~' :: after => do
      let (raw, rest) := token isName after
      if raw = [] then throw ⟨.aliasName, after⟩
      let name ← decodeToken raw after
      let (format, rest) ← parseFormat rest
      pure (mk aliasScheme name none [] format, rest)
  | cs => parseUri nested cs

/-- A compound URI; `n` bounds how deep parameters nest. -/
def parseCompound : Nat → List Char → Except Stop (Uri × List Char)
  | 0, cs => .error ⟨.scheme, cs⟩
  | n + 1, cs =>
      match Text.trimStart cs with
      | '[' :: inner => do
          let (u, rest) ← parseReference (parseCompound n) inner
          match Text.trimStart rest with
          | ']' :: rest => pure (u, rest)
          | rest => throw ⟨.closing, rest⟩
      | cs => parseReference (parseCompound n) cs

/-- A text that is one compound URI. -/
def parseText (cs : List Char) : Except Stop Uri := do
  let (u, rest) ← parseCompound (cs.length + 1) cs
  match Text.trimStart rest with
  | [] => pure u
  | rest => throw ⟨.ending, rest⟩

/-! ## Syntax errors -/

/-- A text that is no compound URI: what is wrong, and the text before and after that place. -/
structure SyntaxError where
  expected : Expectation
  before : String
  after : String
  deriving DecidableEq, Repr

namespace SyntaxError

/-- The text that was read. -/
def input (e : SyntaxError) : String := e.before ++ e.after

/-- The place, in octets. -/
def offset (e : SyntaxError) : Nat := e.before.utf8ByteSize

/-- The beginning of the text after the place. -/
def near (e : SyntaxError) : String := String.ofList (e.after.toList.take 24)

/-- One line that says what was expected and where. -/
def message (e : SyntaxError) : String :=
  e.expected.message ++ " at offset " ++ Decimal.natText e.offset ++ " near '" ++ e.near ++ "'"

/-- The text with a caret under the place. -/
def pretty (e : SyntaxError) : String :=
  "URI syntax error: " ++ e.expected.message ++ "\n  " ++ e.input ++ "\n  "
    ++ String.ofList (List.replicate e.before.length ' ') ++ "^"

end SyntaxError

/-- Where a stop is in the text. -/
def Stop.locate (stop : Stop) (cs : List Char) : SyntaxError :=
  ⟨stop.expected, String.ofList (cs.take (cs.length - stop.rest.length)), String.ofList stop.rest⟩

/-- The compound URI that a text is. -/
def parse (text : String) : Except SyntaxError Uri :=
  match parseText text.toList with
  | .ok u => .ok u
  | .error stop => .error (stop.locate text.toList)

/-- The compound URI that a text is, if it is one. -/
def parse? (text : String) : Option Uri := (parse text).toOption

end ObjectGraph.Uri
