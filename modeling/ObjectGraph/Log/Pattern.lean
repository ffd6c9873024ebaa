import ObjectGraph.Log.Pattern.CharacterSet
import ObjectGraph.Text.Alphanumeric

/-!
# `Log.Pattern` — the regular expressions of a filter

A filter may compare the value of a span's field with a regular expression. There are no spans here,
so no expression is ever matched; what counts is whether it can be used at all. It stands between
braces and ends with the first closing one, so an opening brace outside a bracket always asks for
more than there is.

Expressions match text: one that could match half of a character cannot be used, nor one that needs
to know which characters of all scripts make up a word, nor one whose parts are too deep inside each
other.

Contents:
* `Fault`, `depthLimit`;
* `Branches`, `Progress`, `opened?`, `closed?`: groups;
* `read?`, `fault?`: what is wrong with an expression.
-/

namespace ObjectGraph.Log.Pattern

/-- Why an expression cannot be used. -/
inductive Fault where
  /-- It is no expression, or could match something that is no text, or is too deep. -/
  | malformed
  /-- It asks for the boundary of a word in any script. -/
  | wordBoundary
  deriving DecidableEq, Repr

/-- The wording of a fault. -/
def Fault.message : Fault → String
  | .malformed => "error building NFA"
  | .wordBoundary =>
      "unsupported regex feature for DFAs: cannot build DFAs for regexes with Unicode word "
        ++ "boundaries; switch to ASCII word boundaries, or heuristically enable Unicode word "
        ++ "boundaries or use a different regex engine"

/-- How deep an expression may be. -/
def depthLimit : Nat := 250

/-! ## Groups -/

/-- What an open group holds so far: branches, one of which is chosen, and the parts of the last
one. Only depths are kept. -/
structure Branches where
  /-- The parts of the last branch, the newest first. -/
  parts : List Nat := []
  /-- The branches before it. -/
  before : List Nat := []
  deriving DecidableEq, Repr

/-- How deep it all is. -/
def Branches.depth (b : Branches) : Nat := joined (joined b.parts :: b.before)

/-- With one more part. -/
def Branches.past (b : Branches) (depth : Nat) : Branches := { b with parts := depth :: b.parts }

/-- With a repetition of the newest part. -/
def Branches.repeated (b : Branches) : Branches :=
  match b.parts with
  | d :: parts => { b with parts := (d + 1) :: parts }
  | [] => b

/-- With another branch, which is empty. -/
def Branches.parted (b : Branches) : Branches := { before := joined b.parts :: b.before }

/-- How far an expression has been read. -/
structure Progress where
  mode : Mode := {}
  /-- The innermost group, or the whole expression. -/
  inner : Branches := {}
  /-- What is around the open groups, with its modes, the innermost first. -/
  outer : List (Mode × Branches) := []
  /-- The names of the groups so far. -/
  names : List String := []
  /-- The newest part may be repeated. -/
  repeatable : Bool := false
  /-- A boundary of words in any script has been asked for. -/
  boundary : Bool := false
  deriving DecidableEq, Repr

/-- After one more part that is no group. -/
def Progress.past (p : Progress) (depth : Nat) : Progress :=
  { p with inner := p.inner.past depth, repeatable := true }

/-- After one more item. -/
def Progress.pastItem (p : Progress) (item : Item) : Progress :=
  { p.past 0 with boundary := p.boundary || (item == .boundary && p.mode.unicode) }

/-- Inside a group that begins here, in a mode. -/
def Progress.into (p : Progress) (m : Mode) : Progress :=
  { p with mode := m, inner := {}, outer := (p.mode, p.inner) :: p.outer, repeatable := false }

/-- The flags of an expression: case, lines, dots, greed, classes, line ends and blanks. -/
def flags : List Char := ['i', 'm', 's', 'U', 'u', 'R', 'x']

/-- The mode after flags, up to what ends them; `off` says that a minus sign came before. No flag and
no minus sign may be repeated. -/
def flagged? (off : Bool) (seen : List Char) (m : Mode) : List Char → Option (Mode × List Char)
  | [] => none
  | c :: rest =>
      if c = ')' ∨ c = ':' then
        -- a minus sign needs a flag to take back
        if seen.head? = some '-' then none else some (m, c :: rest)
      else if seen.contains c then none
      else if c = '-' then flagged? true (c :: seen) m rest
      else if c = 'u' then flagged? off (c :: seen) { m with unicode := !off } rest
      else if c = 'x' then flagged? off (c :: seen) { m with spaced := !off } rest
      else if flags.contains c then flagged? off (c :: seen) m rest
      else none

/-- A character of a group's name. -/
def isNamePart (first : Bool) (c : Char) : Bool :=
  if first then c == '_' || Text.isAlphabetic c
  else c == '_' || c == '.' || c == '[' || c == ']' || Text.isAlphanumeric c

/-- A named group, from its name on. Names must differ. -/
def named? (p : Progress) (cs : List Char) : Option (Progress × List Char) :=
  match cs.takeWhile (· != '>'), cs.dropWhile (· != '>') with
  | c :: name, _ :: rest =>
      let text := String.ofList (c :: name)
      if isNamePart true c && name.all (isNamePart false) && !p.names.contains text then
        some ({ p.into p.mode with names := text :: p.names }, rest)
      else none
  | _, _ => none

/-- A group or a row of flags, after its opening bracket. -/
def opened? (p : Progress) (cs : List Char) : Option (Progress × List Char) :=
  match p.mode.skip cs with
  | '?' :: 'P' :: '<' :: rest => named? p rest
  | '?' :: '<' :: rest => named? p rest
  | '?' :: rest =>
      match flagged? false [] p.mode rest with
      | some (m, ':' :: after) => some (p.into m, after)
      | some (m, _ :: after) =>
          if rest = ')' :: after then none
          -- flags are a part, but none to repeat
          else some ({ p with mode := m, inner := p.inner.past 0, repeatable := false }, after)
      | _ => none
  | rest => some (p.into p.mode, rest)

/-- After the group that ends here. -/
def closed? (p : Progress) : Option Progress :=
  match p.outer with
  | (m, around) :: outer =>
      some { p with
        mode := m, inner := around.past (p.inner.depth + 1), outer, repeatable := true }
  | [] => none

/-! ## Expressions -/

/-- Reads an expression to its end; `n` bounds how many items it has. -/
def read? : Nat → Progress → List Char → Option Progress
  | 0, _, _ => none
  | n + 1, p, cs =>
      match p.mode.skip cs with
      | [] => if p.outer = [] ∧ p.inner.depth ≤ depthLimit then some p else none
      | '(' :: rest => (opened? p rest).bind fun (p, rest) => read? n p rest
      | ')' :: rest => (closed? p).bind fun p => read? n p rest
      | '|' :: rest => read? n { p with inner := p.inner.parted, repeatable := false } rest
      | '[' :: rest => (set? p.mode rest).bind fun (depth, rest) => read? n (p.past depth) rest
      | '\\' :: rest => (escape? p.mode rest).bind fun (item, rest) => read? n (p.pastItem item) rest
      -- the count of a repetition is never closed
      | '\x7b' :: _ => none
      -- any octet at all is no text
      | '.' :: rest => if p.mode.unicode then read? n (p.pastItem .oneOf) rest else none
      | c :: rest =>
          if c = '*' ∨ c = '+' ∨ c = '?' then
            if p.repeatable then
              read? n { p with inner := p.inner.repeated }
                (if rest.head? = some '?' then rest.drop 1 else rest)
            else none
          else read? n (p.pastItem (.character c)) rest

/-- What is wrong with an expression. -/
def fault? (pattern : List Char) : Option Fault :=
  match read? (pattern.length + 1) {} pattern with
  | some p => if p.boundary then some .wordBoundary else none
  | none => some .malformed

end ObjectGraph.Log.Pattern
