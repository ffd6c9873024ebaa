import ObjectGraph.Instant

/-!
# `Instant.Parser` — reading points in time

Two forms: the full RFC 3339 one, with date, time and offset, and a date alone, which means its
first moment in universal time. Second 60 is a leap second.

Contents:
* `fixed?` and `digits?`, rows of digits;
* `ofRfc3339?`, `ofDate?`.
-/

namespace ObjectGraph.Instant

/-- Exactly `n` digits, and what is left. -/
def fixed? (n : Nat) (cs : List Char) : Option (Nat × List Char) :=
  let ds := cs.take n
  if ds.length = n ∧ ds.all Char.isDigit then
    (Decimal.readDigits? ds).map fun v => (v, cs.drop n)
  else none

/-- One to `most` digits, as many as there are, and what is left. -/
def digits? (most : Nat) (cs : List Char) : Option (Nat × List Char) :=
  let ds := (cs.take most).takeWhile Char.isDigit
  (Decimal.readDigits? ds).map fun v => (v, cs.drop ds.length)

/-- A given character, and what is left. -/
def sign? (c : Char) : List Char → Option (List Char)
  | d :: cs => if d = c then some cs else none
  | [] => none

/-- The nanoseconds of a fraction, if a point is there; digits beyond the ninth do not count. -/
def fraction? (cs : List Char) : Option (Nat × List Char) :=
  match cs with
  | '.' :: rest => do
      let (v, left) ← digits? 9 rest
      let count := rest.length - left.length
      pure (v * Nat.pow 10 (9 - count), left.dropWhile Char.isDigit)
  | _ => some (0, cs)

/-- An offset from universal time in seconds: `Z`, or a sign, hours, a colon and minutes. -/
def offset? (cs : List Char) : Option Int :=
  match cs with
  | ['Z'] => some 0
  | ['z'] => some 0
  | s :: rest => do
      let negative ←
        if s = '+' then some false
        else if s = '-' ∨ s = '−' then some true
        else none
      let (hours, rest) ← fixed? 2 rest
      let rest ← sign? ':' rest
      let (minutes, rest) ← fixed? 2 rest
      if rest = [] ∧ minutes < 60 ∧ hours < 24 then
        let seconds : Int := (hours * 3600 + minutes * 60 : Nat)
        some (if negative then -seconds else seconds)
      else none
  | [] => none

/-- The instant of a date and time of day, both given for an offset. -/
def ofParts? (year : Int) (month day hour minute second nanos : Nat) (offset : Int) :
    Option Instant :=
  if Calendar.isDate year month day && hour < 24 && minute < 60 && second ≤ 60 then
    -- second 60 is second 59 with a thousand million nanoseconds more
    let leap := if second = 60 then 1 else 0
    let inDay : Int := (hour * 3600 + minute * 60 + (second - leap) : Nat)
    ofSeconds? (Calendar.daysOf year month day * 86400 + inDay - offset)
      (nanos + leap * 1000000000)
  else none

/-- The instant that an RFC 3339 text names. -/
def ofRfc3339? (cs : List Char) : Option Instant := do
  let (year, cs) ← fixed? 4 cs
  let cs ← sign? '-' cs
  let (month, cs) ← fixed? 2 cs
  let cs ← sign? '-' cs
  let (day, cs) ← fixed? 2 cs
  let cs ← match cs with
    | 'T' :: rest => some rest
    | 't' :: rest => some rest
    | ' ' :: rest => some rest
    | _ => none
  let (hour, cs) ← fixed? 2 cs
  let cs ← sign? ':' cs
  let (minute, cs) ← fixed? 2 cs
  let cs ← sign? ':' cs
  let (second, cs) ← fixed? 2 cs
  let (nanos, cs) ← fraction? cs
  let offset ← offset? cs
  ofParts? year month day hour minute second nanos offset

/-- The year of a date: up to four digits, or any number of them after a sign. -/
def year? (cs : List Char) : Option (Int × List Char) :=
  match cs with
  | '-' :: rest => (digits? rest.length rest).map fun (v, left) => (-(v : Int), left)
  | '+' :: rest => (digits? rest.length rest).map fun (v, left) => ((v : Int), left)
  | _ => (digits? 4 cs).map fun (v, left) => ((v : Int), left)

/-- The first moment of the day that a text `year-month-day` names. -/
def ofDate? (isBlank : Char → Bool) (cs : List Char) : Option Instant := do
  let (year, cs) ← year? (cs.dropWhile isBlank)
  let cs ← sign? '-' cs
  let (month, cs) ← digits? 2 (cs.dropWhile isBlank)
  let cs ← sign? '-' cs
  let (day, cs) ← digits? 2 (cs.dropWhile isBlank)
  if cs = [] ∧ Calendar.firstYear ≤ year ∧ year ≤ Calendar.lastYear then
    ofParts? year month day 0 0 0 0 0
  else none

end ObjectGraph.Instant
