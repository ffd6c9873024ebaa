import ObjectGraph.Instant.Parser
import ObjectGraph.Session
import ObjectGraph.Value.Render

/-!
# `Conversion` — values in another representation

The standard conversion knows every representation but images, which come from converters of the host,
and configurations, which need the node that asks. A text that is to be read as something else is
trimmed first.

Contents:
* `string?`, `number?`, `bool?`, `date?`, `uri?`, `binary?`, `data?`: the standard conversions;
* `standard`; `Converter.convert`.
-/

namespace ObjectGraph.Conversion

/-- A value as text: octets must be well-formed, and components have none. -/
def string? (h : Heap) : Value → Option String
  | .binary bytes => Text.ofOctets? bytes
  | .object _ => none
  | v => v.display? h

/-- The number a text is written as: whole if it can be, else a finite floating point one. -/
def readNumber? (s : String) : Option Number :=
  let cs := Text.trim s.toList
  -- whole numbers beyond 64 signed bits are read in floating point
  match (Decimal.readInteger? cs).filter fun n => -Int.pow 2 63 ≤ n ∧ n < Int.pow 2 63 with
  | some n => Number.ofInt? n
  | none => match Decimal.readFloat? .double cs with
    | some (.finite x) => some (.float x)
    | _ => none

/-- A value as a number: a truth value counts as one or zero, a date as its seconds. -/
def number? : Value → Option Number
  | .number n => some n
  | .bool b => some (if b then Number.one else Number.zero)
  | .string s => readNumber? s
  | .date t => Number.ofInt? t.seconds
  | _ => none

/-- The words for the truth values. -/
def boolWords : List (String × Bool) :=
  [("true", true), ("yes", true), ("on", true), ("1", true),
   ("false", false), ("no", false), ("off", false), ("0", false), ("", false)]

/-- A value as a truth value: a number is true unless it is zero. -/
def bool? : Value → Option Bool
  | .bool b => some b
  | .number n => some !n.toFloat.isZero
  | .string s => boolWords.lookup (Text.lower (Text.trimText s))
  | _ => none

/-- The date a text is written as: a point in time, a day, or seconds from the beginning of 1970. -/
def readDate? (s : String) : Option Instant :=
  let cs := Text.trim s.toList
  match Instant.ofRfc3339? cs, Instant.ofDate? Text.isBlank cs with
  | some t, _ => some t
  | none, some t => some t
  | none, none =>
      ((Decimal.readInteger? cs).filter fun n => -Int.pow 2 63 ≤ n ∧ n < Int.pow 2 63).bind
        fun n => Instant.ofSeconds? n 0

/-- A number of seconds from the beginning of 1970 as a date. -/
def numberDate? (n : Number) : Option Instant :=
  match n.int64?.bind fun i => Instant.ofSeconds? i 0 with
  | some t => some t
  | none => Instant.ofFloat? n.toFloat

/-- A value as a date. -/
def date? : Value → Option Instant
  | .date t => some t
  | .number n => numberDate? n
  | .string s => readDate? s
  | _ => none

/-- A value as a URI. -/
def uri? : Value → Option Uri
  | .uri u => some u
  | .string s => Uri.parse? (Text.trimText s)
  | .resource r => some r.uri
  | _ => none

/-- The octets of a resource. -/
def payloadOctets : Payload → List UInt8
  | .octets bytes => bytes
  | .text s => Text.octets s
  | .json j => Text.octets j.compact

/-- A value as octets: a text is in base 64. -/
def binary? : Value → Option (List UInt8)
  | .binary bytes => some bytes
  | .string s => Text.Base64.decode? (Text.trim s.toList)
  | .resource r => some (payloadOctets r.payload)
  | _ => none

/-- A value as structured data. -/
def data? : Value → Option Value
  | .map entries => some (.map entries)
  | .list items => some (.list items)
  | .string s => (Json.parse? s).map Value.ofJson
  | .resource r => r.structured?.map Value.ofJson
  | .configuration c => some (Value.ofJson c.data)
  | _ => none

/-- The standard conversion. -/
def standard (h : Heap) (v : Value) : Representation → Option Value
  | .default => some v
  | .configuration => some v
  | .string => (string? h v).map .string
  | .number => (number? v).map .number
  | .boolean => (bool? v).map .bool
  | .date => (date? v).map .date
  | .url => (uri? v).map .uri
  | .binary => (binary? v).map .binary
  | .data => data? v
  | .image => none

end Conversion

/-- A value in another representation. -/
def Converter.convert (host : Host) (h : Heap) (v : Value) (r : Representation) :
    Converter → Option Value
  | .standard => Conversion.standard h v r
  | .custom id => host.converter id h v r

end ObjectGraph
