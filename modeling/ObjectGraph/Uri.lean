import ObjectGraph.Table
import ObjectGraph.Text.Percent

/-!
# `Uri` — compound URIs

A compound URI names a value by a scheme, a name, an optional fragment, named parameters that are
compound URIs themselves, and an optional format that is applied to the value:

    scheme:name#fragment+parameter@[nested]|format

Its canonical form is that text with scheme, name and fragment percent-encoded, the parameters in
ascending order and every parameter value in brackets. Two URIs are equal when their canonical
forms are.

Contents:
* `Uri`, the literal scheme `s` and the alias scheme `a`;
* copies with one part changed;
* `canonical`, `equals`.
-/

namespace ObjectGraph

/-- A compound URI, with its parts decoded and its parameters in ascending order. -/
inductive Uri where
  | mk (scheme name : String) (fragment : Option String) (parameters : List (String × Uri))
      (format : Option String)
  deriving Inhabited

namespace Uri

/-- The scheme whose name is the value itself. -/
def literalScheme : String := "s"

/-- The scheme of names that stand for another URI. -/
def aliasScheme : String := "a"

/-- The scheme. -/
def scheme : Uri → String
  | mk s _ _ _ _ => s

/-- The decoded name. -/
def name : Uri → String
  | mk _ n _ _ _ => n

/-- The decoded fragment. -/
def fragment : Uri → Option String
  | mk _ _ f _ _ => f

/-- The parameters, by ascending name. -/
def parameters : Uri → List (String × Uri)
  | mk _ _ _ ps _ => ps

/-- The format to apply to the value. -/
def format : Uri → Option String
  | mk _ _ _ _ f => f

/-- A URI of a scheme and a name. -/
def simple (scheme name : String) : Uri := mk scheme name none [] none

/-- The URI of a literal text. -/
def literal (text : String) : Uri := simple literalScheme text

/-- The URI of an alias. -/
def ofAlias (name : String) : Uri := simple aliasScheme name

/-- A parameter by its name. -/
def parameter? (u : Uri) (k : String) : Option Uri := u.parameters.lookup k

/-- True of literals. -/
def isLiteral (u : Uri) : Bool := u.scheme == literalScheme

/-- True of aliases. -/
def isAlias (u : Uri) : Bool := u.scheme == aliasScheme

/-- The text of a literal. -/
def literalText? (u : Uri) : Option String := if u.isLiteral then some u.name else none

/-- The name is a relative path. -/
def isRelative (u : Uri) : Bool := u.name.toList.head? != some '/'

/-! ## Copies with a change -/

/-- The URI with another name. -/
def withName (u : Uri) (n : String) : Uri := mk u.scheme n u.fragment u.parameters u.format

/-- The URI with another fragment, or none. -/
def withFragment (u : Uri) (f : Option String) : Uri := mk u.scheme u.name f u.parameters u.format

/-- The URI with another format, or none. -/
def withFormat (u : Uri) (f : Option String) : Uri := mk u.scheme u.name u.fragment u.parameters f

/-- The URI with a parameter set. -/
def withParameter (u : Uri) (k : String) (v : Uri) : Uri :=
  mk u.scheme u.name u.fragment (Table.insert k v u.parameters) u.format

/-- The URI without parameters. -/
def withoutParameters (u : Uri) : Uri := mk u.scheme u.name u.fragment [] u.format

/-! ## Canonical form -/

mutual

/-- The characters of the canonical form. -/
def write : Uri → List Char
  | mk scheme name fragment parameters format =>
      Text.Percent.encodePath scheme ++ ':' :: Text.Percent.encodePath name
        ++ (match fragment with
          | some f => '#' :: Text.Percent.encodePath f
          | none => [])
        ++ writeParameters parameters
        ++ (match format with
          | some f => '|' :: f.toList
          | none => [])

/-- The characters of a row of parameters. -/
def writeParameters : List (String × Uri) → List Char
  | [] => []
  | (k, u) :: ps => '+' :: k.toList ++ '@' :: '[' :: write u ++ ']' :: writeParameters ps

end

/-- The canonical form. -/
def canonical (u : Uri) : String := String.ofList u.write

/-- Equality is equality of the canonical forms. -/
def equals (u v : Uri) : Bool := u.canonical == v.canonical

theorem equals_refl (u : Uri) : u.equals u = true := by simp [equals]

theorem equals_iff {u v : Uri} : u.equals v = true ↔ u.canonical = v.canonical := by
  simp [equals]

end Uri

end ObjectGraph
