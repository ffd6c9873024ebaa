/-!
# `Text.Case` — small letters

Names that the library understands in any case are ASCII, so only ASCII letters are changed.

Contents:
* `lower`.
-/

namespace ObjectGraph.Text

/-- The text with its ASCII capitals made small. -/
def lower (s : String) : String := String.ofList (s.toList.map Char.toLower)

end ObjectGraph.Text
