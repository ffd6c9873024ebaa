/-!
# `Text.Blank` — the blank characters of Unicode

The property `White_Space`, as a table, and trimming by it. Everything the library calls *blank*
means this set; core's `Char.isWhitespace` knows six of its members only.

Contents:
* `isBlank`, the property, and `isBlank_of_isWhitespace`;
* `trimStart`, `trimEnd` and `trim` on character lists, and `trimText` on strings.
-/

namespace ObjectGraph.Text

/-- The code points with the Unicode property `White_Space`. -/
def blankPoints : List Nat :=
  [0x09, 0x0A, 0x0B, 0x0C, 0x0D, 0x20, 0x85, 0xA0, 0x1680,
   0x2000, 0x2001, 0x2002, 0x2003, 0x2004, 0x2005, 0x2006, 0x2007, 0x2008, 0x2009, 0x200A,
   0x2028, 0x2029, 0x202F, 0x205F, 0x3000]

/-- A character with the Unicode property `White_Space`. -/
def isBlank (c : Char) : Bool := blankPoints.contains c.toNat

/-- Core's white space is blank. -/
theorem isBlank_of_isWhitespace {c : Char} (h : c.isWhitespace = true) : isBlank c = true := by
  simp only [Char.isWhitespace, Bool.or_eq_true, decide_eq_true_eq] at h
  rcases h with ((rfl | rfl) | rfl) | rfl <;> decide

/-! ## Trimming -/

/-- A text without its leading blanks. -/
def trimStart (cs : List Char) : List Char := cs.dropWhile isBlank

/-- A text without its trailing blanks. -/
def trimEnd (cs : List Char) : List Char := (cs.reverse.dropWhile isBlank).reverse

/-- A text without blanks at either end. -/
def trim (cs : List Char) : List Char := trimEnd (trimStart cs)

/-- `trim` on strings. -/
def trimText (s : String) : String := String.ofList (trim s.toList)

theorem trimStart_nil : trimStart [] = [] := rfl

/-- Trimming the front leaves a suffix. -/
theorem trimStart_suffix (cs : List Char) : trimStart cs <:+ cs := List.dropWhile_suffix _

/-- Trimming the front never makes a text longer. -/
theorem length_trimStart_le (cs : List Char) : (trimStart cs).length ≤ cs.length :=
  (trimStart_suffix cs).length_le

/-- Nothing is trimmed in front of a character that is not blank. -/
theorem trimStart_cons {c : Char} (h : isBlank c = false) (cs : List Char) : trimStart (c :: cs) = c :: cs :=
  List.dropWhile_cons_of_neg (by simp [h])

/-- What is left by trimming the front does not begin with a blank. -/
theorem isBlank_head_trimStart {cs rest : List Char} {c : Char} (h : trimStart cs = c :: rest) :
    isBlank c = false := by
  induction cs with
  | nil => simp [trimStart] at h
  | cons d ds ih =>
      by_cases hd : isBlank d = true
      · exact ih (by simpa [trimStart, List.dropWhile_cons, hd] using h)
      · have hd' : isBlank d = false := by simpa using hd
        have hcons : d :: ds = c :: rest := by simpa [trimStart, List.dropWhile_cons, hd'] using h
        exact (List.cons.inj hcons).1 ▸ hd'

/-- Trimming the front twice is trimming it once. -/
theorem trimStart_trimStart (cs : List Char) : trimStart (trimStart cs) = trimStart cs := by
  cases h : trimStart cs with
  | nil => rfl
  | cons c rest => simp [trimStart, isBlank_head_trimStart h]

end ObjectGraph.Text
