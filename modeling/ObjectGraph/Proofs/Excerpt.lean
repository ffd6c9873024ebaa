import Mathlib.Data.List.Basic
import Mathlib.Data.List.TakeWhile
import ObjectGraph.Document

/-!
# `Proofs.Excerpt` — the excerpt of a malformed document

The reader of JSON counts the line feeds in front of a fault, the excerpt cuts the document into lines.
The two agree but for one case: what follows the last line feed is no line if it is empty. So a fault past
the last line feed of a document that ends with it, and a fault in an empty document, is reported on a line
after the last, and then no caret shows it. Everywhere else there is a caret, under the line that is
reported.

Contents:
* `Text.length_split`, `Text.getLast?_split`, `length_linesOf`: how many lines there are;
* `Json.line_position`, `Json.line_parse`: where a fault is reported;
* `excerptRows`, `shownLines`, `excerptRows_of_le`, `excerptRows_of_gt`: the rows of an excerpt;
* `Document.excerpt_of_read`, for every document that is rejected; `fault?`, for given ones.
-/

namespace ObjectGraph

/-! ## Lines -/

namespace Text

/-- A text has one piece more than it has separators. -/
theorem length_split (sep : Char) (cs : List Char) : (split sep cs).length = cs.count sep + 1 := by
  induction cs with
  | nil => rfl
  | cons c cs ih =>
      by_cases h : c = sep
      · subst h
        rw [split_cons_self, List.length_cons, ih, List.count_cons_self]
      · obtain ⟨piece, pieces, hs, hc⟩ := split_cons_of_ne h cs
        rw [hc, List.length_cons, ← List.length_cons (a := piece), ← hs, ih, List.count_cons_of_ne h]

/-- The last piece is empty if nothing follows the last separator. -/
theorem getLast?_split (sep : Char) (cs : List Char) :
    (split sep cs).getLast? = some [] ↔ cs = [] ∨ cs.getLast? = some sep := by
  constructor
  · intro h
    obtain ⟨pieces, hs⟩ := List.getLast?_eq_some_iff.mp h
    have whole := join_split sep cs
    rw [hs] at whole
    by_cases hp : pieces = []
    · subst hp
      exact .inl whole.symm
    · rw [join_append sep hp (by simp)] at whole
      right
      rw [← whole]
      simp [join]
  · rintro (rfl | h)
    · rfl
    · obtain ⟨front, rfl⟩ := List.getLast?_eq_some_iff.mp h
      rw [split_append_sep]
      simp [split]

/-- Rows that are each ended by a separator are the pieces in front of an empty one. -/
theorem split_ended {sep : Char} {rows : List (List Char)} (h : ∀ row ∈ rows, sep ∉ row) :
    split sep (rows.flatMap (· ++ [sep])) = rows ++ [[]] := by
  induction rows with
  | nil => rfl
  | cons row rows ih =>
      have rest := ih fun r hr => h r (List.mem_cons_of_mem _ hr)
      rw [List.flatMap_cons, List.append_assoc, List.singleton_append,
        split_append (h row List.mem_cons_self), rest, List.cons_append]

end Text

/-- Nothing follows the last line feed of a text. -/
def Ended (source : String) : Prop := source.toList = [] ∨ source.toList.getLast? = some '\n'

instance (source : String) : Decidable (Ended source) :=
  inferInstanceAs (Decidable (_ ∨ _))

/-- A text has as many lines as line feeds, and one more if something follows the last of them. -/
theorem length_linesOf (source : String) :
    (linesOf source).length = source.toList.count '\n' + if Ended source then 0 else 1 := by
  have hpieces := Text.length_split '\n' source.toList
  have hlast := Text.getLast?_split '\n' source.toList
  obtain ⟨last, hl⟩ := Option.ne_none_iff_exists'.mp
    (mt List.getLast?_eq_none_iff.mp (Text.split_ne_nil '\n' source.toList))
  have hempty : last = [] ↔ Ended source := by
    rw [← Option.some_inj, ← hl]
    exact hlast
  simp only [linesOf, hl, Option.getD_some, List.length_map, List.length_append, List.length_dropLast,
    hpieces, Nat.add_sub_cancel]
  by_cases h : Ended source
  · rw [if_pos h, if_pos (hempty.mpr h), List.length_nil]
  · rw [if_neg h, if_neg (mt hempty.mp h), List.length_singleton]

/-- No line holds a line feed. -/
theorem not_mem_linesOf {source line : String} (h : line ∈ linesOf source) : '\n' ∉ line.toList := by
  obtain ⟨cs, hcs, rfl⟩ := List.mem_map.mp h
  rw [String.toList_ofList]
  rcases List.mem_append.mp hcs with hcs | hcs
  · obtain ⟨piece, hp, rfl⟩ := List.mem_map.mp hcs
    have whole := Text.not_mem_of_mem_split (List.dropLast_subset _ hp)
    unfold dropReturn
    split
    · exact fun hm => whole (List.dropLast_subset _ hm)
    · exact whole
  · obtain ⟨last, hl⟩ := Option.ne_none_iff_exists'.mp
      (mt List.getLast?_eq_none_iff.mp (Text.split_ne_nil '\n' source.toList))
    rw [hl, Option.getD_some] at hcs
    split at hcs
    · exact absurd hcs List.not_mem_nil
    · rw [List.mem_singleton.mp hcs]
      exact Text.not_mem_of_mem_split (List.mem_of_getLast? hl)

/-! ## The line of a fault -/

namespace Json

/-- Counting on passes no more lines than there are line feeds. -/
theorem line_position (line column offset : Nat) (cs : List Char) :
    line ≤ (position line column offset cs).1 ∧
      (position line column offset cs).1 ≤ line + cs.count '\n' := by
  fun_induction position line column offset cs with
  | case1 => exact ⟨Nat.le_refl _, Nat.le_add_right _ _⟩
  | case2 => exact ⟨Nat.le_refl _, Nat.le_add_right _ _⟩
  | case3 => exact ⟨Nat.le_refl _, Nat.le_add_right _ _⟩
  | case4 line column n cs hsize ih =>
      rw [List.count_cons_self]
      omega
  | case5 line column n c cs hsize hfeed ih =>
      rw [List.count_cons_of_ne hfeed]
      exact ih

/-- A fault is reported on a line that a line feed or the beginning of the text precedes. -/
theorem line_parse {source : String} {e : SyntaxError} (h : parse source = .error e) :
    1 ≤ e.line ∧ e.line ≤ 1 + source.toList.count '\n' := by
  unfold parse at h
  split at h
  · exact absurd h (by simp)
  · obtain rfl := Except.error.inj h
    exact line_position 1 0 _ source.toList

end Json

/-! ## The rows of an excerpt -/

/-- The rows of an excerpt, each of which a line feed ends. -/
def excerptRows (excerpt : String) : List String := (Text.splitText '\n' excerpt).dropLast

/-- A line of a document, with its number, as an excerpt shows it. -/
def shownLine (source : String) (n : Nat) : String := lineMargin n ++ (linesOf source).getD (n - 1) ""

/-- The lines of a document from `first` to `last`, as an excerpt shows them. -/
def shownLines (source : String) (first last : Nat) : List String :=
  (List.range' first (last + 1 - first)).map (shownLine source)

/-- The row of a caret under column `column` of line `line`. -/
def caretRow (line column : Nat) : String :=
  String.ofList (List.replicate ((lineMargin line).length + (column - 1)) ' ' ++ ['^'])

/-- The row holds a caret and else only blanks in front of it. -/
def isCaretRow (row : String) : Bool := row.toList.dropWhile (· == ' ') == ['^']

theorem isCaretRow_caretRow (line column : Nat) : isCaretRow (caretRow line column) = true := by
  unfold isCaretRow caretRow
  rw [String.toList_ofList, List.dropWhile_append_of_pos (by simp)]
  rfl

theorem toList_lineMargin (n : Nat) : (lineMargin n).toList
    = ' ' :: (List.replicate (4 - (Decimal.natText n).length) ' ' ++ Nat.toDigits 10 n ++ [' ', '|', ' ']) := by
  simp [lineMargin, alignRight, Decimal.natText]

/-- The bar of a line is no caret and no blank. -/
theorem isCaretRow_shownLine (source : String) (n : Nat) : isCaretRow (shownLine source n) = false := by
  have bar : '|' ∈ (shownLine source n).toList := by
    simp [shownLine, toList_lineMargin]
  rw [isCaretRow, beq_eq_false_iff_ne]
  intro h
  rw [← List.takeWhile_append_dropWhile (p := (· == ' ')) (l := (shownLine source n).toList), h] at bar
  rcases List.mem_append.mp bar with bar | bar
  · exact absurd (List.mem_takeWhile_imp bar) (by decide)
  · exact absurd (List.mem_singleton.mp bar) (by decide)

theorem not_mem_shownLine (source : String) (n : Nat) : '\n' ∉ (shownLine source n).toList := by
  rw [shownLine, String.toList_append, List.mem_append, toList_lineMargin]
  rintro (h | h)
  · have digit : '\n' ∉ Nat.toDigits 10 n := fun hm =>
      absurd (Decimal.isDigit_of_mem_toDigits hm) (by decide)
    simp [digit] at h
  · rw [List.getD_eq_getElem?_getD] at h
    cases hl : (linesOf source)[n - 1]? with
    | none => simp [hl] at h
    | some line =>
        rw [hl, Option.getD_some] at h
        exact not_mem_linesOf (List.mem_of_getElem? hl) h

theorem not_mem_caretRow (line column : Nat) : '\n' ∉ (caretRow line column).toList := by
  simp [caretRow]

/-- An excerpt is made of its rows: the lines around, and the caret under the line it is asked for. -/
theorem excerptRows_excerptAt (source : String) (line column : Nat) :
    excerptRows (excerptAt source line column)
      = (List.range' (max 1 (line - 2)) (min (linesOf source).length (line + 1) + 1 - max 1 (line - 2))).flatMap
          fun n => shownLine source n :: if n = line then [caretRow line column] else [] := by
  generalize hns : List.range' (max 1 (line - 2)) _ = ns
  have ended : (excerptAt source line column).toList
      = ((ns.flatMap fun n => shownLine source n :: if n = line then [caretRow line column] else []).map
          String.toList).flatMap (· ++ ['\n']) := by
    unfold excerptAt
    simp only [hns, String.toList_join, List.flatMap_map, List.map_flatMap, List.flatMap_assoc]
    refine List.flatMap_congr fun n _ => ?_
    by_cases h : n = line
    · subst h
      simp [shownLine, caretLine, caretRow]
    · simp [h, shownLine]
  rw [excerptRows, Text.splitText, ended, Text.split_ended, List.map_append, List.map_singleton,
    List.dropLast_concat, List.map_map]
  · exact List.map_id'' (fun row => String.ofList_toList) _
  · intro row hrow
    obtain ⟨r, hr, rfl⟩ := List.mem_map.mp hrow
    obtain ⟨n, -, hr⟩ := List.mem_flatMap.mp hr
    rcases List.mem_cons.mp hr with rfl | hr
    · exact not_mem_shownLine source n
    · split at hr
      · rw [List.mem_singleton.mp hr]
        exact not_mem_caretRow line column
      · exact absurd hr List.not_mem_nil

/-- Lines other than the one with the caret are only shown. -/
theorem flatMap_shownLine {source : String} {line column : Nat} {ns : List Nat} (h : line ∉ ns) :
    (ns.flatMap fun n => shownLine source n :: if n = line then [caretRow line column] else [])
      = ns.map (shownLine source) := by
  rw [List.map_eq_flatMap]
  refine List.flatMap_congr fun n hn => ?_
  have other : n ≠ line := fun he => h (he ▸ hn)
  rw [if_neg other]

/-- The excerpt at a line of the document has the caret under this line. -/
theorem excerptRows_of_le {source : String} {line column : Nat} (hpos : 1 ≤ line)
    (h : line ≤ (linesOf source).length) :
    excerptRows (excerptAt source line column)
      = shownLines source (max 1 (line - 2)) line ++ caretRow line column ::
          shownLines source (line + 1) (min (linesOf source).length (line + 1)) := by
  rw [excerptRows_excerptAt]
  generalize hlast : min (linesOf source).length (line + 1) = last
  -- the lines before, the line itself and the lines after
  have parts : List.range' (max 1 (line - 2)) (last + 1 - max 1 (line - 2))
      = List.range' (max 1 (line - 2)) (line - max 1 (line - 2)) ++
          line :: List.range' (line + 1) (last + 1 - (line + 1)) := by
    have split := List.range'_append_1 (s := max 1 (line - 2)) (m := line - max 1 (line - 2))
      (n := last + 1 - line)
    have rest := @List.range'_succ line (last + 1 - (line + 1)) 1
    rw [show max 1 (line - 2) + (line - max 1 (line - 2)) = line by omega,
      show line - max 1 (line - 2) + (last + 1 - line) = last + 1 - max 1 (line - 2) by omega] at split
    rw [← split, ← rest, show last + 1 - (line + 1) + 1 = last + 1 - line by omega]
  have before : List.range' (max 1 (line - 2)) (line + 1 - max 1 (line - 2))
      = List.range' (max 1 (line - 2)) (line - max 1 (line - 2)) ++ [line] := by
    rw [show line + 1 - max 1 (line - 2) = line - max 1 (line - 2) + 1 by omega, List.range'_1_concat,
      show max 1 (line - 2) + (line - max 1 (line - 2)) = line by omega]
  rw [parts, List.flatMap_append, List.flatMap_cons, if_pos rfl,
    flatMap_shownLine (fun hm => by have := List.mem_range'_1.mp hm; omega),
    flatMap_shownLine (fun hm => by have := List.mem_range'_1.mp hm; omega), shownLines, shownLines, before]
  simp

/-- The excerpt at a line after the last has no caret. -/
theorem excerptRows_of_gt {source : String} {line column : Nat} (h : (linesOf source).length < line) :
    excerptRows (excerptAt source line column)
      = shownLines source (max 1 (line - 2)) (linesOf source).length := by
  rw [excerptRows_excerptAt, Nat.min_eq_left (by omega)]
  refine flatMap_shownLine fun hm => ?_
  have := List.mem_range'_1.mp hm
  omega

/-- None of the lines shown is a caret. -/
theorem countP_shownLines (source : String) (first last : Nat) :
    (shownLines source first last).countP isCaretRow = 0 := by
  rw [List.countP_eq_zero]
  intro row hrow
  obtain ⟨n, -, rfl⟩ := List.mem_map.mp hrow
  rw [isCaretRow_shownLine]
  exact Bool.false_ne_true

/-! ## Documents that are rejected -/

namespace Document

/-- A document in JSON is rejected at the place at which its text is malformed, with the excerpt there. -/
theorem parse_of_read {source : String} {path p : Option String} {handler : Handler} {line column : Nat}
    {message excerpt : String}
    (h : read source .json path handler = .error (.parse p line column message excerpt)) :
    ∃ e : Json.SyntaxError, Json.parse source = .error e ∧ e.line = line ∧ e.column = column ∧
      excerpt = excerptAt source line column := by
  unfold read readData at h
  dsimp only at h
  cases hp : Json.parse source with
  | ok j =>
      simp only [hp] at h
      split at h <;> simp at h
  | error e =>
      simp only [hp, Except.error.injEq, Error.parse.injEq] at h
      obtain ⟨-, rfl, rfl, -, rfl⟩ := h
      exact ⟨e, rfl, rfl, rfl, rfl⟩

/-- A malformed text is rejected, at the place at which it is malformed. -/
theorem read_of_parse {source : String} {e : Json.SyntaxError} (h : Json.parse source = .error e)
    (path : Option String) (handler : Handler) : read source .json path handler
      = .error (.parse path e.line e.column e.message (excerptAt source e.line e.column)) := by
  unfold read readData
  dsimp only
  rw [h]

/-- A document that is rejected as JSON is rejected on one of its lines or on the line after the last, and
on the latter exactly if nothing follows its last line feed and all its line feeds come before the fault.
The excerpt shows two lines before and one after, as far as there are any. On one of the lines a caret is
under it, and there is no other; after the last line there is no caret. -/
theorem excerpt_of_read {source : String} {path p : Option String} {handler : Handler} {line column : Nat}
    {message excerpt : String}
    (h : read source .json path handler = .error (.parse p line column message excerpt)) :
    let lines := (linesOf source).length
    1 ≤ line ∧ line ≤ lines + 1 ∧
      (line = lines + 1 ↔ Ended source ∧ line = source.toList.count '\n' + 1) ∧
      (line ≤ lines → excerptRows excerpt = shownLines source (max 1 (line - 2)) line ++
        caretRow line column :: shownLines source (line + 1) (min lines (line + 1))) ∧
      (line = lines + 1 → excerptRows excerpt = shownLines source (max 1 (line - 2)) lines) ∧
      (excerptRows excerpt).countP isCaretRow = if line ≤ lines then 1 else 0 := by
  intro lines
  obtain ⟨e, hparse, hline, -, rfl⟩ := parse_of_read h
  obtain ⟨hfirst, hfeeds⟩ := Json.line_parse hparse
  rw [hline] at hfirst hfeeds
  have hlines : lines = source.toList.count '\n' + if Ended source then 0 else 1 := length_linesOf source
  have within : line ≤ lines → excerptRows (excerptAt source line column) = _ :=
    excerptRows_of_le hfirst
  have beyond : lines < line → excerptRows (excerptAt source line column) = _ := excerptRows_of_gt
  refine ⟨hfirst, ?_, ?_, within, fun hl => beyond (by omega), ?_⟩
  · split at hlines <;> omega
  · by_cases hended : Ended source
    · rw [if_pos hended] at hlines
      constructor
      · intro hl
        exact ⟨hended, by omega⟩
      · rintro ⟨-, hl⟩
        omega
    · rw [if_neg hended] at hlines
      constructor
      · intro hl
        omega
      · rintro ⟨hended', -⟩
        exact absurd hended' hended
  · by_cases hl : line ≤ lines
    · rw [if_pos hl, within hl, List.countP_append, List.countP_cons_of_pos (isCaretRow_caretRow line column),
        countP_shownLines, countP_shownLines]
    · rw [if_neg hl, beyond (by omega), countP_shownLines]

/-- The fault for which a text is rejected, if it is. -/
def fault? (source : String) : Option Json.SyntaxError :=
  match Json.parse source with
  | .ok _ => none
  | .error e => some e

theorem parse_of_fault? {source : String} {e : Json.SyntaxError} (h : fault? source = some e) :
    Json.parse source = .error e := by
  unfold fault? at h
  split at h
  next => exact absurd h (by simp)
  next f rejected => rw [rejected, Option.some.inj h]

/-- A colon is missing on the second of two lines, and the caret is under it. -/
theorem excerpt_of_missing_colon :
    let source := "\x7b\n\"a\" 1\x7d"
    let excerpt := "    1 | \x7b\n    2 | \"a\" 1\x7d\n            ^\n"
    read source .json none .standard
        = .error (.parse none 2 5 "expected `:` at line 2 column 5" excerpt) ∧
      excerptRows excerpt = shownLines source 1 2 ++ [caretRow 2 5] ∧
      (excerptRows excerpt).countP isCaretRow = 1 := by
  intro source excerpt
  have hparse : Json.parse source = .error ⟨.expectedColon, 2, 5⟩ := parse_of_fault? (by decide +kernel)
  have hmessage : Json.SyntaxError.message ⟨.expectedColon, 2, 5⟩ = "expected `:` at line 2 column 5" := by
    decide +kernel
  have hexcerpt : excerptAt source 2 5 = excerpt := by decide +kernel
  have hlines : (linesOf source).length = 2 := by decide +kernel
  have hread : read source .json none .standard
      = .error (.parse none 2 5 "expected `:` at line 2 column 5" excerpt) := by
    rw [read_of_parse hparse, hmessage, hexcerpt]
  obtain ⟨-, -, -, hrows, -, hcount⟩ := excerpt_of_read hread
  rw [hlines] at hrows hcount
  exact ⟨hread, hrows (Nat.le_refl 2), hcount⟩

/-- The excerpt of a rejected document need not have a caret: an object begins, and the line with it ends,
but nothing follows. -/
theorem not_caret_of_read : ¬ ∀ (source : String) (path p : Option String) (handler : Handler)
    (line column : Nat) (message excerpt : String),
    read source .json path handler = .error (.parse p line column message excerpt) →
    (excerptRows excerpt).countP isCaretRow = 1 := by
  intro h
  have hparse : Json.parse "\x7b\n" = .error ⟨.endInObject, 2, 0⟩ := parse_of_fault? (by decide +kernel)
  have hcaret := h "\x7b\n" none none .standard 2 0 _ _ (read_of_parse hparse none .standard)
  have hnone : (excerptRows (excerptAt "\x7b\n" 2 0)).countP isCaretRow = 0 := by decide +kernel
  exact absurd (hnone.symm.trans hcaret) (by decide)

end Document

end ObjectGraph
