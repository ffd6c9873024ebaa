import Mathlib.Data.List.Basic
import ObjectGraph.Proofs.Relative

/-!
# `Proofs.Walking` — where a path leads

A directory is known by the names that lead to it from the top, and a path is walked from there segment by segment: a
name enters a directory, `..` leaves it, and the top is above itself. Normalization knows nothing of where the walk
starts. What it keeps of a path are levels up, of which a path from the top has none, and names behind them
(`Reduced`). That is enough to say where the path leads from everywhere: out of as many directories as there are
levels, and then into the names (`follow_of_kept`). And it is no more than can be told from where the path leads: the
names are where it leads from the top, and a directory that is deep enough, of a name that the path does not have, shows
how many of its names are left behind (`count_follow`). So two paths are normalized alike exactly if they lead to the
same place from everywhere.

Contents:
* `Path.start`, `step`, `follow`: walking; `IsDirectory`;
* `segments`, the segments of a path, and `segments_normalize`;
* `Reduced`, `Reduced.push`, `reduced_keptSegments`: what is kept of a path;
* `follow_normalize`, `follow_of_kept`, `count_follow`, `normalize_eq_of_follow`;
* `normalize_canonical`.
-/

namespace ObjectGraph.Path

open Text (split join)

variable {absolute : Bool} {here kept names : List (List Char)} {path other segment : List Char} {ups : Nat}

/-! ## Walking -/

/-- Where the walk along a path starts: at the top, or in the directory `here`. -/
def start (here : List (List Char)) (path : List Char) : List (List Char) :=
  if isAbsolute path then [] else here

/-- Where a segment leads from a directory, which is the stack of the names that lead there from the top. -/
def step (here : List (List Char)) (segment : List Char) : List (List Char) :=
  if segment = [] ∨ segment = ['.'] then here
  else if segment = ['.', '.'] then here.tail
  else segment :: here

/-- Where a path leads from the directory `here`. -/
def follow (here : List (List Char)) (path : List Char) : List (List Char) :=
  (split '/' path).foldl step (start here path)

/-- A directory below the top: all that leads there are names. -/
def IsDirectory (here : List (List Char)) : Prop := ∀ name ∈ here, IsEntry name ∧ '/' ∉ name

theorem step_blank (h : segment = [] ∨ segment = ['.']) : step here segment = here := if_pos h

theorem step_up (here : List (List Char)) : step here ['.', '.'] = here.tail := by simp [step]

theorem step_entry (h : IsEntry segment) : step here segment = segment :: here := by
  simp [step, h.1, h.2.1, h.2.2]

theorem start_nil (path : List Char) : start [] path = [] := by
  unfold start
  split
  · rfl
  · rfl

/-- The segments that are kept lead where the path does. -/
theorem follow_kept (here : List (List Char)) (path : List Char) :
    follow here path = (keptSegments path).foldl step (start here path) := by
  have top (absolute : isAbsolute path = true) : step (start here path) ['.', '.'] = start here path := by
    rw [start, if_pos absolute]
    exact step_up []
  have back (dir : List (List Char)) (segment : List Char) (h : IsEntry segment) :
      step (step dir segment) ['.', '.'] = dir := by
    rw [step_entry h, step_up, List.tail_cons]
  exact (foldl_reduced (fun _ _ => step_blank) back top (split '/' path)).symm

/-! ## What is kept of a path -/

/-- The segments between the slashes of a path. The slash in front of an absolute path is not between segments, and
where nothing else is left there are none. -/
def segments (path : List Char) : List (List Char) :=
  let rest := if isAbsolute path then path.tail else path
  if rest = [] then [] else split '/' rest

/-- The segments that are kept are the segments of the normalized path. -/
theorem segments_normalize (path : List Char) : segments (normalize path) = keptSegments path := by
  have rest : (if isAbsolute (normalize path) then (normalize path).tail else normalize path)
      = join '/' (keptSegments path) := by
    rw [isAbsolute_normalize, normalize]
    cases isAbsolute path with
    | true => rfl
    | false => rfl
  unfold segments
  rw [rest]
  by_cases none : keptSegments path = []
  · rw [none]
    rfl
  · have cut : split '/' (join '/' (keptSegments path)) = keptSegments path :=
      Text.split_join none fun _ mem => (mem_keptSegments mem).2
    have some : join '/' (keptSegments path) ≠ [] := by
      intro empty
      have blank : [] ∈ keptSegments path := by
        rw [← cut, empty]
        exact List.mem_singleton_self []
      exact (mem_keptSegments blank).1 rfl
    show (if join '/' (keptSegments path) = [] then [] else split '/' (join '/' (keptSegments path))) = _
    rw [if_neg some, cut]

/-- Nothing more is lost when a path is normalized again. -/
theorem keptSegments_normalize (path : List Char) : keptSegments (normalize path) = keptSegments path := by
  have same : walk (isAbsolute path) [] (split '/' (normalize path)) = walk (isAbsolute path) [] (split '/' path) :=
    walk_normalize fun top => ⟨top, rfl⟩
  show (walk (isAbsolute (normalize path)) [] (split '/' (normalize path))).reverse = _
  rw [isAbsolute_normalize, same]
  rfl

/-- A row of segments that cannot be reduced: levels up, of which a path from the top has none, and names. -/
def Reduced (absolute : Bool) (row : List (List Char)) : Prop :=
  ∃ ups names, row = List.replicate ups ['.', '.'] ++ names ∧ (∀ name ∈ names, IsEntry name) ∧
    (absolute = true → ups = 0)

theorem segment_cases (segment : List Char) :
    (segment = [] ∨ segment = ['.']) ∨ segment = ['.', '.'] ∨ IsEntry segment := by
  unfold IsEntry
  tauto

/-- One segment more leaves a row that cannot be reduced. -/
theorem Reduced.push (h : Reduced absolute kept.reverse) (segment : List Char) :
    Reduced absolute (push absolute kept segment).reverse := by
  obtain ⟨ups, names, row, named, top⟩ := h
  rcases segment_cases segment with blank | rfl | entry
  · have idle : Path.push absolute kept segment = kept := if_pos blank
    rw [idle]
    exact ⟨ups, names, row, named, top⟩
  · rcases names.eq_nil_or_concat' with rfl | ⟨front, last, rfl⟩
    · -- there is no name to take back: one more level up, unless the row starts at the top
      have levels : kept = List.replicate ups ['.', '.'] := by
        rw [← kept.reverse_reverse, row, List.append_nil, List.reverse_replicate]
      subst levels
      cases absolute with
      | true =>
          obtain rfl := top rfl
          exact ⟨0, [], rfl, named, top⟩
      | false =>
          have more : Path.push false (List.replicate ups ['.', '.']) ['.', '.']
              = List.replicate (ups + 1) ['.', '.'] := by
            cases ups with
            | zero => rfl
            | succ ups => rfl
          rw [more, List.reverse_replicate]
          exact ⟨ups + 1, [], (List.append_nil _).symm, named, nofun⟩
    · -- the last name is taken back
      have entry : IsEntry last := named last (by simp)
      have stack : kept = last :: (List.replicate ups ['.', '.'] ++ front).reverse := by
        rw [← kept.reverse_reverse, row, ← List.append_assoc, List.reverse_concat]
      have taken : Path.push absolute kept ['.', '.'] = (List.replicate ups ['.', '.'] ++ front).reverse := by
        rw [stack]
        simp [Path.push, entry.2.2]
      rw [taken, List.reverse_reverse]
      exact ⟨ups, front, rfl, fun name mem => named name (List.mem_append_left _ mem), top⟩
  · refine ⟨ups, names ++ [segment], ?_, ?_, top⟩
    · rw [push_entry entry, List.reverse_cons, row, List.append_assoc]
    · intro name mem
      rcases List.mem_append.mp mem with mem | mem
      · exact named name mem
      · exact List.mem_singleton.mp mem ▸ entry

/-- What is kept of a path cannot be reduced. -/
theorem reduced_keptSegments (path : List Char) : Reduced (isAbsolute path) (keptSegments path) := by
  show Reduced (isAbsolute path) (walk (isAbsolute path) [] (split '/' path)).reverse
  generalize split '/' path = segments
  induction segments using List.reverseRecOn with
  | nil => exact ⟨0, [], rfl, nofun, fun _ => rfl⟩
  | append_singleton segments next ih =>
      rw [walk_concat]
      exact ih.push next

/-! ## Where a normalized path leads -/

/-- A normalized path leads where the path does, from everywhere. -/
theorem follow_normalize (here : List (List Char)) (path : List Char) :
    follow here (normalize path) = follow here path := by
  have same : start here (normalize path) = start here path := by
    rw [start, start, isAbsolute_normalize]
  rw [follow_kept, follow_kept, keptSegments_normalize, same]

theorem foldl_step_ups (ups : Nat) (here : List (List Char)) :
    (List.replicate ups ['.', '.']).foldl step here = here.drop ups := by
  induction ups generalizing here with
  | zero => rfl
  | succ ups ih => rw [List.replicate_succ, List.foldl_cons, step_up, ih, List.drop_tail]

theorem foldl_step_names (named : ∀ name ∈ names, IsEntry name) (here : List (List Char)) :
    names.foldl step here = names.reverse ++ here := by
  induction names generalizing here with
  | nil => rfl
  | cons name names ih =>
      obtain ⟨entry, named⟩ := List.forall_mem_cons.mp named
      rw [List.foldl_cons, step_entry entry, ih named, List.reverse_cons, List.append_assoc]
      rfl

/-- A path leads out of as many directories as it keeps levels up, and into the names that it keeps. -/
theorem follow_of_kept (row : keptSegments path = List.replicate ups ['.', '.'] ++ names)
    (named : ∀ name ∈ names, IsEntry name) (here : List (List Char)) :
    follow here path = names.reverse ++ (start here path).drop ups := by
  rw [follow_kept, row, List.foldl_append, foldl_step_ups, foldl_step_names named]

example : follow ["app".toList, "conf".toList] "../../../x".toList = ["x".toList] := by decide

/-- How much is left of a directory that has only one name, over and over, which the path does not have. -/
theorem count_follow {name : List Char} (row : keptSegments path = List.replicate ups ['.', '.'] ++ names)
    (named : ∀ name ∈ names, IsEntry name) (fresh : name ∉ names) (depth : Nat) :
    (follow (List.replicate depth name) path).count name = if isAbsolute path then 0 else depth - ups := by
  rw [follow_of_kept row named, List.count_append, List.count_reverse, List.count_eq_zero_of_not_mem fresh,
    Nat.zero_add, start]
  split
  · rw [List.drop_nil, List.count_nil]
  · rw [List.drop_replicate, List.count_replicate_self]

/-- There is always one more name. -/
theorem exists_name_not_mem (taken : List (List Char)) :
    ∃ name, (IsEntry name ∧ '/' ∉ name) ∧ name ∉ taken := by
  have plain (c : Char) (n : Nat) (h : c ∈ List.replicate n 'x') : c = 'x' := List.eq_of_mem_replicate h
  refine ⟨List.replicate (taken.flatten.length + 1) 'x', ⟨⟨?_, ?_, ?_⟩, ?_⟩, ?_⟩
  · exact nofun
  · intro dot
    exact absurd (plain '.' _ (dot ▸ List.mem_cons_self)) (by decide)
  · intro up
    exact absurd (plain '.' _ (up ▸ List.mem_cons_self)) (by decide)
  · intro slash
    exact absurd (plain '/' _ slash) (by decide)
  · intro mem
    have short := (List.sublist_flatten_of_mem mem).length_le
    rw [List.length_replicate] at short
    exact Nat.not_succ_le_self _ short

/-- What is left of a directory that is deep enough tells the levels up of two rows, and whether they start at the
top. -/
theorem levels_of_left {absolute absolute' : Bool} {ups ups' : Nat} (top : absolute = true → ups = 0)
    (top' : absolute' = true → ups' = 0)
    (left : (if absolute' then 0 else ups + ups' + 1 - ups') = if absolute then 0 else ups + ups' + 1 - ups) :
    absolute' = absolute ∧ ups' = ups := by
  cases absolute with
  | true =>
      cases absolute' with
      | true => exact ⟨rfl, (top' rfl).trans (top rfl).symm⟩
      | false =>
          simp only [if_true, Bool.false_eq_true, if_false] at left
          omega
  | false =>
      cases absolute' with
      | true =>
          simp only [if_true, Bool.false_eq_true, if_false] at left
          omega
      | false =>
          simp only [Bool.false_eq_true, if_false] at left
          exact ⟨rfl, by omega⟩

/-- Paths that lead to the same place from every directory are normalized alike. -/
theorem normalize_eq_of_follow (alike : ∀ here, IsDirectory here → follow here other = follow here path) :
    normalize other = normalize path := by
  obtain ⟨ups, names, row, named, top⟩ := reduced_keptSegments path
  obtain ⟨ups', names', row', named', top'⟩ := reduced_keptSegments other
  have same_names : names' = names := by
    have ends := alike [] nofun
    rw [follow_of_kept row' named', follow_of_kept row named, start_nil, start_nil, List.drop_nil, List.drop_nil,
      List.append_nil, List.append_nil] at ends
    exact List.reverse_inj.mp ends
  subst same_names
  -- deep enough for the levels up of both paths, so that something is left unless a path starts at the top
  obtain ⟨name, isName, fresh⟩ := exists_name_not_mem names'
  have deep : IsDirectory (List.replicate (ups + ups' + 1) name) := fun n mem => List.eq_of_mem_replicate mem ▸ isName
  have left := congrArg (List.count name) (alike _ deep)
  rw [count_follow row' named' fresh, count_follow row named' fresh] at left
  obtain ⟨absolute, levels⟩ := levels_of_left top top' left
  unfold normalize
  rw [row, row', absolute, levels]

/-- **Normalization is sound and canonical.** A normalized path has neither empty nor `.` segments, starts at the top
exactly if the path does, has `..` only in front, and not at all if it starts at the top. Normalizing it again changes
nothing. It leads where the path does, from every directory; and the paths that do so are normalized to the same. -/
theorem normalize_canonical (path : List Char) :
    (∀ segment ∈ segments (normalize path), segment ≠ [] ∧ segment ≠ ['.']) ∧
    isAbsolute (normalize path) = isAbsolute path ∧
    (∃ ups names, segments (normalize path) = List.replicate ups ['.', '.'] ++ names ∧ ['.', '.'] ∉ names ∧
      (isAbsolute path = true → ups = 0)) ∧
    normalize (normalize path) = normalize path ∧
    (∀ here, follow here (normalize path) = follow here path) ∧
    ∀ other, normalize other = normalize path ↔
      ∀ here, IsDirectory here → follow here other = follow here path := by
  obtain ⟨ups, names, row, named, top⟩ := reduced_keptSegments path
  have below : ['.', '.'] ∉ names := fun mem => (named _ mem).2.2 rfl
  refine ⟨?_, isAbsolute_normalize path, ⟨ups, names, ?_, below, top⟩, ?_, ?_, ?_⟩
  · intro segment mem
    rw [segments_normalize, keptSegments] at mem
    obtain ⟨-, some, other, -⟩ := mem_walk (List.mem_reverse.mp mem)
    exact ⟨some, other⟩
  · rw [segments_normalize, row]
  · exact normalize_eq_of_follow fun here _ => follow_normalize here path
  · intro here
    exact follow_normalize here path
  · intro other
    constructor
    · intro same here _
      rw [← follow_normalize here other, same, follow_normalize]
    · exact normalize_eq_of_follow

/-- A path with detours leads where the path without them does. Two paths into the directory `c`, which are the same
walk from everywhere, are normalized alike. -/
theorem normalize_canonical_detours :
    (∀ here, follow here "../a/c".toList = follow here "../a/./b//../c/".toList) ∧
    (∀ here, IsDirectory here → follow here "b/../c".toList = follow here "./c//".toList) ∧
    normalize "b/../c".toList = normalize "./c//".toList := by
  have straight : normalize "../a/./b//../c/".toList = "../a/c".toList := by decide
  have alike : ∀ here, IsDirectory here → follow here "b/../c".toList = follow here "./c//".toList := fun _ _ => rfl
  obtain ⟨-, -, -, -, leads, -⟩ := normalize_canonical "../a/./b//../c/".toList
  obtain ⟨-, -, -, -, -, canonical⟩ := normalize_canonical "./c//".toList
  refine ⟨?_, alike, (canonical _).mpr alike⟩
  rwa [straight] at leads

end ObjectGraph.Path
