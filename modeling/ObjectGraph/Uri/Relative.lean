import ObjectGraph.Uri

/-!
# `Uri.Relative` — relative references

A URI found in a resource is resolved against the URI of that resource. Only a relative name of the
same scheme changes: an empty one becomes the name of the resource, any other is taken from the
directory of the resource, and its `.` and `..` segments are collapsed.

Contents:
* `normalize` on paths, by a stack of the segments kept so far;
* `Uri.resolveAgainst`.
-/

namespace ObjectGraph

namespace Path

/-- One segment on top of the segments kept so far, the last of them first. Empty and `.` segments
vanish; `..` takes back a named segment, stays in front of a relative path, and vanishes at the top
of an absolute one. -/
def push (absolute : Bool) (kept : List (List Char)) (segment : List Char) : List (List Char) :=
  if segment = [] ∨ segment = ['.'] then kept
  else if segment = ['.', '.'] then
    match kept with
    -- `..` takes back a named segment only
    | last :: rest => if last = ['.', '.'] then (if absolute then kept else segment :: kept) else rest
    | [] => if absolute then [] else [segment]
  else segment :: kept

/-- The path starts at the top. -/
def isAbsolute (path : List Char) : Bool := path.head? == some '/'

/-- The segments that a path keeps, in order. -/
def keptSegments (path : List Char) : List (List Char) :=
  ((Text.split '/' path).foldl (push (isAbsolute path)) []).reverse

/-- A path without empty, `.` and reducible `..` segments. -/
def normalize (path : List Char) : List Char :=
  (if isAbsolute path then ['/'] else []) ++ Text.join '/' (keptSegments path)

/-- The directory part of a path, with its final slash. -/
def directory (path : List Char) : List Char := (path.reverse.dropWhile (· != '/')).reverse

end Path

namespace Uri

/-- `u` as it is meant in a resource found at `base`. -/
def resolveAgainst (u base : Uri) : Uri :=
  if u.scheme ≠ base.scheme ∨ u.isRelative = false then u
  else if u.name = "" then u.withName base.name
  else u.withName
    (String.ofList (Path.normalize (Path.directory base.name.toList ++ u.name.toList)))

/-- Names of other schemes and absolute names stay as they are. -/
theorem resolveAgainst_of_ne_scheme {u base : Uri} (h : u.scheme ≠ base.scheme) :
    u.resolveAgainst base = u := by simp [resolveAgainst, h]

end Uri

end ObjectGraph
