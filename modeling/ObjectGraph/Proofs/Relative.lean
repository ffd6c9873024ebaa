import Mathlib.Data.List.Induction
import ObjectGraph.Handler.Dereference

/-!
# `Proofs.Relative` — references found through references

A document that is reached by a relative reference holds relative references in turn. A path is walked with a
stack of the segments kept so far, and a path that was normalized before moves every stack as the path itself
does (`walk_normalize`): each `..` that it has lost took back a name that it has lost as well. So it makes no
difference whether a reference is resolved against the place of its document, or is joined to the reference
by which that document was found and resolved against the place of that one.

Contents:
* `Path.IsEntry`, `Path.EndsInEntry`;
* `Path.walk`, `walk_reduced`, `walk_normalize`: what normalization does to a walk;
* `Path.resolve`, `resolve_assoc`, `EndsInEntry.resolve`;
* `Bracketing`, its `collapse`, and `Handler.reached`, the place where a chain of references ends;
* `Uri.nested_references`.
-/

namespace ObjectGraph

open Text (split join)

namespace Path

variable {absolute inner outer : Bool} {below : List (List Char)} {path u b c : List Char}

/-! ## Segments that name something -/

/-- A segment that names an entry of a directory. -/
def IsEntry (segment : List Char) : Prop := segment ≠ [] ∧ segment ≠ ['.'] ∧ segment ≠ ['.', '.']

instance (segment : List Char) : Decidable (IsEntry segment) := inferInstanceAs (Decidable (_ ∧ _ ∧ _))

/-- The path is empty or ends in the name of an entry. -/
def EndsInEntry (path : List Char) : Prop :=
  path = [] ∨ ((split '/' path).getLast?.any fun segment => decide (IsEntry segment)) = true

instance (path : List Char) : Decidable (EndsInEntry path) := inferInstanceAs (Decidable (_ ∨ _))

/-- The segments of such a path, the last of them apart. -/
theorem EndsInEntry.segments (h : EndsInEntry path) (some : path ≠ []) :
    ∃ front entry, split '/' path = front ++ [entry] ∧ IsEntry entry := by
  have last := h.resolve_left some
  have cut : split '/' path = _ := (List.dropLast_concat_getLast (Text.split_ne_nil '/' path)).symm
  generalize (split '/' path).dropLast = front, (split '/' path).getLast _ = entry at cut
  refine ⟨front, entry, cut, ?_⟩
  rw [cut] at last
  simpa using last

theorem EndsInEntry.of_segments {front : List (List Char)} {entry : List Char}
    (cut : split '/' path = front ++ [entry]) (h : IsEntry entry) : EndsInEntry path :=
  .inr (by simpa [cut] using h)

/-! ## Walking a path -/

/-- The segments kept after some more, on top of those kept `below`. -/
def walk (absolute : Bool) (below segments : List (List Char)) : List (List Char) :=
  segments.foldl (push absolute) below

@[simp] theorem walk_nil : walk absolute below [] = below := rfl

theorem walk_append (segments more : List (List Char)) :
    walk absolute below (segments ++ more) = walk absolute (walk absolute below segments) more :=
  List.foldl_append

theorem walk_concat (segments : List (List Char)) (segment : List Char) :
    walk absolute below (segments ++ [segment]) = push absolute (walk absolute below segments) segment :=
  walk_append segments [segment]

theorem push_blank : push absolute below [] = below := by simp [push]

theorem push_entry {segment : List Char} (h : IsEntry segment) :
    push absolute below segment = segment :: below := by
  simp [push, h.1, h.2.1, h.2.2]

/-- What a segment does to the segments kept: nothing, or it is kept, or it takes back the last one, or it
would leave the top. -/
theorem push_cases (absolute : Bool) (below : List (List Char)) (segment : List Char) :
    (∀ outer kept, push outer kept segment = kept)
      ∨ (push absolute below segment = segment :: below ∧ segment ≠ [] ∧ segment ≠ ['.']
          ∧ (absolute = true → segment ≠ ['.', '.']))
      ∨ (segment = ['.', '.'] ∧ ∃ last, below = last :: push absolute below segment ∧ last ≠ ['.', '.'])
      ∨ (segment = ['.', '.'] ∧ absolute = true ∧ push absolute below segment = below
          ∧ ∀ last ∈ below.head?, last = ['.', '.']) := by
  by_cases blank : segment = [] ∨ segment = ['.']
  · exact .inl fun outer kept => by simp [push, blank]
  · have named : segment ≠ [] ∧ segment ≠ ['.'] := not_or.mp blank
    by_cases up : segment = ['.', '.']
    · subst up
      cases below with
      | nil => cases absolute <;> simp [push]
      | cons last rest =>
          by_cases hl : last = ['.', '.']
          · cases absolute <;> simp [push, hl]
          · simp [push, hl]
    · exact .inr (.inl ⟨by simp [push, blank, up], named.1, named.2, fun _ => up⟩)

/-- What is kept is a segment of the path, is neither empty nor `.`, and is not `..` if the path starts at
the top. -/
theorem mem_walk {segments : List (List Char)} {segment : List Char}
    (h : segment ∈ walk absolute [] segments) :
    segment ∈ segments ∧ segment ≠ [] ∧ segment ≠ ['.'] ∧ (absolute = true → segment ≠ ['.', '.']) := by
  induction segments using List.reverseRecOn with
  | nil => exact absurd h (by simp)
  | append_singleton segments next ih =>
      have old (h : segment ∈ walk absolute [] segments) :
          segment ∈ segments ++ [next] ∧ segment ≠ [] ∧ segment ≠ ['.']
            ∧ (absolute = true → segment ≠ ['.', '.']) :=
        ⟨List.mem_append_left _ (ih h).1, (ih h).2⟩
      rw [walk_concat] at h
      rcases push_cases absolute (walk absolute [] segments) next with
        idle | ⟨kept, named⟩ | ⟨-, last, back, -⟩ | ⟨-, -, kept, -⟩
      · rw [idle] at h
        exact old h
      · rw [kept] at h
        rcases List.mem_cons.mp h with rfl | h
        · exact ⟨List.mem_append_right _ (List.mem_singleton_self _), named⟩
        · exact old h
      · exact old (back ▸ List.mem_cons_of_mem _ h)
      · exact old (kept ▸ h)

/-- A segment that is not kept where nothing is kept moves nothing. -/
theorem blank_of_push {segment : List Char} (h : push false [] segment = []) : segment = [] ∨ segment = ['.'] := by
  by_contra named
  by_cases up : segment = ['.', '.']
  · simp [push, up] at h
  · simp [push, named, up] at h

/-- Segments that were reduced before lead where they do themselves, whatever it is that moves: if blank ones leave it
where it is, and `..` takes back a name. A walk from the top, which may lose `..`, has to start where `..` leads
nowhere. -/
theorem foldl_reduced {Place : Type} {move : Place → List Char → Place} {start : Place}
    (blank : ∀ here segment, segment = [] ∨ segment = ['.'] → move here segment = here)
    (back : ∀ here segment, IsEntry segment → move (move here segment) ['.', '.'] = here)
    (top : inner = true → move start ['.', '.'] = start) (segments : List (List Char)) :
    (walk inner [] segments).reverse.foldl move start = segments.foldl move start := by
  induction segments using List.reverseRecOn with
  | nil => rfl
  | append_singleton segments next ih =>
      have kept (segment) (h : segment ∈ walk inner [] segments) := (mem_walk h).2
      have step (before : List (List Char)) (segment : List Char) :
          (before ++ [segment]).foldl move start = move (before.foldl move start) segment := List.foldl_append
      rw [walk_concat, step, ← ih]
      generalize walk inner [] segments = reduced at kept
      rcases push_cases inner reduced next with
        idle | ⟨push, -⟩ | ⟨rfl, last, taken, name⟩ | ⟨rfl, absolute, push, last⟩
      · rw [idle, blank _ _ (blank_of_push (idle false []))]
      · rw [push, List.reverse_cons, step]
      · -- the name that is taken back was kept, so it moved, and is taken back there as well
        obtain ⟨some, other, -⟩ := kept last (taken ▸ List.mem_cons_self)
        generalize Path.push inner reduced ['.', '.'] = rest at taken ⊢
        rw [taken, List.reverse_cons, step, back _ _ ⟨some, other, name⟩]
      · -- nothing is below the top, so there is nothing to take back
        have empty : reduced = [] := by
          cases reduced with
          | nil => rfl
          | cons first rest =>
              exact absurd (last first rfl) ((kept first List.mem_cons_self).2.2 absolute)
        rw [push, empty]
        exact (top absolute).symm

/-- Segments that were reduced before move a stack as they do themselves. A walk from the top, which may lose
`..`, has to start at the top again. -/
theorem walk_reduced (top : inner = true → outer = true ∧ below = []) (segments : List (List Char)) :
    walk outer below (walk inner [] segments).reverse = walk outer below segments := by
  refine foldl_reduced (fun kept segment blank => ?_) (fun kept segment entry => ?_) (fun absolute => ?_) segments
  · simp [push, blank]
  · rw [push_entry entry]
    simp [push, entry.2.2]
  · obtain ⟨rfl, rfl⟩ := top absolute
    rfl

/-- The empty segment in front of a path that starts at the top moves nothing. -/
theorem walk_top (top : Prop) [Decidable top] : walk absolute below (if top then [[]] else []) = below := by
  split
  · exact (push_blank : push absolute below [] = below)
  · rfl

/-! ## Normalized paths -/

theorem isAbsolute_append_of_ne_nil {front : List Char} (h : front ≠ []) (rest : List Char) :
    isAbsolute (front ++ rest) = isAbsolute front := by
  cases front with
  | nil => exact absurd rfl h
  | cons c front => rfl

theorem isAbsolute_join {pieces : List (List Char)} (h : ∀ piece ∈ pieces, piece ≠ [] ∧ '/' ∉ piece) :
    isAbsolute (join '/' pieces) = false := by
  have first {piece : List Char} (hp : piece ≠ [] ∧ '/' ∉ piece) (rest : List Char) :
      isAbsolute (piece ++ rest) = false := by
    rw [isAbsolute_append_of_ne_nil hp.1]
    cases piece with
    | nil => exact absurd rfl hp.1
    | cons c piece =>
        have other : c ≠ '/' := fun same => hp.2 (same ▸ List.mem_cons_self)
        simpa [isAbsolute] using other
  cases pieces with
  | nil => rfl
  | cons piece pieces =>
      have hp := h piece List.mem_cons_self
      by_cases last : pieces = []
      · subst last
        simpa [join] using first hp []
      · rw [Text.join_cons last]
        exact first hp _

theorem mem_keptSegments {segment : List Char} (h : segment ∈ keptSegments path) :
    segment ≠ [] ∧ '/' ∉ segment := by
  obtain ⟨mem, some, -⟩ := mem_walk (List.mem_reverse.mp h)
  exact ⟨some, Text.not_mem_of_mem_split mem⟩

theorem isAbsolute_normalize (path : List Char) : isAbsolute (normalize path) = isAbsolute path := by
  unfold normalize
  cases h : isAbsolute path with
  | true => rfl
  | false => exact isAbsolute_join fun _ => mem_keptSegments

/-- The segments of a normalized path are those that were kept; only the top, and the path of none, have an
empty one as well. -/
theorem split_normalize (path : List Char) :
    split '/' (normalize path)
      = (if isAbsolute path then [[]] else [])
        ++ (if keptSegments path = [] then [[]] else keptSegments path) := by
  have kept : split '/' (join '/' (keptSegments path))
      = if keptSegments path = [] then [[]] else keptSegments path := by
    split
    next none => rw [none]; rfl
    next some => exact Text.split_join some fun _ h => (mem_keptSegments h).2
  unfold normalize
  split
  · rw [List.singleton_append, Text.split_cons_self, kept]; rfl
  · rw [List.nil_append, kept]; rfl

/-- A path that was normalized before moves every stack as the path itself does. -/
theorem walk_normalize (top : isAbsolute path = true → absolute = true ∧ below = []) :
    walk absolute below (split '/' (normalize path)) = walk absolute below (split '/' path) := by
  have kept : walk absolute below (if keptSegments path = [] then [[]] else keptSegments path)
      = walk absolute below (keptSegments path) := by
    split
    next none => rw [none]; exact (push_blank : push absolute below [] = below)
    next some => rfl
  rw [split_normalize, walk_append, walk_top, kept]
  exact walk_reduced top _

/-- The last name of a path is kept as the last. -/
theorem split_normalize_concat {front : List (List Char)} {entry : List Char}
    (cut : split '/' path = front ++ [entry]) (h : IsEntry entry) :
    split '/' (normalize path)
      = ((if isAbsolute path then [[]] else []) ++ (walk (isAbsolute path) [] front).reverse) ++ [entry] := by
  have kept : keptSegments path = (walk (isAbsolute path) [] front).reverse ++ [entry] := by
    show (walk (isAbsolute path) [] (split '/' path)).reverse = _
    rw [cut, walk_concat, push_entry h, List.reverse_cons]
  have some : keptSegments path ≠ [] := by simp [kept]
  rw [split_normalize, if_neg some, kept, List.append_assoc]

/-! ## Directories -/

/-- A path is one segment, or a directory and a segment in it. -/
theorem directory_cases (path : List Char) :
    ('/' ∉ path ∧ directory path = [])
      ∨ ∃ front last, path = front ++ '/' :: last ∧ '/' ∉ last ∧ directory path = front ++ ['/'] := by
  have cut : path = directory path ++ (path.reverse.takeWhile (· != '/')).reverse := by
    rw [directory, ← List.reverse_append, List.takeWhile_append_dropWhile, List.reverse_reverse]
  have plain : '/' ∉ (path.reverse.takeWhile (· != '/')).reverse := fun mem => by
    have other := List.all_eq_true.mp (List.all_takeWhile (p := (· != '/'))) '/' (List.mem_reverse.mp mem)
    exact absurd other (by decide)
  cases slash : path.reverse.dropWhile (· != '/') with
  | nil =>
      have none : directory path = [] := by rw [directory, slash]; rfl
      refine .inl ⟨?_, none⟩
      rw [none, List.nil_append] at cut
      exact cut ▸ plain
  | cons c rest =>
      have hc : c = '/' := by
        have := List.head_dropWhile_not (· != '/') (l := path.reverse) (by simp [slash])
        simpa [slash] using this
      subst hc
      have some : directory path = rest.reverse ++ ['/'] := by rw [directory, slash, List.reverse_cons]
      refine .inr ⟨rest.reverse, _, ?_, plain, some⟩
      rw [some, List.append_assoc] at cut
      exact cut

/-- What stands in the directory of a path takes the place of its last segment. -/
theorem split_directory_append (base path : List Char) :
    split '/' (directory base ++ path) = (split '/' base).dropLast ++ split '/' path := by
  rcases directory_cases base with ⟨plain, none⟩ | ⟨front, last, rfl, plain, some⟩
  · rw [none, Text.split_of_not_mem plain]; rfl
  · rw [some, Text.split_append_sep, Text.split_of_not_mem plain, List.append_assoc,
      List.dropLast_concat]
    exact Text.split_append_sep '/' front path

/-- A directory is as absolute as the path. -/
theorem isAbsolute_directory_append (relative : isAbsolute path = false) (base : List Char) :
    isAbsolute (directory base ++ path) = isAbsolute base := by
  rcases directory_cases base with ⟨plain, none⟩ | ⟨front, last, rfl, -, some⟩
  · rw [none, List.nil_append, relative]
    cases base with
    | nil => rfl
    | cons c base =>
        have other : c ≠ '/' := fun same => plain (same ▸ List.mem_cons_self)
        exact (by simpa [isAbsolute] using other : isAbsolute (c :: base) = false).symm
  · rw [some, List.append_assoc]
    cases front <;> rfl

/-! ## References between paths -/

/-- `path` as it is meant at the path `base`. -/
def resolve (path base : List Char) : List Char :=
  if isAbsolute path then path
  else if path = [] then base
  else normalize (directory base ++ path)

theorem resolve_absolute (h : isAbsolute path = true) (base : List Char) : resolve path base = path := if_pos h

theorem resolve_nil (base : List Char) : resolve [] base = base := rfl

theorem resolve_relative (h : isAbsolute path = false) (some : path ≠ []) (base : List Char) :
    resolve path base = normalize (directory base ++ path) := by
  rw [resolve, h, if_neg Bool.false_ne_true, if_neg some]

/-- What a relative path is resolved to, by the walk through the directory of the base. -/
theorem resolve_walk (h : isAbsolute path = false) (some : path ≠ []) (base : List Char) :
    resolve path base
      = (if isAbsolute base then ['/'] else [])
        ++ join '/' (walk (isAbsolute base) (walk (isAbsolute base) [] (split '/' base).dropLast)
            (split '/' path)).reverse := by
  rw [resolve_relative h some, normalize, keptSegments, isAbsolute_directory_append h,
    split_directory_append, ← walk_append]
  rfl

/-- A relative path that ends in an entry leads to an entry in the directory of the base. -/
theorem split_resolve (h : isAbsolute path = false) (end_ : EndsInEntry path) (some : path ≠ [])
    (base : List Char) :
    ∃ front entry, split '/' path = front ++ [entry] ∧ IsEntry entry
      ∧ split '/' (resolve path base)
        = ((if isAbsolute base then [[]] else [])
            ++ (walk (isAbsolute base) [] ((split '/' base).dropLast ++ front)).reverse) ++ [entry] := by
  obtain ⟨front, entry, cut, named⟩ := end_.segments some
  have joined : split '/' (directory base ++ path) = ((split '/' base).dropLast ++ front) ++ [entry] := by
    rw [split_directory_append, cut, List.append_assoc]
  refine ⟨front, entry, cut, named, ?_⟩
  rw [resolve_relative h some, split_normalize_concat joined named, isAbsolute_directory_append h]

theorem isAbsolute_resolve (h : isAbsolute path = false) (base : List Char) :
    isAbsolute (resolve path base) = isAbsolute base := by
  by_cases none : path = []
  · rw [none, resolve_nil]
  · rw [resolve_relative h none, isAbsolute_normalize, isAbsolute_directory_append h]

/-- References that end in an entry are joined to one that does. -/
theorem EndsInEntry.resolve (hu : EndsInEntry u) (hb : EndsInEntry b) : EndsInEntry (resolve u b) := by
  cases top : isAbsolute u with
  | true => rwa [resolve_absolute top]
  | false =>
      by_cases none : u = []
      · rwa [none, resolve_nil]
      · obtain ⟨_, entry, -, named, cut⟩ := split_resolve top hu none b
        exact .of_segments cut named

/-- The directory of a relative reference, walked from that of its base. -/
theorem walk_directory_resolve (h : isAbsolute b = false) (end_ : EndsInEntry b) (c : List Char) :
    walk (isAbsolute c) [] (split '/' (resolve b c)).dropLast
      = walk (isAbsolute c) (walk (isAbsolute c) [] (split '/' c).dropLast) (split '/' b).dropLast := by
  by_cases none : b = []
  · subst none; rfl
  · obtain ⟨front, entry, cut, -, found⟩ := split_resolve h end_ none c
    rw [found, List.dropLast_concat, walk_append, walk_top,
      walk_reduced (fun top => ⟨top, rfl⟩), cut, List.dropLast_concat, walk_append]

/-- **References compose.** A reference in what another one leads to is the two of them joined. -/
theorem resolve_assoc (hu : EndsInEntry u) (hb : EndsInEntry b) (c : List Char) :
    resolve u (resolve b c) = resolve (resolve u b) c := by
  cases topu : isAbsolute u with
  | true => rw [resolve_absolute topu, resolve_absolute topu, resolve_absolute topu]
  | false =>
  by_cases noneu : u = []
  · rw [noneu, resolve_nil, resolve_nil]
  have topj : isAbsolute (resolve u b) = isAbsolute b := isAbsolute_resolve topu b
  cases topb : isAbsolute b with
  | true => rw [resolve_absolute topb, resolve_absolute (topj.trans topb)]
  | false =>
  have somej : resolve u b ≠ [] := by
    obtain ⟨_, entry, -, named, cut⟩ := split_resolve topu hu noneu b
    intro none
    rw [none] at cut
    have : entry = [] := by
      have := congrArg List.getLast? cut
      simpa [split] using this.symm
    exact named.1 this
  rw [resolve_walk topu noneu, resolve_walk (topj.trans topb) somej, isAbsolute_resolve topb,
    walk_directory_resolve topb hb, resolve_relative topu noneu b,
    walk_normalize (by rw [isAbsolute_directory_append topu, topb]; exact fun h => absurd h Bool.false_ne_true),
    split_directory_append, walk_append]

end Path

namespace Uri

variable {u v base : Uri}

/-! ## References between URIs -/

/-- The name is empty or ends in the name of an entry. -/
def EndsInEntry (u : Uri) : Prop := Path.EndsInEntry u.name.toList

instance (u : Uri) : Decidable u.EndsInEntry := inferInstanceAs (Decidable (Path.EndsInEntry _))

@[simp] theorem scheme_resolveAgainst (u base : Uri) : (u.resolveAgainst base).scheme = u.scheme := by
  unfold resolveAgainst
  split
  · rfl
  · split <;> rfl

@[simp] theorem name_withName (u : Uri) (n : String) : (u.withName n).name = n := rfl

/-- Within a scheme, names are resolved as paths. -/
theorem name_resolveAgainst (h : u.scheme = base.scheme) :
    (u.resolveAgainst base).name = String.ofList (Path.resolve u.name.toList base.name.toList) := by
  have relative : u.isRelative = !Path.isAbsolute u.name.toList := rfl
  unfold resolveAgainst Path.resolve
  rw [relative]
  cases Path.isAbsolute u.name.toList with
  | true => simp
  | false =>
      by_cases none : u.name = ""
      · simp [h, none]
      · simp [h, none]

/-- Only the names of the two count. -/
theorem name_resolveAgainst_congr {u' base' : Uri} (h : u.scheme = base.scheme) (h' : u'.scheme = base'.scheme)
    (hu : u.name = u'.name) (hb : base.name = base'.name) :
    (u.resolveAgainst base).name = (u'.resolveAgainst base').name := by
  rw [name_resolveAgainst h, name_resolveAgainst h', hu, hb]

theorem EndsInEntry.resolveAgainst (h : u.scheme = base.scheme) (hu : u.EndsInEntry)
    (hb : base.EndsInEntry) : (u.resolveAgainst base).EndsInEntry := by
  have joined := Path.EndsInEntry.resolve hu hb
  unfold EndsInEntry
  rwa [name_resolveAgainst h, String.toList_ofList]

/-- References of one scheme compose. -/
theorem name_resolveAgainst_assoc {c : Uri} (hu : u.scheme = c.scheme) (hb : base.scheme = c.scheme)
    (entry : u.EndsInEntry) (inner : base.EndsInEntry) :
    (u.resolveAgainst (base.resolveAgainst c)).name = ((u.resolveAgainst base).resolveAgainst c).name := by
  rw [name_resolveAgainst (by simp [hu, hb]), name_resolveAgainst hb, String.toList_ofList,
    name_resolveAgainst (by simp [hu]), name_resolveAgainst (hu.trans hb.symm), String.toList_ofList,
    Path.resolve_assoc entry inner]

/-! ## Chains of references -/

/-- The place where references lead from a base, each found in what those before it lead to. -/
def locate (base : Uri) (refs : List Uri) : Uri := refs.foldl (fun here ref => ref.resolveAgainst here) base

theorem locate_append (base : Uri) (refs more : List Uri) :
    base.locate (refs ++ more) = (base.locate refs).locate more := List.foldl_append

theorem scheme_locate {refs : List Uri} (h : ∀ v ∈ refs, v.scheme = base.scheme) :
    (base.locate refs).scheme = base.scheme := by
  induction refs generalizing base with
  | nil => rfl
  | cons v refs ih =>
      have next : (v.resolveAgainst base).scheme = base.scheme := by
        rw [scheme_resolveAgainst, h v List.mem_cons_self]
      exact (ih fun w hw => (h w (List.mem_cons_of_mem _ hw)).trans next.symm).trans next

/-- Only the name of the base counts. -/
theorem name_locate_congr {base' : Uri} {refs : List Uri} (h : ∀ v ∈ refs, v.scheme = base.scheme)
    (scheme : base.scheme = base'.scheme) (name : base.name = base'.name) :
    (base.locate refs).name = (base'.locate refs).name := by
  induction refs generalizing base base' with
  | nil => exact name
  | cons v refs ih =>
      have hv := h v List.mem_cons_self
      have next : (v.resolveAgainst base).scheme = (v.resolveAgainst base').scheme := by
        rw [scheme_resolveAgainst, scheme_resolveAgainst]
      refine ih (fun w hw => ?_) next (name_resolveAgainst_congr hv (hv.trans scheme) rfl name)
      rw [scheme_resolveAgainst, hv]
      exact h w (List.mem_cons_of_mem _ hw)

/-- A chain that starts with a reference may be joined to one reference before the base is known. -/
theorem name_locate_resolveAgainst {refs : List Uri} (hv : v.scheme = base.scheme) (entry : v.EndsInEntry)
    (schemes : ∀ w ∈ refs, w.scheme = base.scheme) (entries : ∀ w ∈ refs, w.EndsInEntry) :
    ((v.locate refs).resolveAgainst base).name = (base.locate (v :: refs)).name := by
  induction refs generalizing v with
  | nil => rfl
  | cons w refs ih =>
      have hw : w.scheme = base.scheme := schemes w List.mem_cons_self
      have ew : w.EndsInEntry := entries w List.mem_cons_self
      have rest (x) (hx : x ∈ refs) : x.scheme = base.scheme := schemes x (List.mem_cons_of_mem _ hx)
      calc ((v.locate (w :: refs)).resolveAgainst base).name
          = (base.locate (w.resolveAgainst v :: refs)).name :=
            ih ((scheme_resolveAgainst w v).trans hw) (ew.resolveAgainst (hw.trans hv.symm) entry) rest
              fun x hx => entries x (List.mem_cons_of_mem _ hx)
        _ = (base.locate (v :: w :: refs)).name := by
            refine name_locate_congr (fun x hx => ?_) (by simp)
              (name_resolveAgainst_assoc hw hv ew entry).symm
            rw [scheme_resolveAgainst, scheme_resolveAgainst, hw]
            exact rest x hx

end Uri

/-- References, each found in what those before it lead to, that are joined in some order. -/
inductive Bracketing where
  | reference (u : Uri)
  | inside (outer inner : Bracketing)

namespace Bracketing

/-- The references, the outermost first. -/
def row : Bracketing → List Uri
  | reference u => [u]
  | inside outer inner => outer.row ++ inner.row

/-- What is left when all are joined. -/
def collapse : Bracketing → Uri
  | reference u => u
  | inside outer inner => inner.collapse.resolveAgainst outer.collapse

theorem row_ne_nil (t : Bracketing) : t.row ≠ [] := by
  induction t with
  | reference u => exact List.cons_ne_nil _ _
  | inside outer inner ih _ => exact List.append_ne_nil_of_left_ne_nil ih _

/-- All orders of joining lead where the references lead one after the other. -/
theorem name_collapse {scheme : String} (t : Bracketing) {base : Uri} {refs : List Uri} (h : t.row = base :: refs)
    (schemes : ∀ v ∈ base :: refs, v.scheme = scheme) (entries : ∀ v ∈ refs, v.EndsInEntry) :
    t.collapse.scheme = scheme ∧ t.collapse.name = (base.locate refs).name := by
  induction t generalizing base refs with
  | reference u =>
      obtain ⟨rfl, rfl⟩ := List.cons.inj h
      exact ⟨schemes _ List.mem_cons_self, rfl⟩
  | inside outer inner houter hinner =>
      obtain ⟨first, before, ho⟩ := List.exists_cons_of_ne_nil outer.row_ne_nil
      obtain ⟨next, after, hi⟩ := List.exists_cons_of_ne_nil inner.row_ne_nil
      rw [row, ho, hi] at h
      obtain ⟨rfl, rfl⟩ := List.cons.inj h
      have left (v) (hv : v ∈ first :: before) : v.scheme = scheme :=
        schemes v (List.mem_append_left (next :: after) hv)
      have right (v) (hv : v ∈ next :: after) : v.scheme = scheme :=
        schemes v (List.mem_cons_of_mem _ (List.mem_append_right _ hv))
      have named (v) (hv : v ∈ next :: after) : v.EndsInEntry :=
        entries v (List.mem_append_right _ hv)
      obtain ⟨so, no⟩ := houter ho left fun v hv => entries v (List.mem_append_left _ hv)
      obtain ⟨si, ni⟩ := hinner hi right fun v hv => named v (List.mem_cons_of_mem _ hv)
      have base_ : first.scheme = scheme := left first List.mem_cons_self
      have next_ : next.scheme = scheme := right next List.mem_cons_self
      have place : (first.locate before).scheme = scheme :=
        (Uri.scheme_locate fun v hv => (left v (List.mem_cons_of_mem _ hv)).trans base_.symm).trans base_
      have joined : (next.locate after).scheme = scheme :=
        (Uri.scheme_locate fun v hv => (right v (List.mem_cons_of_mem _ hv)).trans next_.symm).trans next_
      refine ⟨(Uri.scheme_resolveAgainst _ _).trans si, ?_⟩
      calc (inner.collapse.resolveAgainst outer.collapse).name
          = ((next.locate after).resolveAgainst (first.locate before)).name :=
            Uri.name_resolveAgainst_congr (si.trans so.symm) (joined.trans place.symm) ni no
        _ = ((first.locate before).locate (next :: after)).name :=
            Uri.name_locate_resolveAgainst (next_.trans place.symm) (named next List.mem_cons_self)
              (fun v hv => (right v (List.mem_cons_of_mem _ hv)).trans place.symm)
              fun v hv => named v (List.mem_cons_of_mem _ hv)
        _ = (first.locate (before ++ next :: after)).name := by rw [Uri.locate_append]

end Bracketing

namespace Handler

variable {handler : Handler} {s : Scheme}

/-! ## The base in what a reference leads to -/

/-- The handler by which references are resolved in what a relative URI leads to. -/
def within (handler : Handler) (s : Scheme) (u : Uri) : Handler :=
  handler.withBase u.scheme (handler.absolute s u).withoutParameters

/-- The place of a URI that is found through other references, the outermost first. -/
def reached (handler : Handler) (s : Scheme) : List Uri → Uri → Uri
  | [], u => handler.absolute s u
  | v :: refs, u => (handler.within s v).reached s refs u

@[simp] theorem scheme_absolute (handler : Handler) (s : Scheme) (u : Uri) :
    (handler.absolute s u).scheme = u.scheme := by
  unfold Handler.absolute
  split
  · split
    · exact Uri.scheme_resolveAgainst _ _
    · rfl
  · rfl

/-- What a relative URI leads to is given that handler. -/
theorem attach_within (h : s.isRelative = true) (u : Uri) (r : Resource) :
    handler.attach s (handler.absolute s u) (.resource r) = .resource (r.withHandler (handler.within s u)) := by
  rw [attach, if_pos h, scheme_absolute]
  rfl

theorem base?_within (handler : Handler) (s : Scheme) (u : Uri) :
    (handler.within s u).base? u.scheme = some (handler.absolute s u).withoutParameters := by
  show (Table.insert u.scheme _ handler.bases).lookup u.scheme = _
  rw [Table.lookup_insert, if_pos rfl]

/-- A URI is taken from the base of the handler, if there is one. -/
theorem absolute_eq_locate (h : s.isRelative = true) {scheme : String} {u base : Uri} {rest : List Uri}
    (hu : u.scheme = scheme) (row : (handler.base? scheme).toList ++ [u] = base :: rest) :
    handler.absolute s u = base.locate rest := by
  rw [Handler.absolute, if_pos h, hu]
  cases known : handler.base? scheme with
  | none =>
      rw [known] at row
      obtain ⟨rfl, rfl⟩ := List.cons.inj row
      rfl
  | some b =>
      rw [known] at row
      obtain ⟨rfl, rfl⟩ := List.cons.inj row
      rfl

/-- References are followed from the base of the handler; without one, the first of them is the base. -/
theorem name_reached (h : s.isRelative = true) {scheme : String} {refs rest : List Uri} {u base : Uri}
    (row : (handler.base? scheme).toList ++ (refs ++ [u]) = base :: rest)
    (schemes : ∀ v ∈ refs ++ [u], v.scheme = scheme) :
    (handler.reached s refs u).name = (base.locate rest).name := by
  induction refs generalizing handler base rest with
  | nil => rw [reached, absolute_eq_locate h (schemes u (by simp)) row]
  | cons v refs ih =>
      have hv : v.scheme = scheme := schemes v (by simp)
      have later (w) (hw : w ∈ refs ++ [u]) : w.scheme = scheme := schemes w (List.mem_cons_of_mem _ hw)
      have first : (handler.within s v).base? scheme = some (handler.absolute s v).withoutParameters :=
        hv ▸ base?_within handler s v
      obtain ⟨front, start, rfl⟩ : ∃ front, (handler.base? scheme).toList ++ [v] = base :: front
          ∧ rest = front ++ (refs ++ [u]) := by
        cases known : handler.base? scheme with
        | none =>
            rw [known] at row
            obtain ⟨rfl, rfl⟩ := List.cons.inj row
            exact ⟨[], rfl, rfl⟩
        | some b =>
            rw [known] at row
            obtain ⟨rfl, rfl⟩ := List.cons.inj row
            exact ⟨[v], rfl, rfl⟩
      have same : (handler.absolute s v).scheme = scheme := (scheme_absolute _ _ _).trans hv
      calc (handler.reached s (v :: refs) u).name
          = ((handler.absolute s v).withoutParameters.locate (refs ++ [u])).name :=
            ih (by rw [first]; rfl) later
        _ = ((handler.absolute s v).locate (refs ++ [u])).name :=
            Uri.name_locate_congr (fun w hw => (later w hw).trans same.symm) rfl rfl
        _ = (base.locate (front ++ (refs ++ [u]))).name := by
            rw [absolute_eq_locate h hv start, Uri.locate_append base front]

end Handler

/-- **Relative references compose.** Among URIs of one scheme, a reference in what another one leads to is
the two of them joined, if both names are empty or end in the name of an entry. So, however a chain of nested
references is joined to one, it leads to the same place as the handlers that are passed on along the chain; these are
the ones that a resource is given where a relative URI leads to it. -/
theorem Uri.nested_references (scheme : String) :
    (∀ u b c : Uri, u.scheme = scheme → b.scheme = scheme → c.scheme = scheme →
        u.EndsInEntry → b.EndsInEntry →
        (u.resolveAgainst (b.resolveAgainst c)).name = ((u.resolveAgainst b).resolveAgainst c).name)
      ∧ (∀ (handler : Handler) (s : Scheme) (refs : List Uri) (u : Uri) (t : Bracketing), s.isRelative = true →
        t.row = (handler.base? scheme).toList ++ (refs ++ [u]) →
        (∀ v ∈ t.row, v.scheme = scheme) → (∀ v ∈ t.row.tail, v.EndsInEntry) →
        (handler.reached s refs u).name = t.collapse.name)
      ∧ ∀ (handler : Handler) (s : Scheme) (u : Uri) (r : Resource), s.isRelative = true →
        handler.attach s (handler.absolute s u) (.resource r) = .resource (r.withHandler (handler.within s u)) := by
  refine ⟨fun u b c hu hb hc entry inner => ?_, fun handler s refs u t relative row schemes entries => ?_,
    fun handler s u r relative => Handler.attach_within relative u r⟩
  · exact Uri.name_resolveAgainst_assoc (hu.trans hc.symm) (hb.trans hc.symm) entry inner
  · obtain ⟨base, rest, cut⟩ := List.exists_cons_of_ne_nil t.row_ne_nil
    have along (v) (hv : v ∈ refs ++ [u]) : v.scheme = scheme :=
      schemes v (row ▸ List.mem_append_right _ hv)
    rw [cut] at schemes entries
    rw [Handler.name_reached relative (row.symm.trans cut) along, (t.name_collapse cut schemes entries).2]

/-- Documents of a directory `conf`, two of which refer to the level above theirs. -/
theorem Uri.nested_references_conf :
    let file := Uri.simple "file"
    let handler := Handler.standard.withBase "file" (file "conf/main.json")
    let t := Bracketing.inside (.reference (file "conf/main.json"))
      (.inside (.reference (file "../app/part.json")) (.reference (file "../../etc/base.json")))
    ((file "x.json").resolveAgainst ((file "../b/y").resolveAgainst (file "/a/c"))).name = "/b/x.json"
      ∧ (handler.reached (.files "") [file "../app/part.json"] (file "../../etc/base.json")).name
        = t.collapse.name
      ∧ t.collapse.name = "../etc/base.json" := by
  intro file handler t
  refine ⟨?_, ?_, by decide +kernel⟩
  · rw [(nested_references "file").1 (file "x.json") (file "../b/y") (file "/a/c") rfl rfl rfl
      (by decide +kernel) (by decide +kernel)]
    decide +kernel
  · exact (nested_references "file").2.1 handler (.files "") [file "../app/part.json"]
      (file "../../etc/base.json") t rfl (by rfl) (by decide +kernel) (by decide +kernel)

end ObjectGraph
