import ObjectGraph.Proofs.Normal.Order

/-!
# `Proofs.Normal.Mixins` — what a node is flattened to

A node names its mixins under three keys. They are looked for one after the other in the node as it is, before
anything is written over it, so no mixin has a say in which others there are. What is not found is passed over, and
so is what is no map, since it has no keys. The others are written over the node in a row: the last that has a key
counts, the keys of the node stay where they are, and new ones follow.

Contents:
* `NamesAt`, `EntriesAt`, `ListsAt`, `Names`: what a node names, said of the node alone;
* `mixinAt_eq_iff`, `readNodes_eq_iff`, `readList_eq_iff`, `mixins_eq_iff`;
* `members_mixin`, `members_foldl_mixin`, `foldl_mixin_maps`: what nodes in a row are written to;
* `flatten_mixes`.
-/

namespace ObjectGraph.Configuration

variable {env : Surroundings} {hops : Nat} {c d : Configuration} {key : String} {s t u : Session}

/-! ## What a node names -/

/-- What a node names under a key, if anything, with the sessions before and after it has been looked for. -/
inductive NamesAt (env : Surroundings) (hops : Nat) (c : Configuration) (key : String) :
    Session → Option Configuration → Session → Prop
  | absent {s : Session} (free : c.has key = false) : NamesAt env hops c key s none s
  | found {s t : Session} {upper : Configuration} (there : c.has key = true)
      (read : c.readNode env hops key s = some (some upper, t)) : NamesAt env hops c key s (some upper) t
  | unresolved {s t u : Session} (there : c.has key = true) (read : c.readNode env hops key s = some (none, t))
      (told : Run.report .warn target "mixin did not resolve to a configuration" [("key", .text key)] t
        = some ((), u)) : NamesAt env hops c key s none u

/-- What stands at some keys of a list, or none where there is no configuration. -/
inductive EntriesAt (env : Surroundings) (hops : Nat) (d : Configuration) :
    List String → Session → List (Option Configuration) → Session → Prop
  | nil {s : Session} : EntriesAt env hops d [] s [] s
  | cons {s t u : Session} {key : String} {keys : List String} {entry : Option Configuration}
      {entries : List (Option Configuration)} (read : d.readNode env hops key s = some (entry, t))
      (rest : EntriesAt env hops d keys t entries u) : EntriesAt env hops d (key :: keys) s (entry :: entries) u

/-- What a node names in the list under a key, or instead of a list. -/
inductive ListsAt (env : Surroundings) (hops : Nat) (c : Configuration) (key : String) :
    Session → List (Option Configuration) → Session → Prop
  | absent {s : Session} (free : c.has key = false) : ListsAt env hops c key s [] s
  | unresolved {s t : Session} (there : c.has key = true) (read : c.readNode env hops key s = some (none, t)) :
      ListsAt env hops c key s [none] t
  | single {s t : Session} {upper : Configuration} (there : c.has key = true)
      (read : c.readNode env hops key s = some (some upper, t)) (one : upper.isList = false) :
      ListsAt env hops c key s [some upper] t
  | row {s t u : Session} {list : Configuration} {entries : List (Option Configuration)}
      (there : c.has key = true) (read : c.readNode env hops key s = some (some list, t))
      (many : list.isList = true) (rest : EntriesAt env hops list list.keys t entries u) :
      ListsAt env hops c key s entries u

/-- What a node names to be written over it, in order, and none for what is not there or is no configuration. All of
it is looked for in the node itself. -/
inductive Names (env : Surroundings) (hops : Nat) (c : Configuration) :
    Session → List (Option Configuration) → Session → Prop
  | inOrder {s t u w : Session} {config mixin : Option Configuration} {listed : List (Option Configuration)}
      (first : NamesAt env hops c configKey s config t) (second : NamesAt env hops c mixinKey t mixin u)
      (more : ListsAt env hops c mixinsKey u listed w) : Names env hops c s (config :: mixin :: listed) w

/-- The mixin under a key is what the node names there. -/
theorem mixinAt_eq_iff {uppers : List Configuration} :
    c.mixinAt env hops key s = some (uppers, t) ↔
      ∃ found, NamesAt env hops c key s found t ∧ uppers = found.toList := by
  constructor
  · intro ended
    unfold mixinAt at ended
    split at ended
    next there =>
      obtain ⟨found, v, read, rest⟩ := Run.ended_bind ended
      cases found with
      | some upper =>
          obtain ⟨rfl, rfl⟩ := Run.ended_pure.mp rest
          exact ⟨some upper, .found there read, rfl⟩
      | none =>
          obtain ⟨⟨⟩, w, told, last⟩ := Run.ended_bind rest
          obtain ⟨rfl, rfl⟩ := Run.ended_pure.mp last
          exact ⟨none, .unresolved there read told, rfl⟩
    next free =>
      obtain ⟨rfl, rfl⟩ := Run.ended_pure.mp ended
      exact ⟨none, .absent (Bool.eq_false_iff.mpr free), rfl⟩
  · rintro ⟨found, named, rfl⟩
    unfold mixinAt
    cases named with
    | absent free =>
        rw [free]
        rfl
    | found there read =>
        rw [if_pos there]
        exact Run.ended_row read rfl
    | unresolved there read told =>
        rw [if_pos there]
        exact Run.ended_row read (Run.ended_row told rfl)

/-- The configurations at some keys are what stands there. -/
theorem readNodes_eq_iff {keys : List String} {nodes : List Configuration} :
    d.readNodes env hops keys s = some (nodes, t) ↔
      ∃ entries, EntriesAt env hops d keys s entries t ∧ nodes = entries.filterMap id := by
  induction keys generalizing s nodes with
  | nil =>
      constructor
      · intro ended
        obtain ⟨rfl, rfl⟩ := Run.ended_pure.mp ended
        exact ⟨[], .nil, rfl⟩
      · rintro ⟨_, ⟨⟩, rfl⟩
        rfl
  | cons key keys ih =>
      constructor
      · intro ended
        obtain ⟨entry, v, read, later⟩ := Run.ended_bind ended
        obtain ⟨more, w, rest, last⟩ := Run.ended_bind later
        obtain ⟨rfl, rfl⟩ := Run.ended_pure.mp last
        obtain ⟨entries, stand, rfl⟩ := ih.mp rest
        exact ⟨entry :: entries, .cons read stand, by cases entry <;> rfl⟩
      · rintro ⟨_, stand, rfl⟩
        cases stand with
        | @cons _ _ _ _ _ entry entries read rest =>
            refine Run.ended_row read (Run.ended_row (ih.mpr ⟨entries, rest, rfl⟩) (Run.ended_pure.mpr ⟨?_, rfl⟩))
            cases entry <;> rfl

/-- The listed mixins are what the node lists. -/
theorem readList_eq_iff {uppers : List Configuration} :
    (if c.has key then c.readList env hops key else pure []) s = some (uppers, t) ↔
      ∃ listed, ListsAt env hops c key s listed t ∧ uppers = listed.filterMap id := by
  constructor
  · intro ended
    split at ended
    next there =>
      obtain ⟨found, v, read, rest⟩ := Run.ended_bind ended
      cases found with
      | none =>
          obtain ⟨rfl, rfl⟩ := Run.ended_pure.mp rest
          exact ⟨[none], .unresolved there read, rfl⟩
      | some upper =>
          dsimp only at rest
          split at rest
          next many =>
            obtain ⟨entries, stand, rfl⟩ := readNodes_eq_iff.mp rest
            exact ⟨entries, .row there read many stand, rfl⟩
          next one =>
            obtain ⟨rfl, rfl⟩ := Run.ended_pure.mp rest
            exact ⟨[some upper], .single there read (Bool.eq_false_iff.mpr one), rfl⟩
    next free =>
      obtain ⟨rfl, rfl⟩ := Run.ended_pure.mp ended
      exact ⟨[], .absent (Bool.eq_false_iff.mpr free), rfl⟩
  · rintro ⟨listed, lists, rfl⟩
    cases lists with
    | absent free =>
        rw [free]
        rfl
    | unresolved there read =>
        rw [if_pos there]
        exact Run.ended_row read rfl
    | single there read one =>
        rw [if_pos there]
        refine Run.ended_row read ?_
        dsimp only
        rw [one]
        rfl
    | row there read many stand =>
        rw [if_pos there]
        refine Run.ended_row read ?_
        dsimp only
        rw [if_pos many]
        exact readNodes_eq_iff.mpr ⟨listed, stand, rfl⟩

theorem mixins_eq (env : Surroundings) (hops : Nat) (c : Configuration) :
    c.mixins env hops = (do
      let first ← c.mixinAt env hops configKey
      let second ← c.mixinAt env hops mixinKey
      let more ← (if c.has mixinsKey then c.readList env hops mixinsKey else pure [])
      return first ++ second ++ more) := by
  unfold mixins
  refine bind_congr fun first => bind_congr fun second => ?_
  cases c.has mixinsKey <;> rfl

/-- The mixins of a node are what it names. -/
theorem mixins_eq_iff {uppers : List Configuration} :
    c.mixins env hops s = some (uppers, t) ↔
      ∃ sequence, Names env hops c s sequence t ∧ uppers = sequence.filterMap id := by
  have row : ∀ (config mixin : Option Configuration) (listed : List (Option Configuration)),
      config.toList ++ mixin.toList ++ listed.filterMap id = (config :: mixin :: listed).filterMap id := by
    intro config mixin listed
    cases config <;> cases mixin <;> rfl
  rw [mixins_eq]
  constructor
  · intro ended
    obtain ⟨first, s₁, hfirst, ended⟩ := Run.ended_bind ended
    obtain ⟨second, s₂, hsecond, ended⟩ := Run.ended_bind ended
    obtain ⟨more, s₃, hmore, last⟩ := Run.ended_bind ended
    obtain ⟨rfl, rfl⟩ := Run.ended_pure.mp last
    obtain ⟨config, hconfig, rfl⟩ := mixinAt_eq_iff.mp hfirst
    obtain ⟨mixin, hmixin, rfl⟩ := mixinAt_eq_iff.mp hsecond
    obtain ⟨listed, hlisted, rfl⟩ := readList_eq_iff.mp hmore
    exact ⟨_, .inOrder hconfig hmixin hlisted, row config mixin listed⟩
  · rintro ⟨_, names, rfl⟩
    cases names with
    | inOrder first second more =>
        refine Run.ended_row (mixinAt_eq_iff.mpr ⟨_, first, rfl⟩) ?_
        refine Run.ended_row (mixinAt_eq_iff.mpr ⟨_, second, rfl⟩) ?_
        exact Run.ended_row (readList_eq_iff.mpr ⟨_, more, rfl⟩) (Run.ended_pure.mpr ⟨(row _ _ _).symm, rfl⟩)

/-! ## What nodes in a row are written to -/

/-- What is no map is passed over. -/
theorem mixin_of_not_object {upper : Configuration} (other : upper.data.isObject = false) : c.mixin upper = c := by
  unfold mixin
  split
  next found =>
    rw [found] at other
    exact absurd other (by simp [Json.isObject])
  next => rfl

/-- The members of a mixin are written over those of a map. -/
theorem members_mixin (object : c.data.isObject = true) (upper : Configuration) :
    members (c.mixin upper).data = Table.overlay (members c.data) (members upper.data) := by
  unfold mixin
  rw [data_eq_members object]
  cases upper.data with
  | object ms => rfl
  | _ => rfl

/-- Mixins in a row are written over a map as all their members in a row are. -/
theorem members_foldl_mixin (object : c.data.isObject = true) (uppers : List Configuration) :
    members (uppers.foldl mixin c).data
      = Table.overlay (members c.data) (uppers.flatMap fun upper => members upper.data) := by
  induction uppers generalizing c with
  | nil => rfl
  | cons upper uppers ih =>
      rw [List.foldl_cons, ih (isObject_mixin object upper), members_mixin object, List.flatMap_cons,
        Table.overlay_append]

/-- It does not matter whether what is no map is listed. -/
theorem foldl_mixin_maps (c : Configuration) (uppers : List Configuration) :
    uppers.foldl mixin c = (uppers.filter (·.data.isObject)).foldl mixin c := by
  induction uppers generalizing c with
  | nil => rfl
  | cons upper uppers ih =>
      by_cases object : upper.data.isObject = true
      · rw [List.filter_cons, if_pos object]
        exact ih (c.mixin upper)
      · rw [List.filter_cons, if_neg object, List.foldl_cons, mixin_of_not_object (Bool.eq_false_iff.mpr object), ih]

/-- Of mixins in a row the last that has a key counts, and the map itself if none has it. -/
theorem at?_foldl_mixin (object : c.data.isObject = true) {uppers : List Configuration}
    (proper : ∀ upper ∈ uppers, upper.keyList.Nodup) (key : String) :
    (uppers.foldl mixin c).at? key = (uppers.reverse.findSome? (·.at? key)).or (c.at? key) := by
  induction uppers generalizing c with
  | nil => rfl
  | cons upper uppers ih =>
      have once : (Table.keys (members upper.data)).Nodup := proper upper List.mem_cons_self
      have first : (c.mixin upper).at? key = (upper.at? key).or (c.at? key) := by
        rw [at?, members_mixin object, Table.lookup_overlay, Table.lookup_reverse once]
        rfl
      have last : [upper].findSome? (·.at? key) = upper.at? key := by
        rw [List.findSome?_singleton]
      rw [List.foldl_cons, ih (isObject_mixin object upper) fun x hx => proper x (List.mem_cons_of_mem _ hx), first,
        List.reverse_cons, List.findSome?_append, last, Option.or_assoc]

theorem keys_eq_keyList (object : c.data.isObject = true) : c.keys = c.keyList := by
  unfold keys keyList
  rw [data_eq_members object]
  rfl

/-- The keys of a map keep their places when mixins are written over it, and new keys follow. -/
theorem keys_foldl_mixin (object : c.data.isObject = true) (uppers : List Configuration) :
    (uppers.foldl mixin c).keys = c.keys ++ ((uppers.flatMap keyList).filter (· ∉ c.keys)).eraseDups := by
  have row : Table.keys (uppers.flatMap fun upper => members upper.data) = uppers.flatMap keyList := by
    rw [Table.keys, List.map_flatMap]
    rfl
  rw [keys_eq_keyList (isObject_foldl_mixin object uppers), keys_eq_keyList object, keyList,
    members_foldl_mixin object, Table.keys_overlay_append, row]
  rfl

/-! ## Flattening -/

/-- What a map is flattened to, for all that it names to be written over it: each key has the value of the last of
what is named that has it, and the value of the map itself if none has it. The keys of the map keep their places, and
new ones follow in the order in which they are first met. All that is named is looked for in the map itself, whatever
is written over it. What is not found is as if it were not named, and so is what is no map. If a map is flattened at
all, it is by what it names. -/
theorem flatten_mixes (env : Surroundings) (hops : Nat) (object : c.data.isObject = true) (s : Session) :
    (∀ sequence t, Names env hops c s sequence t →
      ∃ flat, c.flatten env hops s = some (flat, t) ∧
        ((∀ upper ∈ sequence.filterMap id, upper.keyList.Nodup) → ∀ key,
          flat.at? key = ((sequence.filterMap id).reverse.findSome? (·.at? key)).or (c.at? key)) ∧
        flat.keys = c.keys ++ (((sequence.filterMap id).flatMap keyList).filter (· ∉ c.keys)).eraseDups ∧
        flat = ((sequence.filterMap id).filter (·.data.isObject)).foldl mixin c) ∧
    ∀ flat t, c.flatten env hops s = some (flat, t) → ∃ sequence, Names env hops c s sequence t := by
  refine ⟨fun sequence t names => ?_, fun flat t flattened => ?_⟩
  · have mixed : c.mixins env hops s = some (sequence.filterMap id, t) := mixins_eq_iff.mpr ⟨sequence, names, rfl⟩
    refine ⟨(sequence.filterMap id).foldl mixin c, Run.ended_row mixed rfl, at?_foldl_mixin object,
      keys_foldl_mixin object _, foldl_mixin_maps c _⟩
  · obtain ⟨uppers, u, mixed, last⟩ := Run.ended_bind flattened
    obtain ⟨-, rfl⟩ := Run.ended_pure.mp last
    obtain ⟨sequence, names, -⟩ := mixins_eq_iff.mp mixed
    exact ⟨sequence, names⟩

/-! ### A map with every kind of mixin -/

/-- A map that others refer to. It lists a mixin itself. -/
def wardrobe : Configuration :=
  .make (.object [("cloak",
    .object [("*mixins", .array [.object [("z", .null)]]), ("a", .bool true), ("b", .bool true)])]) .empty

/-- A mixin that would list another. -/
def cloak : Configuration :=
  wardrobe.child (.object [("*mixins", .array [.object [("z", .null)]]), ("a", .bool true), ("b", .bool true)])

/-- Of what the map lists, the second is no configuration, and the third is no map. -/
def outfit : Json :=
  .array [.object [("c", .bool true), ("b", .bool false)], .null, .array [.null], .object [("c", .bool false)]]

/-- A map with mixins, of which the one in the middle is not found. -/
def mannequin : Configuration :=
  wardrobe.child (.object [("*config", .string "#cloak"), ("*mixin", .bool true), ("a", .null), ("*mixins", outfit),
    ("d", .null)])

/-- What the map lists. -/
def garments : Configuration := mannequin.child outfit

/-- After the mixin in the middle has not been found. -/
def complained : Session :=
  { Session.start with
    events := [⟨.warn, target, some "mixin did not resolve to a configuration", [("key", .text mixinKey)]⟩] }

/-- What the map names. -/
def mannequinNames : List (Option Configuration) :=
  [some cloak, none, some (garments.child (.object [("c", .bool true), ("b", .bool false)])), none,
    some (garments.child (.array [.null])), some (garments.child (.object [("c", .bool false)]))]

theorem names_mannequin : Names (.ofHost .bare) depthLimit mannequin Session.start mannequinNames complained := by
  have config : mannequin.readNode (.ofHost .bare) depthLimit configKey Session.start
      = some (some cloak, Session.start) := rfl
  have mixin : mannequin.readNode (.ofHost .bare) depthLimit mixinKey Session.start
      = some (none, Session.start) := rfl
  have listed : mannequin.readNode (.ofHost .bare) depthLimit mixinsKey complained
      = some (some garments, complained) := rfl
  refine .inOrder (.found rfl config) (.unresolved rfl mixin rfl) (.row rfl listed rfl ?_)
  exact .cons rfl (.cons rfl (.cons rfl (.cons rfl .nil)))

/-- What is written over the map says what else to mix in, but nothing of that is. -/
theorem flatten_mixes_mannequin :
    mannequin.data.isObject = true ∧
      Names (.ofHost .bare) depthLimit mannequin Session.start mannequinNames complained ∧
      ∃ flat, mannequin.flatten (.ofHost .bare) depthLimit Session.start = some (flat, complained) ∧
        (∀ key, flat.at? key
          = ((mannequinNames.filterMap id).reverse.findSome? (·.at? key)).or (mannequin.at? key)) ∧
        flat.keys = mannequin.keys ++
          (((mannequinNames.filterMap id).flatMap keyList).filter (· ∉ mannequin.keys)).eraseDups ∧
        flat = ((mannequinNames.filterMap id).filter (·.data.isObject)).foldl mixin mannequin := by
  have proper : ∀ upper ∈ mannequinNames.filterMap id, upper.keyList.Nodup := by decide
  obtain ⟨mixes, -⟩ := flatten_mixes (c := mannequin) (.ofHost .bare) depthLimit rfl Session.start
  obtain ⟨flat, flattened, nearest, order, maps⟩ := mixes _ _ names_mannequin
  exact ⟨rfl, names_mannequin, flat, flattened, nearest proper, order, maps⟩

-- the list is another one in the end, and what that lists has not been mixed in
example : (((mannequinNames.filterMap id).filter (·.data.isObject)).foldl mixin mannequin).data
    = .object [("*config", .string "#cloak"), ("*mixin", .bool true), ("a", .bool true),
        ("*mixins", .array [.object [("z", .null)]]), ("d", .null), ("b", .bool false), ("c", .bool false)] := by
  rfl

end ObjectGraph.Configuration
