import Mathlib.Logic.Relation
import ObjectGraph.Proofs.Completion.Reading
import ObjectGraph.Proofs.Normal.Stable
import ObjectGraph.Proofs.Wired.Plain

/-!
# `Proofs.Completion.Descent` — the nodes that keys open

To build a node is to build what its keys lead to, and a key is read as a path. A path that goes anywhere leads
into the data, and every step of it to a piece that is less deep; so the nodes that are built from such keys
cannot go on without end. The empty key is the one exception: its path leads from a node to the node itself.

Data without empty keys has a second use. Whether a list or a map stands at a key is told by a path that passes
over its empty segments, and what is built is then read by one that does not. Without empty keys, either the two
lead to the same place, or the second leads to nothing that is built as a node.

Contents:
* `Json.Labelled`, data without empty keys;
* `walk_value`, `walk_raw`: where walks lead that meet no reference;
* `Opens`, the node that is built from a key; `Opens.grounded`, `Opens.unique`, `Opens.descends`;
* `Referenceless`, `Nests`, `Independent`.
-/

namespace ObjectGraph

open Container (factoryKey hintKeys entryKeys)

/-! ## Data without empty keys -/

namespace Json

/-- No key in the data is empty. -/
inductive Labelled : Json → Prop
  | null : Labelled .null
  | bool (b : Bool) : Labelled (.bool b)
  | number (n : Number) : Labelled (.number n)
  | string (s : String) : Labelled (.string s)
  | array {items : List Json} (items_labelled : ∀ j ∈ items, Labelled j) : Labelled (.array items)
  | object {members : List (String × Json)} (keys : "" ∉ Table.keys members)
      (members_labelled : ∀ m ∈ members, Labelled m.2) : Labelled (.object members)

variable {j x : Json}

theorem Labelled.piece (h : j.Labelled) (hx : x ∈ j.pieces) : x.Labelled := by
  cases h with
  | array items => exact items x hx
  | object _ members =>
      obtain ⟨m, hm, rfl⟩ := List.mem_map.mp hx
      exact members m hm
  | _ => exact absurd hx List.not_mem_nil

/-- An empty segment leads nowhere. -/
theorem Labelled.child?_empty (h : j.Labelled) : j.child? "" = none := by
  cases h with
  | array _ =>
      have none : index? "" = none := by decide
      rw [child?, none, Option.bind_none]
  | object keys _ => exact Option.not_isSome_iff_eq_none.mp fun there => keys (Table.mem_keys_iff.mpr there)
  | _ => rfl

/-- What is inherited along single steps is inherited along paths. -/
theorem follow?_inherits {P : Json → Prop} (child : ∀ {j x segment}, P j → j.child? segment = some x → P x)
    (h : P j) {segments : List String} (hx : j.follow? segments = some x) : P x := by
  induction segments generalizing j with
  | nil => exact Option.some.inj hx ▸ h
  | cons segment rest ih =>
      obtain ⟨y, there, further⟩ := Option.bind_eq_some_iff.mp hx
      exact ih (child h there) further

variable {segments : List String}

theorem Proper.follow? (h : j.Proper) (hx : j.follow? segments = some x) : x.Proper :=
  follow?_inherits (fun h there => h.piece (mem_pieces_of_child? there)) h hx

theorem Labelled.follow? (h : j.Labelled) (hx : j.follow? segments = some x) : x.Labelled :=
  follow?_inherits (fun h there => h.piece (mem_pieces_of_child? there)) h hx

theorem depth_le_of_follow? (hx : j.follow? segments = some x) : x.depth ≤ j.depth :=
  follow?_inherits (P := fun x => x.depth ≤ j.depth)
    (fun h there => Nat.le_trans (Nat.le_of_lt (depth_lt_of_child? there)) h) (Nat.le_refl _) hx

/-- What a path leads to that goes anywhere is less deep. -/
theorem depth_lt_of_follow? {segment : String} {rest : List String} (hx : j.follow? (segment :: rest) = some x) :
    x.depth < j.depth := by
  obtain ⟨child, there, further⟩ := Option.bind_eq_some_iff.mp hx
  exact Nat.lt_of_le_of_lt (depth_le_of_follow? further) (depth_lt_of_child? there)

theorem depthOfMembers_le {n : Nat} {members : List (String × Json)} (h : ∀ m ∈ members, m.2.depth ≤ n) :
    depthOfMembers members ≤ n := by
  induction members with
  | nil => exact Nat.zero_le n
  | cons m members ih =>
      rw [depthOfMembers]
      exact Nat.max_le.mpr ⟨h m List.mem_cons_self, ih fun m hm => h m (List.mem_cons_of_mem _ hm)⟩

end Json

namespace Configuration

variable {c d : Configuration} {key : String} {j : Json}

/-- Nor has data without its parameters, and it is no deeper. -/
theorem splitParameters_labelled (h : j.Labelled) :
    (splitParameters j).1.Labelled ∧ (splitParameters j).1.depth ≤ j.depth := by
  cases h with
  | @object members keys labelled =>
      have part : ∀ m ∈ (splitMembers members).2, m ∈ members := by
        intro m hm
        rw [splitMembers, List.partition_eq_filter_filter] at hm
        exact List.mem_of_mem_filter hm
      refine ⟨.object (fun hk => keys ?_) fun m hm => labelled m (part m hm), ?_⟩
      · obtain ⟨m, hm, same⟩ := List.mem_map.mp hk
        exact List.mem_map.mpr ⟨m, part m hm, same⟩
      · exact Nat.succ_le_succ (Json.depthOfMembers_le fun m hm => Json.depth_le_of_mem_members (part m hm))
  | array items => exact ⟨.array items, Nat.le_refl _⟩
  | null => exact ⟨.null, Nat.le_refl _⟩
  | bool b => exact ⟨.bool b, Nat.le_refl _⟩
  | number n => exact ⟨.number n, Nat.le_refl _⟩
  | string s => exact ⟨.string s, Nat.le_refl _⟩

/-- The keys of a node of such data are not empty. -/
theorem ne_empty_of_mem_keys (h : c.data.Labelled) (hk : key ∈ c.keys) : key ≠ "" := by
  unfold keys at hk
  generalize c.data = j at h hk
  cases h with
  | array _ =>
      obtain ⟨i, -, rfl⟩ := List.mem_map.mp hk
      exact (Json.isName_natText i).1
  | object keys _ => exact fun same => keys (same ▸ hk)
  | _ => exact absurd hk List.not_mem_nil

/-! ## Where walks lead -/

/-- A walk from data that meets no reference leads to data. -/
theorem walk_value {heap : Heap} {segs : List String} {x : Json} (hx : x.Proper) {w : Value}
    (h : Settled heap (walk withoutReferences segs (.value (.ofJson x))) (some w)) :
    ∃ y : Json, y.Proper ∧ w = .ofJson y := by
  induction segs generalizing x with
  | nil => exact ⟨x, hx, Option.some.inj h.eq_of_pure⟩
  | cons segment rest ih =>
      have stays : settle withoutReferences (.value (.ofJson x)) = pure (some (.value (.ofJson x))) := rfl
      rw [walk_cons, stays, pure_bind] at h
      replace h := Settled.of_heap h
      cases hm : step heap segment rest (.value (.ofJson x)) with
      | none =>
          rw [hm] at h
          exact absurd h.eq_of_pure (by simp)
      | some move =>
          obtain ⟨y, hy, rfl | rfl⟩ := stepValue_data hx hm
          · rw [hm] at h
            exact ⟨y, hy, Option.some.inj h.eq_of_pure⟩
          · rw [hm] at h
            exact ih hy h

/-- A walk from raw data that meets no reference leads to what stands in the data, or to data that a text on the
way stands for; in the data there is no list or map at the path then, even if empty segments are passed over. -/
theorem walk_raw {heap : Heap} (hc : c.Grounded) {segs : List String} (labelled : j.Labelled) {w : Value}
    (h : Settled heap (walk withoutReferences segs (.raw c j)) (some w)) :
    (∃ x, j.follow? segs = some x ∧ "" ∉ segs ∧ Settled heap (resolveJson withoutReferences c x) (some w)) ∨
      ((∃ y : Json, y.Proper ∧ w = .ofJson y) ∧
        ∀ x, j.follow? (segs.filter fun segment => segment ≠ "") = some x → x.isContainer = false) := by
  induction segs generalizing j with
  | nil => exact .inl ⟨j, rfl, List.not_mem_nil, h⟩
  | cons segment rest ih =>
      rw [walk_cons] at h
      by_cases text : ∃ s, j = .string s
      · obtain ⟨s, rfl⟩ := text
        obtain ⟨v, means, further⟩ := settled_text h
        refine .inr ⟨?_, fun x hx => ?_⟩
        · cases v with
          | none => exact absurd (Settled.eq_of_pure further) (by simp)
          | some v =>
              obtain ⟨y, hy, rfl⟩ := hc.meaning_data means
              have from_text : Settled heap (walk withoutReferences (segment :: rest) (.value (.ofJson y))) (some w) := by
                rw [walk_cons]
                exact further
              exact walk_value hy from_text
        · -- nothing stands below a text
          cases hp : (segment :: rest).filter fun segment => segment ≠ "" with
          | nil =>
              rw [hp] at hx
              exact Option.some.inj hx ▸ rfl
          | cons s p =>
              rw [hp] at hx
              exact absurd hx (by simp [Json.follow?, Json.child?])
      · have stays : settle withoutReferences (.raw c j) = pure (some (.raw c j)) := by
          cases j with
          | string s => exact absurd ⟨s, rfl⟩ text
          | _ => rfl
        rw [stays, pure_bind] at h
        replace h := Settled.of_heap h
        cases hx : j.child? segment with
        | none =>
            rw [step, stepRaw, hx] at h
            exact absurd (Settled.eq_of_pure h) (by simp)
        | some x =>
            rw [step, stepRaw, hx] at h
            have named : segment ≠ "" := by
              rintro rfl
              exact absurd (labelled.child?_empty.symm.trans hx) (by simp)
            have first : ∀ segs, j.follow? (segment :: segs) = x.follow? segs := by
              intro segs
              rw [Json.follow?, hx, Option.bind_some]
            rw [List.filter_cons_of_pos (by simpa using named), first, first]
            rcases ih (labelled.piece (Json.mem_pieces_of_child? hx)) h with ⟨y, there, names, leads⟩ | elsewhere
            · refine .inl ⟨y, there, ?_, leads⟩
              rw [List.mem_cons, not_or]
              exact ⟨Ne.symm named, names⟩
            · exact .inr elsewhere

/-- What raw data is resolved to without a reference is what it stands for. -/
theorem denoted_of_settled {heap : Heap} {v : Option Value} (h : Settled heap (resolveJson withoutReferences c j) v) :
    c.denoted j = some v := by
  cases j with
  | string s => exact settled_withoutReferences h
  | _ => exact congrArg some h.eq_of_pure.symm

/-! ## Nodes that are built from keys -/

/-- The node that is built from a key, if one is: raw data becomes a node, and otherwise what is there has to be
one. -/
def Opens (c : Configuration) (key : String) (d : Configuration) : Prop :=
  ∃ v, c.Holds key (some v) ∧
    if (c.raw? key).any Json.isContainer then c.promote [] v = some d else v = .configuration d

/-- What is made of data is promoted in the same way, whatever components exist. -/
theorem promote_sound (c : Configuration) (heap : Heap) {v : Value} (hv : v.Sound) :
    c.promote heap v = c.promote [] v := by
  cases hv with
  | node _ => rfl
  | @data j hj =>
      have rendered : (Value.ofJson j).toJson heap = (Value.ofJson j).toJson [] := by
        unfold Value.toJson
        rw [Json.toJsonWith_ofJson _ hj, Json.toJsonWith_ofJson _ hj]
      cases j with
      | array items =>
          rw [Value.ofJson_array] at rendered ⊢
          exact congrArg (fun j => some (c.child j)) rendered
      | object members =>
          rw [Value.ofJson_object] at rendered ⊢
          exact congrArg (fun j => some (c.child j)) rendered
      | _ => rfl

/-- Promoting leads to nodes that are made of data. -/
theorem Grounded.promote (hc : c.Grounded) {v : Value} (hv : v.Sound) (h : c.promote [] v = some d) :
    d.Grounded := by
  cases hv with
  | node hd => exact Option.some.inj h ▸ hd
  | @data j hj =>
      have rendered : (Value.ofJson j).toJson [] = j.sorted := Json.toJsonWith_ofJson _ hj
      have child : (c.child ((Value.ofJson j).toJson [])).Grounded := by
        rw [rendered]
        exact hc.child hj.sorted
      cases j with
      | array items =>
          rw [Value.ofJson_array] at h child
          exact Option.some.inj h ▸ child
      | object members =>
          rw [Value.ofJson_object] at h child
          exact Option.some.inj h ▸ child
      | _ => exact absurd h (by simp [Configuration.promote, Value.ofJson])

namespace Opens

theorem grounded (h : c.Opens key d) (hc : c.Grounded) : d.Grounded := by
  obtain ⟨v, holds, opened⟩ := h
  have sound : v.Sound := holds.sound hc v rfl
  split at opened
  · exact hc.promote sound opened
  · subst opened
    exact sound.grounded

/-- At most one node is built from a key. -/
theorem unique (h : c.Opens key d) {d' : Configuration} (h' : c.Opens key d') : d = d' := by
  obtain ⟨v, holds, opened⟩ := h
  obtain ⟨v', holds', opened'⟩ := h'
  obtain rfl : v = v' := Option.some.inj (holds.unique holds')
  split at opened
  · rw [if_pos ‹_›] at opened'
    exact Option.some.inj (opened.symm.trans opened')
  · rw [if_neg ‹_›] at opened'
    exact Value.configuration.inj (opened.symm.trans opened')

/-- Where no list or map is in the data, no data is built as a node. -/
theorem ne_ofJson {v : Value} (opened : if (c.raw? key).any Json.isContainer then c.promote [] v = some d
    else v = .configuration d) (scalar : (c.raw? key).any Json.isContainer = false) (y : Json) : v ≠ .ofJson y := by
  rw [scalar, if_neg Bool.false_ne_true] at opened
  exact opened ▸ Ne.symm (Value.ofJson_ne_configuration y d)

/-- The node that is built from a key that is not empty is a child, made of what stands at the key's path. -/
theorem eq_child (h : c.Opens key d) (hc : c.Grounded) (labelled : c.data.Labelled) (hk : key ≠ "") :
    ∃ x, c.data.follow? (segments key) = some x ∧ d = c.child x := by
  obtain ⟨v, holds, opened⟩ := h
  have other := ne_ofJson opened
  have settled : Settled [] (follow withoutReferences (.configuration c) key) (some v) := fun s _ => holds s
  have passing : c.raw? key = c.data.follow? ((segments key).filter fun segment => segment ≠ "") := rfl
  obtain ⟨segment, rest, cut⟩ := List.exists_cons_of_ne_nil (segments_ne_nil key)
  have goes : stepValue [] (.configuration c) segment rest = stepRaw c c.data segment := by
    refine if_neg fun ⟨empty, last⟩ => hk ?_
    rw [← joinText_segments key, cut, empty, last]
    rfl
  rw [follow_cons cut] at settled
  replace settled := Settled.of_heap settled
  rw [goes, stepRaw] at settled
  cases hx : c.data.child? segment with
  | none =>
      rw [hx] at settled
      exact absurd settled.eq_of_pure (by simp)
  | some x =>
      rw [hx] at settled
      have named : segment ≠ "" := by
        rintro rfl
        exact absurd (labelled.child?_empty.symm.trans hx) (by simp)
      have first : ∀ segs, c.data.follow? (segment :: segs) = x.follow? segs := by
        intro segs
        rw [Json.follow?, hx, Option.bind_some]
      rw [cut, List.filter_cons_of_pos (by simpa using named), first] at passing
      rw [cut, first]
      have piece : x ∈ c.data.pieces := Json.mem_pieces_of_child? hx
      rcases walk_raw hc (labelled.piece piece) settled with ⟨y, there, names, leads⟩ | ⟨⟨y, -, rfl⟩, scalar⟩
      · have raw : c.raw? key = some y := by
          rw [passing, List.filter_eq_self.mpr fun s hs => by simpa using fun none : s = "" => names (none ▸ hs)]
          exact there
        rw [raw] at opened other
        have proper : y.Proper := (hc.data.piece piece).follow? there
        refine ⟨y, there, ?_⟩
        rcases hc.denoted_data proper (denoted_of_settled leads) with ⟨container, rfl⟩ | ⟨scalar, z, -, same⟩
        · rw [Option.any_some, if_pos container] at opened
          exact (Option.some.inj opened).symm
        · exact absurd same (other scalar z)
      · refine absurd rfl (other ?_ y)
        rw [passing]
        cases hz : x.follow? (rest.filter fun segment => segment ≠ "") with
        | none => rfl
        | some z => exact scalar z hz

/-- So it is less deep. -/
theorem descends (h : c.Opens key d) (hc : c.Grounded) (labelled : c.data.Labelled) (hk : key ≠ "") :
    d.data.Labelled ∧ d.data.depth < c.data.depth := by
  obtain ⟨x, there, rfl⟩ := h.eq_child hc labelled hk
  obtain ⟨segment, rest, cut⟩ := List.exists_cons_of_ne_nil (segments_ne_nil key)
  obtain ⟨still, shallow⟩ := splitParameters_labelled (labelled.follow? there)
  rw [cut] at there
  exact ⟨still, Nat.lt_of_le_of_lt shallow (Json.depth_lt_of_follow? there)⟩

end Opens

/-! ## Nodes without references -/

/-- The node says nothing about merging and names no factory, and its keys meet no reference. -/
structure Referenceless (c : Configuration) : Prop where
  unmerged : c.Unmerged
  own : c.data.child? factoryKey = none
  reads : ∀ key ∈ hintKeys ++ entryKeys c, ∃ v, c.Holds key v

/-- The node is built from an entry of the other. -/
def Nests (c d : Configuration) : Prop := ∃ key ∈ entryKeys c, c.Opens key d

/-- No reference is met at the names of a root, nor in the nodes that are built from them, however deep inside. -/
structure Independent (root : Configuration) (names : List String) : Prop where
  holds : ∀ name ∈ names, ∃ v, root.Holds name v
  nested : ∀ name ∈ names, ∀ c, root.Opens name c → ∀ d, Relation.ReflTransGen Nests c d → d.Referenceless

end Configuration

end ObjectGraph
