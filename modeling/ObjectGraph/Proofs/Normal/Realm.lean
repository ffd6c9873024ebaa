import Mathlib.Data.Set.Finite.List
import Mathlib.Data.Set.Finite.Lattice
import ObjectGraph.Configuration.Merge

/-!
# `Proofs.Normal.Realm` — finitely much data that reading does not lead out of

Reading data leads to pieces of it. A value that was data once is data again, with the members of objects in
order, when it becomes a node. Merging makes objects that were not there before, but of members that were.
So all the data that a configuration can come to has its pieces in a *realm*: a finite set that holds with
data its pieces and its ordered form. An object fits a realm if its keys and the data under them are there
and no key is repeated, and only finitely much fits (`Realm.finite_fits`).

Contents:
* `Json.Proper`, `Json.same_refl`; `Json.pieces`, `Json.sorted`, `Value.ofJson_sorted`;
* `Realm`, `Realm.union`, `Realm.add`, `exists_realm`;
* `Realm.Fits` with its closure lemmas, `Realm.finite_fits`.
-/

namespace ObjectGraph

namespace Json

/-! ## Proper data -/

/-- No object in the data repeats a key. -/
inductive Proper : Json → Prop
  | null : Proper .null
  | bool (b : Bool) : Proper (.bool b)
  | number (n : Number) : Proper (.number n)
  | string (s : String) : Proper (.string s)
  | array {items : List Json} (items_proper : ∀ j ∈ items, Proper j) : Proper (.array items)
  | object {members : List (String × Json)} (nodup : (Table.keys members).Nodup)
      (members_proper : ∀ m ∈ members, Proper m.2) : Proper (.object members)

theorem sameItems_refl {items : List Json} (h : ∀ j ∈ items, j.same j = true) :
    sameItems items items = true := by
  induction items with
  | nil => rw [sameItems]
  | cons j items ih =>
      rw [sameItems, h j List.mem_cons_self, ih fun j hj => h j (List.mem_cons_of_mem _ hj)]
      rfl

/-- Members whose keys have the same data in a table are in the table. -/
theorem sameMembers_of_lookup {part whole : List (String × Json)}
    (h : ∀ m ∈ part, ∃ x, whole.lookup m.1 = some x ∧ m.2.same x = true) :
    sameMembers part whole = true := by
  induction part with
  | nil => rw [sameMembers]
  | cons m part ih =>
      obtain ⟨x, there, same⟩ := h m List.mem_cons_self
      obtain ⟨k, j⟩ := m
      rw [sameMembers, there, ih fun m hm => h m (List.mem_cons_of_mem _ hm)]
      simpa using same

/-- Proper data is equal to itself. -/
theorem Proper.same_self {j : Json} (h : j.Proper) : j.same j = true := by
  induction h with
  | null => rw [same]
  | bool b => simp [same]
  | number n => rw [same, Number.same_refl]
  | string s => simp [same]
  | array _ ih => rw [same, sameItems_refl ih]
  | object nodup _ ih =>
      rw [same, sameMembers_of_lookup fun m hm => ⟨m.2, Table.lookup_of_mem nodup hm, ih m hm⟩]
      simp

/-! ## Pieces, and data in order -/

/-- The items of an array, and the data under the keys of an object. -/
def pieces : Json → List Json
  | .array items => items
  | .object members => members.map Prod.snd
  | _ => []

theorem Proper.piece {j x : Json} (h : j.Proper) (hx : x ∈ j.pieces) : x.Proper := by
  cases h with
  | array items => exact items x hx
  | object _ members =>
      obtain ⟨m, hm, rfl⟩ := List.mem_map.mp hx
      exact members m hm
  | _ => exact absurd hx (by simp [pieces])

/-- What a step of a path leads to is a piece. -/
theorem mem_pieces_of_child? {j x : Json} {segment : String} (h : j.child? segment = some x) :
    x ∈ j.pieces := by
  cases j with
  | object members => exact List.mem_map_of_mem (Table.mem_of_lookup h)
  | array items =>
      obtain ⟨i, -, hi⟩ := Option.bind_eq_some_iff.mp h
      exact List.mem_of_getElem? hi
  | _ => exact absurd h (by simp [child?])

/-- The data with the members of its objects in order, the last of those with one key. -/
def sorted (j : Json) : Json := (Value.ofJson j).toJsonWith fun _ => .null

end Json

namespace Value

theorem ofItems_eq_map (items : List Json) : ofItems items = items.map ofJson := by
  induction items with
  | nil => rfl
  | cons j items ih => rw [ofItems, ih, List.map_cons]

theorem ofMembers_eq_map (members : List (String × Json)) :
    ofMembers members = members.map fun m => (m.1, ofJson m.2) := by
  induction members with
  | nil => rfl
  | cons m members ih =>
      obtain ⟨k, j⟩ := m
      rw [ofMembers, ih, List.map_cons]

/-- The entries of an object as a map. -/
def entriesOf (members : List (String × Json)) : List (String × Value) :=
  Table.insertAll [] (members.map fun m => (m.1, ofJson m.2))

theorem ofJson_object (members : List (String × Json)) : ofJson (.object members) = .map (entriesOf members) := by
  rw [ofJson, ofMembers_eq_map, entriesOf]

theorem ofJson_array (items : List Json) : ofJson (.array items) = .list (items.map ofJson) := by
  rw [ofJson, ofItems_eq_map]

theorem mem_entriesOf {members : List (String × Json)} {e : String × Value} (h : e ∈ entriesOf members) :
    ∃ m ∈ members, e = (m.1, ofJson m.2) := by
  rcases Table.mem_insertAll h with h | h
  · exact absurd h List.not_mem_nil
  · obtain ⟨m, hm, rfl⟩ := List.mem_map.mp h
    exact ⟨m, hm, rfl⟩

theorem ascending_entriesOf (members : List (String × Json)) : Table.Ascending (entriesOf members) :=
  Table.ascending_insertAll _ List.Pairwise.nil

end Value

namespace Json

open Value

theorem sorted_array (items : List Json) : (Json.array items).sorted = .array (items.map sorted) := by
  rw [sorted, ofJson_array, toJsonWith, itemsToJson_eq_map, List.map_map]
  rfl

theorem sorted_object (members : List (String × Json)) :
    (Json.object members).sorted
      = .object ((entriesOf members).map fun e => (e.1, e.2.toJsonWith fun _ => .null)) := by
  rw [sorted, ofJson_object, toJsonWith, entriesToJson_eq_map]

/-- What was data is rendered as its ordered form, whatever components look like. -/
theorem toJsonWith_ofJson (object : ObjectId → Json) {j : Json} (h : j.Proper) :
    (ofJson j).toJsonWith object = j.sorted := by
  induction h with
  | array _ ih =>
      rw [sorted_array, ofJson_array, toJsonWith, itemsToJson_eq_map, List.map_map]
      exact congrArg _ (List.map_congr_left ih)
  | object _ _ ih =>
      rw [sorted_object, ofJson_object, toJsonWith, entriesToJson_eq_map]
      refine congrArg _ (List.map_congr_left fun e he => ?_)
      obtain ⟨m, hm, rfl⟩ := mem_entriesOf he
      exact congrArg _ (ih m hm)
  | _ => rfl

/-- As a value, ordered data is what it was before. -/
theorem ofJson_sorted {j : Json} (h : j.Proper) : ofJson j.sorted = ofJson j := by
  induction h with
  | array _ ih =>
      rw [sorted_array, ofJson_array, ofJson_array, List.map_map]
      exact congrArg _ (List.map_congr_left ih)
  | @object members _ _ ih =>
      -- the entries do not change when they are rendered and read, and they are in order already
      have same : ((entriesOf members).map fun e => (e.1, e.2.toJsonWith fun _ => .null)).map
          (fun m => (m.1, ofJson m.2)) = entriesOf members := by
        rw [List.map_map]
        refine (List.map_congr_left fun e he => ?_).trans (List.map_id _)
        obtain ⟨m, hm, rfl⟩ := mem_entriesOf he
        exact congrArg (Prod.mk m.1) (ih m hm)
      rw [sorted_object, ofJson_object, ofJson_object, entriesOf, same,
        Table.insertAll_nil (ascending_entriesOf members)]
  | _ => rfl

theorem sorted_sorted {j : Json} (h : j.Proper) : j.sorted.sorted = j.sorted := by
  rw [sorted, ofJson_sorted h, ← sorted]

theorem mem_pieces_sorted {j x : Json} (h : x ∈ j.sorted.pieces) : ∃ y ∈ j.pieces, x = y.sorted := by
  cases j with
  | array items =>
      rw [sorted_array] at h
      obtain ⟨y, hy, rfl⟩ := List.mem_map.mp h
      exact ⟨y, hy, rfl⟩
  | object members =>
      rw [sorted_object, pieces, List.map_map] at h
      obtain ⟨e, he, rfl⟩ := List.mem_map.mp h
      obtain ⟨m, hm, rfl⟩ := mem_entriesOf he
      exact ⟨m.2, List.mem_map_of_mem hm, rfl⟩
  | _ => exact absurd h List.not_mem_nil

theorem Proper.sorted {j : Json} (h : j.Proper) : j.sorted.Proper := by
  induction h with
  | array _ ih =>
      rw [sorted_array]
      refine .array fun x hx => ?_
      obtain ⟨y, hy, rfl⟩ := List.mem_map.mp hx
      exact ih y hy
  | @object members _ _ ih =>
      rw [sorted_object]
      refine .object ?_ fun x hx => ?_
      · have keys := (ascending_entriesOf members).nodup
        rwa [Table.keys, List.map_map]
      · obtain ⟨e, he, rfl⟩ := List.mem_map.mp hx
        obtain ⟨m, hm, rfl⟩ := mem_entriesOf he
        exact ih m hm
  | null => exact .null
  | bool b => exact .bool b
  | number n => exact .number n
  | string s => exact .string s

end Json

/-! ## Realms -/

/-- A finite set of data that holds with data its pieces and its ordered form. -/
structure Realm where
  data : Set Json
  finite : data.Finite
  proper : ∀ j ∈ data, j.Proper
  piece : ∀ j ∈ data, ∀ x ∈ j.pieces, x ∈ data
  sorted : ∀ j ∈ data, j.sorted ∈ data

namespace Realm

/-- One realm lies in another. -/
instance : LE Realm := ⟨fun R S => R.data ⊆ S.data⟩

/-- The realm without data. -/
def empty : Realm := ⟨∅, Set.finite_empty, by simp, by simp, by simp⟩

/-- The data of two realms. -/
def union (R S : Realm) : Realm where
  data := R.data ∪ S.data
  finite := R.finite.union S.finite
  proper j := Or.rec (R.proper j) (S.proper j)
  piece j := Or.rec (fun h x hx => .inl (R.piece j h x hx)) fun h x hx => .inr (S.piece j h x hx)
  sorted j := Or.imp (R.sorted j) (S.sorted j)

theorem le_union_left (R S : Realm) : R ≤ R.union S := Set.subset_union_left

theorem le_union_right (R S : Realm) : S ≤ R.union S := Set.subset_union_right

/-- A realm with data whose pieces it holds already. -/
def add (R : Realm) (j : Json) (proper : j.Proper) (pieces : ∀ x ∈ j.pieces, x ∈ R.data) : Realm where
  data := insert j (insert j.sorted R.data)
  finite := (R.finite.insert _).insert _
  proper := by
    rintro _ (rfl | rfl | h)
    · exact proper
    · exact proper.sorted
    · exact R.proper _ h
  piece := by
    rintro _ (rfl | rfl | h) x hx
    · exact .inr (.inr (pieces x hx))
    · obtain ⟨y, hy, rfl⟩ := Json.mem_pieces_sorted hx
      exact .inr (.inr (R.sorted y (pieces y hy)))
    · exact .inr (.inr (R.piece _ h x hx))
  sorted := by
    rintro _ (rfl | rfl | h)
    · exact .inr (.inl rfl)
    · exact .inr (.inl (Json.sorted_sorted proper))
    · exact .inr (.inr (R.sorted _ h))

/-- Realms for each of some data are parts of one for all of them. -/
theorem exists_of_forall {js : List Json} (h : ∀ j ∈ js, ∃ R : Realm, j ∈ R.data) :
    ∃ R : Realm, ∀ j ∈ js, j ∈ R.data := by
  induction js with
  | nil => exact ⟨empty, by simp⟩
  | cons j js ih =>
      obtain ⟨R, hR⟩ := h j List.mem_cons_self
      obtain ⟨S, hS⟩ := ih fun x hx => h x (List.mem_cons_of_mem _ hx)
      refine ⟨R.union S, fun x hx => ?_⟩
      rcases List.mem_cons.mp hx with rfl | hx
      · exact .inl hR
      · exact .inr (hS x hx)

/-- Proper data lies in a realm. -/
theorem exists_of_proper {j : Json} (h : j.Proper) : ∃ R : Realm, j ∈ R.data := by
  have whole : ∀ j : Json, j.Proper → (∀ x ∈ j.pieces, ∃ R : Realm, x ∈ R.data) → ∃ R : Realm, j ∈ R.data := by
    intro j h pieces
    obtain ⟨R, hR⟩ := exists_of_forall pieces
    exact ⟨R.add j h hR, .inl rfl⟩
  induction h with
  | array items ih => exact whole _ (.array items) ih
  | object nodup members ih =>
      refine whole _ (.object nodup members) fun x hx => ?_
      obtain ⟨m, hm, rfl⟩ := List.mem_map.mp hx
      exact ih m hm
  | null => exact whole _ .null (by simp [Json.pieces])
  | bool b => exact whole _ (.bool b) (by simp [Json.pieces])
  | number n => exact whole _ (.number n) (by simp [Json.pieces])
  | string s => exact whole _ (.string s) (by simp [Json.pieces])

/-! ## Data that fits a realm -/

variable {R S : Realm} {j x : Json}

/-- The members of the objects in a realm. -/
def members (R : Realm) : Set (String × Json) :=
  {m | m.2 ∈ R.data ∧ ∃ j ∈ R.data, m.1 ∈ Table.keys (Configuration.members j)}

/-- An object fits if it is made of members of a realm, and other data if it lies in the realm. -/
def Fits (R : Realm) : Json → Prop
  | .object ms => (Table.keys ms).Nodup ∧ ∀ m ∈ ms, m ∈ R.members
  | j => j ∈ R.data

theorem members_mono (h : R ≤ S) : R.members ⊆ S.members :=
  fun _ ⟨hm, j, hj, hk⟩ => ⟨h hm, j, h hj, hk⟩

theorem Fits.mono (h : R ≤ S) (hj : R.Fits j) : S.Fits j := by
  cases j with
  | object ms => exact ⟨hj.1, fun m hm => members_mono h (hj.2 m hm)⟩
  | _ => exact h hj

theorem fits_of_mem (h : j ∈ R.data) : R.Fits j := by
  cases j with
  | object ms =>
      cases R.proper _ h with
      | object nodup _ =>
          exact ⟨nodup, fun m hm => ⟨R.piece _ h _ (List.mem_map_of_mem hm), _, h, List.mem_map_of_mem hm⟩⟩
  | _ => exact h

theorem Fits.proper (h : R.Fits j) : j.Proper := by
  cases j with
  | object ms => exact .object h.1 fun m hm => R.proper _ (h.2 m hm).1
  | _ => exact R.proper _ h

/-- The pieces of what fits lie in the realm. -/
theorem Fits.piece (h : R.Fits j) (hx : x ∈ j.pieces) : x ∈ R.data := by
  cases j with
  | object ms =>
      obtain ⟨m, hm, rfl⟩ := List.mem_map.mp hx
      exact (h.2 m hm).1
  | _ => exact R.piece _ h _ hx

/-- What is left of an object that fits when some of its members are taken out. -/
theorem Fits.filter {ms : List (String × Json)} (h : R.Fits (.object ms)) (p : String × Json → Bool) :
    R.Fits (.object (ms.filter p)) :=
  ⟨h.1.sublist (List.filter_sublist.map _), fun m hm => h.2 m (List.mem_of_mem_filter hm)⟩

/-- An object that fits with the members of another written into it. -/
theorem Fits.overlay {base upper : List (String × Json)} (h : R.Fits (.object base))
    (h' : ∀ m ∈ upper, m ∈ R.members) : R.Fits (.object (Table.overlay base upper)) :=
  ⟨Table.nodup_keys_overlay h.1 upper, fun m hm => (Table.mem_overlay hm).elim (h.2 m) (h' m)⟩

theorem finite_members (R : Realm) : R.members.Finite := by
  have keys : (⋃ j ∈ R.data, {k | k ∈ Table.keys (Configuration.members j)}).Finite :=
    R.finite.biUnion fun j _ => List.finite_toSet _
  refine (keys.prod R.finite).subset fun m hm => ?_
  obtain ⟨piece, j, hj, key⟩ := hm
  exact ⟨Set.mem_biUnion hj key, piece⟩

/-- Only finitely many rows without repetition can be made of finitely many members. -/
theorem finite_rows {α : Type} {A : Set α} (hA : A.Finite) :
    {l : List α | l.Nodup ∧ ∀ a ∈ l, a ∈ A}.Finite := by
  have := hA.to_subtype
  have := Fintype.ofFinite A
  refine ((List.finite_length_le A (Fintype.card A)).image (List.map Subtype.val)).subset ?_
  rintro l ⟨nodup, within⟩
  have back : (l.attachWith (· ∈ A) within).map Subtype.val = l :=
    List.attachWith_map_subtype_val within
  refine ⟨l.attachWith (· ∈ A) within, ?_, back⟩
  exact List.Nodup.length_le_card (List.Nodup.of_map Subtype.val (back.symm ▸ nodup))

/-- Only finitely much data fits a realm. -/
theorem finite_fits (R : Realm) : {j | R.Fits j}.Finite := by
  refine (((finite_rows R.finite_members).image Json.object).union R.finite).subset fun j hj => ?_
  cases j with
  | object ms => exact .inl ⟨ms, ⟨List.Nodup.of_map Prod.fst hj.1, hj.2⟩, rfl⟩
  | _ => exact .inr hj

end Realm

end ObjectGraph
