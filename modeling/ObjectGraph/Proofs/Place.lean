import Mathlib.Data.List.Nodup
import ObjectGraph.Build.Placeholder
import ObjectGraph.Table

/-!
# `Proofs.Place` — the places of placeholders

The places of the placeholders in a value are distinct, each leads to its placeholder, and writing at one
of them leaves the others as they are: a placeholder has nothing inside, so no place of one goes on from
the place of another.

Contents:
* `Value.at?`, and where a placeholder of a list or a map is;
* `at?_of_mem_placeholders`, `nodup_placeholders`;
* `at?_setAt_of_ne`;
* `length_placeholders_setAt`, `isNull_setAt`.
-/

namespace ObjectGraph.Value

/-- What stands in a value at a place. -/
def at? : List Place → Value → Option Value
  | [], v => some v
  | .index i :: rest, list items => items[i]?.bind (at? rest)
  | .key k :: rest, map entries => (entries.lookup k).bind (at? rest)
  | _ :: _, _ => none

/-- Nothing is inside a placeholder. -/
theorem at?_pending {place : List Place} {p q : Pending} (h : (pending p).at? place = some (pending q)) :
    place = [] := by
  cases place with
  | nil => rfl
  | cons step rest => cases step <;> exact absurd h (by simp [at?])

/-- A placeholder of a list is one of an item. -/
theorem at?_list {items : List Value} {place : List Place} {p : Pending}
    (h : (list items).at? place = some (pending p)) :
    ∃ i rest u, place = .index i :: rest ∧ items[i]? = some u ∧ u.at? rest = some (pending p) := by
  cases place with
  | nil => exact absurd h (by simp [at?])
  | cons step rest =>
      cases step with
      | key k => exact absurd h (by simp [at?])
      | index i =>
          obtain ⟨u, hu, hp⟩ := Option.bind_eq_some_iff.mp h
          exact ⟨i, rest, u, rfl, hu, hp⟩

/-- A placeholder of a map is one of an entry. -/
theorem at?_map {entries : List (String × Value)} {place : List Place} {p : Pending}
    (h : (map entries).at? place = some (pending p)) :
    ∃ k rest u, place = .key k :: rest ∧ entries.lookup k = some u ∧ u.at? rest = some (pending p) := by
  cases place with
  | nil => exact absurd h (by simp [at?])
  | cons step rest =>
      cases step with
      | index i => exact absurd h (by simp [at?])
      | key k =>
          obtain ⟨u, hu, hp⟩ := Option.bind_eq_some_iff.mp h
          exact ⟨k, rest, u, rfl, hu, hp⟩

/-! ## Every placeholder is found at its place -/

mutual

/-- The place of a placeholder leads to it. -/
theorem at?_of_mem_placeholders {v : Value} {place : List Place} {p : Pending}
    (h : (place, p) ∈ v.placeholders) : v.at? place = some (pending p) := by
  match v with
  | .pending q =>
      simp only [placeholders, List.mem_singleton, Prod.mk.injEq] at h
      obtain ⟨rfl, rfl⟩ := h
      rfl
  | .list items =>
      obtain ⟨j, rest, w, rfl, hw, hat⟩ := at?_of_mem_itemPlaceholders (by simpa [placeholders] using h)
      simp [at?, hw, hat]
  | .map entries =>
      obtain ⟨k, rest, w, rfl, -, hw, hat⟩ :=
        at?_of_mem_entryPlaceholders (by simpa [placeholders] using h)
      simp [at?, hw, hat]
  | .null | .bool _ | .number _ | .string _ | .date _ | .binary _ | .uri _ | .configuration _
  | .resource _ | .object _ => exact absurd h (by simp [placeholders])

/-- The place of a placeholder in some items leads to it. -/
theorem at?_of_mem_itemPlaceholders {i : Nat} {vs : List Value} {place : List Place} {p : Pending}
    (h : (place, p) ∈ itemPlaceholders i vs) :
    ∃ j rest w, place = .index (i + j) :: rest ∧ vs[j]? = some w ∧ w.at? rest = some (pending p) := by
  match vs with
  | [] => exact absurd h (by simp [itemPlaceholders])
  | v :: vs =>
      simp only [itemPlaceholders, List.mem_append, List.mem_map, Prod.mk.injEq] at h
      rcases h with ⟨⟨rest, q⟩, hv, rfl, rfl⟩ | h
      · exact ⟨0, rest, v, rfl, rfl, at?_of_mem_placeholders hv⟩
      · obtain ⟨j, rest, w, rfl, hw, hat⟩ := at?_of_mem_itemPlaceholders h
        exact ⟨j + 1, rest, w, by rw [Nat.add_right_comm, Nat.add_assoc], hw, hat⟩

/-- The place of a placeholder in some entries leads to it. -/
theorem at?_of_mem_entryPlaceholders {seen : List String} {es : List (String × Value)}
    {place : List Place} {p : Pending} (h : (place, p) ∈ entryPlaceholders seen es) :
    ∃ k rest w, place = .key k :: rest ∧ k ∉ seen ∧ es.lookup k = some w ∧
      w.at? rest = some (pending p) := by
  match es with
  | [] => exact absurd h (by simp [entryPlaceholders])
  | (k, v) :: es =>
      simp only [entryPlaceholders, List.mem_append] at h
      rcases h with h | h
      · by_cases hk : k ∈ seen
        · simp [hk] at h
        · simp only [hk, if_false, List.mem_map, Prod.mk.injEq] at h
          obtain ⟨⟨rest, q⟩, hv, rfl, rfl⟩ := h
          exact ⟨k, rest, v, rfl, hk, by simp, at?_of_mem_placeholders hv⟩
      · obtain ⟨l, rest, w, rfl, hl, hw, hat⟩ := at?_of_mem_entryPlaceholders h
        obtain ⟨hne, hs⟩ := not_or.mp (List.mem_cons.not.mp hl)
        exact ⟨l, rest, w, rfl, hs, by rw [Table.lookup_cons]; simp [hne, hw], hat⟩

end

/-! ## No two placeholders have one place -/

mutual

/-- The placeholders of a value have distinct places. -/
theorem nodup_placeholders (v : Value) : (v.placeholders.map Prod.fst).Nodup := by
  match v with
  | .pending q => simp [placeholders]
  | .list items => simpa [placeholders] using nodup_itemPlaceholders 0 items
  | .map entries => simpa [placeholders] using nodup_entryPlaceholders [] entries
  | .null | .bool _ | .number _ | .string _ | .date _ | .binary _ | .uri _ | .configuration _
  | .resource _ | .object _ => simp [placeholders]

/-- The placeholders of some items have distinct places. -/
theorem nodup_itemPlaceholders (i : Nat) (vs : List Value) :
    ((itemPlaceholders i vs).map Prod.fst).Nodup := by
  match vs with
  | [] => simp [itemPlaceholders]
  | v :: vs =>
      have first : ((v.placeholders.map fun l => (Place.index i :: l.1, l.2)).map Prod.fst).Nodup := by
        have := (nodup_placeholders v).map (f := (Place.index i :: ·)) fun a b h => by simpa using h
        simpa [List.map_map, Function.comp_def] using this
      simp only [itemPlaceholders, List.map_append]
      refine List.nodup_append.mpr ⟨first, nodup_itemPlaceholders (i + 1) vs, ?_⟩
      -- the places of the first item start with its position, those of the others with later ones
      rintro a ha b hb rfl
      obtain ⟨⟨a, q⟩, hvs, rfl⟩ := List.mem_map.mp hb
      obtain ⟨j, rest, w, hplace, -⟩ := at?_of_mem_itemPlaceholders hvs
      simp only [List.map_map, List.mem_map, Function.comp_def] at ha
      obtain ⟨l, -, hl⟩ := ha
      rw [hplace] at hl
      simp only [List.cons.injEq, Place.index.injEq] at hl
      omega

/-- The placeholders of some entries have distinct places. -/
theorem nodup_entryPlaceholders (seen : List String) (es : List (String × Value)) :
    ((entryPlaceholders seen es).map Prod.fst).Nodup := by
  match es with
  | [] => simp [entryPlaceholders]
  | (k, v) :: es =>
      simp only [entryPlaceholders]
      by_cases hk : k ∈ seen
      · simpa [hk] using nodup_entryPlaceholders (k :: seen) es
      have first : ((v.placeholders.map fun l => (Place.key k :: l.1, l.2)).map Prod.fst).Nodup := by
        have := (nodup_placeholders v).map (f := (Place.key k :: ·)) fun a b h => by simpa using h
        simpa [List.map_map, Function.comp_def] using this
      rw [if_neg hk, List.map_append]
      refine List.nodup_append.mpr ⟨first, nodup_entryPlaceholders (k :: seen) es, ?_⟩
      -- the places of the first entry start with its key, which is passed over in the others
      rintro a ha b hb rfl
      obtain ⟨⟨a, q⟩, hes, rfl⟩ := List.mem_map.mp hb
      obtain ⟨l, rest, w, hplace, hl, -⟩ := at?_of_mem_entryPlaceholders hes
      simp only [List.map_map, List.mem_map, Function.comp_def] at ha
      obtain ⟨m, -, hm⟩ := ha
      rw [hplace] at hm
      simp only [List.cons.injEq, Place.key.injEq] at hm
      exact hl (by simp [hm.1])

end

/-! ## Writing at a place -/

theorem getElem?_modifyItem (f : Value → Value) (i : Nat) (vs : List Value) (j : Nat) :
    (modifyItem f i vs)[j]? = if i = j then vs[j]?.map f else vs[j]? := by
  induction vs generalizing i j with
  | nil => simp [modifyItem]
  | cons v vs ih =>
      cases i with
      | zero => cases j <;> simp [modifyItem]
      | succ i =>
          cases j with
          | zero => simp [modifyItem]
          | succ j => simpa [modifyItem] using ih i j

theorem length_modifyItem (f : Value → Value) (i : Nat) (vs : List Value) :
    (modifyItem f i vs).length = vs.length := by
  induction vs generalizing i with
  | nil => cases i <;> rfl
  | cons v vs ih =>
      cases i with
      | zero => rfl
      | succ i => exact congrArg Nat.succ (ih i)

theorem lookup_modifyEntry (f : Value → Value) (k : String) (es : List (String × Value)) (l : String) :
    (modifyEntry f k es).lookup l = if k = l then (es.lookup l).map f else es.lookup l := by
  induction es with
  | nil => simp [modifyEntry]
  | cons e es ih =>
      obtain ⟨m, v⟩ := e
      simp only [modifyEntry]
      by_cases hm : m = k
      · subst hm
        by_cases hl : m = l
        · simp [hl]
        · simp [Table.lookup_cons, hl, Ne.symm hl]
      · by_cases hl : m = l
        · subst hl
          simp [hm, Ne.symm hm]
        · simp [Table.lookup_cons, hm, Ne.symm hl, ih]

theorem keys_modifyEntry (f : Value → Value) (k : String) (es : List (String × Value)) :
    Table.keys (modifyEntry f k es) = Table.keys es := by
  induction es with
  | nil => rfl
  | cons e es ih =>
      obtain ⟨m, v⟩ := e
      unfold modifyEntry
      split
      · rfl
      · exact congrArg (m :: ·) ih

/-- Writing at the place of one placeholder leaves the others as they are. -/
theorem at?_setAt_of_ne (new : Value) {v : Value} {place other : List Place} {p q : Pending}
    (hp : v.at? place = some (pending p)) (hq : v.at? other = some (pending q)) (hne : place ≠ other) :
    (setAt new place v).at? other = some (pending q) := by
  induction place generalizing v other with
  | nil =>
      obtain rfl : v = pending p := by simpa [at?] using hp
      exact absurd (at?_pending hq).symm hne
  | cons step rest ih =>
      cases other with
      | nil =>
          obtain rfl : v = pending q := by simpa [at?] using hq
          exact absurd (at?_pending hp) (by simp)
      | cons next others =>
          cases step with
          | index i =>
              cases v with
              | list items =>
                  cases next with
                  | index j =>
                      simp only [setAt, at?, getElem?_modifyItem] at hp hq ⊢
                      by_cases hij : i = j
                      -- both places go on into the same item
                      · subst hij
                        obtain ⟨w, hw, hp⟩ := Option.bind_eq_some_iff.mp hp
                        rw [hw] at hq ⊢
                        simpa using ih hp hq fun h => hne (by rw [h])
                      · rw [if_neg hij]
                        exact hq
                  | key k => exact absurd hq (by simp [at?])
              | _ => exact absurd hp (by simp [at?])
          | key k =>
              cases v with
              | map entries =>
                  cases next with
                  | key l =>
                      simp only [setAt, at?, lookup_modifyEntry] at hp hq ⊢
                      by_cases hkl : k = l
                      · subst hkl
                        obtain ⟨w, hw, hp⟩ := Option.bind_eq_some_iff.mp hp
                        rw [hw] at hq ⊢
                        simpa using ih hp hq fun h => hne (by rw [h])
                      · rw [if_neg hkl]
                        exact hq
                  | index i => exact absurd hq (by simp [at?])
              | _ => exact absurd hp (by simp [at?])

/-! ## Filling a place -/

theorem length_itemPlaceholders_modifyItem (f : Value → Value) (n i : Nat) {vs : List Value} {u : Value}
    (hu : vs[i]? = some u) :
    (itemPlaceholders n (modifyItem f i vs)).length + u.placeholders.length
      = (itemPlaceholders n vs).length + (f u).placeholders.length := by
  induction vs generalizing n i with
  | nil => exact absurd hu (by simp)
  | cons v vs ih =>
      cases i with
      | zero =>
          obtain rfl : v = u := by simpa using hu
          simp only [modifyItem, itemPlaceholders, List.length_append, List.length_map]
          omega
      | succ i =>
          have rest := ih (n + 1) i (by simpa using hu)
          simp only [modifyItem, itemPlaceholders, List.length_append, List.length_map]
          omega

theorem length_entryPlaceholders_modifyEntry (f : Value → Value) {seen : List String} {k : String}
    (hk : k ∉ seen) {es : List (String × Value)} {u : Value} (hu : es.lookup k = some u) :
    (entryPlaceholders seen (modifyEntry f k es)).length + u.placeholders.length
      = (entryPlaceholders seen es).length + (f u).placeholders.length := by
  induction es generalizing seen with
  | nil => exact absurd hu (by simp)
  | cons e es ih =>
      obtain ⟨l, v⟩ := e
      rw [Table.lookup_cons] at hu
      by_cases hl : l = k
      · subst hl
        obtain rfl : v = u := by simpa using hu
        simp only [modifyEntry, if_true, entryPlaceholders, if_neg hk, List.length_append, List.length_map]
        omega
      · rw [if_neg (Ne.symm hl)] at hu
        have later : k ∉ l :: seen := by simp [Ne.symm hl, hk]
        have rest := ih later hu
        simp only [modifyEntry, if_neg hl, entryPlaceholders, List.length_append]
        omega

/-- A place that is filled with something complete has one placeholder less. -/
theorem length_placeholders_setAt {new : Value} (hn : new.placeholders = []) {v : Value}
    {place : List Place} {p : Pending} (hp : v.at? place = some (pending p)) :
    (setAt new place v).placeholders.length + 1 = v.placeholders.length := by
  induction place generalizing v with
  | nil =>
      obtain rfl : v = pending p := by simpa [at?] using hp
      rw [setAt, hn]
      rfl
  | cons step rest ih =>
      cases step with
      | index i =>
          cases v with
          | list items =>
              obtain ⟨u, hu, hp⟩ := Option.bind_eq_some_iff.mp hp
              have inner := ih hp
              have outer := length_itemPlaceholders_modifyItem (setAt new rest) 0 i hu
              simp only [setAt, placeholders]
              omega
          | _ => exact absurd hp (by simp [at?])
      | key k =>
          cases v with
          | map entries =>
              obtain ⟨u, hu, hp⟩ := Option.bind_eq_some_iff.mp hp
              have inner := ih hp
              have outer := length_entryPlaceholders_modifyEntry (setAt new rest) (List.not_mem_nil (a := k)) hu
              simp only [setAt, placeholders]
              omega
          | _ => exact absurd hp (by simp [at?])

/-- What has a placeholder at a place has placeholders. -/
theorem placeholders_ne_nil {v : Value} {place : List Place} {p : Pending}
    (hp : v.at? place = some (pending p)) : v.placeholders ≠ [] := by
  have one := length_placeholders_setAt (v := v) (show Value.null.placeholders = [] from rfl) hp
  intro he
  rw [he] at one
  exact absurd one (by simp)

/-- What has been filled is null only if it was a placeholder, and null is what it was filled with. -/
theorem isNull_setAt {new v : Value} {place : List Place} {p : Pending}
    (hp : v.at? place = some (pending p)) (hn : (setAt new place v).isNull = true) : new.isNull = true := by
  cases place with
  | nil => exact hn
  | cons step rest =>
      -- with a step to go the value is a list or a map, and stays one
      cases step with
      | index i =>
          cases v with
          | list items => exact absurd hn Bool.false_ne_true
          | _ => exact absurd hp (by simp [at?])
      | key k =>
          cases v with
          | map entries => exact absurd hn Bool.false_ne_true
          | _ => exact absurd hp (by simp [at?])

end ObjectGraph.Value
