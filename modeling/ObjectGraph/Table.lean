/-!
# `Table` — tables keyed by text

A table is a list of pairs. Two ways of writing into one keep two orders: `put` leaves a key that
is there in its place and appends a new one, so the list is in order of first mention; `insert`
keeps the keys ascending. Looking up is core's `List.lookup`.

Contents:
* `put`, `overlay`, `ofPairs` for declaration order;
* `insert`, `insertAll` for ascending order, with `Ascending`;
* `keys`, `has`;
* `mem_keys_iff`, `lookup_of_mem`, `lookup_of_unique`, `lookup_map`, `lookup_reverse`, `lookup_filter`: what is
  looked up in a table;
* `lookup_put`, `lookup_overlay`, `lookup_insert`, `lookup_insertAll`: what is looked up after writing;
* `mem_put`, `mem_overlay`, `mem_insert`, `mem_insertAll`: where what stands in a table comes from;
* `put_of_not_mem`, `nodup_keys_overlay`, `overlay_nil`, `keys_overlay`, `keys_overlay_append`, `overlay_append`,
  `overlay_assoc`; `ascending_insertAll`, `insert_of_forall_lt`, `insertAll_nil`.
-/

namespace ObjectGraph.Table

variable {α : Type}

/-- The keys of a table, in its order. -/
def keys (t : List (String × α)) : List String := t.map Prod.fst

/-- The table has the key. -/
def has (t : List (String × α)) (k : String) : Bool := (t.lookup k).isSome

/-! ## Declaration order -/

/-- The table with `k` bound to `v`: in the place of `k` if it is there, at the end otherwise. -/
def put (k : String) (v : α) : List (String × α) → List (String × α)
  | [] => [(k, v)]
  | (k', v') :: t => if k' = k then (k, v) :: t else (k', v') :: put k v t

/-- `base` with every pair of `upper` written into it. -/
def overlay (base upper : List (String × α)) : List (String × α) :=
  upper.foldl (fun t kv => put kv.1 kv.2 t) base

/-- A table from pairs; of pairs with one key the last counts, in the place of the first. -/
def ofPairs (pairs : List (String × α)) : List (String × α) := overlay [] pairs

/-! ## Ascending order -/

/-- The keys ascend. -/
def Ascending (t : List (String × α)) : Prop := (keys t).Pairwise (· < ·)

/-- The ascending table with `k` bound to `v`. -/
def insert (k : String) (v : α) : List (String × α) → List (String × α)
  | [] => [(k, v)]
  | (k', v') :: t =>
      if k = k' then (k, v) :: t
      else if k < k' then (k, v) :: (k', v') :: t
      else (k', v') :: insert k v t

/-- The ascending table with every pair written into it, later pairs over earlier ones. -/
def insertAll (t : List (String × α)) (pairs : List (String × α)) : List (String × α) :=
  pairs.foldl (fun t kv => insert kv.1 kv.2 t) t

/-! ## Laws -/

@[simp] theorem keys_nil : keys ([] : List (String × α)) = [] := rfl

@[simp] theorem keys_cons (kv : String × α) (t : List (String × α)) :
    keys (kv :: t) = kv.1 :: keys t := rfl

/-- Looking up passes over a pair with another key. -/
theorem lookup_cons (x : String) (kv : String × α) (t : List (String × α)) :
    (kv :: t).lookup x = if x = kv.1 then some kv.2 else t.lookup x := by
  obtain ⟨k, v⟩ := kv
  by_cases h : x = k
  · simp [h]
  · have hb : (x == k) = false := by simpa using h
    simp [List.lookup_cons, hb, h]

/-- The keys are what something is looked up for. -/
theorem mem_keys_iff {t : List (String × α)} {key : String} : key ∈ keys t ↔ (t.lookup key).isSome := by
  induction t with
  | nil => simp
  | cons e t ih =>
      rw [keys_cons, List.mem_cons, lookup_cons, ih]
      by_cases h : key = e.1 <;> simp [h]

/-- What is looked up is there. -/
theorem mem_of_lookup {k : String} {v : α} {t : List (String × α)} (h : t.lookup k = some v) :
    (k, v) ∈ t := by
  obtain ⟨before, rest, rfl, -⟩ := List.lookup_eq_some_iff.mp h
  simp

/-- What is there is looked up, if keys are not repeated. -/
theorem lookup_of_mem {k : String} {v : α} {t : List (String × α)} (hn : (keys t).Nodup)
    (h : (k, v) ∈ t) : t.lookup k = some v := by
  induction t with
  | nil => exact absurd h (by simp)
  | cons kv t ih =>
      obtain ⟨hk, hn⟩ := List.nodup_cons.mp hn
      rw [lookup_cons]
      rcases List.mem_cons.mp h with rfl | h
      · simp
      · have : k ≠ kv.1 := fun e => hk (e ▸ List.mem_map_of_mem h)
        simp [this, ih hn h]

/-- What is there is looked up, if nothing else has its key. -/
theorem lookup_of_unique {k : String} {v : α} {t : List (String × α)} (h : (k, v) ∈ t)
    (only : ∀ w, (k, w) ∈ t → w = v) : t.lookup k = some v := by
  obtain ⟨w, found⟩ := Option.isSome_iff_exists.mp (mem_keys_iff.mp (List.mem_map_of_mem h))
  rw [found, only w (mem_of_lookup found)]

/-- What is looked up after all values have been changed. -/
theorem lookup_map {β : Type} (f : α → β) (t : List (String × α)) (k : String) :
    (t.map fun e => (e.1, f e.2)).lookup k = (t.lookup k).map f := by
  induction t with
  | nil => rfl
  | cons e t ih =>
      rw [List.map_cons, lookup_cons, lookup_cons, ih]
      split <;> rfl

/-- If keys are not repeated, it does not matter from which end one looks. -/
theorem lookup_reverse {t : List (String × α)} (hn : (keys t).Nodup) (k : String) :
    t.reverse.lookup k = t.lookup k := by
  induction t with
  | nil => rfl
  | cons kv t ih =>
      obtain ⟨hk, hn⟩ := List.nodup_cons.mp hn
      rw [List.reverse_cons, List.lookup_append, ih hn, lookup_cons, lookup_cons]
      split
      next h =>
        have absent : t.lookup k = none := by
          rw [← Option.not_isSome_iff_eq_none, ← mem_keys_iff, h]
          exact hk
        rw [absent, Option.none_or]
      next => rw [List.lookup_nil, Option.or_none]

/-- What is looked up among the pairs with some of the keys. -/
theorem lookup_filter (p : String → Bool) (t : List (String × α)) (k : String) :
    (t.filter fun m => p m.1).lookup k = if p k then t.lookup k else none := by
  induction t with
  | nil => exact (ite_self _).symm
  | cons kv t ih =>
      rw [List.filter_cons]
      by_cases hp : p kv.1 = true
      · rw [if_pos hp, lookup_cons, lookup_cons, ih]
        by_cases h : k = kv.1
        · rw [if_pos h, if_pos h, h, if_pos hp]
        · rw [if_neg h, if_neg h]
      · rw [if_neg hp, ih, lookup_cons]
        by_cases h : k = kv.1
        · rw [if_neg (h ▸ hp), if_neg (h ▸ hp)]
        · rw [if_neg h]

/-- After `put`, the key has the value and no other key has changed. -/
theorem lookup_put (k : String) (v : α) (t : List (String × α)) (x : String) :
    (put k v t).lookup x = if x = k then some v else t.lookup x := by
  induction t with
  | nil => simp [put, lookup_cons]
  | cons kv t ih =>
      obtain ⟨k', v'⟩ := kv
      by_cases hk : k' = k
      · subst hk
        by_cases h : x = k' <;> simp [put, lookup_cons, h]
      · by_cases h : x = k'
        · subst h; simp [put, hk]
        · simp [put, lookup_cons, hk, h, ih]

/-- `put` keeps the keys and appends one that is new. -/
theorem keys_put (k : String) (v : α) (t : List (String × α)) :
    keys (put k v t) = if k ∈ keys t then keys t else keys t ++ [k] := by
  induction t with
  | nil => simp [put]
  | cons kv t ih =>
      obtain ⟨k', v'⟩ := kv
      by_cases hk : k' = k
      · subst hk; simp [put]
      · have hk' : k ≠ k' := fun e => hk e.symm
        by_cases hm : k ∈ keys t <;> simp [put, hk, hk', hm, ih]

/-- `put` appends a key that is not there. -/
theorem put_of_not_mem {k : String} (v : α) {t : List (String × α)} (h : k ∉ keys t) :
    put k v t = t ++ [(k, v)] := by
  induction t with
  | nil => rfl
  | cons kv t ih =>
      have ne : kv.1 ≠ k := fun e => h (e ▸ List.mem_cons_self)
      rw [put, if_neg ne, ih fun hm => h (List.mem_cons_of_mem _ hm), List.cons_append]

/-- What stands in `put` is the new pair or was there. -/
theorem mem_put {k : String} {v : α} {t : List (String × α)} {p : String × α} (h : p ∈ put k v t) :
    p = (k, v) ∨ p ∈ t := by
  induction t with
  | nil => exact .inl (List.mem_singleton.mp h)
  | cons kv t ih =>
      rw [put] at h
      split at h
      · exact (List.mem_cons.mp h).imp_right (List.mem_cons_of_mem _)
      · rcases List.mem_cons.mp h with rfl | h
        · exact .inr List.mem_cons_self
        · exact (ih h).imp_right (List.mem_cons_of_mem _)

/-- What stands in `overlay` stood in one of the tables. -/
theorem mem_overlay {base upper : List (String × α)} {p : String × α} (h : p ∈ overlay base upper) :
    p ∈ base ∨ p ∈ upper := by
  induction upper generalizing base with
  | nil => exact .inl h
  | cons kv upper ih =>
      rcases @ih (put kv.1 kv.2 base) h with h | h
      · rcases mem_put h with rfl | h
        · exact .inr List.mem_cons_self
        · exact .inl h
      · exact .inr (List.mem_cons_of_mem _ h)

/-- Writing into a table without double keys makes none. -/
theorem nodup_keys_overlay {base : List (String × α)} (h : (keys base).Nodup) (upper : List (String × α)) :
    (keys (overlay base upper)).Nodup := by
  induction upper generalizing base with
  | nil => exact h
  | cons kv upper ih =>
      refine @ih (put kv.1 kv.2 base) ?_
      rw [keys_put]
      split
      · exact h
      next new =>
        refine List.nodup_append.mpr ⟨h, List.pairwise_singleton _ _, fun x hx y hy e => ?_⟩
        exact new ((List.mem_singleton.mp hy) ▸ e ▸ hx)

/-- A table without double keys comes back when it is written into an empty one. -/
theorem overlay_nil {t : List (String × α)} (hn : (keys t).Nodup) : overlay [] t = t := by
  have append : ∀ (base upper : List (String × α)), (keys (base ++ upper)).Nodup →
      overlay base upper = base ++ upper := by
    intro base upper hn
    induction upper generalizing base with
    | nil => exact (List.append_nil base).symm
    | cons kv upper ih =>
        have new : kv.1 ∉ keys base := by
          intro hm
          rw [keys, List.map_append] at hn
          exact (List.nodup_append.mp hn).2.2 _ hm _ List.mem_cons_self rfl
        have one : base ++ kv :: upper = (base ++ [kv]) ++ upper := List.append_cons base kv upper
        show overlay (put kv.1 kv.2 base) upper = _
        rw [put_of_not_mem kv.2 new, ih (base ++ [kv]) (one ▸ hn), one]
  exact append [] t hn

/-- If the keys of a table are those of a row in order of first mention, so they are after writing, with the keys
written behind the row. -/
theorem keys_overlay {base : List (String × α)} {row : List String} (h : keys base = row.eraseDups)
    (upper : List (String × α)) : keys (overlay base upper) = (row ++ keys upper).eraseDups := by
  induction upper generalizing base row with
  | nil =>
      rw [keys_nil, List.append_nil]
      exact h
  | cons kv upper ih =>
      have one : keys (put kv.1 kv.2 base) = (row ++ [kv.1]).eraseDups := by
        rw [keys_put, h, List.eraseDups_append]
        by_cases hm : kv.1 ∈ row <;> simp [List.removeAll, List.eraseDups_cons, hm]
      rw [keys_cons, List.append_cons]
      exact ih one

/-- Writing leaves the keys that are there in their places; the others follow in order of first mention. -/
theorem keys_overlay_append (base upper : List (String × α)) :
    keys (overlay base upper) = keys base ++ ((keys upper).filter (· ∉ keys base)).eraseDups := by
  induction upper generalizing base with
  | nil => simp [overlay]
  | cons kv upper ih =>
      have step : overlay base (kv :: upper) = overlay (put kv.1 kv.2 base) upper := rfl
      rw [step, ih, keys_put, keys_cons]
      by_cases hm : kv.1 ∈ keys base
      · rw [if_pos hm, List.filter_cons_of_neg (by simpa using hm)]
      · have apart : (keys upper).filter (· ∉ keys base ++ [kv.1])
            = ((keys upper).filter (· ∉ keys base)).filter (· != kv.1) := by
          rw [List.filter_filter]
          refine List.filter_congr fun key _ => ?_
          by_cases h : key = kv.1 <;> simp [h]
        rw [if_neg hm, List.filter_cons_of_pos (by simpa using hm), List.eraseDups_cons, apart, List.append_assoc]
        rfl

/-- Writing two tables one after the other is writing them in a row. -/
theorem overlay_append (base upper more : List (String × α)) :
    overlay base (upper ++ more) = overlay (overlay base upper) more := List.foldl_append

/-- What is written twice under a key is written once. -/
theorem put_put_self (k : String) (v w : α) (t : List (String × α)) : put k v (put k w t) = put k v t := by
  induction t with
  | nil => simp [put]
  | cons kv t ih =>
      obtain ⟨l, x⟩ := kv
      by_cases h : l = k
      · simp [put, h]
      · simp [put, h, ih]

/-- It does not matter which of two keys is written first, if one of them is there. -/
theorem put_put_comm {k l : String} (hne : k ≠ l) (v w : α) {t : List (String × α)} (hk : k ∈ keys t) :
    put k v (put l w t) = put l w (put k v t) := by
  induction t with
  | nil => exact absurd hk List.not_mem_nil
  | cons kv t ih =>
      obtain ⟨m, x⟩ := kv
      by_cases first : m = k
      · subst first
        simp [put, hne]
      · have there : k ∈ keys t := by
          rcases List.mem_cons.mp hk with same | hk
          · exact absurd same.symm first
          · exact hk
        by_cases second : m = l
        · subst second
          simp [put, first]
        · simp [put, first, second, ih there]

/-- A key that is there may be written before or after others. -/
theorem put_overlay {k : String} (v : α) {base upper : List (String × α)} (hk : k ∈ keys base)
    (hn : k ∉ keys upper) : put k v (overlay base upper) = overlay (put k v base) upper := by
  induction upper generalizing base with
  | nil => rfl
  | cons kv upper ih =>
      have other : k ≠ kv.1 := List.ne_of_not_mem_cons hn
      have still : k ∈ keys (put kv.1 kv.2 base) := by
        rw [keys_put]
        split
        · exact hk
        · exact List.mem_append_left _ hk
      show put k v (overlay (put kv.1 kv.2 base) upper) = overlay (put kv.1 kv.2 (put k v base)) upper
      rw [ih still (List.not_mem_of_not_mem_cons hn), put_put_comm other v kv.2 hk]

/-- Writing into what is written over a table is writing it after that. -/
theorem overlay_put (k : String) (v : α) (base : List (String × α)) {upper : List (String × α)}
    (hn : (keys upper).Nodup) : overlay base (put k v upper) = put k v (overlay base upper) := by
  induction upper generalizing base with
  | nil => rfl
  | cons kv upper ih =>
      obtain ⟨l, w⟩ := kv
      obtain ⟨new, hn⟩ := List.nodup_cons.mp hn
      by_cases same : l = k
      · subst same
        have there : l ∈ keys (put l w base) := by
          rw [keys_put]
          split
          next hl => exact hl
          next => exact List.mem_append_right _ (List.mem_singleton.mpr rfl)
        have once : put l v ((l, w) :: upper) = (l, v) :: upper := if_pos rfl
        show overlay base (put l v ((l, w) :: upper)) = put l v (overlay (put l w base) upper)
        rw [once, put_overlay v there new, put_put_self]
        rfl
      · have later : put k v ((l, w) :: upper) = (l, w) :: put k v upper := if_neg same
        show overlay base (put k v ((l, w) :: upper)) = put k v (overlay (put l w base) upper)
        rw [later, ← ih (put l w base) hn]
        rfl

/-- Of three tables it does not matter which two are put over each other first; the keys keep their order too. -/
theorem overlay_assoc (a : List (String × α)) {b : List (String × α)} (hn : (keys b).Nodup)
    (c : List (String × α)) : overlay a (overlay b c) = overlay (overlay a b) c := by
  induction c generalizing b with
  | nil => rfl
  | cons kv c ih =>
      have nodup : (keys (put kv.1 kv.2 b)).Nodup := nodup_keys_overlay hn [kv]
      show overlay a (overlay (put kv.1 kv.2 b) c) = overlay (put kv.1 kv.2 (overlay a b)) c
      rw [ih nodup, overlay_put kv.1 kv.2 a hn]

/-- The last pair of `upper` with the key counts, and `base` if there is none. -/
theorem lookup_overlay (base upper : List (String × α)) (x : String) :
    (overlay base upper).lookup x = (upper.reverse.lookup x).or (base.lookup x) := by
  induction upper generalizing base with
  | nil => simp [overlay]
  | cons kv upper ih =>
      have step : overlay base (kv :: upper) = overlay (put kv.1 kv.2 base) upper := rfl
      have last : ([kv] : List (String × α)).lookup x = if x = kv.1 then some kv.2 else none := by
        rw [lookup_cons]; rfl
      rw [step, ih, lookup_put, List.reverse_cons, List.lookup_append, last, Option.or_assoc]
      by_cases h : x = kv.1 <;> simp [h]

/-- After `insert`, the key has the value and no other key has changed. -/
theorem lookup_insert (k : String) (v : α) (t : List (String × α)) (x : String) :
    (insert k v t).lookup x = if x = k then some v else t.lookup x := by
  induction t with
  | nil => simp [insert, lookup_cons]
  | cons kv t ih =>
      obtain ⟨k', v'⟩ := kv
      by_cases hk : k = k'
      · subst hk
        by_cases h : x = k <;> simp [insert, lookup_cons, h]
      · by_cases hlt : k < k'
        · by_cases h : x = k <;> simp [insert, lookup_cons, hk, hlt, h]
        · by_cases h : x = k'
          · subst h
            have hk' : x ≠ k := fun e => hk e.symm
            simp [insert, hk, hlt, hk']
          · simp [insert, lookup_cons, hk, hlt, h, ih]

/-- The last pair with the key counts, and the table if there is none. -/
theorem lookup_insertAll (t pairs : List (String × α)) (x : String) :
    (insertAll t pairs).lookup x = (pairs.reverse.lookup x).or (t.lookup x) := by
  induction pairs generalizing t with
  | nil => simp [insertAll]
  | cons kv pairs ih =>
      have step : insertAll t (kv :: pairs) = insertAll (insert kv.1 kv.2 t) pairs := rfl
      have last : ([kv] : List (String × α)).lookup x = if x = kv.1 then some kv.2 else none := by
        rw [lookup_cons]; rfl
      rw [step, ih, lookup_insert, List.reverse_cons, List.lookup_append, last, Option.or_assoc]
      by_cases h : x = kv.1 <;> simp [h]

/-- A key after all the others is bound at the end. -/
theorem insert_of_forall_lt {k : String} (v : α) {t : List (String × α)} (h : ∀ x ∈ keys t, x < k) :
    insert k v t = t ++ [(k, v)] := by
  induction t with
  | nil => rfl
  | cons kv t ih =>
      obtain ⟨k', v'⟩ := kv
      have less : k' < k := h k' List.mem_cons_self
      have ne : k ≠ k' := fun e => String.lt_irrefl k (e ▸ less)
      have not : ¬ k < k' := fun e => String.lt_irrefl k (String.lt_trans e less)
      rw [insert, if_neg ne, if_neg not, ih fun x hx => h x (List.mem_cons_of_mem _ hx), List.cons_append]

/-- The keys of `insert` are the old ones and the new one. -/
theorem mem_keys_insert (k : String) (v : α) (t : List (String × α)) (x : String) :
    x ∈ keys (insert k v t) ↔ x = k ∨ x ∈ keys t := by
  induction t with
  | nil => simp [insert]
  | cons kv t ih =>
      obtain ⟨k', v'⟩ := kv
      by_cases hk : k = k'
      · subst hk; simp [insert]
      · by_cases hlt : k < k'
        · simp [insert, hk, hlt]
        · simp only [insert, hk, if_false, hlt, keys_cons, List.mem_cons, ih]
          constructor <;> rintro (h | h | h) <;> simp [h]

/-- What stands in `insert` is the new pair or was there. -/
theorem mem_insert {k : String} {v : α} {t : List (String × α)} {p : String × α} (h : p ∈ insert k v t) :
    p = (k, v) ∨ p ∈ t := by
  induction t with
  | nil => exact .inl (List.mem_singleton.mp h)
  | cons kv t ih =>
      obtain ⟨k', v'⟩ := kv
      rw [insert] at h
      split at h
      · exact (List.mem_cons.mp h).imp_right (List.mem_cons_of_mem _)
      · split at h
        · exact List.mem_cons.mp h
        · rcases List.mem_cons.mp h with rfl | h
          · exact .inr List.mem_cons_self
          · exact (ih h).imp_right (List.mem_cons_of_mem _)

/-- The keys of `insertAll` are the old ones and those of the pairs. -/
theorem mem_keys_insertAll (t pairs : List (String × α)) (x : String) :
    x ∈ keys (insertAll t pairs) ↔ x ∈ keys t ∨ x ∈ keys pairs := by
  induction pairs generalizing t with
  | nil => simp [insertAll]
  | cons kv pairs ih =>
      have step : insertAll t (kv :: pairs) = insertAll (insert kv.1 kv.2 t) pairs := rfl
      rw [step, ih, mem_keys_insert, keys_cons, List.mem_cons]
      constructor
      · rintro ((h | h) | h) <;> simp [h]
      · rintro (h | h | h) <;> simp [h]

/-- `insert` keeps the keys ascending. -/
theorem ascending_insert (k : String) (v : α) {t : List (String × α)} (h : Ascending t) :
    Ascending (insert k v t) := by
  induction t with
  | nil => simp [insert, Ascending]
  | cons kv t ih =>
      obtain ⟨k', v'⟩ := kv
      have hp : (∀ x ∈ keys t, k' < x) ∧ Ascending t := List.pairwise_cons.1 h
      by_cases hk : k = k'
      · subst hk
        simpa [insert, Ascending] using h
      · by_cases hlt : k < k'
        · simp only [insert, hk, if_false, hlt, if_true, Ascending, keys_cons]
          refine List.pairwise_cons.2 ⟨fun x hx => ?_, h⟩
          rcases List.mem_cons.1 hx with rfl | hx
          · exact hlt
          · exact String.lt_trans hlt (hp.1 x hx)
        · simp only [insert, hk, if_false, hlt, Ascending, keys_cons]
          refine List.pairwise_cons.2 ⟨fun x hx => ?_, ih hp.2⟩
          rcases (mem_keys_insert k v t x).1 hx with rfl | hx
          · exact Std.lt_of_le_of_ne (String.not_lt.1 hlt) (fun e => hk e.symm)
          · exact hp.1 x hx

/-- What stands in `insertAll` was there or is one of the pairs. -/
theorem mem_insertAll {t pairs : List (String × α)} {p : String × α} (h : p ∈ insertAll t pairs) :
    p ∈ t ∨ p ∈ pairs := by
  induction pairs generalizing t with
  | nil => exact .inl h
  | cons kv pairs ih =>
      rcases @ih (insert kv.1 kv.2 t) h with h | h
      · rcases mem_insert h with rfl | h
        · exact .inr List.mem_cons_self
        · exact .inl h
      · exact .inr (List.mem_cons_of_mem _ h)

/-- `insertAll` keeps the keys ascending. -/
theorem ascending_insertAll (pairs : List (String × α)) {t : List (String × α)} (h : Ascending t) :
    Ascending (insertAll t pairs) := by
  induction pairs generalizing t with
  | nil => exact h
  | cons kv pairs ih => exact ih (ascending_insert kv.1 kv.2 h)

/-- Ascending keys are not repeated. -/
theorem Ascending.nodup {t : List (String × α)} (h : Ascending t) : (keys t).Nodup :=
  List.Pairwise.imp (fun hlt => by rintro rfl; exact String.lt_irrefl _ hlt) h

/-- An ascending table comes back when it is written into an empty one. -/
theorem insertAll_nil {t : List (String × α)} (h : Ascending t) : insertAll [] t = t := by
  have append : ∀ (base rest : List (String × α)), Ascending (base ++ rest) →
      insertAll base rest = base ++ rest := by
    intro base rest h
    induction rest generalizing base with
    | nil => exact (List.append_nil base).symm
    | cons kv rest ih =>
        have greatest : ∀ x ∈ keys base, x < kv.1 := by
          intro x hx
          rw [Ascending, keys, List.map_append] at h
          exact (List.pairwise_append.mp h).2.2 x hx kv.1 List.mem_cons_self
        have one : base ++ kv :: rest = (base ++ [kv]) ++ rest := List.append_cons base kv rest
        show insertAll (insert kv.1 kv.2 base) rest = _
        rw [insert_of_forall_lt kv.2 greatest, ih (base ++ [kv]) (one ▸ h), one]
  exact append [] t h

end ObjectGraph.Table
