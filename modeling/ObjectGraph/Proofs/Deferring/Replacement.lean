import ObjectGraph.Proofs.Place

/-!
# `Proofs.Deferring.Replacement` — filling the places of a value one by one

The places of the placeholders in a value may be filled one by one, in any order: what comes of it is the value
with all placeholders replaced at once. Filling a place is replacing one more placeholder (`setAt_replaced`); it
does not matter what the others have been replaced with, or whether they have been.

Contents:
* `Value.replaced`;
* `replaced_congr`, `replaced_self`, `setAt_replaced`;
* `foldl_setAt_replaced`, `foldl_setAt`.
-/

namespace ObjectGraph.Value

/-! ## Replacing all placeholders at once -/

mutual

/-- The value with each placeholder replaced by what there is for its place. -/
def replaced (σ : List Place → Value) : Value → Value
  | pending _ => σ []
  | list items => list (replacedItems σ 0 items)
  | map entries => map (replacedEntries σ [] entries)
  | v => v

/-- Items, the first of which has position `i`. -/
def replacedItems (σ : List Place → Value) (i : Nat) : List Value → List Value
  | [] => []
  | v :: vs => replaced (fun place => σ (.index i :: place)) v :: replacedItems σ (i + 1) vs

/-- Entries, after those with the keys `seen`. -/
def replacedEntries (σ : List Place → Value) (seen : List String) : List (String × Value) → List (String × Value)
  | [] => []
  | (k, v) :: es =>
      (k, if k ∈ seen then v else replaced (fun place => σ (.key k :: place)) v)
        :: replacedEntries σ (k :: seen) es

end

/-! ## What a replacement depends on -/

mutual

/-- It matters only what there is for the places of placeholders. -/
theorem replaced_congr {σ τ : List Place → Value} {v : Value} (h : ∀ l ∈ v.placeholders, σ l.1 = τ l.1) :
    v.replaced σ = v.replaced τ := by
  match v with
  | .pending p => exact h ([], p) (by simp [placeholders])
  | .list items => exact congrArg list (replacedItems_congr (by simpa [placeholders] using h))
  | .map entries => exact congrArg map (replacedEntries_congr (by simpa [placeholders] using h))
  | .null | .bool _ | .number _ | .string _ | .date _ | .binary _ | .uri _ | .configuration _
  | .resource _ | .object _ => rfl

theorem replacedItems_congr {σ τ : List Place → Value} {i : Nat} {vs : List Value}
    (h : ∀ l ∈ itemPlaceholders i vs, σ l.1 = τ l.1) :
    replacedItems σ i vs = replacedItems τ i vs := by
  match vs with
  | [] => rfl
  | v :: vs =>
      rw [itemPlaceholders, List.forall_mem_append, List.forall_mem_map] at h
      have first : v.replaced (fun place => σ (.index i :: place)) = v.replaced fun place => τ (.index i :: place) :=
        replaced_congr h.1
      rw [replacedItems, replacedItems, first, replacedItems_congr h.2]

theorem replacedEntries_congr {σ τ : List Place → Value} {seen : List String} {es : List (String × Value)}
    (h : ∀ l ∈ entryPlaceholders seen es, σ l.1 = τ l.1) :
    replacedEntries σ seen es = replacedEntries τ seen es := by
  match es with
  | [] => rfl
  | (k, v) :: es =>
      rw [entryPlaceholders, List.forall_mem_append] at h
      rw [replacedEntries, replacedEntries, replacedEntries_congr h.2]
      by_cases hk : k ∈ seen
      · rw [if_pos hk, if_pos hk]
      · have here := h.1
        rw [if_neg hk, List.forall_mem_map] at here
        have first : v.replaced (fun place => σ (.key k :: place)) = v.replaced fun place => τ (.key k :: place) :=
          replaced_congr here
        rw [if_neg hk, if_neg hk, first]

end

mutual

/-- Replacing each placeholder by itself changes nothing. -/
theorem replaced_self {σ : List Place → Value} {v : Value} (h : ∀ l ∈ v.placeholders, σ l.1 = pending l.2) :
    v.replaced σ = v := by
  match v with
  | .pending p => exact h ([], p) (by simp [placeholders])
  | .list items => exact congrArg list (replacedItems_self (by simpa [placeholders] using h))
  | .map entries => exact congrArg map (replacedEntries_self (by simpa [placeholders] using h))
  | .null | .bool _ | .number _ | .string _ | .date _ | .binary _ | .uri _ | .configuration _
  | .resource _ | .object _ => rfl

theorem replacedItems_self {σ : List Place → Value} {i : Nat} {vs : List Value}
    (h : ∀ l ∈ itemPlaceholders i vs, σ l.1 = pending l.2) :
    replacedItems σ i vs = vs := by
  match vs with
  | [] => rfl
  | v :: vs =>
      rw [itemPlaceholders, List.forall_mem_append, List.forall_mem_map] at h
      rw [replacedItems, replaced_self h.1, replacedItems_self h.2]

theorem replacedEntries_self {σ : List Place → Value} {seen : List String} {es : List (String × Value)}
    (h : ∀ l ∈ entryPlaceholders seen es, σ l.1 = pending l.2) : replacedEntries σ seen es = es := by
  match es with
  | [] => rfl
  | (k, v) :: es =>
      rw [entryPlaceholders, List.forall_mem_append] at h
      rw [replacedEntries, replacedEntries_self h.2]
      by_cases hk : k ∈ seen
      · rw [if_pos hk]
      · have here := h.1
        rw [if_neg hk, List.forall_mem_map] at here
        rw [if_neg hk, replaced_self here]

end

/-! ## One more placeholder -/

/-- What there is for places, with something else for one of them. -/
def instead (σ : List Place → Value) (place : List Place) (new : Value) (other : List Place) : Value :=
  if other = place then new else σ other

/-- Below a step that both places begin with it is the rest of the place that matters. -/
theorem instead_cons (σ : List Place → Value) (step : Place) (rest : List Place) (new : Value) :
    (fun place => instead σ (step :: rest) new (step :: place))
      = instead (fun place => σ (step :: place)) rest new := by
  funext place
  simp [instead]

theorem instead_of_ne {σ : List Place → Value} {place other : List Place} (new : Value) (ne : other ≠ place) :
    instead σ place new other = σ other := if_neg ne

variable {new : Value}

mutual

/-- Writing at the place of a placeholder replaces it by something else than before. -/
theorem setAt_replaced {σ : List Place → Value} {v : Value} {place : List Place} {p : Pending}
    (h : (place, p) ∈ v.placeholders) :
    setAt new place (v.replaced σ) = v.replaced (instead σ place new) := by
  match v with
  | .pending q =>
      simp only [placeholders, List.mem_singleton, Prod.mk.injEq] at h
      obtain ⟨rfl, rfl⟩ := h
      rfl
  | .list items =>
      obtain ⟨j, rest, rfl, same⟩ := @modifyItem_replacedItems σ 0 items place p (by simpa [placeholders] using h)
      rw [Nat.zero_add] at h same ⊢
      exact congrArg list same
  | .map entries =>
      obtain ⟨k, rest, rfl, same⟩ := modifyEntry_replacedEntries (by simpa [placeholders] using h)
      exact congrArg map same
  | .null | .bool _ | .number _ | .string _ | .date _ | .binary _ | .uri _ | .configuration _
  | .resource _ | .object _ => exact absurd h (by simp [placeholders])

theorem modifyItem_replacedItems {σ : List Place → Value} {i : Nat} {vs : List Value} {place : List Place}
    {p : Pending} (h : (place, p) ∈ itemPlaceholders i vs) :
    ∃ j rest, place = .index (i + j) :: rest ∧
      modifyItem (setAt new rest) j (replacedItems σ i vs) = replacedItems (instead σ place new) i vs := by
  match vs with
  | [] => exact absurd h (by simp [itemPlaceholders])
  | v :: vs =>
      rw [itemPlaceholders, List.mem_append] at h
      rcases h with here | later
      · obtain ⟨⟨rest, q⟩, hv, e⟩ := List.mem_map.mp here
        obtain ⟨rfl, rfl⟩ := Prod.mk.inj e
        refine ⟨0, rest, rfl, ?_⟩
        have others : replacedItems σ (i + 1) vs = replacedItems (instead σ (.index i :: rest) new) (i + 1) vs := by
          refine replacedItems_congr ?_
          intro l hl
          obtain ⟨j, inner, w, place, -⟩ := at?_of_mem_itemPlaceholders hl
          refine (instead_of_ne new ?_).symm
          rw [place]
          intro same
          simp only [List.cons.injEq, Place.index.injEq] at same
          omega
        rw [replacedItems, replacedItems, modifyItem, setAt_replaced hv, instead_cons, others]
      · obtain ⟨j, rest, rfl, same⟩ := modifyItem_replacedItems later
        refine ⟨j + 1, rest, by rw [Nat.add_assoc, Nat.add_comm 1 j], ?_⟩
        have first : (fun place => instead σ (.index (i + 1 + j) :: rest) new (.index i :: place))
            = fun place => σ (.index i :: place) := by
          funext place
          refine instead_of_ne new ?_
          intro same
          simp only [List.cons.injEq, Place.index.injEq] at same
          omega
        rw [replacedItems, replacedItems, modifyItem, same, first]

theorem modifyEntry_replacedEntries {σ : List Place → Value} {seen : List String} {es : List (String × Value)}
    {place : List Place} {p : Pending} (h : (place, p) ∈ entryPlaceholders seen es) :
    ∃ k rest, place = .key k :: rest ∧ modifyEntry (setAt new rest) k (replacedEntries σ seen es)
      = replacedEntries (instead σ place new) seen es := by
  match es with
  | [] => exact absurd h (by simp [entryPlaceholders])
  | (k, v) :: es =>
      rw [entryPlaceholders, List.mem_append] at h
      rcases h with here | later
      · by_cases hk : k ∈ seen
        · exact absurd here (by simp [hk])
        · rw [if_neg hk] at here
          obtain ⟨⟨rest, q⟩, hv, e⟩ := List.mem_map.mp here
          obtain ⟨rfl, rfl⟩ := Prod.mk.inj e
          refine ⟨k, rest, rfl, ?_⟩
          have others : replacedEntries σ (k :: seen) es
              = replacedEntries (instead σ (.key k :: rest) new) (k :: seen) es := by
            refine replacedEntries_congr ?_
            intro l hl
            obtain ⟨m, inner, w, place, unseen, -⟩ := at?_of_mem_entryPlaceholders hl
            refine (instead_of_ne new ?_).symm
            rw [place]
            intro same
            simp only [List.cons.injEq, Place.key.injEq] at same
            exact unseen (same.1 ▸ List.mem_cons_self)
          rw [replacedEntries, replacedEntries, if_neg hk, if_neg hk, modifyEntry, if_pos rfl, setAt_replaced hv,
            instead_cons, others]
      · obtain ⟨m, inner, w, place', unseen, -⟩ := at?_of_mem_entryPlaceholders later
        obtain ⟨l, rest, rfl, same⟩ := modifyEntry_replacedEntries later
        obtain ⟨rfl, rfl⟩ : l = m ∧ rest = inner := by simpa using place'
        have other : k ≠ l := fun e => unseen (e ▸ List.mem_cons_self)
        refine ⟨l, rest, rfl, ?_⟩
        have first : (fun place => instead σ (.key l :: rest) new (.key k :: place))
            = fun place => σ (.key k :: place) := by
          funext place
          exact instead_of_ne new (by simp [other])
        rw [replacedEntries, replacedEntries, modifyEntry, if_neg other, same, first]

end

/-! ## All placeholders, one by one -/

variable {σ : List Place → Value}

/-- What the filling of places leads to, from what there was for the places before. -/
theorem foldl_setAt_replaced {v : Value} {fills : List (List Place × Value)}
    (inside : ∀ f ∈ fills, f.1 ∈ v.placeholders.map Prod.fst) :
    fills.foldl (fun w f => setAt f.2 f.1 w) (v.replaced σ)
      = v.replaced (fills.foldl (fun σ f => instead σ f.1 f.2) σ) := by
  induction fills generalizing σ with
  | nil => rfl
  | cons f fills ih =>
      obtain ⟨l, hl, place⟩ := List.mem_map.mp (inside f List.mem_cons_self)
      have one : setAt f.2 f.1 (v.replaced σ) = v.replaced (instead σ f.1 f.2) := by
        rw [← place]
        exact setAt_replaced hl
      rw [List.foldl_cons, List.foldl_cons, one]
      exact ih fun g hg => inside g (List.mem_cons_of_mem f hg)

/-- What there is for a place in the end, if each place is filled with what is meant for it. -/
theorem foldl_instead {τ : List Place → Value} {fills : List (List Place × Value)}
    (meant : ∀ f ∈ fills, f.2 = τ f.1) {place : List Place}
    (filled : σ place = τ place ∨ place ∈ fills.map Prod.fst) :
    fills.foldl (fun σ f => instead σ f.1 f.2) σ place = τ place := by
  induction fills generalizing σ with
  | nil =>
      rcases filled with there | none
      · exact there
      · exact absurd none List.not_mem_nil
  | cons f fills ih =>
      refine ih (fun g hg => meant g (List.mem_cons_of_mem f hg)) ?_
      show instead σ f.1 f.2 place = τ place ∨ _
      by_cases same : place = f.1
      · left
        rw [same, instead, if_pos rfl]
        exact meant f List.mem_cons_self
      · rw [instead_of_ne f.2 same]
        rcases filled with there | somewhere
        · exact .inl there
        · exact .inr ((List.mem_cons.mp somewhere).resolve_left same)

/-- If the places of all placeholders are filled, in whatever order, what comes of it is the value with all
placeholders replaced at once. -/
theorem foldl_setAt {v : Value} {τ : List Place → Value} {fills : List (List Place × Value)}
    (all : fills.Perm (v.placeholders.map fun l => (l.1, τ l.1))) :
    fills.foldl (fun w f => setAt f.2 f.1 w) v = v.replaced τ := by
  have whole : v.replaced (fun place => (v.at? place).getD null) = v := by
    refine replaced_self ?_
    intro l hl
    rw [at?_of_mem_placeholders hl]
    rfl
  have listed : ∀ f ∈ fills, ∃ l ∈ v.placeholders, (l.1, τ l.1) = f := fun f hf => List.mem_map.mp (all.mem_iff.mp hf)
  have inside : ∀ f ∈ fills, f.1 ∈ v.placeholders.map Prod.fst := by
    intro f hf
    obtain ⟨l, hl, rfl⟩ := listed f hf
    exact List.mem_map_of_mem hl
  have meant : ∀ f ∈ fills, f.2 = τ f.1 := by
    intro f hf
    obtain ⟨l, hl, rfl⟩ := listed f hf
    rfl
  conv_lhs => rw [← whole]
  rw [foldl_setAt_replaced inside]
  refine replaced_congr fun l hl => foldl_instead meant (.inr ?_)
  exact List.mem_map.mpr ⟨(l.1, τ l.1), all.mem_iff.mpr (List.mem_map_of_mem hl), rfl⟩

end ObjectGraph.Value
