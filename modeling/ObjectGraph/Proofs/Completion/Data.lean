import ObjectGraph.Proofs.Completion.Building

/-!
# `Proofs.Completion.Data` — data without references

Whether nodes refer to something can be told from their data. Each text in it has a meaning without
references, given the parameters that are seen where it stands; the keys are names, and none of them says
what to merge or which factory to use. Then the node that is made of it refers to nothing, and neither do the
nodes inside of it.

Contents:
* `Holds.cases`, `Opens.child_of_isName`: what is built from a name;
* `selfContained`, which can be computed; `Contained`, nodes of such data;
* `Contained.referenceless`, `Contained.nests`;
* `independent_make`: roots of such data.
-/

namespace ObjectGraph.Configuration

open Container (factoryKey hintKeys entryKeys isName_of_hint)

variable {c d : Configuration} {context : Params} {key : String} {j x : Json}

/-- At a name, a node holds a child if a list or a map stands there, and otherwise data. -/
theorem Holds.cases (hc : c.Grounded) (hk : IsName key) {v : Value} (hv : c.Holds key (some v)) :
    (∃ j, c.data.child? key = some j ∧ j.isContainer = true ∧ v = .configuration (c.child j)) ∨
      ((c.raw? key).any Json.isContainer = false ∧ ∃ x : Json, x.Proper ∧ v = .ofJson x) := by
  have stands := (holds_iff hk).mp hv
  unfold entry? at stands
  rw [raw?_of_isName hk]
  cases hj : c.data.child? key with
  | none => exact absurd stands (by simp [hj])
  | some j =>
      rw [hj] at stands
      have proper : j.Proper := hc.data.piece (Json.mem_pieces_of_child? hj)
      obtain ⟨container, child⟩ | ⟨scalar, data⟩ := hc.denoted_data proper stands
      · exact .inl ⟨j, rfl, container, child⟩
      · exact .inr ⟨scalar, data⟩

/-- The node that is built from a name is a child. -/
theorem Opens.child_of_isName (h : c.Opens key d) (hc : c.Grounded) (hk : IsName key) :
    ∃ x, c.data.child? key = some x ∧ d = c.child x := by
  obtain ⟨v, holds, opened⟩ := h
  obtain ⟨x, hx, container, rfl⟩ | ⟨scalar, x, -, rfl⟩ := holds.cases hc hk
  · rw [raw?_of_isName hk, hx, if_pos (show (some x).any Json.isContainer = true from container)] at opened
    exact ⟨x, hx, (Option.some.inj opened).symm⟩
  · rw [scalar, if_neg Bool.false_ne_true] at opened
    exact absurd opened (Value.ofJson_ne_configuration x d)

/-! ## Self-contained data -/

mutual

/-- Seen with parameters, the data contains no references, and nothing that says what to merge or which factory
to use. -/
def selfContained (context : Params) : Json → Bool
  | .string s => (meaning context depthLimit s).isSome
  | .array items => selfContainedItems context items
  | .object members =>
      selfContainedMembers (Table.insertAll context (splitParameters (.object members)).2) members
  | _ => true

/-- So do the items of a list. -/
def selfContainedItems (context : Params) : List Json → Bool
  | [] => true
  | j :: items => selfContained context j && selfContainedItems context items

/-- So do the members of an object. Parameters do not count: only the texts that name them do. -/
def selfContainedMembers (context : Params) : List (String × Json) → Bool
  | [] => true
  | (key, j) :: members =>
      (isParameter key ||
        decide (IsName key) && !directiveKeys.contains key && key != factoryKey && selfContained context j) &&
      selfContainedMembers context members

end

/-- The key is a name that says neither what to merge nor which factory to use. -/
structure Ordinary (key : String) : Prop where
  isName : IsName key
  unmerging : key ∉ directiveKeys
  own : key ≠ factoryKey

theorem selfContained_of_mem_items {items : List Json} (h : selfContainedItems context items = true)
    (hx : x ∈ items) : selfContained context x = true := by
  induction items with
  | nil => exact absurd hx List.not_mem_nil
  | cons j items ih =>
      obtain ⟨first, rest⟩ := Bool.and_eq_true_iff.mp h
      rcases List.mem_cons.mp hx with rfl | hx
      · exact first
      · exact ih rest hx

theorem selfContained_of_mem_members {members : List (String × Json)}
    (h : selfContainedMembers context members = true) (hm : (key, x) ∈ members) (hk : isParameter key = false) :
    Ordinary key ∧ selfContained context x = true := by
  induction members with
  | nil => exact absurd hm List.not_mem_nil
  | cons member members ih =>
      obtain ⟨key', j⟩ := member
      obtain ⟨first, rest⟩ := Bool.and_eq_true_iff.mp h
      rcases List.mem_cons.mp hm with same | hm
      · obtain ⟨rfl, rfl⟩ := Prod.mk.inj same
        rw [hk, Bool.false_or] at first
        simp only [Bool.and_eq_true, decide_eq_true_eq, Bool.not_eq_true', bne_iff_ne] at first
        obtain ⟨⟨⟨isName, unmerging⟩, own⟩, contained⟩ := first
        exact ⟨⟨isName, by simpa using unmerging, own⟩, contained⟩
      · exact ih rest hm

/-! ## Nodes of such data -/

/-- The keys of the node are names, none of them says what to merge or which factory to use, and what is there is
self-contained. -/
structure Contained (c : Configuration) : Prop where
  names : ∀ key ∈ c.keys, IsName key
  unmerged : c.Unmerged
  own : c.data.child? factoryKey = none
  contains : ∀ key x, c.data.child? key = some x → selfContained c.context x = true

/-- The keys of a list are positions. -/
theorem contained_of_items {items : List Json} (hdata : c.data = .array items)
    (h : selfContainedItems c.context items = true) : c.Contained where
  names key hk := by
    unfold Configuration.keys at hk
    rw [hdata] at hk
    obtain ⟨i, -, rfl⟩ := List.mem_map.mp hk
    exact Json.isName_natText i
  unmerged key hk := by
    have none : ∀ key ∈ directiveKeys, Json.index? key = none := by decide
    rw [hdata, Json.child?, none key hk, Option.bind_none]
  own := by
    have none : Json.index? factoryKey = none := by decide
    rw [hdata, Json.child?, none, Option.bind_none]
  contains key x hx := by
    rw [hdata] at hx
    obtain ⟨i, -, hi⟩ := Option.bind_eq_some_iff.mp hx
    exact selfContained_of_mem_items h (List.mem_of_getElem? hi)

/-- A map is such a node if each of its members is ordinary and self-contained. -/
theorem contained_of_members {members : List (String × Json)} (hdata : c.data = .object members)
    (h : ∀ m ∈ members, Ordinary m.1 ∧ selfContained c.context m.2 = true) : c.Contained := by
  have member : ∀ key x, c.data.child? key = some x → (key, x) ∈ members := by
    intro key x hx
    rw [hdata] at hx
    exact Table.mem_of_lookup hx
  refine ⟨fun key hk => ?_, fun key hk => ?_, ?_, fun key x hx => (h _ (member key x hx)).2⟩
  · rw [keys_of_object hdata] at hk
    obtain ⟨m, hm, rfl⟩ := List.mem_map.mp hk
    exact (h m hm).1.isName
  · refine Option.eq_none_iff_forall_ne_some.mpr fun x hx => ?_
    exact (h _ (member key x hx)).1.unmerging hk
  · refine Option.eq_none_iff_forall_ne_some.mpr fun x hx => ?_
    exact (h _ (member _ x hx)).1.own rfl

/-- A node without keys is one. -/
theorem contained_of_scalar (hkeys : c.keys = []) (hnone : ∀ key, c.data.child? key = none) : c.Contained where
  names key hk := absurd (hkeys ▸ hk) List.not_mem_nil
  unmerged key _ := hnone key
  own := hnone factoryKey
  contains key x hx := absurd ((hnone key).symm.trans hx) (by simp)

/-- What is made of self-contained data is one: it binds the parameters in the data. -/
theorem contained_of_split (hdata : c.data = (splitParameters j).1)
    (hcontext : c.context = Table.insertAll context (splitParameters j).2) (h : selfContained context j = true) :
    c.Contained := by
  cases j with
  | array items =>
      refine contained_of_items hdata ?_
      rw [hcontext]
      exact h
  | object members =>
      have rest : c.data = .object (splitMembers members).2 := hdata
      refine contained_of_members rest fun m hm => ?_
      rw [splitMembers, List.partition_eq_filter_filter] at hm
      obtain ⟨hm, plain⟩ := List.mem_filter.mp hm
      rw [hcontext]
      exact selfContained_of_mem_members h hm (by simpa using plain)
  | _ =>
      refine contained_of_scalar ?_ fun key => ?_
      · rw [keys, hdata]
        rfl
      · rw [hdata]
        rfl

theorem contained_child (h : selfContained c.context j = true) : (c.child j).Contained := by
  refine contained_of_split rfl ?_ h
  show (if (splitParameters j).2 = [] then c.context else _) = _
  split
  next none => rw [none]; rfl
  next => rfl

namespace Contained

/-- At its keys, the node meets no reference. -/
theorem holds (h : c.Contained) (hk : IsName key) : ∃ v, c.Holds key v := by
  obtain ⟨v, hv⟩ : ∃ v, c.entry? key = some v := by
    unfold entry?
    cases hx : c.data.child? key with
    | none => exact ⟨none, rfl⟩
    | some x =>
        have contained := h.contains key x hx
        cases x with
        | string s => exact Option.isSome_iff_exists.mp contained
        | _ => exact ⟨_, rfl⟩
  exact ⟨v, (holds_iff hk).mpr hv⟩

theorem referenceless (h : c.Contained) : c.Referenceless where
  unmerged := h.unmerged
  own := h.own
  reads key hk := by
    rcases List.mem_append.mp hk with hint | entry
    · exact h.holds (isName_of_hint hint)
    · exact h.holds (h.names key (Container.mem_entryKeys.mp entry).1)

/-- What is built from a name is such a node. -/
theorem opens (h : c.Contained) (hc : c.Grounded) (hk : IsName key) (hd : c.Opens key d) : d.Contained := by
  obtain ⟨x, hx, rfl⟩ := hd.child_of_isName hc hk
  exact contained_child (h.contains key x hx)

/-- So are the nodes inside, however deep. -/
theorem nests (h : c.Contained) (hc : c.Grounded) (hd : Relation.ReflTransGen Nests c d) :
    d.Contained ∧ d.Grounded := by
  induction hd with
  | refl => exact ⟨h, hc⟩
  | tail _ nested ih =>
      obtain ⟨contained, grounded⟩ := ih
      obtain ⟨key, hk, opened⟩ := nested
      have name : IsName key := contained.names key (Container.mem_entryKeys.mp hk).1
      exact ⟨contained.opens grounded name opened, opened.grounded grounded⟩

end Contained

/-- The entries of a root are independent if its data is self-contained. -/
theorem independent_make (hj : j.Proper) (h : selfContained [] j = true) (handler : Handler) {names : List String}
    (hnames : ∀ name ∈ names, IsName name) : (make j handler).Independent names := by
  have contained : (make j handler).Contained := contained_of_split rfl rfl h
  have grounded : (make j handler).Grounded := .make hj handler
  refine ⟨fun name hn => contained.holds (hnames name hn), fun name hn d hd e he => ?_⟩
  have inside : d.Contained := contained.opens grounded (hnames name hn) hd
  exact (inside.nests (hd.grounded grounded) he).1.referenceless

end ObjectGraph.Configuration
