import ObjectGraph.Configuration.Read
import ObjectGraph.Proofs.Normal.Inside

/-!
# `Proofs.Strict.Level` — how strict what a node yields is

Whether a path that leads nowhere counts as its own text is up to the node in which it is written: a strict node
gives nothing. A node yields others, its children, its root, the parameters it sees, what a reference leads to.
A node is *even* if it is as strict as its root. From an even node that is strict come nodes that are strict and
even, and, out of documents, nodes that are loose and even; but from a loose one nothing strict ever comes. So a
value has a level: no node in it is stricter than that.

Contents:
* `Value.UpTo`, `Configuration.Even`, with `UpTo.mono`, `UpTo.ofJson`;
* `Even.make`, `Even.child`, `Even.anchor`, `Even.change`, `Even.promote`;
* `Heap.Loose`;
* `UpTo.convert`, `UpTo.format`, `UpTo.attach`, `UpTo.represent`.
-/

namespace ObjectGraph

/-! ## Levels -/

/-- No configuration stands in the value itself. -/
def Value.isLeaf : Value → Bool
  | .list _ | .map _ | .configuration _ => false
  | _ => true

mutual

/-- No node in the value is stricter than `b`. -/
inductive Value.UpTo : Bool → Value → Prop where
  | leaf {b : Bool} {v : Value} (h : v.isLeaf = true) : Value.UpTo b v
  | list {b : Bool} {items : List Value} (h : ∀ v ∈ items, Value.UpTo b v) : Value.UpTo b (.list items)
  | map {b : Bool} {entries : List (String × Value)} (h : ∀ e ∈ entries, Value.UpTo b e.2) :
      Value.UpTo b (.map entries)
  | configuration {b strict : Bool} {c : Configuration} (le : strict = true → b = true)
      (h : Configuration.Even strict c) : Value.UpTo b (.configuration c)

/-- The node and its root are both strict, or neither is, as `b` says, and no parameter is stricter. -/
inductive Configuration.Even : Bool → Configuration → Prop where
  | mk {b : Bool} {c : Configuration} (strict : c.strict = b) (context : ∀ p ∈ c.context, Value.UpTo b p.2)
      (rootStrict : c.root.strict = b) (rootContext : ∀ p ∈ c.root.context, Value.UpTo b p.2)
      (isRoot : c.root.isRoot = true) : Configuration.Even b c

end

/-- No parameter is stricter than `b`. -/
def Params.UpTo (b : Bool) (params : Params) : Prop := ∀ p ∈ params, p.2.UpTo b

namespace Value

variable {b : Bool} {v : Value}

theorem UpTo.mono {b : Bool} : ∀ {a : Bool} {v : Value}, v.UpTo a → (a = true → b = true) → v.UpTo b
  | _, _, .leaf h, _ => .leaf h
  | _, _, .list h, le => .list fun w hw => (h w hw).mono le
  | _, _, .map h, le => .map fun e he => (h e he).mono le
  | _, _, .configuration below h, le => .configuration (fun strict => le (below strict)) h

/-- A value without strict nodes is below every level. -/
theorem UpTo.loose (h : v.UpTo false) : v.UpTo b := h.mono fun strict => absurd strict (by simp)

theorem UpTo.items {items : List Value} (h : (Value.list items).UpTo b) : ∀ v ∈ items, v.UpTo b := by
  cases h with
  | leaf h => exact absurd h (by simp [isLeaf])
  | list h => exact h

theorem UpTo.entries {entries : List (String × Value)} (h : (Value.map entries).UpTo b) :
    ∀ e ∈ entries, e.2.UpTo b := by
  cases h with
  | leaf h => exact absurd h (by simp [isLeaf])
  | map h => exact h

theorem UpTo.node {c : Configuration} (h : (Value.configuration c).UpTo b) :
    ∃ strict, (strict = true → b = true) ∧ c.Even strict := by
  cases h with
  | leaf h => exact absurd h (by simp [isLeaf])
  | configuration le h => exact ⟨_, le, h⟩

/-- Data holds no nodes. -/
theorem UpTo.ofJson (b : Bool) (j : Json) : (Value.ofJson j).UpTo b := by
  match j with
  | .array items =>
      rw [ofJson_array]
      refine .list ?_
      intro v hv
      obtain ⟨x, hx, rfl⟩ := List.mem_map.mp hv
      exact UpTo.ofJson b x
  | .object members =>
      rw [ofJson_object]
      refine .map ?_
      intro e he
      obtain ⟨m, hm, rfl⟩ := mem_entriesOf he
      exact UpTo.ofJson b m.2
  | .null | .bool _ | .number _ | .string _ => exact .leaf rfl
termination_by sizeOf j
decreasing_by
  · have := List.sizeOf_lt_of_mem hx
    simp
    omega
  · have := List.sizeOf_lt_of_mem hm
    obtain ⟨k, j⟩ := m
    simp at this ⊢
    omega

end Value

namespace Params

variable {b : Bool} {params more : Params}

theorem UpTo.nil (b : Bool) : Params.UpTo b [] := fun _ hp => absurd hp List.not_mem_nil

theorem UpTo.insertAll (h : params.UpTo b) (h' : more.UpTo b) : Params.UpTo b (Table.insertAll params more) :=
  fun p hp => (Table.mem_insertAll hp).elim (h p) (h' p)

theorem UpTo.insert {name : String} {v : Value} (h : params.UpTo b) (hv : v.UpTo b) :
    Params.UpTo b (Table.insert name v params) := by
  intro p hp
  rcases Table.mem_insert hp with rfl | hp
  · exact hv
  · exact h p hp

/-- The parameters that data declares are data. -/
theorem UpTo.splitParameters (b : Bool) (data : Json) :
    Params.UpTo b (Configuration.splitParameters data).2 := by
  intro p hp
  cases data with
  | object members =>
      obtain ⟨m, -, rfl⟩ := List.mem_map.mp hp
      exact .ofJson b m.2
  | _ => exact absurd hp List.not_mem_nil

end Params

/-! ## Even nodes -/

namespace Configuration.Even

variable {b : Bool} {c d : Configuration}

theorem strict (h : c.Even b) : c.strict = b := by
  cases h
  assumption

theorem context (h : c.Even b) : Params.UpTo b c.context := by
  cases h
  assumption

/-- The root of an even node is even. -/
theorem anchor (h : c.Even b) : c.root.Even b := by
  cases h with
  | mk strict context rootStrict rootContext isRoot =>
      have same : c.root.root = c.root := Realm.root_of_isRoot isRoot
      exact .mk rootStrict rootContext (same.symm ▸ rootStrict) (same.symm ▸ rootContext) (same.symm ▸ isRoot)

/-- A root is even whatever it is. -/
theorem of_isRoot (isRoot : c.isRoot = true) (strict : c.strict = b) (context : Params.UpTo b c.context) :
    c.Even b := by
  have same := Realm.root_of_isRoot isRoot
  exact .mk strict context (same.symm ▸ strict) (same.symm ▸ context) (same.symm ▸ isRoot)

/-- A change to a node that leaves its root alone, unless it is the root. -/
theorem change (h : c.Even b) (strict : d.strict = b) (context : Params.UpTo b d.context)
    (same : d.root? = c.root?) : d.Even b := by
  cases none : c.root? with
  | none => exact of_isRoot (by rw [isRoot, same, none]; rfl) strict context
  | some r =>
      have root : d.root = c.root := by simp [Configuration.root, same, none]
      cases h with
      | mk _ _ rootStrict rootContext isRoot =>
          exact .mk strict context (root ▸ rootStrict) (root ▸ rootContext) (root ▸ isRoot)

/-- A root that is made from data is loose. -/
theorem make (data : Json) (handler : Handler) : (Configuration.make data handler).Even false :=
  of_isRoot rfl rfl ((Params.UpTo.nil false).insertAll (.splitParameters false data))

/-- A root that is made from data may be declared strict. -/
theorem make_strict (data : Json) (handler : Handler) (b : Bool) :
    ((Configuration.make data handler).withStrict b).Even b :=
  of_isRoot rfl rfl ((Params.UpTo.nil b).insertAll (.splitParameters b data))

/-- A child is as strict as its parent. -/
theorem child (h : c.Even b) (data : Json) : (c.child data).Even b := by
  have context : Params.UpTo b (c.child data).context := by
    show Params.UpTo b (if (splitParameters data).2 = [] then c.context
      else Table.insertAll c.context (splitParameters data).2)
    split
    · exact h.context
    · exact h.context.insertAll (.splitParameters b data)
  cases h with
  | mk strict _ rootStrict rootContext isRoot => exact .mk strict context rootStrict rootContext isRoot

theorem withHandler (h : c.Even b) (handler : Handler) : (c.withHandler handler).Even b :=
  h.change h.strict h.context rfl

/-- A document that is read as a configuration is as strict as the node that reads it. -/
theorem promote_resource {heap : Heap} {r : Resource} (hd : c.promote heap (.resource r) = some d) :
    d.Even c.strict := by
  obtain ⟨e, he, rfl⟩ := Option.map_eq_some_iff.mp hd
  unfold Resource.toConfiguration? at he
  split at he
  next j _ =>
    split at he
    · cases he
      split
      · exact (make_strict j _ c.strict).withHandler c.handler
      · exact make_strict j _ c.strict
    · exact absurd he (by simp)
  next => exact absurd he (by simp)

/-- What a node makes a configuration of is no stricter than the node. -/
theorem promote (h : c.Even b) {heap : Heap} {v : Value} (hv : v.UpTo b) (hd : c.promote heap v = some d) :
    (Value.configuration d).UpTo b := by
  cases v with
  | configuration e => exact Option.some.inj hd ▸ hv
  | resource r => exact .configuration id (h.strict ▸ promote_resource hd)
  | map entries => exact .configuration id (Option.some.inj hd ▸ h.child _)
  | list items => exact .configuration id (Option.some.inj hd ▸ h.child _)
  | _ => exact absurd hd (by simp [Configuration.promote])

end Configuration.Even

/-- A document by itself is a loose root. -/
theorem Resource.even_of_toConfiguration? {r : Resource} {c : Configuration} (h : r.toConfiguration? = some c) :
    c.Even false := by
  unfold toConfiguration? at h
  split at h
  · split at h
    · cases h
      exact .make _ _
    · exact absurd h (by simp)
  · exact absurd h (by simp)

/-! ## Surroundings without strict nodes -/

/-- No property of a component holds a strict node. -/
def Heap.Loose (h : Heap) : Prop := ∀ o name v, h.get? o name = some v → v.UpTo false

/-- No value that an outcome has holds a strict node. -/
def Outcome.Loose (r : Outcome) : Prop := ∀ v, r = .ok (some v) → v.UpTo false

/-- What the host gives for loose values is loose, and its converters raise no level. -/
structure Host.Loose (host : Host) : Prop where
  scheme : ∀ id u params, Params.UpTo false params → Outcome.Loose (host.scheme id u params)
  format : ∀ id heap v w, v.UpTo false → host.format id heap v = some w → w.UpTo false
  converter : ∀ id heap v r w b, v.UpTo b → host.converter id heap v r = some w → w.UpTo b

/-- A host that adds files only gives no nodes. -/
theorem Host.loose_ofFiles (files : Files) : (Host.ofFiles files).Loose :=
  ⟨fun _ _ _ _ v h => absurd h (by simp [ofFiles]), fun _ _ _ _ _ h => absurd h (by simp [ofFiles]),
    fun _ _ _ _ _ _ _ h => absurd h (by simp [ofFiles])⟩

namespace Value.UpTo

variable {b : Bool} {host : Host} {heap : Heap} {v w : Value}

/-- A conversion raises no level. -/
theorem convert (hh : host.Loose) (hv : v.UpTo b) {converter : Converter} {r : Representation}
    (h : converter.convert host heap v r = some w) : w.UpTo b := by
  cases converter with
  | custom id => exact hh.converter id heap v r w b hv h
  | standard =>
      -- what is converted is data, unless it stays as it is
      have data : Conversion.data? v = some w → w.UpTo b := by
        intro h
        cases v with
        | map entries => exact Option.some.inj h ▸ hv
        | list items => exact Option.some.inj h ▸ hv
        | string s =>
            obtain ⟨j, -, rfl⟩ := Option.map_eq_some_iff.mp h
            exact .ofJson b j
        | resource r =>
            obtain ⟨j, -, rfl⟩ := Option.map_eq_some_iff.mp h
            exact .ofJson b j
        | configuration c => exact Option.some.inj h ▸ .ofJson b c.data
        | _ => exact absurd h (by simp [Conversion.data?])
      have leaf : ∀ {α : Type} {o : Option α} {f : α → Value}, (∀ a, (f a).isLeaf = true) → o.map f = some w →
          w.UpTo b := by
        intro α o f hf h
        obtain ⟨a, -, rfl⟩ := Option.map_eq_some_iff.mp h
        exact .leaf (hf a)
      cases r with
      | default => exact Option.some.inj h ▸ hv
      | configuration => exact Option.some.inj h ▸ hv
      | data => exact data h
      | image => exact absurd h (by simp [Converter.convert, Conversion.standard])
      | _ => exact leaf (fun _ => rfl) h

/-- A format makes nothing strict. -/
theorem format (hh : host.Loose) (hv : v.UpTo false) {handler : Handler} {f : Format}
    (h : handler.format host heap v f = some w) : w.UpTo false := by
  have made : Handler.configurationOf? handler heap v = some w → w.UpTo false := by
    intro h
    cases v with
    | configuration c => exact Option.some.inj h ▸ hv
    | resource r =>
        obtain ⟨c, hc, rfl⟩ := Option.map_eq_some_iff.mp h
        exact .configuration id (Resource.even_of_toConfiguration? hc)
    | map entries => exact Option.some.inj h ▸ .configuration id (.make _ _)
    | list items => exact Option.some.inj h ▸ .configuration id (.make _ _)
    | _ => exact absurd h (by simp [Handler.configurationOf?])
  cases f with
  | data => exact hv.convert hh h
  | custom id => exact hh.format id heap v w hv h
  | representation r =>
      cases r with
      | configuration => exact made h
      | _ => exact hv.convert hh h

/-- A value gets a handler, and stays as loose as it is. -/
theorem attach (hv : v.UpTo false) (handler : Handler) (s : Scheme) (u : Uri) :
    (handler.attach s u v).UpTo false := by
  unfold Handler.attach
  split
  · cases v with
    | resource r => exact .leaf rfl
    | configuration c =>
        obtain ⟨strict, le, hc⟩ := hv.node
        exact .configuration le (hc.withHandler _)
    | _ => exact hv
  · cases v with
    | resource r => exact .leaf rfl
    | _ => exact hv

/-- A node sees a value in a representation that is no stricter. -/
theorem represent (hh : host.Loose) {c : Configuration} (hc : c.Even b) (hv : v.UpTo b) {r : Representation}
    (h : c.represent host heap v r = some w) : w.UpTo b := by
  cases r with
  | default => exact Option.some.inj h ▸ hv
  | configuration =>
      obtain ⟨d, hd, rfl⟩ := Option.map_eq_some_iff.mp h
      exact hc.promote hv hd
  | _ => exact hv.convert hh h

end Value.UpTo

end ObjectGraph
