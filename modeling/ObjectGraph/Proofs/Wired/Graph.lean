import ObjectGraph.Proofs.Wired.Outcome

/-!
# `Proofs.Wired.Graph` — the graph that a pass over plain data leaves

After a pass that succeeds, the graph can be followed in step with the data: from a name to its value, and
from there into items, entries and properties. What is found at a node depicts its data. A scalar stands for
itself, and lists, maps and components have just the items, entries and properties of the node; a reference
is found to be what the registry has for the name. Where that is nothing, an item is null, and an entry or a
property is missing.

The components of the pass and the nodes of built entries that name a known class are one to one.

Contents:
* `Heap.part?`, `valueAt?`, `shown`; `Depicts`, `Houses`;
* `Succeeded.located`, `Succeeded.depicts`, `Succeeded.houses_iff`;
* `Container.resolve_depicts`, and the ring that it depicts.
-/

namespace ObjectGraph

open Json (classOf? entryOf?)

/-! ## Following a graph -/

/-- A part of a value: an item of a list, an entry of a map, or what a property of a component reads. -/
def Heap.part? (h : Heap) : Place → Value → Option Value
  | .index i, .list items => items[i]?
  | .key key, .map entries => entries.lookup key
  | .key key, .object o => h.get? o key
  | _, _ => none

/-- What is found from a name on, the last step first. -/
def valueAt? (h : Heap) (r : Registry) (n : String) : List Place → Option Value
  | [] => r.get? n
  | step :: rest => (valueAt? h r n rest).bind (h.part? step)

/-- What is found for a node if something, or nothing, stands for it: in a list that is null. -/
def shown : List Place → Option Value → Option Value
  | .index _ :: _, ov => some (ov.getD .null)
  | _, ov => ov

theorem shown_some (place : List Place) (v : Value) : shown place (some v) = some v := by
  match place with
  | [] => rfl
  | .index _ :: _ => rfl
  | .key _ :: _ => rfl

/-- What stands for the data of a node in a registry; its parts are nodes of their own. -/
inductive Depicts (types : TypeRegistry) (h : Heap) (r : Registry) : Json → Option Value → Prop
  | scalar {j : Json} (hj : Scalar j) : Depicts types h r j (some (Value.ofJson j))
  | reference {s n : String} (hs : Refers s n) : Depicts types h r (.string s) (r.get? n)
  | list {items : List Json} {vs : List Value} (length : vs.length = items.length) :
      Depicts types h r (.array items) (some (.list vs))
  | map {ms : List (String × Json)} {es : List (String × Value)} (hc : classOf? ms = none)
      (ascending : Table.Ascending es) (unset : ∀ key, entryOf? ms key = none → es.lookup key = none) :
      Depicts types h r (.object ms) (some (.map es))
  | record {ms : List (String × Json)} {c : String} {o : ObjectId} {component : Component}
      (hc : classOf? ms = some c) (hr : types.constructor? c = some .record) (ho : h[o]? = some component)
      (ofClass : component.ofClass = .record)
      (unset : ∀ key, entryOf? ms key = none → component.get? key = none) :
      Depicts types h r (.object ms) (some (.object o))
  | unknown {ms : List (String × Json)} {c : String} (hc : classOf? ms = some c)
      (hu : types.constructor? c = none) : Depicts types h r (.object ms) none

/-- What stands for a reference is what the registry has for the name. -/
theorem Depicts.of_refers {types : TypeRegistry} {h : Heap} {r : Registry} {s n : String} {ov : Option Value}
    (hd : Depicts types h r (.string s) ov) (hs : Refers s n) : ov = r.get? n := by
  cases hd with
  | scalar hj => exact absurd hj (not_scalar_of_refers hs)
  | reference hs' => rw [hs.unique hs']

/-- The node names a known class. -/
def Classed (types : TypeRegistry) (members : List (String × Json)) (p : Home) : Prop :=
  ∃ ms c, nodeAt? types members p.1 p.2 = some (.object ms) ∧ classOf? ms = some c ∧
    types.constructor? c = some .record

/-- A component is found at a node of a built entry that names a known class. -/
structure Houses (types : TypeRegistry) (members : List (String × Json)) (h : Heap) (r : Registry) (p : Home)
    (o : ObjectId) : Prop where
  classed : Classed types members p
  built : r.contains p.1 = true
  found : valueAt? h r p.1 p.2 = some (.object o)

namespace PlainRoot

variable {k : Container} {R : PlainRoot k} {before : Nat} {w : World} {t : Session} {n : String} {j : Json}

/-- A pass that is over has succeeded. -/
structure Succeeded (R : PlainRoot k) (before : Nat) (w : World) (t : Session) : Prop
    extends R.Finished before w t where
  unsettled : t.build.unsettled t.heap = none

namespace Succeeded

theorem unparked (hf : R.Succeeded before w t) (d : Deferred) : some d ∉ t.build.deferred :=
  ((t.build.unsettled_eq_none_iff t.heap).mp hf.unsettled).2.1 d

/-- Every name that has a state is built. -/
theorem built_of_state (hf : R.Succeeded before w t) (hn : (t.build.stateOf? n).isSome) : (w.built n).isSome := by
  obtain ⟨st, hst⟩ := Option.isSome_iff_exists.mp hn
  have built := ((t.build.unsettled_eq_none_iff t.heap).mp hf.unsettled).1 _ (Table.mem_of_lookup hst)
  rw [← hf.state_of_built n, hst]
  exact built

/-- Whatever has begun is built. -/
theorem contains_iff (hf : R.Succeeded before w t) (n : String) :
    t.build.registry.contains n = true ↔ (w.built n).isSome := by
  show (t.build.registry.get? n).isSome = true ↔ _
  rw [hf.get?_registry]

/-- At a node of a built entry is found what stands for its data. -/
theorem located (hf : R.Succeeded before w t) (hn : (w.built n).isSome) {place : List Place}
    (hj : nodeAt? k.types R.members n place = some j) :
    ∃ ov, R.Realizes w (n, place) j ov ∧ (∀ v, ov = some v → v.Whole) ∧
      valueAt? t.heap t.build.registry n place = shown place ov := by
  induction place generalizing j with
  | nil =>
      obtain ⟨v, hv⟩ := Option.isSome_iff_exists.mp hn
      have sound := hf.standing.named.sound n v hv
      obtain ⟨j', hj', hr⟩ := sound.realizes
      obtain rfl := Option.some.inj (hj.symm.trans hj')
      refine ⟨some v, hr, ?_, (hf.get?_registry n).trans hv⟩
      rintro _ ⟨⟩
      exact .of_complete sound.complete
  | cons step rest ih =>
      obtain ⟨above, habove, hpart⟩ := Option.bind_eq_some_iff.mp hj
      obtain ⟨ov, hr, whole, hfound⟩ := ih habove
      -- whatever is found above the node, its part is found there
      have found : ∀ v, ov = some v → valueAt? t.heap t.build.registry n (step :: rest) = t.heap.part? step v := by
        rintro v rfl
        show (valueAt? t.heap t.build.registry n rest).bind _ = _
        rw [hfound, shown_some]
        rfl
      cases above with
      | array items =>
          cases step with
          | key key => exact absurd hpart (by simp [Json.part?])
          | index i =>
              obtain ⟨vs, f, rfl, -, item⟩ := hr.of_array
              obtain ⟨real, hv⟩ := item i j hpart
              exact ⟨f i, real, fun v => (whole _ rfl).item hv, (found _ rfl).trans hv⟩
      | object ms =>
          cases step with
          | index i => exact absurd hpart (by simp [Json.part?])
          | key key =>
              cases hr with
              | scalar hs => exact absurd hs.1 Bool.noConfusion
              | unknown hc hu => exact absurd hpart (by simp [Json.part?, hc, hu])
              | @map _ _ es hc hf' hn' _ =>
                  have entry : entryOf? ms key = some j :=
                    (Json.part?_key (known_of_unclassed hc) key).symm.trans hpart
                  exact ⟨es.lookup key, hf' key j entry, fun v => (whole _ rfl).entry, found _ rfl⟩
              | @record _ _ c o hc hr' ho hk =>
                  have entry : entryOf? ms key = some j :=
                    (Json.part?_key (known_of_record hc hr') key).symm.trans hpart
                  obtain ⟨component, hcomponent, hold⟩ := hf.standing.holding o _ _ ho
                  rcases hold.held key j (hk key j entry) entry with ⟨i, d, hd, -⟩ | ⟨hreal, complete⟩
                  · exact absurd (List.mem_of_getElem? hd) (hf.unparked d)
                  · refine ⟨component.fields.lookup key, hreal, fun v hv => .of_complete (complete v hv),
                      (found _ rfl).trans ?_⟩
                    show (t.heap[o]?).bind _ = _
                    rw [hcomponent]
                    show component.ofClass.get? component.fields key = _
                    rw [hold.record]
                    rfl
      | _ => cases step <;> exact absurd hpart (by simp [Json.part?])

/-- What stands for data in the world of the pass depicts it. -/
theorem depicts (hf : R.Succeeded before w t) {h : Home} {ov : Option Value} (hr : R.Realizes w h j ov)
    (whole : ∀ v, ov = some v → v.Whole) : Depicts k.types t.heap t.build.registry j ov := by
  cases hr with
  | scalar hj => exact .scalar hj
  | waiting hs hn => exact absurd rfl (whole _ rfl [] _)
  | @built _ s n v hs hv =>
      have value := (hf.get?_registry n).trans hv
      exact value ▸ .reference hs
  | @barren _ s n hs hn =>
      have unbuilt := (hf.get?_registry n).trans (hf.not_built_of_barren hn)
      exact unbuilt ▸ .reference hs
  | list f length _ _ => exact .list length
  | map hc _ hn ha => exact .map hc ha hn
  | @record _ ms c o hc hr ho _ =>
      obtain ⟨component, hcomponent, hold⟩ := hf.standing.holding o _ _ ho
      refine .record hc hr hcomponent hold.record fun key hk => ?_
      show component.ofClass.get? component.fields key = none
      rw [hold.record]
      exact hold.unset key (.inr hk)
  | unknown hc hu => exact .unknown hc hu

/-- At a node that names a known class is found the component that was made for it. -/
theorem home_of_classed (hf : R.Succeeded before w t) {p : Home} (hp : Classed k.types R.members p)
    (hn : (w.built p.1).isSome) :
    ∃ o ms, w.home o = some (p, ms) ∧ valueAt? t.heap t.build.registry p.1 p.2 = some (.object o) := by
  obtain ⟨ms, c, hj, hc, hclass⟩ := hp
  obtain ⟨ov, hr, -, found⟩ := hf.located hn hj
  obtain ⟨o, rfl, ho, -⟩ := hr.of_record hc hclass
  exact ⟨o, ms, ho, found.trans (shown_some _ _)⟩

/-- The component that was made for a node is found at it. -/
theorem houses_iff (hf : R.Succeeded before w t) (p : Home) (o : ObjectId) :
    Houses k.types R.members t.heap t.build.registry p o ↔ ∃ ms, w.home o = some (p, ms) := by
  constructor
  · rintro ⟨classed, built, found⟩
    obtain ⟨o', ms, ho, found'⟩ := hf.home_of_classed classed ((hf.contains_iff p.1).mp built)
    obtain rfl : o = o' := by simpa using found.symm.trans found'
    exact ⟨ms, ho⟩
  · rintro ⟨ms, ho⟩
    obtain ⟨there, c, hc, hr⟩ := hf.standing.lodged.node o p ms ho
    have built := hf.built_of_state (hf.standing.lodged.begun o p ms ho)
    have classed : Classed k.types R.members p := ⟨ms, c, there, hc, hr⟩
    obtain ⟨o', ms', ho', found⟩ := hf.home_of_classed classed built
    obtain rfl := hf.standing.lodged.once o o' p ms ms' ho ho'
    exact ⟨classed, (hf.contains_iff p.1).mpr built, found⟩

end Succeeded

end PlainRoot

namespace Container

variable {k : Container} {c : Configuration} {members : List (String × Json)}

/-- Reference integrity. Resolving plain data ends, in whatever order, and if it succeeds the graph depicts the
data: at every node of a built entry, however deep and on whatever circles of references, is found what
stands for its data, and for a reference that is what the registry has for the name. Built is what the pass
gets to and what does not come to nothing. The components of the pass are one to one with the nodes of built
entries that name a known class. -/
theorem resolve_depicts (hc : PlainConfiguration k c members) {steps : Nat} (hsteps : passSteps members ≤ steps)
    {s : Session} (hp : ∀ n ∈ s.build.priority, IsName n) :
    ∃ r t, k.resolve steps c s = some (r, t) ∧ ∀ registry, r = .ok registry →
      (∀ n, registry.contains n = true ↔ Reached k.types members n ∧ ¬ Barren k.types members n) ∧
      (∀ n place j, registry.contains n = true → nodeAt? k.types members n place = some j →
        ∃ ov, Depicts k.types t.heap registry j ov ∧ valueAt? t.heap registry n place = shown place ov) ∧
      (∀ p, Classed k.types members p → registry.contains p.1 = true →
        ∃ o, Houses k.types members t.heap registry p o) ∧
      (∀ o, (∃ p, Houses k.types members t.heap registry p o) ↔ s.heap.length ≤ o ∧ o < t.heap.length) ∧
      ∀ o p p', Houses k.types members t.heap registry p o → Houses k.types members t.heap registry p' o →
        p = p' := by
  obtain ⟨r, t, ended, rfl, w, finished⟩ := (resolve_finishes hc steps hp).ends fun _ => Nat.not_lt.mpr hsteps
  refine ⟨_, t, ended, fun registry hr => ?_⟩
  obtain ⟨hu, rfl⟩ := Session.outcome_ok hr
  have hf : hc.root.Succeeded s.heap.length w t := ⟨finished, hu⟩
  have houses : ∀ p o, Houses k.types members t.heap t.build.registry p o ↔ ∃ ms, w.home o = some (p, ms) :=
    hf.houses_iff
  refine ⟨fun n => ?_, fun n place j hn hj => ?_, fun p hclassed hn => ?_, fun o => ?_, fun o p p' h h' => ?_⟩
  · exact (hf.contains_iff n).trans (hf.built_iff (hf.unsettled_eq_none_iff.mp hu) n)
  · obtain ⟨ov, real, whole, found⟩ := hf.located ((hf.contains_iff n).mp hn) hj
    exact ⟨ov, hf.depicts real whole, found⟩
  · obtain ⟨o, ms, -, found⟩ := hf.home_of_classed hclassed ((hf.contains_iff p.1).mp hn)
    exact ⟨o, hclassed, hn, found⟩
  · rw [← hf.made o]
    constructor
    · rintro ⟨p, h⟩
      obtain ⟨ms, ho⟩ := (houses p o).mp h
      rw [ho]
      rfl
    · intro h
      obtain ⟨⟨p, ms⟩, ho⟩ := Option.isSome_iff_exists.mp h
      exact ⟨p, (houses p o).mpr ⟨ms, ho⟩⟩
  · obtain ⟨ms, ho⟩ := (houses p o).mp h
    obtain ⟨ms', ho'⟩ := (houses p' o).mp h'
    exact congrArg Prod.fst (Option.some.inj (ho.symm.trans ho'))

/-- The members of the ring. -/
def ringMembers : List (String × Json) :=
  [("a", .object [("-class", .string "record"), ("peer", .string "@named:b")]),
   ("b", .object [("-class", .string "record"), ("peers", .array [.string "@named:a"])])]

/-- The ring is plain data. -/
theorem plain_ring : PlainConfiguration ofRecords ring ringMembers := by
  have a : Refers "@named:a" "a" := refers_of_eq (by decide +kernel) (by decide +kernel)
  have b : Refers "@named:b" "b" := refers_of_eq (by decide +kernel) (by decide +kernel)
  have record : ∀ key j, PlainKey key → key ≠ classKey → Json.Plain ofRecords.types j →
      Json.Plain ofRecords.types (.object [("-class", .string "record"), (key, j)]) := by
    intro key j hkey hclass hj
    refine .object ?_ ?_ ?_ ?_
    · exact List.nodup_cons.mpr ⟨by simpa using fun h => hclass h.symm, List.nodup_singleton _⟩
    · exact List.forall_mem_cons.mpr ⟨by decide +kernel, List.forall_mem_singleton.mpr hkey⟩
    · intro i hi
      obtain rfl : i = .string "record" := by
        rcases List.mem_cons.mp hi with h | h
        · exact (Prod.mk.inj h).2
        · exact absurd (Prod.mk.inj (List.mem_singleton.mp h)).1.symm hclass
      exact ⟨_, rfl, by decide +kernel, .inl rfl⟩
    · exact List.forall_mem_cons.mpr ⟨fun h => absurd rfl h, List.forall_mem_singleton.mpr fun _ => hj⟩
  refine .make (.object (by decide +kernel) (by decide +kernel) (by simp [classKey]) ?_) fun _ _ => rfl
  refine List.forall_mem_cons.mpr ⟨fun _ => ?_, List.forall_mem_singleton.mpr fun _ => ?_⟩
  · exact record "peer" _ (by decide +kernel) (by decide) (.reference b)
  · refine record "peers" _ (by decide +kernel) (by decide) (.array (by decide) ?_)
    exact List.forall_mem_singleton.mpr (.reference a)

/-- The ring is resolved, with `b` first. The item of the list, which had to wait for `a`, is in the end just
what the registry has for `a`, and that is found at the root of the entry `a`. -/
theorem resolve_depicts_ring :
    passSteps ringMembers ≤ 20 ∧ (∀ n ∈ (session ["b"]).build.priority, IsName n) ∧
      ∃ registry t, ofRecords.resolve 20 ring (session ["b"]) = some (.ok registry, t) ∧
        valueAt? t.heap registry "b" [.index 0, .key "peers"] = registry.get? "a" ∧
        ∃ o, Houses ofRecords.types ringMembers t.heap registry ("a", []) o := by
  have steps : passSteps ringMembers ≤ 20 := by decide +kernel
  have names : ∀ n ∈ (session ["b"]).build.priority, IsName n := by decide +kernel
  have ends : Run.succeeds (ofRecords.resolve 20 ring) (session ["b"])
      (fun registry _ => registry.contains "a" && registry.contains "b") = true := by decide +kernel
  obtain ⟨registry, t, success, both⟩ := Run.of_succeeds ends
  obtain ⟨a, b⟩ := Bool.and_eq_true_iff.mp both
  obtain ⟨r, t₁, ended, depicted⟩ := resolve_depicts plain_ring steps names
  obtain ⟨rfl, rfl⟩ := Prod.mk.inj (Option.some.inj (success.symm.trans ended))
  obtain ⟨-, at_, houses, -⟩ := depicted registry rfl
  refine ⟨steps, names, registry, t, ended, ?_, houses ("a", []) ⟨_, "record", rfl, rfl, rfl⟩ a⟩
  obtain ⟨ov, hd, found⟩ := at_ "b" [.index 0, .key "peers"] (.string "@named:a") b rfl
  have refers : Refers "@named:a" "a" := refers_of_eq (by decide +kernel) (by decide +kernel)
  obtain ⟨v, hv⟩ : ∃ v, registry.get? "a" = some v := Option.isSome_iff_exists.mp a
  rw [found, hd.of_refers refers, hv]
  rfl

end Container

end ObjectGraph
