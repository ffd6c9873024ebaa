import ObjectGraph.Build.Types
import ObjectGraph.Component.Declared

/-!
# `Proofs.Telling.Slots` — components held by properties, and what constructors make

A property may hold a component that the constructor put there; a node for the property then configures
that component in place. For this to happen once to each component, classes and constructors have to keep
to some laws: a property is found by its name and setting it changes no other (`Class.Lawful`), and what a
constructor makes is new and held in one place (`Heap.Fresh`).

Contents:
* `PropertyType.holdsComponents`, `Class.Lawful`; records and declared classes are lawful;
* `Heap.InPlace`, what a node for a property configures in place;
* `Heap.SameClasses`; what `set` and `finish` keep of `InPlace`;
* `Heap.Fresh`, and constructors of one component or of one inside another;
* `TypeRegistry.MakesFresh`, which holds for records.
-/

namespace ObjectGraph

/-- A component that a property of this type holds is configured further. -/
def PropertyType.holdsComponents : PropertyType → Bool
  | .any => true
  | .object _ => true
  | _ => false

/-- What the container relies on with the classes of components. -/
structure Class.Lawful (c : Class) : Prop where
  /-- A property that can hold a component is found by no other name than its own. -/
  named : ∀ {f n p}, c.property? f n = some p → p.type.holdsComponents = true → p.name = n
  /-- A property is found by its name, whatever a component holds. -/
  found : ∀ {f n p}, c.property? f n = some p → ∀ g, c.property? g p.name = some p
  /-- Setting a property changes no other. -/
  others : ∀ {f g n v q}, c.set? f n v = some g → q ≠ n → c.get? g q = c.get? f q

namespace Class

theorem lawful_record : Class.record.Lawful where
  named h _ := by
    obtain rfl := Option.some.inj h
    rfl
  found h _ := by
    obtain rfl := Option.some.inj h
    rfl
  others h hq := by
    obtain rfl := Option.some.inj h
    exact (Table.lookup_insert _ _ _ _).trans (if_neg hq)

theorem findProperty_of_holds {properties : List Property} {n : String} {p : Property}
    (h : findProperty properties n = some p) (holds : p.type.holdsComponents = true) :
    properties.find? (·.name == n) = some p := by
  unfold findProperty at h
  split at h
  next q hq => exact hq.trans h
  · split at h
    · have boolean := List.find?_some h
      have : p.type = .bool := by simpa using And.left (by simpa using boolean)
      rw [this] at holds
      exact absurd holds (by decide)
    · exact absurd h (by simp)

theorem mem_of_findProperty {properties : List Property} {n : String} {p : Property}
    (h : findProperty properties n = some p) : p ∈ properties := by
  unfold findProperty at h
  split at h
  next q hq =>
    obtain rfl := Option.some.inj h
    exact List.mem_of_find?_eq_some hq
  · split at h
    · exact List.mem_of_find?_eq_some h
    · exact absurd h (by simp)

/-- A class of declared fields is lawful if no two fields have one name. -/
theorem lawful_declared (name : String) {fields : List Field} (configured : Fields → Fields)
    (hn : (fields.map (·.name)).Nodup) : (Class.declared name fields configured).Lawful where
  named h holds := by
    have := List.find?_some (findProperty_of_holds h holds)
    simpa using this
  found {f n p} h g := by
    have names : ((fields.map Field.property).map (·.name)).Nodup := by
      simpa [List.map_map, Function.comp_def, Field.property] using hn
    have mem : p ∈ fields.map Field.property := mem_of_findProperty h
    change findProperty (fields.map Field.property) p.name = some p
    generalize fields.map Field.property = properties at names mem
    have find : properties.find? (·.name == p.name) = some p := by
      induction properties with
      | nil => exact absurd mem (by simp)
      | cons q properties ih =>
          obtain ⟨hq, names⟩ := List.nodup_cons.mp names
          rcases List.mem_cons.mp mem with rfl | mem
          · simp
          · have hne : ¬ q.name = p.name := fun he =>
              hq (List.mem_map.mpr ⟨p, mem, he.symm⟩)
            rw [List.find?_cons_of_neg (by simpa using hne)]
            exact ih names mem
    simp [findProperty, find]
  others {f g n v q} h hq := by
    obtain ⟨field, w, found, -, rfl⟩ := set?_declared.mp h
    exact (get?_declared found w q).trans (if_neg hq)

/-- What a component of declared fields holds is in its fields. -/
theorem lookup_of_get?_declared {name : String} {fields : List Field} {configured : Fields → Fields}
    {held : Fields} {q : String} {v : Value}
    (h : (Class.declared name fields configured).get? held q = some v) : held.lookup q = some v := by
  simp only [Class.declared] at h
  split at h
  · exact h
  · exact absurd h (by simp)

end Class

namespace Heap

/-- A node for the property `q` of the component `o` configures the component `p` in place. -/
def InPlace (h : Heap) (o : ObjectId) (q : String) (p : ObjectId) : Prop :=
  ∃ c r, h[o]? = some c ∧ c.property? q = some r ∧ r.type.holdsComponents = true ∧
    c.get? q = some (.object p)

/-- The components of one heap are in another, of the same classes. -/
def SameClasses (h h' : Heap) : Prop :=
  ∀ (o : ObjectId) (c : Component), h[o]? = some c →
    ∃ c' : Component, h'[o]? = some c' ∧ c'.ofClass = c.ofClass

/-- How often a component has been told that every property has been set. -/
def times (h : Heap) (o : ObjectId) : Nat := (h[o]?.map (·.timesConfigured)).getD 0

variable {h h' : Heap} {o p : ObjectId} {q : String}

theorem InPlace.lt (hp : h.InPlace o q p) : o < h.length := by
  obtain ⟨c, -, hc, -⟩ := hp
  exact (List.getElem?_eq_some_iff.mp hc).1

theorem SameClasses.refl (h : Heap) : h.SameClasses h := fun _ c hc => ⟨c, hc, rfl⟩

theorem SameClasses.length_le (hs : h.SameClasses h') : h.length ≤ h'.length := by
  refine Nat.le_of_not_lt fun hlt => ?_
  obtain ⟨c', hc', -⟩ := hs _ _ (List.getElem?_eq_getElem hlt)
  exact absurd (List.getElem?_eq_some_iff.mp hc').1 (Nat.lt_irrefl _)

theorem SameClasses.property? (hs : h.SameClasses h')
    (hl : ∀ c, h[o]? = some c → c.ofClass.Lawful) {r : Property}
    (hr : h.property? o r.name = some r) : h'.property? o r.name = some r := by
  obtain ⟨c, hc, hp⟩ := Option.bind_eq_some_iff.mp hr
  obtain ⟨c', hc', same⟩ := hs o c hc
  refine Option.bind_eq_some_iff.mpr ⟨c', hc', ?_⟩
  unfold Component.property?
  rw [same]
  exact (hl c hc).found hp _

/-! ## Setting and finishing -/

theorem set_cases (h : Heap) (o : ObjectId) (n : String) (v : Value) :
    (h.set o n v).2 = h ∨ ∃ c f, h[o]? = some c ∧ c.ofClass.set? c.fields n v = some f ∧
      (h.set o n v).2 = List.set h o { c with fields := f } := by
  unfold set
  split
  next c' hc' =>
    obtain ⟨c, hc, hset⟩ := Option.bind_eq_some_iff.mp hc'
    obtain ⟨f, hf, rfl⟩ := Option.map_eq_some_iff.mp hset
    exact .inr ⟨c, f, hc, hf, rfl⟩
  · exact .inl rfl

theorem sameClasses_set (h : Heap) (o : ObjectId) (n : String) (v : Value) :
    h.SameClasses (h.set o n v).2 := by
  rcases h.set_cases o n v with he | ⟨c, f, hc, -, he⟩
  · rw [he]
    exact .refl h
  · intro p d hd
    rw [he]
    by_cases hp : o = p
    · subst hp
      obtain rfl : c = d := Option.some.inj (hc.symm.trans hd)
      exact ⟨_, getElem?_listSet_eq hc _, rfl⟩
    · exact ⟨d, (List.getElem?_set_ne hp).trans hd, rfl⟩

theorem sameClasses_finish (h : Heap) (o : ObjectId) : h.SameClasses (h.finish o) := by
  unfold finish
  split
  next c hc =>
    intro p d hd
    by_cases hp : o = p
    · subst hp
      obtain rfl : c = d := Option.some.inj (hc.symm.trans hd)
      exact ⟨_, getElem?_listSet_eq hc _, rfl⟩
    · exact ⟨d, (List.getElem?_set_ne hp).trans hd, rfl⟩
  · exact .refl h

theorem getElem?_finish_of_ne (h : Heap) (hp : o ≠ p) : (h.finish o)[p]? = h[p]? := by
  unfold finish
  split
  · exact List.getElem?_set_ne hp
  · rfl

theorem times_set (h : Heap) (o : ObjectId) (n : String) (v : Value) (p : ObjectId) :
    (h.set o n v).2.times p = h.times p := by
  rcases h.set_cases o n v with he | ⟨c, f, hc, -, he⟩
  · rw [he]
  · unfold times
    rw [he]
    by_cases hp : o = p
    · subst hp
      rw [getElem?_listSet_eq hc, hc]
      rfl
    · rw [List.getElem?_set_ne hp]

theorem times_finish (h : Heap) (ho : o < h.length) (p : ObjectId) :
    (h.finish o).times p = h.times p + if o = p then 1 else 0 := by
  unfold times
  by_cases hp : o = p
  · subst hp
    have hc := List.getElem?_eq_getElem ho
    unfold finish
    rw [hc]
    simp [getElem?_listSet_eq hc, Component.finish]
  · rw [getElem?_finish_of_ne h hp, if_neg hp, Nat.add_zero]

/-- Setting a property changes nothing about what other properties hold. -/
theorem inPlace_of_set (hl : ∀ c, h[o]? = some c → c.ofClass.Lawful) {r : Property}
    (hr : h.property? o r.name = some r) (v : Value) {o' : ObjectId}
    (hp : (h.set o r.name v).2.InPlace o' q p) :
    h.InPlace o' q p ∨ o' = o ∧ q = r.name ∧ r.type.holdsComponents = true := by
  rcases h.set_cases o r.name v with he | ⟨c, f, hc, hset, he⟩
  · exact .inl (he ▸ hp)
  · obtain ⟨d, r', hd, hr', holds, hget⟩ := hp
    rw [he] at hd
    by_cases ho : o = o'
    · subst ho
      obtain rfl := Option.some.inj ((getElem?_listSet_eq hc _).symm.trans hd)
      have lawful := hl c hc
      obtain rfl := lawful.named hr' holds
      by_cases hq : r'.name = r.name
      · obtain ⟨c', hc', hfound⟩ := Option.bind_eq_some_iff.mp hr
        obtain rfl : c = c' := Option.some.inj (hc.symm.trans hc')
        obtain rfl : r' = r := Option.some.inj
          ((hq ▸ hr' : c.ofClass.property? f r.name = some r').symm.trans (lawful.found hfound f))
        exact .inr ⟨rfl, hq, holds⟩
      · exact .inl ⟨c, r', hc, lawful.found hr' _, holds, (lawful.others hset hq).symm.trans hget⟩
    · rw [List.getElem?_set_ne ho] at hd
      exact .inl ⟨d, r', hd, hr', holds, hget⟩

theorem inPlace_of_finish {o' : ObjectId} (ho : o ≠ o') (hp : (h.finish o).InPlace o' q p) :
    h.InPlace o' q p := by
  obtain ⟨c, r, hc, hrest⟩ := hp
  exact ⟨c, r, (getElem?_finish_of_ne h ho).symm.trans hc, hrest⟩

/-! ## Constructors -/

/-- What a constructor made is new and has not been told anything, and the components that are held in it
are new as well, are not the one given, and are each held in one place. -/
structure Fresh (h : Heap) (made : ObjectId × Heap) : Prop where
  kept : ∀ o < h.length, made.2[o]? = h[o]?
  recent : h.length ≤ made.1
  present : made.1 < made.2.length
  lawful : ∀ (o : ObjectId) (c : Component), h.length ≤ o → made.2[o]? = some c →
    c.ofClass.Lawful ∧ c.timesConfigured = 0
  inner : ∀ o q p, h.length ≤ o → made.2.InPlace o q p →
    h.length ≤ p ∧ p < made.2.length ∧ p ≠ made.1
  unshared : ∀ o q o' q' p, h.length ≤ o → h.length ≤ o' → made.2.InPlace o q p →
    made.2.InPlace o' q' p → o = o' ∧ q = q'

theorem Fresh.sameClasses {made : ObjectId × Heap} (hf : h.Fresh made) : h.SameClasses made.2 :=
  fun o c hc => ⟨c, (hf.kept o (List.getElem?_eq_some_iff.mp hc).1).trans hc, rfl⟩

theorem Fresh.inPlace_of_lt {made : ObjectId × Heap} (hf : h.Fresh made) (ho : o < h.length)
    (hp : made.2.InPlace o q p) : h.InPlace o q p := by
  obtain ⟨c, r, hc, hrest⟩ := hp
  exact ⟨c, r, (hf.kept o ho).symm.trans hc, hrest⟩

theorem Fresh.times_eq {made : ObjectId × Heap} (hf : h.Fresh made) (o : ObjectId) :
    made.2.times o = h.times o := by
  unfold times
  by_cases ho : o < h.length
  · rw [hf.kept o ho]
  · rw [List.getElem?_eq_none (Nat.not_lt.mp ho)]
    rcases hc : made.2[o]? with _ | c
    · rfl
    · simp [(hf.lawful o c (Nat.not_lt.mp ho) hc).2]

theorem eq_of_getElem?_allocate {c d : Component} (ho : h.length ≤ o) (hd : (h.allocate c).2[o]? = some d) :
    o = h.length ∧ c = d := by
  have inside := (List.getElem?_eq_some_iff.mp hd).1
  simp only [allocate, List.length_append, List.length_singleton] at inside
  obtain rfl : o = h.length := Nat.le_antisymm (Nat.le_of_lt_succ inside) ho
  exact ⟨rfl, Option.some.inj ((h.getElem?_allocate c).symm.trans hd)⟩

/-- What a constructor starts from: the class is lawful and the component has not been told anything. -/
def Pristine (c : Component) : Prop := c.ofClass.Lawful ∧ c.timesConfigured = 0

/-- A component that has no component in place is fresh. -/
theorem fresh_allocate (h : Heap) {c : Component} (hc : Pristine c)
    (hn : ∀ q p, c.get? q ≠ some (.object p)) : h.Fresh (h.allocate c) := by
  have alone : ∀ o q p, h.length ≤ o → ¬ (h.allocate c).2.InPlace o q p := by
    rintro o q p ho ⟨d, r, hd, -, -, hget⟩
    obtain ⟨-, rfl⟩ := eq_of_getElem?_allocate ho hd
    exact hn q p hget
  refine ⟨fun o ho => getElem?_allocate_of_lt ho c, Nat.le_refl _, by simp [allocate], fun o d ho hd => ?_,
    fun o q p ho hp => absurd hp (alone o q p ho), fun o q o' q' p ho _ hp => absurd hp (alone o q p ho)⟩
  obtain ⟨-, rfl⟩ := eq_of_getElem?_allocate ho hd
  exact hc

/-- What is fresh stays so with one more component that has it in place, under one name. -/
theorem Fresh.allocate {made : ObjectId × Heap} (hf : h.Fresh made) {c : Component} (hc : Pristine c)
    (slot : String) (hs : ∀ n p, c.get? n = some (.object p) → n = slot ∧ p = made.1) :
    h.Fresh (made.2.allocate c) := by
  have longer : h.length ≤ made.2.length := hf.sameClasses.length_le
  -- what was there has in place what it had, and the new one has the one that was made before
  have cases : ∀ {o n p}, (made.2.allocate c).2.InPlace o n p →
      made.2.InPlace o n p ∨ o = made.2.length ∧ n = slot ∧ p = made.1 := by
    rintro o n p ⟨d, r, hd, hr, holds, hget⟩
    rcases Nat.lt_or_ge o made.2.length with ho | ho
    · exact .inl ⟨d, r, (getElem?_allocate_of_lt ho c).symm.trans hd, hr, holds, hget⟩
    · obtain ⟨rfl, rfl⟩ := eq_of_getElem?_allocate ho hd
      exact .inr ⟨rfl, hs n p hget⟩
  have last : (made.2.allocate c).1 = made.2.length := rfl
  have length : (made.2.allocate c).2.length = made.2.length + 1 := by simp [Heap.allocate]
  refine ⟨fun o ho => ?_, longer, by rw [length]; exact Nat.lt_succ_self _, fun o d ho hd => ?_,
    fun o n p ho hp => ?_, fun o n o' n' p ho ho' hp hp' => ?_⟩
  · rw [getElem?_allocate_of_lt (Nat.lt_of_lt_of_le ho longer) c, hf.kept o ho]
  · rcases Nat.lt_or_ge o made.2.length with hlt | hge
    · exact hf.lawful o d ho ((getElem?_allocate_of_lt hlt c).symm.trans hd)
    · obtain ⟨-, rfl⟩ := eq_of_getElem?_allocate hge hd
      exact hc
  · rw [length, last]
    rcases cases hp with hp | ⟨-, -, rfl⟩
    · obtain ⟨recent, present, -⟩ := hf.inner o n p ho hp
      exact ⟨recent, Nat.lt_succ_of_lt present, Nat.ne_of_lt present⟩
    · exact ⟨hf.recent, Nat.lt_succ_of_lt hf.present, Nat.ne_of_lt hf.present⟩
  · rcases cases hp with hp | ⟨rfl, rfl, rfl⟩ <;> rcases cases hp' with hp' | ⟨rfl, rfl, he⟩
    · exact hf.unshared o n o' n' p ho ho' hp hp'
    · exact absurd he (hf.inner o n p ho hp).2.2
    · exact absurd rfl (hf.inner o' n' _ ho' hp').2.2
    · exact ⟨rfl, rfl⟩

end Heap

namespace TypeRegistry

/-- The constructors of the registered classes make something fresh each time. -/
def MakesFresh (types : TypeRegistry) : Prop :=
  ∀ name make, types.constructor? name = some make → ∀ h, Heap.Fresh h (make h)

theorem makesFresh_empty : empty.MakesFresh := by
  intro name make hm
  exact absurd hm (by simp [constructor?, classFor?, empty])

/-- With one more class there is one more constructor. -/
theorem constructor?_withClass {types : TypeRegistry} {name n : String} {make c : Constructor}
    (h : (types.withClass name make).constructor? n = some c) : c = make ∨ ∃ m, types.constructor? m = some c := by
  have found : ∀ {m}, (types.withClass name make).classes.lookup m = some c →
      c = make ∨ ∃ m, types.constructor? m = some c := by
    intro m hc
    rw [TypeRegistry.withClass, Table.lookup_insert] at hc
    split at hc
    · exact .inl (Option.some.inj hc).symm
    · exact .inr ⟨m, by simp [constructor?, hc]⟩
  unfold constructor? at h
  split at h
  next hlook =>
    obtain rfl := Option.some.inj h
    exact found hlook
  · obtain ⟨logical, -, hlook⟩ := Option.bind_eq_some_iff.mp h
    exact found hlook

/-- With one more class whose constructor makes something fresh, all of them do. -/
theorem MakesFresh.withClass {types : TypeRegistry} (ht : types.MakesFresh) (name : String)
    {make : Constructor} (hm : ∀ h, Heap.Fresh h (make h)) : (types.withClass name make).MakesFresh := by
  intro n c hc
  rcases constructor?_withClass hc with rfl | ⟨m, hc⟩
  · exact hm
  · exact ht m c hc

/-- Records are made fresh. -/
theorem makesFresh_builtins : builtins.MakesFresh :=
  makesFresh_empty.withClass "record" fun h =>
    h.fresh_allocate ⟨Class.lawful_record, rfl⟩ fun _ _ hq =>
      absurd hq (by simp [Component.get?, Component.fresh, Class.record])

end TypeRegistry

end ObjectGraph
