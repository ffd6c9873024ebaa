import ObjectGraph.Proofs.Settled
import ObjectGraph.Proofs.Waiting.Names
import ObjectGraph.Proofs.Wired.Pass

/-!
# `Proofs.Wired.Outcome` — which passes over plain data succeed

When a pass is over nothing is in hand, so every name that is still building has its value parked, and the
value waits for another name that is building. What it waits for, it needs by value. A name that is
grounded is therefore not left building, and a name that is built is grounded; all that a pass gets to is
one or the other, or barren. A pass succeeds just if all that it gets to is grounded.

That nothing else keeps a pass from succeeding takes a walk over what can be reached from the values: it only
meets what stands for data, and components that were made for nodes (`Finished.clean`).

Contents:
* `Finished.waits`, `Finished.not_building`; `Finished.attempted_of_reached`, `Finished.grounded_iff`;
* `Stands`, `Finished.clean`;
* `Finished.unsettled_eq_none_iff`; `Finished.get?_registry`, `Finished.built_iff`.
-/

namespace ObjectGraph

open Json (classOf? entryOf?)
open Ledger (Accounted)

/-- A parked name is that of a parked value. -/
theorem Build.exists_of_mem_parkedNames {b : Build} {n : String} (h : n ∈ b.parkedNames) :
    ∃ d, some d ∈ b.deferredNames ∧ d.name = n := by
  unfold Build.parkedNames at h
  generalize b.deferredNames = ds at h ⊢
  induction ds with
  | nil => exact absurd h (by simp)
  | cons e ds ih =>
      rw [List.map_cons, List.sum_cons, Multiset.mem_add] at h
      rcases h with h | h
      · cases e with
        | none => exact absurd h (by simp)
        | some d => exact ⟨d, List.mem_cons_self, (Multiset.mem_singleton.mp h).symm⟩
      · obtain ⟨d, hd, rfl⟩ := ih h
        exact ⟨d, List.mem_cons_of_mem _ hd, rfl⟩

namespace PlainRoot

variable {k : Container} {R : PlainRoot k} {before : Nat} {w : World} {t : Session} {n : String}

namespace Finished

/-! ## What a name that is left building waits for -/

/-- Nothing is in hand, so what is still building is parked. -/
theorem parked_of_building (hf : R.Finished before w t) {ws : List Waiter}
    (hn : t.build.stateOf? n = some (.building ws)) :
    ∃ (i : Nat) (d : DeferredName), t.build.deferredNames[i]? = some (some d) ∧ d.name = n := by
  obtain ⟨l, hb, hl, -, hand, -⟩ := hf.account
  have building : n ∈ l.build.buildingOnes := by
    rw [hb]
    exact Build.mem_gather.mpr ⟨(n, .building ws), Table.mem_of_lookup hn, by simp [Build.ifBuilding]⟩
  have none : l.hand = 0 := hand
  rw [← hl.names.begun, none, zero_add, hb] at building
  obtain ⟨d, hd, name⟩ := Build.exists_of_mem_parkedNames building
  obtain ⟨i, hi⟩ := List.mem_iff_getElem?.mp hd
  exact ⟨i, d, hi, name⟩

/-- A parked value has a placeholder left, for a name that is building. -/
theorem waits_of_parked (hf : R.Finished before w t) {slot : Slot} {v : Value} {count : Nat}
    (hp : t.build.parked? slot = some (v, count)) :
    ∃ place p ws, v.at? place = some (.pending p) ∧ t.build.stateOf? p.name = some (.building ws) := by
  obtain ⟨l, hb, hl, flights, -⟩ := hf.account
  have waiting : l.waiting = l.build.waiting := by
    have none : l.flights = 0 := flights
    rw [Ledger.waiting, none, add_zero]
  rw [← hb] at hp
  obtain ⟨hcount, pos⟩ := hl.slots.outstanding slot v count hp
  rw [hcount] at pos
  obtain ⟨f, hmem, rfl⟩ := Multiset.countP_pos.mp pos
  obtain ⟨v', count', hp', located⟩ := hl.slots.located f hmem
  obtain ⟨rfl, -⟩ : v = v' ∧ count = count' := by simpa using hp.symm.trans hp'
  rw [waiting] at hmem
  obtain ⟨⟨m, st⟩, hst, he⟩ := List.mem_map.mp (Build.mem_buildingNames_of_waiting hmem)
  obtain ⟨hm, unbuilt⟩ := List.mem_filter.mp hst
  obtain rfl : m = f.pending.name := he
  have state := Table.lookup_of_mem hl.names.once hm
  rw [hb] at state
  cases st with
  | built u => exact absurd unbuilt (by simp [NameState.value?])
  | building ws => exact ⟨f.place, f.pending, ws, located, state⟩

/-- A name that is left building needs another by value. -/
theorem waits (hf : R.Finished before w t) {ws : List Waiter} (hn : t.build.stateOf? n = some (.building ws)) :
    ∃ m ws', Needs R.members n m ∧ t.build.stateOf? m = some (.building ws') := by
  obtain ⟨i, d, hd, rfl⟩ := hf.parked_of_building hn
  have parked : t.build.parked? (.name i) = some (d.value, d.outstanding) := by simp [Build.parked?, hd]
  obtain ⟨place, p, ws', located, building⟩ := hf.waits_of_parked parked
  obtain ⟨-, -, j, hj, hr⟩ := hf.standing.parked.named i d hd
  exact ⟨p.name, ws', ⟨j, hj, (hr.of_at? hf.standing.named.sane.complete rfl located).2.2⟩, building⟩

/-- A name that is grounded is not left building. -/
theorem not_building (hf : R.Finished before w t) (hg : Grounded R.members n) (ws : List Waiter) :
    t.build.stateOf? n ≠ some (.building ws) := by
  induction hg generalizing ws with
  | intro n _ ih =>
      intro hn
      obtain ⟨m, ws', needs, building⟩ := hf.waits hn
      exact ih m needs ws' building

/-! ## What has been got to -/

/-- What is mentioned by data that something stands for has been got to. -/
theorem attempted_of_mentions (hf : R.Finished before w t) {j : Json} (hm : j.Mentions k.types n) {h : Home}
    {ov : Option Value} (hr : R.Realizes w h j ov) : R.Attempted w n := by
  induction hm generalizing h ov with
  | reference hs => exact attempted_of_refers hr hs
  | item hj _ ih =>
      obtain ⟨i, hi⟩ := List.mem_iff_getElem?.mp hj
      obtain ⟨vs, f, -, -, item⟩ := hr.of_array
      exact ih (item i _ hi).1
  | @entry ms key j n hc hj _ ih =>
      cases hr with
      | scalar hs => exact absurd hs.1 Bool.noConfusion
      | map _ entries _ _ => exact ih (entries key j hj)
      | unknown hc' hu => exact absurd hu (hc _ hc')
      | record _ _ ho hk =>
          obtain ⟨c, -, hold⟩ := hf.standing.holding _ _ _ ho
          rcases hold.held key j (hk key j hj) hj with ⟨i, d, hd, hparks⟩ | ⟨hreal, -⟩
          · obtain ⟨-, o', key', h', ms', j', hparks', ho', -, hj', hreal⟩ := hf.standing.parked.assignment i d hd
            obtain rfl := Option.some.inj (hparks.1.symm.trans hparks'.1)
            obtain rfl : key = key' := congrArg Property.name (hparks.2.symm.trans hparks'.2)
            obtain ⟨rfl, rfl⟩ : h = h' ∧ ms = ms' := by simpa using ho.symm.trans ho'
            obtain rfl := Option.some.inj (hj.symm.trans hj')
            exact ih hreal
          · exact ih hreal

/-- What begun is building or built. -/
theorem built_or_building (hf : R.Finished before w t) (hn : R.Attempted w n) :
    (w.built n).isSome ∨ Barren k.types R.members n ∨ ∃ ws, t.build.stateOf? n = some (.building ws) := by
  rcases hn with hn | hn | hn
  · obtain ⟨st, hst⟩ := Option.isSome_iff_exists.mp ((hf.standing.named.begun n).mp hn).1
    cases st with
    | building ws => exact .inr (.inr ⟨ws, hst⟩)
    | built v =>
        refine .inl ?_
        rw [(hf.standing.named.built n v).mpr hst]
        rfl
  · exact .inl hn
  · exact .inr (.inl hn)

/-- All that a pass gets to has been got to. -/
theorem attempted_of_reached (hf : R.Finished before w t) (hn : R.Reached n) : R.Attempted w n := by
  induction hn with
  | leading h => exact hf.attempted _ h
  | @mention n m j _ hj hm ih =>
      rcases hf.built_or_building ih with hb | hb | ⟨ws, hb⟩
      · obtain ⟨v, hv⟩ := Option.isSome_iff_exists.mp hb
        obtain ⟨j', hj', hr⟩ := (hf.standing.named.sound n v hv).realizes
        obtain rfl := Option.some.inj (hj.symm.trans hj')
        exact hf.attempted_of_mentions hm hr
      -- what is barren mentions nothing, or something that is barren too
      · cases hb with
        | here hno =>
            rw [hj] at hno
            rcases hno with hno | ⟨ms, c, hno, hc, hu⟩
            · exact absurd hno (by simp)
            · obtain rfl := Option.some.inj hno
              cases hm with
              | entry hc' => exact absurd hu (hc' c hc)
        | link hl hb =>
            obtain ⟨str, hs, hr⟩ := hl
            obtain rfl := Option.some.inj (hj.symm.trans hs)
            cases hm with
            | reference hr' => exact .inr (.inr (hr.unique hr' ▸ hb))
      · obtain ⟨i, d, hd, rfl⟩ := hf.parked_of_building hb
        obtain ⟨-, -, j', hj', hr⟩ := hf.standing.parked.named i d hd
        obtain rfl := Option.some.inj (hj.symm.trans hj')
        exact hf.attempted_of_mentions hm hr

/-- What a pass gets to is grounded just if it is built or barren. -/
theorem grounded_iff (hf : R.Finished before w t) (hn : R.Reached n) :
    Grounded R.members n ↔ (w.built n).isSome ∨ Barren k.types R.members n := by
  constructor
  · intro hg
    rcases hf.built_or_building (hf.attempted_of_reached hn) with hb | hb | ⟨ws, hb⟩
    · exact .inl hb
    · exact .inr hb
    · exact absurd hb (hf.not_building hg ws)
  · rintro (hb | hb)
    · obtain ⟨v, hv⟩ := Option.isSome_iff_exists.mp hb
      exact (hf.standing.named.sound n v hv).grounded
    · exact hb.grounded

end Finished

/-! ## What can be reached when nothing is left -/

/-- The value stands for some data, or an item is null because nothing does, or it is a component that was
made for a node. -/
inductive Stands (R : PlainRoot k) (w : World) : Value → Prop
  | null : Stands R w .null
  | data {h : Home} {j : Json} {v : Value} (hr : R.Realizes w h j (some v)) (hv : v.Whole) : Stands R w v
  | component {o : ObjectId} (ho : (w.home o).isSome) : Stands R w (.object o)

/-- What a name is built to stands for data that is no reference. -/
theorem proper_of_built (hw : w.Sane k.types R.members) (hg : Grounded R.members n) {v : Value}
    (hv : w.built n = some v) :
    ∃ h j, R.Realizes w h j (some v) ∧ ∀ str m, j = .string str → ¬ Refers str m := by
  induction hg with
  | intro n _ ih =>
      have sound := hw.sound n v hv
      obtain ⟨j, hj, hr⟩ := sound.realizes
      by_cases reference : ∃ str m, j = .string str ∧ Refers str m
      · obtain ⟨str, m, rfl, hs⟩ := reference
        obtain ⟨he, -⟩ | ⟨u, he, hb⟩ | ⟨he, -⟩ := hr.of_refers hs
        · exact absurd (Option.some.inj he ▸ sound.complete) (by simp [Value.placeholders])
        · obtain rfl := Option.some.inj he
          exact ih _ ⟨_, hj, .reference hs⟩ hb
        · exact absurd he (by simp)
      · exact ⟨_, j, hr, fun str m he hs => reference ⟨str, m, he, hs⟩⟩

/-- A value that stands for data stands for data that is no reference. -/
theorem proper_of_realizes (hw : w.Sane k.types R.members) {h : Home} {j : Json} {v : Value}
    (hr : R.Realizes w h j (some v)) (hv : v.Whole) :
    ∃ h j, R.Realizes w h j (some v) ∧ ∀ str m, j = .string str → ¬ Refers str m := by
  by_cases reference : ∃ str m, j = .string str ∧ Refers str m
  · obtain ⟨str, m, rfl, hs⟩ := reference
    obtain ⟨he, -⟩ | ⟨u, he, hb⟩ | ⟨he, -⟩ := hr.of_refers hs
    · exact absurd he (hv [] _)
    · obtain rfl := Option.some.inj he
      exact proper_of_built hw (hw.sound _ _ hb).grounded hb
    · exact absurd he (by simp)
  · exact ⟨h, j, hr, fun str m he hs => reference ⟨str, m, he, hs⟩⟩

namespace Finished

/-- What a component holds that was made for a node stands for data. -/
theorem stands_of_reading (hf : R.Finished before w t) (unparked : ∀ d, some d ∉ t.build.deferred) {o : ObjectId}
    (ho : (w.home o).isSome) {c : Component} (hc : t.heap[o]? = some c) {name : String} {v : Value}
    (hv : (name, v) ∈ c.readings) : R.Stands w v := by
  obtain ⟨⟨h, ms⟩, ho⟩ := Option.isSome_iff_exists.mp ho
  obtain ⟨c', hc', hold⟩ := hf.standing.holding o h ms ho
  obtain rfl := Option.some.inj (hc.symm.trans hc')
  have value : c.fields.lookup name = some v := by
    obtain ⟨p, -, he⟩ := List.mem_filterMap.mp hv
    obtain ⟨u, hu, he⟩ := Option.map_eq_some_iff.mp he
    obtain ⟨rfl, rfl⟩ : p.name = name ∧ u = v := by simpa using he
    unfold Component.get? at hu
    rw [hold.record] at hu
    exact hu
  by_cases visited : w.visited o name
  · cases hj : entryOf? ms name with
    | none => exact absurd (value.symm.trans (hold.unset name (.inr hj))) (by simp)
    | some j =>
        rcases hold.held name j visited hj with ⟨i, d, hd, -⟩ | ⟨hr, whole⟩
        · exact absurd (List.mem_of_getElem? hd) (unparked d)
        · rw [value] at hr
          exact .data hr (.of_complete (whole v value))
  · exact absurd (value.symm.trans (hold.unset name (.inl visited))) (by simp)

/-- What is held by what stands for data stands for data. -/
theorem stands_of_holds (hf : R.Finished before w t) (unparked : ∀ d, some d ∉ t.build.deferred) {v u : Value}
    (hv : R.Stands w v) (hu : t.heap.Holds v u) : R.Stands w u := by
  cases hv with
  | null => cases hu
  | component ho =>
      cases hu with
      | reading hc hr => exact hf.stands_of_reading unparked ho hc hr
  | data hr whole =>
      obtain ⟨h, j, hr, proper⟩ := proper_of_realizes hf.standing.named.sane hr whole
      cases hr with
      | waiting hs _ => exact absurd hs (proper _ _ rfl)
      | built hs _ => exact absurd hs (proper _ _ rfl)
      | scalar hs =>
          obtain ⟨hc, -⟩ := hs
          cases j with
          | array items => exact absurd hc Bool.noConfusion
          | object ms => exact absurd hc Bool.noConfusion
          | _ => cases hu
      | list f length hf' hi =>
          cases hu with
          | item hm =>
              obtain ⟨i, hm⟩ := List.mem_iff_getElem?.mp hm
              have inside := length ▸ (List.getElem?_eq_some_iff.mp hm).1
              have item := List.getElem?_eq_getElem inside
              have value := hi i _ item
              cases hfi : f i with
              | none =>
                  rw [hm, hfi] at value
                  exact Option.some.inj value ▸ .null
              | some x =>
                  rw [hm, hfi] at value
                  obtain rfl : u = x := Option.some.inj value
                  exact .data (hfi ▸ hf' i _ item) (whole.item (hi i _ item) hfi)
      | @map h ms es hc hf' hn ha =>
          cases hu with
          | @entry _ key _ hm =>
              have value : es.lookup key = some u := Table.lookup_of_mem ha.nodup hm
              cases hj : entryOf? ms key with
              | none => exact absurd (value.symm.trans (hn key hj)) (by simp)
              | some j =>
                  exact .data (value ▸ hf' key j hj) (whole.entry value)
      | record _ _ ho _ =>
          cases hu with
          | reading hc hr =>
              refine hf.stands_of_reading unparked ?_ hc hr
              rw [ho]
              rfl

/-- No placeholder can be reached from what stands for data. -/
theorem clean (hf : R.Finished before w t) (unparked : ∀ d, some d ∉ t.build.deferred) {v : Value}
    (hv : R.Stands w v) : t.heap.Clean v := by
  intro p hp
  have all : ∀ u, t.heap.Leads v u → R.Stands w u := by
    intro u hu
    induction hu with
    | refl => exact hv
    | tail _ step ih => exact hf.stands_of_holds unparked ih step
  cases all _ hp with
  | data _ whole => exact absurd rfl (whole [] p)

/-! ## The end of a pass -/

/-- A pass succeeds just if all that it gets to is grounded. -/
theorem unsettled_eq_none_iff (hf : R.Finished before w t) :
    t.build.unsettled t.heap = none ↔ ∀ n, R.Reached n → Grounded R.members n := by
  rw [t.build.unsettled_eq_none_iff]
  have nodup : (Table.keys t.build.names).Nodup := by
    obtain ⟨l, hb, hl, -⟩ := hf.account
    rw [← hb]
    exact hl.names.once
  constructor
  · rintro ⟨built, -, -⟩ n hn
    rw [hf.grounded_iff hn]
    refine (hf.built_or_building (hf.attempted_of_reached hn)).imp_right (Or.resolve_right · ?_)
    rintro ⟨ws, hws⟩
    exact absurd (built _ (Table.mem_of_lookup hws)) Bool.noConfusion
  · intro grounded
    have unbuilding : ∀ n ws, t.build.stateOf? n ≠ some (.building ws) := by
      intro n ws hn
      refine hf.not_building (grounded n (hf.standing.named.reached n ?_)) ws hn
      rw [hn]
      rfl
    have unparked : ∀ d, some d ∉ t.build.deferred := by
      intro d hd
      obtain ⟨i, hi⟩ := List.mem_iff_getElem?.mp hd
      have parked : t.build.parked? (.property i) = some (d.value, d.outstanding) := by
        simp [Build.parked?, hi]
      obtain ⟨-, p, ws, -, building⟩ := hf.waits_of_parked parked
      exact unbuilding _ _ building
    refine ⟨fun e he => ?_, unparked, fun v hv => hf.clean unparked ?_⟩
    · obtain ⟨n, st⟩ := e
      cases st with
      | built v => rfl
      | building ws => exact absurd (Table.lookup_of_mem nodup he) (unbuilding n ws)
    · rcases List.mem_append.mp hv with hv | hv
      · obtain ⟨⟨n, st⟩, he, hst⟩ := List.mem_filterMap.mp hv
        cases st with
        | building ws => exact absurd hst (by simp [NameState.value?])
        | built u =>
            obtain rfl : u = v := Option.some.inj hst
            have state := (hf.standing.named.built n u).mpr (Table.lookup_of_mem nodup he)
            have sound := hf.standing.named.sound n u state
            obtain ⟨j, -, hr⟩ := sound.realizes
            exact .data hr (.of_complete sound.complete)
      · obtain ⟨r, hr, rfl⟩ := List.mem_map.mp hv
        exact .component (hf.standing.tracked _ (List.mem_map_of_mem hr))

/-! ## What is built -/

theorem state_of_built (hf : R.Finished before w t) (n : String) :
    (t.build.stateOf? n).bind NameState.value? = w.built n := by
  cases hv : w.built n with
  | some v =>
      rw [(hf.standing.named.built n v).mp hv]
      rfl
  | none =>
      cases hst : t.build.stateOf? n with
      | none => rfl
      | some st =>
          cases st with
          | building ws => rfl
          | built v =>
              rw [(hf.standing.named.built n v).mpr hst] at hv
              exact absurd hv (by simp)

/-- The list of the built names is right. -/
theorem listed (hf : R.Finished before w t) : t.build.Listed := by
  refine ⟨hf.standing.named.once, ?_⟩
  intro n
  rw [hf.standing.named.order, Option.isSome_iff_exists]
  exact exists_congr (hf.standing.named.built n)

/-- The registry has what the names are built to. -/
theorem get?_registry (hf : R.Finished before w t) (n : String) : t.build.registry.get? n = w.built n :=
  (hf.listed.get?_registry n).trans (hf.state_of_built n)

/-- The registry has every name once. -/
theorem names_registry (hf : R.Finished before w t) : t.build.registry.names = t.build.order :=
  hf.listed.names_registry

/-- No barren name is built. -/
theorem not_built_of_barren (hf : R.Finished before w t) (hn : Barren k.types R.members n) : w.built n = none := by
  induction hn with
  | @here n hno =>
      refine Option.eq_none_iff_forall_ne_some.mpr fun v hv => ?_
      obtain ⟨j, hj, hr⟩ := (hf.standing.named.sound n v hv).realizes
      rw [hj] at hno
      rcases hno with hno | ⟨ms, c, hno, hc, hu⟩
      · exact absurd hno (by simp)
      · obtain rfl := Option.some.inj hno
        exact absurd (hr.of_unknown hc hu) (by simp)
  | @link n m hl _ ih =>
      refine Option.eq_none_iff_forall_ne_some.mpr fun v hv => ?_
      have sound := hf.standing.named.sound n v hv
      obtain ⟨j, hj, hr⟩ := sound.realizes
      obtain ⟨str, hs, hm⟩ := hl
      obtain rfl := Option.some.inj (hs.symm.trans hj)
      obtain ⟨he, -⟩ | ⟨u, -, hb⟩ | ⟨he, -⟩ := hr.of_refers hm
      · exact absurd (Option.some.inj he ▸ sound.complete) (by simp [Value.placeholders])
      · exact absurd (ih.symm.trans hb) (by simp)
      · exact absurd he (by simp)

/-- If all is grounded, what is built is what a pass gets to and is not barren. -/
theorem built_iff (hf : R.Finished before w t) (grounded : ∀ n, R.Reached n → Grounded R.members n) (n : String) :
    (w.built n).isSome ↔ R.Reached n ∧ ¬ Barren k.types R.members n := by
  constructor
  · intro hn
    obtain ⟨v, hv⟩ := Option.isSome_iff_exists.mp hn
    refine ⟨hf.standing.named.reached n ?_, fun hb => ?_⟩
    · rw [(hf.standing.named.built n v).mp hv]
      rfl
    · exact absurd ((hf.not_built_of_barren hb).symm.trans hv) (by simp)
  · rintro ⟨hr, hb⟩
    exact ((hf.grounded_iff hr).mp (grounded n hr)).resolve_right hb

end Finished

end PlainRoot

end ObjectGraph
