import Mathlib.Logic.Relator
import ObjectGraph.Proofs.Wired.Cycles
import ObjectGraph.Proofs.Wired.Graph

/-!
# `Proofs.Wired.Renaming` — the order of building does not change the graph

Two passes over the same plain data may build the names in different orders, and then different references
are placeholders for a while, different values are parked, and components get different numbers. If they
succeed, what stands for a node in the one pass and in the other is the same up to the components in it, and
of those the ones correspond that were made for the same node (`Succeeded.realizes_renamed`). Since components are one
to one with nodes, that is a renaming.

Contents:
* `Value.Renamed`, `Heap.Renames`;
* `Table.keys_eq`; `Corresponds`, `Succeeded.realizes_renamed`, `Succeeded.built_renamed`;
* `Succeeded.renames`, `Succeeded.corresponds_left`;
* `Container.resolve_renames`.
-/

namespace ObjectGraph

open Json (classOf? entryOf?)

/-! ## Renaming components -/

/-- The one value is the other, but that components are renamed. -/
inductive Value.Renamed (ρ : ObjectId → ObjectId → Prop) : Value → Value → Prop
  | same {v : Value} (hv : v.components = []) : Renamed ρ v v
  | object {o o' : ObjectId} (h : ρ o o') : Renamed ρ (.object o) (.object o')
  | list {vs vs' : List Value} (length : vs.length = vs'.length)
      (items : ∀ (i : Nat) v v', vs[i]? = some v → vs'[i]? = some v' → Renamed ρ v v') :
      Renamed ρ (.list vs) (.list vs')
  | map {es es' : List (String × Value)} (keys : Table.keys es = Table.keys es')
      (entries : ∀ key v v', es.lookup key = some v → es'.lookup key = some v' → Renamed ρ v v') :
      Renamed ρ (.map es) (.map es')

/-- The relation renames components one to one, and keeps their classes and all their properties. -/
structure Heap.Renames (h h' : Heap) (ρ : ObjectId → ObjectId → Prop) : Prop where
  unique : Relator.BiUnique ρ
  alike : ∀ o o', ρ o o' → ∃ c c', h[o]? = some c ∧ h'[o']? = some c' ∧ c.ofClass = c'.ofClass ∧
    ∀ key, Option.Rel (Value.Renamed ρ) (c.get? key) (c'.get? key)

namespace Table

variable {α β : Type}

/-- Ascending tables with the same keys have them in the same order. -/
theorem keys_eq {t : List (String × α)} {u : List (String × β)} (ht : Ascending t) (hu : Ascending u)
    (h : ∀ key, (t.lookup key).isSome ↔ (u.lookup key).isSome) : keys t = keys u := by
  refine List.Perm.eq_of_pairwise (fun a b _ _ hab hba => ?_) ht hu ?_
  · exact absurd (String.lt_trans hab hba) (String.lt_irrefl a)
  refine (List.perm_ext_iff_of_nodup ht.nodup hu.nodup).mpr fun key => ?_
  rw [mem_keys_iff, mem_keys_iff]
  exact h key

end Table

theorem isSome_iff_of_rel {α β : Type} {r : α → β → Prop} {a : Option α} {b : Option β} (h : Option.Rel r a b) :
    a.isSome ↔ b.isSome := by
  cases h <;> simp

theorem of_rel_some {α β : Type} {r : α → β → Prop} {x : α} {y : β} (h : Option.Rel r (some x) (some y)) :
    r x y := by
  cases h with
  | some h => exact h

theorem components_ofJson_scalar {j : Json} (hj : Scalar j) : (Value.ofJson j).components = [] := by
  obtain ⟨hc, -⟩ := hj
  cases j with
  | array items => exact absurd hc Bool.noConfusion
  | object ms => exact absurd hc Bool.noConfusion
  | _ => rfl

theorem Value.Renamed.getD_null {ρ : ObjectId → ObjectId → Prop} {ov ov' : Option Value}
    (h : Option.Rel (Value.Renamed ρ) ov ov') : Value.Renamed ρ (ov.getD .null) (ov'.getD .null) := by
  cases h with
  | none => exact .same rfl
  | some h => exact h

/-- Components of two worlds correspond that were made for the same node. -/
def Corresponds (w w' : World) (o o' : ObjectId) : Prop :=
  ∃ p ms, w.home o = some (p, ms) ∧ w'.home o' = some (p, ms)

theorem Corresponds.symm {w w' : World} {o o' : ObjectId} (h : Corresponds w w' o o') : Corresponds w' w o' o := by
  obtain ⟨p, ms, ho, ho'⟩ := h
  exact ⟨p, ms, ho', ho⟩

namespace PlainRoot

variable {k : Container} {R : PlainRoot k} {before before' : Nat} {w w' : World} {t t' : Session} {n : String}
variable {j : Json} {h : Home} {ov ov' : Option Value}

namespace Succeeded

/-- The same names are built in two passes. -/
theorem built_iff_built (hf : R.Succeeded before w t) (hf' : R.Succeeded before' w' t') (n : String) :
    (w.built n).isSome ↔ (w'.built n).isSome := by
  rw [hf.built_iff (hf.unsettled_eq_none_iff.mp hf.unsettled),
    hf'.built_iff (hf'.unsettled_eq_none_iff.mp hf'.unsettled)]

theorem rel_of_built (hf : R.Succeeded before w t) (hf' : R.Succeeded before' w' t') {r : Value → Value → Prop}
    (h : ∀ v v', w.built n = some v → w'.built n = some v' → r v v') : Option.Rel r (w.built n) (w'.built n) := by
  have both := hf.built_iff_built hf' n
  cases hv : w.built n <;> cases hv' : w'.built n <;> rw [hv, hv'] at both
  · exact .none
  · exact absurd (both.mpr rfl) Bool.false_ne_true
  · exact absurd (both.mp rfl) Bool.false_ne_true
  · exact .some (h _ _ hv hv')

/-- A reference stands for what its name is built to, if for anything. -/
theorem eq_built (hf : R.Succeeded before w t) {str : String} (hr : R.Realizes w h (.string str) ov)
    (hs : Refers str n) (whole : ∀ v, ov = some v → v.Whole) : ov = w.built n := by
  obtain ⟨rfl, -⟩ | ⟨v, rfl, hv⟩ | ⟨rfl, hn⟩ := hr.of_refers hs
  · exact absurd rfl (whole _ rfl [] _)
  · exact hv.symm
  · exact (hf.not_built_of_barren hn).symm

theorem reference_renamed (hf : R.Succeeded before w t) (hf' : R.Succeeded before' w' t') {str : String}
    (hr : R.Realizes w h (.string str) ov) (hr' : R.Realizes w' h (.string str) ov') (hs : Refers str n)
    (whole : ∀ v, ov = some v → v.Whole) (whole' : ∀ v, ov' = some v → v.Whole)
    (name : Option.Rel (Value.Renamed (Corresponds w w')) (w.built n) (w'.built n)) :
    Option.Rel (Value.Renamed (Corresponds w w')) ov ov' := by
  rw [hf.eq_built hr hs whole, hf'.eq_built hr' hs whole']
  exact name

/-- What stands for data in one world and in another is the same up to a renaming, if that holds of what the
names are built to that it needs. -/
theorem realizes_renamed (hf : R.Succeeded before w t) (hf' : R.Succeeded before' w' t')
    (hr : R.Realizes w h j ov) (hr' : R.Realizes w' h j ov') (whole : ∀ v, ov = some v → v.Whole)
    (whole' : ∀ v, ov' = some v → v.Whole)
    (names : ∀ n, j.ByValue n → Option.Rel (Value.Renamed (Corresponds w w')) (w.built n) (w'.built n)) :
    Option.Rel (Value.Renamed (Corresponds w w')) ov ov' := by
  induction hr generalizing ov' with
  | scalar hj =>
      rw [hr'.of_scalar hj]
      exact .some (.same (components_ofJson_scalar hj))
  | waiting hs hn =>
      exact hf.reference_renamed hf' (.waiting hs hn) hr' hs whole whole' (names _ (.reference hs))
  | built hs hv =>
      exact hf.reference_renamed hf' (.built hs hv) hr' hs whole whole' (names _ (.reference hs))
  | barren hs hn =>
      exact hf.reference_renamed hf' (.barren hs hn) hr' hs whole whole' (names _ (.reference hs))
  | @list h items vs f length _ hv ih =>
      obtain ⟨vs', f', rfl, length', items'⟩ := hr'.of_array
      refine .some (.list (length.trans length'.symm) fun i v v' hi hi' => ?_)
      have item := List.getElem?_eq_getElem (length ▸ (List.getElem?_eq_some_iff.mp hi).1 : i < items.length)
      have here := hv i _ item
      obtain ⟨real', here'⟩ := items' i _ item
      have part := ih i _ item real' (fun x => (whole _ rfl).item here) (fun x => (whole' _ rfl).item here')
        fun n hn => names n (.item (List.mem_of_getElem? item) hn)
      obtain rfl := Option.some.inj (hi.symm.trans here)
      obtain rfl := Option.some.inj (hi'.symm.trans here')
      exact .getD_null part
  | @map h ms es hc _ hn ha ih =>
      obtain ⟨es', rfl, ha', entries', missing'⟩ := hr'.of_map hc
      have part : ∀ key, Option.Rel (Value.Renamed (Corresponds w w')) (es.lookup key) (es'.lookup key) := by
        intro key
        cases hj : entryOf? ms key with
        | none =>
            rw [hn key hj, missing' key hj]
            exact .none
        | some j =>
            exact ih key j hj (entries' key j hj) (fun x => (whole _ rfl).entry) (fun x => (whole' _ rfl).entry)
              fun n hn => names n (.entry hc hj hn)
      refine .some (.map (Table.keys_eq ha ha' fun key => isSome_iff_of_rel (part key)) fun key v v' hv hv' => ?_)
      have entry := part key
      rw [hv, hv'] at entry
      exact of_rel_some entry
  | @record h ms c o hc hk ho _ =>
      obtain ⟨o', rfl, ho', -⟩ := hr'.of_record hc hk
      exact .some (.object ⟨h, ms, ho, ho'⟩)
  | unknown hc hu =>
      rw [hr'.of_unknown hc hu]
      exact .none

/-- What a name is built to in two passes is the same up to a renaming. -/
theorem built_renamed (hf : R.Succeeded before w t) (hf' : R.Succeeded before' w' t') (n : String) :
    Option.Rel (Value.Renamed (Corresponds w w')) (w.built n) (w'.built n) := by
  refine hf.rel_of_built hf' fun v v' hv hv' => ?_
  have grounded := (hf.standing.named.sound n v hv).grounded
  induction grounded generalizing v v' with
  | intro n _ ih =>
      have sound := hf.standing.named.sound n v hv
      have sound' := hf'.standing.named.sound n v' hv'
      obtain ⟨j, hj, hr⟩ := sound.realizes
      obtain ⟨j', hj', hr'⟩ := sound'.realizes
      obtain rfl := Option.some.inj (hj.symm.trans hj')
      refine of_rel_some (hf.realizes_renamed hf' hr hr' ?_ ?_ fun m hm => ?_)
      · rintro _ ⟨⟩
        exact .of_complete sound.complete
      · rintro _ ⟨⟩
        exact .of_complete sound'.complete
      · exact hf.rel_of_built hf' fun x x' hx hx' => ih m ⟨j, hj, hm⟩ x x' hx hx'

/-- What the component of a node has at a key is what stands for the node's entry there. -/
theorem get?_of_home (hf : R.Succeeded before w t) {o : ObjectId} {p : Home} {ms : List (String × Json)}
    (ho : w.home o = some (p, ms)) :
    ∃ c, t.heap[o]? = some c ∧ c.ofClass = .record ∧ ∀ key,
      (entryOf? ms key = none ∧ c.get? key = none) ∨
        ∃ j, entryOf? ms key = some j ∧ R.Realizes w (p.1, .key key :: p.2) j (c.get? key) ∧
          ∀ v, c.get? key = some v → v.Whole := by
  obtain ⟨c, hc, hold⟩ := hf.standing.holding o p ms ho
  have get : ∀ key, c.get? key = c.fields.lookup key := by
    intro key
    show c.ofClass.get? c.fields key = _
    rw [hold.record]
    rfl
  refine ⟨c, hc, hold.record, fun key => ?_⟩
  rw [get]
  cases hj : entryOf? ms key with
  | none => exact .inl ⟨rfl, hold.unset key (.inr hj)⟩
  | some j =>
      -- the component is found at its node, so all its properties have been visited
      obtain ⟨there, name, hname, hr⟩ := hf.standing.lodged.node o p ms ho
      obtain ⟨ov, real, -, -⟩ := hf.located (hf.built_of_state (hf.standing.lodged.begun o p ms ho)) there
      obtain ⟨o', -, ho', visited⟩ := real.of_record hname hr
      obtain rfl := hf.standing.lodged.once o o' p ms ms ho ho'
      rcases hold.held key j (visited key j hj) hj with ⟨i, d, hd, -⟩ | ⟨hreal, complete⟩
      · exact absurd (List.mem_of_getElem? hd) (hf.unparked d)
      · exact .inr ⟨j, rfl, hreal, fun v hv => .of_complete (complete v hv)⟩

/-- Components of two passes that were made for the same node are alike. -/
theorem renames (hf : R.Succeeded before w t) (hf' : R.Succeeded before' w' t') :
    t.heap.Renames t'.heap (Corresponds w w') where
  unique := by
    refine ⟨fun o o' q ⟨p, ms, ho, hq⟩ ⟨p', ms', ho', hq'⟩ => ?_, fun o q q' ⟨p, ms, ho, hq⟩ ⟨p', ms', ho', hq'⟩ => ?_⟩
    · obtain ⟨rfl, rfl⟩ : p = p' ∧ ms = ms' := by simpa using hq.symm.trans hq'
      exact hf.standing.lodged.once o o' p ms ms ho ho'
    · obtain ⟨rfl, rfl⟩ : p = p' ∧ ms = ms' := by simpa using ho.symm.trans ho'
      exact hf'.standing.lodged.once q q' p ms ms hq hq'
  alike := by
    rintro o o' ⟨p, ms, ho, ho'⟩
    obtain ⟨c, hc, hclass, hget⟩ := hf.get?_of_home ho
    obtain ⟨c', hc', hclass', hget'⟩ := hf'.get?_of_home ho'
    refine ⟨c, c', hc, hc', hclass.trans hclass'.symm, fun key => ?_⟩
    rcases hget key with ⟨hj, hnone⟩ | ⟨j, hj, hr, whole⟩ <;>
      rcases hget' key with ⟨hj', hnone'⟩ | ⟨j', hj', hr', whole'⟩
    · rw [hnone, hnone']
      exact .none
    · exact absurd (hj.symm.trans hj') (by simp)
    · exact absurd (hj.symm.trans hj') (by simp)
    · obtain rfl := Option.some.inj (hj.symm.trans hj')
      exact hf.realizes_renamed hf' hr hr' whole whole' fun n _ => hf.built_renamed hf' n

/-- Every component of the one pass has one in the other that corresponds. -/
theorem corresponds_left (hf : R.Succeeded before w t) (hf' : R.Succeeded before' w' t') (o : ObjectId) :
    (∃ o', Corresponds w w' o o') ↔ before ≤ o ∧ o < t.heap.length := by
  rw [← hf.made o]
  constructor
  · rintro ⟨o', p, ms, ho, -⟩
    rw [ho]
    rfl
  · intro h
    obtain ⟨⟨p, ms⟩, ho⟩ := Option.isSome_iff_exists.mp h
    obtain ⟨there, c, hc, hr⟩ := hf.standing.lodged.node o p ms ho
    have built := hf.built_of_state (hf.standing.lodged.begun o p ms ho)
    obtain ⟨o', ms', ho', -⟩ := hf'.home_of_classed ⟨ms, c, there, hc, hr⟩ ((hf.built_iff_built hf' p.1).mp built)
    obtain ⟨there', -⟩ := hf'.standing.lodged.node o' p ms' ho'
    obtain rfl := Json.object.inj (Option.some.inj (there.symm.trans there'))
    exact ⟨o', p, ms, ho, ho'⟩

end Succeeded

end PlainRoot

namespace Container

variable {k : Container} {c : Configuration} {members : List (String × Json)}

/-- The order of building does not change the graph. Resolving plain data with one list of names to build first
and with another succeeds for both or for none, and then the registries have the same names, each once, with
values that are the same up to one renaming of all the components of the one pass to all those of the
other. -/
theorem resolve_renames (hc : PlainConfiguration k c members) {steps steps' : Nat}
    (hsteps : passSteps members ≤ steps) (hsteps' : passSteps members ≤ steps') {s s' : Session}
    (hp : ∀ n ∈ s.build.priority, IsName n) (hp' : ∀ n ∈ s'.build.priority, IsName n) :
    ∃ r t r' t', k.resolve steps c s = some (r, t) ∧ k.resolve steps' c s' = some (r', t') ∧
      ((∃ registry, r = .ok registry) ↔ ∃ registry, r' = .ok registry) ∧
      ∀ registry registry', r = .ok registry → r' = .ok registry' →
        registry.names.Nodup ∧ registry.names.Perm registry'.names ∧
        ∃ ρ, t.heap.Renames t'.heap ρ ∧
          (∀ n, Option.Rel (Value.Renamed ρ) (registry.get? n) (registry'.get? n)) ∧
          (∀ o, (∃ o', ρ o o') ↔ s.heap.length ≤ o ∧ o < t.heap.length) ∧
          ∀ o', (∃ o, ρ o o') ↔ s'.heap.length ≤ o' ∧ o' < t'.heap.length := by
  obtain ⟨r, t, ended, rfl, w, finished⟩ := (resolve_finishes hc steps hp).ends fun _ => Nat.not_lt.mpr hsteps
  obtain ⟨r', t', ended', rfl, w', finished'⟩ := (resolve_finishes hc steps' hp').ends fun _ => Nat.not_lt.mpr hsteps'
  refine ⟨_, t, _, t', ended, ended', ?_, fun registry registry' hr hr' => ?_⟩
  · rw [Session.outcome_ok_iff, Session.outcome_ok_iff, finished.unsettled_eq_none_iff,
      finished'.unsettled_eq_none_iff]
  · obtain ⟨hu, rfl⟩ := Session.outcome_ok hr
    obtain ⟨hu', rfl⟩ := Session.outcome_ok hr'
    have hf : hc.root.Succeeded s.heap.length w t := ⟨finished, hu⟩
    have hf' : hc.root.Succeeded s'.heap.length w' t' := ⟨finished', hu'⟩
    rw [hf.names_registry, hf'.names_registry]
    refine ⟨hf.standing.named.once, ?_, Corresponds w w', hf.renames hf', fun n => ?_, hf.corresponds_left hf',
      fun o' => ?_⟩
    · refine (List.perm_ext_iff_of_nodup hf.standing.named.once hf'.standing.named.once).mpr fun n => ?_
      rw [hf.standing.named.order, hf'.standing.named.order]
      exact hf.built_iff_built hf' n
    · rw [hf.get?_registry, hf'.get?_registry]
      exact hf.built_renamed hf' n
    · rw [← hf'.corresponds_left hf o']
      exact exists_congr fun o => ⟨.symm, .symm⟩

/-- The ring is resolved as it is written, and with `b` first. The registries have the same names, with values
that are the same up to a renaming of the two components. -/
theorem resolve_renames_ring :
    passSteps ringMembers ≤ 20 ∧ (∀ n ∈ Session.start.build.priority, IsName n) ∧
      (∀ n ∈ (session ["b"]).build.priority, IsName n) ∧
      ∃ registry t registry' t', ofRecords.resolve 20 ring .start = some (.ok registry, t) ∧
        ofRecords.resolve 20 ring (session ["b"]) = some (.ok registry', t') ∧
        registry.names.Perm registry'.names ∧
        ∃ ρ, t.heap.Renames t'.heap ρ ∧
          ∀ n, Option.Rel (Value.Renamed ρ) (registry.get? n) (registry'.get? n) := by
  have steps : passSteps ringMembers ≤ 20 := by decide +kernel
  have none : ∀ n ∈ Session.start.build.priority, IsName n := by decide
  have names : ∀ n ∈ (session ["b"]).build.priority, IsName n := by decide +kernel
  have ends : Run.succeeds (ofRecords.resolve 20 ring) .start (fun _ _ => true) = true := by decide +kernel
  obtain ⟨registry, t, success, -⟩ := Run.of_succeeds ends
  obtain ⟨r, t₁, r', t', ended, ended', both, same⟩ := resolve_renames plain_ring steps steps none names
  obtain ⟨rfl, rfl⟩ := Prod.mk.inj (Option.some.inj (success.symm.trans ended))
  obtain ⟨registry', rfl⟩ := both.mp ⟨registry, rfl⟩
  obtain ⟨-, perm, ρ, renames, values, -⟩ := same registry registry' rfl rfl
  exact ⟨steps, none, names, registry, t, registry', t', ended, ended', perm, ρ, renames, values⟩

end Container

end ObjectGraph
