import ObjectGraph.Proofs.Unresolved
import ObjectGraph.Proofs.Waiting.Pass

/-!
# `Proofs.Settled` — a pass that succeeds leaves nothing behind

A placeholder can outlive a pass in three places: with a name that is still building, in an assignment that
is parked, and in what can be reached from what was built. The end of a pass looks at all three
(`unsettled_eq_none_iff`), so none is left if the pass succeeds.

Contents:
* `unsettled_eq_none_iff`, `pending_of_settled`;
* `resolve_settled`.
-/

namespace ObjectGraph

open Ledger (Trace)
open Run (After)

namespace Build

/-- Nothing is left of a pass just if no name is building, no assignment is parked, and no placeholder can
be reached from the values of the names and the tracked components. -/
theorem unsettled_eq_none_iff (b : Build) (h : Heap) :
    b.unsettled h = none ↔
      (∀ e ∈ b.names, e.2.value?.isSome) ∧ (∀ d, some d ∉ b.deferred) ∧ ∀ v ∈ b.values, h.Clean v := by
  have names : b.buildingNames = [] ↔ ∀ e ∈ b.names, e.2.value?.isSome := by
    simp [buildingNames, List.filter_eq_nil_iff, Option.isSome_iff_ne_none]
  have parked : b.parkedCount = 0 ↔ ∀ d, some d ∉ b.deferred := by
    unfold parkedCount
    rw [List.length_eq_zero_iff, List.filter_eq_nil_iff]
    constructor
    · exact fun hn d hd => hn _ hd rfl
    · intro hn d hd
      cases d with
      | none => simp
      | some d => exact absurd hd (hn d)
  rw [← names, ← parked, ← h.unresolved_eq_nil_iff]
  unfold unsettled
  dsimp only
  split
  next hleft =>
    obtain ⟨hnames, hparked⟩ := hleft
    exact iff_of_true rfl ⟨(List.append_eq_nil_iff.mp hnames).1, hparked, (List.append_eq_nil_iff.mp hnames).2⟩
  next hleft =>
    exact iff_of_false (by simp) fun h => hleft ⟨List.append_eq_nil_iff.mpr ⟨h.1, h.2.2⟩, h.2.1⟩

/-- What the registry holds is the value of a built name. -/
theorem mem_values_of_registry {b : Build} {name : String} {v : Value}
    (hv : b.registry.get? name = some v) : v ∈ b.values := by
  have mem : (name, v) ∈ b.registry := Table.mem_of_lookup hv
  obtain ⟨n, -, hn⟩ := List.mem_filterMap.mp mem
  obtain ⟨w, hw, he⟩ := Option.map_eq_some_iff.mp hn
  obtain ⟨rfl, rfl⟩ : n = name ∧ w = v := by simpa using he
  obtain ⟨st, hst, hval⟩ := Option.bind_eq_some_iff.mp hw
  exact List.mem_append_left _ (List.mem_filterMap.mpr ⟨(n, st), Table.mem_of_lookup hst, hval⟩)

end Build

/-- When nothing is left and no assignment is being made, no component waits for any. -/
theorem Ledger.Accounted.pending_of_settled {l : Ledger} (hl : l.Accounted) (landing : l.landing = none) {h : Heap}
    (settled : l.build.unsettled h = none) (w : Tracked) (hw : w ∈ l.build.objects) : w.pending = 0 := by
  have unparked := ((l.build.unsettled_eq_none_iff h).mp settled).2.1
  obtain ⟨i, hi⟩ := List.mem_iff_getElem?.mp hw
  have none : l.build.parkedFor i = 0 := by
    refine List.countP_eq_zero.mpr fun d hd => ?_
    cases d with
    | none => simp
    | some d => exact absurd hd (unparked d)
  rw [hl.owners.pending i w hi, none, landing]
  simp

namespace Container

/-- Cycle safety. If resolving succeeds, then after the pass that it has run no placeholder can be reached
from a value of the registry or from a component that was tracked during the pass, no name is building, and
nothing is parked. -/
theorem resolve_settled {k : Container} {steps : Nat} {c : Configuration} {s t : Session}
    {registry : Registry} (h : k.resolve steps c s = some (.ok registry, t)) :
    ∃ root u acts, k.pass steps root u = some (.ok registry, t) ∧ t.acts = acts ++ .start root :: u.acts ∧
      (∀ name v, registry.get? name = some v → t.heap.Clean v) ∧
      (∀ o, .track o ∈ acts → t.heap.Clean (.object o)) ∧
      (∀ r ∈ t.build.objects, t.heap.Clean (.object r.object)) ∧
      (∀ name waiters, t.build.stateOf? name ≠ some (.building waiters)) ∧
      (∀ d, some d ∉ t.build.deferred) ∧ ∀ d, some d ∉ t.build.deferredNames := by
  unfold resolve at h
  split at h
  · have := Run.ended_iff.mp h
    exact absurd (congrArg Prod.fst this) (by simp [pure])
  · obtain ⟨root, u, -, hpass⟩ := Run.ended_bind h
    obtain ⟨l, conducts, -, result⟩ := (pass_after k steps root u).of_ended hpass
    obtain ⟨acts, hacts, trace⟩ := conducts.trace
    have balanced := (Ledger.Accounted.start u.build root).trace trace
    have build : l.build = t.build := conducts.build
    have settled : t.build.unsettled t.heap = none ∧ registry = t.build.registry := by
      rw [← build]
      cases hu : l.build.unsettled t.heap with
      | none => rw [hu] at result; exact ⟨rfl, by simpa using result⟩
      | some names => rw [hu] at result; exact absurd result (by simp)
    obtain ⟨hnone, rfl⟩ := settled
    obtain ⟨built, unparked, clean⟩ := (t.build.unsettled_eq_none_iff t.heap).mp hnone
    have objects : ∀ r ∈ t.build.objects, t.heap.Clean (.object r.object) := fun r hr =>
      clean _ (List.mem_append_right _ (List.mem_map.mpr ⟨r, hr, rfl⟩))
    have names : ∀ name waiters, t.build.stateOf? name ≠ some (.building waiters) := fun name ws hws =>
      absurd (built _ (Table.mem_of_lookup hws)) (by simp [NameState.value?])
    refine ⟨root, u, acts, hpass, hacts, fun name v hv => clean v (Build.mem_values_of_registry hv),
      fun o ho => ?_, objects, names, unparked, fun d hd => ?_⟩
    · obtain ⟨r, hr, rfl⟩ := trace.mem_objects (.inl ho)
      exact objects r (build ▸ hr)
    · obtain ⟨ws, hws⟩ := balanced.names.building_of_parked (build ▸ hd)
      exact names _ ws (build ▸ hws)

/-! ### A ring of components -/

/-- A container that constructs records. -/
def ofRecords : Container := ⟨.bare, .builtins, .standard⟩

/-- Two records that refer to each other, one of them from inside a list. -/
def ring : Configuration :=
  .make (.object
    [("a", .object [("-class", .string "record"), ("peer", .string "@named:b")]),
     ("b", .object [("-class", .string "record"), ("peers", .array [.string "@named:a"])])]) .standard

/-- The ring is resolved, and so nothing is left behind: its components lead to each other, and to no
placeholder. -/
theorem resolve_settled_ring :
    ∃ registry t, ofRecords.resolve 20 ring .start = some (.ok registry, t) ∧
      (∀ name v, registry.get? name = some v → t.heap.Clean v) ∧
      (∀ r ∈ t.build.objects, t.heap.Clean (.object r.object)) ∧
      (∀ name waiters, t.build.stateOf? name ≠ some (.building waiters)) ∧
      ∀ d, some d ∉ t.build.deferred := by
  have ends : Run.succeeds (ofRecords.resolve 20 ring) .start (fun _ _ => true) = true := by decide +kernel
  obtain ⟨registry, t, ended, -⟩ := Run.of_succeeds ends
  obtain ⟨root, u, acts, -, -, values, -, objects, names, parked, -⟩ := resolve_settled ended
  exact ⟨registry, t, ended, values, objects, names, parked⟩

end Container

end ObjectGraph
