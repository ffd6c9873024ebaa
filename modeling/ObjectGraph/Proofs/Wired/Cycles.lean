import Mathlib.Data.Fintype.Card
import Mathlib.Data.Fintype.EquivFin
import Mathlib.Data.Fintype.Sets
import ObjectGraph.Proofs.Wired.Outcome

/-!
# `Proofs.Wired.Cycles` — exactly the cycles of lists and maps fail

If every entry of a root leads, a pass gets to every name that needs another by value, so it fails just if
some name is not grounded. There are finitely many names, and so that is just if some of them need each other
in a circle. A circle of references that passes through a property of a component is no such circle: the
component is there before its properties are, and takes what it lacks later.

Contents:
* `reached_of_needs`;
* `grounded_of_acyclic`, `grounded_iff_acyclic`;
* `Container.resolve_fails_iff`, and a knot for which it fails.
-/

namespace ObjectGraph

open Json (classOf?)
open Relation (TransGen)

/-- If there is no circle, everything is grounded: there are not enough names to go on for ever. -/
theorem grounded_of_acyclic {members : List (String × Json)} (h : ∀ n, ¬ TransGen (Needs members) n n)
    (n : String) : Grounded members n := by
  have absent : ∀ m, m ∉ Table.keys members → Grounded members m := by
    refine fun m hm => ⟨m, fun l hl => ?_⟩
    obtain ⟨j, hj, -⟩ := hl
    exact absurd (List.mem_map_of_mem (Table.mem_of_lookup hj)) hm
  let needed (m n : { m // m ∈ Table.keys members }) : Prop := TransGen (Needs members) n.1 m.1
  have : IsTrans _ needed := ⟨fun _ _ _ hab hbc => TransGen.trans hbc hab⟩
  have : Std.Irrefl needed := ⟨fun m => h m.1⟩
  have wellFounded : WellFounded needed := Finite.wellFounded_of_trans_of_irrefl needed
  have present : ∀ m : { m // m ∈ Table.keys members }, Grounded members m.1 := by
    intro m
    induction m using wellFounded.induction with
    | _ m ih =>
        refine ⟨m.1, fun l hl => ?_⟩
        by_cases hk : l ∈ Table.keys members
        · exact ih ⟨l, hk⟩ (.single hl)
        · exact absent l hk
  by_cases hn : n ∈ Table.keys members
  · exact present ⟨n, hn⟩
  · exact absent n hn

namespace PlainRoot

variable {k : Container} {R : PlainRoot k} {n m : String}

/-- A name that needs something is got to, if every entry but a class leads. -/
theorem reached_of_needs (hkeys : ∀ e ∈ R.members, e.1 ≠ Container.classKey → e.1.toList.head? ≠ some '-')
    (hn : Needs R.members n m) : R.Reached n := by
  obtain ⟨j, hj, hv⟩ := hn
  have mem := Table.mem_of_lookup hj
  by_cases hclass : n = Container.classKey
  -- a class is a text that stands for itself
  · subst hclass
    cases R.plain with
    | object nodup keys hint entries =>
        obtain ⟨c, rfl, unprefixed, -⟩ := hint j mem
        cases hv with
        | reference hs => exact absurd unprefixed hs.not_unprefixed
  · refine .leading ⟨?_, (R.plain.plainKey mem).isDirective_eq_false hclass, hkeys _ mem hclass⟩
    rw [hj]
    rfl

/-- All that a pass gets to is grounded just if no names need each other in a circle. -/
theorem grounded_iff_acyclic
    (hkeys : ∀ e ∈ R.members, e.1 ≠ Container.classKey → e.1.toList.head? ≠ some '-') :
    (∀ n, R.Reached n → Grounded R.members n) ↔ ∀ n, ¬ TransGen (Needs R.members) n n := by
  constructor
  · intro h n hc
    obtain ⟨m, hm, -⟩ := TransGen.head'_iff.mp hc
    exact (h n (reached_of_needs hkeys hm)).not_cycle hc
  · exact fun h n _ => grounded_of_acyclic h n

end PlainRoot

namespace Container

variable {k : Container} {c : Configuration} {members : List (String × Json)}

/-- Exactly the circles of lists, maps and references fail. Resolving plain data all of whose entries lead
ends, in whatever order, and it fails for placeholders left just if some names need each other by value in a
circle; otherwise it succeeds. -/
theorem resolve_fails_iff (hc : PlainConfiguration k c members)
    (hkeys : ∀ e ∈ members, e.1 ≠ classKey → e.1.toList.head? ≠ some '-') {steps : Nat}
    (hsteps : passSteps members ≤ steps) {s : Session} (hp : ∀ n ∈ s.build.priority, IsName n) :
    ∃ r t, k.resolve steps c s = some (r, t) ∧
      ((∃ names, r = .error (.unresolvedPending names)) ↔ ∃ n, TransGen (Needs members) n n) ∧
      ((∃ registry, r = .ok registry) ↔ ∀ n, ¬ TransGen (Needs members) n n) := by
  obtain ⟨r, t, ended, rfl, w, hf⟩ := (resolve_finishes hc steps hp).ends fun _ => Nat.not_lt.mpr hsteps
  have settled : t.build.unsettled t.heap = none ↔ ∀ n, ¬ TransGen (Needs members) n n :=
    hf.unsettled_eq_none_iff.trans (PlainRoot.grounded_iff_acyclic hkeys)
  refine ⟨_, t, ended, ?_, ?_⟩
  · rw [← not_forall_not (p := fun n => TransGen (Needs members) n n), ← settled]
    unfold Session.outcome
    cases hu : t.build.unsettled t.heap with
    | none => exact iff_of_false (by simp) (by simp)
    | some names => exact iff_of_true ⟨names, rfl⟩ (by simp)
  · exact Session.outcome_ok_iff.trans settled

/-- The members of a knot: a list refers to a map, and the map refers to the list. -/
def knotMembers : List (String × Json) :=
  [("a", .array [.string "@named:b"]), ("b", .object [("x", .string "@named:a")])]

/-- The knot is plain data. -/
theorem plain_knot : PlainConfiguration ofRecords (.make (.object knotMembers) .standard) knotMembers := by
  have a : Refers "@named:a" "a" := refers_of_eq (by decide +kernel) (by decide +kernel)
  have b : Refers "@named:b" "b" := refers_of_eq (by decide +kernel) (by decide +kernel)
  refine .make (.object (by decide +kernel) (by decide +kernel) (by simp [knotMembers, classKey]) ?_) fun _ _ => rfl
  refine List.forall_mem_cons.mpr ⟨fun _ => .array (by decide) ?_, List.forall_mem_singleton.mpr fun _ => ?_⟩
  · exact List.forall_mem_singleton.mpr (.reference b)
  · refine .object (by decide) (by decide +kernel) (by simp [classKey]) ?_
    exact List.forall_mem_singleton.mpr fun _ => .reference a

/-- The knot is not resolved, since `a` and `b` need each other by value. -/
theorem resolve_fails_knot :
    passSteps knotMembers ≤ 20 ∧ (∀ e ∈ knotMembers, e.1 ≠ classKey → e.1.toList.head? ≠ some '-') ∧
      (∀ n ∈ (session ["b"]).build.priority, IsName n) ∧ TransGen (Needs knotMembers) "a" "a" ∧
      ∃ names t, ofRecords.resolve 20 (.make (.object knotMembers) .standard) (session ["b"])
        = some (.error (.unresolvedPending names), t) := by
  have steps : passSteps knotMembers ≤ 20 := by decide +kernel
  have keys : ∀ e ∈ knotMembers, e.1 ≠ classKey → e.1.toList.head? ≠ some '-' := by decide +kernel
  have names : ∀ n ∈ (session ["b"]).build.priority, IsName n := by decide +kernel
  have circle : TransGen (Needs knotMembers) "a" "a" := by
    have a : Refers "@named:a" "a" := refers_of_eq (by decide +kernel) (by decide +kernel)
    have b : Refers "@named:b" "b" := refers_of_eq (by decide +kernel) (by decide +kernel)
    have forth : Needs knotMembers "a" "b" := ⟨_, rfl, .item (List.mem_singleton_self _) (.reference b)⟩
    have entry : Json.entryOf? [("x", .string "@named:a")] "x" = some (.string "@named:a") := rfl
    have back : Needs knotMembers "b" "a" := ⟨_, rfl, .entry rfl entry (.reference a)⟩
    exact .tail (.single forth) back
  obtain ⟨r, t, ended, fails, -⟩ := resolve_fails_iff plain_knot keys steps names
  obtain ⟨pending, rfl⟩ := fails.mpr ⟨"a", circle⟩
  exact ⟨steps, keys, names, circle, pending, t, ended⟩

end Container

end ObjectGraph
