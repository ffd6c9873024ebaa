import ObjectGraph.Build.Container
import ObjectGraph.Proofs.Keys

/-!
# `Proofs.Completion.Sequence` — the order in which names are built

Two rows of names are gone through, the priority names and the keys of the root, and a name is taken when it
is met for the first time, if it is to be built at all. What comes out is told by the two rows: the priority
names that are to be built, each where it is mentioned first, and then the keys that are to be built and are
no priority names, as they are declared.

Contents:
* `Row.nodup_eraseDups`, `Row.eraseDups_of_nodup`;
* `Container.buildable`, `Container.buildable_iff`, `Container.buildableNames_eq`;
* `Container.nodup_buildOrder`, `Container.mem_buildOrder_iff`, `Container.buildOrder_eq`.
-/

namespace ObjectGraph

namespace Row

variable {α : Type} [DecidableEq α]

/-- In order of first mention nothing is repeated. -/
theorem nodup_eraseDups : ∀ l : List α, l.eraseDups.Nodup
  | [] => List.nodup_nil
  | a :: l => by
      rw [List.eraseDups_cons, List.nodup_cons]
      refine ⟨fun hm => ?_, nodup_eraseDups (l.filter fun b => !b == a)⟩
      rw [List.mem_eraseDups] at hm
      simpa using (List.mem_filter.mp hm).2
termination_by l => l.length
decreasing_by exact Nat.lt_succ_of_le (List.length_filter_le _ l)

/-- A row without repetition is in order of first mention. -/
theorem eraseDups_of_nodup {l : List α} (h : l.Nodup) : l.eraseDups = l := by
  induction l with
  | nil => rfl
  | cons a l ih =>
      obtain ⟨ha, hl⟩ := List.nodup_cons.mp h
      have others : (l.filter fun b => !b == a) = l := by
        refine List.filter_eq_self.mpr fun b hb => ?_
        have ne : b ≠ a := fun e => ha (e ▸ hb)
        simpa using ne
      rw [List.eraseDups_cons, others, ih hl]

end Row

namespace Container

/-- The name is no key that says how to build, and does not begin with a dash. -/
def buildable (name : String) : Bool := !isDirective name && name.toList.head? != some '-'

theorem buildable_iff {name : String} :
    buildable name = true ↔ isDirective name = false ∧ name.toList.head? ≠ some '-' := by
  unfold buildable
  rw [Bool.and_eq_true, Bool.not_eq_true', bne_iff_ne]

/-- Going through names takes those that are to be built and have not been taken, each once. -/
theorem buildableNames_eq (root : Configuration) (done names : List String) :
    buildableNames root done names
      = done ++ (names.filter fun n => buildable n && root.has n && !done.contains n).eraseDups := by
  induction names generalizing done with
  | nil => simp [buildableNames]
  | cons name names ih =>
      have guard : (isDirective name || name.toList.head? == some '-' || done.contains name || !root.has name)
          = !(buildable name && root.has name && !done.contains name) := by
        unfold buildable bne
        cases isDirective name <;> cases name.toList.head? == some '-' <;> cases done.contains name <;>
          cases root.has name <;> rfl
      unfold buildableNames
      rw [guard, List.filter_cons]
      cases (buildable name && root.has name && !done.contains name) with
      | false => rw [Bool.not_false, if_pos rfl, if_neg Bool.false_ne_true, ih]
      | true =>
        -- a name that has been taken is not taken again
        have apart : (names.filter fun n => buildable n && root.has n && !(done ++ [name]).contains n)
            = (names.filter fun n => buildable n && root.has n && !done.contains n).filter (!· == name) := by
          rw [List.filter_filter]
          refine List.filter_congr fun n _ => ?_
          by_cases h : n = name <;> simp [h]
        rw [Bool.not_true, if_neg Bool.false_ne_true, if_pos rfl, ih, List.eraseDups_cons, apart,
          List.append_assoc]
        rfl

theorem buildOrder_eq_eraseDups (priority : List String) (root : Configuration) :
    buildOrder priority root
      = ((priority ++ root.keys).filter fun n => buildable n && root.has n).eraseDups := by
  rw [buildOrder, buildableNames_eq, List.nil_append]
  simp

/-- No name is built twice. -/
theorem nodup_buildOrder (priority : List String) (root : Configuration) :
    (buildOrder priority root).Nodup := by
  rw [buildOrder_eq_eraseDups]
  exact Row.nodup_eraseDups _

theorem mem_buildOrder_iff {priority : List String} {root : Configuration} {n : String} :
    n ∈ buildOrder priority root
      ↔ (n ∈ priority ∨ n ∈ root.keys) ∧ buildable n = true ∧ root.has n = true := by
  rw [buildOrder_eq_eraseDups, List.mem_eraseDups, List.mem_filter, List.mem_append, Bool.and_eq_true]

variable {root : Configuration} {members : List (String × Json)} {priority : List String}

/-- If all keys are names, the root has a name if it is one of them. -/
theorem has_iff_mem_keys (hdata : root.data = .object members) {n : String} (hn : IsName n) :
    root.has n = true ↔ n ∈ Table.keys members := by
  rw [Configuration.has_of_isName hn, hdata, Table.mem_keys_iff]
  rfl

/-- The priority names that are to be built are built in order of first mention, and then the other keys that
are to be built, as they are declared. -/
theorem buildOrder_eq (hdata : root.data = .object members) (hnodup : (Table.keys members).Nodup)
    (hkeys : ∀ n ∈ Table.keys members, IsName n) (hpriority : ∀ n ∈ priority, IsName n) :
    buildOrder priority root
      = (priority.filter fun n => buildable n && decide (n ∈ Table.keys members)).eraseDups ++
        (Table.keys members).filter fun n => buildable n && decide (n ∉ priority) := by
  have first : (priority.filter fun n => buildable n && root.has n)
      = priority.filter fun n => buildable n && decide (n ∈ Table.keys members) := by
    refine List.filter_congr fun n hn => ?_
    rw [Bool.eq_iff_iff, Bool.and_eq_true, Bool.and_eq_true, has_iff_mem_keys hdata (hpriority n hn),
      decide_eq_true_iff]
  have rest : ((Table.keys members).filter fun n => buildable n && root.has n).removeAll
        (priority.filter fun n => buildable n && root.has n)
      = (Table.keys members).filter fun n => buildable n && decide (n ∉ priority) := by
    rw [List.removeAll, List.filter_filter]
    refine List.filter_congr fun n hn => ?_
    have there : root.has n = true := (has_iff_mem_keys hdata (hkeys n hn)).mpr hn
    by_cases hb : buildable n = true <;> by_cases hp : n ∈ priority <;> simp [there, hb, hp]
  rw [buildOrder_eq_eraseDups, Configuration.keys_of_object hdata, List.filter_append, List.eraseDups_append, rest, first,
    Row.eraseDups_of_nodup (hnodup.filter _)]

end Container

end ObjectGraph
