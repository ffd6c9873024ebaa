import ObjectGraph.Configuration.Merge
import ObjectGraph.Proofs.Run

/-!
# `Proofs.Normal.Chain` — the chain of a node

The chain of a node goes on from parent to parent as long as the data is new, so no two of its nodes have the
same data. How many steps it may take is a bound only: a chain that ends is the same with more steps to go.

Contents:
* `Distinct`, `Distinct.append`, `chain_of_seen`;
* `chain_of_le`, `normalize_of_le`.
-/

namespace ObjectGraph.Configuration

variable {env : Surroundings} {hops : Nat} {c d : Configuration}

/-! ## Data that is new, and data that has been seen -/

/-- No two of the nodes have the same data. -/
def Distinct (nodes : List Configuration) : Prop := nodes.Pairwise fun a b => a.equals b = false

theorem Distinct.append {nodes : List Configuration} {node : Configuration} (h : Distinct nodes)
    (new : ¬ (nodes.any (·.equals node)) = true) : Distinct (nodes ++ [node]) := by
  refine List.pairwise_append.mpr ⟨h, List.pairwise_singleton _ _, fun a ha b hb => ?_⟩
  obtain rfl := List.mem_singleton.mp hb
  exact Bool.eq_false_iff.mpr fun same => new (List.any_eq_true.mpr ⟨a, ha, same⟩)

/-- A chain ends before data that has been seen. -/
theorem chain_of_seen {seen : List Configuration} {node : Configuration}
    (old : seen.any (·.equals node) = true) (n : Nat) (s : Session) :
    ∃ v, chain env hops (n + 1) seen node s = some (seen, v) := by
  rw [chain, if_pos old]
  exact ⟨_, rfl⟩

/-! ## More steps to go -/

/-- A chain that ends is the same if it may be longer. -/
theorem chain_of_le {n m : Nat} {seen nodes : List Configuration} {node : Configuration}
    {s t : Session} (le : n ≤ m) (h : chain env hops n seen node s = some (nodes, t)) :
    chain env hops m seen node s = some (nodes, t) := by
  induction n generalizing m seen node s with
  | zero => exact absurd (Run.ended_iff.mp h) (by simp [chain, Run.exhausted])
  | succ n ih =>
      obtain ⟨m, rfl⟩ := Nat.exists_eq_succ_of_ne_zero (Nat.ne_of_gt (Nat.lt_of_lt_of_le (Nat.succ_pos n) le))
      rw [chain] at h ⊢
      split at h
      next seen => rw [if_pos seen]; exact h
      next new =>
        rw [if_neg new]
        obtain ⟨parent, u, found, rest⟩ := Run.ended_bind h
        refine Run.ended_row found ?_
        cases parent with
        | none => exact rest
        | some p => exact ih (Nat.le_of_succ_le_succ le) rest

/-- A node that is normalized is normalized to the same if its chain may be longer. -/
theorem normalize_of_le {n m : Nat} {s t : Session} (le : n ≤ m)
    (h : c.normalize env hops n s = some (d, t)) : c.normalize env hops m s = some (d, t) := by
  unfold normalize at h ⊢
  split at h
  next object =>
    rw [if_pos object]
    obtain ⟨flat, u, flattened, rest⟩ := Run.ended_bind h
    obtain ⟨nodes, v, ended, done⟩ := Run.ended_bind rest
    exact Run.ended_row flattened (Run.ended_row (chain_of_le le ended) done)
  next other => rw [if_neg other]; exact h

end ObjectGraph.Configuration
