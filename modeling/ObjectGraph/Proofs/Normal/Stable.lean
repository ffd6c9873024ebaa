import ObjectGraph.Configuration.Merge
import ObjectGraph.Proofs.Keys

/-!
# `Proofs.Normal.Stable` — nodes that are normalized already

A node without a key that says what to merge has no mixins and extends nothing. So its chain is the node alone,
and what is merged of that is the node again, if it repeats no key.

Contents:
* `Unmerged`, `Unmerged.has`;
* `flatten_of_unmerged`, `chain_of_unmerged`;
* `unite_self`, `normalize_object`, `normalize_array`.
-/

namespace ObjectGraph.Configuration

variable {c : Configuration} {key : String}

/-- The node has no key that says what to merge. -/
def Unmerged (c : Configuration) : Prop := ∀ key ∈ directiveKeys, c.data.child? key = none

theorem isName_of_directive (hk : key ∈ directiveKeys) : IsName key := by
  have names : ∀ k ∈ directiveKeys, IsName k := by decide
  exact names key hk

theorem Unmerged.has (hc : c.Unmerged) (hk : key ∈ directiveKeys) : c.has key = false := by
  rw [has_of_isName (isName_of_directive hk), hc key hk]
  rfl

theorem flatten_of_unmerged (env : Surroundings) (hops : Nat) (hc : c.Unmerged) :
    c.flatten env hops = pure c := by
  have config : c.has configKey = false := hc.has (by decide)
  have mixin : c.has mixinKey = false := hc.has (by decide)
  have mixins : c.has mixinsKey = false := hc.has (by decide)
  unfold flatten Configuration.mixins mixinAt
  rw [config, mixin, mixins]
  rfl

theorem chain_of_unmerged (env : Surroundings) (hops n : Nat) (hc : c.Unmerged) :
    chain env hops (n + 1) [] c = pure [c] := by
  have parent : c.has extendsKey = false := hc.has (by decide)
  unfold chain parent?
  rw [parent]
  rfl

theorem unite_self (context : Params) (origin : Origin) : unite (context, origin) context = (context, origin) := by
  have all : context.all (fun p => Table.has context p.1) = true :=
    List.all_eq_true.mpr fun _ hp => Table.mem_keys_iff.mp (List.mem_map_of_mem hp)
  unfold unite
  rw [if_pos all]

/-- A map without double keys and without keys that say what to merge is normalized already. -/
theorem normalize_object (env : Surroundings) (hops n : Nat) {members : List (String × Json)}
    (hd : c.data = .object members) (hn : (Table.keys members).Nodup) (hc : c.Unmerged) :
    c.normalize env hops (n + 1) = pure c := by
  have strip : stripDirectives members = members := by
    refine List.filter_eq_self.mpr fun m hm => ?_
    have there : members.lookup m.1 = some m.2 := Table.lookup_of_mem hn hm
    have other : m.1 ∉ directiveKeys := by
      intro mem
      have absent : c.data.child? m.1 = none := hc m.1 mem
      rw [hd] at absent
      exact absurd (there.symm.trans absent) (by simp)
    simpa using other
  have merged : c.merged [c] = c := by
    simp only [Configuration.merged, List.reverse_singleton, List.foldl_cons, List.foldl_nil, overlayNode, hd,
      Table.overlay_nil hn, unite_self, strip]
    rw [← hd]
    cases c
    rfl
  unfold normalize
  rw [hd, flatten_of_unmerged env hops hc]
  show (chain env hops (n + 1) [] c >>= fun chain => pure (c.merged chain)) = pure c
  rw [chain_of_unmerged env hops n hc]
  show (pure (c.merged [c]) : Run Configuration) = pure c
  rw [merged]

/-- A list is normalized already. -/
theorem normalize_array (env : Surroundings) (hops n : Nat) {items : List Json}
    (hd : c.data = .array items) : c.normalize env hops n = pure c := by
  have positions : ∀ k ∈ directiveKeys, Json.index? k = none := by decide +kernel
  have unmerged : c.Unmerged := by
    intro key hk
    rw [hd]
    show (Json.index? key).bind _ = none
    rw [positions key hk]
    rfl
  unfold normalize
  rw [hd]
  exact flatten_of_unmerged env hops unmerged

end ObjectGraph.Configuration
