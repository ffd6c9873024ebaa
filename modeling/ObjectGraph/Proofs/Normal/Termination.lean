import ObjectGraph.Proofs.Normal.Chain
import ObjectGraph.Proofs.Normal.Inside

/-!
# `Proofs.Normal.Termination` — normalizing ends if nothing is dereferenced

The chain of a node goes on as long as its data is new. There is no measure that falls with every step: a
parent may be larger than the node, and see another context. But the whole chain lies inside a realm, only
finitely much data fits that, and no data is seen twice; so the chain ends after as many steps at most as
there is data that fits.

Contents:
* `Realm.size`, `Realm.chain_inside`, `Realm.merged_inside`, `Realm.normalize_inside`;
* `Obtained`, `Obtained.exists_realm`, `normalize_terminates`.
-/

namespace ObjectGraph

open Run (Ends)

namespace Realm

open ObjectGraph.Configuration

variable {R : Realm} {env : Surroundings} {c : Configuration}

/-- How much data fits a realm. -/
noncomputable def size (R : Realm) : Nat := R.finite_fits.toFinset.card

/-- Different data that fits a realm is no more than the size of the realm. -/
theorem length_le_size {js : List Json} (nodup : js.Nodup) (h : ∀ j ∈ js, R.Fits j) :
    js.length ≤ R.size := by
  classical
  rw [← List.toFinset_card_of_nodup nodup]
  refine Finset.card_le_card fun j hj => ?_
  exact R.finite_fits.mem_toFinset.mpr (h j (List.mem_toFinset.mp hj))

/-- Nodes inside a realm of which no two have the same data are no more than the size of the realm. -/
theorem length_le_of_distinct {nodes : List Configuration} (distinct : Distinct nodes)
    (h : ∀ x ∈ nodes, R.Inside env x) : nodes.length ≤ R.size := by
  have fits : ∀ j ∈ nodes.map (·.data), R.Fits j := by
    intro j hj
    obtain ⟨x, hx, rfl⟩ := List.mem_map.mp hj
    exact (h x hx).own.data
  have nodup : (nodes.map (·.data)).Nodup := by
    refine List.pairwise_map.mpr (List.Pairwise.imp_of_mem (fun {a b} ha _ other same => ?_) distinct)
    rw [equals, ← same, (h a ha).own.data.proper.same_self] at other
    exact Bool.noConfusion other
  rw [← List.length_map (·.data)]
  exact length_le_size nodup fits

/-- The chain of a node inside a realm stays inside and ends, if it may be longer than the realm is large. -/
theorem chain_inside (hops n : Nat) {seen : List Configuration} {node : Configuration}
    (hn : R.Inside env node) (hs : ∀ x ∈ seen, R.Inside env x) (distinct : Distinct seen)
    (enough : R.size < n + seen.length) :
    Ends (chain env hops n seen node) fun nodes => ∀ x ∈ nodes, R.Inside env x := by
  induction n generalizing seen node with
  | zero =>
      have few := length_le_of_distinct distinct hs
      omega
  | succ n ih =>
      have more : ∀ x ∈ seen ++ [node], R.Inside env x := by
        intro x hx
        rcases List.mem_append.mp hx with hx | hx
        · exact hs x hx
        · exact List.mem_singleton.mp hx ▸ hn
      rw [chain]
      split
      · exact (Ends.report _ _ _ _).bind fun _ _ => .pure hs
      next new =>
        refine (parent?_inside hn hops).bind fun parent hp => ?_
        cases parent with
        | none => exact .pure more
        | some p =>
            refine ih (hp p rfl) more (distinct.append new) ?_
            rw [List.length_append, List.length_singleton]
            omega

/-! ## The result -/

/-- What has been merged of a chain inside a realm. -/
theorem overlayNode_fits {nodes : List Configuration} (hn : ∀ x ∈ nodes, R.Inside env x)
    {acc : List (String × Json) × Params × Origin} (hd : R.Fits (.object acc.1)) (hb : R.Binds acc.2.1) :
    R.Fits (.object (nodes.foldl overlayNode acc).1) ∧ R.Binds (nodes.foldl overlayNode acc).2.1 := by
  induction nodes generalizing acc with
  | nil => exact ⟨hd, hb⟩
  | cons node nodes ih =>
      have own := (hn node List.mem_cons_self).own
      refine ih (fun x hx => hn x (List.mem_cons_of_mem _ hx)) ?_ ?_
      · unfold overlayNode
        split
        next ms hms =>
          have upper : R.Fits (.object ms) := hms ▸ own.data
          exact hd.overlay upper.2
        next => exact hd
      · unfold overlayNode
        split
        next => exact Binds.unite hb own.context
        next => exact hb

theorem merged_inside (hc : R.Inside env c) {nodes : List Configuration} (hn : ∀ x ∈ nodes, R.Inside env x) :
    R.Inside env (c.merged nodes) := by
  have nothing : R.Fits (.object []) := ⟨List.nodup_nil, fun _ hm => absurd hm List.not_mem_nil⟩
  have reverse : ∀ x ∈ nodes.reverse, R.Inside env x := fun x hx => hn x (List.mem_reverse.mp hx)
  have whole := @overlayNode_fits _ _ _ reverse ([], c.context, c.origin) nothing hc.own.context
  exact hc.derive (whole.1.filter _) whole.2 _

theorem normalize_inside (hc : R.Inside env c) (hops : Nat) {n : Nat} (enough : R.size < n) :
    Ends (c.normalize env hops n) (R.Inside env) := by
  unfold Configuration.normalize
  split
  · refine (flatten_inside hc hops).bind fun flat hf => ?_
    have ends := @chain_inside _ _ hops n [] flat hf (by simp) List.Pairwise.nil enough
    exact ends.bind fun nodes hn => .pure (merged_inside hc hn)
  · exact flatten_inside hc hops

end Realm

namespace Configuration

variable {env : Surroundings} {c d : Configuration}

/-! ## What comes of roots that dereference nothing -/

/-- The nodes that come of roots whose handlers dereference nothing: by reading, as children, with parameters
that were data, by merging and by normalizing. -/
inductive Obtained (env : Surroundings) : Configuration → Prop
  | root {data : Json} {handler : Handler} (proper : data.Proper) (inert : handler.Inert env) :
      Obtained env (.make data handler)
  | strict {c : Configuration} (h : Obtained env c) (strict : Bool) : Obtained env (c.withStrict strict)
  | anchor {c : Configuration} (h : Obtained env c) : Obtained env c.root
  | child {c : Configuration} (h : Obtained env c) {data : Json} (proper : data.Proper) :
      Obtained env (c.child data)
  | parameters {c : Configuration} (h : Obtained env c) {params : List (String × Json)}
      (proper : ∀ p ∈ params, p.2.Proper) :
      Obtained env (c.withParameters (params.map fun p => (p.1, .ofJson p.2)))
  | mixin {c d : Configuration} (h : Obtained env c) (h' : Obtained env d) : Obtained env (c.mixin d)
  | extend {c d : Configuration} (h : Obtained env c) (h' : Obtained env d) : Obtained env (c.extend d)
  | value {c d : Configuration} (h : Obtained env c) {hops : Nat} {path : String} {s t : Session}
      (read : c.valueAt env hops path s = some (some (.configuration d), t)) : Obtained env d
  | node {c d : Configuration} (h : Obtained env c) {hops : Nat} {path : String} {s t : Session}
      (read : c.readNode env hops path s = some (some d, t)) : Obtained env d
  | listed {c d : Configuration} (h : Obtained env c) {hops : Nat} {path : String} {s t : Session}
      {ds : List Configuration} (read : c.readList env hops path s = some (ds, t)) (hd : d ∈ ds) :
      Obtained env d
  | flattened {c d : Configuration} (h : Obtained env c) {hops : Nat} {s t : Session}
      (flattened : c.flatten env hops s = some (d, t)) : Obtained env d
  | normalized {c d : Configuration} (h : Obtained env c) {hops n : Nat} {s t : Session}
      (normalized : c.normalize env hops n s = some (d, t)) : Obtained env d

open Realm in
/-- Such a node is inside a realm. -/
theorem Obtained.exists_realm (h : Obtained env c) : ∃ R : Realm, R.Inside env c := by
  induction h with
  | root proper inert =>
      obtain ⟨R, hj⟩ := exists_of_proper proper
      exact ⟨R, inside_make (fits_of_mem hj) inert⟩
  | strict _ b ih =>
      obtain ⟨R, hc⟩ := ih
      exact ⟨R, hc.withStrict b⟩
  | anchor _ ih =>
      obtain ⟨R, hc⟩ := ih
      exact ⟨R, hc.anchor⟩
  | child _ proper ih =>
      obtain ⟨R, hc⟩ := ih
      obtain ⟨S, hj⟩ := exists_of_proper proper
      exact ⟨R.union S, (hc.mono (le_union_left R S)).child (fits_of_mem (.inr hj))⟩
  | @parameters _ _ params proper ih =>
      obtain ⟨R, hc⟩ := ih
      have realms : ∀ j ∈ params.map Prod.snd, ∃ S : Realm, j ∈ S.data := by
        intro j hj
        obtain ⟨p, hp, rfl⟩ := List.mem_map.mp hj
        exact exists_of_proper (proper p hp)
      obtain ⟨S, hS⟩ := exists_of_forall realms
      refine ⟨R.union S, (hc.mono (le_union_left R S)).withParameters fun p hp => ?_⟩
      obtain ⟨q, hq, rfl⟩ := List.mem_map.mp hp
      exact ⟨q.2, .inr (hS _ (List.mem_map_of_mem hq)), rfl⟩
  | mixin _ _ ih ih' =>
      obtain ⟨R, hc⟩ := ih
      obtain ⟨S, hd⟩ := ih'
      exact ⟨R.union S, (hc.mono (le_union_left R S)).mixin (hd.mono (le_union_right R S))⟩
  | extend _ _ ih ih' =>
      obtain ⟨R, hc⟩ := ih
      obtain ⟨S, hd⟩ := ih'
      exact ⟨R.union S, (hc.mono (le_union_left R S)).extend (hd.mono (le_union_right R S))⟩
  | value _ read ih =>
      obtain ⟨R, hc⟩ := ih
      refine ⟨R, ?_⟩
      generalize hv : Value.configuration _ = v at read
      cases (valueAt_reads hc _ _ _).of_ended read v rfl with
      | node hd => exact Value.configuration.inj hv ▸ hd
      | text s => exact absurd hv (by simp)
      | @data j _ => cases j <;> simp [Value.ofJson] at hv
  | node _ read ih =>
      obtain ⟨R, hc⟩ := ih
      exact ⟨R, (readNode_inside hc _ _ _).of_ended read _ rfl⟩
  | listed _ read hd ih =>
      obtain ⟨R, hc⟩ := ih
      exact ⟨R, (readList_inside hc _ _ _).of_ended read _ hd⟩
  | flattened _ flattened ih =>
      obtain ⟨R, hc⟩ := ih
      exact ⟨R, (flatten_inside hc _ _).of_ended flattened⟩
  | @normalized _ _ _ _ n _ _ normalized ih =>
      obtain ⟨R, hc⟩ := ih
      have longer := normalize_of_le (Nat.le_max_left n (R.size + 1)) normalized
      exact ⟨R, (normalize_inside hc _ (Nat.lt_of_succ_le (Nat.le_max_right n _)) _).of_ended longer⟩

/-- Normalizing such a node ends: there is a bound on the length of its chain, and with it, in whatever
session, the node is normalized to one configuration, however much longer the chain might have been. -/
theorem normalize_terminates (h : Obtained env c) :
    ∃ bound, ∀ hops s, ∃ d t, ∀ n, bound ≤ n → c.normalize env hops n s = some (d, t) := by
  obtain ⟨R, hc⟩ := h.exists_realm
  refine ⟨R.size + 1, fun hops s => ?_⟩
  obtain ⟨d, t, ended, -⟩ := (Realm.normalize_inside hc hops (Nat.lt_succ_self R.size) s).ends fun _ => id
  exact ⟨d, t, fun n le => normalize_of_le le ended⟩

/-- Two maps that extend each other. -/
def circular : Json :=
  .object [("a", .object [("*extends", .string "#b"), ("x", .number (.ofInt 1))]),
    ("b", .object [("*extends", .string "#a"), ("y", .number (.ofInt 2))])]

/-- The first of the maps as a node is normalized. -/
theorem normalize_terminates_circular :
    Obtained (.ofHost .bare) ((make circular .empty).child
        (.object [("*extends", .string "#b"), ("x", .number (.ofInt 1))])) ∧
      ∃ bound, ∀ hops s, ∃ d t, ∀ n, bound ≤ n → ((make circular .empty).child
        (.object [("*extends", .string "#b"), ("x", .number (.ofInt 1))])).normalize (.ofHost .bare) hops n s
          = some (d, t) := by
  have map : ∀ text key n, (Table.keys [("*extends", Json.string text), (key, .number n)]).Nodup →
      (Json.object [("*extends", .string text), (key, .number n)]).Proper := by
    intro text key n nodup
    refine .object nodup fun m hm => ?_
    rcases List.mem_pair.mp hm with rfl | rfl
    · exact .string _
    · exact .number _
  have first := map "#b" "x" (.ofInt 1) (by decide)
  have second := map "#a" "y" (.ofInt 2) (by decide)
  have whole : circular.Proper := .object (by decide) fun m hm => by
    rcases List.mem_pair.mp hm with rfl | rfl
    · exact first
    · exact second
  have obtained := (Obtained.root whole (Handler.inert_empty (.ofHost .bare))).child first
  exact ⟨obtained, normalize_terminates obtained⟩

end Configuration

end ObjectGraph
