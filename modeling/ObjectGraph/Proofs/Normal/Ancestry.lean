import ObjectGraph.Proofs.Normal.Chain

/-!
# `Proofs.Normal.Ancestry` — which ancestors are merged

A node's ancestors are reached by taking, again and again, the flattened configuration that a node extends.
Which that is depends on the node's data, but also on the context it sees, on its root and on its handler. The
chain of `normalize` looks at the data alone: it ends where data comes again. So if the ancestors of a node come
to an end, those before the first whose data has been seen are merged, each key with the value of the nearest
that has it (`normalize_merges`). If no two of them have the same data these are all (`normalize_merges_all`). But
ancestors with the same data are not the same: `not_normalize_merges` shows a node whose second ancestor is
lost, because the first has the data of the node, with another parameter.

Contents:
* `climb`, the way up, with `climb_cases`; `chain_of_climb`;
* `at?`, `lookup_overlayNode`, `lookup_stripDirectives`, `at?_merged`: what merging leaves under a key;
* `normalize_merges`, `normalize_merges_all`, `not_normalize_merges`.
-/

namespace ObjectGraph.Configuration

variable {env : Surroundings} {hops : Nat} {c d : Configuration}

/-! ## The way up -/

/-- A node and its ancestors, `k` of them at most, and the next one if there is one. -/
def climb (env : Surroundings) (hops : Nat) :
    Nat → Configuration → Run (List Configuration × Option Configuration)
  | 0, node => return ([], some node)
  | k + 1, node => do
      match ← node.parent? env hops with
      | none => return ([node], none)
      | some p => do
          let (nodes, next) ← climb env hops k p
          return (node :: nodes, next)

/-- The way up from a node that comes to an end: the node extends nothing, or the way goes on from what it
extends. -/
theorem climb_cases {k : Nat} {kept : List Configuration} {node : Configuration} {s u : Session}
    (h : climb env hops k node s = some ((kept, none), u)) :
    ∃ j t, k = j + 1 ∧
      (node.parent? env hops s = some (none, t) ∧ kept = [node] ∨
        ∃ p nodes, node.parent? env hops s = some (some p, t) ∧ kept = node :: nodes ∧
          climb env hops j p t = some ((nodes, none), u)) := by
  cases k with
  | zero => exact absurd (Run.ended_iff.mp h) (by simp [climb, Pure.pure])
  | succ j =>
      obtain ⟨parent, t, found, above⟩ := Run.ended_bind h
      refine ⟨j, t, rfl, ?_⟩
      cases parent with
      | none =>
          cases Run.ended_iff.mp above
          exact .inl ⟨found, rfl⟩
      | some p =>
          obtain ⟨⟨nodes, next⟩, v, higher, last⟩ := Run.ended_bind above
          cases Run.ended_iff.mp last
          exact .inr ⟨p, nodes, found, rfl, higher⟩

/-- If the way up comes to an end, the chain takes it up to the first node whose data has been seen. -/
theorem chain_of_climb {k n : Nat} {seen kept : List Configuration} {node : Configuration} {s u : Session}
    (climbed : climb env hops k node s = some ((kept, none), u)) (distinct : Distinct seen)
    (enough : kept.length < n) :
    ∃ taken rest v, kept = taken ++ rest ∧ chain env hops n seen node s = some (seen ++ taken, v) ∧
      Distinct (seen ++ taken) ∧ ∀ p ∈ rest.head?, (seen ++ taken).any (·.equals p) = true := by
  induction k generalizing n seen kept node s with
  | zero =>
      obtain ⟨_, _, none, -⟩ := climb_cases climbed
      exact absurd none (by simp)
  | succ k ih =>
      obtain ⟨n, rfl⟩ := Nat.exists_eq_add_one_of_ne_zero (Nat.ne_zero_of_lt enough)
      obtain ⟨j, t, same, way⟩ := climb_cases climbed
      obtain rfl : k = j := Nat.succ_inj.mp same
      by_cases old : seen.any (·.equals node) = true
      · -- the chain ends before the node
        have first : kept.head? = some node := by
          rcases way with ⟨-, rfl⟩ | ⟨p, nodes, -, rfl, -⟩ <;> rfl
        obtain ⟨v, ended⟩ := @chain_of_seen env hops seen node old n s
        refine ⟨[], kept, v, rfl, ?_, ?_, fun p hp => ?_⟩
        · rwa [List.append_nil]
        · rwa [List.append_nil]
        · obtain rfl : node = p := Option.some.inj (first.symm.trans hp)
          rwa [List.append_nil]
      · rw [chain, if_neg old]
        have longer := distinct.append old
        rcases way with ⟨found, rfl⟩ | ⟨p, nodes, found, rfl, higher⟩
        · exact ⟨[node], [], t, rfl, Run.ended_row found rfl, longer, by simp⟩
        · obtain ⟨taken, rest, v, rfl, ended, apart, stop⟩ :=
            ih higher longer (Nat.lt_of_succ_lt_succ enough)
          rw [List.append_assoc] at ended apart stop
          exact ⟨node :: taken, rest, v, rfl, Run.ended_row found ended, apart, stop⟩

/-! ## What is merged -/

/-- What a node has under a key, before it is resolved. -/
def at? (node : Configuration) (key : String) : Option Json := (members node.data).lookup key

theorem lookup_overlayNode {node : Configuration} (proper : (Table.keys (members node.data)).Nodup)
    (acc : List (String × Json) × Params × Origin) (key : String) :
    (overlayNode acc node).1.lookup key = (node.at? key).or (acc.1.lookup key) := by
  unfold overlayNode at?
  cases h : node.data with
  | object ms =>
      rw [h] at proper
      dsimp only [members] at proper ⊢
      rw [Table.lookup_overlay, Table.lookup_reverse proper]
  | _ => rfl

/-- Of the nodes that are merged, the nearest that has a key counts. -/
theorem lookup_foldl_overlayNode {nodes : List Configuration}
    (proper : ∀ node ∈ nodes, (Table.keys (members node.data)).Nodup)
    (acc : List (String × Json) × Params × Origin) (key : String) :
    (nodes.reverse.foldl overlayNode acc).1.lookup key
      = (nodes.findSome? (·.at? key)).or (acc.1.lookup key) := by
  induction nodes with
  | nil => rfl
  | cons node nodes ih =>
      rw [List.reverse_cons, List.foldl_append, List.foldl_cons, List.foldl_nil,
        lookup_overlayNode (proper node List.mem_cons_self),
        ih fun x hx => proper x (List.mem_cons_of_mem _ hx), List.findSome?_cons]
      cases node.at? key <;> rfl

theorem lookup_stripDirectives (ms : List (String × Json)) (key : String) :
    (stripDirectives ms).lookup key = if key ∈ directiveKeys then none else ms.lookup key := by
  rw [stripDirectives, Table.lookup_filter fun k => !directiveKeys.contains k]
  by_cases h : key ∈ directiveKeys <;> simp [h]

/-- What the result of merging has under a key. -/
theorem at?_merged (c : Configuration) {nodes : List Configuration}
    (proper : ∀ node ∈ nodes, (Table.keys (members node.data)).Nodup) (key : String) :
    (c.merged nodes).at? key = if key ∈ directiveKeys then none else nodes.findSome? (·.at? key) := by
  show (stripDirectives _).lookup key = _
  rw [lookup_stripDirectives, lookup_foldl_overlayNode proper]
  simp

/-- A map is normalized once the chain of what it is flattened to has ended. -/
theorem normalize_of_chain {n : Nat} {flat : Configuration} {nodes : List Configuration} {s t v : Session}
    (object : c.data.isObject = true) (flattened : c.flatten env hops s = some (flat, t))
    (ended : chain env hops n [] flat t = some (nodes, v)) :
    c.normalize env hops n s = some (c.merged nodes, v) := by
  unfold normalize
  rw [if_pos object]
  exact Run.ended_row flattened (Run.ended_row ended rfl)

/-- Nodes without the same data go on with none whose data has been seen. -/
theorem Distinct.eq_nil {nodes rest : List Configuration} (h : Distinct (nodes ++ rest))
    (stop : ∀ p ∈ rest.head?, nodes.any (·.equals p) = true) : rest = [] := by
  cases rest with
  | nil => rfl
  | cons p rest =>
      obtain ⟨a, ha, same⟩ := List.any_eq_true.mp (stop p rfl)
      have other := (List.pairwise_append.mp h).2.2 a ha p List.mem_cons_self
      exact absurd same (Bool.eq_false_iff.mp other)

/-- If the way up from a map comes to an end, the map is normalized. What is merged are the nodes on the way up
to the first whose data has been seen, and no key that says what to merge is left; any other key has the
value of the nearest of these nodes that has it. -/
theorem normalize_merges {k n : Nat} {flat : Configuration} {kept : List Configuration} {s t u : Session}
    (object : c.data.isObject = true) (flattened : c.flatten env hops s = some (flat, t))
    (climbed : climb env hops k flat t = some ((kept, none), u))
    (proper : ∀ node ∈ kept, (Table.keys (members node.data)).Nodup) (enough : kept.length < n) :
    ∃ taken rest d v, kept = taken ++ rest ∧ Distinct taken ∧
      (∀ p ∈ rest.head?, taken.any (·.equals p) = true) ∧ c.normalize env hops n s = some (d, v) ∧
      ∀ key, d.at? key = if key ∈ directiveKeys then none else taken.findSome? (·.at? key) := by
  obtain ⟨taken, rest, v, rfl, ended, apart, stop⟩ :=
    @chain_of_climb env hops k n [] kept flat t u climbed List.Pairwise.nil enough
  refine ⟨taken, rest, c.merged taken, v, rfl, apart, stop, normalize_of_chain object flattened ended, ?_⟩
  exact at?_merged c fun x hx => proper x (List.mem_append_left _ hx)

/-- A map that extends another, and has one of its keys. -/
def scion : Configuration :=
  .make (.object [("*extends", .string "$p"), ("y", .bool true),
    ("$p", .object [("x", .bool false), ("y", .bool false)])]) .empty

/-- What the map extends. -/
def scionParent : Configuration := scion.child (.object [("x", .bool false), ("y", .bool false)])

theorem normalize_merges_scion :
    scion.flatten (.ofHost .bare) depthLimit Session.start = some (scion, Session.start) ∧
      climb (.ofHost .bare) depthLimit 2 scion Session.start
        = some (([scion, scionParent], none), Session.start) ∧
      ∃ taken rest d v, [scion, scionParent] = taken ++ rest ∧ Distinct taken ∧
        (∀ p ∈ rest.head?, taken.any (·.equals p) = true) ∧
        scion.normalize (.ofHost .bare) depthLimit 3 Session.start = some (d, v) ∧
        ∀ key, d.at? key = if key ∈ directiveKeys then none else taken.findSome? (·.at? key) := by
  have flattened : scion.flatten (.ofHost .bare) depthLimit Session.start = some (scion, Session.start) := rfl
  have climbed : climb (.ofHost .bare) depthLimit 2 scion Session.start
      = some (([scion, scionParent], none), Session.start) := rfl
  have proper : ∀ node ∈ [scion, scionParent], (Table.keys (members node.data)).Nodup := by
    intro node hn
    rcases List.mem_cons.mp hn with rfl | hn
    · decide
    · obtain rfl := List.mem_singleton.mp hn
      decide
  exact ⟨flattened, climbed, normalize_merges rfl flattened climbed proper (by decide)⟩

/-- If no two nodes on the way have the same data, all of them are merged. -/
theorem normalize_merges_all {k n : Nat} {flat : Configuration} {kept : List Configuration} {s t u : Session}
    (object : c.data.isObject = true) (flattened : c.flatten env hops s = some (flat, t))
    (climbed : climb env hops k flat t = some ((kept, none), u))
    (proper : ∀ node ∈ kept, (Table.keys (members node.data)).Nodup) (distinct : Distinct kept)
    (enough : kept.length < n) :
    ∃ d v, c.normalize env hops n s = some (d, v) ∧
      ∀ key, d.at? key = if key ∈ directiveKeys then none else kept.findSome? (·.at? key) := by
  obtain ⟨taken, rest, v, rfl, ended, -, stop⟩ :=
    @chain_of_climb env hops k n [] kept flat t u climbed List.Pairwise.nil enough
  obtain rfl := distinct.eq_nil stop
  rw [List.append_nil] at proper ⊢
  exact ⟨c.merged taken, v, normalize_of_chain object flattened ended, at?_merged c proper⟩

/-! ### An ancestor that is lost -/

/-- A map that extends a map that extends another. The first two have the same data, and see different
parameters. -/
def heir : Configuration :=
  .make (.object [("*extends", .string "$p"), ("$p", .object [("*extends", .string "$p"),
    ("$p", .object [("x", .bool true)])])]) .empty

/-- What the map extends. -/
def heirParent : Configuration :=
  heir.child (.object [("$p", .object [("x", .bool true)]), ("*extends", .string "$p")])

/-- What that extends in turn. -/
def founder : Configuration := heirParent.child (.object [("x", .bool true)])

/-- The way up from a map may come to an end, and what is there be lost all the same: the chain of the heir
ends before its parent, whose data is the heir's, and so does not come to the founder. -/
theorem not_normalize_merges :
    ¬ ∀ (env : Surroundings) (hops k n : Nat) (c flat d : Configuration) (kept : List Configuration)
        (s t u v : Session), c.data.isObject = true → c.flatten env hops s = some (flat, t) →
      climb env hops k flat t = some ((kept, none), u) → c.normalize env hops n s = some (d, v) →
      ∀ key, key ∉ directiveKeys → d.at? key = kept.findSome? (·.at? key) := by
  intro merges
  have flattened : heir.flatten (.ofHost .bare) depthLimit Session.start = some (heir, Session.start) := rfl
  have climbed : climb (.ofHost .bare) depthLimit 3 heir Session.start
      = some (([heir, heirParent, founder], none), Session.start) := rfl
  have normalized : ∃ v, heir.normalize (.ofHost .bare) depthLimit 4 Session.start
      = some (heir.merged [heir], v) := ⟨_, rfl⟩
  obtain ⟨v, normalized⟩ := normalized
  have all := merges _ _ _ _ _ _ _ _ _ _ _ _ rfl flattened climbed normalized "x" (by decide)
  have lost : (heir.merged [heir]).at? "x" = none := rfl
  have there : [heir, heirParent, founder].findSome? (·.at? "x") = some (.bool true) := rfl
  rw [lost, there] at all
  exact absurd all (by simp)

end ObjectGraph.Configuration
