import ObjectGraph.Proofs.Normal.Ancestry

/-!
# `Proofs.Normal.Bindings` — which bindings are left

When a chain is merged its data is overlaid and its contexts are united, from the most distant ancestor down.
Data is overlaid so that the newcomer wins, but contexts are united so that what was there first wins. So a
parameter that the node does not bind itself has the binding of its most distant ancestor that has one
(`normalize_binds`); it has that of the nearest as long as all of them bind it to the same. Two ancestors that
bind it to different values show that the nearest does not win (`not_normalize_binds_nearest`).

Contents:
* `lookup_unite`, `ascending_unite`;
* `binding?`, `lookup_overlayNode_context`, `lookup_foldl_context`, `parameter?_merged`;
* `findSome?_reverse_of_agree`;
* `normalize_binds`, `not_normalize_binds_nearest`.
-/

namespace ObjectGraph.Configuration

variable {env : Surroundings} {hops : Nat} {c d : Configuration}

/-! ## Contexts that are united -/

/-- In the union of two contexts the first one counts, and the other where it has no binding. -/
theorem lookup_unite {own : Params × Origin} (ascending : Table.Ascending own.1) (other : Params) (key : String) :
    (unite own other).1.lookup key = (own.1.lookup key).or (other.lookup key) := by
  unfold unite
  by_cases covered : (other.all fun p => Table.has own.1 p.1) = true
  · rw [if_pos covered]
    cases there : other.lookup key with
    | none => rw [Option.or_none]
    | some v =>
        have bound : (own.1.lookup key).isSome := List.all_eq_true.mp covered _ (Table.mem_of_lookup there)
        obtain ⟨w, hw⟩ := Option.isSome_iff_exists.mp bound
        rw [hw, Option.some_or]
  · rw [if_neg covered]
    show (Table.insertAll other own.1).lookup key = _
    rw [Table.lookup_insertAll, Table.lookup_reverse ascending.nodup]

/-- The union of two contexts in order is in order. -/
theorem ascending_unite {own : Params × Origin} {other : Params} (ascending : Table.Ascending own.1)
    (too : Table.Ascending other) : Table.Ascending (unite own other).1 := by
  unfold unite
  split
  · exact ascending
  · exact Table.ascending_insertAll _ too

/-! ## What a chain binds -/

/-- What a node of a chain binds a parameter to. Only maps are merged. -/
def binding? (name : String) (node : Configuration) : Option Value :=
  if node.data.isObject then node.parameter? name else none

/-- A node is merged to a context where it counts last. -/
theorem lookup_overlayNode_context {acc : List (String × Json) × Params × Origin}
    (ascending : Table.Ascending acc.2.1) (node : Configuration) (name : String) :
    (overlayNode acc node).2.1.lookup (Template.parameterKey name)
      = (acc.2.1.lookup (Template.parameterKey name)).or (node.binding? name) := by
  unfold overlayNode binding?
  cases data : node.data with
  | object ms => exact lookup_unite ascending node.context _
  | _ => exact (Option.or_none).symm

theorem ascending_overlayNode {acc : List (String × Json) × Params × Origin} {node : Configuration}
    (ascending : Table.Ascending acc.2.1) (too : Table.Ascending node.context) :
    Table.Ascending (overlayNode acc node).2.1 := by
  unfold overlayNode
  split
  · exact ascending_unite ascending too
  · exact ascending

/-- Of nodes that are merged one after the other, the first that binds a parameter counts. -/
theorem lookup_foldl_context {nodes : List Configuration} {acc : List (String × Json) × Params × Origin}
    (ascending : Table.Ascending acc.2.1) (ordered : ∀ node ∈ nodes, Table.Ascending node.context)
    (name : String) :
    (nodes.foldl overlayNode acc).2.1.lookup (Template.parameterKey name)
      = (acc.2.1.lookup (Template.parameterKey name)).or (nodes.findSome? (binding? name)) := by
  induction nodes generalizing acc with
  | nil => exact (Option.or_none).symm
  | cons node nodes ih =>
      have first := ascending_overlayNode ascending (ordered node List.mem_cons_self)
      have rest : ∀ x ∈ nodes, Table.Ascending x.context := fun x hx => ordered x (List.mem_cons_of_mem _ hx)
      rw [List.foldl_cons, ih first rest, lookup_overlayNode_context ascending, List.findSome?_cons, Option.or_assoc]
      cases node.binding? name <;> rfl

/-- A node into which a chain is merged keeps its bindings, and the most distant ancestor that has one counts
for any other parameter. -/
theorem parameter?_merged {nodes : List Configuration} (ascending : Table.Ascending c.context)
    (ordered : ∀ node ∈ nodes, Table.Ascending node.context) (name : String) :
    (c.merged nodes).parameter? name = (c.parameter? name).or (nodes.reverse.findSome? (binding? name)) :=
  lookup_foldl_context ascending (fun node hn => ordered node (List.mem_reverse.mp hn)) name

/-- It does not matter from which end one looks if all that is found is the same. -/
theorem findSome?_reverse_of_agree {α β : Type} {f : α → Option β} {l : List α}
    (agree : ∀ a ∈ l, ∀ b ∈ l, ∀ x y, f a = some x → f b = some y → x = y) :
    l.reverse.findSome? f = l.findSome? f := by
  cases last : l.reverse.findSome? f with
  | none =>
      have nowhere := List.findSome?_eq_none_iff.mp last
      exact (List.findSome?_eq_none_iff.mpr fun a ha => nowhere a (List.mem_reverse.mpr ha)).symm
  | some x =>
      obtain ⟨a, ha, hx⟩ := List.exists_of_findSome?_eq_some last
      have somewhere : (l.findSome? f).isSome :=
        List.findSome?_isSome_iff.mpr ⟨a, List.mem_reverse.mp ha, by rw [hx]; rfl⟩
      obtain ⟨y, first⟩ := Option.isSome_iff_exists.mp somewhere
      obtain ⟨b, hb, hy⟩ := List.exists_of_findSome?_eq_some first
      rw [first, agree a (List.mem_reverse.mp ha) b hb x y hx hy]

/-- If the chain of a map ends, the map is normalized, and sees its own bindings. Of any other parameter it sees
the binding of its most distant ancestor that has one, and this is that of the nearest if all that have one
agree. -/
theorem normalize_binds {n : Nat} {flat : Configuration} {nodes : List Configuration} {s t v : Session}
    (object : c.data.isObject = true) (flattened : c.flatten env hops s = some (flat, t))
    (ended : chain env hops n [] flat t = some (nodes, v)) (ascending : Table.Ascending c.context)
    (ordered : ∀ node ∈ nodes, Table.Ascending node.context) :
    ∃ d, c.normalize env hops n s = some (d, v) ∧ ∀ name,
      d.parameter? name = (c.parameter? name).or (nodes.reverse.findSome? (binding? name)) ∧
      ((∀ a ∈ nodes, ∀ b ∈ nodes, ∀ x y, a.binding? name = some x → b.binding? name = some y → x = y) →
        d.parameter? name = (c.parameter? name).or (nodes.findSome? (binding? name))) := by
  refine ⟨c.merged nodes, normalize_of_chain object flattened ended, ?_⟩
  intro name
  have seen := parameter?_merged ascending ordered name
  refine ⟨seen, ?_⟩
  intro agree
  rw [seen, findSome?_reverse_of_agree agree]

/-! ### A binding that is lost -/

/-- Three maps, of which the second extends the first and the third the second. The first two bind the same
parameter. -/
def lineage : Configuration :=
  .make (.object [("base", .object [("$x", .bool true), ("v", .string "$x")]),
    ("mid", .object [("*extends", .string "#base"), ("$x", .bool false)]),
    ("leaf", .object [("*extends", .string "#mid")])]) .empty

/-- The map that extends nothing. -/
def lineageBase : Configuration := lineage.child (.object [("$x", .bool true), ("v", .string "$x")])

/-- The map that extends it, and binds the parameter to something else. -/
def lineageMid : Configuration := lineage.child (.object [("*extends", .string "#base"), ("$x", .bool false)])

/-- The map that extends that, and has no other key. -/
def lineageLeaf : Configuration := lineage.child (.object [("*extends", .string "#mid")])

theorem normalize_binds_lineage :
    lineageLeaf.flatten (.ofHost .bare) depthLimit Session.start = some (lineageLeaf, Session.start) ∧
      chain (.ofHost .bare) depthLimit 4 [] lineageLeaf Session.start
        = some ([lineageLeaf, lineageMid, lineageBase], Session.start) ∧
      ∃ d, lineageLeaf.normalize (.ofHost .bare) depthLimit 4 Session.start = some (d, Session.start) ∧
        ∀ name, d.parameter? name = (lineageLeaf.parameter? name).or
            ([lineageLeaf, lineageMid, lineageBase].reverse.findSome? (binding? name)) ∧
          ((∀ a ∈ [lineageLeaf, lineageMid, lineageBase], ∀ b ∈ [lineageLeaf, lineageMid, lineageBase], ∀ x y,
              a.binding? name = some x → b.binding? name = some y → x = y) →
            d.parameter? name = (lineageLeaf.parameter? name).or
              ([lineageLeaf, lineageMid, lineageBase].findSome? (binding? name))) := by
  have flattened : lineageLeaf.flatten (.ofHost .bare) depthLimit Session.start
      = some (lineageLeaf, Session.start) := rfl
  have ended : chain (.ofHost .bare) depthLimit 4 [] lineageLeaf Session.start
      = some ([lineageLeaf, lineageMid, lineageBase], Session.start) := rfl
  have ordered : ∀ node ∈ [lineageLeaf, lineageMid, lineageBase], Table.Ascending node.context := by
    intro node hn
    have one : node.context.length ≤ 1 := by
      rcases List.mem_cons.mp hn with rfl | hn
      · decide
      · rcases List.mem_cons.mp hn with rfl | hn
        · decide
        · obtain rfl := List.mem_singleton.mp hn
          decide
    match node.context, one with
    | [], _ => exact List.Pairwise.nil
    | [p], _ => exact List.pairwise_singleton _ _
  exact ⟨flattened, ended, normalize_binds rfl flattened ended List.Pairwise.nil ordered⟩

/-- The nearest binding does not win: the leaf extends a map that binds a parameter, and sees the binding of what
that extends in turn. -/
theorem not_normalize_binds_nearest :
    ¬ ∀ (env : Surroundings) (hops n : Nat) (c flat d : Configuration) (nodes : List Configuration)
        (s t v : Session), c.data.isObject = true → c.flatten env hops s = some (flat, t) →
      chain env hops n [] flat t = some (nodes, v) → c.normalize env hops n s = some (d, v) →
      ∀ name, d.parameter? name = (c.parameter? name).or (nodes.findSome? (·.parameter? name)) := by
  intro nearest
  have flattened : lineageLeaf.flatten (.ofHost .bare) depthLimit Session.start
      = some (lineageLeaf, Session.start) := rfl
  have ended : chain (.ofHost .bare) depthLimit 4 [] lineageLeaf Session.start
      = some ([lineageLeaf, lineageMid, lineageBase], Session.start) := rfl
  have normalized : lineageLeaf.normalize (.ofHost .bare) depthLimit 4 Session.start
      = some (lineageLeaf.merged [lineageLeaf, lineageMid, lineageBase], Session.start) := rfl
  have same := nearest _ _ _ _ _ _ _ _ _ _ rfl flattened ended normalized "x"
  have seen : (lineageLeaf.merged [lineageLeaf, lineageMid, lineageBase]).parameter? "x" = some (.bool true) := rfl
  have near : (lineageLeaf.parameter? "x").or
      ([lineageLeaf, lineageMid, lineageBase].findSome? (·.parameter? "x")) = some (.bool false) := rfl
  rw [seen, near] at same
  exact absurd same (by simp)

-- the leaf adds nothing to the map it extends, which keeps its own binding when it is normalized itself
example : (lineageMid.merged [lineageMid, lineageBase]).parameter? "x" = some (.bool false) := rfl

end ObjectGraph.Configuration
