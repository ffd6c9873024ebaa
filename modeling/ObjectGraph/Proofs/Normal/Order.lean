import ObjectGraph.Proofs.Normal.Ancestry
import ObjectGraph.Proofs.Normal.Stable

/-!
# `Proofs.Normal.Order` — what a chain is merged to

A chain is merged by writing one node over the other, from the most distant ancestor down. A key that is there
keeps its place and takes the nearer value, and a new key comes last. Writing over is associative, the order of
the keys included, so the nodes may as well be extended one by one: the node by its parent and the result by the
next ancestor, or the ancestors by theirs first and the node by what comes of that. Keys that say what to merge
are taken out in the end. What is left has none, and is normalized already.

Only maps have keys. Every node of a chain but the last extends something and so is a map; the last may be
something else, and adds nothing then.

Contents:
* `keyList`, `data_eq_members`; `written`, what is merged, with `keys_written`, `mem_written`, `foldl_overlayNode`;
* `extendAll`, `members_extend`, `members_foldl_extend`, `members_extendAll`;
* `isObject_flatten`, `chain_grows`, `maps_of_chain`;
* `normalize_overlays`, `normalize_overlays_kinship`.
-/

namespace ObjectGraph.Configuration

variable {env : Surroundings} {hops : Nat} {c d p : Configuration} {nodes : List Configuration}

/-! ## Nodes written over each other -/

/-- The keys of a node that is a map; other data has none. -/
def keyList (node : Configuration) : List String := Table.keys (members node.data)

/-- A map is made of its members. -/
theorem data_eq_members (object : c.data.isObject = true) : c.data = .object (members c.data) := by
  cases hc : c.data with
  | object ms => rfl
  | _ =>
      rw [hc] at object
      exact absurd object Bool.false_ne_true

/-- The members of nodes written over each other, the last node first. -/
def written (nodes : List Configuration) : List (String × Json) :=
  nodes.foldr (fun node base => Table.overlay base (members node.data)) []

/-- Merging writes the members of nodes over each other. -/
theorem foldl_overlayNode (nodes : List Configuration) (context : Params) (origin : Origin) :
    (nodes.reverse.foldl overlayNode ([], context, origin)).1 = written nodes := by
  have one : ∀ acc node, (overlayNode acc node).1 = Table.overlay acc.1 (members node.data) := by
    intro acc node
    unfold overlayNode
    cases node.data with
    | object ms => rfl
    | _ => rfl
  induction nodes with
  | nil => rfl
  | cons node nodes ih =>
      rw [List.reverse_cons, List.foldl_append, List.foldl_cons, List.foldl_nil, one, ih]
      rfl

/-- The keys stand in the order in which they are first met from the last node on. -/
theorem keys_written (nodes : List Configuration) :
    Table.keys (written nodes) = (nodes.reverse.flatMap keyList).eraseDups := by
  induction nodes with
  | nil => rfl
  | cons node nodes ih =>
      rw [List.reverse_cons, List.flatMap_append, List.flatMap_singleton]
      exact Table.keys_overlay ih (members node.data)

theorem nodup_written (nodes : List Configuration) : (Table.keys (written nodes)).Nodup := by
  cases nodes with
  | nil => exact List.nodup_nil
  | cons node nodes => exact Table.nodup_keys_overlay (nodup_written nodes) _

/-- A key is there if a node has it. -/
theorem mem_written {key : String} : key ∈ Table.keys (written nodes) ↔ ∃ node ∈ nodes, key ∈ node.keyList := by
  rw [keys_written, List.mem_eraseDups, List.mem_flatMap]
  simp only [List.mem_reverse]

theorem keys_stripDirectives (ms : List (String × Json)) :
    Table.keys (stripDirectives ms) = (Table.keys ms).filter fun key => !directiveKeys.contains key := by
  rw [stripDirectives, Table.keys, Table.keys, List.filter_map]
  rfl

/-! ## Nodes extended one by one -/

/-- A node extended by its ancestors, which are extended first. -/
def extendAll : Configuration → List Configuration → Configuration
  | c, [] => c
  | c, p :: ps => c.extend (extendAll p ps)

theorem isObject_extend (object : c.data.isObject = true) (p : Configuration) :
    (c.extend p).data.isObject = true := by
  unfold extend
  split
  · rfl
  · exact object

/-- A map that is extended is written over what it is extended by. -/
theorem members_extend (object : c.data.isObject = true) (proper : c.keyList.Nodup) (p : Configuration) :
    members (c.extend p).data = Table.overlay (members p.data) (members c.data) := by
  unfold extend
  cases p.data with
  | object ms =>
      rw [data_eq_members object]
      rfl
  | _ =>
      -- what has no keys adds nothing
      show members c.data = Table.overlay [] (members c.data)
      exact (Table.overlay_nil proper).symm

theorem nodup_keyList_extend (object : c.data.isObject = true) (proper : c.keyList.Nodup)
    (properParent : p.keyList.Nodup) : (c.extend p).keyList.Nodup := by
  rw [keyList, members_extend object proper]
  exact Table.nodup_keys_overlay properParent _

/-- A map extended by one ancestor after the other is written over all of them. -/
theorem members_foldl_extend {ancestors : List Configuration} (object : c.data.isObject = true)
    (proper : ∀ node ∈ c :: ancestors, node.keyList.Nodup) :
    members (ancestors.foldl extend c).data = written (c :: ancestors) := by
  have above : ∀ (ps : List Configuration) (c : Configuration), c.data.isObject = true → c.keyList.Nodup →
      (∀ node ∈ ps, node.keyList.Nodup) →
      members (ps.foldl extend c).data = Table.overlay (written ps) (members c.data) := by
    intro ps
    induction ps with
    | nil =>
        intro c _ proper _
        exact (Table.overlay_nil proper).symm
    | cons p ps ih =>
        intro c object proper propers
        have first : p.keyList.Nodup := propers p List.mem_cons_self
        have rest : ∀ node ∈ ps, node.keyList.Nodup := fun x hx => propers x (List.mem_cons_of_mem _ hx)
        rw [List.foldl_cons, ih (c.extend p) (isObject_extend object p) (nodup_keyList_extend object proper first) rest,
          members_extend object proper, Table.overlay_assoc _ first]
        rfl
  exact above ancestors c object (proper c List.mem_cons_self) fun x hx => proper x (List.mem_cons_of_mem _ hx)

/-- A map extended by ancestors that are extended first is written over all of them, if none of them but the
last is anything else than a map. -/
theorem members_extendAll {ancestors : List Configuration}
    (maps : ∀ node ∈ (c :: ancestors).dropLast, node.data.isObject = true)
    (proper : ∀ node ∈ c :: ancestors, node.keyList.Nodup) :
    members (extendAll c ancestors).data = written (c :: ancestors) := by
  have own : c.keyList.Nodup := proper c List.mem_cons_self
  induction ancestors generalizing c with
  | nil => exact (Table.overlay_nil own).symm
  | cons p ps ih =>
      have object : c.data.isObject = true := maps c List.mem_cons_self
      have above := fun x hx => proper x (List.mem_cons_of_mem c hx)
      have rest := @ih p (fun x hx => maps x (List.mem_cons_of_mem c hx)) above (above p List.mem_cons_self)
      show members (c.extend (extendAll p ps)).data = _
      rw [members_extend object own, rest]
      rfl

/-! ## Chains -/

theorem isObject_mixin (object : c.data.isObject = true) (upper : Configuration) :
    (c.mixin upper).data.isObject = true := by
  unfold mixin
  split
  · rfl
  · exact object

theorem isObject_foldl_mixin (object : c.data.isObject = true) (uppers : List Configuration) :
    (uppers.foldl mixin c).data.isObject = true := by
  induction uppers generalizing c with
  | nil => exact object
  | cons upper uppers ih => exact ih (isObject_mixin object upper)

/-- A map is flattened to a map. -/
theorem isObject_flatten {flat : Configuration} {s t : Session} (object : c.data.isObject = true)
    (flattened : c.flatten env hops s = some (flat, t)) : flat.data.isObject = true := by
  obtain ⟨uppers, u, -, last⟩ := Run.ended_bind flattened
  obtain ⟨rfl, -⟩ := Run.ended_pure.mp last
  exact isObject_foldl_mixin object uppers

/-- Only a map extends something. -/
theorem isObject_of_parent {s t : Session} (found : c.parent? env hops s = some (some p, t)) :
    c.data.isObject = true := by
  unfold parent? at found
  split at found
  next there =>
    have position : Json.index? extendsKey = none := by decide +kernel
    rw [has_of_isName (isName_of_directive (by decide))] at there
    cases hc : c.data with
    | object ms => rfl
    | array items => simp [hc, Json.child?, position] at there
    | _ => simp [hc, Json.child?] at there
  next => exact absurd (Run.ended_iff.mp found) (by simp [Pure.pure])

/-- A chain goes on from the nodes that have been seen, with the node at hand unless that has been seen, and every
node that it adds but the last is a map. -/
theorem chain_grows {n : Nat} {seen : List Configuration} {node : Configuration} {s t : Session}
    (ended : chain env hops n seen node s = some (nodes, t)) :
    ∃ added, nodes = seen ++ added ∧ (∀ x ∈ added.dropLast, x.data.isObject = true) ∧
      ((seen.any (·.equals node)) = false → added.head? = some node) := by
  induction n generalizing seen node s with
  | zero => exact absurd (Run.ended_iff.mp ended) (by simp [chain, Run.exhausted])
  | succ n ih =>
      rw [chain] at ended
      split at ended
      next old =>
        obtain ⟨-, u, -, last⟩ := Run.ended_bind ended
        obtain ⟨rfl, -⟩ := Run.ended_pure.mp last
        refine ⟨[], (List.append_nil _).symm, by simp, ?_⟩
        intro new
        rw [old] at new
        exact absurd new (by simp)
      next =>
        obtain ⟨parent, u, found, rest⟩ := Run.ended_bind ended
        cases parent with
        | none =>
            obtain ⟨rfl, -⟩ := Run.ended_pure.mp rest
            exact ⟨[node], rfl, by simp, fun _ => rfl⟩
        | some p =>
            obtain ⟨added, rfl, maps, -⟩ := ih rest
            refine ⟨node :: added, by simp, ?_, fun _ => rfl⟩
            intro x hx
            cases added with
            | nil => exact absurd hx List.not_mem_nil
            | cons y added =>
                rcases List.mem_cons.mp hx with rfl | hx
                · exact isObject_of_parent found
                · exact maps x hx

/-- A chain begins with the node it is the chain of, and all its nodes but the last are maps. -/
theorem maps_of_chain {n : Nat} {flat : Configuration} {s t : Session}
    (ended : chain env hops n [] flat s = some (nodes, t)) :
    ∃ ancestors, nodes = flat :: ancestors ∧ ∀ x ∈ nodes.dropLast, x.data.isObject = true := by
  obtain ⟨added, rfl, maps, first⟩ := chain_grows ended
  obtain ⟨ancestors, hadded⟩ := List.head?_eq_some_iff.mp (first rfl)
  exact ⟨ancestors, hadded, maps⟩

/-! ## What is left -/

/-- What is merged has no key that says what to merge. -/
theorem unmerged_merged (c : Configuration) (nodes : List Configuration) : (c.merged nodes).Unmerged := by
  intro key hk
  show (stripDirectives _).lookup key = none
  rw [lookup_stripDirectives, if_pos hk]

theorem data_merged (c : Configuration) (nodes : List Configuration) :
    (c.merged nodes).data = .object (stripDirectives (written nodes)) :=
  congrArg (fun ms => Json.object (stripDirectives ms)) (foldl_overlayNode nodes c.context c.origin)

/-- What a map with a given chain is normalized to: it has the keys of the chain's nodes but those that say what to
merge, in the order in which they are met from the most distant ancestor down, each with the value of the nearest
node that has it. It is what is left of the first node when its ancestors extend it, one after the other or the
most distant ones first. And it is normalized already, wherever it is read. -/
theorem normalize_overlays {n : Nat} {flat : Configuration} {s t v : Session} (object : c.data.isObject = true)
    (flattened : c.flatten env hops s = some (flat, t)) (ended : chain env hops n [] flat t = some (nodes, v))
    (proper : ∀ node ∈ nodes, node.keyList.Nodup) :
    ∃ d ancestors, c.normalize env hops n s = some (d, v) ∧ nodes = flat :: ancestors ∧
      (∀ key, key ∈ d.keys ↔ key ∉ directiveKeys ∧ ∃ node ∈ nodes, key ∈ node.keyList) ∧
      d.keys = ((nodes.reverse.flatMap keyList).eraseDups).filter (fun key => !directiveKeys.contains key) ∧
      (∀ key, key ∉ directiveKeys → d.at? key = nodes.findSome? (·.at? key)) ∧
      d.data = .object (stripDirectives (members (ancestors.foldl extend flat).data)) ∧
      d.data = .object (stripDirectives (members (extendAll flat ancestors).data)) ∧
      ∀ env' hops' m u, d.normalize env' hops' (m + 1) u = some (d, u) := by
  obtain ⟨ancestors, rfl, maps⟩ := maps_of_chain ended
  have first : flat.data.isObject = true := isObject_flatten object flattened
  have keys : (c.merged (flat :: ancestors)).keys = ((flat :: ancestors).reverse.flatMap keyList).eraseDups.filter
      fun key => !directiveKeys.contains key := by
    unfold Configuration.keys
    rw [data_merged, ← keys_written]
    exact keys_stripDirectives _
  refine ⟨c.merged (flat :: ancestors), ancestors, normalize_of_chain object flattened ended, rfl, ?_, keys, ?_, ?_, ?_,
    ?_⟩
  · intro key
    rw [keys, ← keys_written, List.mem_filter, mem_written]
    simp [and_comm]
  · intro key other
    rw [at?_merged c proper, if_neg other]
  · rw [members_foldl_extend first proper, data_merged]
  · rw [members_extendAll maps proper, data_merged]
  · intro env' hops' m u
    have once : (Table.keys (stripDirectives (written (flat :: ancestors)))).Nodup := by
      rw [keys_stripDirectives]
      exact (nodup_written _).filter _
    rw [normalize_object env' hops' m (data_merged c _) once (unmerged_merged c _)]
    rfl

/-! ### Three maps with keys in common -/

/-- Three maps, of which the second extends the first and the third the second. -/
def kinship : Configuration :=
  .make (.object [("base", .object [("a", .bool true), ("b", .bool true)]),
    ("mid", .object [("c", .bool true), ("*extends", .string "#base"), ("b", .bool false)]),
    ("leaf", .object [("d", .null), ("*extends", .string "#mid"), ("c", .null)])]) .empty

/-- The map that extends nothing. -/
def kinshipBase : Configuration := kinship.child (.object [("a", .bool true), ("b", .bool true)])

/-- The map that extends it. -/
def kinshipMid : Configuration :=
  kinship.child (.object [("c", .bool true), ("*extends", .string "#base"), ("b", .bool false)])

/-- The map that extends that. -/
def kinshipLeaf : Configuration := kinship.child (.object [("d", .null), ("*extends", .string "#mid"), ("c", .null)])

theorem normalize_overlays_kinship :
    kinshipLeaf.flatten (.ofHost .bare) depthLimit Session.start = some (kinshipLeaf, Session.start) ∧
      chain (.ofHost .bare) depthLimit 4 [] kinshipLeaf Session.start
        = some ([kinshipLeaf, kinshipMid, kinshipBase], Session.start) ∧
      ∃ d ancestors, kinshipLeaf.normalize (.ofHost .bare) depthLimit 4 Session.start = some (d, Session.start) ∧
        [kinshipLeaf, kinshipMid, kinshipBase] = kinshipLeaf :: ancestors ∧
        (∀ key, key ∈ d.keys ↔
          key ∉ directiveKeys ∧ ∃ node ∈ [kinshipLeaf, kinshipMid, kinshipBase], key ∈ node.keyList) ∧
        d.keys = (([kinshipLeaf, kinshipMid, kinshipBase].reverse.flatMap keyList).eraseDups).filter
          (fun key => !directiveKeys.contains key) ∧
        (∀ key, key ∉ directiveKeys →
          d.at? key = [kinshipLeaf, kinshipMid, kinshipBase].findSome? (·.at? key)) ∧
        d.data = .object (stripDirectives (members (ancestors.foldl extend kinshipLeaf).data)) ∧
        d.data = .object (stripDirectives (members (extendAll kinshipLeaf ancestors).data)) ∧
        ∀ env' hops' m u, d.normalize env' hops' (m + 1) u = some (d, u) := by
  have flattened : kinshipLeaf.flatten (.ofHost .bare) depthLimit Session.start
      = some (kinshipLeaf, Session.start) := rfl
  have ended : chain (.ofHost .bare) depthLimit 4 [] kinshipLeaf Session.start
      = some ([kinshipLeaf, kinshipMid, kinshipBase], Session.start) := rfl
  have proper : ∀ node ∈ [kinshipLeaf, kinshipMid, kinshipBase], node.keyList.Nodup := by decide
  exact ⟨flattened, ended, normalize_overlays rfl flattened ended proper⟩

-- the keys of the base come first, with the values that are nearest
example : (kinshipLeaf.merged [kinshipLeaf, kinshipMid, kinshipBase]).data
    = .object [("a", .bool true), ("b", .bool false), ("c", .null), ("d", .null)] := by
  rfl

end ObjectGraph.Configuration
