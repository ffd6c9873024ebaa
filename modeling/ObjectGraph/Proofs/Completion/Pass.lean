import ObjectGraph.Proofs.Completion.Data
import ObjectGraph.Proofs.Completion.Endless
import ObjectGraph.Proofs.Completion.Sequence
import ObjectGraph.Proofs.Settled
import ObjectGraph.Proofs.Waiting.Pass
import ObjectGraph.Proofs.Wired.Evaluation

/-!
# `Proofs.Completion.Pass` — the order in which names are completed

Entries that refer to nothing are built one after the other, and each is complete when it is built. So what
a pass has built in the end, in order of completion, are the names in the order in which they are built,
without those that fail: the texts that stand for nothing and the nodes that name a class that is unknown.
Whatever else fails inside an entry leaves the entry and all others in their places.

Contents:
* `Container.fails`, `Container.buildValue_built`: which entries fail;
* `Completes`, `settleName_completes`, `abandon_completes`, `buildNamed_completes`, `tryGetNamed_completes`: what
  building one name leaves;
* `buildAll_completes`, `exists_steps_pass`: a row of names, and a pass;
* `resolve_order`, `resolve_order_motley`; `not_resolve_order`: an entry with an empty key.
-/

namespace ObjectGraph

open Run (After Apart Yields)

namespace Container

variable {k : Container} {m : Machine} {hops : Nat} {cut : Prop} {root : Configuration} {name : String}

/-! ## Entries -/

/-- Nothing is built for an entry: it stands for nothing, or is a node that names a class that is unknown. -/
def fails (k : Container) (root : Configuration) (name : String) : Bool :=
  match root.entry? name with
  | some (some (.configuration d)) => k.namesUnknown d
  | some (some _) => false
  | _ => true

/-- The machine builds a node of its own apart from all names, unless it names something unknown. -/
def BuildsEntry (k : Container) (cut : Prop) (m : Machine) (hops : Nat) (d : Configuration) : Prop :=
  ∀ context, Apart cut (m.buildNode hops d .any none context) fun r => Whole r ∧ built r = !k.namesUnknown d

/-- An entry without references is built apart from all names, unless it fails. -/
theorem buildValue_built (hc : root.Grounded) (hk : IsName name) {v : Option Value} (hv : root.Holds name v)
    (hm : ∀ d, root.Opens name d → d.handler = root.handler → BuildsEntry k cut m hops d) (context : String) :
    Apart cut (k.buildValue m hops root name .any none context)
      fun r => Whole r ∧ built r = !k.fails root name := by
  have stands : root.entry? name = some v := (Configuration.holds_iff hk).mp hv
  have read : Apart cut (root.valueAt (k.surroundings m) hops name) fun found => found = v :=
    .of_yields fun s => ⟨v, hv.valueAt_yields hc _ hops s, rfl⟩
  cases v with
  | none =>
      have failing : k.fails root name = true := by
        unfold fails
        rw [stands]
      -- a list or a map stands for something
      have scalar : (root.raw? name).any Json.isContainer = false := by
        unfold Configuration.entry? at stands
        rw [Configuration.raw?_of_isName hk]
        cases hj : root.data.child? name with
        | none => rfl
        | some j =>
            rw [hj] at stands
            cases j with
            | object members => exact absurd stands (by simp [Configuration.denoted])
            | array items => exact absurd stands (by simp [Configuration.denoted])
            | _ => rfl
      unfold buildValue
      rw [scalar, if_neg Bool.false_ne_true, failing]
      refine read.bind fun found same => ?_
      subst same
      exact .pure ⟨whole_none, rfl⟩
  | some v =>
      obtain ⟨j, hj, container, rfl⟩ | ⟨scalar, x, hx, rfl⟩ := hv.cases hc hk
      · have failing : k.fails root name = k.namesUnknown (root.child j) := by
          unfold fails
          rw [stands]
        have raw : (root.raw? name).any Json.isContainer = true := by
          rw [Configuration.raw?_of_isName hk, hj]
          exact container
        have opens : root.Opens name (root.child j) := ⟨_, hv, by rw [if_pos raw]; rfl⟩
        rw [buildValue_container hk hj container, failing]
        exact hm (root.child j) opens rfl context
      · have failing : k.fails root name = false := by
          unfold fails
          rw [stands]
          cases x <;> rfl
        unfold buildValue
        rw [scalar, if_neg Bool.false_ne_true, failing]
        refine read.bind fun found same => ?_
        subst same
        have whole := whole_some (Value.containsPending_ofJson hx)
        cases x with
        | _ => exact .pure ⟨whole, rfl⟩

/-! ## Names -/

variable {s : Session}

/-- The names that a step leaves: the root stays, no other name has changed, and the name is complete if it was
built. -/
structure Completes (root : Configuration) (name : String) (complete : Bool) (s t : Session) : Prop where
  root : t.build.root = some root
  others : ∀ n ≠ name, t.build.stateOf? n = s.build.stateOf? n
  order : t.build.order = s.build.order ++ if complete then [name] else []

/-- A name that begins has nobody waiting for it. -/
theorem waiters_of_sameNames {t : Session} (h : Session.SameNames (s.acted (.begin name)) t) :
    NameState.waiters (t.build.stateOf? name) = [] := by
  have state : t.build.stateOf? name = (s.build.apply (.begin name)).stateOf? name := by
    rw [Build.stateOf?, h.names]
    rfl
  rw [state, Build.stateOf?_begin, if_pos rfl]
  rfl

/-- While a name was building, no other name has changed. -/
theorem stateOf?_of_sameNames {t : Session} (h : Session.SameNames (s.acted (.begin name)) t) {n : String}
    (hn : n ≠ name) : t.build.stateOf? n = s.build.stateOf? n := by
  have state : t.build.stateOf? n = (s.build.apply (.begin name)).stateOf? n := by
    rw [Build.stateOf?, h.names]
    rfl
  rw [state, Build.stateOf?_begin, if_neg hn]

/-- A name that is built without placeholders is complete at once. -/
theorem settleName_completes {t : Session} (h : Session.SameNames (s.acted (.begin name)) t)
    (hroot : s.build.root = some root) {v : Value} (hv : v.containsPending = false) :
    After (settleName m hops name v) t (fun _ u => Completes root name true s u) fun _ => cut := by
  unfold settleName
  rw [Value.placeholders_eq_nil hv]
  unfold finishName
  rw [Run.after_bind, Run.after_build, Run.after_bind, Run.after_act, Run.after_bind, Run.after_report,
    waiters_of_sameNames h]
  show Completes root name true s _
  refine ⟨h.root.trans hroot, fun n hn => ?_, ?_⟩
  · show (t.build.apply (.finish name v)).stateOf? n = _
    rw [Build.stateOf?_finish, if_neg hn]
    exact stateOf?_of_sameNames h hn
  · show t.build.order ++ [name] = s.build.order ++ [name]
    rw [h.order]
    rfl

/-- A name that nothing is built for is unbuilt again. -/
theorem abandon_completes {t : Session} (h : Session.SameNames (s.acted (.begin name)) t)
    (hroot : s.build.root = some root) :
    After (abandon m hops name) t (fun _ u => Completes root name false s u) fun _ => cut := by
  unfold abandon
  rw [Run.after_bind, Run.after_build, Run.after_bind, Run.after_act, waiters_of_sameNames h]
  show Completes root name false s _
  refine ⟨h.root.trans hroot, fun n hn => ?_, ?_⟩
  · show (t.build.apply (.abandon name)).stateOf? n = _
    rw [Build.stateOf?_abandon, if_neg hn]
    exact stateOf?_of_sameNames h hn
  · show t.build.order = s.build.order ++ []
    rw [h.order, List.append_nil]
    rfl

/-- Building a name completes it, unless it fails. -/
theorem buildNamed_completes (hroot : s.build.root = some root)
    (hentry : Apart cut (k.buildValue m hops root name .any none name) fun r => Whole r ∧ built r = !k.fails root name) :
    After (k.buildNamed m hops root name) s (fun _ t => Completes root name (!k.fails root name) s t)
      fun _ => cut := by
  unfold buildNamed
  rw [Run.after_bind, Run.after_act, Run.after_bind, Run.after_report, Run.after_bind]
  refine (hentry _).mono (fun r t ⟨same, whole, hbuilt⟩ => ?_) fun _ => id
  -- events do not count
  replace same : Session.SameNames (s.acted (.begin name)) t := ⟨same.names, same.order, same.root⟩
  rw [← hbuilt]
  rcases r with e | _ | v
  · rw [Run.after_bind]
    exact (abandon_completes same hroot).mono (fun _ u h => h) fun _ => id
  · rw [Run.after_bind]
    exact (abandon_completes same hroot).mono (fun _ u h => h) fun _ => id
  · rw [Run.after_bind]
    refine (settleName_completes same hroot (whole v rfl)).mono (fun _ u h => ?_) fun _ => id
    rw [Run.after_bind]
    unfold current
    rw [Run.after_bind, Run.after_build]
    split <;> exact h

/-- So does asking for a name of the root that is unbuilt. -/
theorem tryGetNamed_completes (hroot : s.build.root = some root) (unbuilt : s.build.stateOf? name = none)
    (there : root.has name = true)
    (hentry : Apart cut (k.buildValue m hops root name .any none name) fun r => Whole r ∧ built r = !k.fails root name) :
    After (k.tryGetNamed m hops name) s (fun _ t => Completes root name (!k.fails root name) s t) fun _ => cut := by
  unfold tryGetNamed
  rw [Run.after_bind, Run.after_build, unbuilt, hroot]
  dsimp only
  rw [if_pos there]
  exact buildNamed_completes hroot hentry

/-- Names of the root that are unbuilt are completed one after the other, without those that fail. -/
theorem buildAll_completes {names : List String} (hnodup : names.Nodup) (hroot : s.build.root = some root)
    (unbuilt : ∀ n ∈ names, s.build.stateOf? n = none) (there : ∀ n ∈ names, root.has n = true)
    (hentry : ∀ n ∈ names,
      Apart cut (k.buildValue m hops root n .any none n) fun r => Whole r ∧ built r = !k.fails root n) :
    After (k.buildAll m hops names) s
      (fun _ t => t.build.order = s.build.order ++ names.filter (!k.fails root ·)) fun _ => cut := by
  induction names generalizing s with
  | nil => exact (List.append_nil _).symm
  | cons name names ih =>
      obtain ⟨fresh, hnodup⟩ := List.nodup_cons.mp hnodup
      unfold buildAll
      rw [Run.after_bind]
      refine (tryGetNamed_completes hroot (unbuilt name List.mem_cons_self) (there name List.mem_cons_self)
        (hentry name List.mem_cons_self)).mono (fun r t done => ?_) fun _ => id
      -- the report of a failure leaves the names as they are
      have rest : ∀ u : Session, u.build = t.build → After (k.buildAll m hops names) u
          (fun _ v => v.build.order = s.build.order ++ (name :: names).filter (!k.fails root ·)) fun _ => cut := by
        intro u hu
        have unbuilt : ∀ n ∈ names, u.build.stateOf? n = none := by
          intro n hn
          have other : n ≠ name := fun same => fresh (same ▸ hn)
          rw [hu, done.others n other]
          exact unbuilt n (List.mem_cons_of_mem _ hn)
        refine (ih hnodup (hu ▸ done.root) unbuilt (fun n hn => there n (List.mem_cons_of_mem _ hn))
          fun n hn => hentry n (List.mem_cons_of_mem _ hn)).mono (fun _ v hv => ?_) fun _ => id
        rw [hv, hu, done.order, List.append_assoc, List.filter_cons]
        cases k.fails root name <;> rfl
      cases r with
      | ok v => exact rest t rfl
      | error e => exact rest _ rfl

end Container

/-! ## The pass -/

namespace Container

variable {k : Container}

/-- There are steps with which a pass over entries without references and without empty keys completes all that do
not fail. -/
theorem exists_steps_pass (k : Container) {root : Configuration} (hc : root.Grounded) {priority : List String}
    (hnames : ∀ n ∈ buildOrder priority root, IsName n)
    (labelled : ∀ n ∈ buildOrder priority root, ∀ j ∈ root.data.child? n, j.Labelled)
    (independent : root.Independent (buildOrder priority root)) (steady : Steady k.host root.handler) :
    ∃ enough, ∀ steps s, s.build.priority = priority → After (k.pass steps root) s
      (fun _ t => t.build.order = (buildOrder priority root).filter (!k.fails root ·)) fun _ => steps < enough := by
  obtain ⟨enough, nodes⟩ : ∃ enough, ∀ n ∈ buildOrder priority root, ∀ d, root.Opens n d → k.BuiltWithin enough d := by
    refine exists_enough k root fun n hn d hd => ?_
    have still : d.data.Labelled := by
      obtain ⟨x, hx, rfl⟩ := hd.child_of_isName hc (hnames n hn)
      exact (Configuration.splitParameters_labelled (labelled n hn x hx)).1
    exact exists_steps k (hd.grounded hc) still (independent.nested n hn d hd)
  refine ⟨enough, fun steps s hs => ?_⟩
  subst hs
  have entries : ∀ n ∈ buildOrder s.build.priority root,
      Apart (steps < enough) (k.buildValue (k.machine steps) Configuration.depthLimit root n .any none n)
        fun r => Whole r ∧ built r = !k.fails root n := by
    intro n hn
    obtain ⟨v, hv⟩ := independent.holds n hn
    refine buildValue_built hc (hnames n hn) hv (fun d hd same context => ?_) n
    refine (nodes n hn d hd steps _ .any none context).mono fun r ⟨whole, told⟩ => ⟨whole, ?_⟩
    exact told rfl rfl (same ▸ steady)
  have all := buildAll_completes (s := started s root) (nodup_buildOrder _ _) rfl (fun _ _ => rfl)
    (fun n hn => (mem_buildOrder_iff.mp hn).2.2) entries
  exact (pass_of_buildAll all).mono (fun _ t h => h.1) fun _ => id

/-- The build order has no duplicates: it is the priority names that are buildable keys of the root, in order of
first mention, and then the other buildable keys as they are declared. If the entries contain no references and no
empty keys, and the root says nothing about merging, the names after resolving are these, without those of the
entries that fail. -/
theorem resolve_order (k : Container) {c : Configuration} (hc : c.Grounded) {members : List (String × Json)}
    (hdata : c.data = .object members) (hkeys : ∀ key ∈ Table.keys members, IsName key) {priority : List String}
    (hpriority : ∀ name ∈ priority, IsName name) :
    let root := c.withHandler c.handler.withContainer
    let order := buildOrder priority root
    order.Nodup ∧
    order = (priority.filter fun n => buildable n && decide (n ∈ Table.keys members)).eraseDups ++
      ((Table.keys members).filter fun n => buildable n && decide (n ∉ priority)) ∧
    (c.Unmerged → (∀ name ∈ order, ∀ j ∈ c.data.child? name, j.Labelled) → root.Independent order →
      Steady k.host root.handler →
      ∃ enough, ∀ steps s, s.build.priority = priority →
        After (k.resolve steps c) s (fun _ t => t.build.order = order.filter (!k.fails root ·))
          fun _ => steps < enough) := by
  intro root order
  have grounded : root.Grounded := hc.withHandler _
  have hdata : root.data = .object members := hdata
  refine ⟨nodup_buildOrder priority root, buildOrder_eq hdata (grounded.nodup hdata) hkeys hpriority,
    fun unmerged labelled independent steady => ?_⟩
  have names : ∀ n ∈ order, IsName n := by
    intro n hn
    rcases (mem_buildOrder_iff.mp hn).1 with first | rest
    · exact hpriority n first
    · exact hkeys n (Configuration.keys_of_object hdata ▸ rest)
  obtain ⟨enough, passes⟩ := exists_steps_pass k grounded names labelled independent steady
  refine ⟨enough + 1, fun steps s hs => ?_⟩
  have isMap : ¬(!c.data.isObject) = true := by
    rw [show c.data = .object members from hdata]
    exact Bool.false_ne_true
  unfold resolve
  rw [if_neg isMap, Run.after_bind]
  have normalized := normalize_stays grounded unmerged (k.surroundings (k.machine steps)) Configuration.depthLimit steps s
  refine normalized.mono (fun d t ⟨same, stays⟩ => ?_) fun _ none => by omega
  subst same stays
  exact (passes steps t hs).mono (fun _ _ h => h) fun _ h => Nat.lt_succ_of_lt h

/-! ### Entries of all kinds -/

/-- A flag, a list with a node of an unknown class inside, a record, a node of an unknown class, a text that stands
for nothing, and an entry that is not built. -/
def motley : Json :=
  .object [("flag", .bool true), ("list", .array [.null, .object [("-class", .string "nowhere")]]),
    ("record", .object [("-class", .string "record"), ("label", .string "$label"), ("$label", .string "it")]),
    ("broken", .object [("-class", .string "nowhere")]), ("gone", .string "$missing"), ("-hidden", .null)]

/-- What is inherited by lists and by maps, whose keys differ and are not empty, holds of all this. -/
theorem motley_inherits {P : Json → Prop} (null : P .null) (bool : ∀ b, P (.bool b)) (string : ∀ s, P (.string s))
    (array : ∀ items, (∀ j ∈ items, P j) → P (.array items))
    (object : ∀ members, (Table.keys members).Nodup → "" ∉ Table.keys members → (∀ m ∈ members, P m.2) →
      P (.object members)) : P motley := by
  have unknown : P (.object [("-class", .string "nowhere")]) :=
    object _ (by decide) (by decide) (List.forall_mem_singleton.mpr (string _))
  have record : P (.object [("-class", .string "record"), ("label", .string "$label"), ("$label", .string "it")]) := by
    refine object _ (by decide) (by decide) ?_
    simp only [List.forall_mem_cons]
    exact ⟨string _, string _, string _, by simp⟩
  have list : P (.array [.null, .object [("-class", .string "nowhere")]]) := by
    refine array _ ?_
    simp only [List.forall_mem_cons]
    exact ⟨null, unknown, by simp⟩
  refine object _ (by decide) (by decide) ?_
  simp only [List.forall_mem_cons]
  exact ⟨bool _, list, record, unknown, string _, null, by simp⟩

theorem proper_motley : motley.Proper :=
  motley_inherits .null .bool .string (fun _ => .array) fun _ nodup _ => .object nodup

theorem labelled_motley : motley.Labelled :=
  motley_inherits .null .bool .string (fun _ => .array) fun _ _ keys => .object keys

/-- Five of its entries are to be built. With enough steps the root is resolved, and three of them are, the record
first. -/
theorem resolve_order_motley :
    let priority := ["record", "absent", "record", "-hidden"]
    let root := Configuration.make motley (Handler.withContainer .standard)
    let order := ["record", "flag", "list", "broken", "gone"]
    buildOrder priority root = order ∧ root.Independent order ∧
      ∃ steps r t, ofRecords.resolve steps (.make motley .standard) (session priority) = some (r, t) ∧
        t.build.order = ["record", "flag", "list"] := by
  intro priority root order
  obtain ⟨-, -, resolves⟩ := resolve_order ofRecords (.make proper_motley .standard) rfl (by decide)
    (show ∀ name ∈ priority, IsName name by decide)
  have ordered : buildOrder priority root = order := by decide +kernel
  have unmerged : (Configuration.make motley .standard).Unmerged := by
    unfold Configuration.Unmerged
    decide +kernel
  have independent : root.Independent order :=
    Configuration.independent_make proper_motley (by decide +kernel) _ (by decide)
  have labelled : ∀ name ∈ order, ∀ j ∈ (Configuration.make motley .standard).data.child? name, j.Labelled :=
    fun name _ j hj => (Configuration.splitParameters_labelled labelled_motley).1.piece (Json.mem_pieces_of_child? hj)
  have built : order.filter (!ofRecords.fails root ·) = ["record", "flag", "list"] := by decide +kernel
  obtain ⟨enough, named⟩ := resolves unmerged (ordered ▸ labelled) (ordered ▸ independent) (steady_standard _ rfl)
  obtain ⟨r, t, ended, names⟩ := (named enough (session _) rfl).ends fun _ => Nat.lt_irrefl enough
  refine ⟨ordered, independent, enough, r, t, ended, ?_⟩
  exact names.trans ((congrArg (List.filter _) ordered).trans built)

/-! ### An entry with an empty key -/

/-- A map with an empty key, and a flag. -/
def nestling : Json := .object [("a", .object [("", .bool true)]), ("b", .bool true)]

theorem proper_nestling : nestling.Proper := by
  have inner : (Json.object [("", .bool true)]).Proper :=
    .object (by decide) (List.forall_mem_singleton.mpr (.bool _))
  refine .object (by decide) ?_
  simp only [List.forall_mem_cons]
  exact ⟨inner, .bool _, by simp⟩

/-- Both of its entries are to be built and refer to nothing, and neither is one that fails; but the root is never
resolved, however many steps there are. -/
theorem not_resolve_order :
    let c := Configuration.make nestling .standard
    let root := c.withHandler c.handler.withContainer
    (∀ key ∈ c.keys, IsName key) ∧ c.Unmerged ∧ Steady ofRecords.host root.handler ∧
      buildOrder [] root = ["a", "b"] ∧ root.Independent ["a", "b"] ∧
      ["a", "b"].filter (!ofRecords.fails root ·) = ["a", "b"] ∧
      ∀ steps, ofRecords.resolve steps c (session []) = none := by
  intro c root
  have grounded : c.Grounded := .make proper_nestling .standard
  have unmerged : c.Unmerged := by
    unfold Configuration.Unmerged
    decide +kernel
  have ordered : buildOrder [] root = ["a", "b"] := by decide +kernel
  have built : ["a", "b"].filter (!ofRecords.fails root ·) = ["a", "b"] := by decide +kernel
  let nest := root.child (.object [("", .bool true)])
  have single : entryKeys nest = [""] := by decide +kernel
  have selfNested : SelfNested nest := by
    refine ⟨⟨_, rfl⟩, by decide +kernel, ?_, by decide +kernel⟩
    unfold Configuration.Unmerged
    decide +kernel
  have flag : (root.child (.bool true)).Contained := Configuration.contained_child rfl
  have independent : root.Independent ["a", "b"] := by
    constructor
    · simp only [List.forall_mem_cons]
      exact ⟨⟨_, (Configuration.holds_iff (by decide)).mpr rfl⟩, ⟨_, (Configuration.holds_iff (by decide)).mpr rfl⟩,
        by simp⟩
    · simp only [List.forall_mem_cons]
      refine ⟨fun d hd e he => ?_, fun d hd e he => ?_, by simp⟩
      · obtain ⟨x, hx, rfl⟩ := hd.child_of_isName (grounded.withHandler _) (by decide)
        obtain rfl : _ = x := Option.some.inj hx
        rw [Configuration.eq_of_nests single he]
        exact selfNested.referenceless single
      · have inside : d.Grounded := hd.grounded (grounded.withHandler _)
        obtain ⟨x, hx, rfl⟩ := hd.child_of_isName (grounded.withHandler _) (by decide)
        obtain rfl : _ = x := Option.some.inj hx
        exact (flag.nests inside he).1.referenceless
  refine ⟨by decide +kernel, unmerged, steady_standard _ rfl, ordered, independent, built, fun steps => ?_⟩
  have endless : Run.After (ofRecords.resolve steps c) (session []) (fun _ _ => False) fun _ => True :=
    resolve_endless ofRecords grounded unmerged rfl (by decide) rfl selfNested ordered steps
  exact Option.eq_none_iff_forall_ne_some.mpr fun ⟨r, t⟩ ended => endless.of_ended ended

end Container

end ObjectGraph
