import ObjectGraph.Build.Container
import ObjectGraph.Proofs.Depth.Reading
import ObjectGraph.Proofs.Settled

/-!
# `Proofs.Depth.Building` — building with more references to the root left

A value that is being read may refer to a name, which is built then and there if it has not been. That the name is
demanded from inside a reading may show in the names that are building meanwhile; apart from these it shows only in
how many references to the root are left. So from the same state a name is built to the same, wherever it is
demanded, as long as no reference is reported that could not be followed any more (`tryGetNamed_agrees`). The
condition is needed: what is left at the end of a long chain of references is what the name gets, however short its
own chains are (`not_tryGetNamed_agrees`).

Contents:
* `Machine.Agrees`; assignments, waiters, parked values;
* values, components, names, factories, nodes: one lemma per operation of the container;
* `machine_agrees`; `tryGetNamed_agrees`;
* `ladder`, `not_tryGetNamed_agrees`.
-/

namespace ObjectGraph

open Run (Agrees)

/-- What the operations go on into does the same with more references to the root left. -/
structure Machine.Agrees (m : Machine) : Prop where
  portal : ∀ p {few many : Nat}, few ≤ many → ∀ u params,
    Run.Agrees (m.portal p few u params) (m.portal p many u params)
  buildNode : ∀ {few many : Nat}, few ≤ many → ∀ node type existing context,
    Run.Agrees (m.buildNode few node type existing context) (m.buildNode many node type existing context)
  deliver : ∀ {few many : Nat}, few ≤ many → ∀ w v, Run.Agrees (m.deliver few w v) (m.deliver many w v)

/-- Without steps nothing is gone on into. -/
theorem Machine.exhausted_agrees : Machine.exhausted.Agrees :=
  ⟨fun _ _ _ _ _ _ => .exhausted, fun _ _ _ _ _ => .exhausted, fun _ _ _ => .exhausted⟩

namespace Container

variable {k : Container} {m : Machine} {few many : Nat}

theorem surroundings_agrees (k : Container) (hm : m.Agrees) : (k.surroundings m).Agrees :=
  fun p _ _ le u params => hm.portal p le u params

/-! ## Assignments -/

theorem assign_agrees (host : Host) (o : ObjectId) (p : Property) (v : Value) (handler : Handler) :
    Agrees (assign host o p v handler) (assign host o p v handler) := by
  refine .bind .heap ?_
  intro heap
  dsimp only
  split
  · exact .report _ _ _ _
  · refine .bind (.act _) fun _ => .bind (.setProperty _ _ _) ?_
    intro taken
    cases taken with
    | true => exact .pure _
    | false => exact .report _ _ _ _

theorem track_agrees (o : ObjectId) : Agrees (track o) (track o) := by
  refine .bind .build ?_
  intro b
  split
  · exact .pure _
  · exact .bind (.act _) fun _ => .pure _

theorem notifyIfReady_agrees (i : Nat) : Agrees (notifyIfReady i) (notifyIfReady i) := by
  refine .bind .build ?_
  intro b
  split
  · exact .pure _
  · split
    · exact .pure _
    · exact .bind (.act _) fun _ => .bind .heap fun _ => .bind (.report _ _ _ _) fun _ => .finish _

theorem markConfigured_agrees (i : Nat) : Agrees (markConfigured i) (markConfigured i) :=
  .bind (.act _) fun _ => notifyIfReady_agrees i

theorem fillProperty_agrees (k : Container) (i : Nat) (place : List Place) (v : Option Value) :
    Agrees (k.fillProperty i place v) (k.fillProperty i place v) := by
  have release : ∀ i, Agrees (release i) (release i) := fun i => .bind (.act _) fun _ => notifyIfReady_agrees i
  refine .bind .build ?_
  intro b
  split
  · exact .pure _
  · refine .bind (.act _) ?_
    intro _
    split
    · exact .pure _
    · refine .bind .build ?_
      intro b
      split
      · exact .pure _
      · split
        · exact .bind (.report _ _ _ _) fun _ => release _
        · exact .bind (assign_agrees _ _ _ _ _) fun _ => release _

/-! ## Waiters -/

section

variable (hm : m.Agrees) (le : few ≤ many)

include hm le

theorem waitOn_agrees (p : Pending) (slot : Slot) (place : List Place) :
    Agrees (waitOn m few p slot place) (waitOn m many p slot place) := by
  refine .bind .build ?_
  intro b
  split
  · exact .act _
  · exact hm.deliver le _ _
  · exact hm.deliver le _ _

theorem waitOnAll_agrees (slot : Slot) (leaves : List (List Place × Pending)) :
    Agrees (waitOnAll m few slot leaves) (waitOnAll m many slot leaves) := by
  induction leaves with
  | nil => exact .pure _
  | cons leaf leaves ih => exact .bind (waitOn_agrees hm le leaf.2 slot leaf.1) fun _ => ih

theorem deliverAll_agrees (v : Option Value) (ws : List Waiter) :
    Agrees (deliverAll m few v ws) (deliverAll m many v ws) := by
  induction ws with
  | nil => exact .pure _
  | cons w ws ih => exact .bind (hm.deliver le w v) fun _ => ih

theorem finishName_agrees (name : String) (v : Value) :
    Agrees (finishName m few name v) (finishName m many name v) :=
  .bind .build fun _ => .bind (.act _) fun _ => .bind (.report _ _ _ _) fun _ => deliverAll_agrees hm le _ _

theorem abandon_agrees (name : String) : Agrees (abandon m few name) (abandon m many name) :=
  .bind .build fun _ => .bind (.act _) fun _ => deliverAll_agrees hm le _ _

theorem fillName_agrees (i : Nat) (place : List Place) (v : Option Value) :
    Agrees (fillName m few i place v) (fillName m many i place v) := by
  refine .bind .build ?_
  intro b
  split
  · exact .pure _
  · refine .bind (.act _) ?_
    intro _
    split
    · exact .pure _
    · exact finishName_agrees hm le _ _

theorem deliver_agrees (w : Waiter) (v : Option Value) :
    Agrees (k.deliver m few w v) (k.deliver m many w v) := by
  have read := Value.atPath_agrees (surroundings_agrees k hm) le
  obtain ⟨slot, place, path⟩ := w
  unfold deliver
  cases slot with
  | property i =>
      have serve := fillProperty_agrees k i place
      dsimp only
      split
      · exact .bind (read _ _) serve
      · exact .bind (.pure _) serve
  | name i =>
      have serve := fillName_agrees hm le i place
      dsimp only
      split
      · exact .bind (read _ _) serve
      · exact .bind (.pure _) serve

theorem injectAt_agrees (i : Nat) (o : ObjectId) (p : Property) (v : Value) (handler : Handler) :
    Agrees (k.injectAt m few i o p v handler) (k.injectAt m many i o p v handler) := by
  unfold injectAt
  cases v.placeholders with
  | nil => exact assign_agrees _ _ _ _ _
  | cons leaf leaves =>
      exact .bind .heap fun _ => .bind (.report _ _ _ _) fun _ => .bind .build fun _ =>
        .bind (.act _) fun _ => waitOnAll_agrees hm le _ _

theorem settleName_agrees (name : String) (v : Value) :
    Agrees (settleName m few name v) (settleName m many name v) := by
  unfold settleName
  cases v.placeholders with
  | nil => exact finishName_agrees hm le name v
  | cons leaf leaves =>
      exact .bind (.report _ _ _ _) fun _ => .bind .build fun _ => .bind (.act _) fun _ =>
        waitOnAll_agrees hm le _ _

/-! ## Values -/

theorem buildValue_agrees (parent : Configuration) (key : String) (type : PropertyType)
    (existing : Option Value) (context : String) :
    Agrees (k.buildValue m few parent key type existing context)
      (k.buildValue m many parent key type existing context) := by
  have he := surroundings_agrees k hm
  have node := fun node => hm.buildNode le node type existing context
  unfold buildValue
  cases (parent.raw? key).any Json.isContainer with
  | true =>
      refine .bind (Configuration.readNode_agrees he le parent key) ?_
      intro found
      cases found with
      | none => exact .pure _
      | some found => exact node found
  | false =>
      refine .bind (Configuration.valueAt_agrees he le parent key) ?_
      intro v
      split
      · exact .pure _
      · exact node _
      next r =>
        split
        · exact node _
        · exact .pure _
      · exact .pure _

theorem buildEntry_agrees (node : Configuration) (key context : String) :
    Agrees (k.buildEntry m few node key context) (k.buildEntry m many node key context) := by
  refine .bind (buildValue_agrees hm le node key .any none context) ?_
  intro v
  cases v with
  | ok v => exact .pure _
  | error e => exact .bind (.report _ _ _ _) fun _ => .pure _

theorem buildItems_agrees (node : Configuration) (context : String) (keys : List String) :
    Agrees (k.buildItems m few node context keys) (k.buildItems m many node context keys) := by
  induction keys with
  | nil => exact .pure _
  | cons key keys ih => exact .bind (buildEntry_agrees hm le node key _) fun _ => .bind ih fun _ => .pure _

theorem buildEntries_agrees (node : Configuration) (context : String) (done : List (String × Value))
    (keys : List String) :
    Agrees (k.buildEntries m few node context done keys) (k.buildEntries m many node context done keys) := by
  induction keys generalizing done with
  | nil => exact .pure _
  | cons key keys ih =>
      rw [buildEntries, buildEntries]
      cases isDirective key with
      | true => exact ih done
      | false =>
          refine .bind (buildEntry_agrees hm le node key _) ?_
          intro v
          cases v with
          | none => exact ih done
          | some v => exact ih _

theorem buildCollection_agrees (node : Configuration) (context : String) :
    Agrees (k.buildCollection m few node context) (k.buildCollection m many node context) := by
  unfold buildCollection
  cases node.isList with
  | true => exact .bind (buildItems_agrees hm le node context _) fun _ => .pure _
  | false => exact .bind (buildEntries_agrees hm le node context [] _) fun _ => .pure _

/-! ## Components -/

theorem configureKey_agrees (i : Nat) (o : ObjectId) (node : Configuration) (context key : String) :
    Agrees (k.configureKey m few i o node context key) (k.configureKey m many i o node context key) := by
  refine .bind .heap ?_
  intro heap
  cases heap.property? o (propertyName key) with
  | none => exact .report _ _ _ _
  | some p =>
      refine .bind (buildValue_agrees hm le node key p.type _ _) ?_
      intro v
      match v with
      | .ok (some v) => exact injectAt_agrees hm le i o p v _
      | .ok none => exact .report _ _ _ _
      | .error e => exact .report _ _ _ _

theorem configureKeys_agrees (i : Nat) (o : ObjectId) (node : Configuration) (context : String)
    (keys : List String) :
    Agrees (k.configureKeys m few i o node context keys) (k.configureKeys m many i o node context keys) := by
  induction keys with
  | nil => exact .pure _
  | cons key keys ih =>
      exact .bind (.act _) fun _ => .bind (configureKey_agrees hm le i o node context key) fun _ =>
        .bind (.act _) fun _ => ih

omit hm le in
theorem configureBy_agrees (o : ObjectId) (names : List String) {visit visit' : Nat → Run Unit}
    (hv : ∀ i, Agrees (visit i) (visit' i)) : Agrees (configureBy o names visit) (configureBy o names visit') :=
  .bind (track_agrees o) fun i => .bind (.act _) fun _ => .bind (hv i) fun _ => markConfigured_agrees i

theorem configureAt_agrees (o : ObjectId) (node : Configuration) (context : String) :
    Agrees (k.configureAt m few o node context) (k.configureAt m many o node context) :=
  configureBy_agrees o _ fun i => configureKeys_agrees hm le i o node context _

theorem configure_agrees (o : ObjectId) (node : Configuration) :
    Agrees (k.configure m few o node) (k.configure m many o node) :=
  .bind (Configuration.normalize_agrees (surroundings_agrees k hm) le node m.steps) fun _ =>
    .bind .heap fun _ => configureAt_agrees hm le o _ _

theorem inject_agrees (o : ObjectId) (name : String) (v : Value) :
    Agrees (k.inject m few o name v) (k.inject m many o name v) := by
  refine .bind .heap ?_
  intro heap
  cases heap.property? o name with
  | none => exact .bind (.report _ _ _ _) fun _ => .pure _
  | some p =>
      exact .bind (track_agrees o) fun i => .bind (injectAt_agrees hm le i o p v _) fun _ => .pure _

omit hm le in
theorem construct_agrees (k : Container) (name context : String) :
    Agrees (k.construct name context) (k.construct name context) := by
  unfold construct
  cases k.types.constructor? name with
  | none => exact .pure _
  | some make => exact .of_events fun _ => rfl

theorem injectAll_agrees (name : String) (i : Nat) (o : ObjectId) (params : Params) :
    Agrees (k.injectAll m few name i o params) (k.injectAll m many name i o params) := by
  induction params with
  | nil => exact .pure _
  | cons p params ih =>
      refine .bind (.act _) fun _ => .bind .heap ?_
      intro heap
      have next : ∀ x y : Run Unit, Agrees x y → Agrees
          (do x; Run.act (.visit i p.1); k.injectAll m few name i o params)
          (do y; Run.act (.visit i p.1); k.injectAll m many name i o params) :=
        fun x y h => .bind h fun _ => .bind (.act _) fun _ => ih
      cases heap.property? o p.1 with
      | none => exact next _ _ (.report _ _ _ _)
      | some q => exact next _ _ (injectAt_agrees hm le i o q p.2 _)

theorem instantiate_agrees (name : String) (params : Params) :
    Agrees (k.instantiate m few name params) (k.instantiate m many name params) := by
  refine .bind (construct_agrees k name name) ?_
  intro o
  cases o with
  | error e => exact .pure _
  | ok o =>
      exact .bind (configureBy_agrees o _ fun i => injectAll_agrees hm le name i o params) fun _ => .pure _

/-! ## Names -/

omit hm le in
theorem current_agrees (name : String) : Agrees (current name) (current name) := by
  refine .bind .build ?_
  intro b
  split
  · exact .pure _
  · exact .pure _
  · exact .pure _

theorem buildNamed_agrees (root : Configuration) (name : String) :
    Agrees (k.buildNamed m few root name) (k.buildNamed m many root name) := by
  refine .bind (.act _) fun _ => .bind (.report _ _ _ _) fun _ =>
    .bind (buildValue_agrees hm le root name .any none name) ?_
  intro v
  match v with
  | .ok (some v) =>
      exact .bind (settleName_agrees hm le name v) fun _ => .bind (current_agrees name) fun _ => .pure _
  | .ok none => exact .bind (abandon_agrees hm le name) fun _ => .pure _
  | .error e => exact .bind (abandon_agrees hm le name) fun _ => .pure _

/-- From the same state, asking for a name gives the same with more references to the root left. -/
theorem askName_agrees (name : String) :
    Agrees (k.tryGetNamed m few name) (k.tryGetNamed m many name) := by
  refine .bind .build ?_
  intro b
  split
  · exact .pure _
  · exact .bind (.report _ _ _ _) fun _ => .pure _
  · split
    · exact .pure _
    next root _ =>
      cases root.has name with
      | true => exact buildNamed_agrees hm le root name
      | false => exact .pure _

theorem make_agrees (path : String) (params : Params) :
    Agrees (k.make m few path params) (k.make m many path params) := by
  refine .bind .build ?_
  intro b
  cases b.root with
  | none => exact .pure _
  | some root =>
      refine .bind (Configuration.readNode_agrees (surroundings_agrees k hm) le root path) ?_
      intro node
      cases node with
      | none => exact .bind (.report _ _ _ _) fun _ => .pure _
      | some template => exact hm.buildNode le _ _ _ _

/-! ## Factories -/

theorem runScript_agrees {α : Type} (script : Script α) :
    Agrees (k.runScript m few script) (k.runScript m many script) := by
  have he := surroundings_agrees k hm
  induction script with
  | done a => exact .pure _
  | inspect next ih => exact .bind .heap fun _ => .bind .build fun _ => ih _ _
  | read c path r next ih => exact .bind (Configuration.readAs_agrees he le c path r) ih
  | create c next ih => exact .bind (.allocate c) ih
  | set o name v next ih => exact .bind (.setProperty o name v) ih
  | build c key type next ih => exact .bind (buildValue_agrees hm le c key type none key) ih
  | inject o name v next ih => exact .bind (inject_agrees hm le o name v) ih
  | configure o c next ih => exact .bind (configure_agrees hm le o c) fun _ => ih
  | instantiate name params next ih => exact .bind (instantiate_agrees hm le name params) ih
  | named name next ih => exact .bind (askName_agrees hm le name) ih
  | make path params next ih => exact .bind (make_agrees hm le path params) ih

omit hm le in
theorem finishOutputs_agrees (os : List ObjectId) : Agrees (finishOutputs os) (finishOutputs os) := by
  induction os with
  | nil => exact .pure _
  | cons o os ih =>
      refine .bind (.bind .build ?_) fun _ => ih
      intro b
      split
      · exact .pure _
      · split
        · exact .pure _
        · exact markConfigured_agrees _

theorem runFactory_agrees (name : String) (node : Configuration) (context : String) :
    Agrees (k.runFactory m few name node context) (k.runFactory m many name node context) := by
  unfold runFactory
  cases k.types.factory? name with
  | none => exact .pure _
  | some factory =>
      refine .bind (.act _) fun _ => .bind (.report _ _ _ _) fun _ =>
        .bind (runScript_agrees hm le (factory node)) ?_
      intro v
      cases v with
      | error e => exact .pure _
      | ok v => exact .bind (finishOutputs_agrees _) fun _ => .pure _

/-! ## Nodes -/

theorem classHint_agrees (node : Configuration) (context : String) :
    Agrees (k.classHint m few node context) (k.classHint m many node context) := by
  have read := fun key => Configuration.readString_agrees (surroundings_agrees k hm) le node key
  refine .bind (read _) ?_
  intro name
  cases name with
  | some name => exact .pure _
  | none =>
      refine .bind (read _) ?_
      intro name
      cases name with
      | some name => exact .pure _
      | none =>
          refine .bind (read _) ?_
          intro logical
          cases logical with
          | none => exact .pure _
          | some logical =>
              dsimp only
              split
              · exact .pure _
              · split
                · exact .pure _
                · exact .pure _

omit hm le in
theorem componentFor_agrees (k : Container) (type : PropertyType) (existing : Option Value) (context : String)
    (hint : Option String) :
    Agrees (k.componentFor type existing context hint) (k.componentFor type existing context hint) := by
  unfold componentFor
  split
  · exact .bind (construct_agrees _ _ _) fun _ => .pure _
  · exact .pure _
  · exact .bind (construct_agrees _ _ _) fun _ => .pure _
  · exact .pure _
  · exact .pure _

theorem buildNode_agrees (node : Configuration) (type : PropertyType) (existing : Option Value)
    (context : String) :
    Agrees (k.buildNode m few node type existing context) (k.buildNode m many node type existing context) := by
  have he := surroundings_agrees k hm
  refine .bind (Configuration.normalize_agrees he le node m.steps) ?_
  intro node
  by_cases itself : type = .configuration
  · rw [if_pos itself, if_pos itself]
    exact .pure _
  · rw [if_neg itself, if_neg itself]
    refine .bind (Configuration.readString_agrees he le node _) ?_
    intro factory
    cases factory with
    | some name => exact runFactory_agrees hm le name node context
    | none =>
        refine .bind (classHint_agrees hm le node context) ?_
        intro hint
        cases hint with
        | error e => exact .pure _
        | ok hint =>
            refine .bind (componentFor_agrees k type existing context hint) ?_
            intro o
            match o with
            | .error e => exact .pure _
            | .ok (some o) => exact .bind (configureAt_agrees hm le o node context) fun _ => .pure _
            | .ok none => exact .bind (buildCollection_agrees hm le node context) fun _ => .pure _

/-! ## The container's schemes -/

theorem answer_agrees (u : Uri) (v : Except BuildError (Option Value)) :
    Agrees (k.answer m few u v) (k.answer m many u v) := by
  cases v with
  | error e => exact .pure _
  | ok v =>
      have projected : Agrees (k.project m few u v) (k.project m many u v) := by
        unfold project
        split
        · exact Value.atPath_agrees (surroundings_agrees k hm) le _ _
        · exact .pure _
      exact .bind projected fun _ => .pure _

theorem portal_agrees (p : Portal) (u : Uri) (params : Params) :
    Agrees (k.portal m p few u params) (k.portal m p many u params) := by
  have close := @answer_agrees k m few many hm le u
  cases p with
  | named => exact .bind (askName_agrees hm le u.name) close
  | make => exact .bind (make_agrees hm le u.name params) close
  | new => exact .bind (instantiate_agrees hm le u.name params) fun _ => .bind (.pure _) close

end

/-- The container's machine does the same with more references to the root left, whatever steps it has. -/
theorem machine_agrees (k : Container) (n : Nat) : (k.machine n).Agrees := by
  induction n with
  | zero => exact Machine.exhausted_agrees
  | succ n ih =>
      exact ⟨fun p _ _ le u params => portal_agrees ih le p u params,
        fun le node type existing context => buildNode_agrees ih le node type existing context,
        fun le w v => deliver_agrees ih le w v⟩

/-- Wherever a name is demanded: from the same state the container does the same, and gives the same, with more
references to the root left, unless a reference is reported that is not followed any more. -/
theorem tryGetNamed_agrees (k : Container) (steps hops more : Nat) (name : String) (s : Session) :
    ∃ new, ((k.tryGetNamed (k.machine steps) hops name).run s).2.events = new ++ s.events ∧
      ((∀ e ∈ new, e.message ≠ some tooDeepMessage) →
        (k.tryGetNamed (k.machine steps) (hops + more) name).run s
          = (k.tryGetNamed (k.machine steps) hops name).run s) :=
  askName_agrees (machine_agrees k steps) (Nat.le_add_right hops more) name s

/-! ### A name at the end of a chain -/

/-- References to the root, each to the next. -/
def rungs (length : Nat) : List Json :=
  (List.range length).map fun i => .string ("#-c." ++ Decimal.natText (i + 1))

/-- A root with a chain of references, at the end of which stands a name. What the name is built to has a reference
of its own, to data. -/
def ladder (length : Nat) : Configuration :=
  .make (.object
    [("a", .string "#-c.0"), ("-c", .array (rungs length ++ [.string "@named:n"])),
     ("n", .array [.string "#x"]), ("x", .bool true)]) .standard

/-- What a name is built to in a pass, as text, if the pass succeeds. -/
def shownAfter? (c : Configuration) (priority : List String) (name : String) : Option (Option String) :=
  match (ofRecords.resolve 20 c).run (session priority) with
  | (some (.ok registry), t) => some ((registry.get? name).bind (·.display? t.heap))
  | _ => none

/-- A name that is first demanded at the end of a chain of thirty-one references has no references left for what it
is built to. If it is built first, or the chain is shorter by one, it has. -/
theorem not_tryGetNamed_agrees :
    shownAfter? (ladder 31) [] "n" = some (some "[null]") ∧
      shownAfter? (ladder 31) ["n"] "n" = some (some "[true]") ∧
      shownAfter? (ladder 30) [] "n" = some (some "[true]") := by
  refine ⟨?_, ?_, ?_⟩
  all_goals decide +kernel

end Container

end ObjectGraph
