import ObjectGraph.Proofs.Normal.Stable
import ObjectGraph.Proofs.Settled
import ObjectGraph.Proofs.Wired.Pass

/-!
# `Proofs.Addressed` — which of its own keys a node is read back at

The keys of a node are listed, and each is read back as a path. The path of a key that is not empty and has no
dot is the key, so there the node gives what is written under the key. For any other key there is a node that gives
something else (`isName_iff_addressed`): the empty key is the whole node, and one with a dot leads into the members
of another.

Where all keys are names, building reads nothing but what is written under each key: `written` is the value of a
key as it is built from what is written there, and lists, maps and components are built of that. And a pass
attempts every name of its root, since the name has begun or begins now (`begun_of_trace`).

Contents:
* `isName_iff_addressed`, `lookup_of_mem_keys`;
* `buildFound`, `buildWritten`, `buildValue_eq_written`;
* `entriesBy`, `propertiesBy`: maps and components, by how the value of a key is built, with
  `buildCollection_eq_written`, `configureAt_eq_written`;
* `begun_of_trace`, `tryGetNamed_begins`, `buildAll_begins`, `pass_attempts`;
* `normalize_isObject`, `resolve_attempts`;
* `own_keys_addressed`, `not_own_keys_addressed`.
-/

namespace ObjectGraph

open Ledger (Accounted Trace)
open Run (After GoesOn)

namespace Configuration

variable {c : Configuration} {key : String} {members : List (String × Json)}

/-! ## Keys as paths -/

theorem raw?_of_lookup (hk : IsName key) {j : Json} (hd : c.data = .object members)
    (hj : members.lookup key = some j) : c.raw? key = some j := by
  rw [raw?_of_isName hk, hd]
  exact hj

/-- Names are the keys that are read back wherever they are. -/
theorem isName_iff_addressed (key : String) :
    IsName key ↔ ∀ (c : Configuration) (members : List (String × Json)) (j : Json), c.data = .object members →
      members.lookup key = some j → c.raw? key = some j := by
  refine ⟨fun hk c members j hd hj => raw?_of_lookup hk hd hj, fun addressed => ?_⟩
  -- in a node of this key alone
  have alone := addressed { empty Handler.standard with data := .object [(key, .null)] } [(key, .null)] .null rfl
    (by simp)
  have path : (Json.object [(key, .null)]).follow? ((segments key).filter (· ≠ "")) = some .null := alone
  obtain ⟨segment, rest, cut⟩ : ∃ segment rest, (segments key).filter (· ≠ "") = segment :: rest := by
    refine List.exists_cons_of_ne_nil fun none => ?_
    rw [none] at path
    exact absurd path (by simp [Json.follow?])
  have mem : segment ∈ (segments key).filter (· ≠ "") := cut ▸ List.mem_cons_self
  obtain ⟨there, some⟩ := List.mem_filter.mp mem
  have undotted : '.' ∉ segment.toList := by
    obtain ⟨piece, hp, rfl⟩ := List.mem_map.mp there
    rw [String.toList_ofList]
    exact Text.not_mem_of_mem_split hp
  have same : segment = key := by
    by_contra other
    have miss : ([(key, Json.null)] : List (String × Json)).lookup segment = none := by
      simp [List.lookup_cons, beq_false_of_ne other]
    rw [cut, Json.follow?, Json.child?, miss] at path
    exact absurd path (by simp)
  subst same
  exact ⟨by simpa using some, undotted⟩

/-- A node has what is written under a key that is a name. -/
theorem lookup_of_mem_keys (hd : c.data = .object members) (hm : key ∈ c.keys) :
    ∃ j, members.lookup key = some j := by
  rw [keys, hd] at hm
  exact Option.isSome_iff_exists.mp (Table.mem_keys_iff.mp hm)

end Configuration

namespace Container

open ObjectGraph.Configuration (resolveJson resolveText)

variable {k : Container} {m : Machine} {hops : Nat} {node : Configuration} {members : List (String × Json)}

/-! ## Values, by what is written -/

/-- How the value of a key is built, for a property of a type that may hold a value already. -/
abbrev Building := PropertyType → Option Value → String → Run (Except BuildError (Option Value))

/-- What is built of a value that was found. -/
def buildFound (m : Machine) (hops : Nat) (type : PropertyType) (existing : Option Value) (context : String) :
    Option Value → Run (Except BuildError (Option Value))
  | none => pure (.ok none)
  | some (.configuration node) => m.buildNode hops node type existing context
  | some (.resource r) =>
      match if buildsObjects type then r.toConfiguration? else none with
      | some node => m.buildNode hops node type existing context
      | none => pure (.ok (some (.resource r)))
  | some v => pure (.ok (some v))

/-- The value that is written in a node: lists and maps are nodes, anything else is resolved first. -/
def buildWritten (k : Container) (m : Machine) (hops : Nat) (node : Configuration) (j : Json) : Building :=
  fun type existing context =>
    if j.isContainer then m.buildNode hops (node.child j) type existing context
    else resolveJson (resolveText (k.surroundings m) hops) node j >>= buildFound m hops type existing context

/-- The value written under a key. -/
def written (k : Container) (m : Machine) (hops : Nat) (node : Configuration) (members : List (String × Json))
    (key : String) : Building :=
  (members.lookup key).elim (fun _ _ _ => pure (.ok none)) (k.buildWritten m hops node)

theorem buildValue_eq_found (parent : Configuration) (key : String) (type : PropertyType)
    (existing : Option Value) (context : String) :
    k.buildValue m hops parent key type existing context
      = if (parent.raw? key).any Json.isContainer then do
          match ← parent.readNode (k.surroundings m) hops key with
          | some node => m.buildNode hops node type existing context
          | none => pure (.ok none)
        else parent.valueAt (k.surroundings m) hops key >>= buildFound m hops type existing context := by
  unfold buildValue
  dsimp only
  split
  · rfl
  · refine congrArg (_ >>= ·) (funext fun v => ?_)
    match v with
    | none => rfl
    | some v => cases v <;> rfl

/-- At a key that is a name, what is written there is built. -/
theorem buildValue_eq_written (hd : node.data = .object members) {key : String} (hk : IsName key) :
    k.buildValue m hops node key = k.written m hops node members key := by
  funext type existing context
  have child : node.data.child? key = members.lookup key := by rw [hd]; rfl
  rw [buildValue_eq_found, Configuration.raw?_of_isName hk, Configuration.valueAt_of_isName _ _ hk, child, written]
  cases found : members.lookup key with
  | none => rfl
  | some j =>
      cases container : j.isContainer with
      | true =>
          rw [Configuration.readNode_of_child? _ _ hk (child.trans found) container]
          simp [buildWritten, container]
      | false => simp [buildWritten, container]

/-! ## Maps and components, by how values are built -/

/-- An entry of a map, by how its value is built; a failure is reported and counts as nothing. -/
def entryBy (value : Building) (context : String) : Run (Option Value) := do
  match ← value .any none context with
  | .ok v => return v
  | .error e => do
      Run.report .warn target "collection entry failed" [("context", .text context), ("error", .shown e.message)]
      return none

/-- The entries of a map, by how the value of a key is built. -/
def entriesBy (value : String → Building) (context : String) (done : List (String × Value)) :
    List String → Run (List (String × Value))
  | [] => return done
  | key :: keys => do
      if isDirective key then entriesBy value context done keys
      else
        let name := propertyName key
        match ← entryBy (value key) (entryContext context name) with
        | some v => entriesBy value context (Table.insert name v done) keys
        | none => entriesBy value context done keys

/-- A property of a component, by how its value is built. -/
def propertyBy (k : Container) (m : Machine) (hops : Nat) (i : Nat) (o : ObjectId) (node : Configuration)
    (context name : String) (value : Building) : Run Unit := do
  let path := entryContext context name
  let heap ← Run.heap
  match heap.property? o name with
  | none =>
      Run.report .warn target "no such property"
        [("context", .shown path), ("type_name", .text (heap.typeName o))]
  | some p =>
      match ← value p.type (existingValue heap o p) path with
      | .ok (some v) => k.injectAt m hops i o p v node.handler
      | .ok none => Run.report .debug target "property resolved to nothing" [("context", .shown path)]
      | .error e =>
          Run.report .warn target "property failed" [("context", .shown path), ("error", .shown e.message)]

/-- The properties of a component, by how the value of a key is built. -/
def propertiesBy (k : Container) (m : Machine) (hops : Nat) (i : Nat) (o : ObjectId) (node : Configuration)
    (context : String) (value : String → Building) : List String → Run Unit
  | [] => return ()
  | key :: keys => do
      Run.act (.reach i (propertyName key))
      k.propertyBy m hops i o node context (propertyName key) (value key)
      Run.act (.visit i (propertyName key))
      propertiesBy k m hops i o node context value keys

/-- The entries of a map are what is built at their keys. -/
theorem buildEntries_eq {value : String → Building} {keys : List String}
    (same : ∀ key ∈ keys, isDirective key = false → k.buildValue m hops node key = value key)
    (context : String) (done : List (String × Value)) :
    k.buildEntries m hops node context done keys = entriesBy value context done keys := by
  induction keys generalizing done with
  | nil => rfl
  | cons key keys ih =>
      have rest := ih fun key hk => same key (List.mem_cons_of_mem _ hk)
      unfold buildEntries entriesBy
      split
      · exact rest done
      next other =>
        rw [← same key List.mem_cons_self (by simpa using other)]
        refine congrArg (_ >>= ·) (funext fun v => ?_)
        cases v with
        | none => exact rest done
        | some v => exact rest _

/-- The properties of a component are what is built at their keys. -/
theorem configureKeys_eq {value : String → Building} {keys : List String}
    (same : ∀ key ∈ keys, k.buildValue m hops node key = value key) (i : Nat) (o : ObjectId) (context : String) :
    k.configureKeys m hops i o node context keys = k.propertiesBy m hops i o node context value keys := by
  induction keys with
  | nil => rfl
  | cons key keys ih =>
      have rest := ih fun key hk => same key (List.mem_cons_of_mem _ hk)
      unfold configureKeys propertiesBy
      rw [rest, ← same key List.mem_cons_self]
      rfl

/-- The entries of a map are built of what is written under its keys, if all of these are names. -/
theorem buildCollection_eq_written (hd : node.data = .object members)
    (names : ∀ key ∈ node.keys, isDirective key = false → IsName key) (context : String) :
    k.buildCollection m hops node context = (do
      return .map (← entriesBy (k.written m hops node members) context [] node.keys)) := by
  have map : node.isList = false := by rw [Configuration.isList, hd]; rfl
  unfold buildCollection
  rw [map, if_neg Bool.false_ne_true,
    buildEntries_eq fun key hk plain => buildValue_eq_written hd (names key hk plain)]

/-- The properties of a component are built of what is written under the keys of its node, if all of these are
names. -/
theorem configureAt_eq_written (hd : node.data = .object members)
    (names : ∀ key ∈ node.keys, isDirective key = false → IsName key) (o : ObjectId) (context : String) :
    k.configureAt m hops o node context
      = configureBy o ((entryKeys node).map propertyName) fun i =>
        k.propertiesBy m hops i o node context (k.written m hops node members) (entryKeys node) := by
  have same (key) (hk : key ∈ entryKeys node) :
      k.buildValue m hops node key = k.written m hops node members key := by
    obtain ⟨there, plain⟩ := List.mem_filter.mp hk
    exact buildValue_eq_written hd (names key there (by simpa using plain))
  unfold configureAt
  exact congrArg _ (funext fun i => configureKeys_eq same i o context)

/-! ## What a pass attempts -/

/-- A name that has a state has begun. -/
theorem begun_of_trace {b : Build} {root : Configuration} {acts : List Act} {l : Ledger}
    (h : Trace (.start b root) acts l) :
    l.build.root = some root ∧ ∀ name, (l.build.stateOf? name).isSome → .begin name ∈ acts := by
  induction h with
  | refl => exact ⟨rfl, fun name known => absurd known Bool.false_ne_true⟩
  | @act l acts a h ha ih =>
      obtain ⟨same, begun⟩ := ih
      have balanced := (Accounted.start b root).trace h
      rw [Ledger.build_after]
      have kept : (l.build.apply a).root = l.build.root := by
        cases a with
        | start root => exact ha.elim
        | _ => rfl
      refine ⟨kept.trans same, fun name known => ?_⟩
      have old (known : (l.build.stateOf? name).isSome) : .begin name ∈ a :: acts :=
        List.mem_cons_of_mem _ (begun name known)
      cases a with
      | start root => exact ha.elim
      | begin other =>
          rw [Build.stateOf?_begin] at known
          split at known
          next here => exact here ▸ List.mem_cons_self
          next => exact old known
      | finish other v =>
          obtain ⟨ws, building⟩ := balanced.names.building_of_hand ha.2
          exact old (Build.isSome_stateOf?_finish building v name ▸ known)
      | abandon other =>
          rw [Build.stateOf?_abandon] at known
          split at known
          next => exact absurd known Bool.false_ne_true
          next => exact old known
      | await other w =>
          obtain ⟨-, -, ws, building⟩ := ha
          exact old (Build.isSome_stateOf?_await building w name ▸ known)
      | _ => exact old known

/-- Where a pass is, by its acts so far. -/
theorem begun_of_settles {s t : Session} {root : Configuration}
    (h : accounts.ends () () (started s root) t) :
    ∃ acts, t.acts = acts ++ .start root :: s.acts ∧ t.build.root = some root
      ∧ ∀ name, (t.build.stateOf? name).isSome → .begin name ∈ acts := by
  obtain ⟨l, conducts, -⟩ := h.account _ rfl (Accounted.start s.build root) 0 0 ⟨rfl, rfl, rfl⟩
  obtain ⟨acts, hacts, trace⟩ := conducts.trace
  rw [← conducts.build]
  exact ⟨acts, hacts, begun_of_trace trace⟩

/-- A name of the root has begun when it is demanded, or begins. -/
theorem tryGetNamed_begins (hm : m.Accounts) (hops : Nat) {root : Configuration} {name : String} {s t : Session}
    (h : accounts.ends () () (started s root) t) (has : root.has name = true) :
    After (k.tryGetNamed m hops name) t
      (fun _ u => accounts.ends () () (started s root) u ∧
        ∃ acts, u.acts = acts ++ .start root :: s.acts ∧ .begin name ∈ acts) fun _ => True := by
  obtain ⟨acts, hacts, stays, begun⟩ := begun_of_settles h
  have begins : After (k.tryGetNamed m hops name) t
      (fun _ u => ∃ acts, u.acts = acts ++ .start root :: s.acts ∧ .begin name ∈ acts) fun _ => True := by
    have known (hs : (t.build.stateOf? name).isSome) :
        ∃ acts, t.acts = acts ++ .start root :: s.acts ∧ .begin name ∈ acts := ⟨acts, hacts, begun name hs⟩
    unfold tryGetNamed
    rw [Run.after_bind, Run.after_build]
    split
    next v hs => exact known (by rw [hs]; rfl)
    next ws hs => exact known (by rw [hs]; rfl)
    next hs =>
      rw [stays]
      dsimp only
      rw [if_pos has]
      refine (buildNamed_begun hm hops root name t).mono (fun _ u settles => ?_) fun _ _ => trivial
      obtain ⟨more, hmore, -⟩ := settles.goesOn
      refine ⟨more ++ .begin name :: acts, ?_, by simp⟩
      rw [hmore, List.append_assoc]
      exact congrArg (fun earlier => more ++ .begin name :: earlier) hacts
  refine ((tryGetNamed_within hm hops name t).and begins).mono (fun _ u hu => ⟨accounts.trans h hu.1, hu.2⟩)
    fun _ _ => trivial

/-- When all names of a row have been demanded, those that the root has have begun. -/
theorem buildAll_begins (n hops : Nat) {root : Configuration} {names : List String}
    (has : ∀ name ∈ names, root.has name = true) {s t : Session}
    (h : accounts.ends () () (started s root) t) :
    After (k.buildAll (k.machine n) hops names) t
      (fun _ u => ∃ acts, u.acts = acts ++ .start root :: s.acts ∧ ∀ name ∈ names, .begin name ∈ acts)
      fun _ => True := by
  induction names generalizing t with
  | nil =>
      obtain ⟨acts, hacts, -⟩ := begun_of_settles h
      exact ⟨acts, hacts, by simp⟩
  | cons name names ih =>
      unfold buildAll
      rw [Run.after_bind]
      refine (tryGetNamed_begins (machine_accounts k n) hops h (has name List.mem_cons_self)).mono
        (fun r u begun => ?_) fun _ => id
      obtain ⟨hu, acts, hacts, first⟩ := begun
      have rest {v : Session} (quiet : Run.Quiet u v) :
          After (k.buildAll (k.machine n) hops names) v
            (fun _ w => ∃ acts, w.acts = acts ++ .start root :: s.acts ∧ ∀ l ∈ name :: names, .begin l ∈ acts)
            fun _ => True := by
        have within := (buildAll_within k n hops names v).and
          (ih (fun l hl => has l (List.mem_cons_of_mem _ hl)) (accounts.trans hu (accounts.quiet quiet)))
        refine within.mono (fun _ w ended => ?_) fun _ _ => trivial
        obtain ⟨settles, later, hlater, all⟩ := ended
        obtain ⟨more, hmore, -⟩ := settles.goesOn
        have same : later = more ++ acts := by
          rw [hmore, quiet.acts, hacts, ← List.append_assoc] at hlater
          exact (List.append_cancel_right hlater).symm
        refine ⟨later, hlater, fun l hl => ?_⟩
        rcases List.mem_cons.mp hl with rfl | hl
        · exact same ▸ List.mem_append_right _ first
        · exact all l hl
      cases r with
      | ok v => exact rest (.refl u)
      | error e => exact rest ⟨rfl, rfl, rfl⟩

/-- A pass attempts every key of its root that is a name, says nothing about how to build and has no dash in
front. -/
theorem pass_attempts (k : Container) (steps : Nat) {root : Configuration} {members : List (String × Json)}
    (hd : root.data = .object members) (s : Session) :
    After (k.pass steps root) s
      (fun _ t => ∃ acts, t.acts = acts ++ .start root :: s.acts ∧
        ∀ key ∈ root.keys, IsName key → isDirective key = false → key.toList.head? ≠ some '-' →
          .begin key ∈ acts) fun _ => True := by
  have has : ∀ name ∈ buildOrder s.build.priority root, root.has name = true := by
    intro name hn
    exact (mem_buildOrder_iff.mp hn).2.2
  refine (pass_of_buildAll (buildAll_begins steps Configuration.depthLimit has
    (accounts.refl () (started s root)))).mono (fun _ t ⟨⟨acts, hacts, all⟩, _⟩ => ?_) fun _ => id
  refine ⟨acts, hacts, fun key hk name plain undashed => all key ?_⟩
  refine mem_buildOrder_iff.mpr ⟨.inr hk, buildable_iff.mpr ⟨plain, undashed⟩, ?_⟩
  obtain ⟨j, hj⟩ := Configuration.lookup_of_mem_keys hd hk
  rw [Configuration.has, Configuration.raw?_of_lookup name hd hj]
  rfl

/-- What a map is normalized to is a map. -/
theorem normalize_isObject (env : Surroundings) (hops n : Nat) {c : Configuration} (hc : c.data.isObject = true)
    (s : Session) :
    After (c.normalize env hops n) s (fun root _ => ∃ members, root.data = .object members) fun _ => True := by
  unfold Configuration.normalize
  rw [if_pos hc, Run.after_bind]
  refine .of_forall _ _ (fun flat t => ?_) fun _ => trivial
  rw [Run.after_bind]
  exact .of_forall _ _ (fun chain u => ⟨_, rfl⟩) fun _ => trivial

/-- Resolving a map is a pass over what it is normalized to, so that it attempts what the pass attempts. -/
theorem resolve_attempts {c : Configuration} {steps : Nat} {s t : Session} {r : Except BuildError Registry}
    (hc : c.data.isObject = true) (ended : k.resolve steps c s = some (r, t)) :
    ∃ root u acts,
      (c.withHandler c.handler.withContainer).normalize (k.surroundings (k.machine steps))
        Configuration.depthLimit steps s = some (root, u) ∧
      t.acts = acts ++ .start root :: u.acts ∧
      ∀ key ∈ root.keys, IsName key → isDirective key = false → key.toList.head? ≠ some '-' →
        .begin key ∈ acts := by
  unfold resolve at ended
  rw [hc, if_neg (by simp)] at ended
  obtain ⟨root, u, normal, rest⟩ := Run.ended_bind ended
  obtain ⟨members, object⟩ := (normalize_isObject _ _ steps (c := c.withHandler _) hc s).of_ended normal
  obtain ⟨acts, hacts, all⟩ := (pass_attempts k steps object u).of_ended rest
  exact ⟨root, u, acts, normal, hacts, all⟩

/-! ## Own keys in all -/

/-- **Own keys are read back**, as far as they are names, and no others are for sure. At a key that is a name a
node has what is written under the key, and its value is what is written there, resolved. Resolving a map
attempts every such key of its root that says nothing about how to build and has no dash in front. And where
all keys that are not directives are names, the entries of a map and the properties of a component are built of
what is written under each key. -/
theorem own_keys_addressed (k : Container) :
    (∀ key, IsName key ↔ ∀ (c : Configuration) (members : List (String × Json)) (j : Json),
        c.data = .object members → members.lookup key = some j → c.raw? key = some j)
      ∧ (∀ (c : Configuration) (members : List (String × Json)) (key : String), c.data = .object members →
        key ∈ c.keys → IsName key →
        ∃ j, members.lookup key = some j ∧ c.has key = true ∧ c.raw? key = some j ∧
          ∀ env hops, c.valueAt env hops key = resolveJson (resolveText env hops) c j)
      ∧ (∀ (c : Configuration) (steps : Nat) (s t : Session) (r : Except BuildError Registry),
        c.data.isObject = true → k.resolve steps c s = some (r, t) →
        ∃ root u acts,
          (c.withHandler c.handler.withContainer).normalize (k.surroundings (k.machine steps))
            Configuration.depthLimit steps s = some (root, u) ∧
          t.acts = acts ++ .start root :: u.acts ∧
          ∀ key ∈ root.keys, IsName key → isDirective key = false → key.toList.head? ≠ some '-' →
            .begin key ∈ acts)
      ∧ ∀ (m : Machine) (hops : Nat) (node : Configuration) (members : List (String × Json)),
        node.data = .object members →
        (∀ key, IsName key → k.buildValue m hops node key = k.written m hops node members key) ∧
        ((∀ key ∈ node.keys, isDirective key = false → IsName key) →
          (∀ context, k.buildCollection m hops node context = (do
            return .map (← entriesBy (k.written m hops node members) context [] node.keys))) ∧
          ∀ o context, k.configureAt m hops o node context
            = configureBy o ((entryKeys node).map propertyName) fun i =>
              k.propertiesBy m hops i o node context (k.written m hops node members) (entryKeys node)) := by
  refine ⟨Configuration.isName_iff_addressed, fun c members key hd hm hk => ?_,
    fun c steps s t r hc ended => resolve_attempts hc ended,
    fun m hops node members hd => ⟨fun key hk => buildValue_eq_written hd hk, fun names =>
      ⟨buildCollection_eq_written hd names, configureAt_eq_written hd names⟩⟩⟩
  obtain ⟨j, hj⟩ := Configuration.lookup_of_mem_keys hd hm
  have raw : c.raw? key = some j := Configuration.raw?_of_lookup hk hd hj
  have child : c.data.child? key = some j := by rw [hd]; exact hj
  refine ⟨j, hj, by rw [Configuration.has, raw]; rfl, raw, fun env hops => ?_⟩
  rw [Configuration.valueAt_of_isName env hops hk, child]
  rfl

/-- A map with a text under a name, and a record whose property refers to it. -/
def caption : Configuration :=
  .make (.object [("a", .string "x"), ("r", .object [("-class", .string "record"), ("p", .string "@named:a")])])
    Handler.standard

/-- Both names of the map are attempted, and the value of the first is what is written there. -/
theorem own_keys_addressed_caption :
    caption.raw? "a" = some (.string "x")
      ∧ (∃ j, caption.valueAt (ofRecords.outside 20) 3 "a"
        = resolveJson (resolveText (ofRecords.outside 20) 3) caption j)
      ∧ (∃ registry t, ofRecords.resolve 20 caption .start = some (.ok registry, t)
        ∧ .begin "a" ∈ t.acts ∧ .begin "r" ∈ t.acts)
      ∧ ofRecords.buildCollection (ofRecords.machine 20) 3 caption "top" = (do
          return .map (← entriesBy (ofRecords.written (ofRecords.machine 20) 3 caption
            (Configuration.members caption.data)) "top" [] caption.keys)) := by
  obtain ⟨names, read, attempts, built⟩ := own_keys_addressed ofRecords
  have object : caption.data = .object (Configuration.members caption.data) := rfl
  have keys : caption.keys = ["a", "r"] := rfl
  have plain : ∀ key ∈ ["a", "r"], IsName key ∧ isDirective key = false ∧ key.toList.head? ≠ some '-' := by decide
  have name : ∀ key ∈ caption.keys, IsName key := fun key hk => (plain key (keys ▸ hk)).1
  have first : "a" ∈ caption.keys := by rw [keys]; exact List.mem_cons_self
  have there : (Configuration.members caption.data).lookup "a" = some (.string "x") := rfl
  obtain ⟨j, -, -, -, value⟩ := read caption _ "a" object first (name "a" first)
  refine ⟨(names "a").mp (name "a" first) caption _ _ object there, ⟨j, value _ _⟩, ?_, ?_⟩
  · have ends : Run.succeeds (ofRecords.resolve 20 caption) .start (fun _ _ => true) = true := by decide +kernel
    obtain ⟨registry, t, ended, -⟩ := Run.of_succeeds ends
    obtain ⟨root, u, acts, normal, hacts, all⟩ := attempts caption 20 .start t _ rfl ended
    -- there is nothing to merge, so the root is the map itself
    have none : ∀ key ∈ Configuration.directiveKeys, (caption.data.child? key).isNone = true := by decide
    have unmerged : (caption.withHandler caption.handler.withContainer).Unmerged :=
      fun key hk => Option.isNone_iff_eq_none.mp (none key hk)
    have same := Configuration.normalize_object (ofRecords.surroundings (ofRecords.machine 20))
      Configuration.depthLimit 19 (c := caption.withHandler caption.handler.withContainer) object (by decide) unmerged
    rw [same] at normal
    obtain rfl : caption.withHandler caption.handler.withContainer = root :=
      congrArg Prod.fst (Option.some.inj normal)
    have begun (key) (hk : key ∈ ["a", "r"]) : .begin key ∈ t.acts := by
      obtain ⟨isName, undirected, undashed⟩ := plain key hk
      exact hacts ▸ List.mem_append_left _ (all key (keys ▸ hk) isName undirected undashed)
    exact ⟨registry, t, ended, begun "a" (by simp), begun "r" (by simp)⟩
  · have building := (built (ofRecords.machine 20) 3 caption _ object).2 fun key hk _ => name key hk
    exact building.1 "top"

/-- A key with a dot is not read back, since it is the path of something else. -/
theorem not_own_keys_addressed :
    ¬ ∀ (c : Configuration) (members : List (String × Json)) (key : String) (j : Json),
      c.data = .object members → key ∈ c.keys → members.lookup key = some j →
      c.has key = true ∧ c.raw? key = some j := by
  intro addressed
  have there := addressed (.make (.object [("a.b", .bool true)]) Handler.standard) _ "a.b" (.bool true) rfl
    (by decide) rfl
  exact absurd there.1 (by decide)

end Container

end ObjectGraph
