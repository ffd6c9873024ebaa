import ObjectGraph.Proofs.Reading

/-!
# `Proofs.Building` — building keeps to every protocol that its operations keep to

Building a node goes on into readings, into other nodes and into a few operations of the container that
change what it knows: configuring a component, constructing and instantiating one, giving the value of a
name, running a factory. A protocol that the container's machine and these operations keep to (`Keeps`) is
kept to by all of building, and so by the machine that has one more step.

A protocol may count a component that is going to be configured as a burden (`Hand`): one that has just been
constructed, or one that the property holds for which a node is built. It may be dropped.

Contents:
* `Hand`, `Machine.Keeps`, `Container.Keeps`;
* `buildValue_carries`, `buildCollection_carries`;
* `configureKeys_carries`, `injectAll_carries`;
* `buildNode_carries`, `portal_carries`, `buildAll_carries`;
* `Act.Naming`, `Serves`, and the operations on waiters and names, up to `Serves.tryGetNamed`;
* `runScript_carries`.
-/

namespace ObjectGraph

open Run (Course Protocol)

/-- The act concerns a name, or a named value that is parked. -/
def Act.Naming : Act → Prop
  | .begin _ | .finish _ _ | .abandon _ | .await _ _ | .parkName _ | .fillName _ _ _ => True
  | _ => False

/-- How a protocol counts a component that is going to be configured, or none. -/
structure Hand {B : Type} (P : Protocol B) where
  hold : Option ObjectId → B
  drop : ∀ o s, P.ends (hold o) (hold none) s s

namespace Hand

variable {B : Type} {P : Protocol B}

/-- Nothing is in hand. -/
abbrev idle (H : Hand P) : B := H.hold none

/-- Courses do not count what is in hand. -/
def uncounted (R : Course) : Hand R := ⟨fun _ => (), fun _ s => R.refl () s⟩

/-- What is in hand is dropped, and something is done without it. -/
theorem dropped (H : Hand P) {α : Type} {x : Run α} {b : B} (hx : P.Carries H.idle b x)
    (o : Option ObjectId) : P.Carries (H.hold o) b x :=
  fun s => P.after (H.drop o s) (hx s)

end Hand

/-- What the operations go on into keeps to a protocol: the container's schemes whatever is in hand, and
building a node with what the property holds. -/
structure Machine.Keeps {B : Type} {P : Protocol B} (H : Hand P) (m : Machine) : Prop where
  portal : ∀ p hops u params o, P.Carries (H.hold o) (H.hold o) (m.portal p hops u params)
  buildNode : ∀ hops node type existing context,
    P.Carries (H.hold (existing.bind Value.object?)) H.idle (m.buildNode hops node type existing context)

namespace Container

variable {B : Type} {P : Protocol B} {H : Hand P} {k : Container} {m : Machine}

theorem surroundings_within (hm : m.Keeps H) (o : Option ObjectId) :
    (k.surroundings m).Within (P.keeping (H.hold o)) :=
  fun p hops u params => hm.portal p hops u params o

/-! ## Values -/

theorem buildValue_carries (hm : m.Keeps H) (hops : Nat) (parent : Configuration) (key : String)
    (type : PropertyType) (existing : Option Value) (context : String) :
    P.Carries (H.hold (existing.bind Value.object?)) H.idle
      (k.buildValue m hops parent key type existing context) := by
  have he : (k.surroundings m).Within (P.keeping _) := surroundings_within hm (existing.bind Value.object?)
  have leave : ∀ v : Except BuildError (Option Value),
      P.Carries (H.hold (existing.bind Value.object?)) H.idle (pure v : Run _) :=
    fun v => H.dropped (.pure v) _
  have node := fun node => hm.buildNode hops node type existing context
  unfold buildValue
  dsimp only
  split
  · refine .bind (.of_keeping (Configuration.readNode_within he hops parent key)) fun found => ?_
    cases found with
    | none => exact leave _
    | some found => exact node found
  · refine .bind (.of_keeping (Configuration.valueAt_within he hops parent key)) fun v => ?_
    split
    · exact leave _
    · exact node _
    · split
      · exact node _
      · exact leave _
    · exact leave _

theorem buildEntry_carries (hm : m.Keeps H) (hops : Nat) (node : Configuration) (key context : String) :
    P.Carries H.idle H.idle (k.buildEntry m hops node key context) := by
  refine .bind (buildValue_carries hm hops node key .any none context) fun v => ?_
  cases v with
  | ok v => exact .pure _
  | error e => exact .bind (.report _ _ _ _) fun _ => .pure _

theorem buildItems_carries (hm : m.Keeps H) (hops : Nat) (node : Configuration) (context : String)
    (keys : List String) : P.Carries H.idle H.idle (k.buildItems m hops node context keys) := by
  induction keys with
  | nil => exact .pure _
  | cons key keys ih =>
      exact .bind (buildEntry_carries hm hops node key _) fun _ => .bind ih fun _ => .pure _

theorem buildEntries_carries (hm : m.Keeps H) (hops : Nat) (node : Configuration) (context : String)
    (done : List (String × Value)) (keys : List String) :
    P.Carries H.idle H.idle (k.buildEntries m hops node context done keys) := by
  induction keys generalizing done with
  | nil => exact .pure _
  | cons key keys ih =>
      unfold buildEntries
      split
      · exact ih done
      · refine .bind (buildEntry_carries hm hops node key _) fun v => ?_
        cases v with
        | none => exact ih done
        | some v => exact ih _

theorem buildCollection_carries (hm : m.Keeps H) (hops : Nat) (node : Configuration) (context : String) :
    P.Carries H.idle H.idle (k.buildCollection m hops node context) := by
  unfold buildCollection
  split
  · exact .bind (buildItems_carries hm hops node context _) fun _ => .pure _
  · exact .bind (buildEntries_carries hm hops node context [] _) fun _ => .pure _

/-! ## Nodes -/

/-- The container's own operations, with a machine to go on into, keep to a protocol. What is constructed
comes to hand, and is configured from there. -/
structure Keeps (H : Hand P) (k : Container) (m : Machine) : Prop where
  machine : m.Keeps H
  construct : ∀ name context s, Run.After (k.construct name context) s
    (fun r => P.ends H.idle (H.hold r.toOption) s) (P.cuts H.idle s)
  configureAt : ∀ hops o node context,
    P.Carries (H.hold (some o)) H.idle (k.configureAt m hops o node context)
  instantiate : ∀ hops name params, P.Carries H.idle H.idle (k.instantiate m hops name params)
  tryGetNamed : ∀ hops name, P.Carries H.idle H.idle (k.tryGetNamed m hops name)
  runFactory : ∀ hops name node context, P.Carries H.idle H.idle (k.runFactory m hops name node context)

theorem make_carries (hm : m.Keeps H) (hops : Nat) (path : String) (params : Params) :
    P.Carries H.idle H.idle (k.make m hops path params) := by
  refine .bind .build fun b => ?_
  cases b.root with
  | none => exact .pure _
  | some root =>
      have read := Configuration.readNode_within (surroundings_within (k := k) hm none) hops root path
      refine .bind (.of_keeping read) fun node => ?_
      cases node with
      | none => exact .bind (.report _ _ _ _) fun _ => .pure _
      | some template => exact hm.buildNode hops _ _ none _

theorem classHint_within {R : Course} (he : (k.surroundings m).Within R) (hops : Nat)
    (node : Configuration) (context : String) : Run.Within R (k.classHint m hops node context) := by
  have read := fun key => Configuration.readString_within he hops node key
  unfold classHint
  refine .bind (read _) fun name => ?_
  cases name with
  | some name => exact .pure _
  | none =>
      refine .bind (read _) fun name => ?_
      cases name with
      | some name => exact .pure _
      | none =>
          refine .bind (read _) fun logical => ?_
          cases logical with
          | none => exact .pure _
          | some logical =>
              dsimp only
              split
              · exact .pure _
              · split
                · exact .pure _
                · exact .pure _

/-- The component that a node configures comes to hand. -/
theorem componentFor_after (hk : k.Keeps H m) (type : PropertyType) (existing : Option Value)
    (context : String) (hint : Option String) (s : Session) :
    Run.After (k.componentFor type existing context hint) s
      (fun r => P.ends (H.hold (existing.bind Value.object?)) (H.hold (r.toOption.join)) s)
      (P.cuts (H.hold (existing.bind Value.object?)) s) := by
  have make : ∀ name, Run.After (do return (← k.construct name context).map some : Run _) s
      (fun r => P.ends (H.hold (existing.bind Value.object?)) (H.hold (r.toOption.join)) s)
      (P.cuts (H.hold (existing.bind Value.object?)) s) := by
    intro name
    rw [Run.after_bind]
    refine (hk.construct name context s).mono (fun r t h => ?_) fun t => P.trans_cut (H.drop _ s)
    have : ((r.map some).toOption).join = r.toOption := by cases r <;> rfl
    rw [Run.after_pure, this]
    exact P.trans (H.drop _ s) h
  unfold componentFor
  split
  · exact make _
  · exact P.refl _ s
  · exact make _
  · exact H.drop _ s
  · exact H.drop _ s

/-- Building a node keeps to what the operations it goes on into keep to. -/
theorem buildNode_carries (hk : k.Keeps H m) (hops : Nat) (node : Configuration) (type : PropertyType)
    (existing : Option Value) (context : String) :
    P.Carries (H.hold (existing.bind Value.object?)) H.idle
      (k.buildNode m hops node type existing context) := by
  have he : (k.surroundings m).Within (P.keeping _) :=
    surroundings_within hk.machine (existing.bind Value.object?)
  unfold buildNode
  refine .bind (.of_keeping (Configuration.normalize_within he hops node m.steps)) fun node => ?_
  split
  · exact H.dropped (.pure _) _
  · refine .bind (.of_keeping (Configuration.readString_within he hops node _)) fun factory => ?_
    cases factory with
    | some name => exact H.dropped (hk.runFactory hops name node context) _
    | none =>
        refine .bind (.of_keeping (classHint_within he hops node context)) fun hint => ?_
        cases hint with
        | error e => exact H.dropped (.pure _) _
        | ok hint =>
            intro s
            dsimp only
            rw [Run.after_bind]
            refine (componentFor_after hk type existing context hint s).mono (fun r t h => ?_) fun _ => id
            refine P.after h ?_
            match r with
            | .error e => exact P.refl _ t
            | .ok (some o) =>
                exact Protocol.Carries.bind (hk.configureAt hops o node context) (fun _ => .pure _) t
            | .ok none =>
                exact Protocol.Carries.bind (buildCollection_carries hk.machine hops node context)
                  (fun _ => .pure _) t

theorem project_carries (hm : m.Keeps H) (hops : Nat) (u : Uri) (v : Option Value) :
    P.Carries H.idle H.idle (k.project m hops u v) := by
  unfold project
  split
  · exact .of_keeping (Value.atPath_within (surroundings_within hm none) hops _ _)
  · exact .pure _

/-- What a scheme of the container makes of what it was given. -/
def answer (k : Container) (m : Machine) (hops : Nat) (u : Uri) : Except BuildError (Option Value) → Run Outcome
  | .error e => return .error (.dereference u.canonical e.message)
  | .ok v => do return .ok (← k.project m hops u v)

theorem answer_carries (hm : m.Keeps H) (hops : Nat) (u : Uri) (v : Except BuildError (Option Value)) :
    P.Carries H.idle H.idle (k.answer m hops u v) := by
  cases v with
  | error e => exact .pure _
  | ok v => exact .bind (project_carries hm hops u v) fun _ => .pure _

/-- The container's schemes keep to what the operations they go on into keep to. -/
theorem portal_carries (hk : k.Keeps H m) (p : Portal) (hops : Nat) (u : Uri) (params : Params) :
    P.Carries H.idle H.idle (k.portal m p hops u params) := by
  have close := @answer_carries _ _ _ k _ hk.machine hops u
  cases p with
  | named => exact .bind (hk.tryGetNamed hops u.name) close
  | make => exact .bind (make_carries hk.machine hops u.name params) close
  | new =>
      exact .bind (hk.instantiate hops u.name params) fun _ => .bind (.pure _) close

/-- Building names keeps to what giving the value of each keeps to. -/
theorem buildAll_carries {b : B} {hops : Nat} (hnamed : ∀ name, P.Carries b b (k.tryGetNamed m hops name))
    (names : List String) : P.Carries b b (k.buildAll m hops names) := by
  induction names with
  | nil => exact .pure _
  | cons name names ih =>
      refine .bind (hnamed name) fun v => ?_
      cases v with
      | ok v => exact ih
      | error e => exact .bind (.report _ _ _ _) fun _ => ih

/-! ## Names -/

/-- What serving waiters comes down to keeps to a protocol, with nothing in hand. -/
structure Serves (H : Hand P) (k : Container) (m : Machine) : Prop where
  keeps : m.Keeps H
  naming : ∀ {a : Act}, a.Naming → P.Carries H.idle H.idle (Run.act a)
  fillProperty : ∀ i place v, P.Carries H.idle H.idle (k.fillProperty i place v)
  deliver : ∀ hops w v, P.Carries H.idle H.idle (m.deliver hops w v)

namespace Serves

theorem waitOn (hm : k.Serves H m) (hops : Nat) (p : Pending) (slot : Slot) (place : List Place) :
    P.Carries H.idle H.idle (Container.waitOn m hops p slot place) := by
  refine .bind .build fun b => ?_
  split
  · exact hm.naming trivial
  · exact hm.deliver hops _ _
  · exact hm.deliver hops _ _

theorem waitOnAll (hm : k.Serves H m) (hops : Nat) (slot : Slot) (leaves : List (List Place × Pending)) :
    P.Carries H.idle H.idle (Container.waitOnAll m hops slot leaves) := by
  induction leaves with
  | nil => exact .pure _
  | cons leaf leaves ih => exact .bind (hm.waitOn hops leaf.2 slot leaf.1) fun _ => ih

theorem deliverAll (hm : k.Serves H m) (hops : Nat) (v : Option Value) (ws : List Waiter) :
    P.Carries H.idle H.idle (Container.deliverAll m hops v ws) := by
  induction ws with
  | nil => exact .pure _
  | cons w ws ih => exact .bind (hm.deliver hops w v) fun _ => ih

theorem finishName (hm : k.Serves H m) (hops : Nat) (name : String) (v : Value) :
    P.Carries H.idle H.idle (Container.finishName m hops name v) :=
  .bind .build fun _ => .bind (hm.naming trivial) fun _ => .bind (.report _ _ _ _) fun _ => hm.deliverAll hops _ _

theorem abandon (hm : k.Serves H m) (hops : Nat) (name : String) :
    P.Carries H.idle H.idle (Container.abandon m hops name) :=
  .bind .build fun _ => .bind (hm.naming trivial) fun _ => hm.deliverAll hops _ _

theorem fillName (hm : k.Serves H m) (hops i : Nat) (place : List Place) (v : Option Value) :
    P.Carries H.idle H.idle (Container.fillName m hops i place v) := by
  refine .bind .build fun b => ?_
  split
  · exact .pure _
  · refine .bind (hm.naming trivial) fun _ => ?_
    split
    · exact .pure _
    · exact hm.finishName hops _ _

/-- Serving a waiter keeps to what it goes on into. -/
theorem delivered (hm : k.Serves H m) (hops : Nat) (w : Waiter) (v : Option Value) :
    P.Carries H.idle H.idle (k.deliver m hops w v) := by
  have he : (k.surroundings m).Within (P.keeping H.idle) := surroundings_within hm.keeps none
  obtain ⟨slot, place, path⟩ := w
  unfold Container.deliver
  cases slot with
  | property i =>
      dsimp only
      split
      · exact .bind (.of_keeping (Value.atPath_within he hops _ _)) fun _ => hm.fillProperty _ _ _
      · exact .bind (.pure _) fun _ => hm.fillProperty _ _ _
  | name i =>
      dsimp only
      split
      · exact .bind (.of_keeping (Value.atPath_within he hops _ _)) fun _ => hm.fillName hops _ _ _
      · exact .bind (.pure _) fun _ => hm.fillName hops _ _ _

theorem settleName (hm : k.Serves H m) (hops : Nat) (name : String) (v : Value) :
    P.Carries H.idle H.idle (Container.settleName m hops name v) := by
  unfold Container.settleName
  split
  · exact hm.finishName hops name v
  · exact .bind (.report _ _ _ _) fun _ => .bind .build fun _ => .bind (hm.naming trivial) fun _ =>
      hm.waitOnAll hops _ _

theorem buildNamed (hm : k.Serves H m) (hops : Nat) (root : Configuration) (name : String) :
    P.Carries H.idle H.idle (k.buildNamed m hops root name) := by
  have current : P.Carries H.idle H.idle (Container.current name) := by
    refine .bind .build fun b => ?_
    split
    · exact .pure _
    · exact .pure _
    · exact .pure _
  refine .bind (hm.naming trivial) fun _ => .bind (.report _ _ _ _) fun _ =>
    .bind (buildValue_carries hm.keeps hops root name .any none name) fun v => ?_
  split
  · exact .bind (hm.settleName hops name _) fun _ => .bind current fun _ => .pure _
  · exact .bind (hm.abandon hops name) fun _ => .pure _
  · exact .bind (hm.abandon hops name) fun _ => .pure _

/-- The value of a name is given in keeping with what serving waiters and building go on into. -/
theorem tryGetNamed (hm : k.Serves H m) (hops : Nat) (name : String) :
    P.Carries H.idle H.idle (k.tryGetNamed m hops name) := by
  refine .bind .build fun b => ?_
  split
  · exact .pure _
  · exact .bind (.report _ _ _ _) fun _ => .pure _
  · split
    · exact .pure _
    · split
      · exact hm.buildNamed hops _ name
      · exact .pure _

end Serves

/-! ## Factories -/

/-- What a script does keeps to what each of its steps keeps to. -/
theorem runScript_carries (hk : m.Keeps H) {α : Type} (hops : Nat)
    (hcreate : ∀ c, P.Carries H.idle H.idle (Run.allocate c))
    (hset : ∀ o name v, P.Carries H.idle H.idle (Run.setProperty o name v))
    (hinject : ∀ o name v, P.Carries H.idle H.idle (k.inject m hops o name v))
    (hconfigure : ∀ o node context, P.Carries H.idle H.idle (k.configureAt m hops o node context))
    (hinstantiate : ∀ name params, P.Carries H.idle H.idle (k.instantiate m hops name params))
    (hnamed : ∀ name, P.Carries H.idle H.idle (k.tryGetNamed m hops name)) (script : Script α) :
    P.Carries H.idle H.idle (k.runScript m hops script) := by
  have he : (k.surroundings m).Within (P.keeping H.idle) := surroundings_within hk none
  induction script with
  | done a => exact .pure _
  | inspect next ih => exact .bind .heap fun _ => .bind .build fun _ => ih _ _
  | read c path r next ih => exact .bind (.of_keeping (Configuration.readAs_within he hops c path r)) ih
  | create c next ih => exact .bind (hcreate c) ih
  | set o name v next ih => exact .bind (hset o name v) ih
  | build c key type next ih => exact .bind (buildValue_carries hk hops c key type none key) ih
  | inject o name v next ih => exact .bind (hinject o name v) ih
  | configure o c next ih =>
      refine .bind (.bind (.of_keeping (Configuration.normalize_within he hops c m.steps)) fun _ =>
        .bind .heap fun _ => hconfigure o _ _) fun _ => ih
  | instantiate name params next ih => exact .bind (hinstantiate name params) ih
  | named name next ih => exact .bind (hnamed name) ih
  | make path params next ih => exact .bind (make_carries hk hops path params) ih

end Container

end ObjectGraph
