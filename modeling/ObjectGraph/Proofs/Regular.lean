import ObjectGraph.Proofs.Building

/-!
# `Proofs.Regular` — what all operations of a container keep to

Whatever a container does comes down to a few things. Components are set, made and constructed; acts are made, most
of which have to do with names or only say what goes on; and three operations do several things that belong together:
one tracks a component, one says that it is configured, and one fills a place of a parked assignment and goes on to
make it. A course that these keep to (`Regular`) is kept to by every operation of the container, by its machine, and
by the scripts of factories.

Contents:
* `Act.Free`, `Tracked.Ready`; `assign_cases`, `notifyIfReady_cases`; `Regular`, `Obeys`;
* the operations of a container, one lemma for each;
* `machine_obeys`.
-/

namespace ObjectGraph

open Run (After Course Within)

/-- The act neither starts a pass, nor touches an assignment that is parked already, nor says of a component that it is
tracked, configured or told so. -/
def Act.Free : Act → Prop
  | .start _ => False
  | .fill _ _ _ => False
  | .release _ => False
  | .track _ => False
  | .configured _ => False
  | .notify _ => False
  | _ => True

theorem Act.Naming.free {a : Act} (h : a.Naming) : a.Free := by
  cases a with
  | begin _ | finish _ _ | abandon _ | await _ _ | parkName _ | fillName _ _ _ => trivial
  | _ => exact h.elim

/-- A tracked component is ready to be told that it is configured. -/
structure Tracked.Ready (t : Tracked) : Prop where
  configured : t.configured = true
  pending : t.pending = 0
  notified : t.notified = false

namespace Container

/-- An assignment is not made at all, or the property is written. -/
theorem assign_cases (host : Host) (o : ObjectId) (p : Property) (v : Value) (handler : Handler) (s : Session) :
    After (assign host o p v handler) s
      (fun _ t => Run.Quiet s t ∨ t.build = s.build ∧ t.acts = .write o p.name :: s.acts ∧
        ∃ w, t.heap = (s.heap.set o p.name w).2)
      fun _ => False := by
  unfold assign
  rw [Run.after_bind, Run.after_heap]
  dsimp only
  split
  · exact .inl ⟨rfl, rfl, rfl⟩
  next w hw =>
    rw [Run.after_bind, Run.after_act, Run.after_bind, Run.after_setProperty]
    split
    · exact .inr ⟨rfl, rfl, w, rfl⟩
    · exact .inr ⟨rfl, rfl, w, rfl⟩

/-- A component is told if it is ready, and otherwise nothing is done. -/
theorem notifyIfReady_cases (i : Nat) (s : Session) :
    After (notifyIfReady i) s
      (fun _ t => (t = s ∧ ∀ w, s.build.objects[i]? = some w → ¬ w.Ready) ∨
        ∃ w, s.build.objects[i]? = some w ∧ w.Ready ∧ t.build = s.build.apply (.notify i) ∧
          t.acts = .notify i :: s.acts ∧ t.heap = s.heap.finish w.object)
      fun _ => False := by
  unfold notifyIfReady
  rw [Run.after_bind, Run.after_build]
  split
  next none => exact .inl ⟨rfl, fun w hw => absurd (none.symm.trans hw) (by simp)⟩
  next w hw =>
    split
    next unready =>
      refine .inl ⟨rfl, fun r hr ready => ?_⟩
      obtain rfl := Option.some.inj (hw.symm.trans hr)
      simp [ready.configured, ready.pending, ready.notified] at unready
    next hready =>
      have ready : w.configured = true ∧ w.pending = 0 ∧ w.notified = false := by
        simpa [and_assoc] using hready
      exact .inr ⟨w, hw, ⟨ready.1, ready.2.1, ready.2.2⟩, rfl, rfl, rfl⟩

/-- What the operations of a container come down to keeps to a course. -/
structure Regular (k : Container) (R : Course) : Prop where
  setProperty : ∀ o name v, Within R (Run.setProperty o name v)
  allocate : ∀ c, Within R (Run.allocate c)
  construct : ∀ name context, Within R (k.construct name context)
  act : ∀ {a : Act}, a.Free → Within R (Run.act a)
  track : ∀ o, Within R (track o)
  markConfigured : ∀ i, Within R (markConfigured i)
  fillProperty : ∀ i place v, Within R (k.fillProperty i place v)

/-- So does what a machine does, by which the operations go on into one another. -/
structure Obeys (k : Container) (R : Course) (m : Machine) : Prop where
  regular : k.Regular R
  within : m.Keeps (.uncounted R)
  deliver : ∀ hops w v, Within R (m.deliver hops w v)

variable {k : Container} {R : Course} {m : Machine}

/-! ## Assignments -/

theorem assign_obeys (hact : ∀ {a : Act}, a.Free → Within R (Run.act a))
    (hset : ∀ o name v, Within R (Run.setProperty o name v)) (host : Host) (o : ObjectId) (p : Property) (v : Value)
    (handler : Handler) : Within R (assign host o p v handler) := by
  refine .bind .heap fun heap => ?_
  dsimp only
  split
  · exact .report _ _ _ _
  · refine .bind (hact trivial) fun _ => .bind (hset _ _ _) fun accepted => ?_
    split
    · exact .pure _
    · exact .report _ _ _ _

theorem Obeys.serves (hm : k.Obeys R m) : k.Serves (.uncounted R) m :=
  ⟨hm.within, fun h => hm.regular.act h.free, hm.regular.fillProperty, hm.deliver⟩

theorem injectAt_obeys (hm : k.Obeys R m) (hops i : Nat) (o : ObjectId) (p : Property) (v : Value)
    (handler : Handler) : Within R (k.injectAt m hops i o p v handler) := by
  unfold injectAt
  split
  · exact assign_obeys hm.regular.act hm.regular.setProperty _ _ _ _ _
  · exact .bind .heap fun _ => .bind (.report _ _ _ _) fun _ => .bind .build fun _ =>
      .bind (hm.regular.act trivial) fun _ => hm.serves.waitOnAll hops _ _

/-! ## Components -/

theorem configureKey_obeys (hm : k.Obeys R m) (hops i : Nat) (o : ObjectId) (node : Configuration)
    (context key : String) : Within R (k.configureKey m hops i o node context key) := by
  refine .bind .heap fun heap => ?_
  split
  · exact .report _ _ _ _
  · refine .bind (buildValue_carries hm.within hops node key _ _ _) fun v => ?_
    split
    · exact injectAt_obeys hm hops i o _ _ _
    · exact .report _ _ _ _
    · exact .report _ _ _ _

theorem configureKeys_obeys (hm : k.Obeys R m) (hops i : Nat) (o : ObjectId) (node : Configuration)
    (context : String) (keys : List String) :
    Within R (k.configureKeys m hops i o node context keys) := by
  induction keys with
  | nil => exact .pure _
  | cons key keys ih =>
      exact .bind (hm.regular.act trivial) fun _ => .bind (configureKey_obeys hm hops i o node context key)
        fun _ => .bind (hm.regular.act trivial) fun _ => ih

theorem injectAll_obeys (hm : k.Obeys R m) (hops i : Nat) (o : ObjectId) (name : String) (params : Params) :
    Within R (k.injectAll m hops name i o params) := by
  induction params with
  | nil => exact .pure _
  | cons e params ih =>
      refine .bind (hm.regular.act trivial) fun _ => .bind .heap fun heap => ?_
      split
      · exact .bind (injectAt_obeys hm hops i o _ _ _) fun _ => .bind (hm.regular.act trivial) fun _ => ih
      · exact .bind (.report _ _ _ _) fun _ => .bind (hm.regular.act trivial) fun _ => ih

theorem configureBy_obeys (regular : k.Regular R) (o : ObjectId) (names : List String) {visit : Nat → Run Unit}
    (hv : ∀ i, Within R (visit i)) : Within R (configureBy o names visit) :=
  .bind (regular.track o) fun i => .bind (regular.act trivial) fun _ => .bind (hv i) fun _ =>
    regular.markConfigured i

theorem configureAt_obeys (hm : k.Obeys R m) (hops : Nat) (o : ObjectId) (node : Configuration)
    (context : String) : Within R (k.configureAt m hops o node context) :=
  configureBy_obeys hm.regular o _ fun i => configureKeys_obeys hm hops i o node context _

theorem instantiate_obeys (hm : k.Obeys R m) (hops : Nat) (name : String) (params : Params) :
    Within R (k.instantiate m hops name params) := by
  refine .bind (hm.regular.construct name name) fun o => ?_
  cases o with
  | error e => exact .pure _
  | ok o =>
      have inject := fun i => injectAll_obeys hm hops i o name params
      exact .bind (configureBy_obeys hm.regular o _ inject) fun _ => .pure _

theorem inject_obeys (hm : k.Obeys R m) (hops : Nat) (o : ObjectId) (name : String) (v : Value) :
    Within R (k.inject m hops o name v) := by
  refine .bind .heap fun heap => ?_
  split
  · exact .bind (.report _ _ _ _) fun _ => .pure _
  · exact .bind (hm.regular.track o) fun i => .bind (injectAt_obeys hm hops i o _ v _) fun _ => .pure _

/-! ## Factories -/

theorem finishOutputs_obeys (regular : k.Regular R) (os : List ObjectId) : Within R (finishOutputs os) := by
  induction os with
  | nil => exact .pure _
  | cons o os ih =>
      refine .bind (.bind .build fun b => ?_) fun _ => ih
      split
      · exact .pure _
      · split
        · exact .pure _
        · exact regular.markConfigured _

theorem runScript_obeys (hm : k.Obeys R m) {α : Type} (hops : Nat) (script : Script α) :
    Within R (k.runScript m hops script) :=
  runScript_carries hm.within hops hm.regular.allocate hm.regular.setProperty (inject_obeys hm hops)
    (configureAt_obeys hm hops) (instantiate_obeys hm hops) (hm.serves.tryGetNamed hops) script

theorem runFactory_obeys (hm : k.Obeys R m) (hops : Nat) (name : String) (node : Configuration)
    (context : String) : Within R (k.runFactory m hops name node context) := by
  unfold runFactory
  split
  · exact .pure _
  · refine .bind (hm.regular.act trivial) fun _ => .bind (.report _ _ _ _) fun _ =>
      .bind (runScript_obeys hm hops _) fun v => ?_
    cases v with
    | error e => exact .pure _
    | ok v => exact .bind (finishOutputs_obeys hm.regular _) fun _ => .pure _

/-! ## The machine -/

theorem keeps_of_obeys (hm : k.Obeys R m) : k.Keeps (.uncounted R) m :=
  ⟨hm.within, hm.regular.construct, configureAt_obeys hm, instantiate_obeys hm, hm.serves.tryGetNamed,
    runFactory_obeys hm⟩

/-- Whatever the container's machine does keeps to a course that its operations keep to. -/
theorem machine_obeys (regular : k.Regular R) (n : Nat) : k.Obeys R (k.machine n) := by
  induction n with
  | zero =>
      refine ⟨regular, ⟨fun _ _ _ _ _ => .exhausted, fun _ _ _ _ _ => .exhausted⟩, ?_⟩
      exact fun _ _ _ => .exhausted
  | succ n ih =>
      exact ⟨regular, ⟨fun p hops u params _ => portal_carries (keeps_of_obeys ih) p hops u params,
        buildNode_carries (keeps_of_obeys ih)⟩, ih.serves.delivered⟩

end Container

end ObjectGraph
