import ObjectGraph.Proofs.Settled
import ObjectGraph.Proofs.Telling.Frame
import ObjectGraph.Sample.Classes

/-!
# `Proofs.Telling.Pass` — in a pass each component is told once, and last

A pass starts with nothing tracked, which is tidy, and its acts are in order (`pass_tidy`). They are also a
trace of the ledger. So a component is told at most once, with all its properties visited and all its
assignments made, and nothing is written to it afterwards; and if the pass succeeds, every component that
was built has been told (`pass_tells`).

Contents:
* `tidy_started`, `buildAll_tidies`, `pass_tidy`;
* `Builds`, `BuiltAmong`, and that what is built is tracked;
* `enter_unique`, `count_told_le_one`;
* `pass_tells`.
-/

namespace ObjectGraph

open Ledger (Accounted Trace Orderly)
open Run (After Protocol)

variable {k : Container} {s : Session}

namespace Container

/-! ## A pass is tidy -/

/-- Where a pass has just started nothing is tracked, so nothing is out of order. -/
theorem tidy_started (s : Session) (root : Configuration) : Tidy (started s root) (started s root) := by
  have acts : (started s root).passActs = [] := rfl
  have objects : (started s root).build.objects = [] := rfl
  refine ⟨⟨⟨rfl, trivial⟩, le_refl _, ?_, ?_, ?_, ?_, fun o c ho hc => ?_, fun o q p ho _ hp => ?_,
    fun o q o' q' p ho _ hp => ?_, fun d hd => ?_⟩, fun o => ?_, ?_⟩
  · simp [objects]
  · simp [objects]
  · simp [acts]
  · simp [acts]
  · exact absurd (List.getElem?_eq_some_iff.mp hc).1 (Nat.not_lt.mpr ho)
  · exact absurd hp.lt (Nat.not_lt.mpr ho)
  · exact absurd hp.lt (Nat.not_lt.mpr ho)
  · exact absurd hd (by simp [started, Build.apply, Build.start])
  · simp [objects]
  · simp [AllTold, objects]

theorem buildAll_tidies {a : Session} (hk : k.types.MakesFresh) (n hops : Nat) (names : List String) :
    (tidying a).Carries none none (k.buildAll (k.machine n) hops names) :=
  buildAll_carries ((serves_of_tidies (machine_tidies hk a n)).tryGetNamed hops) names

/-- A plain pass is in order wherever it stops, and when it is over every component that it has tracked is
configured. -/
theorem pass_tidy (hk : k.types.MakesFresh) (steps : Nat) (root : Configuration) (s : Session) :
    After (k.pass steps root) s
      (fun _ t => t.Plain → Tidy (started s root) t ∧ ∀ r ∈ t.build.objects, r.configured = true)
      (fun t => t.Plain → Sound (started s root) t) := by
  have start := tidy_started s root
  have all := buildAll_tidies (a := started s root) hk steps Configuration.depthLimit
    (buildOrder s.build.priority root) (started s root)
  refine (pass_of_buildAll all).mono (fun _ t h plain => ?_) fun t h plain => h.2 plain start (by simp)
  have upkeep := h.1.2 plain start (by simp)
  refine ⟨upkeep.tidy, fun r hr => ?_⟩
  obtain ⟨i, hi⟩ := List.mem_iff_getElem?.mp hr
  exact upkeep.closed i r hi (Nat.zero_le _)

end Container

/-! ## What is built is tracked -/

namespace Container

variable {m : Machine}

/-- The instance of a class that has been made and given its properties is tracked. -/
theorem instantiate_tracks (hm : m.Accounts) (hops : Nat) (name : String) (params : Params) (s : Session) :
    After (k.instantiate m hops name params) s
      (fun r t => ∀ o, r = .ok o → o ∈ t.build.trackedOnes) fun _ => True := by
  unfold instantiate
  rw [Run.after_bind]
  refine .of_forall _ _ (fun r t => ?_) fun _ => trivial
  cases r with
  | error e => simp
  | ok p =>
      rw [Run.after_bind]
      refine (configureBy_tracks p _ (fun i => injectAll_within hm hops i p name params) t).mono
        (fun _ u h o ho => ?_) fun _ _ => trivial
      obtain rfl : p = o := by simpa using ho
      exact h.2

/-- Where a factory has built a node, it has taken over. -/
theorem runFactory_delegates (hm : m.Accounts) (hops : Nat) (name : String) (node : Configuration)
    (context : String) (s : Session) :
    After (k.runFactory m hops name node context) s
      (fun r t => ∀ v, r = .ok v → ∃ factory, .delegate factory ∈ t.passActs) fun _ => True := by
  unfold runFactory
  split
  · simp
  · rw [Run.after_bind, Run.after_act]
    refine (delegate_within hm hops name _ node context _).mono (fun r t h v _ => ?_) fun _ _ => trivial
    have did := did_act s (e := .delegate name) (by simp)
    exact ⟨name, mem_passActs_of_goesOn h.goesOn (did.passActs ▸ List.mem_cons_self)⟩

/-- The component that a node builds is tracked, unless a factory has taken over: whether the node names its
class or its logical type, its property declares the class, or the property held the component. -/
theorem buildNode_tracks (hm : m.Accounts) (hops : Nat) (node : Configuration) (type : PropertyType)
    (existing : Option Value) (context : String) (s : Session) :
    After (k.buildNode m hops node type existing context) s
      (fun r t => ∀ o, r = .ok (some (.object o)) →
        o ∈ t.build.trackedOnes ∨ ∃ factory, .delegate factory ∈ t.passActs) fun _ => True := by
  unfold buildNode
  rw [Run.after_bind]
  refine .of_forall _ _ (fun normal t => ?_) fun _ => trivial
  split
  · simp
  · rw [Run.after_bind]
    refine .of_forall _ _ (fun factory u => ?_) fun _ => trivial
    cases factory with
    | some name =>
        exact (runFactory_delegates hm hops name normal context u).mono
          (fun _ _ h o ho => .inr (h _ ho)) fun _ _ => trivial
    | none =>
        rw [Run.after_bind]
        refine .of_forall _ _ (fun hint v => ?_) fun _ => trivial
        cases hint with
        | error e => simp
        | ok hint =>
            rw [Run.after_bind]
            refine .of_forall _ _ (fun component w => ?_) fun _ => trivial
            rcases component with e | _ | p
            · simp
            · rw [Run.after_bind]
              unfold buildCollection
              split
              · rw [Run.after_bind]
                exact .of_forall _ _ (fun _ _ => by simp) fun _ => trivial
              · rw [Run.after_bind]
                exact .of_forall _ _ (fun _ _ => by simp) fun _ => trivial
            · rw [Run.after_bind]
              have visits := fun i => configureKeys_within (k := k) hm hops i p normal context (entryKeys normal)
              refine (configureBy_tracks p _ visits w).mono (fun _ x h o ho => ?_) fun _ _ => trivial
              obtain rfl : p = o := by simpa using ho
              exact .inl h.2

/-- A component has just been built where the session `v` stands. -/
inductive Builds (k : Container) (o : ObjectId) (v : Session) : Prop
  /-- By a node: its class or its logical type, the class that its property declares, or in place. -/
  | byNode {steps hops : Nat} {node : Configuration} {type : PropertyType} {existing : Option Value}
      {context : String} {u : Session}
      (h : k.buildNode (k.machine steps) hops node type existing context u
        = some (.ok (some (.object o)), v))
  /-- As an instance of a class with given properties, which is what a reference to a new one asks for. -/
  | asInstance {steps hops : Nat} {name : String} {params : Params} {u : Session}
      (h : k.instantiate (k.machine steps) hops name params u = some (.ok o, v))

/-- A component was built within a pass that has made some acts, the newest first: at some moment of the pass
it had just been built. -/
def BuiltAmong (k : Container) (start : Ledger) (acts : List Act) (o : ObjectId) : Prop :=
  ∃ v : Session, v.passActs <:+ acts ∧ v.build = (start.replay v.passActs).build ∧ k.Builds o v

theorem Builds.tracked {o : ObjectId} {v : Session} (h : k.Builds o v) :
    o ∈ v.build.trackedOnes ∨ ∃ factory, .delegate factory ∈ v.passActs := by
  cases h with
  | byNode h => exact (buildNode_tracks (machine_accounts k _) _ _ _ _ _ _).of_ended h o rfl
  | asInstance h => exact .inl ((instantiate_tracks (machine_accounts k _) _ _ _ _).of_ended h o rfl)

/-- Where no factory takes over, what was built within a pass is tracked when it is over. -/
theorem BuiltAmong.tracked {start l : Ledger} {acts : List Act} {o : ObjectId}
    (h : k.BuiltAmong start acts o) (trace : Trace start acts l)
    (undelegated : ∀ factory, .delegate factory ∉ acts) : o ∈ l.build.trackedOnes := by
  obtain ⟨v, moment, build, builds⟩ := h
  rcases builds.tracked with ho | ⟨factory, hf⟩
  · exact trace.trackedOnes_subset moment (build ▸ ho)
  · exact absurd (moment.subset hf) (undelegated factory)

end Container

/-! ## Counting -/

/-- In an order of acts a component is entered once. -/
theorem enter_unique {l : Ledger} {acts : List Act} (h : Orderly l acts) {i : Nat}
    {names names' : List String} (hn : .enter i names ∈ acts) (hn' : .enter i names' ∈ acts) :
    names = names' := by
  induction acts with
  | nil => exact absurd hn (by simp)
  | cons a acts ih =>
      rcases List.mem_cons.mp hn with rfl | hn <;> rcases List.mem_cons.mp hn' with he | hn'
      · exact (Act.enter.inj he).2.symm
      · exact absurd hn' (h.1 names')
      · exact absurd hn ((he ▸ h.1 : Act.InOrder _ _ (.enter i names')) names)
      · exact ih h.2 hn hn'

/-- Where each component is tracked once, none counts twice. -/
theorem count_told_le_one {objects : List Tracked} (hn : (objects.map (·.object)).Nodup) (o : ObjectId) :
    objects.countP (fun t => t.object == o && t.notified) ≤ 1 := by
  calc objects.countP (fun t => t.object == o && t.notified)
      ≤ objects.countP (fun t => t.object == o) :=
        List.countP_mono_left fun t _ ht => (Bool.and_eq_true _ _ ▸ ht).1
    _ = (objects.map (·.object)).count o := by rw [List.count, List.countP_map]; rfl
    _ ≤ 1 := List.nodup_iff_count_le_one.mp hn o

/-! ## The components of a pass -/

namespace Container

/-- What a pass has done, wherever it stops: its acts, and what holds of them if it is plain. -/
theorem pass_log (hk : k.types.MakesFresh) (steps : Nat) (root : Configuration) (s : Session) :
    ∃ acts l, ((k.pass steps root).run s).2.acts = acts ++ .start root :: s.acts ∧
      Trace (Ledger.start s.build root) acts l ∧ l.build = ((k.pass steps root).run s).2.build ∧
      ((k.pass steps root).run s).2.passActs = acts ∧
      (((k.pass steps root).run s).2.Plain →
        Sound (started s root) ((k.pass steps root).run s).2 ∧
        ∀ registry, ((k.pass steps root).run s).1 = some (.ok registry) →
          Tidy (started s root) ((k.pass steps root).run s).2 ∧
          ∀ r ∈ l.build.objects, r.configured = true ∧ r.pending = 0) := by
  have logged : ∀ {t l}, Conducts (started s root) t (.start s.build root) l →
      ∃ acts, t.acts = acts ++ .start root :: s.acts ∧ Trace (Ledger.start s.build root) acts l ∧
        t.passActs = acts := by
    intro t l conducts
    obtain ⟨acts, hacts, trace⟩ := conducts.trace
    refine ⟨acts, hacts, trace, ?_⟩
    obtain ⟨acts', hpass, hacts'⟩ := Session.passActs_of_goesOn
      (⟨acts, hacts, fun root' hm => trace.not_start_mem root' hm⟩ : Run.GoesOn (started s root) t)
    obtain rfl : acts = acts' := List.append_cancel_right (hacts.symm.trans hacts')
    rw [hpass]
    exact List.append_nil acts
  rcases ((pass_after k steps root s).and (pass_tidy hk steps root s)).cases with
    ⟨r, hr, ⟨l, conducts, bears, result⟩, tidy⟩ | ⟨hnone, ⟨l, conducts⟩, sound⟩
  · obtain ⟨acts, hacts, trace, hpass⟩ := logged conducts
    refine ⟨acts, l, hacts, trace, conducts.build, hpass, fun plain => ⟨(tidy plain).1.sound,
      fun registry hok => ⟨(tidy plain).1, fun w hw => ⟨?_, ?_⟩⟩⟩⟩
    · exact (tidy plain).2 w (conducts.build ▸ hw)
    · obtain rfl : r = .ok registry := Option.some.inj (hr.symm.trans hok)
      have settled : l.build.unsettled ((k.pass steps root).run s).2.heap = none := by
        cases hu : l.build.unsettled ((k.pass steps root).run s).2.heap with
        | none => rfl
        | some names =>
            rw [hu] at result
            exact absurd result (by simp)
      exact ((Accounted.start s.build root).trace trace).pending_of_settled bears.2.2 settled w hw
  · obtain ⟨acts, hacts, trace, hpass⟩ := logged conducts
    exact ⟨acts, l, hacts, trace, conducts.build, hpass, fun plain => ⟨sound plain,
      fun registry hok => absurd (hnone.symm.trans hok) (by simp)⟩⟩

/-- Each component is told once, and last. Let constructors make fresh components, and let a pass run in
which no factory takes over and no node spells a property twice. Then, however the pass ends, a component is
told at most once that it is configured. When it is told, the properties that its node names have all been
visited and nothing is parked for it, and from then on nothing is written to it. If the pass succeeds, every
component that is tracked has been told, and so has every one that was built within the pass. -/
theorem pass_tells (hk : k.types.MakesFresh) (steps : Nat) (root : Configuration) (s : Session) :
    ∃ acts, ((k.pass steps root).run s).2.acts = acts ++ .start root :: s.acts ∧
      ((∀ factory, .delegate factory ∉ acts) → (∀ i names, .enter i names ∈ acts → names.Nodup) →
        (∀ o, ((k.pass steps root).run s).2.heap.times o ≤ s.heap.times o + 1) ∧
        (∀ later i earlier, acts = later ++ .notify i :: earlier →
          ∃ (r : Tracked) (names : List String),
            ((Ledger.start s.build root).replay earlier).build.objects[i]? = some r ∧
            .notify i ∉ earlier ∧ .notify i ∉ later ∧
            .enter i names ∈ earlier ∧ (∀ names', .enter i names' ∈ acts → names' = names) ∧
            (∀ name ∈ names, .visit i name ∈ earlier) ∧
            (∀ d, some d ∈ ((Ledger.start s.build root).replay earlier).build.deferred → d.owner ≠ i) ∧
            ∀ name, .write r.object name ∉ later) ∧
        ∀ registry, ((k.pass steps root).run s).1 = some (.ok registry) →
          ∀ o, o ∈ ((k.pass steps root).run s).2.build.trackedOnes ∨
              k.BuiltAmong (.start s.build root) acts o →
            ((k.pass steps root).run s).2.heap.times o = s.heap.times o + 1) := by
  obtain ⟨acts, l, hacts, trace, build, hpass, plainly⟩ := pass_log hk steps root s
  refine ⟨acts, hacts, fun undelegated once => ?_⟩
  obtain ⟨sound, success⟩ := plainly ⟨by rw [hpass]; exact undelegated, by rw [hpass]; exact once⟩
  have order : Orderly (Ledger.start s.build root) acts := hpass ▸ sound.orderly
  have balanced := Accounted.start s.build root
  have none : (Ledger.start s.build root).build.objects = [] := rfl
  have told := Ledger.told_of_trace trace order none
  have distinct : (((k.pass steps root).run s).2.build.objects.map (·.object)).Nodup := build ▸ told.distinct
  have counted : ∀ o, ((k.pass steps root).run s).2.heap.times o = s.heap.times o
      + ((k.pass steps root).run s).2.build.objects.countP fun t => t.object == o && t.notified :=
    sound.counted
  refine ⟨fun o => ?_, fun later i earlier hsplit => ?_, fun registry hok o built => ?_⟩
  · rw [counted]
    exact Nat.add_le_add_left (count_told_le_one distinct o) _
  · have moment : .notify i :: earlier <:+ acts := ⟨later, hsplit.symm⟩
    obtain ⟨new, ⟨r, hr⟩, ⟨names, entered, visited⟩, unparked⟩ :=
      Ledger.notify_after_visits trace order none balanced moment
    refine ⟨r, names, hr, new, fun hm => ?_, entered, fun names' hn => ?_, visited, unparked,
      Ledger.not_written_once_told trace order none balanced hsplit hr⟩
    · obtain ⟨newer, older, rfl⟩ := List.append_of_mem hm
      have again : .notify i :: (older ++ .notify i :: earlier) <:+ acts := ⟨newer, by simp [hsplit]⟩
      exact (Ledger.notify_after_visits trace order none balanced again).1 (by simp)
    · have mem : ∀ a ∈ earlier, a ∈ acts := fun a ha => moment.subset (List.mem_cons_of_mem _ ha)
      exact enter_unique order hn (mem _ entered)
  · have ho : o ∈ ((k.pass steps root).run s).2.build.trackedOnes :=
      built.elim id fun among => build ▸ among.tracked trace undelegated
    obtain ⟨tidy, complete⟩ := success registry hok
    obtain ⟨w, hw, rfl⟩ := List.mem_map.mp ho
    obtain ⟨conf, pend⟩ := complete w (build ▸ hw)
    have notified := tidy.told w hw conf pend
    have one : 0 < ((k.pass steps root).run s).2.build.objects.countP
        fun t => t.object == w.object && t.notified :=
      List.countP_pos_iff.mpr ⟨w, hw, by simp [notified]⟩
    have most := count_told_le_one distinct w.object
    rw [counted]
    omega

/-! ### A car and where it stands -/

/-- A new car is fresh, and so is the engine that it has from the beginning. -/
theorem fresh_makeCar (h : Heap) : h.Fresh (Sample.makeCar h) := by
  have engine : h.Fresh (h.allocate (Sample.engineWith 0 "stock")) := by
    refine h.fresh_allocate ⟨Class.lawful_declared _ _ (by decide), rfl⟩ fun q p hq => ?_
    have mem := Table.mem_of_lookup (Class.lookup_of_get?_declared hq)
    revert mem
    simp [Sample.engineWith, Component.fresh, Table.overlay, Table.put, Field.initialValues,
      Sample.engineFields, Sample.field, FieldType.initial, FieldType.int64, Value.ofInt]
  refine engine.allocate ⟨Class.lawful_declared _ _ (by decide), rfl⟩ "engine" fun n p hn => ?_
  have held := Class.lookup_of_get?_declared hn
  simp only [Component.fresh, Table.lookup_put] at held
  split at held
  next he => exact ⟨he, (Value.object.inj (Option.some.inj held)).symm⟩
  · have mem := Table.mem_of_lookup held
    revert mem
    simp [Field.initialValues, Sample.carFields, Sample.field, Sample.part, FieldType.initial]

/-- A container that constructs records, and cars with an engine in place. -/
def ofCars : Container := ⟨.bare, TypeRegistry.builtins.withClass "Car" Sample.makeCar, .standard⟩

theorem makesFresh_ofCars : ofCars.types.MakesFresh :=
  TypeRegistry.makesFresh_builtins.withClass "Car" fresh_makeCar

/-- A car and a record that refer to each other. The engine of the car is configured further, and the
record has another record that is made for it. -/
def garage : Configuration :=
  .make (.object
    [("car", .object [("-class", .string "Car"), ("engine", .object [("label", .string "tuned")]),
      ("trailer", .string "@named:place")]),
     ("place", .object [("-class", .string "record"), ("cars", .array [.string "@named:car"]),
      ("sign", .string "@new:record")])]) ofCars.handler.withContainer

/-- An act that a plain pass may make. -/
def plainAct : Act → Bool
  | .delegate _ => false
  | .enter _ names => decide names.Nodup
  | _ => true

/-- The pass over the garage succeeds, and so each of its four components has been told once. -/
theorem pass_tells_garage :
    ∃ registry t, (ofCars.pass 20 garage).run .start = (some (.ok registry), t) ∧
      t.build.trackedOnes = [1, 0, 2, 3] ∧ ∀ o ∈ t.build.trackedOnes, t.heap.times o = 1 := by
  have ends : Run.succeeds (ofCars.pass 20 garage) .start
      (fun _ t => decide (t.build.trackedOnes = [1, 0, 2, 3]) && t.acts.all plainAct) = true := by decide +kernel
  obtain ⟨acts, hacts, tells⟩ := pass_tells makesFresh_ofCars 20 garage .start
  obtain ⟨registry, t, ended, check⟩ := Run.of_succeeds ends
  have h := Run.ended_iff.mp ended
  rw [h] at hacts tells
  obtain ⟨tracked, plain⟩ := Bool.and_eq_true_iff.mp check
  have each : ∀ a ∈ acts, plainAct a = true := fun a ha =>
    List.all_eq_true.mp plain a (hacts ▸ List.mem_append_left _ ha)
  obtain ⟨-, -, all⟩ := tells (fun factory hf => absurd (each _ hf) (by simp [plainAct]))
    fun i names hn => by simpa [plainAct] using each _ hn
  refine ⟨registry, t, h, of_decide_eq_true tracked, fun o ho => ?_⟩
  simpa [Heap.times, Session.start] using all registry rfl o (.inl ho)

end Container

end ObjectGraph
