import ObjectGraph.Proofs.Waiting.Pass

/-!
# `Proofs.Waiting.Names` — the states a name goes through

A container writes the state of a name without looking at the one that is there: `finish` puts a value in its
place and lists the name as built, `abandon` removes it. That a name is nonetheless never finished twice, nor
given up once it is built, follows from its account: whoever finishes a name or gives it up has it in hand,
and a name in hand is building. So an act moves a name from unbuilt to building, from there to built or back,
or not at all (`Accounted.moves`), and the list of the built names keeps saying which they are
(`Listed.after`).

What is asked of a container from the outside is a row of calls (`Call`), each of which may go on into any
number of others. Between two passes every moment of such a row is a state in which the names have only moved so,
and everything that looks at them agrees (`serveAll_names`).

Contents:
* `NameState.Moves`, `Accounted.moves`;
* `Build.Listed`, `Listed.after`; `get?_registry`, `names_registry`;
* `Build.replay`, `Build.Lifecycle` along acts and along a trace;
* `Container.current_ended`, `tryGetNamed_of_built`, `tryGetNamed_gives`, `Container.Agreed`;
* `Call`, `Container.serve`, `serveAll`; `serveAll_names`.
-/

namespace ObjectGraph

open Ledger (Accounted Trace)
open Run (After Within)

/-! ## Moves -/

/-- What one act may do to the state of a name. -/
inductive NameState.Moves : Option NameState → Option NameState → Prop where
  | stay (st : Option NameState) : Moves st st
  | begin : Moves none (some (.building []))
  | wait (ws : List Waiter) (w : Waiter) : Moves (some (.building ws)) (some (.building (ws ++ [w])))
  | finish (ws : List Waiter) (v : Value) : Moves (some (.building ws)) (some (.built v))
  | abandon (ws : List Waiter) : Moves (some (.building ws)) none

open NameState (Moves)

/-- A name that is built stays so, with its value. -/
theorem NameState.Moves.built {st : Option NameState} {v : Value} (h : Moves (some (.built v)) st) :
    st = some (.built v) := by
  cases h
  rfl

namespace Ledger

variable {l l' : Ledger} {a : Act}

/-- An act moves a name from unbuilt to building, from there to built or back, or not at all. -/
theorem Accounted.moves (h : Accounted l) (ha : l.Enabled a) (name : String) :
    Moves (l.build.stateOf? name) ((l.build.apply a).stateOf? name) := by
  cases a with
  | start root => exact ha.elim
  | begin n =>
      rw [Build.stateOf?_begin]
      split
      next same =>
        rw [same, ha.2]
        exact .begin
      next => exact .stay _
  | finish n v =>
      obtain ⟨ws, building⟩ := h.names.building_of_hand ha.2
      rw [Build.stateOf?_finish]
      split
      next same =>
        rw [same, building]
        exact .finish ws v
      next => exact .stay _
  | abandon n =>
      obtain ⟨ws, building⟩ := h.names.building_of_hand ha.2
      rw [Build.stateOf?_abandon]
      split
      next same =>
        rw [same, building]
        exact .abandon ws
      next => exact .stay _
  | await n w =>
      obtain ⟨-, -, ws, building⟩ := ha
      have waiters : NameState.waiters (l.build.stateOf? n) = ws := by rw [building]; rfl
      rw [Build.stateOf?_await, waiters]
      split
      next same =>
        rw [same, building]
        exact .wait ws w
      next => exact .stay _
  | _ => exact .stay _

end Ledger

/-! ## The list of the built names -/

/-- The list of the built names has each of them once, and no other name. -/
structure Build.Listed (b : Build) : Prop where
  once : b.order.Nodup
  built : ∀ name, name ∈ b.order ↔ ∃ v, b.stateOf? name = some (.built v)

namespace Build.Listed

variable {b b' : Build}

/-- Nothing is built, and nothing listed. -/
theorem of_empty (ho : b.order = []) (hn : b.names = []) : b.Listed :=
  ⟨ho ▸ List.nodup_nil, fun name => by simp [ho, hn, stateOf?]⟩

/-- Where the same names are built as before, the same list is right. -/
theorem congr (h : b.Listed) (ho : b'.order = b.order)
    (hs : ∀ name v, b'.stateOf? name = some (.built v) ↔ b.stateOf? name = some (.built v)) : b'.Listed := by
  refine ⟨ho ▸ h.once, ?_⟩
  intro name
  rw [ho, h.built]
  exact exists_congr fun v => (hs name v).symm

/-- A name that was building is built and listed after the others. -/
theorem finish (h : b.Listed) {n : String} {ws : List Waiter} (building : b.stateOf? n = some (.building ws))
    (v : Value) : (b.apply (.finish n v)).Listed := by
  have new : n ∉ b.order := by
    intro listed
    obtain ⟨w, hw⟩ := (h.built n).mp listed
    rw [building] at hw
    exact absurd hw (by simp)
  constructor
  · show (b.order ++ [n]).Nodup
    refine List.nodup_append.mpr ⟨h.once, List.nodup_singleton n, ?_⟩
    intro x hx y hy same
    exact new (List.mem_singleton.mp hy ▸ same ▸ hx)
  · intro name
    show name ∈ b.order ++ [n] ↔ _
    rw [List.mem_append, List.mem_singleton, stateOf?_finish]
    by_cases same : name = n
    · simp [same]
    · rw [if_neg same, ← h.built]
      simp [same]

/-- The list stays right whatever the container does. -/
theorem after {l : Ledger} {a : Act} (h : l.build.Listed) (hl : Accounted l) (ha : l.Enabled a) :
    (l.build.apply a).Listed := by
  -- unless a name is finished, neither what is written nor what was there is built
  have unbuilt : ∀ {n : String} {st : Option NameState} {b' : Build}, b'.order = l.build.order →
      (∀ m, b'.stateOf? m = if m = n then st else l.build.stateOf? m) → (∀ v, st ≠ some (.built v)) →
      (∀ v, l.build.stateOf? n ≠ some (.built v)) → b'.Listed := by
    intro n st b' ho hs after before
    refine h.congr ho ?_
    intro name v
    rw [hs]
    split
    next same => exact iff_of_false (after v) (same ▸ before v)
    next => exact Iff.rfl
  cases a with
  | start root => exact ha.elim
  | begin n => exact unbuilt rfl (stateOf?_begin _ n) (by simp) (by simp [ha.2])
  | finish n v =>
      obtain ⟨ws, building⟩ := hl.names.building_of_hand ha.2
      exact h.finish building v
  | abandon n =>
      obtain ⟨ws, building⟩ := hl.names.building_of_hand ha.2
      exact unbuilt rfl (stateOf?_abandon _ n) (by simp) (by simp [building])
  | await n w =>
      obtain ⟨-, -, ws, building⟩ := ha
      exact unbuilt rfl (stateOf?_await _ n w) (by simp) (by simp [building])
  | _ => exact h.congr rfl fun _ _ => Iff.rfl

end Build.Listed

/-! ## What looks at the list -/

/-- The table of what some names give has for a name what it gives, if it is among them. -/
theorem lookup_filterMap {α : Type} (g : String → Option α) (names : List String) (n : String) :
    (names.filterMap fun m => (g m).map fun v => (m, v)).lookup n = if n ∈ names then g n else none := by
  induction names with
  | nil => rfl
  | cons m names ih =>
      cases hm : g m with
      | none =>
          rw [List.filterMap_cons_none (by rw [hm]; rfl), ih]
          by_cases hn : n = m
          · subst hn
            rw [hm, ite_self, if_pos List.mem_cons_self]
          · exact if_congr (by simp [hn]) rfl rfl
      | some v =>
          rw [List.filterMap_cons_some (by rw [hm]; rfl), Table.lookup_cons, ih]
          by_cases hn : n = m
          · subst hn
            rw [if_pos rfl, if_pos List.mem_cons_self, hm]
          · rw [if_neg hn]
            exact if_congr (by simp [hn]) rfl rfl

/-- Its keys are the names, if each of them gives something. -/
theorem keys_filterMap {α : Type} (g : String → Option α) {names : List String} (h : ∀ n ∈ names, (g n).isSome) :
    Table.keys (names.filterMap fun m => (g m).map fun v => (m, v)) = names := by
  induction names with
  | nil => rfl
  | cons m names ih =>
      obtain ⟨v, hv⟩ := Option.isSome_iff_exists.mp (h m List.mem_cons_self)
      rw [List.filterMap_cons_some (by rw [hv]; rfl), Table.keys_cons,
        ih fun n hn => h n (List.mem_cons_of_mem _ hn)]

namespace Build.Listed

variable {b : Build}

/-- The registry has for a name the value that it is built to. -/
theorem get?_registry (h : b.Listed) (name : String) :
    b.registry.get? name = (b.stateOf? name).bind NameState.value? := by
  refine (lookup_filterMap _ _ name).trans ?_
  show (if name ∈ b.order then (b.stateOf? name).bind NameState.value? else none) = _
  split
  next => rfl
  next unlisted =>
    rw [h.built] at unlisted
    cases state : b.stateOf? name with
    | none => rfl
    | some st =>
        cases st with
        | building ws => rfl
        | built v => exact absurd ⟨v, state⟩ unlisted

/-- The registry has the listed names, in their order. -/
theorem names_registry (h : b.Listed) : b.registry.names = b.order := by
  refine keys_filterMap _ ?_
  intro name hn
  obtain ⟨v, hv⟩ := (h.built name).mp hn
  show ((b.stateOf? name).bind NameState.value?).isSome
  rw [hv]
  rfl

end Build.Listed

/-! ## Histories -/

namespace Build

/-- What a container knows after some acts, the newest first, that began where it had built nothing. -/
def replay (priority : List String) (acts : List Act) : Build :=
  acts.foldr (fun a b => b.apply a) (Build.start priority)

/-- At every moment of a history the list of the built names is right, and every act that does not start a pass
only moved names. -/
structure Lifecycle (priority : List String) (acts : List Act) : Prop where
  listed : ∀ moment, moment <:+ acts → (replay priority moment).Listed
  moves : ∀ a earlier, a :: earlier <:+ acts → (∀ root, a ≠ .start root) → ∀ name,
    Moves ((replay priority earlier).stateOf? name) ((replay priority (a :: earlier)).stateOf? name)

namespace Lifecycle

variable {priority : List String} {acts : List Act}

theorem nil : Lifecycle priority [] := by
  constructor
  · intro moment hm
    obtain rfl := List.suffix_nil.mp hm
    exact .of_empty rfl rfl
  · intro a earlier hm
    exact absurd (List.suffix_nil.mp hm) (by simp)

/-- One more act, after which the list is right, and which only moved names unless it starts a pass. -/
theorem cons {a : Act} (h : Lifecycle priority acts) (listed : (replay priority (a :: acts)).Listed)
    (moves : (∀ root, a ≠ .start root) → ∀ name,
      Moves ((replay priority acts).stateOf? name) ((replay priority (a :: acts)).stateOf? name)) :
    Lifecycle priority (a :: acts) := by
  constructor
  · intro moment hm
    rcases List.suffix_cons_iff.mp hm with rfl | hm
    · exact listed
    · exact h.listed moment hm
  · intro a' earlier hm hstart
    rcases List.suffix_cons_iff.mp hm with same | hm
    · obtain ⟨rfl, rfl⟩ := List.cons.inj same
      exact moves hstart
    · exact h.moves a' earlier hm hstart

/-- A pass starts, and what was built is forgotten. -/
theorem start (h : Lifecycle priority acts) (root : Configuration) : Lifecycle priority (.start root :: acts) :=
  h.cons (.of_empty rfl rfl) fun hstart => absurd rfl (hstart root)

/-- What the container does keeps the history. -/
theorem trace {l l' : Ledger} {more : List Act} (h : Lifecycle priority acts) (hb : l.build = replay priority acts)
    (hl : Accounted l) (ht : Trace l more l') :
    l'.build = replay priority (more ++ acts) ∧ Lifecycle priority (more ++ acts) := by
  induction ht with
  | refl => exact ⟨hb, h⟩
  | @act l' more a earlier enabled ih =>
      obtain ⟨build, sofar⟩ := ih
      have balanced := hl.trace earlier
      have listed := sofar.listed _ (List.suffix_refl _)
      have next : replay priority (a :: (more ++ acts)) = l'.build.apply a := by rw [build]; rfl
      refine ⟨by rw [Ledger.build_after, List.cons_append, next], sofar.cons ?_ ?_⟩
      · rw [next]
        exact Build.Listed.after (build ▸ listed) balanced enabled
      · intro _ name
        rw [next, ← build]
        exact balanced.moves enabled name

/-- A name that is built stays so, with its value, as long as no pass starts. -/
theorem stays (h : Lifecycle priority acts) {later earlier : List Act} (hm : later ++ earlier <:+ acts)
    (same : ∀ root, .start root ∉ later) {name : String} {v : Value}
    (built : (replay priority earlier).stateOf? name = some (.built v)) :
    (replay priority (later ++ earlier)).stateOf? name = some (.built v) := by
  induction later with
  | nil => exact built
  | cons a later ih =>
      have before := ih ((List.suffix_cons a _).trans hm) fun root hr => same root (List.mem_cons_of_mem a hr)
      have move := h.moves a (later ++ earlier) hm (fun root e => same root (e ▸ List.mem_cons_self)) name
      rw [before] at move
      exact move.built

end Lifecycle

end Build

/-! ## What is asked of names -/

namespace Container

variable {k : Container} {m : Machine} {hops : Nat} {name : String} {v : Value} {s t : Session}

/-- A name gives its value if it is built, and a placeholder if it is building. -/
theorem current_ended {r : Option Value} (h : current name s = some (r, t)) : t = s ∧ (r = some v →
    s.build.stateOf? name = some (.built v) ∨
      (∃ ws, s.build.stateOf? name = some (.building ws)) ∧ v = .pending (.make name none)) := by
  obtain ⟨b, u, here, rest⟩ := Run.ended_bind h
  cases Run.ended_iff.mp here
  split at rest
  next =>
    cases Run.ended_iff.mp rest
    exact ⟨rfl, fun e => absurd e (by simp)⟩
  next w state =>
    cases Run.ended_iff.mp rest
    refine ⟨rfl, fun e => .inl ?_⟩
    rw [state, Option.some.inj e]
  next ws state =>
    cases Run.ended_iff.mp rest
    exact ⟨rfl, fun e => .inr ⟨⟨ws, state⟩, (Option.some.inj e).symm⟩⟩

/-- Asking for a name that is built gives its value, and nothing else happens. -/
theorem tryGetNamed_of_built (k : Container) (m : Machine) (hops : Nat)
    (built : s.build.stateOf? name = some (.built v)) :
    k.tryGetNamed m hops name s = some (.ok (some v), s) := by
  have looked : Run.build s = some (s.build, s) := rfl
  refine Run.ended_row looked ?_
  rw [built]
  rfl

/-- What asking for a name gives is the value that the name has then, or a placeholder for it while it is
building. -/
theorem tryGetNamed_gives (h : k.tryGetNamed m hops name s = some (.ok (some v), t)) :
    t.build.stateOf? name = some (.built v) ∨
      (∃ ws, t.build.stateOf? name = some (.building ws)) ∧ v = .pending (.make name none) := by
  obtain ⟨b, u, here, rest⟩ := Run.ended_bind h
  cases Run.ended_iff.mp here
  split at rest
  next w state =>
    cases Run.ended_iff.mp rest
    exact .inl state
  next ws state =>
    obtain ⟨_, u, told, last⟩ := Run.ended_bind rest
    cases Run.ended_iff.mp told
    cases Run.ended_iff.mp last
    exact .inr ⟨⟨ws, state⟩, rfl⟩
  next =>
    split at rest
    next => exact absurd (Run.ended_iff.mp rest) (by simp [pure])
    next root =>
      split at rest
      next =>
        obtain ⟨_, _, -, rest⟩ := Run.ended_bind rest
        obtain ⟨_, _, -, rest⟩ := Run.ended_bind rest
        obtain ⟨value, _, -, rest⟩ := Run.ended_bind rest
        split at rest
        next w =>
          obtain ⟨_, u, -, rest⟩ := Run.ended_bind rest
          obtain ⟨r, u', looked, last⟩ := Run.ended_bind rest
          cases Run.ended_iff.mp last
          obtain ⟨rfl, given⟩ := current_ended looked
          exact given rfl
        next =>
          obtain ⟨_, _, -, last⟩ := Run.ended_bind rest
          exact absurd (Run.ended_iff.mp last) (by simp [pure])
        next =>
          obtain ⟨_, _, -, last⟩ := Run.ended_bind rest
          exact absurd (Run.ended_iff.mp last) (by simp [pure])
      next => exact absurd (Run.ended_iff.mp rest) (by simp [pure])

/-- Whatever looks at the names of a container sees the same. -/
structure Agreed (k : Container) (s : Session) : Prop where
  listed : s.build.Listed
  names : s.build.registry.names = s.build.order
  /-- The registry has the built names with their values. -/
  values : ∀ name v, s.build.registry.get? name = some v ↔ s.build.stateOf? name = some (.built v)
  /-- A name that the registry has is not built again, wherever it is asked for. -/
  known : ∀ m hops name v, s.build.registry.get? name = some v →
    k.tryGetNamed m hops name s = some (.ok (some v), s)
  /-- The outside gets the value that the registry has. -/
  asked : ∀ steps name v, s.build.registry.get? name = some v → k.getNamed steps name s = some (some v, s)
  /-- What is given for any name is the value that it has then, or a placeholder while it is building. -/
  given : ∀ m hops name v t, k.tryGetNamed m hops name s = some (.ok (some v), t) →
    t.build.stateOf? name = some (.built v) ∨
      (∃ ws, t.build.stateOf? name = some (.building ws)) ∧ v = .pending (.make name none)

/-- Where the list of the built names is right everything agrees. -/
theorem agreed_of_listed (k : Container) (h : s.build.Listed) : k.Agreed s := by
  have values : ∀ name v, s.build.registry.get? name = some v ↔ s.build.stateOf? name = some (.built v) := by
    intro name v
    rw [h.get?_registry]
    rcases s.build.stateOf? name with _ | ⟨ws⟩ | ⟨w⟩ <;> simp [NameState.value?]
  have known := fun m hops name v has => tryGetNamed_of_built k m hops ((values name v).mp has)
  exact ⟨h, h.names_registry, values, known, fun steps name v has => Run.ended_row (known _ _ name v has) rfl,
    fun _ _ _ _ _ => tryGetNamed_gives⟩

/-! ## Calls from the outside -/

/-- What is asked of a container from the outside: a pass, or a row of requests. -/
inductive Call where
  | resolve (c : Configuration)
  | request (script : Script Unit)

/-- Answers a call. -/
def serve (k : Container) (steps : Nat) : Call → Run Unit
  | .resolve c => do let _ ← k.resolve steps c
  | .request script => k.runScript (k.machine steps) Configuration.depthLimit script

/-- Answers calls, one after the other. -/
def serveAll (k : Container) (steps : Nat) : List Call → Run Unit
  | [] => return ()
  | call :: calls => do
      k.serve steps call
      serveAll k steps calls

/-- What a container knows comes from its acts, which have kept the history. -/
structure Recorded (priority : List String) (s : Session) : Prop where
  build : s.build = Build.replay priority s.acts
  lifecycle : Build.Lifecycle priority s.acts

/-- No call is being answered: nothing is in hand. -/
structure Idle (priority : List String) (s : Session) : Prop extends Recorded priority s where
  account : ∃ l, l.build = s.build ∧ Accounted l ∧ l.Bears .nothing 0 0

variable {priority : List String}

/-- What the container does keeps the record. -/
theorem Recorded.conducts {l l' : Ledger} (h : Recorded priority s) (hb : l.build = s.build)
    (hl : Accounted l) (hc : Conducts s t l l') : Recorded priority t := by
  obtain ⟨acts, hacts, trace⟩ := hc.trace
  obtain ⟨build, lifecycle⟩ := h.lifecycle.trace (hb.trans h.build) hl trace
  exact ⟨by rw [← hc.build, build, hacts], by rw [hacts]; exact lifecycle⟩

/-- What keeps the account and begins with nothing in hand ends so. -/
theorem Idle.after {α : Type} {x : Run α} (h : Idle priority s) (hx : Within accounts x) :
    After x s (fun _ => Idle priority) (Recorded priority) := by
  obtain ⟨l, hb, hl, bears⟩ := h.account
  refine (hx s).mono ?_ ?_
  · intro _ t settles
    obtain ⟨l', conducts, bears'⟩ := settles.account l hb hl 0 0 bears
    exact ⟨h.toRecorded.conducts hb hl conducts, l', conducts.build, conducts.accounted hl, bears'⟩
  · intro t stops
    obtain ⟨l', conducts⟩ := stops.account l hb hl 0 0 bears
    exact h.toRecorded.conducts hb hl conducts

/-- A pass leaves nothing in hand. -/
theorem Idle.pass (h : Idle priority s) (k : Container) (steps : Nat) (root : Configuration) :
    After (k.pass steps root) s (fun _ => Idle priority) (Recorded priority) := by
  have begun : Recorded priority (started s root) := by
    refine ⟨?_, h.lifecycle.start root⟩
    show s.build.apply (.start root) = (Build.replay priority s.acts).apply (.start root)
    rw [h.build]
  have balanced := Accounted.start s.build root
  refine (pass_after k steps root s).mono ?_ ?_
  · intro _ t ended
    obtain ⟨l, conducts, bears, -⟩ := ended
    exact ⟨begun.conducts rfl balanced conducts, l, conducts.build, conducts.accounted balanced, bears⟩
  · intro t cut
    obtain ⟨l, conducts⟩ := cut
    exact begun.conducts rfl balanced conducts

/-- Between a call and the next nothing is in hand. -/
theorem Idle.serve (h : Idle priority s) (k : Container) (steps : Nat) (call : Call) :
    After (k.serve steps call) s (fun _ => Idle priority) (Recorded priority) := by
  cases call with
  | request script => exact h.after (runScript_within (machine_accounts k steps) _ script)
  | resolve c =>
      show After (k.resolve steps c >>= fun _ => pure ()) s _ _
      rw [Run.after_bind]
      unfold Container.resolve
      split
      · exact h
      · -- the root is normalized in what the last pass left
        have env : (k.surroundings (k.machine steps)).Within accounts :=
          surroundings_within (machine_accounts k steps).within none
        rw [Run.after_bind]
        refine (h.after (Configuration.normalize_within env _ _ _)).mono ?_ fun _ => id
        intro root t normal
        exact normal.pass k steps root

theorem Idle.serveAll (h : Idle priority s) (k : Container) (steps : Nat) (calls : List Call) :
    After (k.serveAll steps calls) s (fun _ => Idle priority) (Recorded priority) := by
  induction calls generalizing s with
  | nil => exact h
  | cons call calls ih =>
      show After (k.serve steps call >>= fun _ => k.serveAll steps calls) s _ _
      rw [Run.after_bind]
      exact (h.serve k steps call).mono (fun _ t idle => ih idle) fun _ => id

/-- A container that has done nothing has nothing in hand. -/
theorem idle_session (priority : List String) : Idle priority (session priority) := by
  refine ⟨⟨rfl, .nil⟩, ⟨Build.start priority, 0, 0, none, 0, 0⟩, rfl, ?_, rfl, rfl, rfl⟩
  -- the ledger of a container that has done nothing differs from that of a pass that starts in the root only
  have started := Accounted.start (Build.start priority) default
  exact ⟨⟨started.names.once, started.names.begun⟩,
    ⟨started.slots.located, started.slots.outstanding, started.slots.balance, started.slots.once,
      started.slots.slots⟩,
    ⟨started.owners.pending, started.owners.tracked, started.owners.landing⟩⟩

/-- Whatever is asked of a container from the outside, one thing after the other: what it knows comes from its
acts. An act that does not start a pass takes a name from unbuilt to building, from there to built or back to
unbuilt, or leaves it; a name that is built stays so with its value until a pass starts; and at every moment the
list of the built names has each of them once and no other, and everything that looks at them agrees with it. -/
theorem serveAll_names (k : Container) (steps : Nat) (priority : List String) (calls : List Call) :
    ∃ t, ((k.serveAll steps calls).run (session priority)).2 = t ∧
      t.build = Build.replay priority t.acts ∧
      (∀ a earlier, a :: earlier <:+ t.acts → (∀ root, a ≠ .start root) → ∀ name,
        Moves ((Build.replay priority earlier).stateOf? name)
          ((Build.replay priority (a :: earlier)).stateOf? name)) ∧
      (∀ later earlier, later ++ earlier <:+ t.acts → (∀ root, .start root ∉ later) → ∀ name v,
        (Build.replay priority earlier).stateOf? name = some (.built v) →
        (Build.replay priority (later ++ earlier)).stateOf? name = some (.built v)) ∧
      ∀ moment, moment <:+ t.acts → ∀ s, s.build = Build.replay priority moment → k.Agreed s := by
  have recorded : Recorded priority ((k.serveAll steps calls).run (session priority)).2 := by
    rcases ((idle_session priority).serveAll k steps calls).cases with ⟨_, -, idle⟩ | ⟨-, cut⟩
    · exact idle.toRecorded
    · exact cut
  have lifecycle := recorded.lifecycle
  refine ⟨_, rfl, recorded.build, lifecycle.moves, fun later earlier hm same name v => lifecycle.stays hm same,
    fun moment hm s hs => agreed_of_listed k ?_⟩
  rw [hs]
  exact lifecycle.listed moment hm

end Container

end ObjectGraph
