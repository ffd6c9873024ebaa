import ObjectGraph.Proofs.Telling.Pass
import ObjectGraph.Proofs.Telling.Row
import ObjectGraph.Sample.Factories

/-!
# `Proofs.Telling.Products` — what factories give is configured, and told once

A component that a factory makes and injects into has no node of its own. It is said to be configured when its factory
has returned, if it is found in what the factory returned: by itself, or in its lists and maps
(`finishOutputs_after`). What is only a property of such a component is not found.

Everybody who is configured when a pass succeeds has been told so, once, and where nothing was parked for him
(`products_told`). What lands after that has been parked after that: a component may be configured further once its
factory has returned, by a key that spells its property again.

Contents:
* `Build.ConfiguredAt`; `finishOutputs_after`, `runFactory_after`, `configured_of_returned`;
* `pass_informs`, `parked_of_released`, `times_of_told`;
* `products_told`, `not_products_told`.
-/

namespace ObjectGraph

open Ledger (Accounted Trace)
open Run (After)

namespace Build

variable {b : Build} {a : Act} {i j : Nat} {o : ObjectId}

/-- The component that is tracked at a position is configured. -/
def ConfiguredAt (b : Build) (i : Nat) : Prop := ∃ w, b.objects[i]? = some w ∧ w.configured = true

/-- Only by saying so does a component become configured, and for good. -/
theorem configuredAt_apply (start : ∀ root, a ≠ .start root) :
    (b.apply a).ConfiguredAt i ↔ b.ConfiguredAt i ∨ a = .configured i ∧ i < b.objects.length := by
  constructor
  · rintro ⟨w, hw, conf⟩
    rcases of_objects_apply start hw with ⟨u, hu, rfl⟩ | ⟨o, -, -, rfl⟩
    · by_cases he : a = .configured i
      · exact .inr ⟨he, (List.getElem?_eq_some_iff.mp hu).1⟩
      · exact .inl ⟨u, hu, (Act.mark_configured_of_ne he u).symm.trans conf⟩
    · exact absurd conf (by simp)
  · rintro (⟨u, hu, conf⟩ | ⟨rfl, inside⟩)
    · exact ⟨_, objects_apply start hu, Act.mark_configured conf i a⟩
    · exact ⟨_, objects_apply start (List.getElem?_eq_getElem inside), by simp [Act.mark]⟩

end Build

namespace Container

variable {k : Container} {s t u : Session} {i : Nat} {o : ObjectId}

/-! ## What a factory gives -/

/-- A component is at its position among the tracked ones. -/
theorem object_of_position? {objects : List Tracked} (h : position? objects o = some i) :
    ∃ w, objects[i]? = some w ∧ w.object = o := by
  obtain ⟨inside, here, -⟩ := List.findIdx?_eq_some_iff_getElem.mp h
  exact ⟨_, List.getElem?_eq_getElem inside, by simpa using here⟩

/-- Where a component stands is a matter of which ones are tracked. -/
theorem position?_congr {b b' : Build} (same : b'.trackedOnes = b.trackedOnes) (o : ObjectId) :
    position? b'.objects o = position? b.objects o := by
  have by_map : ∀ b : Build, position? b.objects o = b.trackedOnes.findIdx? (· == o) := fun b => by
    rw [position?, Build.trackedOnes, List.findIdx?_map]
    rfl
  rw [by_map, by_map, same]

/-- No one else is tracked, and configured are those that were and those that have been said to be. -/
structure Finished (os : List ObjectId) (s t : Session) : Prop where
  tracked : t.build.trackedOnes = s.build.trackedOnes
  configured : ∀ i, t.build.ConfiguredAt i ↔ s.build.ConfiguredAt i ∨ ∃ o ∈ os, position? s.build.objects o = some i

/-- A component is said to be configured, and perhaps told so. -/
theorem markConfigured_finishes (h : position? s.build.objects o = some i) :
    After (markConfigured i) s (fun _ t => Finished [o] s t) fun _ => False := by
  obtain ⟨w, hw, object⟩ := object_of_position? h
  have inside := (List.getElem?_eq_some_iff.mp hw).1
  have said : Finished [o] s (s.acted (.configured i)) := by
    refine ⟨?_, fun j => ?_⟩
    · rw [Build.trackedOnes_apply _ (by simp)]
      simp [Act.tracked?]
    · rw [Build.configuredAt_apply (by simp)]
      refine or_congr_right ⟨?_, ?_⟩
      · rintro ⟨he, -⟩
        exact ⟨o, List.mem_singleton_self o, Act.configured.inj he ▸ h⟩
      · rintro ⟨p, hp, here⟩
        obtain rfl := List.mem_singleton.mp hp
        obtain rfl := Option.some.inj (h.symm.trans here)
        exact ⟨rfl, inside⟩
  unfold markConfigured
  rw [Run.after_bind, Run.after_act]
  refine (notifyIfReady_cases i (s.acted (.configured i))).mono (fun _ t h => ?_) fun _ => id
  obtain ⟨rfl, -⟩ | ⟨w, -, -, build, -⟩ := h
  · exact said
  · refine ⟨?_, fun j => ?_⟩
    · rw [build, Build.trackedOnes_apply _ (by simp), said.tracked]
      simp [Act.tracked?]
    · rw [build, Build.configuredAt_apply (by simp), said.configured]
      simp

theorem finishOutput_after (o : ObjectId) (s : Session) :
    After (finishOutput o) s (fun _ t => Finished [o] s t) fun _ => False := by
  unfold finishOutput
  rw [Run.after_bind, Run.after_build]
  split
  next none => exact ⟨rfl, fun j => by simp [none]⟩
  next i here =>
    split
    next already =>
      refine ⟨rfl, fun j => (or_iff_left_of_imp ?_).symm⟩
      rintro ⟨p, hp, there⟩
      obtain rfl := List.mem_singleton.mp hp
      obtain rfl := Option.some.inj (here.symm.trans there)
      exact (Option.any_eq_true _ _).mp already
    next => exact markConfigured_finishes here

/-- The components that a factory gives are configured, and no others become so. -/
theorem finishOutputs_after (os : List ObjectId) (s : Session) :
    After (finishOutputs os) s (fun _ t => Finished os s t) fun _ => False := by
  induction os generalizing s with
  | nil => exact ⟨rfl, fun i => by simp⟩
  | cons o os ih =>
      unfold finishOutputs
      rw [Run.after_bind]
      refine (finishOutput_after o s).mono (fun _ t first => ?_) fun _ => id
      refine (ih t).mono (fun _ u rest => ⟨rest.tracked.trans first.tracked, fun i => ?_⟩) fun _ => id
      rw [rest.configured, first.configured, or_assoc]
      refine or_congr_right ?_
      simp [position?_congr first.tracked]

/-- A factory has returned a value: its script has ended with the value, and then what is found in the value has been
seen to. -/
structure Returned (k : Container) (m : Machine) (hops : Nat) (name : String) (node : Configuration) (s : Session)
    (v : Value) (u t : Session) : Prop where
  ran : ∃ factory s', k.types.factory? name = some factory ∧ Run.Quiet (s.acted (.delegate name)) s' ∧
    k.runScript m hops (factory node) s' = some (.ok v, u)
  first : ∃ acts, Row s acts u
  rest : ∃ acts, Row u acts t

theorem runFactory_after (hk : k.types.MakesSilently) (n hops : Nat) (name : String) (node : Configuration)
    (context : String) (s : Session) :
    After (k.runFactory (k.machine n) hops name node context) s
      (fun r t => ∀ v, r = .ok (some v) → ∃ u, k.Returned (k.machine n) hops name node s v u t ∧
        Finished v.components u t) fun _ => True := by
  have obeys := machine_informs hk n
  unfold runFactory
  split
  · simp
  next factory found =>
    have quiet (event : Log.Event) : Run.Quiet (s.acted (.delegate name))
        { s.acted (.delegate name) with events := event :: s.events } := ⟨rfl, rfl, rfl⟩
    have begun (event : Log.Event) {u : Session}
        (row : ∃ acts, Row { s.acted (.delegate name) with events := event :: s.events } acts u) :
        ∃ acts, Row s acts u := by
      obtain ⟨acts, row⟩ := row
      have delegated : Row s [.delegate name] (s.acted (.delegate name)) := .one (.act (by simp) (by simp) (by simp))
      exact ⟨_, (delegated.trans (.of_quiet (quiet event))).trans row⟩
    unfold delegate
    rw [Run.after_bind, Run.after_act, Run.after_bind, Run.after_report, Run.after_bind]
    refine (runScript_obeys obeys hops (factory node) _).ended.mono (fun r u ⟨ran, first⟩ => ?_) fun _ _ => trivial
    cases r with
    | error e => simp
    | ok v =>
        rw [Run.after_bind]
        refine ((finishOutputs_after v.components u).and (finishOutputs_obeys obeys.regular v.components u)).mono
          (fun _ t ⟨finished, rest⟩ w hw => ?_) fun _ _ => trivial
        obtain rfl : v = w := Option.some.inj (Except.ok.inj hw)
        exact ⟨u, ⟨⟨factory, _, found, quiet _, ran⟩, begun _ first.1, rest.1⟩, finished⟩

/-- When a factory has returned, those that are found in what it returned are configured, and no others have become so
since its script ended. -/
theorem configured_of_returned (hk : k.types.MakesSilently) {n hops : Nat} {name : String} {node : Configuration}
    {context : String} {v : Value}
    (ended : k.runFactory (k.machine n) hops name node context s = some (.ok (some v), t)) :
    ∃ u, k.Returned (k.machine n) hops name node s v u t ∧
      ∀ o i, position? t.build.objects o = some i → position? u.build.objects o = some i ∧
        (t.build.ConfiguredAt i ↔ u.build.ConfiguredAt i ∨ o ∈ v.components) := by
  obtain ⟨u, returned, tracked, configured⟩ := (runFactory_after hk n hops name node context s).of_ended ended v rfl
  refine ⟨u, returned, fun o i here => ?_⟩
  rw [position?_congr tracked] at here
  rw [configured]
  refine ⟨here, or_congr_right ⟨?_, fun ho => ⟨o, ho, here⟩⟩⟩
  rintro ⟨p, hp, there⟩
  obtain ⟨w, hw, rfl⟩ := object_of_position? here
  obtain ⟨w', hw', rfl⟩ := object_of_position? there
  obtain rfl := Option.some.inj (hw.symm.trans hw')
  exact hp

/-! ## A pass -/

/-- What a pass has done, wherever it stops: its acts, and that everybody who is configured has been told if it has
succeeded. -/
theorem pass_informs (hk : k.types.MakesSilently) (steps : Nat) (root : Configuration) (s : Session) :
    ∃ acts l, Row (started s root) acts ((k.pass steps root).run s).2 ∧
      Trace (Ledger.start s.build root) acts l ∧ l.build = ((k.pass steps root).run s).2.build ∧
      ∀ registry, ((k.pass steps root).run s).1 = some (.ok registry) →
        AllTold ((k.pass steps root).run s).2 ∧
        ∀ w ∈ ((k.pass steps root).run s).2.build.objects, w.pending = 0 := by
  have start : AllTold (started s root) := fun r hr => absurd hr (by simp [started, Build.apply, Build.start])
  have all := buildAll_carries ((machine_informs hk steps).serves.tryGetNamed Configuration.depthLimit)
    (buildOrder s.build.priority root) (started s root)
  have logged : ∀ {t l acts}, Row (started s root) acts t → Conducts (started s root) t (.start s.build root) l →
      Trace (Ledger.start s.build root) acts l := by
    intro t l acts row conducts
    obtain ⟨acts', hacts, trace⟩ := conducts.trace
    obtain rfl : acts = acts' := List.append_cancel_right (row.acts_eq.symm.trans hacts)
    exact trace
  rcases ((pass_after k steps root s).and (pass_of_buildAll all)).cases with
    ⟨r, hr, ⟨l, conducts, bears, -⟩, ⟨⟨acts, row⟩, told⟩, result⟩ | ⟨hnone, ⟨l, conducts⟩, acts, row⟩
  · have trace := logged row conducts
    refine ⟨acts, l, row, trace, conducts.build, fun registry hok => ⟨told start, ?_⟩⟩
    obtain rfl : r = .ok registry := Option.some.inj (hr.symm.trans hok)
    rw [← conducts.build] at result ⊢
    have settled : l.build.unsettled ((k.pass steps root).run s).2.heap = none := by
      cases hu : l.build.unsettled ((k.pass steps root).run s).2.heap with
      | none => rfl
      | some names =>
          rw [hu] at result
          exact absurd result (by simp)
    exact ((Accounted.start s.build root).trace trace).pending_of_settled bears.2.2 settled
  · exact ⟨acts, l, row, logged row conducts, conducts.build,
      fun registry hok => absurd (hnone.symm.trans hok) (by simp)⟩

section

variable {root : Configuration} {acts later earlier : List Act} {l : Ledger} {w : Tracked}

/-- What a component waits for at a moment of a pass is parked for it, or is being made. -/
theorem pending_of_trace (row : Row (started s root) acts u) (trace : Trace (.start s.build root) acts l)
    (hw : u.build.objects[i]? = some w) :
    w.pending = u.build.parkedFor i + if l.landing = some i then 1 else 0 := by
  have build : l.build = u.build := by
    rw [trace.eq_replay]
    exact row.build_eq rfl
  have balanced := ((Accounted.start s.build root).trace trace).owners.pending i w
  rw [build] at balanced
  exact balanced hw

/-- Nothing is parked for a component that is ready. -/
theorem unparked_of_ready (row : Row (started s root) acts u) (trace : Trace (.start s.build root) acts l)
    (hw : u.build.objects[i]? = some w) (ready : w.Ready) (d : Deferred) (hd : some d ∈ u.build.deferred) :
    d.owner ≠ i := by
  have pending := (pending_of_trace row trace hw).symm.trans ready.pending
  have none : u.build.parkedFor i = 0 := by omega
  have other := List.countP_eq_zero.mp none (some d) hd
  simpa using other

/-- An assignment that lands after its component has been told has been parked after that. -/
theorem parked_of_released (row : Row (started s root) (later ++ .notify i :: earlier) t)
    (trace : Trace (.start s.build root) (later ++ .notify i :: earlier) l) (hm : .release i ∈ later) :
    ∃ d, .park d ∈ later ∧ d.owner = i := by
  obtain ⟨u, w, first, tracked, ready, rest⟩ := row.split_notify
  obtain ⟨newer, older, rfl⟩ := List.append_of_mem hm
  have cut : newer ++ .release i :: older = (newer ++ [.release i]) ++ older := by simp
  obtain ⟨v, between, -⟩ := (cut ▸ rest).split
  have told : Row (started s root) (.notify i :: earlier) (u.tell i w) := .tail first (.tell tracked ready)
  have sofar := trace.moment (⟨newer ++ [.release i], by simp⟩ : older ++ .notify i :: earlier <:+ _)
  -- at that moment the assignment is being made
  have landing : ((Ledger.start s.build root).replay (older ++ .notify i :: earlier)).landing = some i :=
    (trace.moment (⟨newer, by simp⟩ : .release i :: (older ++ .notify i :: earlier) <:+ _)).enabled
  by_contra unparked
  have marked : (u.tell i w).build.objects[i]? = some { w with notified := true } :=
    (Build.objects_apply (a := .notify i) (by simp) tracked).trans (by simp [Act.mark])
  obtain ⟨w', hw', -, fewer⟩ := between.stays marked
  have none : w'.pending ≤ 0 := ready.pending ▸ fewer fun d hd owner => unparked ⟨d, by simp [hd], owner⟩
  have pending := pending_of_trace (told.trans between) sofar hw'
  rw [if_pos landing] at pending
  omega

/-- Who has been told at the end, and had not been told at a moment at which he existed, has been told once since. -/
theorem times_of_told (rest : Row u later t) (distinct : (t.build.objects.map (·.object)).Nodup)
    (ho : o < u.heap.length) (untold : ∀ w ∈ u.build.objects, w.object = o → w.notified = false)
    (hw : w ∈ t.build.objects) (object : w.object = o) (notified : w.notified = true) :
    t.heap.times o = u.heap.times o + 1 := by
  have before : u.build.toldOf o = 0 := by
    refine List.countP_eq_zero.mpr fun r hr hn => ?_
    obtain ⟨same, notified⟩ := Bool.and_eq_true_iff.mp hn
    exact absurd notified (by simp [untold r hr (by simpa using same)])
  have after : t.build.toldOf o = 1 := by
    refine Nat.le_antisymm (count_told_le_one distinct o) (List.countP_pos_iff.mpr ⟨w, hw, ?_⟩)
    simp [object, notified]
  have times := rest.times ho
  omega

end

/-! ## Products -/

/-- **Factory products are told once.** When a factory has returned, of the tracked components those that are found
in what it returned are configured, by themselves or in its lists and maps, and no others have become so since its
script ended.

However a pass ends, a component is told at most once; where it is told it is configured and waits for nothing, and
nothing is parked for it. What lands for it later has been parked later. If the pass succeeds, everybody has been told
who was configured at any moment of it, and it is told once from any moment on at which it existed and had not been
told. -/
theorem products_told (k : Container) (hk : k.types.MakesSilently) :
    (∀ n hops name node context s v t,
        k.runFactory (k.machine n) hops name node context s = some (.ok (some v), t) →
        ∃ u, k.Returned (k.machine n) hops name node s v u t ∧
          ∀ o i, position? t.build.objects o = some i → position? u.build.objects o = some i ∧
            (t.build.ConfiguredAt i ↔ u.build.ConfiguredAt i ∨ o ∈ v.components))
      ∧ ∀ steps root s, ∃ acts,
        ((k.pass steps root).run s).2.acts = acts ++ .start root :: s.acts ∧
        Row (started s root) acts ((k.pass steps root).run s).2 ∧
        (∀ later i earlier, acts = later ++ .notify i :: earlier →
          .notify i ∉ earlier ∧ .notify i ∉ later ∧ (.release i ∈ later → ∃ d, .park d ∈ later ∧ d.owner = i) ∧
          ∃ u w, Row (started s root) earlier u ∧ u.build.objects[i]? = some w ∧ w.Ready ∧
            (∀ d, some d ∈ u.build.deferred → d.owner ≠ i) ∧
            Row (u.tell i w) later ((k.pass steps root).run s).2) ∧
        ∀ registry, ((k.pass steps root).run s).1 = some (.ok registry) →
          ∀ earlier u later, Row (started s root) earlier u → Row u later ((k.pass steps root).run s).2 →
            (∀ i, u.build.ConfiguredAt i → .notify i ∈ acts) ∧
            ∀ o, o < u.heap.length → (∀ w ∈ u.build.objects, w.object = o → w.notified = false) →
              (∃ w ∈ ((k.pass steps root).run s).2.build.objects, w.object = o ∧ w.configured = true) →
              ((k.pass steps root).run s).2.heap.times o = u.heap.times o + 1 := by
  refine ⟨fun n hops name node context s v t ended => configured_of_returned hk ended, fun steps root s => ?_⟩
  obtain ⟨acts, l, row, trace, -, success⟩ := pass_informs hk steps root s
  refine ⟨acts, row.acts_eq, row, fun later i earlier hsplit => ?_, fun registry hok earlier u later first rest => ?_⟩
  · subst hsplit
    obtain ⟨u, w, first, tracked, ready, rest⟩ := row.split_notify
    have moment := trace.moment (⟨later ++ [.notify i], by simp⟩ : earlier <:+ later ++ .notify i :: earlier)
    exact ⟨row.notify_once.1, row.notify_once.2, parked_of_released row trace, u, w, first, tracked, ready,
      unparked_of_ready first moment tracked ready, rest⟩
  · obtain ⟨told, waits⟩ := success registry hok
    have empty : (started s root).build.objects = [] := rfl
    refine ⟨fun i ⟨w, hw, conf⟩ => ?_, fun o ho untold ⟨w, hw, object, conf⟩ => ?_⟩
    · obtain ⟨w', hw', stays, -⟩ := rest.stays hw
      have mem := List.mem_of_getElem? hw'
      have notified := told w' mem (stays.configured conf) (waits w' mem)
      refine (row.told hw' notified).resolve_right ?_
      rintro ⟨w, hw, -⟩
      exact absurd hw (by simp [empty])
    · have distinct := row.distinct (by simp [empty])
      exact times_of_told rest distinct ho untold hw object (told w hw conf (waits w hw))

/-! ### A record that a factory takes from a shelf -/

/-- Gives the component that exists already, with a peer. -/
def shelved : Factory := fun c =>
  Sample.andThen (Sample.wire c 0 "peer" "peer") fun _ => .done (.ok (.object 0))

/-- Makes two records, the second of which is a property of the first, and gives the first. -/
def linked : Factory := fun _ =>
  .create (.fresh .record []) fun a => .create (.fresh .record []) fun b =>
    .inject b "label" (.string "deep") fun _ => .inject a "next" (.object b) fun _ => .done (.ok (.object a))

/-- A container that makes records, by themselves and in factories. -/
def ofFactories : Container :=
  ⟨.bare, ⟨TypeRegistry.builtins.classes, [], [("linked", linked), ("shelved", shelved), ("wired", Sample.wired)]⟩,
    .standard⟩

theorem makesSilently_ofFactories : ofFactories.types.MakesSilently :=
  fun name make hm h => TypeRegistry.makesFresh_builtins.silently name make hm h

/-- A session with a record. -/
def shelf : Session := { Session.start with heap := [.fresh .record []] }

/-- A node for the record on the shelf. -/
def onShelf : Json := .object [("-factory", .string "shelved"), ("peer", .string "x")]

/-- A node for the record on the shelf, which is to be its own peer. -/
def ownPeer : Json := .object [("-factory", .string "shelved"), ("peer", .string "@named:h")]

/-- A root of one name. -/
def rootOf (j : Json) : Configuration := .make (.object [("h", j)]) ofFactories.handler.withContainer

/-- The record is configured when the factory returns. In a pass it waits for itself then, and it is told once when the
name is built. -/
theorem products_told_shelf :
    (∃ v t, ofFactories.runFactory (ofFactories.machine 20) 3 "shelved" ((rootOf onShelf).child onShelf) "h" shelf
        = some (.ok (some v), t) ∧ t.build.ConfiguredAt 0)
      ∧ ∃ registry t later earlier,
        (ofFactories.pass 20 (rootOf ownPeer)).run shelf = (some (.ok registry), t) ∧ t.heap.times 0 = 1 ∧
        t.acts = later ++ .notify 0 :: earlier ∧ .notify 0 ∉ later := by
  obtain ⟨calls, passes⟩ := products_told ofFactories makesSilently_ofFactories
  refine ⟨?_, ?_⟩
  · have ends : Run.succeeds
        (ofFactories.runFactory (ofFactories.machine 20) 3 "shelved" ((rootOf onShelf).child onShelf) "h") shelf
        (fun r t => r.any (fun v => decide (0 ∈ v.components)) && decide (position? t.build.objects 0 = some 0))
        = true := by decide +kernel
    obtain ⟨r, t, ended, check⟩ := Run.of_succeeds ends
    obtain ⟨given, here⟩ := Bool.and_eq_true_iff.mp check
    obtain ⟨v, rfl, found⟩ := (Option.any_eq_true _ _).mp given
    obtain ⟨u, -, products⟩ := calls _ _ _ _ _ _ v t ended
    exact ⟨v, t, ended, (products 0 0 (of_decide_eq_true here)).2.mpr (.inr (of_decide_eq_true found))⟩
  · have ends : Run.succeeds (ofFactories.pass 20 (rootOf ownPeer)) shelf
        (fun _ t => decide (t.build.objects = [⟨0, 0, true, true⟩])) = true := by decide +kernel
    obtain ⟨registry, t, ended, check⟩ := Run.of_succeeds ends
    have h := Run.ended_iff.mp ended
    obtain ⟨acts, hacts, row, tells, success⟩ := passes 20 (rootOf ownPeer) shelf
    rw [h] at hacts row tells success
    have tracked : t.build.objects = [⟨0, 0, true, true⟩] := of_decide_eq_true check
    have empty : (started shelf (rootOf ownPeer)).build.objects = [] := rfl
    have once : t.heap.times 0 = 0 + 1 := by
      refine (success registry rfl [] _ acts (.refl _) row).2 0 Nat.one_pos (fun w hw => ?_) ⟨⟨0, 0, true, true⟩, ?_⟩
      · simp [empty] at hw
      · simp [tracked]
    have told : .notify 0 ∈ acts :=
      (success registry rfl acts t [] row (.refl _)).1 0 ⟨⟨0, 0, true, true⟩, by simp [tracked], rfl⟩
    obtain ⟨later, earlier, rfl⟩ := List.append_of_mem told
    exact ⟨registry, t, later, earlier ++ .start (rootOf ownPeer) :: shelf.acts, h, once,
      hacts.trans (List.append_assoc _ _ _), (tells later 0 earlier rfl).2.1⟩

/-! ### Where products are not told, or too early -/

/-- A node for two records, the second of which is a property of the first. -/
def chained : Json := .object [("-factory", .string "linked")]

/-- A node for a record with a record of a factory in it, which is visited once more and gets its owner for a
property. -/
def revisited : Json :=
  .object [("-class", .string "record"), ("p", .object [("-factory", .string "wired"), ("n", .bool true)]),
    ("-and:p", .object [("q", .string "@named:h")])]

/-- What the component that is tracked at a position sees of an act: `true` if it is told, `false` if a parked
assignment lands. -/
def seenAt? (i : Nat) : Act → Option Bool
  | .notify j => if j = i then some true else none
  | .release j => if j = i then some false else none
  | _ => none

/-- A pass can succeed although a component that a factory gives by way of another is neither configured nor told, and
although one is told before its last parked assignment lands. -/
theorem not_products_told :
    (∃ registry t, (ofFactories.pass 20 (rootOf chained)).run .start = (some (.ok registry), t) ∧
        (registry.get? "h").bind Value.object? = some 0 ∧ (t.heap.get? 0 "next").bind Value.object? = some 1 ∧
        t.build.objects = [⟨1, 0, false, false⟩, ⟨0, 0, true, true⟩] ∧ t.heap.times 1 = 0)
      ∧ ∃ registry t, (ofFactories.pass 20 (rootOf revisited)).run .start = (some (.ok registry), t) ∧
        t.acts.filterMap (seenAt? 1) = [false, true] := by
  refine ⟨?_, ?_⟩
  · have ends : Run.succeeds (ofFactories.pass 20 (rootOf chained)) .start (fun registry t =>
        decide ((registry.get? "h").bind Value.object? = some 0 ∧ (t.heap.get? 0 "next").bind Value.object? = some 1 ∧
          t.build.objects = [⟨1, 0, false, false⟩, ⟨0, 0, true, true⟩] ∧ t.heap.times 1 = 0)) = true := by
      decide +kernel
    obtain ⟨registry, t, ended, check⟩ := Run.of_succeeds ends
    exact ⟨registry, t, Run.ended_iff.mp ended, of_decide_eq_true check⟩
  · have ends : Run.succeeds (ofFactories.pass 20 (rootOf revisited)) .start (fun _ t =>
        decide (t.acts.filterMap (seenAt? 1) = [false, true])) = true := by decide +kernel
    obtain ⟨registry, t, ended, check⟩ := Run.of_succeeds ends
    exact ⟨registry, t, Run.ended_iff.mp ended, of_decide_eq_true check⟩

end Container

end ObjectGraph
