import ObjectGraph.Proofs.Steps
import ObjectGraph.Proofs.Telling.Order
import ObjectGraph.Proofs.Telling.Slots
import ObjectGraph.Proofs.Waiting.Pass

/-!
# `Proofs.Untouched` — properties that a pass leaves unset

A property of a record is set in two ways: while the record is being configured and the property has been reached,
and later on, if an assignment was parked then. So a property for which nothing is done between the moments at
which it is reached and at which it has been visited (`AtOnce`) is not set at all, whatever else the pass does:
nobody comes back to it.

This is an invariant of all operations of a container that constructs records only (`Bare`): the property is not set
and no parked assignment is for it. No operation begins by saying that a property has been visited (`Goes`). So once
anything is done after a property has been reached (`Reaching`), that property is not visited at once.

Contents:
* `TypeRegistry.RecordsOnly`; `Heap.Unset` and its laws;
* `AtOnce`; `Unvisiting`, `Goes`, `Session.Reaching`;
* `Fair`, `Bare`, `Spares`, the course `sparing`;
* the operations of a container, up to `machine_spares`;
* `pass_untouched`.
-/

namespace ObjectGraph

open Run (After Course Protocol Quiet Within)

/-! ## Records -/

/-- Only records are constructed, and no factory takes over. -/
structure TypeRegistry.RecordsOnly (types : TypeRegistry) : Prop where
  makes : ∀ name make, types.constructor? name = some make → make = .ofComponent (.fresh .record [])
  undelegated : ∀ name, types.factory? name = none

theorem TypeRegistry.recordsOnly_builtins : builtins.RecordsOnly where
  makes name make h := by
    rcases constructor?_withClass h with rfl | ⟨n, hn⟩
    · rfl
    · exact absurd hn (by simp [constructor?, classFor?, empty])
  undelegated _ := rfl

namespace Heap

variable {h : Heap} {o p : ObjectId} {q n : String}

/-- If the component exists, it is a record, and the property is not set. -/
def Unset (h : Heap) (o : ObjectId) (q : String) : Prop :=
  ∀ c, h[o]? = some c → c.ofClass = .record ∧ c.fields.lookup q = none

namespace Unset

theorem get? (hu : h.Unset o q) : h.get? o q = none := by
  unfold Heap.get?
  cases hc : h[o]? with
  | none => rfl
  | some c =>
      obtain ⟨record, unset⟩ := hu c hc
      show c.ofClass.get? c.fields q = none
      rw [record]
      exact unset

/-- A property of a record has the name by which it is found. -/
theorem name_eq (hu : h.Unset o q) {r : Property} (hr : h.property? o n = some r) : r.name = n := by
  obtain ⟨c, hc, hr⟩ := Option.bind_eq_some_iff.mp hr
  change c.ofClass.property? c.fields n = some r at hr
  rw [(hu c hc).1] at hr
  obtain rfl := Option.some.inj hr
  rfl

/-- The property is not set in a new record. -/
theorem allocate (hu : h.Unset o q) : (h.allocate (.fresh .record [])).2.Unset o q := by
  intro c hc
  change (h ++ [_])[o]? = some c at hc
  rw [List.getElem?_append] at hc
  split at hc
  · exact hu c hc
  · obtain rfl := List.mem_singleton.mp (List.mem_of_getElem? hc)
    exact ⟨rfl, rfl⟩

/-- Another property may be set, or a property of another component. -/
theorem set (hu : h.Unset o q) (other : ¬ (p = o ∧ n = q)) (v : Value) : (h.set p n v).2.Unset o q := by
  intro c hc
  by_cases hp : p = o
  · subst hp
    unfold Heap.set at hc
    cases there : h[p]? with
    | none => exact hu c (by rwa [there] at hc)
    | some d =>
        obtain ⟨record, unset⟩ := hu d there
        have taken : d.set? n v = some { d with fields := Table.insert n v d.fields } := by
          unfold Component.set?
          rw [record]
          rfl
        simp only [there, Option.bind_some, taken, getElem?_listSet_eq there] at hc
        obtain rfl := Option.some.inj hc
        refine ⟨record, ?_⟩
        show (Table.insert n v d.fields).lookup q = none
        rw [Table.lookup_insert, if_neg fun hq => other ⟨rfl, hq.symm⟩]
        exact unset
  · rw [getElem?_set_of_ne hp] at hc
    exact hu c hc

/-- A record that is told that it is configured sets nothing. -/
theorem finish (hu : h.Unset o q) (p : ObjectId) : (h.finish p).Unset o q := by
  intro c hc
  unfold Heap.finish at hc
  cases there : h[p]? with
  | none => exact hu c (by rwa [there] at hc)
  | some d =>
      simp only [there] at hc
      by_cases hp : p = o
      · subst hp
        rw [getElem?_listSet_eq there] at hc
        obtain rfl := Option.some.inj hc
        obtain ⟨record, unset⟩ := hu d there
        refine ⟨record, ?_⟩
        show (d.ofClass.configured d.fields).lookup q = none
        rw [record]
        exact unset
      · rw [List.getElem?_set_ne hp] at hc
        exact hu c hc

end Unset

end Heap

/-! ## Visits -/

variable {T : List ObjectId} {o p : ObjectId} {q n : String} {i : Nat} {s t u : Session}
variable {acts more : List Act} {a : Act}

/-- Whenever the property of the component is reached, the next thing is that it has been visited. The acts are those
of a pass, the newest first, and the components are those that it tracks. -/
def AtOnce (tracked : List ObjectId) (o : ObjectId) (q : String) (acts : List Act) : Prop :=
  ∀ i next earlier, next :: .reach i q :: earlier <:+ acts → tracked[i]? = some o → next = .visit i q

theorem AtOnce.of_suffix (h : AtOnce T o q acts) (hs : more <:+ acts) : AtOnce T o q more :=
  fun i next earlier hn => h i next earlier (hn.trans hs)

/-- The first of some acts, the newest first, is not that a property has been visited. -/
def Unvisiting (acts : List Act) : Prop := ∀ i n, acts.getLast? ≠ some (.visit i n)

theorem Unvisiting.append (h : Unvisiting acts) (h' : Unvisiting more) : Unvisiting (more ++ acts) := by
  intro i n
  rw [List.getLast?_append]
  cases hl : acts.getLast? with
  | none => exact h' i n
  | some a => exact fun he => h i n (hl.trans he)

/-- The container has gone on with the pass at hand. What is tracked stays where it is. -/
structure Goes (s t : Session) : Prop where
  acts : ∃ acts, t.passActs = acts ++ s.passActs ∧ Unvisiting acts
  tracked : s.build.trackedOnes <+: t.build.trackedOnes

namespace Goes

theorem of_eq (acts : t.acts = s.acts) (build : t.build = s.build) : Goes s t := by
  refine ⟨⟨[], ?_, by simp [Unvisiting]⟩, build ▸ List.prefix_rfl⟩
  unfold Session.passActs
  rw [acts]
  rfl

theorem trans (h : Goes s t) (h' : Goes t u) : Goes s u := by
  obtain ⟨acts, ht, first⟩ := h.acts
  obtain ⟨more, hu, first'⟩ := h'.acts
  exact ⟨⟨more ++ acts, by rw [hu, ht, List.append_assoc], first.append first'⟩, h.tracked.trans h'.tracked⟩

/-- One more act. -/
theorem act (start : ∀ root, a ≠ .start root) (visit : ∀ i n, a ≠ .visit i n) (acts : t.acts = a :: s.acts)
    (build : t.build = s.build.apply a) : Goes s t := by
  refine ⟨⟨[a], Session.passActs_act acts start, fun i n he => visit i n (Option.some.inj he)⟩, ?_⟩
  rw [build, Build.trackedOnes_apply _ start]
  exact List.prefix_append _ _

/-- A tracked component stays at its position. -/
theorem position (h : Goes s t) (hi : s.build.trackedOnes[i]? = some o) : t.build.trackedOnes[i]? = some o :=
  getElem?_of_isPrefix h.tracked hi

end Goes

/-- A property has been reached, and the first thing that has been done since, if anything, was no visit. -/
def Session.Reaching (s : Session) (i : Nat) (q : String) : Prop :=
  ∃ acts earlier, s.passActs = acts ++ .reach i q :: earlier ∧ Unvisiting acts

theorem Session.Reaching.of_act (h : s.passActs = .reach i q :: acts) : s.Reaching i q :=
  ⟨[], acts, h, by simp [Unvisiting]⟩

theorem Session.Reaching.goes (h : s.Reaching i q) (hg : Goes s t) : t.Reaching i q := by
  obtain ⟨acts, earlier, hs, first⟩ := h
  obtain ⟨more, ht, first'⟩ := hg.acts
  exact ⟨more ++ acts, earlier, by rw [ht, hs, List.append_assoc], first.append first'⟩

/-- Once something else has been done after a property was reached, it is not visited at once. -/
theorem Session.Reaching.not_atOnce (h : s.Reaching i q) (hi : T[i]? = some o) (visit : ∀ j n, a ≠ .visit j n) :
    ¬ AtOnce T o q (a :: s.passActs) := by
  intro atOnce
  obtain ⟨acts, earlier, hs, first⟩ := h
  have since : Unvisiting ([a] ++ acts) := first.append fun j n he => visit j n (Option.some.inj he)
  obtain ⟨newer, next, split⟩ := List.eq_nil_or_concat (a :: acts) |>.resolve_left (by simp)
  have follows : next = .visit i q := by
    refine atOnce i next earlier ⟨newer, ?_⟩ hi
    rw [hs, ← List.cons_append, split]
    simp
  rw [List.singleton_append, split, follows] at since
  exact since i q (by simp)

/-! ## What a pass spares -/

/-- The session is one of a pass that tracks these components in the end, and in which nothing has been done yet
between the moments at which the property is reached and at which it has been visited. -/
structure Fair (T : List ObjectId) (o : ObjectId) (q : String) (s : Session) : Prop where
  tracked : s.build.trackedOnes <+: T
  atOnce : AtOnce T o q s.passActs

/-- The property is not set, and nothing is parked to set it. -/
structure Bare (T : List ObjectId) (o : ObjectId) (q : String) (s : Session) : Prop where
  unset : s.heap.Unset o q
  unparked : ∀ d, some d ∈ s.build.deferred → T[d.owner]? = some o → d.property.name ≠ q

/-- The container has gone on with the pass at hand, and has spared the property. -/
structure Spares (T : List ObjectId) (o : ObjectId) (q : String) (s t : Session) : Prop extends Goes s t where
  bare : Fair T o q t → Bare T o q s → Bare T o q t

/-- The container has gone on with the pass at hand, and has spared the property on a condition. -/
def SparesIf (T : List ObjectId) (o : ObjectId) (q : String) (c : Prop) (s t : Session) : Prop :=
  Goes s t ∧ (c → Spares T o q s t)

/-- What was fair before a session was fair. -/
theorem Fair.goes (h : Fair T o q t) (hg : Goes s t) : Fair T o q s := by
  obtain ⟨acts, ht, -⟩ := hg.acts
  exact ⟨hg.tracked.trans h.tracked, h.atOnce.of_suffix ⟨acts, ht.symm⟩⟩

/-- The component at a position is the same in the end. -/
theorem Fair.position (h : Fair T o q s) (hi : s.build.trackedOnes[i]? = some p) : T[i]? = some p :=
  getElem?_of_isPrefix h.tracked hi

namespace Spares

/-- The properties of components may change where the property stays unset. -/
theorem of_heap (build : t.build = s.build) (acts : t.acts = s.acts)
    (heap : s.heap.Unset o q → t.heap.Unset o q) : Spares T o q s t := by
  refine ⟨.of_eq acts build, fun _ bare => ⟨heap bare.unset, ?_⟩⟩
  rw [build]
  exact bare.unparked

theorem of_quiet (h : Quiet s t) : Spares T o q s t :=
  .of_heap h.build h.acts fun unset => h.heap ▸ unset

theorem refl (s : Session) : Spares T o q s s := .of_quiet (.refl s)

theorem trans (h : Spares T o q s t) (h' : Spares T o q t u) : Spares T o q s u :=
  ⟨h.toGoes.trans h'.toGoes, fun fair bare => h'.bare fair (h.bare (fair.goes h'.toGoes) bare)⟩

/-- One more act. What is parked is for another property, or else this one is not visited at once. -/
theorem act (start : ∀ root, a ≠ .start root) (visit : ∀ i n, a ≠ .visit i n)
    (park : ∀ d, a = .park d → T[d.owner]? = some o → d.property.name = q → s.Reaching d.owner q) :
    Spares T o q s (s.acted a) := by
  refine ⟨.act start visit rfl rfl, fun fair bare => ⟨bare.unset, fun d hd owner name => ?_⟩⟩
  obtain ⟨d', hd', howner, hproperty⟩ | rfl := Build.of_deferred_apply start hd
  · exact bare.unparked d' hd' (howner ▸ owner) (hproperty ▸ name)
  · refine (park d rfl owner name).not_atOnce owner visit ?_
    rw [← Session.passActs_acted s start]
    exact fair.atOnce

/-- A property has been reached, and after something has been done it has been visited. -/
theorem visited (h : Spares T o q (s.acted (.reach i n)) t) : Spares T o q s (t.acted (.visit i n)) := by
  obtain ⟨acts, ht, first⟩ := h.acts
  rw [s.passActs_acted (by simp)] at ht
  have acted : (t.acted (.visit i n)).passActs = (.visit i n :: (acts ++ [.reach i n])) ++ s.passActs := by
    rw [t.passActs_acted (by simp), ht]
    simp
  have goes : Goes s (s.acted (.reach i n)) := .act (by simp) (by simp) rfl rfl
  refine ⟨⟨⟨_, acted, fun j m he => ?_⟩, (goes.trans h.toGoes).tracked⟩, fun fair bare => ?_⟩
  · rw [← List.cons_append, List.getLast?_concat] at he
    exact absurd he (by simp)
  · have before : Fair T o q t := by
      refine ⟨fair.tracked, fair.atOnce.of_suffix ?_⟩
      rw [t.passActs_acted (by simp)]
      exact List.suffix_cons _ _
    obtain ⟨unset, unparked⟩ := h.bare before ⟨bare.unset, bare.unparked⟩
    exact ⟨unset, unparked⟩

end Spares

/-- The course of what spares the property. -/
def sparing (T : List ObjectId) (o : ObjectId) (q : String) : Course where
  ends _ _ := Spares T o q
  cuts _ := Spares T o q
  quiet := .of_quiet
  trans := .trans
  stop _ := .refl
  trans_cut := .trans

/-- From where the property has been spared, a run goes on with that. -/
theorem Spares.after {α : Type} {x : Run α} (h : Spares T o q s t) (hx : Within (sparing T o q) x) :
    After x t (fun _ => Spares T o q s) (Spares T o q s) :=
  (hx t).mono (fun _ _ => h.trans) fun _ => h.trans

namespace Container

variable {k : Container} {m : Machine}

/-! ## Assignments -/

variable (T o q) in
/-- An assignment spares the property if it is made to another one, or where this one is then not visited at once. -/
theorem assign_spares (host : Host) (p : ObjectId) (r : Property) (v : Value) (handler : Handler) (s : Session) :
    After (assign host p r v handler) s
      (fun _ => SparesIf T o q (p = o → r.name = q → ∃ i, T[i]? = some o ∧ s.Reaching i q) s) fun _ => False := by
  refine (assign_cases host p r v handler s).mono (fun _ t h => ?_) fun _ => id
  rcases h with quiet | ⟨build, acts, w, heap⟩
  · exact ⟨.of_eq quiet.acts quiet.build, fun _ => .of_quiet quiet⟩
  · have goes : Goes s t := .act (by simp) (by simp) acts build
    refine ⟨goes, fun reaching => ⟨goes, fun fair bare => ⟨?_, build ▸ bare.unparked⟩⟩⟩
    have other : ¬ (p = o ∧ r.name = q) := by
      rintro ⟨hp, hr⟩
      obtain ⟨i, hi, reached⟩ := reaching hp hr
      refine reached.not_atOnce (a := .write p r.name) hi (by simp) ?_
      rw [← Session.passActs_act acts (by simp)]
      exact fair.atOnce
    rw [heap]
    exact bare.unset.set other w

/-- Telling a component that it is configured spares all properties. -/
theorem notifyIfReady_spares (i : Nat) : Within (sparing T o q) (notifyIfReady i) := by
  intro s
  refine (notifyIfReady_cases i s).mono (fun _ t h => ?_) fun _ => False.elim
  obtain ⟨rfl, -⟩ | ⟨w, -, -, build, acts, heap⟩ := h
  · exact .refl _
  · have acted : Spares T o q s (s.acted (.notify i)) := .act (by simp) (by simp) (by simp)
    refine acted.trans (.of_heap build acts fun unset => ?_)
    rw [heap]
    exact unset.finish _

theorem release_spares (i : Nat) : Within (sparing T o q) (release i) :=
  .bind (fun s => Spares.act (by simp) (by simp) (by simp)) fun _ => notifyIfReady_spares i

theorem markConfigured_spares (i : Nat) : Within (sparing T o q) (markConfigured i) :=
  .bind (fun s => Spares.act (by simp) (by simp) (by simp)) fun _ => notifyIfReady_spares i

variable (T o q) in
theorem perform_spares (k : Container) (p : ObjectId) (d : Deferred) (s : Session) :
    After (k.perform p d) s
      (fun _ => SparesIf T o q (p = o → d.property.name = q → ∃ i, T[i]? = some o ∧ s.Reaching i q) s)
      fun _ => False := by
  unfold perform
  split
  · exact ⟨.of_eq rfl rfl, fun _ => .of_quiet ⟨rfl, rfl, rfl⟩⟩
  · exact assign_spares T o q k.host p d.property d.value d.handler s

/-- An assignment that was parked is for another property. -/
theorem fillProperty_spares (i : Nat) (place : List Place) (v : Option Value) :
    Within (sparing T o q) (k.fillProperty i place v) := by
  intro s
  have filled : Spares T o q s (s.acted (.fill i place (v.getD .null))) := .act (by simp) (by simp) (by simp)
  refine (fillProperty_after k i place v s).mono (fun _ t h => ?_) fun _ => False.elim
  obtain ⟨-, rfl⟩ | ⟨-, made, -, step⟩ := h
  · exact .refl t
  · cases step with
    | wait => exact filled
    | @make _ u _ _ d w _ _ parked _ owner performed released =>
        have assigned := (perform_spares T o q k _ _ _).of_ended performed
        have told : Spares T o q u t := (release_spares d.owner u).of_ended released
        refine Spares.trans ⟨filled.toGoes.trans assigned.1, fun fair bare => ?_⟩ told
        have there : (s.acted (.fill i place (v.getD .null))).build.trackedOnes[d.owner]? = some w.object := by
          refine filled.toGoes.position ?_
          simp only [Build.trackedOnes, List.getElem?_map, owner, Option.map_some]
        have other : w.object = o → d.property.name ≠ q := fun ho =>
          bare.unparked d (List.mem_of_getElem? parked) (ho ▸ (fair.goes assigned.1).position there)
        have spared := assigned.2 fun ho hq => absurd hq (other ho)
        exact spared.bare fair (filled.bare (fair.goes assigned.1) bare)

/-- An assignment is parked, and its placeholders are seen to. -/
theorem park_spares (hm : k.Serves (.uncounted (sparing T o q)) m) (hops : Nat)
    (leaves : List (List Place × Pending)) (d : Deferred) (hi : s.build.trackedOnes[d.owner]? = some p) :
    After (do
        let slot := (← Run.build).deferred.length
        Run.act (.park d)
        waitOnAll m hops (.property slot) leaves) s
      (fun _ => SparesIf T o q (p = o → d.property.name = q → s.Reaching d.owner q) s)
      (SparesIf T o q (p = o → d.property.name = q → s.Reaching d.owner q) s) := by
  have parks : Goes s (s.acted (.park d)) := .act (by simp) (by simp) rfl rfl
  have on : ∀ t, Spares T o q (s.acted (.park d)) t →
      SparesIf T o q (p = o → d.property.name = q → s.Reaching d.owner q) s t := by
    intro t waited
    refine ⟨parks.trans waited.toGoes, fun reaching => ⟨parks.trans waited.toGoes, fun fair => ?_⟩⟩
    have parked : Spares T o q s (s.acted (.park d)) := by
      refine .act (by simp) (by simp) fun d' hd owner name => ?_
      obtain rfl := Act.park.inj hd
      have same : p = o := Option.some.inj ((((fair.goes waited.toGoes).goes parks).position hi).symm.trans owner)
      exact reaching same name
    exact (parked.trans waited).bare fair
  rw [Run.after_bind, Run.after_build, Run.after_bind, Run.after_act]
  exact (hm.waitOnAll hops _ leaves _).mono (fun _ => on) on

/-- A value for a property is assigned or parked. This spares the property that the course is about if it is another
one, or if it is not visited at once. -/
theorem injectAt_spares (hm : k.Serves (.uncounted (sparing T o q)) m) (hops : Nat) (r : Property) (v : Value)
    (handler : Handler) (hi : s.build.trackedOnes[i]? = some p) :
    After (k.injectAt m hops i p r v handler) s
      (fun _ => SparesIf T o q (p = o → r.name = q → s.Reaching i q) s)
      (SparesIf T o q (p = o → r.name = q → s.Reaching i q) s) := by
  unfold injectAt
  split
  · refine (assign_spares T o q k.host p r v handler s).mono (fun _ t h => ⟨h.1, fun reaching => ?_⟩) fun _ => False.elim
    refine ⟨h.1, fun fair => (h.2 fun hp hr => ⟨i, ?_, reaching hp hr⟩).bare fair⟩
    exact hp ▸ (fair.goes h.1).position hi
  · rw [Run.after_bind, Run.after_heap, Run.after_bind]
    have reported : ∀ fields, Within (sparing T o q) (Run.report .debug cycleTarget "deferring injection" fields) :=
      fun fields => .report _ _ _ fields
    refine (reported _ s).mono (fun _ t quiet => ?_) fun _ quiet => ⟨Spares.toGoes quiet, fun _ => quiet⟩
    have goes : Goes s t := Spares.toGoes quiet
    have on : ∀ u, SparesIf T o q (p = o → r.name = q → t.Reaching i q) t u →
        SparesIf T o q (p = o → r.name = q → s.Reaching i q) s u := fun u h =>
      ⟨goes.trans h.1, fun reaching => Spares.trans quiet (h.2 fun hp hr => (reaching hp hr).goes goes)⟩
    exact (park_spares hm hops _ ⟨i, r, v, _, handler⟩ (goes.position hi)).mono (fun _ => on) on

/-! ## Components -/

theorem sparingAt_position (hi : s.build.trackedOnes[i]? = some p) (h : (sparing T o q).ends () () s t) :
    t.build.trackedOnes[i]? = some p := (Spares.toGoes h).position hi

/-- The course of what spares the property, from where a component is tracked at a position. -/
def sparingAt (T : List ObjectId) (o : ObjectId) (q : String) (i : Nat) (p : ObjectId) : Course :=
  (sparing T o q).given (fun s => s.build.trackedOnes[i]? = some p) sparingAt_position

/-- A property of a component that is tracked there is visited, and what comes after it is done. -/
theorem visit_after {x : Run Unit} (h : Spares T o q (s.acted (.reach i n)) t)
    (hi : s.build.trackedOnes[i]? = some p) (hx : Within (sparingAt T o q i p) x) :
    After (Run.act (.visit i n) >>= fun _ => x) t (fun _ => Spares T o q s) (Spares T o q s) := by
  rw [Run.after_bind, Run.after_act]
  have there : (t.acted (.visit i n)).build.trackedOnes[i]? = some p := h.visited.toGoes.position hi
  exact (hx _).mono (fun _ u hu => h.visited.trans (hu there)) fun u hu => h.visited.trans (hu there)

/-- A value for a property that has been reached spares the property that the course is about. -/
theorem spares_of_reached {r : Property} (h : Spares T o q s t) (hr : s.heap.property? p n = some r)
    (reached : s.Reaching i n) (injected : SparesIf T o q (p = o → r.name = q → t.Reaching i q) t u) :
    Spares T o q s u := by
  refine ⟨h.toGoes.trans injected.1, fun fair bare => ?_⟩
  have reaching : p = o → r.name = q → t.Reaching i q := by
    rintro rfl rfl
    rw [bare.unset.name_eq hr]
    exact reached.goes h.toGoes
  exact (injected.2 reaching).bare fair (h.bare (fair.goes injected.1) bare)

/-- What is done for a property that has been reached spares the property. -/
theorem configureKey_spares (hm : k.Serves (.uncounted (sparing T o q)) m) (hops : Nat) (node : Configuration)
    (context : String) {key : String} (hi : s.build.trackedOnes[i]? = some p)
    (reached : s.Reaching i (propertyName key)) :
    After (k.configureKey m hops i p node context key) s (fun _ => Spares T o q s) (Spares T o q s) := by
  unfold configureKey
  rw [Run.after_bind, Run.after_heap]
  split
  · exact Spares.of_quiet ⟨rfl, rfl, rfl⟩
  next r hr =>
    rw [Run.after_bind]
    refine (buildValue_carries hm.keeps hops node key _ _ _ s).mono (fun v t h => ?_) fun _ => id
    have built : Spares T o q s t := h
    split
    next v =>
      have on := fun u => spares_of_reached (u := u) built hr reached
      exact (injectAt_spares hm hops r v node.handler (built.toGoes.position hi)).mono (fun _ => on) on
    · exact built.trans (.of_quiet ⟨rfl, rfl, rfl⟩)
    · exact built.trans (.of_quiet ⟨rfl, rfl, rfl⟩)

theorem configureKeys_spares (hm : k.Serves (.uncounted (sparing T o q)) m) (hops : Nat) (node : Configuration)
    (context : String) (keys : List String) :
    Within (sparingAt T o q i p) (k.configureKeys m hops i p node context keys) := by
  induction keys with
  | nil => exact .pure _
  | cons key keys ih =>
      refine .given sparingAt_position fun s hi => ?_
      have reach : Spares T o q s (s.acted (.reach i (propertyName key))) := .act (by simp) (by simp) (by simp)
      have reached : (s.acted (.reach i (propertyName key))).Reaching i (propertyName key) :=
        .of_act (s.passActs_acted (by simp))
      unfold configureKeys
      rw [Run.after_bind, Run.after_act, Run.after_bind]
      exact (configureKey_spares hm hops node context (reach.toGoes.position hi) reached).mono
        (fun _ t h => visit_after h hi ih) fun t h => reach.trans h

theorem injectAll_spares (hm : k.Serves (.uncounted (sparing T o q)) m) (hops : Nat) (name : String)
    (params : Params) : Within (sparingAt T o q i p) (k.injectAll m hops name i p params) := by
  induction params with
  | nil => exact .pure _
  | cons e params ih =>
      obtain ⟨key, v⟩ := e
      refine .given sparingAt_position fun s hi => ?_
      have reach : Spares T o q s (s.acted (.reach i key)) := .act (by simp) (by simp) (by simp)
      have reached : (s.acted (.reach i key)).Reaching i key := .of_act (s.passActs_acted (by simp))
      have there := reach.toGoes.position hi
      unfold injectAll
      rw [Run.after_bind, Run.after_act, Run.after_bind, Run.after_heap]
      split
      next r hr =>
        have here : Spares T o q (s.acted (.reach i key)) (s.acted (.reach i key)) := .refl _
        have on := fun u => spares_of_reached (u := u) here hr reached
        rw [Run.after_bind]
        exact (injectAt_spares hm hops r v k.handler there).mono (fun _ t h => visit_after (on t h) hi ih)
          fun t h => reach.trans (on t h)
      · rw [Run.after_bind, Run.after_report]
        exact visit_after (.of_quiet ⟨rfl, rfl, rfl⟩) hi ih

theorem track_spares (p : ObjectId) : Within (sparing T o q) (track p) := by
  refine .bind .build fun b => ?_
  split
  · exact .pure _
  · exact .bind (fun s => Spares.act (by simp) (by simp) (by simp)) fun _ => .pure _

theorem configureBy_spares (p : ObjectId) (names : List String) {visit : Nat → Run Unit}
    (hv : ∀ i, Within (sparingAt T o q i p) (visit i)) : Within (sparing T o q) (configureBy p names visit) := by
  intro s
  unfold configureBy
  rw [Run.after_bind]
  refine ((track_spares p s).and (track_after p s)).mono (fun i t h => ?_) fun _ h => h.1
  obtain ⟨tracked, -, hi⟩ := h
  have enter : Spares T o q t (t.acted (.enter i names)) := .act (by simp) (by simp) (by simp)
  have entered : Spares T o q s (t.acted (.enter i names)) := Spares.trans tracked enter
  rw [Run.after_bind, Run.after_act, Run.after_bind]
  refine (hv i _).mono (fun _ u h => ?_) fun u h => entered.trans (h (enter.toGoes.position hi))
  exact (entered.trans (h (enter.toGoes.position hi))).after (markConfigured_spares i)

theorem configureAt_spares (hm : k.Serves (.uncounted (sparing T o q)) m) (hops : Nat) (p : ObjectId)
    (node : Configuration) (context : String) : Within (sparing T o q) (k.configureAt m hops p node context) :=
  configureBy_spares p _ fun _ => configureKeys_spares hm hops node context _

theorem construct_spares (hk : k.types.RecordsOnly) (name context : String) :
    Within (sparing T o q) (k.construct name context) := by
  unfold construct
  split
  · exact .pure _
  next make hmake =>
    intro s
    obtain rfl := hk.makes name make hmake
    exact Spares.of_heap rfl rfl fun unset => unset.allocate

theorem instantiate_spares (hk : k.types.RecordsOnly) (hm : k.Serves (.uncounted (sparing T o q)) m) (hops : Nat)
    (name : String) (params : Params) : Within (sparing T o q) (k.instantiate m hops name params) := by
  refine .bind (construct_spares hk name name) fun p => ?_
  cases p with
  | error e => exact .pure _
  | ok p => exact .bind (configureBy_spares p _ fun _ => injectAll_spares hm hops name params) fun _ => .pure _

/-- No factory is there to take over. -/
theorem runFactory_spares (hk : k.types.RecordsOnly) (hops : Nat) (name : String) (node : Configuration)
    (context : String) : Within (sparing T o q) (k.runFactory m hops name node context) := by
  unfold runFactory
  rw [hk.undelegated name]
  exact .pure _

/-! ## The machine -/

theorem keeps_of_spares (hk : k.types.RecordsOnly) (hm : k.Serves (.uncounted (sparing T o q)) m) :
    k.Keeps (.uncounted (sparing T o q)) m :=
  ⟨hm.keeps, construct_spares hk, configureAt_spares hm, instantiate_spares hk hm, hm.tryGetNamed,
    runFactory_spares hk⟩

variable (T o q) in
/-- Whatever the machine of a container that constructs records only does spares the property. -/
theorem machine_spares (hk : k.types.RecordsOnly) (steps : Nat) :
    k.Serves (.uncounted (sparing T o q)) (k.machine steps) := by
  have naming : ∀ {a : Act}, a.Naming → Within (sparing T o q) (Run.act a) := by
    intro a ha s
    have other : ∀ {b : Act}, ¬ b.Naming → a ≠ b := fun hb he => hb (he ▸ ha)
    refine .act (fun root => other id) (fun i n => other id) fun d hd => absurd hd (other id)
  induction steps with
  | zero =>
      refine ⟨⟨fun _ _ _ _ _ => .exhausted, fun _ _ _ _ _ => .exhausted⟩, naming, fillProperty_spares, ?_⟩
      exact fun _ _ _ => .exhausted
  | succ n ih =>
      exact ⟨⟨fun r hops u params _ => portal_carries (keeps_of_spares hk ih) r hops u params,
        buildNode_carries (keeps_of_spares hk ih)⟩, naming, fillProperty_spares, ih.delivered⟩

/-! ## Passes -/

/-- Nobody comes back to a property. Let a container construct records only, let a pass run, and let a component be new
in it. If it has been visited at once whenever it was reached, then the property is not set in the end, wherever the
pass stops. -/
theorem pass_untouched (hk : k.types.RecordsOnly) {steps : Nat} {root : Configuration}
    {r : Option (Except BuildError Registry)} (run : (k.pass steps root).run s = (r, t)) (new : s.heap.length ≤ o)
    (atOnce : AtOnce t.build.trackedOnes o q t.passActs) : t.heap.get? o q = none := by
  have named := (machine_spares t.build.trackedOnes o q hk steps).tryGetNamed (k := k) Configuration.depthLimit
  have all := buildAll_carries (b := ()) named (buildOrder s.build.priority root) (started s root)
  have spares : Spares t.build.trackedOnes o q (started s root) t := by
    rcases (pass_of_buildAll all).cases with ⟨-, -, spares, -⟩ | ⟨-, spares⟩
    · rwa [run] at spares
    · rwa [run] at spares
  have unset : (started s root).heap.Unset o q := by
    intro c hc
    rw [show (started s root).heap[o]? = none from List.getElem?_eq_none new] at hc
    exact absurd hc (by simp)
  have unparked : ∀ d, some d ∉ (started s root).build.deferred := fun d hd =>
    absurd hd (by simp [started, Build.apply, Build.start])
  have bare := spares.bare ⟨List.prefix_rfl, atOnce⟩ ⟨unset, fun d hd => absurd hd (unparked d)⟩
  exact bare.unset.get?

end Container

end ObjectGraph
