import ObjectGraph.Proofs.Telling.Upkeep

/-!
# `Proofs.Telling.Frame` — configuring one component while others wait

While a component is being configured, its properties are reached one after the other, and each may go on
into building other nodes, and so into configuring other components. What holds in between (`Inside`) says
which properties have been visited and which have not been reached (`Stage`): the component is open, and
whatever was tracked after it is configured already. When a property is reached that holds a component,
that comes to hand, and nobody else can get at it.

`configuring` is the protocol of the steps in between. Together with tracking before and saying that it is
configured after, they keep a pass tidy (`configureAt_tidies`, `instantiate_tidies`).

Contents:
* `Stage`, `Inside`, `configuring`;
* `Inside.reach`, `Inside.visit`, `Inside.assignable`;
* `configureKeys_configures`, `injectAll_configures`;
* `markConfigured_after`, `configureBy_after`;
* `configureAt_tidies`, `instantiate_tidies`, `runFactory_tidies`; `machine_tidies`.
-/

namespace ObjectGraph

open Run (After GoesOn Protocol Quiet)
open Session (Ready Assignable)
open Ledger (position_unique)

/-- How far the configuring of a component has come. -/
structure Stage where
  unvisited : List String
  unreached : List String
  /-- The property that has just been reached. -/
  here : Option String
  /-- The component that a property held, which is going to be configured. -/
  hand : Option ObjectId
  /-- The property for which a value is built. -/
  found : Option Property

namespace Stage

/-- Properties to visit, with nothing begun. -/
def between (unvisited unreached : List String) : Stage := ⟨unvisited, unreached, none, none, none⟩

end Stage

/-- What holds while a component is being configured that was tracked next after `s₀`. -/
structure Inside (a s₀ : Session) (o : ObjectId) (names : List String) (g : Stage) (u : Session) : Prop where
  tidy : Tidy a u
  onward : Onward a s₀.build.objects.length (some o) s₀ u
  current : ∃ w : Tracked, u.build.objects[s₀.build.objects.length]? = some w ∧ w.object = o ∧
    w.configured = false
  closed : ∀ (i : Nat) (r : Tracked), u.build.objects[i]? = some r → s₀.build.objects.length < i →
    r.configured = true
  entered : .enter s₀.build.objects.length names ∈ u.passActs
  visited : ∀ name ∈ names, name ∈ g.unvisited ∨ .visit s₀.build.objects.length name ∈ u.passActs
  once : g.unreached.Nodup
  unreached : ∀ name ∈ g.unreached, .reach s₀.build.objects.length name ∉ u.passActs
  here : ∀ name, g.here = some name → .reach s₀.build.objects.length name ∈ u.passActs ∧
    ∀ p, u.heap.InPlace o name p → Ready a u p ∧ ¬ Ready a s₀ p
  hand : ∀ p, g.hand = some p → Ready a u p ∧ ¬ Ready a s₀ p
  found : ∀ r, g.found = some r → u.Assignable s₀.build.objects.length r

variable {a s₀ s t u : Session} {o : ObjectId} {names : List String} {g g' : Stage}

namespace Inside

/-- An operation goes on into something and comes back. What it was given in hand is used up. -/
theorem upkeep (h : Inside a s₀ o names g u) (hup : Upkeep a g.hand none u t) :
    Inside a s₀ o names { g with here := none, hand := none } t := by
  obtain ⟨w, hw, ho, hf⟩ := h.current
  have inside : s₀.build.objects.length < u.build.objects.length := (List.getElem?_eq_some_iff.mp hw).1
  obtain ⟨w', hw', ho', -, same⟩ := hup.onward.tracked _ w hw
  have onward : Onward a s₀.build.objects.length g.hand u t := hup.onward.of_le inside.le
  refine ⟨hup.tidy, h.onward.trans onward fun p hp => .inr (h.hand p hp).2,
    ⟨w', hw', ho'.trans ho, (same inside).trans hf⟩, fun i r hr hi => ?_,
    mem_passActs_of_goesOn hup.onward.goesOn h.entered, fun name hn => ?_, h.once,
    fun name hn hm => h.unreached name hn (hup.onward.reached _ name inside hm), by simp, by simp,
    fun r hr => hup.onward.assignable h.tidy.toNeat (h.found r hr)⟩
  · by_cases hlt : i < u.build.objects.length
    · obtain ⟨r', hr', -, -, same⟩ := hup.onward.tracked i _ (List.getElem?_eq_getElem hlt)
      obtain rfl : r = r' := Option.some.inj (hr.symm.trans hr')
      rw [same hlt]
      exact h.closed i _ (List.getElem?_eq_getElem hlt) hi
    · exact hup.closed i r hr (Nat.not_lt.mp hlt)
  · exact (h.visited name hn).imp_right (mem_passActs_of_goesOn hup.onward.goesOn)

/-- Where neither what the container knows nor the heap has changed, everything is as before. -/
theorem quiet (h : Inside a s₀ o names g u) (hq : Quiet u t) : Inside a s₀ o names g t := by
  have acts : t.passActs = u.passActs := by
    unfold Session.passActs
    rw [hq.acts]
  have upkeep := Quiet.upkeep (b := none) hq h.tidy (by simp)
  have ready : ∀ {p}, Ready a u p → Ready a t p := fun hp => upkeep.onward.ready _ (by simp) hp
  have closed := h.closed
  have current := h.current
  rw [← hq.build] at closed current
  refine ⟨upkeep.tidy, h.onward.trans (upkeep.onward.of_le h.onward.objects_length_le) (by simp),
    current, closed, acts ▸ h.entered, acts ▸ h.visited, h.once, acts ▸ h.unreached,
    fun name hn => ⟨acts ▸ (h.here name hn).1, fun p hp => ?_⟩,
    fun p hp => ⟨ready (h.hand p hp).1, (h.hand p hp).2⟩,
    fun r hr => upkeep.onward.assignable h.tidy.toNeat (h.found r hr)⟩
  obtain ⟨free, new⟩ := (h.here name hn).2 p (hq.heap ▸ hp)
  exact ⟨ready free, new⟩

/-- A property is reached. What it holds comes to hand, for nobody else can get at it. -/
theorem reach {name : String} {rest : List String} (h : Inside a s₀ o names g u)
    (hg : g.unreached = name :: rest) (hd : Did (.reach s₀.build.objects.length name) u t) :
    Inside a s₀ o names { g with unreached := rest, here := some name, hand := none, found := none } t := by
  obtain ⟨w, hw, ho, hf⟩ := h.current
  have inside : s₀.build.objects.length < u.build.objects.length := (List.getElem?_eq_some_iff.mp hw).1
  have recent := (h.tidy.inside w (List.mem_of_getElem? hw)).1
  have objects : t.build.objects = u.build.objects := by rw [hd.build]; rfl
  have once := h.once
  rw [hg] at once
  obtain ⟨hname, once⟩ := List.nodup_cons.mp once
  have order : ∀ l acts, Act.InOrder l acts (.reach s₀.build.objects.length name) := fun _ _ => trivial
  have tidy : Tidy a t := ⟨hd.neat h.tidy.toNeat (order _ _) (by simp) (by simp)
    (fun i name' he => by cases he; exact inside) (by simp), hd.counted h.tidy.counted (by simp),
    hd.told h.tidy.told (by simp) (by simp)⟩
  have onward : Onward a s₀.build.objects.length none u t :=
    hd.onward (by simp) (by simp) fun i name' he => by cases he; exact le_refl _
  have reached : .reach s₀.build.objects.length name ∈ t.passActs := hd.passActs ▸ List.mem_cons_self
  refine ⟨tidy, h.onward.trans onward (by simp), ⟨w, objects ▸ hw, ho, hf⟩, objects ▸ h.closed,
    mem_passActs_of_goesOn hd.goesOn h.entered, fun n hn =>
      (h.visited n hn).imp_right (mem_passActs_of_goesOn hd.goesOn), once, fun n hn hm => ?_, ?_,
    by simp, by simp⟩
  · rw [hd.passActs] at hm
    rcases List.mem_cons.mp hm with he | hm
    · obtain rfl : n = name := by simpa using he
      exact hname hn
    · exact h.unreached n (hg ▸ List.mem_cons_of_mem _ hn) hm
  · intro n he
    obtain rfl : n = name := (Option.some.inj he).symm
    refine ⟨reached, fun p hp => ?_⟩
    rw [hd.heap] at hp
    -- so far nobody had reached the property
    have before : u.Unreached o n := by
      intro i r hr hro
      obtain rfl := position_unique h.tidy.distinct hr hw (hro.trans ho.symm)
      obtain rfl := Option.some.inj (hr.symm.trans hw)
      exact ⟨hf, h.unreached n (hg ▸ List.mem_cons_self)⟩
    obtain ⟨recent', present, untracked⟩ := h.tidy.held o n p (ho ▸ recent) before hp
    refine ⟨⟨recent', hd.heap ▸ present, hd.untracked untracked (by simp), fun o' q ho' hu hi => ?_⟩,
      fun hready => ?_⟩
    · rw [hd.heap] at hi
      obtain ⟨rfl, rfl⟩ := h.tidy.unshared o n o' q p (ho ▸ recent) before hp ho' (hd.unreached hu) hi
      exact (hu _ w (objects ▸ hw) ho).2 reached
    · have other : some o ≠ some p := by
        rintro he
        exact untracked w (List.mem_of_getElem? hw) (ho.trans (Option.some.inj he))
      exact (h.onward.ready p other hready).unheld o n (ho ▸ recent) before hp

/-- A property has been visited. -/
theorem visit {name : String} {rest : List String} (h : Inside a s₀ o names g u)
    (hg : g.unvisited = name :: rest) (hh : g.hand = none)
    (hd : Did (.visit s₀.build.objects.length name) u t) :
    Inside a s₀ o names { g with unvisited := rest, here := none, hand := none } t := by
  obtain ⟨tidy, onward, objects⟩ := hd.inert trivial h.tidy
  have tells : Tells a u t := ⟨tidy, onward, congrArg List.length objects⟩
  have upkeep := h.upkeep (by rw [hh]; exact tells.upkeep)
  refine ⟨upkeep.tidy, upkeep.onward, upkeep.current, upkeep.closed, upkeep.entered, fun n hn => ?_,
    upkeep.once, upkeep.unreached, by simp, by simp, upkeep.found⟩
  rcases upkeep.visited n hn with hm | hm
  · have hm : n ∈ g.unvisited := hm
    rw [hg] at hm
    rcases List.mem_cons.mp hm with rfl | hm
    · exact .inr (hd.passActs ▸ List.mem_cons_self)
    · exact .inl hm
  · exact .inr hm

/-- A property that is found under the name that has just been reached can be assigned. -/
theorem assignable {name : String} {r : Property} (h : Inside a s₀ o names g u) (hg : g.here = some name)
    (hr : u.heap.property? o name = some r) : u.Assignable s₀.build.objects.length r := by
  obtain ⟨w, hw, rfl, hf⟩ := h.current
  have recent := (h.tidy.inside w (List.mem_of_getElem? hw)).1
  obtain ⟨c, hc, hp⟩ := Option.bind_eq_some_iff.mp hr
  have lawful := h.tidy.lawful _ c recent hc
  refine ⟨w, hw, Option.bind_eq_some_iff.mpr ⟨c, hc, lawful.found hp _⟩, fun holds hu => ?_⟩
  obtain rfl := lawful.named hp holds
  exact (hu _ w hw rfl).2 (h.here _ hg).1

end Inside

/-- The steps of configuring a component that was tracked next after `s₀`. -/
def configuring (a s₀ : Session) (o : ObjectId) (names : List String) : Protocol Stage where
  ends g g' u t := GoesOn u t ∧ (t.Plain → Inside a s₀ o names g u → Inside a s₀ o names g' t)
  cuts g u t := GoesOn u t ∧ (t.Plain → Inside a s₀ o names g u → Sound a t)
  quiet h := ⟨.of_eq h.acts, fun _ hi => hi.quiet h⟩
  trans h h' := ⟨h.1.trans h'.1, fun plain hi => h'.2 plain (h.2 (plain.of_goesOn h'.1) hi)⟩
  stop _ s := ⟨.refl s, fun _ hi => hi.tidy.sound⟩
  trans_cut h h' := ⟨h.1.trans h'.1, fun plain hi => h'.2 plain (h.2 (plain.of_goesOn h'.1) hi)⟩

namespace configuring

variable {α : Type}

/-- Something that keeps a pass tidy from what is in hand is a step. -/
theorem of_tidying {x : Run α} (hx : (tidying a).Carries g.hand none x) :
    (configuring a s₀ o names).Carries g { g with here := none, hand := none } x := by
  intro u
  refine (hx u).mono (fun _ t h => ⟨h.1, fun plain hi => ?_⟩) fun t h => ⟨h.1, fun plain hi => ?_⟩
  · exact hi.upkeep (h.2 plain hi.tidy fun p hp => (hi.hand p hp).1)
  · exact h.2 plain hi.tidy fun p hp => (hi.hand p hp).1

/-- A run that goes on is a step if it is one from where things are in order. -/
theorem of_inside {x : Run α} (hgo : ∀ u, After x u (fun _ t => GoesOn u t) fun t => GoesOn u t)
    (h : ∀ u, Inside a s₀ o names g u →
      After x u (fun _ t => t.Plain → Inside a s₀ o names g' t) fun t => t.Plain → Sound a t) :
    (configuring a s₀ o names).Carries g g' x := by
  intro u
  by_cases hi : Inside a s₀ o names g u
  · exact ((hgo u).and (h u hi)).mono (fun _ _ h => ⟨h.1, fun plain _ => h.2 plain⟩)
      fun _ h => ⟨h.1, fun plain _ => h.2 plain⟩
  · exact (hgo u).mono (fun _ _ h => ⟨h, fun _ h => absurd h hi⟩) fun _ h => ⟨h, fun _ h => absurd h hi⟩

theorem reach {vs rest : List String} {name : String} :
    (configuring a s₀ o names).Carries (.between vs (name :: rest)) ⟨vs, rest, some name, none, none⟩
      (Run.act (.reach s₀.build.objects.length name)) :=
  fun u => ⟨(did_act u (by simp)).goesOn, fun _ hi => hi.reach rfl (did_act u (by simp))⟩

/-- What was begun with a property is over. -/
theorem forget (g : Stage) (u : Session) :
    (configuring a s₀ o names).ends g (.between g.unvisited g.unreached) u u :=
  ⟨.refl u, fun _ hi => ⟨hi.tidy, hi.onward, hi.current, hi.closed, hi.entered, hi.visited, hi.once,
    hi.unreached, by simp [Stage.between], by simp [Stage.between], by simp [Stage.between]⟩⟩

/-- A property is found, and what it holds comes to hand. -/
theorem find {vs us : List String} {name : String} {r : Property} {u : Session} {b : Option ObjectId}
    (hr : u.heap.property? o name = some r) (hb : ∀ p, b = some p →
      (∀ c, u.heap[o]? = some c → c.ofClass.Lawful) → u.heap.InPlace o name p) :
    (configuring a s₀ o names).ends ⟨vs, us, some name, none, none⟩ ⟨vs, us, some name, b, some r⟩ u u := by
  refine ⟨.refl u, fun _ hi => ?_⟩
  have lawful : ∀ c, u.heap[o]? = some c → c.ofClass.Lawful := by
    intro c hc
    obtain ⟨w, hw, rfl, -⟩ := hi.current
    exact hi.tidy.lawful _ c (hi.tidy.inside w (List.mem_of_getElem? hw)).1 hc
  refine ⟨hi.tidy, hi.onward, hi.current, hi.closed, hi.entered, hi.visited, hi.once, hi.unreached,
    hi.here, fun p hp => (hi.here name rfl).2 p (hb p hp lawful), fun r' hr' => ?_⟩
  obtain rfl := Option.some.inj hr'
  exact hi.assignable rfl hr

theorem visit {rest us : List String} {name : String} {h : Option String} :
    (configuring a s₀ o names).Carries ⟨name :: rest, us, h, none, none⟩ (.between rest us)
      (Run.act (.visit s₀.build.objects.length name)) :=
  fun u => ⟨(did_act u (by simp)).goesOn, fun _ hi => hi.visit rfl rfl (did_act u (by simp))⟩

end configuring

namespace Container

variable {k : Container} {m : Machine}

/-! ## Properties -/

theorem injectAt_goesOn (hm : m.Tidies a) (hops i : Nat) (o : ObjectId) (r : Property) (v : Value)
    (handler : Handler) (u : Session) :
    After (k.injectAt m hops i o r v handler) u (fun _ t => GoesOn u t) fun t => GoesOn u t := by
  unfold injectAt
  split
  · exact (assign_carries k.host o r v handler .nothing u).mono (fun _ _ h => h.goesOn) fun _ h => h.goesOn
  · rw [Run.after_bind, Run.after_heap, Run.after_bind, Run.after_report, Run.after_bind, Run.after_build,
      Run.after_bind, Run.after_act]
    have parked : ∀ {s t : Session}, GoesOn u s → GoesOn s t → GoesOn u t := fun h => h.trans
    refine ((serves_of_tidies (k := k) hm).waitOnAll hops _ _ _).mono (fun _ t h => parked ?_ h.1) fun t h => parked ?_ h.1
    · exact .act rfl (by simp)
    · exact .act rfl (by simp)

/-- A value for a property that has been found is assigned or parked. -/
theorem injectAt_configures (hm : m.Tidies a) (hops : Nat) (v : Value) (handler : Handler) {r : Property}
    {vs us : List String} {h : Option String} :
    (configuring a s₀ o names).Carries ⟨vs, us, h, none, some r⟩ ⟨vs, us, none, none, none⟩
      (k.injectAt m hops s₀.build.objects.length o r v handler) := by
  refine configuring.of_inside (injectAt_goesOn hm hops _ o r v handler) fun u hi => ?_
  obtain ⟨w, hw, rfl, hf⟩ := hi.current
  have inject := injectAt_tidies (k := k) hm hops v handler hi.tidy hw hf (hi.found r rfl)
  refine inject.mono (fun _ t h plain => ?_) fun t h plain => h.2 plain hi.tidy (by simp)
  have after := hi.upkeep (h.2 plain hi.tidy (by simp))
  exact ⟨after.tidy, after.onward, after.current, after.closed, after.entered, after.visited, after.once,
    after.unreached, by simp, by simp, by simp⟩

/-- What a property holds for being configured further is held in place. -/
theorem inPlace_of_existing {h : Heap} {o p : ObjectId} {name : String} {r : Property}
    (hl : ∀ c, h[o]? = some c → c.ofClass.Lawful) (hr : h.property? o name = some r)
    (hp : (existingValue h o r).bind Value.object? = some p) : h.InPlace o name p := by
  obtain ⟨v, hv, hobject⟩ := Option.bind_eq_some_iff.mp hp
  obtain rfl : v = .object p := by
    cases v <;> simp [Value.object?] at hobject
    exact congrArg Value.object hobject
  obtain ⟨c, hc, hfound⟩ := Option.bind_eq_some_iff.mp hr
  obtain ⟨holds, hget⟩ : r.type.holdsComponents = true ∧ h.get? o r.name = some (.object p) := by
    unfold existingValue at hv
    split at hv
    next he => exact ⟨by rw [he]; rfl, hv⟩
    next he => exact ⟨by rw [he]; rfl, hv⟩
    · exact absurd hv (by simp)
  obtain rfl := (hl c hc).named hfound holds
  refine ⟨c, r, hc, hfound, holds, ?_⟩
  simpa [Heap.get?, hc] using hget

theorem configureKey_configures (hm : m.Tidies a) (hops : Nat) (node : Configuration)
    (context key : String) (vs us : List String) :
    (configuring a s₀ o names).Carries ⟨vs, us, some (propertyName key), none, none⟩ (.between vs us)
      (k.configureKey m hops s₀.build.objects.length o node context key) := by
  have ended : ∀ (g : Stage) (l : Log.Level) (target message : String) (fields : List (String × Log.Field)),
      (configuring a s₀ o names).Carries g (.between g.unvisited g.unreached)
        (Run.report l target message fields) :=
    fun g l target message fields u =>
      Protocol.after (configuring.forget g u) (Protocol.Carries.report l target message fields u)
  intro u
  unfold configureKey
  rw [Run.after_bind, Run.after_heap]
  split
  · exact ended ⟨vs, us, _, none, none⟩ _ _ _ _ u
  next r hr =>
    have found : (configuring a s₀ o names).ends ⟨vs, us, some (propertyName key), none, none⟩
        ⟨vs, us, some (propertyName key), (existingValue u.heap o r).bind Value.object?, some r⟩ u u :=
      configuring.find hr fun p hp lawful => inPlace_of_existing lawful hr hp
    have build := fun context => buildValue_carries (k := k) hm.keeps hops node key r.type
      (existingValue u.heap o r) context
    refine Protocol.after found (Protocol.Carries.bind (configuring.of_tidying (build _)) (fun v => ?_) u)
    split
    · exact injectAt_configures hm hops _ _
    · exact ended ⟨vs, us, none, none, some r⟩ _ _ _ _
    · exact ended ⟨vs, us, none, none, some r⟩ _ _ _ _

theorem configureKeys_configures (hm : m.Tidies a) (hops : Nat) (node : Configuration) (context : String)
    (keys : List String) :
    (configuring a s₀ o names).Carries (.between (keys.map propertyName) (keys.map propertyName))
      (.between [] []) (k.configureKeys m hops s₀.build.objects.length o node context keys) := by
  induction keys with
  | nil => exact .pure _
  | cons key keys ih =>
      exact .bind configuring.reach fun _ =>
        .bind (configureKey_configures hm hops node context key _ _) fun _ =>
          .bind configuring.visit fun _ => ih

theorem injectAll_configures (hm : m.Tidies a) (hops : Nat) (name : String) (params : Params) :
    (configuring a s₀ o names).Carries (.between (Table.keys params) (Table.keys params))
      (.between [] []) (k.injectAll m hops name s₀.build.objects.length o params) := by
  induction params with
  | nil => exact .pure _
  | cons e params ih =>
      obtain ⟨key, v⟩ := e
      unfold injectAll
      refine .bind configuring.reach fun _ u => ?_
      rw [Run.after_bind, Run.after_heap]
      split
      next r hr =>
        have found : (configuring a s₀ o names).ends
            ⟨key :: Table.keys params, Table.keys params, some key, none, none⟩
            ⟨key :: Table.keys params, Table.keys params, some key, none, some r⟩ u u :=
          configuring.find hr (by simp)
        exact Protocol.after found (Protocol.Carries.bind (injectAt_configures hm hops v _)
          (fun _ => .bind configuring.visit fun _ => ih) u)
      · exact Protocol.Carries.bind (.report _ _ _ _) (fun _ => .bind configuring.visit fun _ => ih) u

/-! ## Components -/

/-- When all properties have been visited, a component is said to be configured, and told if it waits for
nothing. -/
theorem markConfigured_after (h : Inside a s₀ o names (.between [] []) u) :
    After (markConfigured s₀.build.objects.length) u (fun _ t => Upkeep a (some o) none s₀ t)
      (fun _ => False) := by
  obtain ⟨w, hw, -, -⟩ := h.current
  have did := did_act u (e := .configured s₀.build.objects.length) (by simp)
  have order : ∀ l, Act.InOrder l u.passActs (.configured s₀.build.objects.length) := fun _ =>
    ⟨names, h.entered, fun name hn => (h.visited name hn).resolve_left (by simp [Stage.between])⟩
  have neat := did.neat h.tidy.toNeat (order _) (by simp) (by simp) (by simp) (by simp)
  have said : Onward a s₀.build.objects.length none u _ :=
    did.onward (by simp) (fun i he => by cases he; exact le_refl _) (by simp)
  unfold markConfigured
  rw [Run.after_bind, Run.after_act]
  have others := did.told_but h.tidy.told (.inr rfl)
  refine (notifyIfReady_after neat (did.counted h.tidy.counted (by simp)) others).mono (fun _ t tells => ?_) fun _ => id
  refine ⟨tells.tidy, by simp, (h.onward.trans said (by simp)).trans (tells.onward _) (by simp),
    fun i r hr hi => ?_, by simp⟩
  have inside : i < u.build.objects.length := by
    have := (List.getElem?_eq_some_iff.mp hr).1
    rw [tells.length, did.build] at this
    simpa [Build.apply] using this
  obtain ⟨r', hr', -, conf, -⟩ := (tells.onward 0).tracked i _ (did.objects (List.getElem?_eq_getElem inside))
  obtain rfl : r = r' := Option.some.inj (hr.symm.trans hr')
  refine conf ?_
  by_cases he : i = s₀.build.objects.length
  · simp [Act.mark, he]
  · exact Act.mark_configured (h.closed i _ (List.getElem?_eq_getElem inside) (by omega)) _ _

/-- A component that is ready is tracked, and everything is in order for configuring it. -/
theorem inside_of_tracked (hs : Tidy a s₀) (ho : Ready a s₀ o) (hn : names.Nodup)
    (ht : Did (.track o) s₀ t) (hu : Did (.enter s₀.build.objects.length names) t u) :
    Inside a s₀ o names (.between names names) u := by
  have order : Act.InOrder ((Ledger.idle a.build).replay s₀.passActs) s₀.passActs (.track o) := by
    change ∀ r ∈ ((Ledger.idle a.build).replay s₀.passActs).build.objects, r.object ≠ o
    rw [hs.build]
    exact ho.untracked
  have ready : ∀ p, Act.track o = .track p → Ready a s₀ p := fun p he => Act.track.inj he ▸ ho
  have tracked : Tidy a t := ⟨ht.neat hs.toNeat order ready (by simp) (by simp) (by simp),
    ht.counted hs.counted (by simp), ht.told hs.told (by simp) (by simp)⟩
  have objects : t.build.objects = s₀.build.objects ++ [⟨o, 0, false, false⟩] := by rw [ht.build]; rfl
  have acts : t.passActs = .track o :: s₀.passActs := ht.passActs
  have new : s₀.build.objects.length < t.build.objects.length := by simp [objects]
  -- nothing has been noted of a position that was not given out
  have entered : ∀ names', .enter s₀.build.objects.length names' ∉ t.passActs := by
    intro names' hm
    rw [acts] at hm
    rcases List.mem_cons.mp hm with he | hm
    · exact absurd he (by simp)
    · exact Nat.lt_irrefl _ (hs.entered _ names' hm)
  have reached : ∀ name, .reach s₀.build.objects.length name ∉ u.passActs := by
    intro name hm
    rw [hu.passActs, acts] at hm
    rcases List.mem_cons.mp hm with he | hm
    · exact absurd he (by simp)
    rcases List.mem_cons.mp hm with he | hm
    · exact absurd he (by simp)
    · exact Nat.lt_irrefl _ (hs.reached _ name hm)
  have position : ∀ i names', Act.enter s₀.build.objects.length names = .enter i names' →
      i < t.build.objects.length := by
    intro i names' he
    obtain ⟨rfl, -⟩ := Act.enter.inj he
    exact new
  have tidy : Tidy a u := ⟨hu.neat tracked.toNeat entered (by simp) (by simp) (by simp) position,
    hu.counted tracked.counted (by simp), hu.told tracked.told (by simp) (by simp)⟩
  have same : u.build.objects = t.build.objects := by rw [hu.build]; rfl
  have first : Onward a s₀.build.objects.length (some o) s₀ t :=
    ht.onward (fun p he => congrArg some (Act.track.inj he)) (by simp) (by simp)
  have second : Onward a s₀.build.objects.length none t u := hu.onward (by simp) (by simp) (by simp)
  refine ⟨tidy, first.trans second (by simp), ⟨⟨o, 0, false, false⟩, ?_, rfl, rfl⟩, fun i r hr hi => ?_,
    ?_, fun name hn => .inl hn, hn, fun name _ => reached name, by simp [Stage.between],
    by simp [Stage.between], by simp [Stage.between]⟩
  · simp [same, objects]
  · have := (List.getElem?_eq_some_iff.mp hr).1
    rw [same, objects] at this
    simp at this
    omega
  · rw [hu.passActs]
    exact List.mem_cons_self

theorem position?_eq_none (ho : s.Untracked o) : position? s.build.objects o = none := by
  rw [position?, List.findIdx?_eq_none_iff]
  intro r hr
  simpa using ho r hr

/-- A component that is ready is tracked, its properties are seen to, and it is said to be configured. -/
theorem configureBy_after {visit : Nat → Run Unit} (hs : Tidy a s₀) (ho : Ready a s₀ o)
    (hv : (configuring a s₀ o names).Carries (.between names names) (.between [] [])
      (visit s₀.build.objects.length)) :
    After (configureBy o names visit) s₀ (fun _ t => t.Plain → Upkeep a (some o) none s₀ t)
      (fun t => t.Plain → Sound a t) := by
  have began : ∀ {t u}, Did (.track o) s₀ t → Did (.enter s₀.build.objects.length names) t u → u.Plain →
      Inside a s₀ o names (.between names names) u := by
    intro t u ht hu plain
    have nodup := plain.spelledOnce _ names (hu.passActs ▸ List.mem_cons_self)
    exact inside_of_tracked hs ho nodup ht hu
  have tracked := did_act s₀ (e := .track o) (by simp)
  unfold configureBy track
  rw [Run.after_bind, Run.after_bind, Run.after_build, position?_eq_none ho.untracked]
  dsimp only
  rw [Run.after_bind, Run.after_act, Run.after_pure, Run.after_bind, Run.after_act, Run.after_bind]
  refine (hv _).mono (fun _ t h => ?_) fun t h plain => ?_
  · by_cases plain : t.Plain
    · have inside := h.2 plain (began tracked (did_act _ (by simp)) (plain.of_goesOn h.1))
      exact (markConfigured_after inside).mono (fun _ _ h _ => h) fun _ h => h.elim
    · exact (markConfigured_within s₀.build.objects.length t).mono
        (fun _ _ h later => absurd (later.of_goesOn h.goesOn) plain)
        fun _ h later => absurd (later.of_goesOn h.goesOn) plain
  · exact h.2 plain (began tracked (did_act _ (by simp)) (plain.of_goesOn h.1))

/-- Configuring a component in hand keeps a pass tidy if visiting its properties does. -/
theorem configureBy_tidies (o : ObjectId) (names : List String) {visit : Nat → Run Unit}
    (hv : ∀ s₀ : Session, (configuring a s₀ o names).Carries (.between names names) (.between [] [])
      (visit s₀.build.objects.length))
    (hw : ∀ i, Run.Within (accountsOf i) (visit i)) :
    (tidying a).Carries (some o) none (configureBy o names visit) := by
  intro s₀
  refine tidying_of_tidy ((configureBy_within o names hw s₀).mono (fun _ _ h => h.goesOn)
    fun _ h => h.goesOn) fun hs ho => ?_
  exact configureBy_after hs (ho o rfl) (hv s₀)

theorem configureAt_tidies (hm : m.Tidies a) (hops : Nat) (o : ObjectId) (node : Configuration)
    (context : String) :
    (tidying a).Carries (some o) none (k.configureAt m hops o node context) :=
  configureBy_tidies o _ (fun _ => configureKeys_configures hm hops node context _)
    fun i => configureKeys_within hm.accounts hops i o node context _

/-- What is constructed is ready to be configured. -/
theorem construct_tidies (hk : k.types.MakesFresh) (name context : String) (s : Session) :
    After (k.construct name context) s (fun r => (tidying a).ends none r.toOption s)
      ((tidying a).cuts none s) := by
  unfold construct
  split
  · exact (tidying a).refl none s
  next make hmake =>
    have fresh := hk name make hmake s.heap
    refine ⟨.of_eq rfl, fun _ hs _ => ?_⟩
    obtain ⟨tidy, ready, onward⟩ := hs.construct (n := s.build.objects.length) fresh
    refine ⟨tidy, fun p hp => ?_, onward, fun i r hr hi => ?_, fun p hp => .inr fun hready => ?_⟩
    · obtain rfl : (make s.heap).1 = p := Option.some.inj hp
      exact ready
    · exact absurd (List.getElem?_eq_some_iff.mp hr).1 (Nat.not_lt.mpr hi)
    · obtain rfl : (make s.heap).1 = p := Option.some.inj hp
      exact Nat.not_lt.mpr fresh.recent hready.present

theorem instantiate_tidies (hk : k.types.MakesFresh) (hm : m.Tidies a) (hops : Nat) (name : String)
    (params : Params) : (tidying a).Carries none none (k.instantiate m hops name params) := by
  intro s
  unfold instantiate
  rw [Run.after_bind]
  refine (construct_tidies hk name name s).mono (fun r t h => ?_) fun _ => id
  refine Protocol.after h ?_
  cases r with
  | error e => exact (tidying a).refl none t
  | ok o =>
      have configure := configureBy_tidies o (Table.keys params)
        (fun _ => injectAll_configures (k := k) hm hops name params)
        fun i => injectAll_within hm.accounts hops i o name params
      exact Protocol.Carries.bind configure (fun _ => .pure _) t

theorem runFactory_tidies (hm : m.Tidies a) (hops : Nat) (name : String) (node : Configuration)
    (context : String) : (tidying a).Carries none none (k.runFactory m hops name node context) := by
  intro s
  unfold runFactory
  split
  · exact (tidying a).refl none s
  next factory hfactory =>
    rw [Run.after_bind, Run.after_act]
    have did := did_act s (e := .delegate name) (by simp)
    -- a factory that takes over is not part of a plain pass
    have spoiled : ∀ t, GoesOn { s with build := s.build.apply (.delegate name), acts := .delegate name :: s.acts } t →
        ¬ t.Plain := fun t h plain =>
      (plain.of_goesOn h).undelegated name (did.passActs ▸ List.mem_cons_self)
    refine (delegate_within hm.accounts hops name factory node context _).mono (fun _ t h => ?_) fun t h => ?_
    · exact ⟨did.goesOn.trans h.goesOn, fun plain => absurd plain (spoiled t h.goesOn)⟩
    · exact ⟨did.goesOn.trans h.goesOn, fun plain => absurd plain (spoiled t h.goesOn)⟩

/-! ## The machine -/

theorem keeps_tidying (hk : k.types.MakesFresh) (hm : m.Tidies a) : k.Keeps (tidyingHand a) m :=
  ⟨hm.keeps, construct_tidies hk, configureAt_tidies hm, instantiate_tidies hk hm,
    (serves_of_tidies hm).tryGetNamed, runFactory_tidies hm⟩

/-- The container's machine keeps a pass tidy, with any number of steps. -/
theorem machine_tidies (hk : k.types.MakesFresh) (a : Session) (n : Nat) : (k.machine n).Tidies a := by
  induction n with
  | zero =>
      exact ⟨⟨fun _ _ _ _ _ => .exhausted, fun _ _ _ _ _ => .exhausted⟩, fun _ _ _ => .exhausted,
        machine_accounts k 0⟩
  | succ n ih =>
      have keeps := keeps_tidying hk ih
      exact ⟨⟨fun p hops u params o => tidying.frame (portal_carries keeps p hops u params) o,
        buildNode_carries keeps⟩, (serves_of_tidies ih).delivered, machine_accounts k (n + 1)⟩

end Container

end ObjectGraph
