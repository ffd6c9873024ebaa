import ObjectGraph.Proofs.Building
import ObjectGraph.Proofs.Waiting.Accounting

/-!
# `Proofs.Waiting.Conduct` — the container keeps its account

What an operation has in hand when it begins is its *burden*: placeholders to see to, names whose value it
gives, an assignment to be made. An operation settles one burden for another: `injectAt` takes up the
placeholders of a value and puts each of them somewhere, `finishName` turns a name into its waiters and
hands these over. Whatever else is in hand, further up, stays there.

`Settles` says so between two sessions, for any ledger that balances in the first: the acts made in
between are a trace from it, and the burden is settled in the end. All of building settles nothing for
nothing, which is a course (`accounts`).

Contents:
* `Burden`, `Ledger.Bears`, `Settles`, `Stops`, `Carries` and how they compose; `accounts`;
* the operations on assignments: `assign_carries`, `release_carries`, `track_after`;
* the operations on waiters: `deliver_carries`, `waitOnAll_carries`, `finishName_carries`;
* `injectAt_within`, `settleName_carries`, `buildNamed_after`;
* `machine_accounts`.
-/

namespace ObjectGraph

open Ledger (Accounted Trace)
open Run (After Course GoesOn Protocol Within)

/-! ## Burdens -/

/-- What an operation has in hand. -/
structure Burden where
  flights : Multiset Flight
  names : Multiset String
  landing : Option Nat

namespace Burden

/-- Nothing in hand. -/
def nothing : Burden := ⟨0, 0, none⟩

/-- Placeholders to see to. -/
def ofFlights (fs : Multiset Flight) : Burden := ⟨fs, 0, none⟩

/-- A name whose value is to be given. -/
def ofName (name : String) : Burden := ⟨0, {name}, none⟩

/-- An assignment to a tracked component that is to be made. -/
def ofLanding (i : Nat) : Burden := ⟨0, 0, some i⟩

end Burden

/-- A ledger has a burden in hand, and other things besides. -/
def Ledger.Bears (l : Ledger) (b : Burden) (fs : Multiset Flight) (ns : Multiset String) : Prop :=
  l.flights = b.flights + fs ∧ l.hand = b.names + ns ∧ l.landing = b.landing

/-- The acts between two sessions lead from one ledger to another. -/
structure Conducts (s t : Session) (l l' : Ledger) : Prop where
  trace : ∃ acts, t.acts = acts ++ s.acts ∧ Trace l acts l'
  build : l'.build = t.build

theorem Conducts.trans {s t u : Session} {l l' l'' : Ledger} (h : Conducts s t l l')
    (h' : Conducts t u l' l'') : Conducts s u l l'' := by
  obtain ⟨acts, hacts, trace⟩ := h.trace
  obtain ⟨more, hmore, trace'⟩ := h'.trace
  exact ⟨⟨more ++ acts, by rw [hmore, hacts, List.append_assoc], trace.trans trace'⟩, h'.build⟩

theorem Conducts.accounted {s t : Session} {l l' : Ledger} (h : Conducts s t l l') (hl : Accounted l) :
    Accounted l' := by
  obtain ⟨acts, -, trace⟩ := h.trace
  exact hl.trace trace

/-- Between two sessions one burden has been settled for another. -/
structure Settles (pre post : Burden) (s t : Session) : Prop where
  tracked : s.build.trackedOnes <+: t.build.trackedOnes
  goesOn : GoesOn s t
  account : ∀ l, l.build = s.build → Accounted l → ∀ fs ns, l.Bears pre fs ns →
    ∃ l', Conducts s t l l' ∧ l'.Bears post fs ns

/-- A burden is taken up, and there are no steps left to settle it. -/
structure Stops (pre : Burden) (s t : Session) : Prop where
  goesOn : GoesOn s t
  account : ∀ l, l.build = s.build → Accounted l → ∀ fs ns, l.Bears pre fs ns → ∃ l', Conducts s t l l'

section

variable {pre mid post : Burden} {s t u : Session}

theorem Settles.trans (h : Settles pre mid s t) (h' : Settles mid post t u) : Settles pre post s u := by
  refine ⟨h.tracked.trans h'.tracked, h.goesOn.trans h'.goesOn, fun l hb hl fs ns hbears => ?_⟩
  obtain ⟨l', conducts, hbears⟩ := h.account l hb hl fs ns hbears
  obtain ⟨l'', conducts', hbears⟩ := h'.account l' conducts.build (conducts.accounted hl) fs ns hbears
  exact ⟨l'', conducts.trans conducts', hbears⟩

theorem Settles.stop (h : Settles pre mid s t) (h' : Stops mid t u) : Stops pre s u := by
  refine ⟨h.goesOn.trans h'.goesOn, fun l hb hl fs ns hbears => ?_⟩
  obtain ⟨l', conducts, hbears⟩ := h.account l hb hl fs ns hbears
  obtain ⟨l'', conducts'⟩ := h'.account l' conducts.build (conducts.accounted hl) fs ns hbears
  exact ⟨l'', conducts.trans conducts'⟩

/-- Where the container has done nothing, everything is still in hand. -/
theorem Settles.still (b : Burden) (hb : t.build = s.build) (ha : t.acts = s.acts) :
    Settles b b s t :=
  ⟨hb ▸ List.prefix_refl _, .of_eq ha, fun l hl _ _ _ hbears =>
    ⟨l, ⟨⟨[], by simp [ha], .refl l⟩, by rw [hl, hb]⟩, hbears⟩⟩

theorem Stops.here (b : Burden) (s : Session) : Stops b s s :=
  ⟨.refl s, fun l hl _ _ _ _ => ⟨l, ⟨⟨[], rfl, .refl l⟩, hl⟩⟩⟩

/-- An act that is enabled with a burden in hand settles it for what is in hand then. -/
theorem Settles.act {a : Act} (hstart : ∀ root, a ≠ .start root)
    (h : ∀ l, l.build = s.build → Accounted l → ∀ fs ns, l.Bears pre fs ns →
      l.Enabled a ∧ (l.after a).Bears post fs ns) :
    Settles pre post s { s with build := s.build.apply a, acts := a :: s.acts } := by
  refine ⟨⟨_, (s.build.trackedOnes_apply hstart).symm⟩, .act rfl hstart, fun l hb hl fs ns hbears => ?_⟩
  obtain ⟨enabled, hbears⟩ := h l hb hl fs ns hbears
  exact ⟨l.after a, ⟨⟨[a], rfl, .one enabled⟩, by simp [hb]⟩, hbears⟩

end

/-- Keeping the account: operations settle burdens for burdens. -/
def accounting : Protocol Burden where
  ends := Settles
  cuts := Stops
  quiet h := .still _ h.build h.acts
  trans := Settles.trans
  stop := Stops.here
  trans_cut := Settles.stop

/-- From where a burden has been taken up, a run settles it. -/
theorem Settles.after {α : Type} {x : Run α} {pre mid post : Burden} {s t : Session}
    (h : Settles pre mid s t) (hx : After x t (fun _ => Settles mid post t) (Stops mid t)) :
    After x t (fun _ => Settles pre post s) (Stops pre s) :=
  Protocol.after (P := accounting) h hx

/-- The container settles nothing for nothing. -/
def accounts : Course := accounting.keeping .nothing

namespace accounting

variable {α : Type} {pre post : Burden}

/-- Whatever is in hand further up stays there. -/
theorem frame {x : Run α} (hx : accounting.Carries pre post x) (gs : Multiset Flight)
    (ms : Multiset String) :
    accounting.Carries ⟨pre.flights + gs, pre.names + ms, pre.landing⟩
      ⟨post.flights + gs, post.names + ms, post.landing⟩ x := by
  have regroup : ∀ (b : Burden) (l : Ledger) (fs ns),
      l.Bears ⟨b.flights + gs, b.names + ms, b.landing⟩ fs ns ↔ l.Bears b (gs + fs) (ms + ns) := by
    intro b l fs ns
    simp only [Ledger.Bears, add_assoc]
  intro s
  refine (hx s).mono (fun _ t h => ⟨h.tracked, h.goesOn, fun l hl hacc fs ns hbears => ?_⟩)
    fun t h => ⟨h.goesOn, fun l hl hacc fs ns hbears => ?_⟩
  · obtain ⟨l', conducts, hbears⟩ := h.account l hl hacc _ _ ((regroup pre l fs ns).mp hbears)
    exact ⟨l', conducts, (regroup post l' fs ns).mpr hbears⟩
  · exact h.account l hl hacc _ _ ((regroup pre l fs ns).mp hbears)

theorem of_within {x : Run α} (hx : Within accounts x) {b : Burden} (hb : b.landing = none) :
    accounting.Carries b b x := by
  have framed : accounting.Carries .nothing .nothing x := hx
  have framed := frame framed b.flights b.names
  obtain ⟨fs, ns, landing⟩ := b
  obtain rfl : landing = none := hb
  simpa [Burden.nothing] using framed

theorem setProperty (b : Burden) (o : ObjectId) (name : String) (v : Value) :
    accounting.Carries b b (Run.setProperty o name v) := fun _ => Settles.still b rfl rfl

theorem finish (b : Burden) (o : ObjectId) : accounting.Carries b b (Run.finish o) :=
  fun _ => Settles.still b rfl rfl

/-- An act that takes nothing and leaves nothing. -/
theorem act {a : Act} {b : Burden} (hstart : ∀ root, a ≠ .start root)
    (h : ∀ l : Ledger, l.landing = b.landing → l.Enabled a ∧
      (l.after a).flights = l.flights ∧ (l.after a).hand = l.hand ∧ (l.after a).landing = l.landing) :
    accounting.Carries b b (Run.act a) := by
  intro s
  refine Settles.act hstart fun l _ _ fs ns hbears => ?_
  obtain ⟨enabled, hf, hn, hl⟩ := h l hbears.2.2
  exact ⟨enabled, hf ▸ hbears.1, hn ▸ hbears.2.1, hl ▸ hbears.2.2⟩

end accounting

/-- What the operations go on into keeps the account, and serves the waiter it is given. -/
structure Machine.Accounts (m : Machine) : Prop where
  within : m.Keeps (.uncounted accounts)
  deliver : ∀ hops w v p, accounting.Carries (.ofFlights {⟨w.slot, w.place, p⟩}) .nothing (m.deliver hops w v)

namespace Container

variable {k : Container} {m : Machine}

/-! ## Assignments -/

/-- Making an assignment leaves everything in hand, that assignment too. -/
theorem assign_carries (host : Host) (o : ObjectId) (p : Property) (v : Value) (handler : Handler)
    (b : Burden) : accounting.Carries b b (assign host o p v handler) := by
  unfold assign
  refine .bind .heap fun heap => ?_
  dsimp only
  split
  · exact .report _ _ _ _
  · have write := accounting.act (b := b) (a := .write o p.name) (by simp)
      fun l _ => ⟨trivial, rfl, rfl, rfl⟩
    refine .bind write fun _ => .bind (accounting.setProperty b o _ _) fun taken => ?_
    split
    · exact .pure _
    · exact .report _ _ _ _

theorem notifyIfReady_within (i : Nat) : Within accounts (notifyIfReady i) := by
  unfold notifyIfReady
  refine .bind .build fun b => ?_
  split
  · exact .pure _
  · split
    · exact .pure _
    · have notify : Within accounts (Run.act (.notify i)) :=
        accounting.act (by simp) fun l hl => ⟨hl, rfl, rfl, rfl⟩
      exact .bind notify fun _ => .bind .heap fun _ => .bind (.report _ _ _ _) fun _ =>
        accounting.finish _ _

theorem markConfigured_within (i : Nat) : Within accounts (markConfigured i) := by
  have configured : Within accounts (Run.act (.configured i)) :=
    accounting.act (by simp) fun l hl => ⟨hl, rfl, rfl, rfl⟩
  exact .bind configured fun _ => notifyIfReady_within i

/-- With its release an assignment is no longer in hand. -/
theorem release_carries (i : Nat) : accounting.Carries (.ofLanding i) .nothing (release i) := by
  refine .bind (fun s => ?_) fun _ => .of_keeping (notifyIfReady_within i)
  refine Settles.act (by simp) fun l _ _ fs ns hbears => ?_
  exact ⟨hbears.2.2, hbears.1, hbears.2.1, rfl⟩

/-- The position that tracking gives is that of the component. -/
theorem track_after (o : ObjectId) (s : Session) :
    After (track o) s (fun i t => Settles .nothing .nothing s t ∧ t.build.trackedOnes[i]? = some o)
      (Stops .nothing s) := by
  unfold track
  rw [Run.after_bind, Run.after_build]
  split
  next i hi =>
    refine ⟨accounts.refl () s, ?_⟩
    obtain ⟨hlt, ho, -⟩ := List.findIdx?_eq_some_iff_getElem.mp hi
    simpa [Build.trackedOnes, List.getElem?_eq_getElem hlt] using ho
  · refine ⟨Settles.act (by simp) fun l _ _ fs ns hbears => ?_, ?_⟩
    · exact ⟨hbears.2.2, hbears.1, hbears.2.1, hbears.2.2⟩
    · simp [Build.trackedOnes, Build.apply]

/-! ## Waiters -/

/-- A placeholder that is to wait does so or is served. -/
theorem waitOn_carries (hm : m.Accounts) (hops : Nat) (p : Pending) (slot : Slot) (place : List Place) :
    accounting.Carries (.ofFlights {⟨slot, place, p⟩}) .nothing (waitOn m hops p slot place) := by
  intro s
  unfold waitOn
  rw [Run.after_bind, Run.after_build]
  split
  next ws hs =>
    refine Settles.act (by simp) fun l hb _ fs ns hbears => ?_
    obtain ⟨hf, hn, hl⟩ := hbears
    have mem : (⟨slot, place, p⟩ : Flight) ∈ l.flights := by simp [hf, Burden.ofFlights]
    refine ⟨⟨hl, mem, ws, hb ▸ hs⟩, ?_, hn, hl⟩
    simp [Ledger.after, Waiter.flight, hf, Burden.ofFlights, Burden.nothing]
  · exact hm.deliver hops ⟨slot, place, p.path⟩ _ p s
  · exact hm.deliver hops ⟨slot, place, p.path⟩ _ p s

theorem waitOnAll_carries (hm : m.Accounts) (hops : Nat) (slot : Slot)
    (leaves : List (List Place × Pending)) :
    accounting.Carries (.ofFlights (leaves.map fun l => (⟨slot, l.1, l.2⟩ : Flight) : List Flight)) .nothing
      (waitOnAll m hops slot leaves) := by
  induction leaves with
  | nil => exact .pure _
  | cons leaf leaves ih =>
      obtain ⟨place, p⟩ := leaf
      have first := accounting.frame (waitOn_carries hm hops p slot place)
        (leaves.map fun l => (⟨slot, l.1, l.2⟩ : Flight) : List Flight) 0
      simp only [Burden.ofFlights, Burden.nothing, zero_add, Multiset.singleton_add,
        Multiset.cons_coe] at first ih
      exact .bind first fun _ => ih

theorem deliverAll_carries (hm : m.Accounts) (hops : Nat) (v : Option Value) (name : String)
    (ws : List Waiter) :
    accounting.Carries (.ofFlights (ws.map (Waiter.flight name) : List Flight)) .nothing
      (deliverAll m hops v ws) := by
  induction ws with
  | nil => exact .pure _
  | cons w ws ih =>
      have first := accounting.frame (hm.deliver hops w v ⟨name, w.path⟩)
        (ws.map (Waiter.flight name) : List Flight) 0
      simp only [Burden.ofFlights, Burden.nothing, zero_add, Multiset.singleton_add,
        Multiset.cons_coe] at first ih
      exact .bind first fun _ => ih

theorem waitersOf_eq (l : Ledger) (name : String) :
    l.waitersOf name
      = ((NameState.waiters (l.build.stateOf? name)).map (Waiter.flight name) : List Flight) := by
  unfold Ledger.waitersOf
  cases l.build.stateOf? name <;> rfl

/-- A name in hand turns into its waiters, whether it is built or given up. -/
theorem through_settles {a : Act} {name : String} {s : Session}
    (ha : a = .abandon name ∨ ∃ v, a = .finish name v) :
    Settles (.ofName name)
      (.ofFlights ((NameState.waiters (s.build.stateOf? name)).map (Waiter.flight name) : List Flight))
      s { s with build := s.build.apply a, acts := a :: s.acts } := by
  refine Settles.act (by rcases ha with rfl | ⟨v, rfl⟩ <;> simp)
    fun l hb _ fs ns hbears => ?_
  obtain ⟨hf, hn, hl⟩ := hbears
  have mem : name ∈ l.hand := by simp [hn, Burden.ofName]
  rw [← hb, ← waitersOf_eq]
  rcases ha with rfl | ⟨v, rfl⟩ <;>
    exact ⟨⟨hl, mem⟩, by simp [Ledger.after, hf, Burden.ofName, Burden.ofFlights],
      by simp [Ledger.after, hn, Burden.ofName, Burden.ofFlights], hl⟩

theorem finishName_carries (hm : m.Accounts) (hops : Nat) (name : String) (v : Value) :
    accounting.Carries (.ofName name) .nothing (finishName m hops name v) := by
  intro s
  unfold finishName
  rw [Run.after_bind, Run.after_build, Run.after_bind, Run.after_act]
  exact (through_settles (.inr ⟨v, rfl⟩)).after
    (Protocol.Carries.bind (.report _ _ _ _) (fun _ => deliverAll_carries hm hops _ name _) _)

theorem abandon_carries (hm : m.Accounts) (hops : Nat) (name : String) :
    accounting.Carries (.ofName name) .nothing (abandon m hops name) := by
  intro s
  unfold abandon
  rw [Run.after_bind, Run.after_build, Run.after_bind, Run.after_act]
  exact (through_settles (.inl rfl)).after (deliverAll_carries hm hops _ name _ _)

/-! ## Parked values -/

/-- Filling a place of a parked assignment serves a waiter; with the last one the assignment is in hand. -/
theorem fill_settles {i : Nat} {place : List Place} {p : Pending} {v : Value} {d : Deferred} {s : Session}
    (hd : s.build.deferred[i]?.join = some d) :
    Settles (.ofFlights {⟨.property i, place, p⟩})
      (if d.outstanding ≤ 1 then .ofLanding d.owner else .nothing) s
      { s with build := s.build.apply (.fill i place v), acts := .fill i place v :: s.acts } := by
  refine Settles.act (by simp) fun l hb hl fs ns hbears => ?_
  obtain ⟨hf, hn, hnone⟩ := hbears
  have flights : l.flights = ⟨.property i, place, p⟩ ::ₘ fs := hf
  refine ⟨⟨hnone, p, by simp [flights]⟩, ?_⟩
  have rest := hl.slots.flights_serve flights
  by_cases ho : d.outstanding ≤ 1
  · rw [if_pos ho]
    exact ⟨rest.trans (zero_add fs).symm, hn, by simp [Ledger.after, hb, hd, ho, Burden.ofLanding, Option.filter]⟩
  · rw [if_neg ho]
    exact ⟨rest.trans (zero_add fs).symm, hn, by simp [Ledger.after, hb, hd, ho, Burden.nothing, Option.filter]⟩

/-- Filling a place of a parked named value serves a waiter; with the last one the name is in hand. -/
theorem fillName_settles {i : Nat} {place : List Place} {p : Pending} {v : Value} {d : DeferredName}
    {s : Session} (hd : s.build.deferredNames[i]?.join = some d) :
    Settles (.ofFlights {⟨.name i, place, p⟩})
      (if d.outstanding ≤ 1 then .ofName d.name else .nothing) s
      { s with build := s.build.apply (.fillName i place v), acts := .fillName i place v :: s.acts } := by
  refine Settles.act (by simp) fun l hb hl fs ns hbears => ?_
  obtain ⟨hf, hn, hnone⟩ := hbears
  have flights : l.flights = ⟨.name i, place, p⟩ ::ₘ fs := hf
  refine ⟨⟨hnone, p, by simp [flights]⟩, ?_⟩
  have rest := hl.slots.flights_serve flights
  by_cases ho : d.outstanding ≤ 1
  · rw [if_pos ho]
    refine ⟨rest.trans (zero_add fs).symm, ?_, hnone⟩
    simp [Ledger.after, hb, hd, ho, hn, Burden.ofFlights, Burden.ofName, Option.filter]
  · rw [if_neg ho]
    refine ⟨rest.trans (zero_add fs).symm, ?_, hnone⟩
    simp [Ledger.after, hb, hd, ho, hn, Burden.ofFlights, Burden.nothing, Option.filter]

theorem fillProperty_carries (k : Container) (i : Nat) (place : List Place) (p : Pending)
    (v : Option Value) :
    accounting.Carries (.ofFlights {⟨.property i, place, p⟩}) .nothing (k.fillProperty i place v) := by
  intro s
  unfold fillProperty
  rw [Run.after_bind, Run.after_build]
  split
  -- a waiter in hand waits for something that is parked
  next hd =>
    refine ⟨List.prefix_refl _, .refl _, fun l hb hl fs ns hbears => ?_⟩
    have flights : l.flights = ⟨.property i, place, p⟩ ::ₘ fs := hbears.1
    obtain ⟨d, hd', -⟩ := hl.parked_of_flight (flights ▸ Multiset.mem_cons_self _ _)
    exact absurd hd (by simp [← hb, hd'])
  next d hd =>
    dsimp only
    rw [Run.after_bind, Run.after_act]
    refine (fill_settles hd).after ?_
    by_cases ho : d.outstanding ≤ 1
    · have last : ¬ 0 < (d.filled place (v.getD .null)).outstanding := by simp [Deferred.filled]; omega
      rw [if_pos ho, if_neg last, Run.after_bind, Run.after_build]
      split
      -- the component of a parked assignment is tracked
      next ht =>
        refine ⟨List.prefix_refl _, .refl _, fun l hb hl fs ns hbears => ?_⟩
        have inside := hl.owners.landing d.owner hbears.2.2
        rw [hb] at inside
        exact absurd (List.getElem?_eq_none_iff.mp ht) (by omega)
      next t ht =>
        have release := release_carries d.owner
        split
        · exact Protocol.Carries.bind (.report _ _ _ _) (fun _ => release) _
        · exact Protocol.Carries.bind (assign_carries _ _ _ _ _ _) (fun _ => release) _
    · have more : 0 < (d.filled place (v.getD .null)).outstanding := by simp [Deferred.filled]; omega
      rw [if_neg ho, if_pos more]
      exact accounting.refl .nothing _

theorem fillName_carries (hm : m.Accounts) (hops : Nat) (i : Nat) (place : List Place) (p : Pending)
    (v : Option Value) :
    accounting.Carries (.ofFlights {⟨.name i, place, p⟩}) .nothing (fillName m hops i place v) := by
  intro s
  unfold fillName
  rw [Run.after_bind, Run.after_build]
  split
  next hd =>
    refine ⟨List.prefix_refl _, .refl _, fun l hb hl fs ns hbears => ?_⟩
    have flights : l.flights = ⟨.name i, place, p⟩ ::ₘ fs := hbears.1
    obtain ⟨d, hd', -⟩ := hl.parkedName_of_flight (flights ▸ Multiset.mem_cons_self _ _)
    exact absurd hd (by simp [← hb, hd'])
  next d hd =>
    dsimp only
    rw [Run.after_bind, Run.after_act]
    refine (fillName_settles hd).after ?_
    by_cases ho : d.outstanding ≤ 1
    · have last : ¬ 0 < (d.filled place (v.getD .null)).outstanding := by
        simp [DeferredName.filled]; omega
      rw [if_pos ho, if_neg last]
      exact finishName_carries hm hops d.name _ _
    · have more : 0 < (d.filled place (v.getD .null)).outstanding := by
        simp [DeferredName.filled]; omega
      rw [if_neg ho, if_pos more]
      exact accounting.refl .nothing _

/-- A waiter in hand is served. -/
theorem deliver_carries (hm : m.Accounts) (hops : Nat) (w : Waiter) (v : Option Value) (p : Pending) :
    accounting.Carries (.ofFlights {⟨w.slot, w.place, p⟩}) .nothing (k.deliver m hops w v) := by
  have he : (k.surroundings m).Within accounts := surroundings_within hm.within none
  obtain ⟨slot, place, path⟩ := w
  unfold deliver
  cases slot with
  | property i =>
      have serve := fillProperty_carries k i place p
      dsimp only
      split
      · exact .bind (accounting.of_within (Value.atPath_within he hops _ _) rfl) serve
      · exact .bind (.pure _) serve
  | name i =>
      have serve := fillName_carries hm hops i place p
      dsimp only
      split
      · exact .bind (accounting.of_within (Value.atPath_within he hops _ _) rfl) serve
      · exact .bind (.pure _) serve

/-- The placeholders of a value that has just been parked are in hand. -/
theorem park_settles {s : Session} {i : Nat} (hi : i < s.build.objects.length) (p : Property) {v : Value}
    (hv : v.placeholders ≠ []) (handler : Handler) :
    Settles .nothing
      (.ofFlights (v.placeholders.map fun l =>
        (⟨.property s.build.deferred.length, l.1, l.2⟩ : Flight) : List Flight)) s
      { s with
        build := s.build.apply (.park ⟨i, p, v, v.placeholders.length, handler⟩)
        acts := .park ⟨i, p, v, v.placeholders.length, handler⟩ :: s.acts } := by
  refine Settles.act (by simp) fun l hb hl fs ns hbears => ?_
  obtain ⟨hf, hn, hnone⟩ := hbears
  have flights : l.flights = fs := hf.trans (zero_add fs)
  refine ⟨⟨hnone, hb ▸ hi, hv, rfl⟩, ?_, hn, hnone⟩
  simp [Ledger.after, Ledger.park, Ledger.leaves, Burden.ofFlights, flights, hb]

/-- The placeholders of a named value that has just been parked are in hand, the name no more. -/
theorem parkName_settles (s : Session) (name : String) {v : Value} (hv : v.placeholders ≠ []) :
    Settles (.ofName name)
      (.ofFlights (v.placeholders.map fun l =>
        (⟨.name s.build.deferredNames.length, l.1, l.2⟩ : Flight) : List Flight)) s
      { s with
        build := s.build.apply (.parkName ⟨name, v, v.placeholders.length⟩)
        acts := .parkName ⟨name, v, v.placeholders.length⟩ :: s.acts } := by
  refine Settles.act (by simp) fun l hb hl fs ns hbears => ?_
  obtain ⟨hf, hn, hnone⟩ := hbears
  have flights : l.flights = fs := hf.trans (zero_add fs)
  have hand : l.hand = name ::ₘ ns := hn
  refine ⟨⟨hnone, by simp [hand], hv, rfl⟩, ?_, ?_, hnone⟩
  · simp [Ledger.after, Ledger.park, Ledger.leaves, Burden.ofFlights, flights, hb]
  · simp [Ledger.after, hand, Burden.ofFlights]

/-- A value is assigned, or parked with all its placeholders seen to. -/
theorem injectAt_after (hm : m.Accounts) (hops : Nat) {i : Nat} (o : ObjectId) (p : Property) (v : Value)
    (handler : Handler) {s : Session} (hi : i < s.build.objects.length) :
    After (k.injectAt m hops i o p v handler) s (fun _ => Settles .nothing .nothing s)
      (Stops .nothing s) := by
  unfold injectAt
  split
  · exact assign_carries _ _ _ _ _ _ _
  next hleaves =>
    rw [Run.after_bind, Run.after_heap, Run.after_bind, Run.after_report]
    refine Settles.after (.still .nothing rfl rfl) ?_
    rw [Run.after_bind, Run.after_build, Run.after_bind, Run.after_act]
    refine Settles.after (park_settles ?_ p hleaves handler) (waitOnAll_carries hm hops _ _ _)
    exact hi

/-- A name in hand is built, or its value is parked with all its placeholders seen to. -/
theorem settleName_carries (hm : m.Accounts) (hops : Nat) (name : String) (v : Value) :
    accounting.Carries (.ofName name) .nothing (settleName m hops name v) := by
  intro s
  unfold settleName
  split
  · exact finishName_carries hm hops name v s
  next hleaves =>
    rw [Run.after_bind, Run.after_report]
    refine Settles.after (.still (.ofName name) rfl rfl) ?_
    rw [Run.after_bind, Run.after_build, Run.after_bind, Run.after_act]
    exact Settles.after (parkName_settles _ name hleaves) (waitOnAll_carries hm hops _ _ _)

/-! ## Operations that begin with nothing in hand -/

theorem tracked_iff (b : Build) (i : Nat) : i < b.objects.length ↔ i < b.trackedOnes.length := by
  rw [Build.trackedOnes, List.length_map]

theorem stays_tracked {i : Nat} {s t : Session} (hi : i < s.build.objects.length)
    (h : accounts.ends () () s t) : i < t.build.objects.length := by
  rw [tracked_iff] at hi ⊢
  exact Nat.lt_of_lt_of_le hi h.tracked.length_le

/-- The container's account while a component is tracked at some position. -/
def accountsOf (i : Nat) : Course :=
  accounts.given (fun s => i < s.build.objects.length) stays_tracked

theorem within_accountsOf {α : Type} {x : Run α} (hx : Within accounts x) (i : Nat) :
    Within (accountsOf i) x :=
  .given stays_tracked fun s _ => hx s

/-- What is done to a component once it is tracked. It stays tracked. -/
theorem track_bind_after {α : Type} {o : ObjectId} {f : Nat → Run α}
    (hf : ∀ i, Within (accountsOf i) (f i)) (s : Session) :
    After (track o >>= f) s (fun _ t => accounts.ends () () s t ∧ o ∈ t.build.trackedOnes)
      (accounts.cuts () s) := by
  rw [Run.after_bind]
  refine (track_after o s).mono (fun i t h => ?_) fun _ => id
  have inside : i < t.build.objects.length := (tracked_iff _ i).mpr (List.getElem?_eq_some_iff.mp h.2).1
  refine (hf i t).mono (fun _ u hd => ?_) fun u hc => Settles.stop h.1 (hc inside)
  have settles : accounts.ends () () t u := hd inside
  exact ⟨Settles.trans h.1 settles, settles.tracked.subset (List.mem_of_getElem? h.2)⟩

theorem track_bind {α : Type} {o : ObjectId} {f : Nat → Run α} (hf : ∀ i, Within (accountsOf i) (f i)) :
    Within accounts (track o >>= f) :=
  fun s => (track_bind_after hf s).mono (fun _ _ h => h.1) fun _ => id

theorem injectAt_within (hm : m.Accounts) (hops i : Nat) (o : ObjectId) (p : Property) (v : Value)
    (handler : Handler) : Within (accountsOf i) (k.injectAt m hops i o p v handler) :=
  .given stays_tracked fun _ => injectAt_after hm hops o p v handler

/-- An act that changes no component and nothing in hand. -/
theorem note_within {a : Act} (ha : (∃ i name, a = .reach i name) ∨ (∃ i name, a = .visit i name) ∨
    (∃ i names, a = .enter i names) ∨ ∃ factory, a = .delegate factory) :
    Within accounts (Run.act a) := by
  rcases ha with ⟨i, name, rfl⟩ | ⟨i, name, rfl⟩ | ⟨i, names, rfl⟩ | ⟨factory, rfl⟩ <;>
    exact accounting.act (by simp) fun _ hl => ⟨hl, rfl, rfl, rfl⟩

theorem reach_within (i j : Nat) (name : String) : Within (accountsOf j) (Run.act (.reach i name)) :=
  within_accountsOf (note_within (.inl ⟨i, name, rfl⟩)) j

theorem visit_within (i j : Nat) (name : String) : Within (accountsOf j) (Run.act (.visit i name)) :=
  within_accountsOf (note_within (.inr (.inl ⟨i, name, rfl⟩))) j

theorem enter_within (i j : Nat) (names : List String) :
    Within (accountsOf j) (Run.act (.enter i names)) :=
  within_accountsOf (note_within (.inr (.inr (.inl ⟨i, names, rfl⟩)))) j

theorem configureKey_within (hm : m.Accounts) (hops i : Nat) (o : ObjectId) (node : Configuration)
    (context key : String) : Within (accountsOf i) (k.configureKey m hops i o node context key) := by
  unfold configureKey
  refine .bind .heap fun heap => ?_
  split
  · exact .report _ _ _ _
  · refine .bind (within_accountsOf (buildValue_carries hm.within hops node key _ _ _) i) fun v => ?_
    split
    · exact injectAt_within hm hops i o _ _ _
    · exact .report _ _ _ _
    · exact .report _ _ _ _

theorem configureKeys_within (hm : m.Accounts) (hops i : Nat) (o : ObjectId) (node : Configuration)
    (context : String) (keys : List String) :
    Within (accountsOf i) (k.configureKeys m hops i o node context keys) := by
  induction keys with
  | nil => exact .pure _
  | cons key keys ih =>
      exact .bind (reach_within i i _) fun _ => .bind (configureKey_within hm hops i o node context key)
        fun _ => .bind (visit_within i i _) fun _ => ih

theorem injectAll_within (hm : m.Accounts) (hops i : Nat) (o : ObjectId) (name : String)
    (params : Params) : Within (accountsOf i) (k.injectAll m hops name i o params) := by
  induction params with
  | nil => exact .pure _
  | cons e params ih =>
      obtain ⟨key, v⟩ := e
      unfold injectAll
      refine .bind (reach_within i i key) fun _ => .bind .heap fun heap => ?_
      split
      · exact .bind (injectAt_within hm hops i o _ _ _) fun _ => .bind (visit_within i i key) fun _ => ih
      · exact .bind (.report _ _ _ _) fun _ => .bind (visit_within i i key) fun _ => ih

/-- What is configured is tracked then. -/
theorem configureBy_tracks (o : ObjectId) (names : List String) {visit : Nat → Run Unit}
    (hv : ∀ i, Within (accountsOf i) (visit i)) (s : Session) :
    After (configureBy o names visit) s (fun _ t => accounts.ends () () s t ∧ o ∈ t.build.trackedOnes)
      (accounts.cuts () s) := by
  refine track_bind_after (fun i => ?_) s
  exact .bind (enter_within i i _) fun _ => .bind (hv i) fun _ =>
    within_accountsOf (markConfigured_within i) i

theorem configureBy_within (o : ObjectId) (names : List String) {visit : Nat → Run Unit}
    (hv : ∀ i, Within (accountsOf i) (visit i)) : Within accounts (configureBy o names visit) :=
  fun s => (configureBy_tracks o names hv s).mono (fun _ _ h => h.1) fun _ => id

theorem configureAt_within (hm : m.Accounts) (hops : Nat) (o : ObjectId) (node : Configuration)
    (context : String) : Within accounts (k.configureAt m hops o node context) :=
  configureBy_within o _ fun i => configureKeys_within hm hops i o node context _

theorem construct_within (name context : String) : Within accounts (k.construct name context) := by
  unfold construct
  split
  · exact .pure _
  · intro s
    exact Settles.still _ rfl rfl

theorem instantiate_within (hm : m.Accounts) (hops : Nat) (name : String) (params : Params) :
    Within accounts (k.instantiate m hops name params) := by
  refine .bind (construct_within name name) fun o => ?_
  cases o with
  | error e => exact .pure _
  | ok o =>
      exact .bind (configureBy_within o _ fun i => injectAll_within hm hops i o name params) fun _ => .pure _

theorem inject_within (hm : m.Accounts) (hops : Nat) (o : ObjectId) (name : String) (v : Value) :
    Within accounts (k.inject m hops o name v) := by
  refine .bind .heap fun heap => ?_
  split
  · exact .bind (.report _ _ _ _) fun _ => .pure _
  · exact track_bind fun i => .bind (injectAt_within hm hops i o _ v _) fun _ => .pure _

/-! ## Names -/

theorem current_carries (b : Burden) (name : String) : accounting.Carries b b (current name) := by
  refine .bind .build fun b => ?_
  split
  · exact .pure _
  · exact .pure _
  · exact .pure _

/-- A name that has begun is in hand. -/
theorem begin_settles {name : String} {s : Session} (hs : s.build.stateOf? name = none) :
    Settles .nothing (.ofName name) s
      { s with build := s.build.apply (.begin name), acts := .begin name :: s.acts } := by
  refine Settles.act (by simp) fun l hb _ fs ns hbears => ?_
  obtain ⟨hf, hn, hl⟩ := hbears
  refine ⟨⟨hl, hb ▸ hs⟩, hf, ?_, hl⟩
  simp [Ledger.after, hn, Burden.ofName, Burden.nothing]

/-- From where a name has begun, what is built of it settles it. -/
theorem buildNamed_begun (hm : m.Accounts) (hops : Nat) (root : Configuration) (name : String) (s : Session) :
    After (k.buildNamed m hops root name) s
      (fun _ => Settles (.ofName name) .nothing (s.acted (.begin name)))
      (Stops (.ofName name) (s.acted (.begin name))) := by
  have value : accounting.Carries (.ofName name) (.ofName name)
      (k.buildValue m hops root name .any none name) :=
    accounting.of_within (buildValue_carries hm.within hops root name .any none name) rfl
  unfold buildNamed
  rw [Run.after_bind, Run.after_act]
  refine Protocol.Carries.bind (P := accounting) (.report _ _ _ _) (fun _ => .bind value fun v => ?_) _
  split
  · exact .bind (settleName_carries hm hops name _) fun _ => .bind (current_carries _ name) fun _ => .pure _
  · exact .bind (abandon_carries hm hops name) fun _ => .pure _
  · exact .bind (abandon_carries hm hops name) fun _ => .pure _

/-- A name that is unbuilt is in hand while its value is built. -/
theorem buildNamed_after (hm : m.Accounts) (hops : Nat) (root : Configuration) {name : String}
    {s : Session} (hs : s.build.stateOf? name = none) :
    After (k.buildNamed m hops root name) s (fun _ => Settles .nothing .nothing s)
      (Stops .nothing s) :=
  (buildNamed_begun hm hops root name s).mono (fun _ _ => (begin_settles hs).trans)
    fun _ => (begin_settles hs).stop

theorem tryGetNamed_within (hm : m.Accounts) (hops : Nat) (name : String) :
    Within accounts (k.tryGetNamed m hops name) := by
  intro s
  unfold tryGetNamed
  rw [Run.after_bind, Run.after_build]
  split
  · exact accounts.refl () s
  · exact Settles.still _ rfl rfl
  next hs =>
    split
    · exact accounts.refl () s
    · split
      · exact buildNamed_after hm hops _ hs
      · exact accounts.refl () s

/-! ## Factories -/

theorem finishOutputs_within (os : List ObjectId) : Within accounts (finishOutputs os) := by
  induction os with
  | nil => exact .pure _
  | cons o os ih =>
      refine .bind (.bind .build fun b => ?_) fun _ => ih
      split
      · exact .pure _
      · split
        · exact .pure _
        · exact markConfigured_within _

theorem runScript_within (hm : m.Accounts) {α : Type} (hops : Nat) (script : Script α) :
    Within accounts (k.runScript m hops script) :=
  runScript_carries hm.within hops (fun _ _ => Settles.still _ rfl rfl)
    (fun o name v => accounting.setProperty _ o name v) (inject_within hm hops)
    (configureAt_within hm hops) (instantiate_within hm hops) (tryGetNamed_within hm hops) script

theorem delegate_within (hm : m.Accounts) (hops : Nat) (name : String) (factory : Factory)
    (node : Configuration) (context : String) :
    Within accounts (k.delegate m hops name factory node context) := by
  refine .bind (.report _ _ _ _) fun _ => .bind (runScript_within hm hops _) fun v => ?_
  cases v with
  | error e => exact .pure _
  | ok v => exact .bind (finishOutputs_within _) fun _ => .pure _

theorem runFactory_within (hm : m.Accounts) (hops : Nat) (name : String) (node : Configuration)
    (context : String) : Within accounts (k.runFactory m hops name node context) := by
  unfold runFactory
  split
  · exact .pure _
  · exact .bind (note_within (.inr (.inr (.inr ⟨name, rfl⟩)))) fun _ => delegate_within hm hops name _ node context

/-! ## The machine -/

theorem keeps_accounts (hm : m.Accounts) : k.Keeps (.uncounted accounts) m :=
  ⟨hm.within, construct_within, fun hops o => configureAt_within hm hops o, instantiate_within hm,
    tryGetNamed_within hm, runFactory_within hm⟩

/-- The container's machine keeps the account, with any number of steps. -/
theorem machine_accounts (k : Container) (n : Nat) : (k.machine n).Accounts := by
  induction n with
  | zero =>
      refine ⟨⟨fun _ _ _ _ _ => .exhausted, fun _ _ _ _ _ => .exhausted⟩, ?_⟩
      exact fun _ _ _ _ s => Stops.here _ s
  | succ n ih =>
      exact ⟨⟨fun p hops u params _ => portal_carries (keeps_accounts ih) p hops u params,
        buildNode_carries (keeps_accounts ih)⟩, deliver_carries ih⟩

end Container

end ObjectGraph
