import ObjectGraph.Proofs.Steps
import ObjectGraph.Proofs.Telling.Tidy
import ObjectGraph.Proofs.Waiting.Conduct

/-!
# `Proofs.Telling.Upkeep` — assignments and names leave a pass tidy

An operation of a plain pass begins where things are tidy and leaves them tidy, with all components
configured that it tracks, and with those further up as they were (`Upkeep`). It may begin with a component
in hand that is ready to be configured. `tidying` is the protocol of such operations.

This module is about the operations that track nothing: making assignments, parking them and serving
waiters. A component is told where it may have become ready for that, which is after a release and when it
is said to be configured.

Contents:
* `Upkeep`, `tidying`, `tidyingHand`;
* `tidying.inert`, acts that concern names and parked values;
* `notifyIfReady_after`, `release_after`, `assign_after`, `perform_after`;
* `fillProperty_tidies`, `serves_of_tidies`, `injectAt_tidies`.
-/

namespace ObjectGraph

open Run (After GoesOn Protocol Quiet)
open Session (Ready Assignable)

variable {a s t u : Session}

/-- An operation has gone on in a tidy way, from one component in hand to another. -/
structure Upkeep (a : Session) (b c : Option ObjectId) (s t : Session) : Prop where
  tidy : Tidy a t
  hand : ∀ p, c = some p → Ready a t p
  onward : Onward a s.build.objects.length b s t
  /-- What has been tracked since is configured. -/
  closed : ∀ (i : Nat) (r : Tracked), t.build.objects[i]? = some r → s.build.objects.length ≤ i →
    r.configured = true
  /-- What has come to hand was not ready before. -/
  taken : ∀ p, c = some p → b = some p ∨ ¬ Ready a s p

theorem Upkeep.trans {b c d : Option ObjectId} (h : Upkeep a b c s t) (h' : Upkeep a c d t u) :
    Upkeep a b d s u where
  tidy := h'.tidy
  hand := h'.hand
  onward := h.onward.trans (h'.onward.of_le h.onward.objects_length_le) h.taken
  closed i r hr hi := by
    by_cases hlt : i < t.build.objects.length
    · obtain ⟨r', hr', -, -, same⟩ := h'.onward.tracked i _ (List.getElem?_eq_getElem hlt)
      obtain rfl : r = r' := Option.some.inj (hr.symm.trans hr')
      rw [same hlt]
      exact h.closed i _ (List.getElem?_eq_getElem hlt) hi
    · exact h'.closed i r hr (Nat.not_lt.mp hlt)
  taken p hp := by
    rcases h'.taken p hp with hc | hno
    · exact h.taken p hc
    · by_cases hb : b = some p
      · exact .inl hb
      · exact .inr fun hr => hno (h.onward.ready p hb hr)

/-- Where neither what the container knows nor the heap has changed, everything is as before. -/
theorem Quiet.upkeep {b : Option ObjectId} (h : Quiet s t) (hs : Tidy a s)
    (hb : ∀ p, b = some p → Ready a s p) : Upkeep a b b s t := by
  have quietly : Quietly s t := ⟨h.build, h.acts⟩
  have classes : s.heap.SameClasses t.heap := h.heap ▸ .refl _
  have place : ∀ o q p, a.heap.length ≤ o → s.Unreached o q → t.heap.InPlace o q p →
      s.heap.InPlace o q p := fun _ _ _ _ _ hp => h.heap ▸ hp
  refine ⟨⟨quietly.neat hs.toNeat classes (by rw [h.heap]) place, fun o => ?_, ?_⟩,
    fun p hp => quietly.ready classes place (hb p hp),
    quietly.onward classes fun p _ => quietly.ready classes place, fun i r hr hi => ?_, fun p hp => .inl hp⟩
  · rw [h.heap, h.build]
    exact hs.counted o
  · unfold AllTold
    rw [h.build]
    exact hs.told
  · rw [h.build] at hr
    exact absurd (List.getElem?_eq_some_iff.mp hr).1 (by omega)

/-- Operations of a plain pass that started from `a` keep it tidy, with components in hand. -/
def tidying (a : Session) : Protocol (Option ObjectId) where
  ends b c s t := GoesOn s t ∧
    (t.Plain → Tidy a s → (∀ p, b = some p → Ready a s p) → Upkeep a b c s t)
  cuts b s t := GoesOn s t ∧ (t.Plain → Tidy a s → (∀ p, b = some p → Ready a s p) → Sound a t)
  quiet h := ⟨.of_eq h.acts, fun _ hs hb => Quiet.upkeep h hs hb⟩
  trans h h' := by
    refine ⟨h.1.trans h'.1, fun plain hs hb => ?_⟩
    have first := h.2 (plain.of_goesOn h'.1) hs hb
    exact first.trans (h'.2 plain first.tidy first.hand)
  stop b s := ⟨.refl s, fun _ hs _ => hs.sound⟩
  trans_cut h h' := by
    refine ⟨h.1.trans h'.1, fun plain hs hb => ?_⟩
    have first := h.2 (plain.of_goesOn h'.1) hs hb
    exact h'.2 plain first.tidy first.hand

/-- What is in hand may be dropped. -/
def tidyingHand (a : Session) : Hand (tidying a) where
  hold o := o
  drop o s := by
    refine ⟨.refl s, fun _ hs hb => ?_⟩
    have same := Quiet.upkeep (Quiet.refl s) hs hb
    exact ⟨same.tidy, by simp, same.onward, same.closed, by simp⟩

namespace tidying

variable {α : Type}

/-- What is in hand further up is left alone. -/
theorem frame {x : Run α} (hx : (tidying a).Carries none none x) (b : Option ObjectId) :
    (tidying a).Carries b b x := by
  intro s
  refine (hx s).mono (fun _ t h => ⟨h.1, fun plain hs hb => ?_⟩)
    fun t h => ⟨h.1, fun plain hs _ => h.2 plain hs (by simp)⟩
  have upkeep := h.2 plain hs (by simp)
  exact ⟨upkeep.tidy, fun p hp => upkeep.onward.ready p (by simp) (hb p hp), upkeep.onward.of_none,
    upkeep.closed, fun p hp => .inl hp⟩

/-- What is tidy and done without tracking anything, from a component in hand or none. -/
theorem ends_of_tidy (hgo : GoesOn s t) (hs : Tidy a s → Tidy a t ∧
    Onward a s.build.objects.length none s t ∧ t.build.objects.length = s.build.objects.length) :
    (tidying a).ends none none s t := by
  refine ⟨hgo, fun _ ht _ => ?_⟩
  obtain ⟨tidy, onward, same⟩ := hs ht
  refine ⟨tidy, by simp, onward, fun i r hr hi => ?_, by simp⟩
  exact absurd (List.getElem?_eq_some_iff.mp hr).1 (by omega)

end tidying

/-- Acts that concern names and parked values only, or only note something. -/
def Act.Inert : Act → Prop
  | .begin _ | .finish _ _ | .abandon _ | .await _ _ => True
  | .parkName _ | .fill _ _ _ | .fillName _ _ _ => True
  | .visit _ _ => True
  | _ => False

theorem Act.Naming.inert {e : Act} (h : e.Naming) : e.Inert := by
  cases e with
  | begin _ | finish _ _ | abandon _ | await _ _ | parkName _ | fillName _ _ _ => trivial
  | _ => exact h.elim

/-- An inert act changes nothing for components. -/
theorem Did.inert {e : Act} (h : Did e s t) (he : e.Inert) (hs : Tidy a s) :
    Tidy a t ∧ (∀ n, Onward a n none s t) ∧ t.build.objects = s.build.objects := by
  have order : ∀ l acts, e.InOrder l acts := by
    intro l acts
    cases e <;> trivial
  have other : ∀ {p : Prop} {x : Act}, e = x → ¬ x.Inert → p := fun hx hn => absurd (hx ▸ he) hn
  refine ⟨⟨h.neat hs.toNeat (order _ _) (fun o hx => other hx (by simp [Act.Inert]))
      (fun d hx => other hx (by simp [Act.Inert])) (fun i name hx => other hx (by simp [Act.Inert]))
      fun i names hx => other hx (by simp [Act.Inert]),
    h.counted hs.counted fun i hx => other hx (by simp [Act.Inert]),
    h.told hs.told (fun i hx => other hx (by simp [Act.Inert])) fun i hx => other hx (by simp [Act.Inert])⟩,
    fun n => h.onward (fun o hx => other hx (by simp [Act.Inert]))
      (fun i hx => other hx (by simp [Act.Inert])) fun i name hx => other hx (by simp [Act.Inert]), ?_⟩
  rw [h.build]
  cases e <;> first | rfl | exact he.elim

theorem did_act (s : Session) {e : Act} (he : ∀ root, e ≠ .start root) :
    Did e s { s with build := s.build.apply e, acts := e :: s.acts } := ⟨rfl, rfl, rfl, he⟩

theorem tidying.inert {e : Act} (he : e.Inert) : (tidying a).Carries none none (Run.act e) := by
  intro s
  have start : ∀ root, e ≠ .start root := by
    rintro root rfl
    exact he
  refine ends_of_tidy (did_act s start).goesOn fun hs => ?_
  obtain ⟨tidy, onward, objects⟩ := (did_act s start).inert he hs
  exact ⟨tidy, onward _, congrArg List.length objects⟩

/-! ## Telling -/

/-- What is ready for telling it is told, and then all have been told. -/
structure Tells (a : Session) (s t : Session) : Prop where
  tidy : Tidy a t
  onward : ∀ n, Onward a n none s t
  length : t.build.objects.length = s.build.objects.length

namespace Tells

theorem trans (h : Tells a s t) (h' : Tells a t u) : Tells a s u :=
  ⟨h'.tidy, fun n => (h.onward n).trans (h'.onward n) (by simp), h'.length.trans h.length⟩

theorem of_quiet (h : Quiet s t) (hs : Tidy a s) : Tells a s t := by
  have upkeep := Quiet.upkeep (b := none) h hs (by simp)
  have quietly : Quietly s t := ⟨h.build, h.acts⟩
  exact ⟨upkeep.tidy, fun n => quietly.onward upkeep.onward.heap fun p hp => upkeep.onward.ready p hp,
    by rw [h.build]⟩

/-- Where nothing is tracked, telling goes on in a tidy way. -/
theorem upkeep (h : Tells a s t) : Upkeep a none none s t :=
  ⟨h.tidy, by simp, h.onward _, fun _ _ hr hi =>
    absurd (List.getElem?_eq_some_iff.mp hr).1 (by have := h.length; omega), by simp⟩

end Tells

/-- A component that has been told is finished, and that is counted. -/
theorem notify_tells {i : Nat} {w : Tracked} (hs : Neat a s) (hc : Counted a s)
    (hw : s.build.objects[i]? = some w) (ready : w.Ready) (htold : AllToldBut i s)
    (h : Did (.notify i) s t) (hu : Quietly t u) (hheap : u.heap = t.heap.finish w.object) :
    Tells a s u := by
  have inside := hs.inside w (List.mem_of_getElem? hw)
  have order : Act.InOrder ((Ledger.idle a.build).replay s.passActs) s.passActs (.notify i) := by
    refine ⟨w, ?_, ready.configured, ready.pending, ready.notified⟩
    rw [hs.build]
    exact hw
  have neat : Neat a t := h.neat hs order (by simp) (by simp) (by simp) (by simp)
  have onward : ∀ n, Onward a n none s t := fun n => h.onward (by simp) (by simp) (by simp)
  have marked : t.build.objects[i]? = some { w with notified := true } := by
    simpa [Act.mark] using h.objects hw
  have classes : t.heap.SameClasses u.heap := hheap ▸ t.heap.sameClasses_finish w.object
  -- the component is configured, so what it holds does not matter any more
  have place : ∀ o q p, a.heap.length ≤ o → t.Unreached o q → u.heap.InPlace o q p →
      t.heap.InPlace o q p := by
    intro o q p _ hun hp
    rw [hheap] at hp
    refine Heap.inPlace_of_finish (fun ho => ?_) hp
    exact absurd (hun i _ marked ho).1 (by simp [ready.configured])
  have length : u.heap.length = t.heap.length := by rw [hheap, Heap.length_finish]
  refine ⟨⟨hu.neat neat classes length place, fun o => ?_, ?_⟩, fun n => ?_, ?_⟩
  · have count := Build.countP_modify (fun r : Tracked => r.object == o && r.notified)
      (fun r => { r with notified := true }) hw
    have objects : u.build.objects = s.build.objects.modify i fun r => { r with notified := true } := by
      rw [hu.build, h.build]
      rfl
    rw [hheap, h.heap, Heap.times_finish _ inside.2, hc o, objects]
    by_cases ho : w.object = o <;> simp [ho, ready.notified] at count ⊢ <;> omega
  · unfold AllTold
    rw [hu.build]
    exact h.all_told htold
  · have finish : Onward a n none t u := hu.onward classes fun p _ => hu.ready classes place
    exact (onward n).trans finish (by simp)
  · rw [hu.build, h.build]
    simp [Build.apply]

namespace Container

/-- Where all but one have been told who can be, all have after looking at that one. -/
theorem notifyIfReady_after {i : Nat} (hs : Neat a s) (hc : Counted a s) (htold : AllToldBut i s) :
    After (notifyIfReady i) s (fun _ t => Tells a s t) (fun _ => False) := by
  refine (notifyIfReady_cases i s).mono (fun _ t h => ?_) fun _ => id
  obtain ⟨rfl, unready⟩ | ⟨w, hw, ready, build, acts, heap⟩ := h
  · refine ⟨⟨hs, hc, htold.allTold fun w hw hconf hpend => ?_⟩, fun n => ?_, rfl⟩
    · by_contra hnot
      exact unready w hw ⟨hconf, hpend, by simpa using hnot⟩
    · exact (⟨rfl, rfl⟩ : Quietly t t).onward (.refl _) fun _ _ => id
  · exact notify_tells hs hc hw ready htold (did_act s (by simp)) ⟨build, acts⟩ heap

/-- A release, and telling the component if that was the last it waited for. -/
theorem release_after (hs : Tidy a s) (i : Nat) :
    After (release i) s (fun _ t => Tells a s t) (fun _ => False) := by
  have did := did_act s (e := .release i) (by simp)
  have neat := did.neat hs.toNeat trivial (by simp) (by simp) (by simp) (by simp)
  unfold release
  rw [Run.after_bind, Run.after_act]
  refine (notifyIfReady_after neat (did.counted hs.counted (by simp)) (did.told_but hs.told (.inl rfl))).mono
    (fun _ t h => ⟨h.tidy, fun n => ?_, ?_⟩) fun _ => id
  · exact (did.onward (by simp) (by simp) (by simp)).trans (h.onward n) (by simp)
  · rw [h.length, did.build]
    simp [Build.apply]

/-! ## Assignments -/

/-- An assignment that is in order goes on in a tidy way. -/
theorem assign_after {i : Nat} {w : Tracked} {r : Property} (host : Host) (v : Value) (handler : Handler)
    (hs : Tidy a s) (hw : s.build.objects[i]? = some w) (hr : s.Assignable i r)
    (horder : w.configured = false ∨ ((Ledger.idle a.build).replay s.passActs).landing = some i) :
    After (assign host w.object r v handler) s (fun _ t => Tells a s t) (fun _ => False) := by
  refine (assign_cases host w.object r v handler s).mono (fun _ t h => ?_) fun _ => id
  rcases h with quiet | ⟨build, acts, v, heap⟩
  · exact Tells.of_quiet quiet hs
  · have did := did_act s (e := .write w.object r.name) (by simp)
    have order : Act.InOrder ((Ledger.idle a.build).replay s.passActs) s.passActs
        (.write w.object r.name) := by
      refine ⟨i, w, ?_, rfl, horder⟩
      rw [hs.build]
      exact hw
    have onward : ∀ n, Onward a n none s _ := fun n => did.onward (by simp) (by simp) (by simp)
    have tidy : Tidy a _ := ⟨did.neat hs.toNeat order (by simp) (by simp) (by simp) (by simp),
      did.counted hs.counted (by simp), did.told hs.told (by simp) (by simp)⟩
    have assigned := tidy.set (n := 0) (did.objects hw) ((onward 0).assignable hs.toNeat hr) v
    have written : Tells a s _ := ⟨assigned.1, fun n => (onward n).trans
      (tidy.set (did.objects hw) ((onward n).assignable hs.toNeat hr) v).2 (by simp), rfl⟩
    exact written.trans (Tells.of_quiet ⟨heap, build, acts⟩ written.tidy)

/-! ## Parked values -/

/-- A run that goes on keeps a pass tidy if it does so from where things are tidy. -/
theorem tidying_of_tidy {α : Type} {x : Run α} {b c : Option ObjectId}
    (hgo : After x s (fun _ t => GoesOn s t) fun t => GoesOn s t)
    (h : Tidy a s → (∀ p, b = some p → Ready a s p) →
      After x s (fun _ t => t.Plain → Upkeep a b c s t) fun t => t.Plain → Sound a t) :
    After x s (fun _ => (tidying a).ends b c s) ((tidying a).cuts b s) := by
  by_cases ht : Tidy a s ∧ ∀ p, b = some p → Ready a s p
  · exact (hgo.and (h ht.1 ht.2)).mono (fun _ _ h => ⟨h.1, fun plain _ _ => h.2 plain⟩)
      fun _ h => ⟨h.1, fun plain _ _ => h.2 plain⟩
  · exact hgo.mono (fun _ _ h => ⟨h, fun _ hs hb => absurd ⟨hs, hb⟩ ht⟩)
      fun _ h => ⟨h, fun _ hs hb => absurd ⟨hs, hb⟩ ht⟩

/-- The last placeholder of a parked assignment has been filled, so the assignment is being made. -/
theorem landing_of_filled {i : Nat} {place : List Place} {v : Value} {d : Deferred} (hs : Logged a s)
    (hd : s.build.deferred[i]?.join = some d) (ho : d.outstanding ≤ 1)
    (h : Did (.fill i place v) s t) :
    ((Ledger.idle a.build).replay t.passActs).landing = some d.owner := by
  rw [h.passActs]
  change ((((Ledger.idle a.build).replay s.passActs).build.deferred[i]?.join.filter
    fun d => d.outstanding ≤ 1).map (·.owner)) = some d.owner
  rw [hs.build, hd]
  simp [ho, Option.filter]

/-- A parked assignment that is in order is made in a tidy way, or comes to nothing. -/
theorem perform_after {i : Nat} {w : Tracked} {d : Deferred} (k : Container) (hs : Tidy a s)
    (hw : s.build.objects[i]? = some w) (hr : s.Assignable i d.property)
    (landing : ((Ledger.idle a.build).replay s.passActs).landing = some i) :
    After (k.perform w.object d) s (fun _ t => Tells a s t) fun _ => False := by
  unfold perform
  split
  · exact Tells.of_quiet ⟨rfl, rfl, rfl⟩ hs
  · exact assign_after k.host d.value d.handler hs hw hr (.inr landing)

theorem fillProperty_tidies (k : Container) (i : Nat) (place : List Place) (v : Option Value) :
    (tidying a).Carries none none (k.fillProperty i place v) := by
  intro s
  refine tidying_of_tidy ((fillProperty_carries k i place ⟨"", none⟩ v s).mono
    (fun _ _ h => h.goesOn) fun _ h => h.goesOn) fun hs _ => ?_
  refine (fillProperty_after k i place v s).mono (fun _ t h _ => Tells.upkeep ?_) fun _ => False.elim
  have did := did_act s (e := .fill i place (v.getD .null)) (by simp)
  obtain ⟨tidy, onward, objects⟩ := did.inert trivial hs
  have filled : Tells a s _ := ⟨tidy, onward, congrArg List.length objects⟩
  obtain ⟨-, rfl⟩ | ⟨-, made, -, step⟩ := h
  · exact Tells.of_quiet (.refl t) hs
  · cases step with
    | wait => exact filled
    | @make _ u _ _ d w _ _ parked last owner performed released =>
        have assignable := (onward 0).assignable hs.toNeat (hs.parked d (List.mem_of_getElem? parked))
        have landing := landing_of_filled hs.toLogged (Option.join_eq_some_iff.mpr parked) last did
        have assigned : Tells a _ u :=
          (perform_after (d := d.filled place _) k tidy (objects ▸ owner) assignable landing).of_ended performed
        exact (filled.trans assigned).trans ((release_after assigned.tidy d.owner).of_ended released)

/-! ## Waiters -/

end Container

/-- What the operations go on into keeps a pass tidy, and keeps the account. -/
structure Machine.Tidies (a : Session) (m : Machine) : Prop where
  keeps : m.Keeps (tidyingHand a)
  deliver : ∀ hops w v, (tidying a).Carries none none (m.deliver hops w v)
  accounts : m.Accounts

namespace Container

variable {k : Container} {m : Machine}

theorem serves_of_tidies (hm : m.Tidies a) : k.Serves (tidyingHand a) m :=
  ⟨hm.keeps, fun h => tidying.inert h.inert, fillProperty_tidies k, hm.deliver⟩

/-- An assignment is parked for a component that is being configured. -/
theorem park_tells {d : Deferred} {w : Tracked} (hs : Tidy a s) (hw : s.build.objects[d.owner]? = some w)
    (hf : w.configured = false) (hr : s.Assignable d.owner d.property) (h : Did (.park d) s t) :
    Tells a s t := by
  have order : Act.InOrder ((Ledger.idle a.build).replay s.passActs) s.passActs (.park d) := by
    refine ⟨w, ?_, hf⟩
    rw [hs.build]
    exact hw
  have park : ∀ d', Act.park d = .park d' → s.Assignable d'.owner d'.property := by
    rintro d' he
    obtain rfl := Act.park.inj he
    exact hr
  refine ⟨⟨h.neat hs.toNeat order (by simp) park (by simp) (by simp), h.counted hs.counted (by simp),
    h.told hs.told (by simp) (by simp)⟩, fun n => h.onward (by simp) (by simp) (by simp), ?_⟩
  rw [h.build]
  simp [Build.apply]

/-- An assignment is parked, and its placeholders are seen to. -/
theorem park_after (k : Container) (hm : m.Tidies a) (hops : Nat) (leaves : List (List Place × Pending)) (d : Deferred)
    {w : Tracked} (hs : Tidy a s) (hw : s.build.objects[d.owner]? = some w) (hf : w.configured = false)
    (hr : s.Assignable d.owner d.property) :
    After (do
        let slot := (← Run.build).deferred.length
        Run.act (.park d)
        waitOnAll m hops (.property slot) leaves) s (fun _ => (tidying a).ends none none s)
      ((tidying a).cuts none s) := by
  have parked : ∀ {t}, Did (.park d) s t → (tidying a).ends none none s t := fun h =>
    have tells := park_tells hs hw hf hr h
    ⟨h.goesOn, fun _ _ _ => tells.upkeep⟩
  rw [Run.after_bind, Run.after_build, Run.after_bind, Run.after_act]
  exact Protocol.after (parked (did_act s (by simp))) ((serves_of_tidies (k := k) hm).waitOnAll hops _ _ _)

/-- A value for a property of a component that is being configured is assigned or parked. -/
theorem injectAt_tidies (hm : m.Tidies a) (hops : Nat) {i : Nat} {w : Tracked} {r : Property} (v : Value)
    (handler : Handler) (hs : Tidy a s) (hw : s.build.objects[i]? = some w) (hf : w.configured = false)
    (hr : s.Assignable i r) :
    After (k.injectAt m hops i w.object r v handler) s (fun _ => (tidying a).ends none none s)
      ((tidying a).cuts none s) := by
  unfold injectAt
  split
  · exact (assign_after k.host v handler hs hw hr (.inl hf)).mono
      (fun _ t h => ⟨(h.onward 0).goesOn, fun _ _ _ => h.upkeep⟩) fun _ h => h.elim
  · rw [Run.after_bind, Run.after_heap, Run.after_bind, Run.after_report]
    have quiet : ∀ {t}, Quiet s t → (tidying a).ends none none s t := (tidying a).quiet
    have tidy : ∀ {t}, Quiet s t → Tidy a t := fun h => (Tells.of_quiet h hs).tidy
    refine Protocol.after (quiet ⟨rfl, rfl, rfl⟩) ?_
    exact park_after k hm hops _ ⟨i, r, v, _, handler⟩ (tidy ⟨rfl, rfl, rfl⟩) hw hf hr

end Container

end ObjectGraph
