import ObjectGraph.Proofs.Telling.Order
import ObjectGraph.Proofs.Telling.Slots

/-!
# `Proofs.Telling.Tidy` — what holds of a pass between its operations

A component is configured once because nobody gets at it again: one that was just constructed is in no
place yet, and one that a property holds is held by that property only, which is reached once. So between
the operations of a pass every component held by a property that has not been reached is untracked, and
held by no other such property (`Tidy`). A component that is going to be configured is untracked and held
by no such property any more (`Ready`).

An operation may begin while components further up are being configured. It leaves these as they are
(`Onward`): it reaches none of their properties and does not say that they are configured.

Contents:
* `Session.Unreached`, `Session.Ready`, `Session.Assignable`;
* `Sound`, `Neat`, `AllTold`, `AllToldBut`, `Tidy`; `Onward`;
* `Did`: what single acts keep, `Neat.did`, `Onward.did`;
* what changes of the heap keep: `Neat.set`, `Neat.construct`.
-/

namespace ObjectGraph

open Run (GoesOn)

namespace Session

/-- Nobody has reached a property of a component, which may be tracked or not. -/
def Unreached (s : Session) (o : ObjectId) (q : String) : Prop :=
  ∀ (i : Nat) (t : Tracked), s.build.objects[i]? = some t → t.object = o →
    t.configured = false ∧ .reach i q ∉ s.passActs

/-- A component is not tracked. -/
def Untracked (s : Session) (o : ObjectId) : Prop := ∀ t ∈ s.build.objects, t.object ≠ o

/-- A component made since `a` can be configured: it is not tracked, and nobody else will get at it. -/
structure Ready (a s : Session) (p : ObjectId) : Prop where
  recent : a.heap.length ≤ p
  present : p < s.heap.length
  untracked : s.Untracked p
  unheld : ∀ o q, a.heap.length ≤ o → s.Unreached o q → ¬ s.heap.InPlace o q p

/-- A property of a tracked component has been found, and reached if it can hold a component. -/
def Assignable (s : Session) (i : Nat) (r : Property) : Prop :=
  ∃ t : Tracked, s.build.objects[i]? = some t ∧ s.heap.property? t.object r.name = some r ∧
    (r.type.holdsComponents = true → ¬ s.Unreached t.object r.name)

/-- The pass at hand is one without factories, in which no node spells a property twice. -/
structure Plain (s : Session) : Prop where
  undelegated : ∀ factory, .delegate factory ∉ s.passActs
  spelledOnce : ∀ i names, .enter i names ∈ s.passActs → names.Nodup

theorem Plain.of_goesOn {s t : Session} (ht : t.Plain) (h : GoesOn s t) : s.Plain := by
  obtain ⟨acts, hacts, -⟩ := passActs_of_goesOn h
  exact ⟨fun f hf => ht.undelegated f (hacts ▸ List.mem_append_right _ hf),
    fun i names hn => ht.spelledOnce i names (hacts ▸ List.mem_append_right _ hn)⟩

end Session

open Session (Ready Assignable)

/-- The ledger of a container that has nothing in hand. -/
def Ledger.idle (b : Build) : Ledger := ⟨b, 0, 0, none, 0, 0⟩

/-- The acts of a pass that started from `a` explain what the container knows, and are in order. -/
structure Logged (a s : Session) : Prop where
  build : ((Ledger.idle a.build).replay s.passActs).build = s.build
  orderly : (Ledger.idle a.build).Orderly s.passActs

/-- Who has been told in a pass that started from `a` has been told once. -/
def Counted (a s : Session) : Prop :=
  ∀ o, s.heap.times o
    = a.heap.times o + s.build.objects.countP fun t => t.object == o && t.notified

/-- What holds at every moment at which a pass that started from `a` may stop. -/
structure Sound (a s : Session) : Prop extends Logged a s where
  counted : Counted a s

/-- What holds in a pass that started from `a` while a component is told. -/
structure Neat (a s : Session) : Prop extends Logged a s where
  longer : a.heap.length ≤ s.heap.length
  distinct : (s.build.objects.map (·.object)).Nodup
  inside : ∀ t ∈ s.build.objects, a.heap.length ≤ t.object ∧ t.object < s.heap.length
  reached : ∀ i name, .reach i name ∈ s.passActs → i < s.build.objects.length
  entered : ∀ i names, .enter i names ∈ s.passActs → i < s.build.objects.length
  lawful : ∀ (o : ObjectId) (c : Component), a.heap.length ≤ o → s.heap[o]? = some c → c.ofClass.Lawful
  held : ∀ o q p, a.heap.length ≤ o → s.Unreached o q → s.heap.InPlace o q p →
    a.heap.length ≤ p ∧ p < s.heap.length ∧ s.Untracked p
  unshared : ∀ o q o' q' p, a.heap.length ≤ o → s.Unreached o q → s.heap.InPlace o q p →
    a.heap.length ≤ o' → s.Unreached o' q' → s.heap.InPlace o' q' p → o = o' ∧ q = q'
  parked : ∀ d, some d ∈ s.build.deferred → s.Assignable d.owner d.property

/-- Who is configured and waits for nothing has been told. -/
def AllTold (s : Session) : Prop :=
  ∀ t ∈ s.build.objects, t.configured = true → t.pending = 0 → t.notified = true

/-- So has everybody but one component. -/
def AllToldBut (i : Nat) (s : Session) : Prop :=
  ∀ (j : Nat) (r : Tracked), s.build.objects[j]? = some r → j ≠ i → r.configured = true → r.pending = 0 →
    r.notified = true

theorem AllToldBut.allTold {i : Nat} {s : Session} (others : AllToldBut i s)
    (here : ∀ w : Tracked, s.build.objects[i]? = some w → w.configured = true → w.pending = 0 → w.notified = true) :
    AllTold s := by
  intro r hr
  obtain ⟨j, hj⟩ := List.mem_iff_getElem?.mp hr
  by_cases hji : j = i
  · exact here r (hji ▸ hj)
  · exact others j r hj hji

/-- What holds between the operations of a pass that started from `a`. -/
structure Tidy (a s : Session) : Prop extends Neat a s where
  counted : Counted a s
  told : AllTold s

theorem Tidy.sound {a s : Session} (h : Tidy a s) : Sound a s := ⟨h.toLogged, h.counted⟩

/-- From one session to another in a pass that started from `a`, the first `n` components that are tracked
are left as they are, and so is every component that is ready to be configured but the one in hand. -/
structure Onward (a : Session) (n : Nat) (hand : Option ObjectId) (s t : Session) : Prop where
  goesOn : GoesOn s t
  tracked : ∀ (i : Nat) (r : Tracked), s.build.objects[i]? = some r →
    ∃ r' : Tracked, t.build.objects[i]? = some r' ∧ r'.object = r.object ∧
      (r.configured = true → r'.configured = true) ∧ (i < n → r'.configured = r.configured)
  reached : ∀ i name, i < n → .reach i name ∈ t.passActs → .reach i name ∈ s.passActs
  heap : s.heap.SameClasses t.heap
  ready : ∀ p, hand ≠ some p → Ready a s p → Ready a t p

variable {a s t u : Session} {n : Nat} {hand : Option ObjectId}

/-! ## Going on -/

theorem mem_passActs_of_goesOn (h : GoesOn s t) {e : Act} (he : e ∈ s.passActs) : e ∈ t.passActs := by
  obtain ⟨acts, hacts, -⟩ := Session.passActs_of_goesOn h
  exact hacts ▸ List.mem_append_right _ he

/-- What has been reached stays reached. -/
theorem unreached_of_later (h : GoesOn s t)
    (htracked : ∀ (i : Nat) (r : Tracked), s.build.objects[i]? = some r → ∃ r' : Tracked,
      t.build.objects[i]? = some r' ∧ r'.object = r.object ∧ (r.configured = true → r'.configured = true))
    {o : ObjectId} {q : String} (hu : t.Unreached o q) : s.Unreached o q := by
  intro i r hr ho
  obtain ⟨r', hr', ho', hc⟩ := htracked i r hr
  obtain ⟨hf, hn⟩ := hu i r' hr' (ho'.trans ho)
  refine ⟨?_, fun hm => hn (mem_passActs_of_goesOn h hm)⟩
  by_contra htrue
  exact absurd (hc (by simpa using htrue)) (by simp [hf])

namespace Onward

theorem trans {hand' : Option ObjectId} (h : Onward a n hand s t) (h' : Onward a n hand' t u)
    (hh : ∀ p, hand' = some p → hand = some p ∨ ¬ Ready a s p) : Onward a n hand s u where
  goesOn := h.goesOn.trans h'.goesOn
  tracked i r hr := by
    obtain ⟨r', hr', ho, hc, hn⟩ := h.tracked i r hr
    obtain ⟨r'', hr'', ho', hc', hn'⟩ := h'.tracked i r' hr'
    exact ⟨r'', hr'', ho'.trans ho, fun h => hc' (hc h), fun hi => (hn' hi).trans (hn hi)⟩
  reached i name hi hm := h.reached i name hi (h'.reached i name hi hm)
  heap o c hc := by
    obtain ⟨c', hc', he⟩ := h.heap o c hc
    obtain ⟨c'', hc'', he'⟩ := h'.heap o c' hc'
    exact ⟨c'', hc'', he'.trans he⟩
  ready p hp hr := by
    refine h'.ready p (fun hp' => ?_) (h.ready p hp hr)
    exact (hh p hp').elim hp fun hno => hno hr

theorem of_le {m : Nat} (h : Onward a n hand s t) (hm : m ≤ n) : Onward a m hand s t :=
  ⟨h.goesOn,
    fun i r hr => by
      obtain ⟨r', hr', ho, hc, hn⟩ := h.tracked i r hr
      exact ⟨r', hr', ho, hc, fun hi => hn (by omega)⟩,
    fun i name hi => h.reached i name (by omega), h.heap, h.ready⟩

/-- What is in hand may be counted as left as well. -/
theorem of_none (h : Onward a n none s t) : Onward a n hand s t :=
  ⟨h.goesOn, h.tracked, h.reached, h.heap, fun p _ => h.ready p (by simp)⟩

theorem objects_length_le (h : Onward a n hand s t) :
    s.build.objects.length ≤ t.build.objects.length := by
  by_contra hlt
  have inside : t.build.objects.length < s.build.objects.length := by omega
  obtain ⟨r', hr', -⟩ := h.tracked _ _ (List.getElem?_eq_getElem inside)
  exact absurd (List.getElem?_eq_some_iff.mp hr').1 (by omega)

theorem unreached (h : Onward a n hand s t) {o : ObjectId} {q : String} (hu : t.Unreached o q) :
    s.Unreached o q :=
  unreached_of_later h.goesOn (fun i r hr => by
    obtain ⟨r', hr', ho, hc, -⟩ := h.tracked i r hr
    exact ⟨r', hr', ho, hc⟩) hu

theorem assignable (h : Onward a n hand s t) (hs : Neat a s) {i : Nat} {r : Property}
    (hr : s.Assignable i r) : t.Assignable i r := by
  obtain ⟨w, hw, hp, hreached⟩ := hr
  obtain ⟨w', hw', ho, -⟩ := h.tracked i w hw
  have inside := hs.inside w (List.mem_of_getElem? hw)
  refine ⟨w', hw', ?_, fun holds hu => ?_⟩
  · rw [ho]
    exact h.heap.property? (fun c hc => hs.lawful _ c inside.1 hc) hp
  · exact hreached holds (h.unreached (ho ▸ hu))

end Onward

/-! ## Single acts -/

/-- Unless an act tells somebody, as many have been told as before. -/
theorem Build.countP_told_apply {b : Build} {e : Act} (hstart : ∀ root, e ≠ .start root)
    (hn : ∀ i, e ≠ .notify i) (o : ObjectId) :
    (b.apply e).objects.countP (fun t => t.object == o && t.notified)
      = b.objects.countP fun t => t.object == o && t.notified := by
  have same : ∀ (i : Nat) (f : Tracked → Tracked), (∀ t, (f t).object = t.object) →
      (∀ t, (f t).notified = t.notified) →
      (b.objects.modify i f).countP (fun t => t.object == o && t.notified)
        = b.objects.countP fun t => t.object == o && t.notified := by
    intro i f hf hf'
    rcases hi : b.objects[i]? with _ | r
    · rw [List.modify_eq_self (by simpa using hi)]
    · have := Build.countP_modify (fun t : Tracked => t.object == o && t.notified) f hi
      rw [hf, hf'] at this
      omega
  cases e with
  | start root => exact absurd rfl (hstart root)
  | notify i => exact absurd rfl (hn i)
  | track p => simp [Build.apply, List.countP_append]
  | park d => exact same d.owner (fun t => { t with pending := t.pending + 1 }) (fun _ => rfl) fun _ => rfl
  | release i => exact same i (fun t => { t with pending := t.pending - 1 }) (fun _ => rfl) fun _ => rfl
  | configured i => exact same i (fun t => { t with configured := true }) (fun _ => rfl) fun _ => rfl
  | _ => rfl

/-- An act is made, and nothing else. -/
structure Did (e : Act) (s t : Session) : Prop where
  build : t.build = s.build.apply e
  acts : t.acts = e :: s.acts
  heap : t.heap = s.heap
  notStart : ∀ root, e ≠ .start root

namespace Did

variable {e : Act}

theorem goesOn (h : Did e s t) : GoesOn s t := .act h.acts h.notStart

theorem passActs (h : Did e s t) : t.passActs = e :: s.passActs :=
  Session.passActs_act h.acts h.notStart

theorem objects (h : Did e s t) {i : Nat} {r : Tracked} (hr : s.build.objects[i]? = some r) :
    t.build.objects[i]? = some (e.mark i r) := by
  rw [h.build]
  exact Build.objects_apply h.notStart hr

theorem of_objects (h : Did e s t) {i : Nat} {r : Tracked} (hr : t.build.objects[i]? = some r) :
    (∃ u, s.build.objects[i]? = some u ∧ r = e.mark i u) ∨
      ∃ o, e = .track o ∧ i = s.build.objects.length ∧ r = ⟨o, 0, false, false⟩ := by
  rw [h.build] at hr
  exact Build.of_objects_apply h.notStart hr

/-- An act that is in order is explained. -/
theorem logged (h : Did e s t) (hs : Logged a s)
    (ho : e.InOrder ((Ledger.idle a.build).replay s.passActs) s.passActs) : Logged a t where
  build := by
    rw [h.passActs, h.build, ← hs.build]
    exact Ledger.build_after _ e
  orderly := by
    rw [h.passActs]
    exact ⟨ho, hs.orderly⟩

/-- An act that tells nobody keeps the count. -/
theorem counted (h : Did e s t) (hs : Counted a s) (hn : ∀ i, e ≠ .notify i) : Counted a t := by
  intro o
  rw [h.heap, hs, h.build, Build.countP_told_apply h.notStart hn]

theorem unreached (h : Did e s t) {o : ObjectId} {q : String} (hu : t.Unreached o q) :
    s.Unreached o q :=
  unreached_of_later h.goesOn (fun _ _ hr =>
    ⟨_, h.objects hr, Act.mark_object _ _ e, fun hc => Act.mark_configured hc _ e⟩) hu

theorem untracked (h : Did e s t) {o : ObjectId} (ho : s.Untracked o) (he : e ≠ .track o) :
    t.Untracked o := by
  intro r hr
  obtain ⟨i, hi⟩ := List.mem_iff_getElem?.mp hr
  rcases h.of_objects hi with ⟨u, hu, rfl⟩ | ⟨p, rfl, -, rfl⟩
  · rw [Act.mark_object]
    exact ho u (List.mem_of_getElem? hu)
  · exact fun hp => he (hp ▸ rfl)

/-- An act that says of none of the first components that it is configured or one of its properties reached
goes on. -/
theorem onward (h : Did e s t) (htrack : ∀ o, e = .track o → hand = some o)
    (hconfigured : ∀ i, e = .configured i → n ≤ i) (hreach : ∀ i name, e = .reach i name → n ≤ i) :
    Onward a n hand s t where
  goesOn := h.goesOn
  tracked i r hr := by
    refine ⟨_, h.objects hr, Act.mark_object i r e, fun hc => Act.mark_configured hc i e, fun hi => ?_⟩
    exact Act.mark_configured_of_ne (fun he => absurd (hconfigured i he) (by omega)) r
  reached i name hi hm := by
    rw [h.passActs] at hm
    rcases List.mem_cons.mp hm with he | hm
    · exact absurd (hreach i name he.symm) (by omega)
    · exact hm
  heap := by
    rw [h.heap]
    exact .refl _
  ready p hp hr :=
    ⟨hr.recent, h.heap ▸ hr.present, h.untracked hr.untracked fun he => hp (htrack p he),
      fun o q ho hu => h.heap ▸ hr.unheld o q ho (h.unreached hu)⟩

/-- An act that is in order keeps what is neat, if what it tracks is ready and what it parks can be
assigned. -/
theorem neat (h : Did e s t) (hs : Neat a s)
    (ho : e.InOrder ((Ledger.idle a.build).replay s.passActs) s.passActs)
    (htrack : ∀ o, e = .track o → Ready a s o) (hpark : ∀ d, e = .park d → s.Assignable d.owner d.property)
    (hreach : ∀ i name, e = .reach i name → i < s.build.objects.length)
    (henter : ∀ i names, e = .enter i names → i < s.build.objects.length) : Neat a t := by
  have longer : ∀ {i : Nat}, i < s.build.objects.length → i < t.build.objects.length := fun hi =>
    (List.getElem?_eq_some_iff.mp (h.objects (List.getElem?_eq_getElem hi))).1
  have onward : Onward a 0 e.tracked? s t :=
    h.onward (fun o he => he ▸ rfl) (fun _ _ => Nat.zero_le _) fun _ _ _ => Nat.zero_le _
  refine ⟨h.logged hs.toLogged ho, ?_, ?_, ?_, ?_, ?_, ?_, ?_, ?_, ?_⟩
  · rw [h.heap]
    exact hs.longer
  · rw [h.build]
    exact Build.distinct_apply h.notStart (fun o he => (htrack o he).untracked) hs.distinct
  · intro r hr
    rw [h.heap]
    obtain ⟨i, hi⟩ := List.mem_iff_getElem?.mp hr
    rcases h.of_objects hi with ⟨u, hu, rfl⟩ | ⟨o, he, -, rfl⟩
    · rw [Act.mark_object]
      exact hs.inside u (List.mem_of_getElem? hu)
    · exact ⟨(htrack o he).recent, (htrack o he).present⟩
  · intro i name hm
    rw [h.passActs] at hm
    rcases List.mem_cons.mp hm with he | hm
    · exact longer (hreach i name he.symm)
    · exact longer (hs.reached i name hm)
  · intro i names hm
    rw [h.passActs] at hm
    rcases List.mem_cons.mp hm with he | hm
    · exact longer (henter i names he.symm)
    · exact longer (hs.entered i names hm)
  · rw [h.heap]
    exact hs.lawful
  · intro o q p hrecent hu hp
    rw [h.heap] at hp ⊢
    obtain ⟨recent, present, untracked⟩ := hs.held o q p hrecent (h.unreached hu) hp
    refine ⟨recent, present, h.untracked untracked fun he => ?_⟩
    exact (htrack p he).unheld o q hrecent (h.unreached hu) hp
  · intro o q o' q' p hrecent hu hp hrecent' hu' hp'
    rw [h.heap] at hp hp'
    exact hs.unshared o q o' q' p hrecent (h.unreached hu) hp hrecent' (h.unreached hu') hp'
  · intro d hd
    rw [h.build] at hd
    rcases Build.of_deferred_apply h.notStart hd with ⟨d', hd', howner, hproperty⟩ | rfl
    · rw [← howner, ← hproperty]
      exact onward.assignable hs (hs.parked d' hd')
    · exact onward.assignable hs (hpark d rfl)

/-- Where all had been told, all have after an act that neither releases a component nor says that it is
configured. -/
theorem told (h : Did e s t) (hs : AllTold s) (hrelease : ∀ i, e ≠ .release i)
    (hconfigured : ∀ i, e ≠ .configured i) : AllTold t := by
  intro r hr hc hp
  obtain ⟨i, hi⟩ := List.mem_iff_getElem?.mp hr
  rcases h.of_objects hi with ⟨u, hu, rfl⟩ | ⟨o, -, -, rfl⟩
  · have before := hs u (List.mem_of_getElem? hu)
    cases e with
    | release j => exact absurd rfl (hrelease j)
    | configured j => exact absurd rfl (hconfigured j)
    | park d =>
        simp only [Act.mark] at hc hp ⊢
        split at hp
        · exact absurd hp (by simp)
        next hd =>
          rw [if_neg hd] at hc ⊢
          exact before hc hp
    | notify j =>
        simp only [Act.mark] at hc hp ⊢
        split
        · rfl
        next hj =>
          rw [if_neg hj] at hc hp
          exact before hc hp
    | _ => exact before hc hp
  · exact absurd hc (by simp)

/-- Where all had been told, all but one have when that one is released or said to be configured. -/
theorem told_but {i : Nat} (h : Did e s t) (hs : AllTold s) (he : e = .release i ∨ e = .configured i) :
    AllToldBut i t := by
  intro j r hr hj hconf hpend
  have other : ∀ w, e.mark j w = w := by
    obtain rfl | rfl := he
    · exact fun w => if_neg (Ne.symm hj)
    · exact fun w => if_neg (Ne.symm hj)
  rcases h.of_objects hr with ⟨w, hw, rfl⟩ | ⟨o, rfl, -⟩
  · rw [other] at hconf hpend ⊢
    exact hs w (List.mem_of_getElem? hw) hconf hpend
  · exact absurd he (by simp)

/-- Where all but one had been told, all have after telling that one. -/
theorem all_told {i : Nat} (h : Did (.notify i) s t) (hs : AllToldBut i s) : AllTold t := by
  refine AllToldBut.allTold (i := i) (fun j r hr hj hconf hpend => ?_) fun r hr _ _ => ?_
  · rcases h.of_objects hr with ⟨r', hr', rfl⟩ | ⟨o, ho, -⟩
    · simp only [Act.mark, Ne.symm hj, if_false] at hconf hpend ⊢
      exact hs j r' hr' hj hconf hpend
    · exact absurd ho (by simp)
  · rcases h.of_objects hr with ⟨r', -, rfl⟩ | ⟨o, ho, -⟩
    · simp [Act.mark]
    · exact absurd ho (by simp)

end Did

/-! ## Changes of the heap -/

/-- The container knows what it knew, and has done what it had done. -/
structure Quietly (s t : Session) : Prop where
  build : t.build = s.build
  acts : t.acts = s.acts

namespace Quietly

variable {o : ObjectId} {q : String}

theorem passActs (h : Quietly s t) : t.passActs = s.passActs := by
  unfold Session.passActs
  rw [h.acts]

theorem logged (h : Quietly s t) (hs : Logged a s) : Logged a t :=
  ⟨by rw [h.passActs, h.build]; exact hs.build, by rw [h.passActs]; exact hs.orderly⟩

theorem unreached_iff (h : Quietly s t) : t.Unreached o q ↔ s.Unreached o q := by
  unfold Session.Unreached
  rw [h.build, h.passActs]

theorem untracked_iff (h : Quietly s t) : t.Untracked o ↔ s.Untracked o := by
  unfold Session.Untracked
  rw [h.build]

theorem onward (h : Quietly s t) (hs : s.heap.SameClasses t.heap)
    (hready : ∀ p, hand ≠ some p → Ready a s p → Ready a t p) : Onward a n hand s t where
  goesOn := .of_eq h.acts
  tracked _ r hr := ⟨r, h.build ▸ hr, rfl, id, fun _ => rfl⟩
  reached _ _ _ hm := h.passActs ▸ hm
  heap := hs
  ready := hready

/-- What is ready stays so if properties that have not been reached hold nothing else than before. -/
theorem ready (h : Quietly s t) (hs : s.heap.SameClasses t.heap)
    (hplace : ∀ o q p, a.heap.length ≤ o → s.Unreached o q → t.heap.InPlace o q p → s.heap.InPlace o q p)
    {p : ObjectId} (hp : Ready a s p) : Ready a t p :=
  ⟨hp.recent, Nat.lt_of_lt_of_le hp.present hs.length_le, h.untracked_iff.mpr hp.untracked,
    fun o q ho hu hi => hp.unheld o q ho (h.unreached_iff.mp hu) (hplace o q p ho (h.unreached_iff.mp hu) hi)⟩

/-- What is neat stays so if properties that have not been reached hold nothing else than before. -/
theorem neat (h : Quietly s t) (hs : Neat a s) (hclasses : s.heap.SameClasses t.heap)
    (hlength : t.heap.length = s.heap.length)
    (hplace : ∀ o q p, a.heap.length ≤ o → s.Unreached o q → t.heap.InPlace o q p → s.heap.InPlace o q p) :
    Neat a t where
  toLogged := h.logged hs.toLogged
  longer := hlength ▸ hs.longer
  distinct := by
    rw [h.build]
    exact hs.distinct
  inside := by
    rw [h.build, hlength]
    exact hs.inside
  reached := by
    rw [h.build, h.passActs]
    exact hs.reached
  entered := by
    rw [h.build, h.passActs]
    exact hs.entered
  lawful o c ho hc := by
    have inside := (List.getElem?_eq_some_iff.mp hc).1
    rw [hlength] at inside
    obtain ⟨c', hc', same⟩ := hclasses o _ (List.getElem?_eq_getElem inside)
    obtain rfl : c = c' := Option.some.inj (hc.symm.trans hc')
    rw [same]
    exact hs.lawful o _ ho (List.getElem?_eq_getElem inside)
  held o q p ho hu hp := by
    have before := h.unreached_iff.mp hu
    rw [hlength, h.untracked_iff]
    exact hs.held o q p ho before (hplace o q p ho before hp)
  unshared o q o' q' p ho hu hp ho' hu' hp' := by
    have before := h.unreached_iff.mp hu
    have before' := h.unreached_iff.mp hu'
    exact hs.unshared o q o' q' p ho before (hplace o q p ho before hp) ho' before'
      (hplace o' q' p ho' before' hp')
  parked := by
    have onward : Onward a 0 none s t := h.onward hclasses fun p _ => h.ready hclasses hplace
    rw [h.build]
    exact fun d hd => onward.assignable hs (hs.parked d hd)

end Quietly

/-- Assigning a property that has been found, and reached if it can hold a component. -/
theorem Tidy.set (hs : Tidy a s) {i : Nat} {w : Tracked} {r : Property}
    (hw : s.build.objects[i]? = some w) (hr : s.Assignable i r) (v : Value) :
    Tidy a { s with heap := (s.heap.set w.object r.name v).2 } ∧
      Onward a n none s { s with heap := (s.heap.set w.object r.name v).2 } := by
  have quietly : Quietly s { s with heap := (s.heap.set w.object r.name v).2 } := ⟨rfl, rfl⟩
  have classes := s.heap.sameClasses_set w.object r.name v
  obtain ⟨w', hw', found, reached⟩ := hr
  obtain rfl : w = w' := Option.some.inj (hw.symm.trans hw')
  have recent := (hs.inside w (List.mem_of_getElem? hw)).1
  have place : ∀ o q p, a.heap.length ≤ o → s.Unreached o q →
      (s.heap.set w.object r.name v).2.InPlace o q p → s.heap.InPlace o q p := by
    intro o q p ho hu hp
    rcases Heap.inPlace_of_set (fun c hc => hs.lawful _ c recent hc) found v hp with hp | ⟨rfl, rfl, holds⟩
    · exact hp
    · exact absurd hu (reached holds)
  refine ⟨⟨quietly.neat hs.toNeat classes (Heap.length_set _ _ _ _) place, fun o => ?_, hs.told⟩,
    quietly.onward classes fun p _ => quietly.ready classes place⟩
  exact (Heap.times_set _ _ _ _ o).trans (hs.counted o)

/-- A constructor makes something fresh, which is ready to be configured. -/
theorem Tidy.construct (hs : Tidy a s) {made : ObjectId × Heap} (hf : s.heap.Fresh made) :
    Tidy a { s with heap := made.2 } ∧ Ready a { s with heap := made.2 } made.1 ∧
      Onward a n none s { s with heap := made.2 } := by
  have quietly : Quietly s { s with heap := made.2 } := ⟨rfl, rfl⟩
  have classes := hf.sameClasses
  have longer := classes.length_le
  have old : ∀ {o q p}, made.2.InPlace o q p → s.heap.InPlace o q p ∨ s.heap.length ≤ o := by
    intro o q p hp
    rcases Nat.lt_or_ge o s.heap.length with ho | ho
    · exact .inl (hf.inPlace_of_lt ho hp)
    · exact .inr ho
  have untracked : ∀ {o}, s.heap.length ≤ o → s.Untracked o := by
    rintro o ho w hw rfl
    exact Nat.not_lt.mpr ho (hs.inside w hw).2
  have ready : ∀ p, Ready a s p → Ready a { s with heap := made.2 } p := by
    intro p hp
    refine ⟨hp.recent, Nat.lt_of_lt_of_le hp.present longer, hp.untracked, fun o q ho hu hi => ?_⟩
    rcases old hi with hi | hnew
    · exact hp.unheld o q ho hu hi
    · exact Nat.not_lt.mpr (hf.inner o q p hnew hi).1 hp.present
  refine ⟨⟨⟨quietly.logged hs.toLogged, hs.longer.trans longer, hs.distinct, ?_, hs.reached, hs.entered, ?_, ?_, ?_,
    ?_⟩, fun o => ?_, hs.told⟩, ⟨?_, hf.present, untracked hf.recent, ?_⟩, quietly.onward classes fun p _ => ready p⟩
  · exact fun w hw => ⟨(hs.inside w hw).1, Nat.lt_of_lt_of_le (hs.inside w hw).2 longer⟩
  · intro o c ho hc
    rcases Nat.lt_or_ge o s.heap.length with hlt | hge
    · exact hs.lawful o c ho ((hf.kept o hlt).symm.trans hc)
    · exact (hf.lawful o c hge hc).1
  · intro o q p ho hu hp
    rcases old hp with hp | hnew
    · obtain ⟨recent, present, free⟩ := hs.held o q p ho hu hp
      exact ⟨recent, Nat.lt_of_lt_of_le present longer, free⟩
    · obtain ⟨recent, present, -⟩ := hf.inner o q p hnew hp
      exact ⟨hs.longer.trans recent, present, untracked recent⟩
  · intro o q o' q' p ho hu hp ho' hu' hp'
    rcases old hp with hold | hnew <;> rcases old hp' with hold' | hnew'
    · exact hs.unshared o q o' q' p ho hu hold ho' hu' hold'
    · exact absurd (hs.held o q p ho hu hold).2.1 (Nat.not_lt.mpr (hf.inner o' q' p hnew' hp').1)
    · exact absurd (hs.held o' q' p ho' hu' hold').2.1 (Nat.not_lt.mpr (hf.inner o q p hnew hp).1)
    · exact hf.unshared o q o' q' p hnew hnew' hp hp'
  · have onward : Onward a 0 none s { s with heap := made.2 } := quietly.onward classes fun p _ => ready p
    exact fun d hd => onward.assignable hs.toNeat (hs.parked d hd)
  · exact (hf.times_eq o).trans (hs.counted o)
  · exact hs.longer.trans hf.recent
  · intro o q ho hu hi
    rcases old hi with hi | hnew
    · exact Nat.not_lt.mpr hf.recent (hs.held o q made.1 ho hu hi).2.1
    · exact (hf.inner o q made.1 hnew hi).2.2 rfl

end ObjectGraph
